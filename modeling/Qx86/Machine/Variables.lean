import Qx86.Machine.Accumulator

namespace Qx86

open Foundation Halves Op Operations Register

variable {ι : Type} {w : ElementWidth} {l : ι → ArgLocation} {x y : ι → BitVec w.operand.bits}
  {p : Pipeline} {vm t : VM}

/-- Operands of one width with nothing in common, used as variables, and what is in them. -/
structure Variables (w : ElementWidth) (l : ι → ArgLocation) (x : ι → BitVec w.operand.bits)
    (vm : VM) : Prop where
  value : ∀ i, vm.getArg (l i) = .ok (w.operand.sized (x i))
  separate : ∀ i j, i ≠ j → vm.Separate w (l i) w (l j)

namespace Variables

theorem size (h : Variables w l x vm) (i : ι) : (l i).size = w.operand.size :=
  size_of_getArg (h.value i)

theorem flags (h : Variables w l x vm) (f : X86Flags) :
    Variables w l x { vm with flags := f } where
  value i := (VM.getArg_flags ..).trans (h.value i)
  separate i j hij := (h.separate i j hij).congr (fun _ _ ↦ rfl) fun _ _ ↦ rfl

variable {i : ι} {v : BitVec w.operand.bits}

theorem regs (h : Variables w l x vm) (ht : vm.setArg (l i) (w.operand.sized v) = .ok t) (j : ι) :
    ∀ r ∈ (l j).addressedBy, t.regs r = vm.regs r := by
  by_cases hj : i = j
  · subst hj
    exact VM.setArg_addressedBy (h.size i) ht
  · exact (h.separate i j hj).regs (h.size i) ht

theorem store [DecidableEq ι] (h : Variables w l x vm)
    (ht : vm.setArg (l i) (w.operand.sized v) = .ok t) :
    Variables w l (Function.update x i v) t := by
  constructor
  · intro j
    by_cases hj : j = i
    · subst hj
      rw [Function.update_self]
      exact VM.getArg_setArg (h.size j) ht
    · rw [Function.update_of_ne hj]
      have hkept := (h.separate i j (Ne.symm hj)).getArg (h.size i) (h.size j) ht
      exact hkept.trans (h.value j)
  · intro j k hjk
    exact (h.separate j k hjk).congr (h.regs ht j) (h.regs ht k)

theorem writeable (h : Variables w l x vm) (ht : vm.setArg (l i) (w.operand.sized v) = .ok t)
    {j : ι} (hj : vm.Writeable w (l j)) : t.Writeable w (l j) :=
  hj.congr (h.size j) (VM.setArg_sameSections ht) (ArgLocation.getArgLea_congr (h.regs ht j))

theorem registers {r : ι → Register} (hr : Function.Injective r)
    (hx : ∀ i, vm.getReg (r i) w.operand.size = w.operand.sized (x i)) :
    Variables w (fun i ↦ .registerValue (r i) w.operand.size) x vm where
  value i := congrArg Except.ok (hx i)
  separate _ _ hij :=
    { apart := VM.host_apart w fun h ↦ hij (hr h)
      address := fun _ h ↦ absurd h List.not_mem_nil }

end Variables

/-- A step that succeeds, leaves values in the variables, and keeps which of them can be stored
into. -/
def Sets (w : ElementWidth) (l : ι → ArgLocation) (vm : VM) (y : ι → BitVec w.operand.bits)
    (o : Outcome VMError Unit × VM) : Prop :=
  ∃ t, o = (.ok (), t) ∧ Variables w l y t ∧ ∀ k, vm.Writeable w (l k) → t.Writeable w (l k)

namespace Sets

theorem bind {o : Outcome VMError Unit × VM} {f : VM → Outcome VMError Unit × VM}
    {P : (ι → BitVec w.operand.bits) → Prop} (h : Sets w l vm y o)
    (hf : ∀ t, Variables w l y t → (∀ k, vm.Writeable w (l k) → t.Writeable w (l k)) →
      ∃ z, Sets w l t z (f t) ∧ P z) :
    ∃ z, Sets w l vm z (runBind o fun _ ↦ f) ∧ P z := by
  obtain ⟨t, rfl, ht, hkeep⟩ := h
  obtain ⟨z, ⟨u, hu, hz, hkeep'⟩, hp⟩ := hf t ht hkeep
  exact ⟨z, ⟨u, hu, hz, fun k hk ↦ hkeep' k (hkeep k hk)⟩, hp⟩

variable [DecidableEq ι] {i j : ι} {v : BitVec w.operand.bits}

theorem store (h : Variables w l x vm) (hi : vm.Writeable w (l i)) (f : X86Flags) :
    ∃ t, vm.setArg (l i) (w.operand.sized v) = .ok t ∧
      Sets w l vm (Function.update x i v) (.ok (), { t with flags := f }) := by
  obtain ⟨t, ht⟩ := hi.store (h.size i) v
  refine ⟨t, ht, _, rfl, (h.store ht).flags f, fun k hk ↦ ?_⟩
  exact (h.writeable ht hk).congr (h.size k) (.refl _) (ArgLocation.getArgLea_congr fun _ _ ↦ rfl)

theorem mov (h : Variables w l x vm) (hto : (p.args 0).location = l i)
    (hfrom : (p.args 1).location = l j) (hi : vm.Writeable w (l i)) :
    Sets w l vm (Function.update x i (x j)) ((LogicFn.mov.logic p).run vm) := by
  obtain ⟨t, ht, hset⟩ := store (v := x j) h hi vm.flags
  have hrun : (LogicFn.mov.logic p).run vm = (.ok (), t) := by
    change runBind ((getArg (p.args 1).location : Op .straight _).run vm) _ = _
    rw [run_getArg, hfrom, h.value j]
    change storeResult vm (vm.setArg (p.args 0).location (w.operand.sized (x j))) = _
    rw [hto, ht]
    rfl
  rw [hrun]
  refine ⟨t, rfl, h.store ht, fun k hk ↦ h.writeable ht hk⟩

end Sets

/-- The accumulator pair is where the instructions of the width have it. -/
structure PairAt (w : ElementWidth) (l : ι → ArgLocation) (low high : ι) : Prop where
  accumulator : l low = .registerValue eax w.operand.size
  extension : l high = .registerValue w.upper w.operand.size

namespace PairAt

variable {low high : ι} (hl : PairAt w l low high)

include hl

theorem accumulator_value (h : Variables w l x vm) : vm.accumulator w = x low := by
  have hvalue := h.value low
  rw [hl.accumulator] at hvalue
  have hreg : vm.getReg eax w.operand.size = w.operand.sized (x low) := Except.ok.inj hvalue
  rw [accumulator_eq] at hreg
  exact ElementWidth.sized_injective hreg

theorem extension_value (h : Variables w l x vm) : vm.extension w = x high := by
  have hvalue := h.value high
  rw [hl.extension] at hvalue
  have hreg : vm.getReg w.upper w.operand.size = w.operand.sized (x high) :=
    Except.ok.inj hvalue
  rw [VM.extension_eq] at hreg
  exact ElementWidth.sized_injective hreg

theorem setAccumulator (vm : VM) (v : BitVec w.operand.bits) :
    vm.setArg (l low) (w.operand.sized v) = .ok (vm.setReg eax (w.operand.sized v)) := by
  rw [hl.accumulator]
  exact ArgLocation.setArg_register vm eax v

theorem setExtension (vm : VM) (v : BitVec w.operand.bits) :
    vm.setArg (l high) (w.operand.sized v) = .ok (vm.setReg w.upper (w.operand.sized v)) := by
  rw [hl.extension]
  exact ArgLocation.setArg_register vm w.upper v

theorem writeable_low (vm : VM) : vm.Writeable w (l low) := ⟨_, hl.setAccumulator vm 0⟩

theorem writeable_high (vm : VM) : vm.Writeable w (l high) := ⟨_, hl.setExtension vm 0⟩

theorem setPair [DecidableEq ι] (h : Variables w l x vm) (a b : BitVec w.operand.bits)
    (f : X86Flags) :
    Sets w l vm (Function.update (Function.update x low a) high b)
      (.ok (), { vm.setPair w b a with flags := f }) := by
  have hlow := hl.setAccumulator vm a
  have hhigh := hl.setExtension (vm.setReg eax (w.operand.sized a)) b
  have hstored := h.store hlow
  refine ⟨_, rfl, (hstored.store hhigh).flags f, fun k hk ↦ ?_⟩
  exact (hstored.writeable hhigh (h.writeable hlow hk)).congr (h.size k) (.refl _)
    (ArgLocation.getArgLea_congr fun _ _ ↦ rfl)

end PairAt

end Qx86
