import Qx86.Execute.Image
import Qx86.Machine.Operands
import Qx86.Machine.Stack

namespace Qx86

open Foundation Op Operations Register

variable {w : ElementWidth} {p q : Pipeline} {ps qs : List Pipeline} {vm t : VM}
  {x : BitVec w.operand.bits} {vs : List SizedValue}

def Pipeline.native (p : Pipeline) : ElementWidth := .native p.sizeOverride

/-- An operand that is as wide as the slots of the stack. -/
def Pipeline.FullWidth (p : Pipeline) : Prop :=
  (p.args 0).location.size = p.native.operand.size

/-- The second slot pops what the first one pushes, into a register that is not ESP. -/
structure PopsInto (p q : Pipeline) : Prop where
  size : q.sizeOverride = p.sizeOverride
  register : ∃ r, r ≠ esp ∧ (q.args 0).location = .registerValue r q.native.operand.size

/-- Pushes one after the other, with the values of their operands. -/
def pushValues : List Pipeline → VM → Outcome VMError (List SizedValue) × VM
  | [], vm => (.ok [], vm)
  | p :: ps, vm =>
    runBind (.ofExcept (vm.getArg (p.args 0).location), vm) fun v vm ↦
      runBind ((LogicFn.push.logic p).run vm) fun _ t ↦
        runBind (pushValues ps t) fun vs u ↦ (.ok (v :: vs), u)

/-- Pops one after the other, with the values that are in their operands afterwards. -/
def popValues : List Pipeline → VM → Outcome VMError (List SizedValue) × VM
  | [], vm => (.ok [], vm)
  | q :: qs, vm =>
    runBind ((LogicFn.pop.logic q).run vm) fun _ t ↦
      runBind (.ofExcept (t.getArg (q.args 0).location), t) fun v t ↦
        runBind (popValues qs t) fun vs u ↦ (.ok (v :: vs), u)

section Slot

theorem native_hasWidth (p : Pipeline) : p.HasWidth p.native := by
  rw [Pipeline.native]
  cases h : p.sizeOverride with
  | false => exact h
  | true => exact h

theorem native_ne_byte (p : Pipeline) : p.native ≠ .byte := by
  rw [Pipeline.native]
  cases p.sizeOverride <;> nofun

theorem push_run_ok (hw : p.HasWidth w) (hbyte : w ≠ .byte)
    (ha : vm.getArg (p.args 0).location = .ok (w.operand.sized x)) :
    (LogicFn.push.logic p).run vm = (.ok (), t) ↔ vm.push w x = .ok t := by
  have hrun : (Operations.push p : Op .straight Unit).run vm =
      (pushStack (w.operand.sized x) p : Op .straight Unit).run vm := by
    rw [Operations.push, run_bind, run_getArg, ha]
    rfl
  exact (Eq.congr hrun rfl).trans (pushStack_ok hw hbyte)

theorem pop_run {r : Register} (hw : q.HasWidth w) (hbyte : w ≠ .byte)
    (hq : (q.args 0).location = .registerValue r w.operand.size)
    (h : vm.getMem (vm.regs esp) w.operand.size = .ok (w.operand.sized x)) :
    (LogicFn.pop.logic q).run vm =
      (.ok (), (vm.withStack (vm.regs esp + w.step) vm.memory).setReg r (w.operand.sized x)) := by
  have hset := ArgLocation.setArg_register (vm.withStack (vm.regs esp + w.step) vm.memory) r x
  have hpop : (Operations.pop q : Op .straight Unit).run vm =
      storeResult (vm.withStack (vm.regs esp + w.step) vm.memory)
        ((vm.withStack (vm.regs esp + w.step) vm.memory).setArg (q.args 0).location
          (w.operand.sized x)) := by
    rw [pop_eq hw hbyte, run_bind, popSized_run hbyte h]
    rfl
  rw [← hq] at hset
  exact hpop.trans (congrArg (storeResult _) hset)

theorem setReg_stack {r : Register} (hbyte : w ≠ .byte) (hr : r ≠ esp) (vm : VM)
    (x : BitVec w.operand.bits) :
    (vm.setReg r (w.operand.sized x)).regs esp = vm.regs esp ∧
      (vm.setReg r (w.operand.sized x)).memory = vm.memory := by
  rw [VM.setReg_eq, host_self hbyte]
  exact ⟨VM.setReg32_of_ne hr.symm .., rfl⟩

end Slot

section Run

theorem pushValues_ok (hps : ∀ p ∈ ps, p.FullWidth) (h : pushValues ps vm = (.ok vs, t)) :
    ∃ xs : List StackValue, vm.pushList xs = .ok t ∧
      vs = xs.map (fun v ↦ v.1.operand.sized v.2) ∧ xs.map Sigma.fst = ps.map Pipeline.native := by
  induction ps generalizing vm vs with
  | nil =>
    cases h
    exact ⟨[], rfl, rfl, rfl⟩
  | cons p ps ih =>
    obtain ⟨hp, hps⟩ := List.forall_mem_cons.mp hps
    obtain ⟨v, vm', hv, hrest⟩ := runBind_eq_ok.mp h
    obtain ⟨⟨⟩, u, hu, hrest⟩ := runBind_eq_ok.mp hrest
    obtain ⟨vs', t', hvs, hlast⟩ := runBind_eq_ok.mp hrest
    cases hlast
    obtain ⟨hread, rfl⟩ := Prod.mk.inj hv
    have harg := Outcome.ofExcept_eq_ok.mp hread
    obtain ⟨x, rfl⟩ := ElementWidth.sized_of_size
      ((VM.getArg_size (hp ▸ p.native.size_ne_qword) harg).trans hp)
    obtain ⟨xs, hpush, rfl, hwidths⟩ := ih hps hvs
    refine ⟨⟨p.native, x⟩ :: xs, ?_, rfl, congrArg (p.native :: ·) hwidths⟩
    have hu' := (push_run_ok (native_hasWidth p) (native_ne_byte p) harg).mp hu
    exact except_bind_eq_ok.mpr ⟨u, hu', hpush⟩

theorem popValues_of_holds {xs : List StackValue}
    (hqs : List.Forall₂ (fun (v : StackValue) q ↦ q.native = v.1 ∧ ∃ r, r ≠ esp ∧
      (q.args 0).location = .registerValue r v.1.operand.size) xs qs)
    (h : vm.Holds (vm.regs esp) xs) :
    ∃ u, popValues qs vm = (.ok (xs.map fun v ↦ v.1.operand.sized v.2), u) ∧
      u.regs esp = vm.regs esp + BitVec.ofNat 32 (stackSize xs) ∧ u.memory = vm.memory := by
  induction hqs generalizing vm with
  | nil => exact ⟨vm, rfl, (BitVec.add_zero _).symm, rfl⟩
  | @cons v q xs qs hq hqs ih =>
    obtain ⟨hnative, r, hr, hloc⟩ := hq
    obtain ⟨hv, hxs⟩ := h
    obtain ⟨w, x⟩ := v
    obtain rfl : q.native = w := hnative
    have hbyte := native_ne_byte q
    have hrun := pop_run (native_hasWidth q) hbyte hloc hv
    obtain ⟨t, ht⟩ : ∃ t, t = (vm.withStack (vm.regs esp + q.native.step) vm.memory).setReg r
      (q.native.operand.sized x) := ⟨_, rfl⟩
    obtain ⟨hesp, hmemory⟩ : t.regs esp = vm.regs esp + q.native.step ∧ t.memory = vm.memory := by
      obtain ⟨hesp, hmemory⟩ := setReg_stack hbyte hr
        (vm.withStack (vm.regs esp + q.native.step) vm.memory) x
      rw [ht]
      exact ⟨hesp.trans (VM.withStack_esp ..), hmemory⟩
    have hread : t.getArg (q.args 0).location = .ok (q.native.operand.sized x) := by
      rw [hloc, ht]
      exact congrArg Except.ok (VM.getReg_setReg _ r x)
    rw [← ht] at hrun
    have hheld : t.Holds (t.regs esp) xs := by
      rw [hesp]
      exact (VM.holds_congr hmemory ..).mpr hxs
    obtain ⟨u, hu, hesp', hmemory'⟩ := ih hheld
    refine ⟨u, ?_, ?_, hmemory'.trans hmemory⟩
    · rw [popValues, hrun, runBind_ok, hread, Outcome.ofExcept_ok, runBind_ok, hu]
      rfl
    · rw [hesp', hesp, BitVec.add_assoc, stackSize_cons, BitVec.ofNat_add]
      rfl

end Run

section Order

def pushedSize (ps : List Pipeline) : ℕ := (ps.map fun p ↦ p.native.bytes).sum

def VM.BelowStack (vm : VM) (n : ℕ) (a : BitVec 32) : Prop := (vm.regs esp - 1 - a).toNat < n

theorem outside_stack {n : ℕ} {a : BitVec 32} (h : ¬vm.BelowStack n a) :
    (a - vm.regs esp).toNat + 1 + n ≤ 2 ^ 32 := by
  have ha := a.isLt
  have hesp := (vm.regs esp).isLt
  rw [VM.BelowStack, BitVec.toNat_sub, BitVec.toNat_sub] at h
  rw [BitVec.toNat_sub]
  change ¬(2 ^ 32 - a.toNat + (2 ^ 32 - 1 + (vm.regs esp).toNat) % 2 ^ 32) % 2 ^ 32 < n at h
  omega

theorem popsInto_values {xs : List StackValue}
    (hwidths : xs.map Sigma.fst = ps.map Pipeline.native) (h : List.Forall₂ PopsInto ps qs) :
    List.Forall₂ (fun (v : StackValue) q ↦ q.native = v.1 ∧ ∃ r, r ≠ esp ∧
      (q.args 0).location = .registerValue r v.1.operand.size) xs qs := by
  have hnative : List.Forall₂ (fun w (q : Pipeline) ↦ q.native = w ∧ ∃ r, r ≠ esp ∧
      (q.args 0).location = .registerValue r w.operand.size) (ps.map Pipeline.native) qs := by
    refine List.forall₂_map_left_iff.mpr (h.imp ?_)
    intro p q hpq
    have hsame : q.native = p.native := congrArg ElementWidth.native hpq.size
    exact ⟨hsame, hsame ▸ hpq.register⟩
  rw [← hwidths] at hnative
  exact List.forall₂_map_left_iff.mp hnative

theorem stackSize_eq {xs : List StackValue}
    (hwidths : xs.map Sigma.fst = ps.map Pipeline.native) : stackSize xs = pushedSize ps := by
  have h := congrArg (fun ws ↦ (ws.map ElementWidth.bytes).sum) hwidths
  rw [List.map_map, List.map_map] at h
  exact h

/-- What is pushed last is popped first, whatever the widths are, and nothing else in memory
changes. -/
theorem stack_lifo (ps qs : List Pipeline) (vm t : VM) (vs : List SizedValue)
    (hps : ∀ p ∈ ps, p.FullWidth) (hqs : List.Forall₂ PopsInto ps qs)
    (h : pushValues ps vm = (.ok vs, t)) :
    ∃ u, popValues qs.reverse t = (.ok vs.reverse, u) ∧ u.regs esp = vm.regs esp ∧
      ∀ a, ¬vm.BelowStack (pushedSize ps) a → u.getMem a .byte = vm.getMem a .byte := by
  obtain ⟨xs, hpush, rfl, hwidths⟩ := pushValues_ok hps h
  have hpops := List.forall₂_reverse_iff.mpr (popsInto_values hwidths hqs)
  obtain ⟨u, hu, hesp, hmemory⟩ := popValues_of_holds hpops (VM.pushList_holds hpush)
  refine ⟨u, ?_, ?_, ?_⟩
  · rw [hu, List.map_reverse]
  · rw [hesp, stackSize_reverse, VM.pushList_esp hpush, BitVec.sub_add_cancel]
  · intro a ha
    rw [← stackSize_eq hwidths] at ha
    exact (VM.getMem_congr hmemory a _).trans
      (VM.pushList_apart hpush .byte a (outside_stack ha))

def dataStack : VM :=
  { createVm ⟨List.replicate 16 0, zeros_nonempty⟩ with
    regs := fun r ↦ if r = esp then 0x80000020 else 0 }

def mixedPushes : List Pipeline :=
  [operandSlot false ![.immediate (.dword 7), .none, .none],
    operandSlot true ![.immediate (.word 9), .none, .none]]

def mixedPops : List Pipeline :=
  [operandSlot false ![.registerValue ebx .dword, .none, .none],
    operandSlot true ![.registerValue ecx .word, .none, .none]]

theorem stack_lifo_mixed :
    ∃ u, popValues mixedPops.reverse (pushValues mixedPushes dataStack).2 =
        (.ok [.word 9, .dword 7], u) ∧ u.regs esp = 0x80000020 := by
  have hwide : ∀ p ∈ mixedPushes, p.FullWidth :=
    List.forall_mem_cons.mpr ⟨rfl, List.forall_mem_singleton.mpr rfl⟩
  have hpops : List.Forall₂ PopsInto mixedPushes mixedPops :=
    .cons ⟨rfl, ebx, by decide, rfl⟩ (.cons ⟨rfl, ecx, by decide, rfl⟩ .nil)
  have hvalues : (pushValues mixedPushes dataStack).1 = .ok [.dword 7, .word 9] := rfl
  obtain ⟨u, hu, hesp, -⟩ := stack_lifo mixedPushes mixedPops dataStack _ _ hwide hpops
    (Prod.ext hvalues rfl)
  exact ⟨u, hu, hesp⟩

end Order

end Qx86
