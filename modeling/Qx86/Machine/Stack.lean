import Qx86.Machine.Arithmetic

namespace Qx86

open Foundation Words Op Operations Register

variable {e : Effects} {w : ElementWidth} {p : Pipeline} {vm t u : VM}
  {x : BitVec w.operand.bits}

abbrev StackValue := Σ w : ElementWidth, BitVec w.operand.bits

def stackSize (vs : List StackValue) : ℕ := (vs.map fun v ↦ v.1.bytes).sum

namespace VM

def push (vm : VM) (w : ElementWidth) (x : BitVec w.operand.bits) : Except VMError VM :=
  (vm.setReg32 esp (vm.regs esp - w.step)).setMem (vm.regs esp - w.step) (w.operand.sized x)

def pushList (vm : VM) : List StackValue → Except VMError VM
  | [] => .ok vm
  | v :: vs => do
    let t ← vm.push v.1 v.2
    t.pushList vs

/-- Some values are in memory, one above the other. -/
def Holds (vm : VM) (a : BitVec 32) : List StackValue → Prop
  | [] => True
  | v :: vs => vm.getMem a v.1.operand.size = .ok (v.1.operand.sized v.2) ∧
    vm.Holds (a + v.1.step) vs

def withStack (vm : VM) (a : BitVec 32) (m : MemorySystem) : VM :=
  { vm with regs := Function.update vm.regs esp a, memory := m }

def HasRoom (vm : VM) (ws : List ElementWidth) : Prop :=
  ∃ t, vm.pushList (ws.map fun w ↦ ⟨w, 0⟩) = .ok t

structure SameStack (vm u : VM) : Prop where
  esp : u.regs esp = vm.regs esp
  memory : u.memory = vm.memory

end VM

section Width

theorem host_self (hbyte : w ≠ .byte) (r : Register) : r.host w = r := by
  cases w with
  | byte => exact absurd rfl hbyte
  | word | dword => rfl

theorem step_pos (w : ElementWidth) : 0 < w.bytes ∧ w.bytes ≤ 4 := by
  cases w <;> decide

@[simp] theorem stackSize_nil : stackSize [] = 0 := rfl

@[simp] theorem stackSize_cons (v : StackValue) (vs : List StackValue) :
    stackSize (v :: vs) = v.1.bytes + stackSize vs := rfl

theorem stackSize_reverse (vs : List StackValue) : stackSize vs.reverse = stackSize vs := by
  rw [stackSize, List.map_reverse, List.sum_reverse]
  rfl

end Width

section Push

namespace VM

variable (h : vm.push w x = .ok t)

include h

theorem push_eq : t = vm.withStack (vm.regs esp - w.step) t.memory := by
  obtain ⟨-, m, -, rfl⟩ := setMem_ok h
  rfl

theorem push_esp : t.regs esp = vm.regs esp - w.step := by
  rw [push_eq h]
  exact setReg32_self ..

theorem push_top : t.getMem (t.regs esp) w.operand.size = .ok (w.operand.sized x) := by
  rw [push_esp h]
  exact getMem_setMem h

theorem push_writeable : 2 ^ 31 ≤ (t.regs esp).toNat := by
  obtain ⟨ha, -⟩ := setMem_ok h
  rw [push_esp h]
  rw [BitVec.lt_def] at ha
  exact Nat.le_of_not_lt ha

theorem push_apart (w' : ElementWidth) (a : BitVec 32)
    (ha : (a - vm.regs esp).toNat + w'.bytes + w.bytes ≤ 2 ^ 32) :
    t.getMem a w'.operand.size = vm.getMem a w'.operand.size := by
  have hstep := step_toNat w
  have hread : t.getMem a w'.operand.size =
      (vm.setReg32 esp (vm.regs esp - w.step)).getMem a w'.operand.size := by
    apply getMem_setMem_apart _ h
    have hpos := (step_pos w').1
    have ha' := a.isLt
    have hesp := (vm.regs esp).isLt
    rw [BitVec.toNat_sub] at ha ⊢
    omega
  exact hread.trans (getMem_congr rfl a _)

end VM

end Push

section List

namespace VM

variable {vs : List StackValue}

theorem pushList_cons {v : StackValue} (h : vm.pushList (v :: vs) = .ok t) :
    ∃ u, vm.push v.1 v.2 = .ok u ∧ u.pushList vs = .ok t := except_bind_eq_ok.mp h

theorem withStack_withStack (vm : VM) (a b : BitVec 32) (m m' : MemorySystem) :
    (vm.withStack a m).withStack b m' = vm.withStack b m' := by
  simp only [withStack, Function.update_idem]

@[simp] theorem withStack_esp (vm : VM) (a : BitVec 32) (m : MemorySystem) :
    (vm.withStack a m).regs esp = a := setReg32_self ..

theorem withStack_of_ne (vm : VM) (a : BitVec 32) (m : MemorySystem) {r : Register}
    (hr : r ≠ esp) : (vm.withStack a m).regs r = vm.regs r := setReg32_of_ne hr vm a

theorem withStack_self (vm : VM) : vm.withStack (vm.regs esp) vm.memory = vm := by
  rw [withStack, Function.update_eq_self]

theorem pushList_eq (h : vm.pushList vs = .ok t) :
    t = vm.withStack (vm.regs esp - BitVec.ofNat 32 (stackSize vs)) t.memory := by
  induction vs generalizing vm with
  | nil =>
    cases h
    rw [stackSize_nil, BitVec.sub_zero, withStack_self]
  | cons v vs ih =>
    obtain ⟨u, hu, ht⟩ := pushList_cons h
    have hesp := push_esp hu
    have hu' := push_eq hu
    have ht' := ih ht
    have hsize : vm.regs esp - v.1.step - BitVec.ofNat 32 (stackSize vs) =
        vm.regs esp - BitVec.ofNat 32 (v.1.bytes + stackSize vs) := by
      rw [sub_sub, BitVec.ofNat_add]
      rfl
    rw [hesp, hsize, hu', withStack_withStack] at ht'
    exact ht'

theorem pushList_esp (h : vm.pushList vs = .ok t) :
    t.regs esp = vm.regs esp - BitVec.ofNat 32 (stackSize vs) := by
  rw [pushList_eq h, withStack_esp]

theorem pushList_writeable (h : vm.pushList vs = .ok t) (hvm : 2 ^ 31 ≤ (vm.regs esp).toNat) :
    2 ^ 31 ≤ (t.regs esp).toNat ∧
      (t.regs esp).toNat + stackSize vs = (vm.regs esp).toNat := by
  induction vs generalizing vm with
  | nil =>
    cases h
    exact ⟨hvm, rfl⟩
  | cons v vs ih =>
    obtain ⟨u, hu, ht⟩ := pushList_cons h
    obtain ⟨hwriteable, hsize⟩ := ih ht (push_writeable hu)
    refine ⟨hwriteable, ?_⟩
    have hesp := push_esp hu
    have hstep := step_toNat v.1
    have hpos := step_pos v.1
    have hu' : (u.regs esp).toNat + v.1.bytes = (vm.regs esp).toNat := by
      rw [hesp, BitVec.toNat_sub]
      omega
    rw [stackSize_cons]
    omega

theorem pushList_apart (h : vm.pushList vs = .ok t) (w : ElementWidth) (a : BitVec 32)
    (ha : (a - vm.regs esp).toNat + w.bytes + stackSize vs ≤ 2 ^ 32) :
    t.getMem a w.operand.size = vm.getMem a w.operand.size := by
  induction vs generalizing vm with
  | nil =>
    cases h
    rfl
  | cons v vs ih =>
    obtain ⟨u, hu, ht⟩ := pushList_cons h
    have hesp := push_esp hu
    have hstep := step_toNat v.1
    have hpos := step_pos w
    rw [stackSize_cons] at ha
    have hoffset : (a - u.regs esp).toNat = (a - vm.regs esp).toNat + v.1.bytes := by
      rw [BitVec.toNat_sub] at ha ⊢
      rw [hesp, BitVec.toNat_sub, BitVec.toNat_sub]
      omega
    refine (ih ht ?_).trans (push_apart hu w a ?_)
    · omega
    · omega

theorem holds_append (vm : VM) (a : BitVec 32) (vs vs' : List StackValue) :
    vm.Holds a (vs ++ vs') ↔
      vm.Holds a vs ∧ vm.Holds (a + BitVec.ofNat 32 (stackSize vs)) vs' := by
  induction vs generalizing a with
  | nil =>
    rw [stackSize_nil, BitVec.add_zero]
    exact (and_iff_right trivial).symm
  | cons v vs ih =>
    have hsize : a + v.1.step + BitVec.ofNat 32 (stackSize vs) =
        a + BitVec.ofNat 32 (stackSize (v :: vs)) := by
      rw [stackSize_cons, BitVec.ofNat_add, BitVec.add_assoc]
      rfl
    rw [List.cons_append, Holds, Holds, ih, hsize, and_assoc]

theorem holds_congr (hm : t.memory = vm.memory) (a : BitVec 32) (vs : List StackValue) :
    t.Holds a vs ↔ vm.Holds a vs := by
  induction vs generalizing a with
  | nil => rfl
  | cons v vs ih => rw [Holds, Holds, getMem_congr hm, ih]

theorem pushList_first {v : StackValue} (h : vm.pushList (v :: vs) = .ok t) :
    t.getMem (vm.regs esp - v.1.step) v.1.operand.size = .ok (v.1.operand.sized v.2) := by
  obtain ⟨u, hu, ht⟩ := pushList_cons h
  obtain ⟨hlow, htotal⟩ := pushList_writeable ht (push_writeable hu)
  have hapart := pushList_apart ht v.1 (u.regs esp) (by
    have hpos := step_pos v.1
    have hesp := (u.regs esp).isLt
    rw [BitVec.sub_self, BitVec.toNat_zero]
    omega)
  rw [← push_esp hu]
  exact hapart.trans (push_top hu)

/-- The values that were pushed are on the stack, the last one first. -/
theorem pushList_holds (h : vm.pushList vs = .ok t) : t.Holds (t.regs esp) vs.reverse := by
  induction vs generalizing vm with
  | nil => trivial
  | cons v vs ih =>
    have hfirst := pushList_first h
    obtain ⟨u, hu, ht⟩ := pushList_cons h
    have hsize := pushList_esp ht
    have hback : t.regs esp + BitVec.ofNat 32 (stackSize vs.reverse) =
        vm.regs esp - v.1.step := by
      rw [stackSize_reverse, hsize, BitVec.sub_add_cancel, push_esp hu]
    rw [List.reverse_cons, holds_append, hback]
    exact ⟨ih ht, hfirst, trivial⟩

theorem pushList_append (vm : VM) (vs vs' : List StackValue) :
    vm.pushList (vs ++ vs') = vm.pushList vs >>= (·.pushList vs') := by
  induction vs generalizing vm with
  | nil => rfl
  | cons v vs ih =>
    rw [List.cons_append, pushList, pushList]
    cases vm.push v.1 v.2 with
    | ok u => exact ih u
    | error x => rfl

end VM

end List

section Room

namespace VM

variable {vs vs' : List StackValue} {ws ws' : List ElementWidth}

theorem push_sections (x' : BitVec w.operand.bits)
    (hs : MemorySystem.SameSections vm.memory u.memory) (hesp : u.regs esp = vm.regs esp)
    (h : vm.push w x = .ok t) :
    ∃ t', u.push w x' = .ok t' ∧ MemorySystem.SameSections t.memory t'.memory ∧
      t'.regs esp = t.regs esp := by
  have hset : (vm.setReg32 Register.esp (vm.regs Register.esp - w.step)).setMem
      (vm.regs Register.esp - w.step) (w.operand.sized x) = .ok t := h
  have hsections : MemorySystem.SameSections
      (vm.setReg32 Register.esp (vm.regs Register.esp - w.step)).memory
      (u.setReg32 Register.esp (u.regs Register.esp - w.step)).memory := hs
  obtain ⟨t', ht'⟩ := setMem_writeable x' hsections hset
  rw [← hesp] at ht'
  have hpush : u.push w x' = .ok t' := ht'
  have hkept := setMem_sameSections hset
  have hkept' := setMem_sameSections ht'
  refine ⟨t', hpush, hkept.symm.trans (hsections.trans hkept'), ?_⟩
  rw [push_esp hpush, push_esp h, hesp]

theorem pushList_sections (hwidths : vs'.map Sigma.fst = vs.map Sigma.fst)
    (hs : MemorySystem.SameSections vm.memory u.memory) (hesp : u.regs esp = vm.regs esp)
    (h : vm.pushList vs = .ok t) : ∃ t', u.pushList vs' = .ok t' := by
  induction vs generalizing vm u vs' with
  | nil =>
    rw [List.map_nil, List.map_eq_nil_iff] at hwidths
    exact ⟨u, hwidths ▸ rfl⟩
  | cons v vs ih =>
    cases vs' with
    | nil => cases hwidths
    | cons v' vs' =>
      obtain ⟨hw, hws⟩ := List.cons.inj hwidths
      obtain ⟨w, x⟩ := v
      obtain ⟨w', x'⟩ := v'
      obtain rfl : w' = w := hw
      obtain ⟨s, hs', ht⟩ := pushList_cons h
      obtain ⟨s', hpush, hsections, hesp'⟩ := push_sections x' hs hesp hs'
      obtain ⟨t', ht'⟩ := ih hws hsections hesp' ht
      exact ⟨t', except_bind_eq_ok.mpr ⟨s', hpush, ht'⟩⟩

theorem HasRoom.pushList (h : vm.HasRoom ws) (hws : vs.map Sigma.fst = ws) :
    ∃ t, vm.pushList vs = .ok t := by
  obtain ⟨t, ht⟩ := h
  refine pushList_sections ?_ (.refl _) rfl ht
  rw [hws, List.map_map]
  exact (List.map_id _).symm

theorem HasRoom.left (h : vm.HasRoom (ws ++ ws')) : vm.HasRoom ws := by
  obtain ⟨t, ht⟩ := h
  rw [List.map_append, pushList_append] at ht
  obtain ⟨u, hu, -⟩ := except_bind_eq_ok.mp ht
  exact ⟨u, hu⟩

namespace SameStack

theorem refl (vm : VM) : SameStack vm vm := ⟨rfl, rfl⟩

theorem symm (h : SameStack vm u) : SameStack u vm := ⟨h.esp.symm, h.memory.symm⟩

theorem trans (h : SameStack vm u) (h' : SameStack u t) : SameStack vm t :=
  ⟨h'.esp.trans h.esp, h'.memory.trans h.memory⟩

theorem push (hs : SameStack vm u) (h : vm.push w x = .ok t) :
    ∃ t', u.push w x = .ok t' ∧ SameStack t t' := by
  obtain ⟨ha, m, hm, ht⟩ := setMem_ok h
  have hesp := push_esp h
  rw [WRITEABLE_MEMORY, ← topBit_eq_zero] at ha
  have hstore : (u.setReg32 Register.esp (vm.regs Register.esp - w.step)).memory.setSized
      (vm.regs Register.esp - w.step) (w.operand.sized x) = .ok m := by
    rw [← hm]
    exact congrArg (fun m ↦ MemorySystem.setSized m _ _) hs.memory
  refine ⟨u.withStack (vm.regs Register.esp - w.step) m, ?_, ?_, (congrArg VM.memory ht).symm⟩
  · rw [VM.push, hs.esp, VM.setMem, if_neg ha, hstore]
    rfl
  · exact (withStack_esp ..).trans hesp.symm

theorem pushList (hs : SameStack vm u) (h : vm.pushList vs = .ok t) :
    ∃ t', u.pushList vs = .ok t' ∧ SameStack t t' := by
  induction vs generalizing vm u with
  | nil =>
    cases h
    exact ⟨u, rfl, hs⟩
  | cons v vs ih =>
    obtain ⟨s, hpush, ht⟩ := pushList_cons h
    obtain ⟨s', hpush', hs'⟩ := hs.push hpush
    obtain ⟨t', ht', hlast⟩ := ih hs' ht
    exact ⟨t', except_bind_eq_ok.mpr ⟨s', hpush', ht'⟩, hlast⟩

end SameStack

end VM

end Room

theorem getMem_setReg32 (vm : VM) (r : Register) (v a : BitVec 32) (s : ValueSize) :
    (vm.setReg32 r v).getMem a s = vm.getMem a s := by
  cases s <;> rfl

section Pop

variable {e : Effects} (vm : VM)

theorem run_pop16 : (pop16 : Op e SizedValue).run vm =
    (.ofExcept (vm.getMem (vm.reg32 .esp) .word),
      vm.setReg32 .esp (vm.reg32 .esp + 2)) := by
  simp only [pop16, run_bind, run_reg32, run_setReg32, runBind_ok, run_read, getMem_setReg32]

theorem run_pop32 : (pop32 : Op e SizedValue).run vm =
    (.ofExcept (vm.getMem (vm.reg32 .esp) .dword),
      vm.setReg32 .esp (vm.reg32 .esp + 4)) := by
  simp only [pop32, run_bind, run_reg32, run_setReg32, runBind_ok, run_read, getMem_setReg32]

theorem run_pop (p : Pipeline) : (Operations.pop p : Op e Unit).run vm =
    runBind (.ofExcept (vm.getMem (vm.reg32 .esp) (nativeSize p.sizeOverride)),
        vm.setReg32 .esp (vm.reg32 .esp + if p.sizeOverride then 2 else 4))
      fun v ↦ (setArg (p.args 0).location v : Op e Unit).run := by
  unfold Operations.pop nativeSize
  split
  · rw [run_bind, run_pop16]
  · rw [run_bind, run_pop32]

end Pop

section Run

theorem pushStack_sized (hw : p.HasWidth w) (hbyte : w ≠ .byte) (vm : VM)
    (x : BitVec w.operand.bits) : (pushStack (w.operand.sized x) p : Op e Unit).run vm =
      storeResult (vm.setReg32 esp (vm.regs esp - w.step)) (vm.push w x) := by
  cases w with
  | byte => exact absurd rfl hbyte
  | word =>
    rw [pushStack, run_bind, run_reg32, runBind_ok, if_pos (show p.sizeOverride = true from hw)]
    rfl
  | dword =>
    rw [pushStack, run_bind, run_reg32, runBind_ok, if_neg hw.not_override]
    rfl

theorem pushStack_ok (hw : p.HasWidth w) (hbyte : w ≠ .byte) :
    (pushStack (w.operand.sized x) p : Op e Unit).run vm = (.ok (), t) ↔
      vm.push w x = .ok t := by
  rw [pushStack_sized hw hbyte]
  cases vm.push w x with
  | ok u =>
    constructor
    · intro h
      cases h
      rfl
    · intro h
      cases h
      rfl
  | error y => exact iff_of_false nofun nofun

def popSized : ElementWidth → Op e SizedValue
  | .byte | .word => pop16
  | .dword => pop32

theorem popSized_run (hbyte : w ≠ .byte)
    (h : vm.getMem (vm.regs esp) w.operand.size = .ok (w.operand.sized x)) :
    (popSized w : Op e SizedValue).run vm =
      (.ok (w.operand.sized x), vm.withStack (vm.regs esp + w.step) vm.memory) := by
  cases w with
  | byte => exact absurd rfl hbyte
  | word => exact (run_pop16 vm).trans (congrArg (fun r ↦ (Outcome.ofExcept r, _)) h)
  | dword => exact (run_pop32 vm).trans (congrArg (fun r ↦ (Outcome.ofExcept r, _)) h)

theorem pop_eq (hw : p.HasWidth w) (hbyte : w ≠ .byte) :
    (Operations.pop p : Op e Unit) = popSized w >>= setArg (p.args 0).location := by
  cases w with
  | byte => exact absurd rfl hbyte
  | word => exact if_pos hw
  | dword => exact if_neg hw.not_override

end Run

end Qx86
