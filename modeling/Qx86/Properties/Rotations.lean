import Qx86.Execute.Image
import Qx86.Machine.Operands
import Qx86.Machine.Rotations
import Qx86.Properties.Shifts

namespace Qx86

open Foundation Rotations Op Operations Register

variable {d : Direction} {w : ElementWidth} {p q : Pipeline} {vm t : VM}
  {a : BitVec w.operand.bits} {c : BitVec 8} {o : Outcome VMError Unit × VM}
  {step : BitVec w.operand.bits × Bool → BitVec w.operand.bits × Bool}
  {s : BitVec w.operand.bits × Bool} {overflow : Bool} {j k : ℕ}

def rotateFunction (d : Direction) (w : ElementWidth) : LogicFn :=
  match d with
  | .left => w.select .rol8bit .rolNativeWord
  | .right => w.select .ror8bit .rorNativeWord

def StoresRotation (p : Pipeline) (vm : VM) (s : BitVec w.operand.bits × Bool)
    (o : Outcome VMError Unit × VM) : Prop :=
  ∃ t f, vm.setArg (p.args 0).location (w.operand.sized s.1) = .ok t ∧
    o = (.ok (), { t with flags := f }) ∧ f.carry = s.2

/-- A step that does what that many rotations by one do, where the destination can be stored
into. -/
structure RotatesBy (d : Direction)
    (step : BitVec w.operand.bits × Bool → BitVec w.operand.bits × Bool) (p : Pipeline) (vm : VM)
    (a : BitVec w.operand.bits) (count : ℕ) (o : Outcome VMError Unit × VM) : Prop where
  none : count = 0 → o = (.ok (), vm)
  some : count ≠ 0 → vm.Writeable w (p.args 0).location →
    StoresRotation p vm (step^[count] (a, vm.flags.carry)) o
  overflow : count = 1 → vm.Writeable w (p.args 0).location →
    o.2.flags.overflow = d.oneOverflow (step (a, vm.flags.carry))

section Outcome

/-- A step of the code: it rotates by the rest of the count, and does nothing if there is none. -/
def rotated (p : Pipeline) (vm : VM) (j : ℕ) (overflow : Bool) (s : BitVec w.operand.bits × Bool) :
    Outcome VMError Unit × VM :=
  if j = 0 then (.ok (), vm) else rotatedTo p vm j overflow s

theorem StoresRotation.reads (hl : (p.args 0).location.size = w.operand.size)
    (h : StoresRotation p vm s o) :
    o.2.getArg (p.args 0).location = .ok (w.operand.sized s.1) ∧ o.2.flags.carry = s.2 := by
  obtain ⟨t, f, ht, rfl, hf⟩ := h
  exact ⟨(VM.getArg_flags t f _).trans (VM.getArg_setArg hl ht), hf⟩

theorem StoresRotation.unique {s' : BitVec w.operand.bits × Bool}
    (hl : (p.args 0).location.size = w.operand.size) (h : StoresRotation p vm s o)
    (h' : StoresRotation p vm s' o) : s = s' := by
  obtain ⟨hvalue, hcarry⟩ := h.reads hl
  obtain ⟨hvalue', hcarry'⟩ := h'.reads hl
  refine Prod.ext (ElementWidth.sized_injective ?_) (hcarry.symm.trans hcarry')
  exact Except.ok.inj (hvalue.symm.trans hvalue')

theorem rotated_stores (overflow : Bool)
    (ha : vm.getArg (p.args 0).location = .ok (w.operand.sized a))
    (hwrite : vm.Writeable w (p.args 0).location) (hs : j = 0 → s = (a, vm.flags.carry)) :
    StoresRotation p vm s (rotated p vm j overflow s) := by
  have hl := size_of_getArg ha
  rw [rotated]
  by_cases hj : j = 0
  · obtain ⟨t, ht⟩ := hwrite
    rw [if_pos hj, hs hj]
    exact ⟨vm, vm.flags, VM.setArg_self hl ha ht, rfl, rfl⟩
  · obtain ⟨t, ht⟩ := hwrite.store hl s.1
    rw [if_neg hj, rotatedTo, stored_ok ht]
    exact ⟨t, _, ht, rfl, rfl⟩

theorem rotated_iff (ha : vm.getArg (p.args 0).location = .ok (w.operand.sized a))
    (hzero : k = 0 → j = 0) (hone : k = 1 → j = 1) :
    RotatesBy d step p vm a k (rotated p vm j overflow (step^[j] (a, vm.flags.carry))) ↔
      (vm.Writeable w (p.args 0).location →
        step^[j] (a, vm.flags.carry) = step^[k] (a, vm.flags.carry) ∧
          (k = 1 → overflow = d.oneOverflow (step (a, vm.flags.carry)))) := by
  have hl := size_of_getArg ha
  have hstores := fun hwrite ↦ rotated_stores overflow (j := j)
    (s := step^[j] (a, vm.flags.carry)) ha hwrite (by rintro rfl; rfl)
  have hflag : k = 1 → (rotated p vm j overflow
      (step^[j] (a, vm.flags.carry))).2.flags.overflow = overflow := by
    intro hk
    have hj := hone hk
    rw [rotated, if_neg (by omega), rotatedTo, stored_flags]
    exact if_pos hj
  constructor
  · intro h hwrite
    refine ⟨?_, fun hk ↦ (hflag hk).symm.trans (h.overflow hk hwrite)⟩
    by_cases hk : k = 0
    · rw [hk, hzero hk]
    · exact (hstores hwrite).unique hl (h.some hk hwrite)
  · intro h
    refine ⟨?_, ?_, ?_⟩
    · intro hk
      rw [rotated, if_pos (hzero hk)]
    · intro _ hwrite
      have hself := hstores hwrite
      rw [(h hwrite).1] at hself ⊢
      exact hself
    · intro hk hwrite
      exact (hflag hk).trans ((h hwrite).2 hk)

theorem rotated_reads (overflow : Bool)
    (ha : vm.getArg (p.args 0).location = .ok (w.operand.sized a))
    (hwrite : j ≠ 0 → vm.Writeable w (p.args 0).location)
    (hs : j = 0 → s = (a, vm.flags.carry)) :
    ∃ t, rotated p vm j overflow s = (.ok (), t) ∧
      t.getArg (p.args 0).location = .ok (w.operand.sized s.1) ∧ t.flags.carry = s.2 := by
  by_cases hj : j = 0
  · rw [rotated, if_pos hj, hs hj]
    exact ⟨vm, rfl, ha, rfl⟩
  · have hstores := rotated_stores overflow ha (hwrite hj) hs
    obtain ⟨hvalue, hcarry⟩ := hstores.reads (size_of_getArg ha)
    obtain ⟨t, f, -, ho, -⟩ := hstores
    rw [ho] at hvalue hcarry ⊢
    exact ⟨_, rfl, hvalue, hcarry⟩

theorem rotated_writeable (ha : vm.getArg (p.args 0).location = .ok (w.operand.sized a))
    (h : rotated p vm j overflow s = (.ok (), t)) (hj : j ≠ 0) :
    vm.Writeable w (p.args 0).location ∧ t.Writeable w (p.args 0).location := by
  have hl := size_of_getArg ha
  rw [rotated, if_neg hj, rotatedTo] at h
  obtain ⟨x, -, herr⟩ | ⟨u, hu, hok⟩ := stored_cases vm _ (p.args 0).location (w.operand.sized s.1)
  · cases herr.symm.trans h
  · have hwrite : vm.Writeable w (p.args 0).location := VM.setArg_writeable hl (.refl _) rfl hu
    refine ⟨hwrite, ?_⟩
    obtain ⟨u', hu'⟩ := hwrite
    cases hok.symm.trans h
    rw [← VM.setArg_setArg hl hu] at hu'
    exact ⟨_, (VM.setArg_flags u _ _ _).trans (congrArg _ hu')⟩

theorem rotated_after (ha : vm.getArg (p.args 0).location = .ok (w.operand.sized a))
    (hs : j = 0 → s = (a, vm.flags.carry)) (h : rotated p vm j overflow s = (.ok (), t)) :
    t.getArg (p.args 0).location = .ok (w.operand.sized s.1) ∧ t.flags.carry = s.2 := by
  obtain ⟨t', ht', hafter⟩ :=
    rotated_reads overflow ha (fun hj ↦ (rotated_writeable ha h hj).1) hs
  cases h.symm.trans ht'
  exact hafter

theorem rotated_rotated {s' : BitVec w.operand.bits × Bool} (overflow' : Bool)
    (ha : vm.getArg (p.args 0).location = .ok (w.operand.sized a))
    (hs : j = 0 → s = (a, vm.flags.carry)) (h : rotated p vm j overflow s = (.ok (), t))
    (hloc : (q.args 0).location = (p.args 0).location) (hs' : j = 0 → s' = s) :
    ∃ u, rotated q t j overflow' s' = (.ok (), u) ∧
      u.getArg (p.args 0).location = .ok (w.operand.sized s'.1) ∧ u.flags.carry = s'.2 := by
  have hwrite := fun hj ↦ (rotated_writeable ha h hj).2
  obtain ⟨hvalue, hcarry⟩ := rotated_after ha hs h
  rw [← hloc] at hvalue hwrite ⊢
  refine rotated_reads _ hvalue hwrite ?_
  intro hj
  exact (hs' hj).trans (Prod.ext rfl hcarry.symm)

theorem rotated_back (there back : BitVec w.operand.bits × Bool → BitVec w.operand.bits × Bool)
    (ha : vm.getArg (p.args 0).location = .ok (w.operand.sized a))
    (h : rotated p vm j overflow (there^[j] (a, vm.flags.carry)) = (.ok (), t))
    (hloc : (q.args 0).location = (p.args 0).location) :
    t.getArg (q.args 0).location =
        .ok (w.operand.sized (there^[j] (a, vm.flags.carry)).1) ∧
      t.flags.carry = (there^[j] (a, vm.flags.carry)).2 ∧
      ∀ overflow', ∃ u, rotated q t j overflow' (back^[j] (there^[j] (a, vm.flags.carry))) =
          (.ok (), u) ∧
        u.getArg (p.args 0).location =
          .ok (w.operand.sized (back^[j] (there^[j] (a, vm.flags.carry))).1) ∧
        u.flags.carry = (back^[j] (there^[j] (a, vm.flags.carry))).2 := by
  have hzero (f : BitVec w.operand.bits × Bool → BitVec w.operand.bits × Bool)
      (s : BitVec w.operand.bits × Bool) : j = 0 → f^[j] s = s := by
    rintro rfl
    rfl
  obtain ⟨hvalue, hcarry⟩ := rotated_after ha (hzero there _) h
  refine ⟨hloc ▸ hvalue, hcarry, ?_⟩
  intro overflow'
  exact rotated_rotated overflow' ha (hzero there _) h hloc (hzero back _)

end Outcome

section Exact

theorem rotations_of_zero (h : c.toNat % 32 = 0) : rotations w c = 0 := by
  rw [rotations, h, Nat.zero_mod]

theorem rotations_of_one (h : c.toNat % 32 = 1) : rotations w c = 1 := by
  have hbits : 1 < w.operand.bits := by cases w <;> decide
  rw [rotations, h, Nat.mod_eq_of_lt hbits]

theorem rotate_run (d : Direction) (hw : p.HasWidth w)
    (ha : vm.getArg (p.args 0).location = .ok (w.operand.sized a))
    (hc : vm.getArg (p.args 1).location = .ok (.byte c)) :
    ((rotateFunction d w).logic p).run vm = rotated p vm (rotations w c)
      (d.oneOverflow (d.rotateOne^[rotations w c] (a, vm.flags.carry)))
      (d.rotateOne^[rotations w c] (a, vm.flags.carry)) := by
  have hbits : 0 < w.operand.bits := w.bits_pos
  have hiterate := fun j ↦ d.rotateOne_iterate j a vm.flags.carry hbits
  have hrun : ((rotateFunction d w).logic p).run vm = if rotations w c = 0 then (.ok (), vm)
      else rotatedTo p vm (rotations w c)
        (d.oneOverflow (d.rotate a (rotations w c), d.inBit (d.rotate a (rotations w c))))
        (d.rotate a (rotations w c), d.inBit (d.rotate a (rotations w c))) := by
    cases d with
    | left => exact rol_run hw ha hc
    | right => exact ror_run hw ha hc
  rw [hrun, rotated]
  cases rotations w c with
  | zero => rw [if_pos rfl, if_pos rfl]
  | succ j => rw [hiterate j]

theorem rotate_rotates_iff (d : Direction) (hw : p.HasWidth w)
    (ha : vm.getArg (p.args 0).location = .ok (w.operand.sized a))
    (hc : vm.getArg (p.args 1).location = .ok (.byte c)) :
    RotatesBy d d.rotateOne p vm a (c.toNat % 32) (((rotateFunction d w).logic p).run vm) ↔
      (vm.Writeable w (p.args 0).location →
        c.toNat % 32 % w.operand.bits ≠ 0 ∨ c.toNat % 32 = 0 ∨ vm.flags.carry = d.inBit a) := by
  have hbits : 0 < w.operand.bits := w.bits_pos
  rw [rotate_run d hw ha hc, rotated_iff ha rotations_of_zero rotations_of_one,
    ← d.rotateOne_iterate_mod_iff _ _ _ hbits]
  apply forall_congr'
  intro _
  apply and_iff_left
  intro hk
  rw [rotations_of_one hk, Function.iterate_one]

theorem rotate_back (hw : p.HasWidth w)
    (ha : vm.getArg (p.args 0).location = .ok (w.operand.sized a))
    (hc : vm.getArg (p.args 1).location = .ok (.byte c)) (hq : q.HasWidth w)
    (hloc : (q.args 0).location = (p.args 0).location)
    (h : ((rotateFunction .left w).logic p).run vm = (.ok (), t))
    (hcq : t.getArg (q.args 1).location = .ok (.byte c)) :
    ∃ u, ((rotateFunction .right w).logic q).run t = (.ok (), u) ∧
      u.getArg (p.args 0).location = .ok (w.operand.sized a) := by
  rw [rotate_run .left hw ha hc] at h
  obtain ⟨hvalue, hcarry, hend⟩ := rotated_back _ Direction.right.rotateOne ha h hloc
  rw [rotate_run .right hq hvalue hcq, hcarry]
  obtain ⟨u, hu, hvalue', -⟩ := hend _
  have hback : (Direction.right.rotateOne^[rotations w c]
      (Direction.left.rotateOne^[rotations w c] (a, vm.flags.carry))).1 = a := by
    rw [Direction.rotateOne_iterate_fst, Direction.rotateOne_iterate_fst]
    exact Direction.rotateRight_rotateLeft a (rotations w c)
  rw [hback] at hvalue'
  exact ⟨u, hu, hvalue'⟩

/-- When the code rotates as often as the count says, and that ROR takes back what ROL does. -/
theorem rotate_exact_iff (p : Pipeline) (w : ElementWidth) (hw : p.HasWidth w) (vm : VM)
    (a : BitVec w.operand.bits) (c : BitVec 8)
    (ha : vm.getArg (p.args 0).location = .ok (w.operand.sized a))
    (hc : vm.getArg (p.args 1).location = .ok (.byte c)) :
    (∀ d : Direction,
      RotatesBy d d.rotateOne p vm a (c.toNat % 32) (((rotateFunction d w).logic p).run vm) ↔
        (vm.Writeable w (p.args 0).location →
          c.toNat % 32 % w.operand.bits ≠ 0 ∨ c.toNat % 32 = 0 ∨
            vm.flags.carry = d.inBit a)) ∧
    ∀ q t, q.HasWidth w → (q.args 0).location = (p.args 0).location →
      ((rotateFunction .left w).logic p).run vm = (.ok (), t) →
        t.getArg (q.args 1).location = .ok (.byte c) →
          ∃ u, ((rotateFunction .right w).logic q).run t = (.ok (), u) ∧
            u.getArg (p.args 0).location = .ok (w.operand.sized a) := by
  refine ⟨fun d ↦ rotate_rotates_iff d hw ha hc, ?_⟩
  intro q t hq hloc h hcq
  exact rotate_back hw ha hc hq hloc h hcq

theorem rotate_exact_iff_byBl :
    RotatesBy (w := .word) .left Direction.left.rotateOne (byBl true) (twoRegisters 0x8001 4)
      0x8001 4 ((LogicFn.rolNativeWord.logic (byBl true)).run (twoRegisters 0x8001 4)) := by
  have hexact := rotate_exact_iff (byBl true) .word rfl (twoRegisters 0x8001 4)
    (0x8001 : BitVec 16) 4 rfl rfl
  exact (hexact.1 .left).mpr fun _ ↦ .inl (by decide)

/-- Rotating AX left by 16 leaves it as it is, but moves its lowest bit around last. -/
theorem rol_width : ¬∀ (d : Direction) (p : Pipeline) (w : ElementWidth) (vm : VM)
    (a : BitVec w.operand.bits) (c : BitVec 8), p.HasWidth w →
      vm.getArg (p.args 0).location = .ok (w.operand.sized a) →
        vm.getArg (p.args 1).location = .ok (.byte c) →
          RotatesBy d d.rotateOne p vm a (c.toNat % 32)
            (((rotateFunction d w).logic p).run vm) := by
  intro h
  have hrotate := h .left (byBl true) .word (twoRegisters 1 16) (1 : BitVec 16) 16 rfl rfl rfl
  obtain ⟨-, hcarry⟩ := (hrotate.some (by decide) ⟨_, rfl⟩).reads rfl
  have hlast : Direction.left.rotateOne^[16] ((1 : BitVec 16), false) = (1, true) := by decide
  cases hcarry.trans (congrArg Prod.snd hlast)

end Exact

end Qx86
