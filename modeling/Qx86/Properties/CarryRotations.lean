import Qx86.Properties.Rotations

namespace Qx86

open Foundation Rotations Op Operations Register

variable {w : ElementWidth} {p q : Pipeline} {vm t : VM} {a : BitVec w.operand.bits} {c : BitVec 8}
  {s : BitVec w.operand.bits × Bool} {k : ℕ}

def carryFunction (d : Direction) (w : ElementWidth) : LogicFn :=
  match d with
  | .left => w.select .rcl8bit .rclNativeWord
  | .right => w.select .rcr8bit .rcrNativeWord

/-- The counts that may be reduced by the width, though with the carry there is one more bit to
rotate: none is, all bits are alike, or the nine bits of a byte and the carry repeat after three. -/
def RingFits (w : ElementWidth) (k : ℕ) (s : BitVec w.operand.bits × Bool) : Prop :=
  k < w.operand.bits ∨ (∀ i < w.operand.bits, s.1.getLsbD i = s.2) ∨
    (w = .byte ∧ 24 ≤ k ∧ Direction.left.carryOne^[3] s = s)

section Ring

theorem uniform_three (h : ∀ i < w.operand.bits, s.1.getLsbD i = s.2) :
    Direction.left.carryOne^[3] s = s := by
  have hbits : 0 < w.operand.bits := w.bits_pos
  exact Function.iterate_fixed ((Direction.carryOne_eq_self_iff s hbits).mpr h) 3

theorem ringFits_iff (d : Direction) (hk : k < 32) :
    d.carryOne^[k % w.operand.bits] s = d.carryOne^[k] s ↔ RingFits w k s := by
  have hbits : 0 < w.operand.bits := w.bits_pos
  have hperiod := Direction.left.carryOne_period s hbits
  have huniform := Direction.carryOne_eq_self_iff s hbits
  rw [d.carryOne_iterate_eq_iff (Nat.mod_le ..) s hbits, RingFits]
  by_cases hlt : k < w.operand.bits
  · rw [Nat.mod_eq_of_lt hlt, Nat.sub_self, Nat.gcd_zero_left]
    exact iff_of_true hperiod (.inl hlt)
  rw [or_iff_right hlt, ← huniform]
  cases w with
  | byte =>
    change ¬k < 8 at hlt
    change Direction.left.carryOne^[(k - k % 8).gcd 9] s = s ↔ _
    by_cases hk' : 24 ≤ k
    · have hdiff : k - k % 8 = 24 := by omega
      rw [hdiff]
      constructor
      · intro h
        exact .inr ⟨rfl, hk', h⟩
      · rintro (h | ⟨-, -, h⟩)
        · exact uniform_three (huniform.mp h)
        · exact h
    · have hgcd : (k - k % 8).gcd 9 = 1 := by
        have hdiff : k - k % 8 = 8 ∨ k - k % 8 = 16 := by omega
        obtain h | h := hdiff
        · rw [h]
          rfl
        · rw [h]
          rfl
      rw [hgcd]
      exact (or_iff_left fun h ↦ hk' h.2.1).symm
  | word =>
    change ¬k < 16 at hlt
    change Direction.left.carryOne^[(k - k % 16).gcd 17] s = s ↔ _
    have hdiff : k - k % 16 = 16 := by omega
    rw [hdiff]
    exact (or_iff_left nofun).symm
  | dword => exact absurd hk hlt

end Ring

section Exact

/-- The overflow flag that the code sets. -/
def carryOverflow : Direction → BitVec w.operand.bits × Bool → Bool
  | .left, s => rclTopBit w s.1 ^^ s.2
  | .right, s => Direction.right.oneOverflow s

theorem carryRotate_run (d : Direction) (hw : p.HasWidth w)
    (ha : vm.getArg (p.args 0).location = .ok (w.operand.sized a))
    (hc : vm.getArg (p.args 1).location = .ok (.byte c)) :
    ((carryFunction d w).logic p).run vm = rotated p vm (rotations w c)
      (carryOverflow d (d.carryOne^[rotations w c] (a, vm.flags.carry)))
      (d.carryOne^[rotations w c] (a, vm.flags.carry)) := by
  cases d with
  | left => exact rcl_run hw ha hc rfl
  | right => exact rcr_run hw ha hc rfl

/-- The overflow flag of RCL is right if the two bits that it may be taken from are alike. -/
theorem rclTopBit_iff (s : BitVec w.operand.bits × Bool) :
    carryOverflow .left (Direction.left.carryOne s) =
        Direction.left.oneOverflow (Direction.left.carryOne s) ↔
      w = .dword ∨ s.1.getLsbD (w.operand.bits - 2) = s.1.getLsbD (w.operand.bits - 3) := by
  have hbit := fun {i : ℕ} (hi : i < w.operand.bits) ↦ Direction.getLsbD_carryOne_left s hi
  rw [carryOverflow, Direction.oneOverflow, Bool.xor_left_inj, BitVec.msb_eq_getLsbD_last]
  cases w with
  | byte =>
    have htop := hbit (i := 7) (by decide)
    have hbelow := hbit (i := 6) (by decide)
    rw [or_iff_right nofun]
    exact (Eq.congr hbelow htop).trans eq_comm
  | word =>
    have htop := hbit (i := 15) (by decide)
    have hbelow := hbit (i := 14) (by decide)
    rw [or_iff_right nofun]
    exact (Eq.congr hbelow htop).trans eq_comm
  | dword => exact iff_of_true (BitVec.msb_eq_getLsbD_last _) (.inl rfl)

theorem rcl_rotates_iff (hw : p.HasWidth w)
    (ha : vm.getArg (p.args 0).location = .ok (w.operand.sized a))
    (hc : vm.getArg (p.args 1).location = .ok (.byte c)) :
    RotatesBy .left Direction.left.carryOne p vm a (c.toNat % 32)
        (((carryFunction .left w).logic p).run vm) ↔
      (vm.Writeable w (p.args 0).location →
        RingFits w (c.toNat % 32) (a, vm.flags.carry) ∧
          (c.toNat % 32 = 1 →
            w = .dword ∨ a.getLsbD (w.operand.bits - 2) = a.getLsbD (w.operand.bits - 3))) := by
  rw [carryRotate_run .left hw ha hc, rotated_iff ha rotations_of_zero rotations_of_one]
  apply forall_congr'
  intro _
  apply and_congr (ringFits_iff .left (Nat.mod_lt _ (by decide)))
  apply forall_congr'
  intro hk
  rw [rotations_of_one hk]
  exact rclTopBit_iff (a, vm.flags.carry)

theorem rcr_rotates_iff (hw : p.HasWidth w)
    (ha : vm.getArg (p.args 0).location = .ok (w.operand.sized a))
    (hc : vm.getArg (p.args 1).location = .ok (.byte c)) :
    RotatesBy .right Direction.right.carryOne p vm a (c.toNat % 32)
        (((carryFunction .right w).logic p).run vm) ↔
      (vm.Writeable w (p.args 0).location →
        RingFits w (c.toNat % 32) (a, vm.flags.carry)) := by
  rw [carryRotate_run .right hw ha hc, rotated_iff ha rotations_of_zero rotations_of_one]
  apply forall_congr'
  intro _
  refine Iff.trans ?_ (ringFits_iff .right (Nat.mod_lt _ (by decide)))
  apply and_iff_left
  intro hk
  rw [rotations_of_one hk]
  rfl

theorem carryRotate_back (hw : p.HasWidth w)
    (ha : vm.getArg (p.args 0).location = .ok (w.operand.sized a))
    (hc : vm.getArg (p.args 1).location = .ok (.byte c)) (hq : q.HasWidth w)
    (hloc : (q.args 0).location = (p.args 0).location)
    (h : ((carryFunction .left w).logic p).run vm = (.ok (), t))
    (hcq : t.getArg (q.args 1).location = .ok (.byte c)) :
    ∃ u, ((carryFunction .right w).logic q).run t = (.ok (), u) ∧
      u.getArg (p.args 0).location = .ok (w.operand.sized a) ∧
        u.flags.carry = vm.flags.carry := by
  have hbits : 0 < w.operand.bits := w.bits_pos
  rw [carryRotate_run .left hw ha hc] at h
  obtain ⟨hvalue, hcarry, hend⟩ := rotated_back _ Direction.right.carryOne ha h hloc
  rw [carryRotate_run .right hq hvalue hcq, hcarry]
  obtain ⟨u, hu, hvalue', hcarry'⟩ := hend _
  have hback : Direction.right.carryOne^[rotations w c]
      (Direction.left.carryOne^[rotations w c] (a, vm.flags.carry)) = (a, vm.flags.carry) :=
    Direction.right_left_iterate _ _ hbits
  rw [hback] at hvalue' hcarry'
  exact ⟨u, hu, hvalue', hcarry'⟩

/-- When the code rotates through the carry as often as the count says, and that RCR takes back
what RCL does. -/
theorem carryRotate_exact_iff (p : Pipeline) (w : ElementWidth) (hw : p.HasWidth w) (vm : VM)
    (a : BitVec w.operand.bits) (c : BitVec 8)
    (ha : vm.getArg (p.args 0).location = .ok (w.operand.sized a))
    (hc : vm.getArg (p.args 1).location = .ok (.byte c)) :
    (RotatesBy .left Direction.left.carryOne p vm a (c.toNat % 32)
        (((carryFunction .left w).logic p).run vm) ↔
      (vm.Writeable w (p.args 0).location →
        RingFits w (c.toNat % 32) (a, vm.flags.carry) ∧
          (c.toNat % 32 = 1 →
            w = .dword ∨ a.getLsbD (w.operand.bits - 2) = a.getLsbD (w.operand.bits - 3)))) ∧
    (RotatesBy .right Direction.right.carryOne p vm a (c.toNat % 32)
        (((carryFunction .right w).logic p).run vm) ↔
      (vm.Writeable w (p.args 0).location →
        RingFits w (c.toNat % 32) (a, vm.flags.carry))) ∧
    ∀ q t, q.HasWidth w → (q.args 0).location = (p.args 0).location →
      ((carryFunction .left w).logic p).run vm = (.ok (), t) →
        t.getArg (q.args 1).location = .ok (.byte c) →
          ∃ u, ((carryFunction .right w).logic q).run t = (.ok (), u) ∧
            u.getArg (p.args 0).location = .ok (w.operand.sized a) ∧
              u.flags.carry = vm.flags.carry := by
  refine ⟨rcl_rotates_iff hw ha hc, rcr_rotates_iff hw ha hc, ?_⟩
  intro q t hq hloc h hcq
  exact carryRotate_back hw ha hc hq hloc h hcq

theorem carryRotate_exact_iff_byBl :
    RotatesBy (w := .word) .left Direction.left.carryOne (byBl true) (twoRegisters 0x8001 4)
      0x8001 4 ((LogicFn.rclNativeWord.logic (byBl true)).run (twoRegisters 0x8001 4)) := by
  have hexact := carryRotate_exact_iff (byBl true) .word rfl (twoRegisters 0x8001 4)
    (0x8001 : BitVec 16) 4 rfl rfl
  exact hexact.1.mpr fun _ ↦ ⟨.inl (by decide), nofun⟩

/-- Rotating AX and the carry flag left by 16 leaves the lowest bit of AX in the carry flag. -/
theorem rcl_width : ¬∀ (p : Pipeline) (w : ElementWidth) (vm : VM) (a : BitVec w.operand.bits)
    (c : BitVec 8), p.HasWidth w →
      vm.getArg (p.args 0).location = .ok (w.operand.sized a) →
        vm.getArg (p.args 1).location = .ok (.byte c) →
          RotatesBy .left Direction.left.carryOne p vm a (c.toNat % 32)
            (((carryFunction .left w).logic p).run vm) := by
  intro h
  have hrotate := h (byBl true) .word (twoRegisters 1 16) (1 : BitVec 16) 16 rfl rfl rfl
  obtain ⟨-, hcarry⟩ := (hrotate.some (by decide) ⟨_, rfl⟩).reads rfl
  have hlast : Direction.left.carryOne^[16] ((1 : BitVec 16), false) = (0, true) := by decide
  cases hcarry.trans (congrArg Prod.snd hlast)

end Exact

end Qx86
