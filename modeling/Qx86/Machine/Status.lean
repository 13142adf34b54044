import Mathlib.Algebra.Group.Nat.Even
import Qx86.Machine.StringOps

namespace Qx86

open Foundation Words

section Words

variable {n : ℕ}

theorem and_twoPow_ne_zero (x : BitVec n) {i : ℕ} (hi : i < n) :
    (x &&& BitVec.twoPow n i != 0) = x.getLsbD i := by
  have hne : BitVec.twoPow n i ≠ 0 := by
    intro h
    have hbit := congrArg (BitVec.getLsbD · i) h
    simp [hi] at hbit
  rw [BitVec.and_twoPow]
  cases x.getLsbD i with
  | true => simpa using hne
  | false => simp

theorem wrappingShl_one {i : ℕ} (hi : i < n) : wrappingShl 1 i = BitVec.twoPow n i := by
  rw [wrappingShl, Nat.mod_eq_of_lt hi, BitVec.twoPow_eq]
  rfl

theorem and_topBit (x : BitVec n) (hn : 0 < n) :
    (x &&& BitVec.twoPow n (n - 1) != 0) = decide (x.toInt < 0) := by
  rw [and_twoPow_ne_zero x (by omega), ← BitVec.msb_eq_getLsbD_last, BitVec.msb_eq_toInt]

theorem and_nibble {n : ℕ} (hn : 4 ≤ n) (x : BitVec n) : (x &&& 0x0F).toNat = x.toNat % 16 := by
  have hlt : (15 : ℕ) < 2 ^ n := lt_of_lt_of_le (by decide) (Nat.pow_le_pow_right (by decide) hn)
  have hmask : (0x0F : BitVec n).toNat = 2 ^ 4 - 1 := by
    change 15 % 2 ^ n = 15
    exact Nat.mod_eq_of_lt hlt
  rw [BitVec.toNat_and, hmask, Nat.and_two_pow_sub_one_eq_mod]

theorem saddOverflow_eq (a b : BitVec n) :
    a.saddOverflow b = decide ((a + b).toInt ≠ a.toInt + b.toInt) := by
  cases h : a.saddOverflow b with
  | false =>
    have heq := BitVec.toInt_add_of_not_saddOverflow (x := a) (y := b) (by simp [h])
    simp [heq]
  | true =>
    have hlo := BitVec.le_toInt (a + b)
    have hhi := BitVec.toInt_lt (x := a + b)
    simp only [BitVec.saddOverflow, ge_iff_le, Bool.or_eq_true, decide_eq_true_eq] at h
    refine (decide_eq_true ?_).symm
    intro heq
    rw [heq] at hlo hhi
    omega

theorem ssubOverflow_eq (a b : BitVec n) :
    a.ssubOverflow b = decide ((a - b).toInt ≠ a.toInt - b.toInt) := by
  cases h : a.ssubOverflow b with
  | false =>
    have heq := BitVec.toInt_sub_of_not_ssubOverflow (x := a) (y := b) (by simp [h])
    simp [heq]
  | true =>
    have hlo := BitVec.le_toInt (a - b)
    have hhi := BitVec.toInt_lt (x := a - b)
    simp only [BitVec.ssubOverflow, ge_iff_le, Bool.or_eq_true, decide_eq_true_eq] at h
    refine (decide_eq_true ?_).symm
    intro heq
    rw [heq] at hlo hhi
    omega

theorem nibble_sum (hn : 5 ≤ n) (a b : BitVec n) :
    decide (15 < (a &&& 0x0F) + (b &&& 0x0F)) = decide (16 ≤ a.toNat % 16 + b.toNat % 16) := by
  have hlt : (32 : ℕ) ≤ 2 ^ n := le_trans (by decide) (Nat.pow_le_pow_right (by decide) hn)
  refine decide_eq_decide.mpr ?_
  have hc : (15 : BitVec n).toNat = 15 := by
    change 15 % 2 ^ n = 15
    exact Nat.mod_eq_of_lt (by omega)
  rw [BitVec.lt_def, BitVec.toNat_add, and_nibble (by omega), and_nibble (by omega), hc,
    Nat.mod_eq_of_lt (by omega)]
  omega

theorem nibble_difference (a b : BitVec 32) :
    ((a &&& 0x0F) - (b &&& 0x0F)).slt 0 = decide (a.toNat % 16 < b.toNat % 16) := by
  have ha := and_nibble (by decide) a
  have hb := and_nibble (by decide) b
  refine decide_eq_decide.mpr ?_
  rw [BitVec.toInt_sub, BitVec.toInt_eq_toNat_of_lt (x := a &&& 0x0F) (by omega),
    BitVec.toInt_eq_toNat_of_lt (x := b &&& 0x0F) (by omega), ha, hb,
    Int.bmod_eq_of_le (by omega) (by omega), show (0 : BitVec 32).toInt = 0 from rfl]
  omega

end Words

namespace X86Flags

variable {n : ℕ} (f : X86Flags)

def evenParity (r : BitVec n) : Bool := decide (Even ((List.range 8).countP r.getLsbD))

def ofResult (r : BitVec n) : X86Flags :=
  { f with
    zero := decide (r = 0)
    sign := decide (r.toInt < 0)
    parity := evenParity r }

def ofSum (a b : BitVec n) : X86Flags :=
  { f.ofResult (a + b) with
    carry := decide (2 ^ n ≤ a.toNat + b.toNat)
    overflow := decide ((a + b).toInt ≠ a.toInt + b.toInt)
    adjust := decide (16 ≤ a.toNat % 16 + b.toNat % 16) }

def ofDifference (a b : BitVec n) : X86Flags :=
  { f.ofResult (a - b) with
    carry := decide (a.toNat < b.toNat)
    overflow := decide ((a - b).toInt ≠ a.toInt - b.toInt)
    adjust := decide (a.toNat % 16 < b.toNat % 16) }

theorem calculateParity_eq (x : BitVec 32) :
    f.calculateParity x = { f with parity := evenParity x } := by
  have hbits : ∀ i ∈ List.range 8, (x &&& wrappingShl 1 i != 0) = true ↔ x.getLsbD i = true := by
    intro i hi
    have hlt : i < 32 := by
      have := List.mem_range.mp hi
      omega
    rw [wrappingShl_one hlt, and_twoPow_ne_zero x hlt]
  simp only [calculateParity, evenParity, List.countP_congr hbits, Nat.even_iff]
  rfl

theorem calculateSign_eq (w : ElementWidth) (x : BitVec 32) :
    f.calculateSign x w.operand.sign =
      { f with sign := decide ((x.setWidth w.operand.bits).toInt < 0) } := by
  cases w with
  | byte => exact congrArg (fun b ↦ { f with sign := b }) (and_topBit (x.setWidth 8) (by decide))
  | word => exact congrArg (fun b ↦ { f with sign := b }) (and_topBit (x.setWidth 16) (by decide))
  | dword =>
    have h := and_topBit x (by decide)
    rw [← BitVec.setWidth_eq x] at h
    exact congrArg (fun b ↦ { f with sign := b }) h

theorem calculateResult_eq (w : ElementWidth) {r : BitVec w.operand.bits} {x : BitVec 32}
    (hr : x.setWidth w.operand.bits = r) (hz : x = 0 ↔ r = 0) :
    ((f.calculateZero x).calculateParity x).calculateSign x w.operand.sign = f.ofResult r := by
  have hparity : evenParity x = evenParity r := by
    have hbits : ∀ i ∈ List.range 8, x.getLsbD i = true ↔ r.getLsbD i = true := by
      intro i hi
      have hlt : i < w.operand.bits := by
        have := List.mem_range.mp hi
        cases w <;> simp [ElementWidth.operand, width8, width16, width32] <;> omega
      rw [← hr, BitVec.getLsbD_setWidth, decide_eq_true hlt, Bool.true_and]
    rw [evenParity, evenParity, List.countP_congr hbits]
  have hzero : (x == 0) = decide (r = 0) := by
    rw [beq_eq_decide]
    exact decide_eq_decide.mpr hz
  rw [calculateSign_eq, calculateParity_eq, hr, hparity, calculateZero, hzero]
  rfl

section Width

variable (w : ElementWidth)

theorem setWidth_eq_zero (r : BitVec w.operand.bits) : r.setWidth 32 = 0 ↔ r = 0 := by
  have hle : w.operand.bits ≤ 32 := by cases w <;> decide
  have hlt : r.toNat < 2 ^ 32 := lt_of_lt_of_le r.isLt (Nat.pow_le_pow_right (by decide) hle)
  rw [eq_zero_iff_toNat, eq_zero_iff_toNat, BitVec.toNat_setWidth, Nat.mod_eq_of_lt hlt]

theorem setWidth_dword (r : BitVec w.operand.bits) :
    (r.setWidth 32).setWidth w.operand.bits = r := by
  cases w with
  | byte | word | dword => exact BitVec.setWidth_setWidth_of_le r (by decide)

theorem setWidth_mod_nibble (r : BitVec w.operand.bits) :
    (r.setWidth 32).toNat % 16 = r.toNat % 16 := by
  rw [BitVec.toNat_setWidth, Nat.mod_mod_of_dvd _ (by decide)]

theorem calculateResult_setWidth (r : BitVec w.operand.bits) :
    ((f.calculateZero (r.setWidth 32)).calculateParity (r.setWidth 32)).calculateSign
      (r.setWidth 32) w.operand.sign = f.ofResult r :=
  calculateResult_eq f w (setWidth_dword w r) (setWidth_eq_zero w r)

theorem getFlags_sum (a b : BitVec w.operand.bits) :
    f.getFlags ((a + b).setWidth 32) (b.setWidth 32) (a.setWidth 32) (a.saddOverflow b)
      (a.uaddOverflow b) .inc w.operand.sign = f.ofSum a b := by
  have hresult := calculateResult_setWidth
    { f with
      overflow := a.saddOverflow b
      carry := a.uaddOverflow b
      adjust := decide (15 < (a.setWidth 32 &&& 0x0F) + (b.setWidth 32 &&& 0x0F)) } w (a + b)
  refine Eq.trans ?_ (hresult.trans ?_)
  · rfl
  · rw [nibble_sum (by decide), setWidth_mod_nibble, setWidth_mod_nibble, saddOverflow_eq]
    rfl

theorem getFlags_difference (a b : BitVec w.operand.bits) :
    Operations.subtractFlags w.operand a b f = f.ofDifference a b := by
  have hresult := calculateResult_setWidth
    { f with
      overflow := a.ssubOverflow b
      carry := a.usubOverflow b
      adjust := ((a.setWidth 32 &&& 0x0F) - (b.setWidth 32 &&& 0x0F)).slt 0 } w (a - b)
  refine Eq.trans ?_ (hresult.trans ?_)
  · rfl
  · rw [nibble_difference, setWidth_mod_nibble, setWidth_mod_nibble, ssubOverflow_eq]
    rfl

theorem getFlags_bitwise (r a b : BitVec w.operand.bits) :
    f.getFlags (r.setWidth 32) (b.setWidth 32) (a.setWidth 32) false false .none w.operand.sign =
      { f.ofResult r with overflow := false, carry := false } := by
  refine Eq.trans ?_ ((calculateResult_setWidth { f with overflow := false, carry := false } w
    r).trans ?_)
  · rfl
  · rfl

end Width

end X86Flags

end Qx86
