import Mathlib.Data.BitVec
import Mathlib.Tactic.Linarith
import Mathlib.Tactic.Positivity
import Mathlib.Tactic.Ring
import Qx86.Foundation.Words

namespace Qx86.Foundation.Halves

variable {n : ℕ}

def lowHalf (x : BitVec (2 * n)) : BitVec n := x.extractLsb' 0 n

def highHalf (x : BitVec (2 * n)) : BitVec n := x.extractLsb' n n

theorem lowHalf_toNat (x : BitVec (2 * n)) : (lowHalf x).toNat = x.toNat % 2 ^ n := by
  rw [lowHalf, BitVec.extractLsb'_toNat, Nat.shiftRight_zero]

theorem highHalf_toNat (x : BitVec (2 * n)) : (highHalf x).toNat = x.toNat / 2 ^ n := by
  have hlt : x.toNat < 2 ^ n * 2 ^ n := by
    rw [← pow_add, ← two_mul]
    exact x.isLt
  rw [highHalf, BitVec.extractLsb'_toNat, Nat.shiftRight_eq_div_pow,
    Nat.mod_eq_of_lt (Nat.div_lt_of_lt_mul hlt)]

def joined (high low : BitVec n) : ℕ := high.toNat * 2 ^ n + low.toNat

theorem joined_halves (x : BitVec (2 * n)) : joined (highHalf x) (lowHalf x) = x.toNat := by
  rw [joined, highHalf_toNat, lowHalf_toNat, Nat.mul_comm, Nat.div_add_mod]

theorem joined_lt (high low : BitVec n) : joined high low < 2 ^ (2 * n) := by
  have hhigh := high.isLt
  have hlow := low.isLt
  rw [joined, two_mul, pow_add]
  calc
    _ < high.toNat * 2 ^ n + 2 ^ n := by omega
    _ = (high.toNat + 1) * 2 ^ n := by ring
    _ ≤ _ := Nat.mul_le_mul_right _ hhigh

def joinedInt (high low : BitVec n) : ℤ := high.toInt * 2 ^ n + low.toNat

section Paired

def paired (high low : BitVec n) : BitVec (2 * n) :=
  (high.setWidth (2 * n) <<< n) ||| low.setWidth (2 * n)

theorem paired_toNat (high low : BitVec n) : (paired high low).toNat = joined high low := by
  have hle : n ≤ 2 * n := by omega
  have hlt := joined_lt high low
  have hshift : high.toNat <<< n < 2 ^ (2 * n) := by
    rw [Nat.shiftLeft_eq]
    exact lt_of_le_of_lt (Nat.le_add_right _ _) hlt
  rw [paired, BitVec.toNat_or, BitVec.toNat_shiftLeft, BitVec.toNat_setWidth_of_le hle,
    BitVec.toNat_setWidth_of_le hle, Nat.mod_eq_of_lt hshift,
    ← Nat.shiftLeft_add_eq_or_of_lt low.isLt,
    Nat.shiftLeft_eq, joined]

theorem paired_halves (x : BitVec (2 * n)) : paired (highHalf x) (lowHalf x) = x := by
  apply BitVec.eq_of_toNat_eq
  rw [paired_toNat, joined_halves]

theorem joined_div (high low : BitVec n) : joined high low / 2 ^ n = high.toNat := by
  rw [joined, Nat.mul_comm, Nat.mul_add_div (Nat.two_pow_pos n), Nat.div_eq_of_lt low.isLt,
    Nat.add_zero]

theorem two_mul_joined_lt_iff (high low : BitVec n) :
    2 * joined high low < 2 ^ (2 * n) ↔ 2 * high.toNat < 2 ^ n := by
  cases n with
  | zero =>
    have hhigh := high.isLt
    have hlow := low.isLt
    simp only [joined]
    omega
  | succ k =>
    have hdiv := Nat.div_lt_iff_lt_mul (x := joined high low) (y := 2 ^ k) (Nat.two_pow_pos (k + 1))
    rw [joined_div, ← pow_add] at hdiv
    have hwide : 2 ^ (2 * (k + 1)) = 2 * 2 ^ (k + (k + 1)) := by ring
    have hhalf : 2 ^ (k + 1) = 2 * 2 ^ k := by ring
    rw [hwide, hhalf]
    omega

theorem paired_toInt (high low : BitVec n) : (paired high low).toInt = joinedInt high low := by
  have hsign := two_mul_joined_lt_iff high low
  rw [BitVec.toInt_eq_toNat_cond, paired_toNat, joinedInt, BitVec.toInt_eq_toNat_cond]
  by_cases h : 2 * high.toNat < 2 ^ n
  · rw [if_pos h, if_pos (hsign.mpr h), joined]
    push_cast
    ring
  · rw [if_neg h, if_neg (mt hsign.mp h), joined, two_mul n, pow_add]
    push_cast
    ring

theorem paired_signFill (x : BitVec n) :
    paired (if x.msb then BitVec.allOnes n else 0) x = x.signExtend (2 * n) := by
  apply BitVec.eq_of_toInt_eq
  rw [paired_toInt, BitVec.toInt_signExtend_of_le (by omega), joinedInt, BitVec.toInt_eq_msb_cond x]
  cases hsign : x.msb with
  | false => simp
  | true =>
    have hpos : 0 < n := by
      by_contra hzero
      obtain rfl : n = 0 := by omega
      rw [BitVec.eq_nil x] at hsign
      cases hsign
    rw [if_pos rfl, if_pos rfl, BitVec.toInt_allOnes, if_pos hpos]
    push_cast
    ring

theorem signExtend_shiftLeft (high : BitVec n) :
    high.signExtend (2 * n) <<< n = high.setWidth (2 * n) <<< n := by
  apply BitVec.eq_of_getLsbD_eq
  intro i hi
  have hlt : i - n < 2 * n := by omega
  rw [BitVec.getLsbD_shiftLeft, BitVec.getLsbD_shiftLeft, BitVec.getLsbD_setWidth,
    BitVec.getLsbD_signExtend, decide_eq_true hlt, Bool.true_and, Bool.true_and]
  by_cases h : i < n
  · rw [decide_eq_true h]
    simp
  · have hin : i - n < n := by omega
    rw [if_pos hin]

theorem signedPair_toInt (high low : BitVec n) :
    ((high.signExtend (2 * n) <<< n) ||| low.signExtend (2 * n)).toInt =
      if 0 ≤ low.toInt then joinedInt high low else low.toInt := by
  have hle : n ≤ 2 * n := by omega
  by_cases h : 0 ≤ low.toInt
  · have hmsb : low.msb = false := BitVec.msb_eq_toInt.trans (decide_eq_false (not_lt.mpr h))
    rw [if_pos h, signExtend_shiftLeft, BitVec.signExtend_eq_setWidth_of_msb_false hmsb]
    exact paired_toInt high low
  · have hmsb : low.msb = true := BitVec.msb_eq_toInt.trans (decide_eq_true (not_le.mp h))
    have hcover : (high.signExtend (2 * n) <<< n) ||| low.signExtend (2 * n) =
        low.signExtend (2 * n) := by
      apply BitVec.eq_of_getLsbD_eq
      intro i hi
      rw [BitVec.getLsbD_or, BitVec.getLsbD_shiftLeft, BitVec.getLsbD_signExtend low]
      by_cases hin : i < n
      · rw [if_pos hin, decide_eq_true hin]
        simp
      · rw [if_neg hin, decide_eq_true hi, hmsb]
        simp
    rw [if_neg h, hcover, BitVec.toInt_signExtend_of_le hle]

end Paired

section Product

def product (a b : BitVec n) : BitVec (2 * n) := a.setWidth (2 * n) * b.setWidth (2 * n)

def signedProduct (a b : BitVec n) : BitVec (2 * n) := a.signExtend (2 * n) * b.signExtend (2 * n)

theorem product_toNat (a b : BitVec n) : (product a b).toNat = a.toNat * b.toNat := by
  have hle : n ≤ 2 * n := by omega
  have hlt : a.toNat * b.toNat < 2 ^ (2 * n) := by
    rw [two_mul, pow_add]
    exact Nat.mul_lt_mul'' a.isLt b.isLt
  rw [product, BitVec.toNat_mul, BitVec.toNat_setWidth_of_le hle, BitVec.toNat_setWidth_of_le hle,
    Nat.mod_eq_of_lt hlt]

theorem abs_toInt_le (a : BitVec n) : 2 * |a.toInt| ≤ 2 ^ n := by
  have hlo := BitVec.le_two_mul_toInt (x := a)
  have hhi := BitVec.two_mul_toInt_lt (x := a)
  have habs : 2 * |a.toInt| = |2 * a.toInt| := by rw [abs_mul, abs_two]
  rw [habs, abs_le]
  exact ⟨hlo, hhi.le⟩

theorem abs_toInt_mul_le (a b : BitVec n) : 4 * |a.toInt * b.toInt| ≤ 2 ^ (2 * n) := by
  have hmul := mul_le_mul (abs_toInt_le a) (abs_toInt_le b) (by positivity) (by positivity)
  rw [← pow_add, ← two_mul, mul_mul_mul_comm, ← abs_mul] at hmul
  linarith

/-- Twice the width is enough for every signed product. -/
theorem signedProduct_toInt (a b : BitVec n) : (signedProduct a b).toInt = a.toInt * b.toInt := by
  have hle : n ≤ 2 * n := by omega
  have hbound := abs_toInt_mul_le a b
  have habs := abs_le.mp (le_refl |a.toInt * b.toInt|)
  have hpos : (0 : ℤ) < 2 ^ (2 * n) := by positivity
  rw [signedProduct, BitVec.toInt_mul, BitVec.toInt_signExtend_of_le hle,
    BitVec.toInt_signExtend_of_le hle]
  apply Int.bmod_eq_of_le
  · push_cast
    omega
  · push_cast
    omega

theorem lowHalf_signedProduct (a b : BitVec n) :
    lowHalf (signedProduct a b) = BitVec.ofInt n (a.toInt * b.toInt) := by
  have hle : n ≤ 2 * n := by omega
  rw [BitVec.ofInt_mul, BitVec.ofInt_toInt, BitVec.ofInt_toInt, lowHalf, signedProduct,
    ← BitVec.setWidth_eq_extractLsb' hle, BitVec.setWidth_mul _ _ hle,
    Words.setWidth_signExtend _ hle, Words.setWidth_signExtend _ hle, BitVec.signExtend_eq,
    BitVec.signExtend_eq]

end Product

section Signed

def SignedFits (n : ℕ) (x : ℤ) : Prop := -2 ^ (n - 1) ≤ x ∧ x < 2 ^ (n - 1)

theorem joinedInt_halves (x : BitVec (2 * n)) : joinedInt (highHalf x) (lowHalf x) = x.toInt := by
  rw [← paired_toInt, paired_halves]

theorem highHalf_eq_zero_iff (hn : 0 < n) (x : BitVec (2 * n)) :
    highHalf x = 0#n ↔ 0 ≤ x.toInt ∧ x.toInt < 2 ^ n := by
  have hlt := x.isLt
  have hpow : 2 * 2 ^ n ≤ 2 ^ (2 * n) := by
    rw [← pow_succ']
    exact Nat.pow_le_pow_right (by omega) (by omega)
  have hzero : highHalf x = 0#n ↔ x.toNat < 2 ^ n := by
    rw [← BitVec.toNat_inj, highHalf_toNat, BitVec.toNat_ofNat, Nat.zero_mod,
      Nat.div_eq_zero_iff]
    have hpos := Nat.two_pow_pos n
    omega
  have hcast : ((2 ^ n : ℕ) : ℤ) = 2 ^ n := by push_cast; rfl
  rw [hzero, BitVec.toInt_eq_toNat_cond, ← hcast]
  by_cases h : 2 * x.toNat < 2 ^ (2 * n)
  · rw [if_pos h]
    omega
  · rw [if_neg h]
    omega

/-- The numbers whose fit the high half tells: not those that fit because of their sign, and not
those that only fit without one. -/
def HalfTells (n : ℕ) (x : ℤ) : Prop :=
  ¬(-2 ^ (n - 1) ≤ x ∧ x < 0) ∧ ¬(2 ^ (n - 1) ≤ x ∧ x < 2 ^ n)

theorem halfTells_iff (hn : 0 < n) (x : BitVec (2 * n)) :
    (highHalf x ≠ 0#n ↔ ¬SignedFits n x.toInt) ↔ HalfTells n x.toInt := by
  have hpow : (2 : ℤ) ^ n = 2 * 2 ^ (n - 1) := by
    rw [← pow_succ', Nat.sub_add_cancel hn]
  have hpos : (0 : ℤ) < 2 ^ (n - 1) := by positivity
  rw [ne_eq, highHalf_eq_zero_iff hn, SignedFits, HalfTells, hpow]
  omega

theorem toInt_setWidth_of_lt {m : ℕ} (h : n < m) (a : BitVec n) :
    (a.setWidth m).toInt = a.toNat := by
  have hlt := a.isLt
  have hpow : 2 * 2 ^ n ≤ 2 ^ m := by
    rw [← pow_succ']
    exact Nat.pow_le_pow_right (by omega) h
  rw [BitVec.toInt_setWidth]
  apply Int.bmod_eq_of_le
  · omega
  · omega

theorem mixedProduct_toInt (hn : 0 < n) (a b : BitVec n) :
    (a.setWidth (2 * n) * b.signExtend (2 * n)).toInt = a.toNat * b.toInt := by
  have hle : n ≤ 2 * n := by omega
  have ha : (a.toNat : ℤ) < 2 ^ n := by exact_mod_cast a.isLt
  have hb := abs_toInt_le b
  have hbound : 2 * |(a.toNat : ℤ) * b.toInt| < 2 ^ (2 * n) := by
    rw [abs_mul, Nat.abs_cast, two_mul n, pow_add]
    nlinarith [abs_nonneg b.toInt, Int.natCast_nonneg a.toNat]
  have habs := abs_le.mp (le_refl |(a.toNat : ℤ) * b.toInt|)
  rw [BitVec.toInt_mul, toInt_setWidth_of_lt (by omega),
    BitVec.toInt_signExtend_of_le hle]
  apply Int.bmod_eq_of_le
  · push_cast
    omega
  · push_cast
    omega

end Signed

end Qx86.Foundation.Halves
