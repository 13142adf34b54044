import Mathlib.Data.BitVec
import Mathlib.Logic.Function.Iterate
import Mathlib.Tactic.Positivity
import Mathlib.Tactic.Ring

namespace Qx86.Foundation.Shifts

inductive ShiftKind where
  | left
  | right
  | arithmetic
  deriving DecidableEq

namespace ShiftKind

variable {n : ℕ}

def shiftBy : ShiftKind → BitVec n → ℕ → BitVec n
  | left, x, k => x <<< k
  | right, x, k => x >>> k
  | arithmetic, x, k => x.sshiftRight k

/-- The bit that a shift by one moves out. -/
def outBit : ShiftKind → BitVec n → Bool
  | left, x => x.msb
  | right, x | arithmetic, x => x.getLsbD 0

def shiftOne (κ : ShiftKind) (s : BitVec n × Bool) : BitVec n × Bool :=
  (κ.shiftBy s.1 1, κ.outBit s.1)

def oneOverflow : ShiftKind → BitVec n → Bool
  | left, x => x.msb != (x <<< 1).msb
  | right, x => x.msb
  | arithmetic, _ => false

theorem shiftBy_add (κ : ShiftKind) (x : BitVec n) (j k : ℕ) :
    κ.shiftBy x (j + k) = κ.shiftBy (κ.shiftBy x j) k := by
  cases κ with
  | left => exact BitVec.shiftLeft_add x j k
  | right => exact BitVec.shiftRight_add x j k
  | arithmetic => exact BitVec.sshiftRight_add

theorem shiftBy_zero (κ : ShiftKind) (x : BitVec n) : κ.shiftBy x 0 = x := by
  cases κ with
  | left => exact BitVec.shiftLeft_zero x
  | right => exact BitVec.ushiftRight_zero x
  | arithmetic => exact BitVec.sshiftRight_zero

theorem shiftOne_iterate (κ : ShiftKind) (k : ℕ) (x : BitVec n) (b : Bool) :
    κ.shiftOne^[k + 1] (x, b) = (κ.shiftBy x (k + 1), κ.outBit (κ.shiftBy x k)) := by
  induction k with
  | zero => rw [Function.iterate_one, shiftOne, shiftBy_zero]
  | succ k ih => rw [Function.iterate_succ_apply', ih, shiftOne, ← shiftBy_add]

/-- A word, a carry and a zero flag are those that some shifts by one leave. -/
def AfterShifts (κ : ShiftKind) (x : BitVec n) (j : ℕ) (v : BitVec n) (cf zf : Bool) : Prop :=
  v = κ.shiftBy x (j + 1) ∧ cf = κ.outBit (κ.shiftBy x j) ∧ zf = decide (κ.shiftBy x (j + 1) = 0)

theorem afterShifts_iff {κ : ShiftKind} {x v : BitVec n} {j : ℕ} {cf : Bool} :
    κ.AfterShifts x j v cf (v == 0) ↔
      v = κ.shiftBy x (j + 1) ∧ cf = κ.outBit (κ.shiftBy x j) := by
  constructor
  · rintro ⟨hv, hcf, -⟩
    exact ⟨hv, hcf⟩
  · rintro ⟨hv, hcf⟩
    refine ⟨hv, hcf, ?_⟩
    rw [hv, beq_eq_decide]

end ShiftKind

open ShiftKind

section Left

variable {n : ℕ} (x : BitVec n) (k : ℕ)

theorem wide_getLsbD {i : ℕ} (hi : i < 2 * n) :
    (x.setWidth (2 * n) <<< k).getLsbD i = (x.toNat * 2 ^ k).testBit i := by
  have hlt : i - k < 2 * n := by omega
  rw [BitVec.getLsbD_shiftLeft, BitVec.getLsbD_setWidth, Nat.testBit_mul_two_pow,
    decide_eq_true hi, decide_eq_true hlt, Bool.true_and, Bool.true_and]
  by_cases h : i < k
  · simp [h]
  · simp [h, Nat.le_of_not_lt h]
    rfl

theorem left_eq_zero_iff : x <<< k = 0 ↔ 2 ^ n ∣ x.toNat * 2 ^ k := by
  rw [← BitVec.toNat_inj, BitVec.toNat_shiftLeft, Nat.shiftLeft_eq, Nat.dvd_iff_mod_eq_zero]
  exact iff_of_eq (congrArg (_ = ·) (BitVec.toNat_ofNat ..))

theorem wide_eq_zero_iff : x.setWidth (2 * n) <<< k = 0 ↔ 2 ^ (2 * n) ∣ x.toNat * 2 ^ k := by
  rw [left_eq_zero_iff, BitVec.toNat_setWidth_of_le (by omega)]

theorem left_outBit (hn : 0 < n) :
    ShiftKind.left.outBit (x <<< k) = (x.toNat * 2 ^ (k + 1)).testBit n := by
  change (x <<< k).msb = _
  rw [BitVec.msb_eq_getLsbD_last, BitVec.getLsbD_shiftLeft, Nat.testBit_mul_two_pow]
  by_cases h : k + 1 ≤ n
  · have hindex : n - 1 - k = n - (k + 1) := by omega
    have hlt : ¬n - 1 < k := by omega
    rw [hindex]
    simp [hn, h, hlt]
    rfl
  · have hlt : n - 1 < k ∨ n - 1 - k < n := by omega
    simp [h]
    omega

theorem two_pow_succ_dvd_iff (m : ℕ) :
    2 ^ (n + 1) ∣ m ↔ 2 ^ n ∣ m ∧ m.testBit n = false := by
  have hpos := Nat.two_pow_pos n
  have hbit := Nat.mod_lt (m / 2 ^ n) (show 0 < 2 by decide)
  rw [Nat.dvd_iff_mod_eq_zero, Nat.dvd_iff_mod_eq_zero, Nat.mod_pow_succ, Nat.add_eq_zero_iff,
    Nat.mul_eq_zero, Nat.testBit_eq_decide_div_mod_eq, decide_eq_false_iff_not]
  omega

theorem left_nothing_iff : (x <<< k = 0 ∧ (x.toNat * 2 ^ k).testBit n = false) ↔
    2 ^ (n + 1) ∣ x.toNat * 2 ^ k := by
  rw [left_eq_zero_iff, two_pow_succ_dvd_iff]

theorem left_nothing (hk : n < k) : x <<< k = 0 ∧ (x.toNat * 2 ^ k).testBit n = false :=
  (left_nothing_iff x k).mpr ((Nat.pow_dvd_pow 2 hk).trans (dvd_mul_left _ _))

variable {j m : ℕ}

theorem left_after (hn : 0 < n) :
    left.AfterShifts x j (x <<< (j + 1)) ((x.setWidth (2 * n) <<< (j + 1)).getLsbD n)
      (x <<< (j + 1) == 0) := by
  refine afterShifts_iff.mpr ⟨rfl, ?_⟩
  rw [wide_getLsbD x _ (by omega)]
  exact (left_outBit x j hn).symm

theorem left_after_iff_of_lt (hn : 0 < n) (hj : n < j + 1) :
    left.AfterShifts x j (x <<< k) ((x.setWidth (2 * n) <<< k).getLsbD n) (x <<< k == 0) ↔
      2 ^ (n + 1) ∣ x.toNat * 2 ^ k := by
  obtain ⟨hzero, hnone⟩ := left_nothing x (j + 1) hj
  rw [afterShifts_iff, wide_getLsbD x _ (by omega), ← left_nothing_iff]
  change (x <<< k = x <<< (j + 1) ∧ _ = left.outBit (x <<< j)) ↔ _
  rw [left_outBit x j hn, hzero, hnone]

theorem left_after_iff_of_gt (hn : 0 < n) (hk : n < k) :
    left.AfterShifts x j (x <<< k) ((x.setWidth (2 * n) <<< k).getLsbD n) (x <<< k == 0) ↔
      2 ^ (n + 1) ∣ x.toNat * 2 ^ (j + 1) := by
  obtain ⟨hzero, hnone⟩ := left_nothing x k hk
  rw [afterShifts_iff, wide_getLsbD x _ (by omega), hzero, hnone, ← left_nothing_iff]
  change (0 = x <<< (j + 1) ∧ false = left.outBit (x <<< j)) ↔ _
  rw [left_outBit x j hn]
  exact and_congr eq_comm eq_comm

/-- A carry from another bit, and a zero flag that also looks at what was moved out. -/
theorem left_after_iff_of_wide (hn : 0 < n) (hm : m < 2 * n) :
    left.AfterShifts x j (x <<< (j + 1)) ((x.setWidth (2 * n) <<< (j + 1)).getLsbD m)
      (x.setWidth (2 * n) <<< (j + 1) == 0) ↔
      (x.toNat * 2 ^ (j + 1)).testBit m = (x.toNat * 2 ^ (j + 1)).testBit n ∧
        (2 ^ n ∣ x.toNat * 2 ^ (j + 1) → 2 ^ (2 * n) ∣ x.toNat * 2 ^ (j + 1)) := by
  have hdvd : 2 ^ (2 * n) ∣ x.toNat * 2 ^ (j + 1) → 2 ^ n ∣ x.toNat * 2 ^ (j + 1) :=
    (Nat.pow_dvd_pow 2 (by omega)).trans
  rw [AfterShifts, wide_getLsbD x _ hm, beq_eq_decide, decide_eq_decide, wide_eq_zero_iff]
  change (x <<< (j + 1) = x <<< (j + 1) ∧ _ = left.outBit (x <<< j) ∧
    (_ ↔ x <<< (j + 1) = 0)) ↔ _
  rw [left_outBit x j hn, left_eq_zero_iff]
  constructor
  · rintro ⟨-, hbit, hzero⟩
    exact ⟨hbit, hzero.mpr⟩
  · rintro ⟨hbit, hzero⟩
    exact ⟨rfl, hbit, hdvd, hzero⟩

end Left

section Right

variable {n : ℕ} (x : BitVec n) (k : ℕ)

theorem right_eq_zero_iff : x >>> k = 0 ↔ x.toNat < 2 ^ k := by
  rw [← BitVec.toNat_inj, BitVec.toNat_ushiftRight, Nat.shiftRight_eq_div_pow]
  have hzero : (0 : BitVec n).toNat = 0 := BitVec.toNat_zero
  rw [hzero, Nat.div_eq_zero_iff]
  have hpos := Nat.two_pow_pos k
  omega

theorem right_outBit : ShiftKind.right.outBit (x >>> k) = x.getLsbD k := by
  change (x >>> k).getLsbD 0 = _
  rw [BitVec.getLsbD_ushiftRight, Nat.add_zero]

theorem mod_cases (hn : 0 < n) (j : ℕ) :
    ((j + 1) % n = 0 ∧ j % n = n - 1) ∨ ∃ s, (j + 1) % n = s + 1 ∧ j % n = s := by
  have hlt := Nat.mod_lt j hn
  by_cases hlast : j % n + 1 = n
  · refine .inl ⟨?_, by omega⟩
    rw [← Nat.mod_add_mod, hlast, Nat.mod_self]
  · refine .inr ⟨j % n, ?_, rfl⟩
    rw [← Nat.mod_add_mod, Nat.mod_eq_of_lt (by omega)]

theorem lt_two_pow_iff (m : ℕ) : m < 2 ^ k ↔ m < 2 ^ (k + 1) ∧ m.testBit k = false := by
  have hpos := Nat.two_pow_pos k
  have hpow : 2 ^ (k + 1) = 2 ^ k * 2 := pow_succ 2 k
  have hdiv := Nat.div_lt_iff_lt_mul (x := m) (y := 2) hpos
  have hzero := Nat.div_eq_zero_iff (a := m) (b := 2 ^ k)
  rw [Nat.testBit_eq_decide_div_mod_eq, decide_eq_false_iff_not, hpow]
  generalize m / 2 ^ k = q at hdiv hzero ⊢
  omega

variable {j : ℕ}

theorem right_after : right.AfterShifts x j (x >>> (j + 1)) (x.getLsbD j) (x >>> (j + 1) == 0) :=
  afterShifts_iff.mpr ⟨rfl, (right_outBit x j).symm⟩

theorem right_after_iff_of_le (hn : 0 < n) (hj : n ≤ j + 1) :
    right.AfterShifts x j (x >>> ((j + 1) % n)) (x.getLsbD (j % n)) (x >>> ((j + 1) % n) == 0) ↔
      x.toNat < 2 ^ ((j + 1) % n - 1) := by
  have hzero : x >>> (j + 1) = 0 :=
    (right_eq_zero_iff x _).mpr (lt_of_lt_of_le x.isLt (Nat.pow_le_pow_right (by decide) hj))
  rw [afterShifts_iff]
  change (_ = x >>> (j + 1) ∧ _ = right.outBit (x >>> j)) ↔ _
  rw [right_outBit, hzero, right_eq_zero_iff]
  obtain ⟨hs, hpred⟩ | ⟨s, hs, hpred⟩ := mod_cases hn j
  · rw [hs, Nat.zero_sub]
    constructor
    · rintro ⟨h, -⟩
      exact h
    · intro h
      have hx : x.toNat = 0 := by omega
      refine ⟨h, ?_⟩
      rw [BitVec.getLsbD, BitVec.getLsbD, hx, Nat.zero_testBit, Nat.zero_testBit]
  · have hlt : s < n := by
      have hmod := Nat.mod_lt j hn
      omega
    rw [hs, hpred, Nat.add_sub_cancel, lt_two_pow_iff s]
    have hbit : x.getLsbD j = false := by
      apply BitVec.getLsbD_of_ge
      by_contra hjn
      have hmod := Nat.mod_eq_of_lt (Nat.lt_of_not_le hjn)
      have hself : (j + 1) % n = 0 := by
        rw [show j + 1 = n by omega, Nat.mod_self]
      omega
    rw [hbit]
    rfl

theorem right_after_iff (hn : 0 < n) :
    right.AfterShifts x j (x >>> ((j + 1) % n)) (x.getLsbD (j % n)) (x >>> ((j + 1) % n) == 0) ↔
      j + 1 < n ∨ x.toNat < 2 ^ ((j + 1) % n - 1) := by
  by_cases hj : j + 1 < n
  · rw [Nat.mod_eq_of_lt hj, Nat.mod_eq_of_lt (by omega)]
    exact iff_of_true (right_after x) (.inl hj)
  · exact (right_after_iff_of_le x hn (by omega)).trans (or_iff_right hj).symm

theorem right_after_iff_of_gt (hk : n ≤ k) :
    right.AfterShifts x j (x >>> k) (x.getLsbD j) (x >>> k == 0) ↔ x.toNat < 2 ^ (j + 1) := by
  have hzero : x >>> k = 0 :=
    (right_eq_zero_iff x _).mpr (lt_of_lt_of_le x.isLt (Nat.pow_le_pow_right (by decide) hk))
  rw [afterShifts_iff, hzero, ← right_eq_zero_iff]
  change (0 = x >>> (j + 1) ∧ _ = right.outBit (x >>> j)) ↔ _
  rw [right_outBit]
  exact (and_iff_left rfl).trans eq_comm

end Right

section Arithmetic

variable {n : ℕ} (x : BitVec n) {k : ℕ}

theorem arithmetic_outBit (hk : k < n) :
    ShiftKind.arithmetic.outBit (x.sshiftRight k) = x.getLsbD k := by
  change (x.sshiftRight k).getLsbD 0 = _
  rw [BitVec.getLsbD_sshiftRight, Nat.add_zero, if_pos hk, decide_eq_false (by omega)]
  simp

theorem arithmetic_getLsbD (hk : n ≤ k + 1) {i : ℕ} (hi : i < n) :
    (x.sshiftRight k).getLsbD i = x.msb := by
  rw [BitVec.getLsbD_sshiftRight, decide_eq_false (by omega)]
  by_cases hin : k + i < n
  · have hlast : k + i = n - 1 := by omega
    rw [if_pos hin, hlast, BitVec.msb_eq_getLsbD_last]
    rfl
  · rw [if_neg hin]
    rfl

theorem ediv_two_pow_eq_iff {y : ℤ} (hlo : -2 ^ k ≤ y) (hhi : y < 2 ^ k) (m : ℕ) :
    y / 2 ^ m = y / 2 ^ k ↔ -2 ^ m ≤ y ∧ y < 2 ^ m := by
  have hm : (0 : ℤ) < 2 ^ m := by positivity
  have hk : (0 : ℤ) < 2 ^ k := by positivity
  have hm₀ := Int.ediv_lt_iff_lt_mul (a := y) (b := 0) hm
  have hm₁ := Int.ediv_lt_iff_lt_mul (a := y) (b := 1) hm
  have hm₂ := Int.le_ediv_iff_mul_le (a := -1) (b := y) hm
  have hk₀ := Int.ediv_lt_iff_lt_mul (a := y) (b := 0) hk
  have hk₁ := Int.ediv_lt_iff_lt_mul (a := y) (b := 1) hk
  have hk₂ := Int.le_ediv_iff_mul_le (a := -1) (b := y) hk
  generalize y / 2 ^ m = q at hm₀ hm₁ hm₂ ⊢
  generalize y / 2 ^ k = r at hk₀ hk₁ hk₂ ⊢
  omega

theorem arithmetic_eq_sign_iff (hk : n ≤ k) (m : ℕ) :
    x.sshiftRight m = x.sshiftRight k ↔ -2 ^ m ≤ x.toInt ∧ x.toInt < 2 ^ m := by
  have hpow : (2 : ℤ) ^ (n - 1) ≤ 2 ^ k := pow_le_pow_right₀ (by decide) (by omega)
  have hlo := BitVec.le_toInt x
  have hhi := BitVec.toInt_lt (x := x)
  rw [← BitVec.toInt_inj, BitVec.toInt_sshiftRight, BitVec.toInt_sshiftRight,
    Int.shiftRight_eq_div_pow, Int.shiftRight_eq_div_pow]
  push_cast
  exact ediv_two_pow_eq_iff (by omega) (by omega) m

theorem arithmetic_step_iff (hk : n ≤ k) {m : ℕ} (hm : m < n) :
    x.sshiftRight m = x.sshiftRight k ↔
      x.sshiftRight (m + 1) = x.sshiftRight k ∧ x.getLsbD m = x.msb := by
  have hbits : ∀ j, x.sshiftRight j = x.sshiftRight k ↔
      ∀ i, j ≤ i → i < n → x.getLsbD i = x.msb := by
    intro j
    constructor
    · intro h i hji hi
      have hbit := congrArg (BitVec.getLsbD · (i - j)) h
      have hindex : j + (i - j) = i := by omega
      rw [arithmetic_getLsbD x (k := k) (by omega) (by omega), BitVec.getLsbD_sshiftRight,
        hindex, if_pos hi,
        decide_eq_false (by omega)] at hbit
      simpa using hbit
    · intro h
      apply BitVec.eq_of_getLsbD_eq
      intro i hi
      rw [arithmetic_getLsbD x (k := k) (by omega) hi, BitVec.getLsbD_sshiftRight,
        decide_eq_false (by omega)]
      by_cases hin : j + i < n
      · rw [if_pos hin, h _ (by omega) hin]
        simp
      · rw [if_neg hin]
        simp
  rw [hbits, hbits]
  constructor
  · intro h
    exact ⟨fun i hi ↦ h i (by omega), h m le_rfl hm⟩
  · rintro ⟨h, hbit⟩ i hmi hi
    obtain rfl | hlt := eq_or_lt_of_le hmi
    · exact hbit
    · exact h i hlt hi

variable {j : ℕ}

theorem arithmetic_after (hj : j < n) : arithmetic.AfterShifts x j (x.sshiftRight (j + 1))
    (x.getLsbD j) (x.sshiftRight (j + 1) == 0) :=
  afterShifts_iff.mpr ⟨rfl, (arithmetic_outBit x hj).symm⟩

theorem arithmetic_after_iff_of_le (hn : 0 < n) (hj : n ≤ j + 1) :
    arithmetic.AfterShifts x j (x.sshiftRight ((j + 1) % n)) (x.getLsbD (j % n))
      (x.sshiftRight ((j + 1) % n) == 0) ↔
      -2 ^ ((j + 1) % n - 1) ≤ x.toInt ∧ x.toInt < 2 ^ ((j + 1) % n - 1) := by
  have hout : ShiftKind.arithmetic.outBit (x.sshiftRight j) = x.msb :=
    arithmetic_getLsbD x hj hn
  rw [afterShifts_iff]
  change (_ = x.sshiftRight (j + 1) ∧ _ = arithmetic.outBit (x.sshiftRight j)) ↔ _
  rw [hout, ← arithmetic_eq_sign_iff x hj]
  obtain ⟨hs, hpred⟩ | ⟨s, hs, hpred⟩ := mod_cases hn j
  · rw [hs, hpred, ← BitVec.msb_eq_getLsbD_last]
    exact and_iff_left rfl
  · have hlt := Nat.mod_lt j hn
    rw [hs, hpred, Nat.add_sub_cancel]
    exact (arithmetic_step_iff x hj (by omega)).symm

theorem arithmetic_after_iff (hn : 0 < n) :
    arithmetic.AfterShifts x j (x.sshiftRight ((j + 1) % n)) (x.getLsbD (j % n))
      (x.sshiftRight ((j + 1) % n) == 0) ↔
      j + 1 < n ∨ (-2 ^ ((j + 1) % n - 1) ≤ x.toInt ∧ x.toInt < 2 ^ ((j + 1) % n - 1)) := by
  by_cases hj : j + 1 < n
  · rw [Nat.mod_eq_of_lt hj, Nat.mod_eq_of_lt (by omega)]
    exact iff_of_true (arithmetic_after x (by omega)) (.inl hj)
  · exact (arithmetic_after_iff_of_le x hn (by omega)).trans (or_iff_right hj).symm

end Arithmetic

end Qx86.Foundation.Shifts
