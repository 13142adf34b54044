import Mathlib.Algebra.Order.Group.Unbundled.Int
import Mathlib.Algebra.Order.Ring.Abs
import Mathlib.Data.Int.Order.Basic
import Mathlib.Tactic.Linarith
import Mathlib.Tactic.Ring

namespace Qx86.Foundation.Quotients

variable {a d q r q' r' h x y : ℤ}

/-- A quotient rounded towards zero, with its remainder. -/
structure Truncates (a d q r : ℤ) : Prop where
  equation : a = q * d + r
  small : |r| < |d|
  sign : r = 0 ∨ r.sign = a.sign

theorem Truncates.ne_zero (t : Truncates a d q r) : d ≠ 0 :=
  abs_pos.mp (lt_of_le_of_lt (abs_nonneg r) t.small)

theorem Truncates.nonneg (t : Truncates a d q r) (ha : 0 ≤ a) : 0 ≤ r := by
  obtain h | h := t.sign
  · exact h.ge
  · rw [← Int.sign_nonneg_iff, h, Int.sign_nonneg_iff]
    exact ha

theorem Truncates.nonpos (t : Truncates a d q r) (ha : a ≤ 0) : r ≤ 0 := by
  obtain h | h := t.sign
  · exact h.le
  · rw [← Int.sign_nonpos_iff, h, Int.sign_nonpos_iff]
    exact ha

theorem truncates_iff : Truncates a d q r ↔ d ≠ 0 ∧ q = a.tdiv d ∧ r = a.tmod d := by
  have hcomm : q * d = d * q := mul_comm q d
  constructor
  · intro t
    have heq := t.equation
    have hsmall := t.small
    refine ⟨t.ne_zero, ?_⟩
    rw [Int.abs_eq_natAbs d, abs_lt] at hsmall
    obtain ha | ha := le_total 0 a
    · have hunique := (Int.tdiv_tmod_unique ha t.ne_zero (q := q) (r := r)).mpr
        ⟨by omega, t.nonneg ha, hsmall.2⟩
      exact ⟨hunique.1.symm, hunique.2.symm⟩
    · have hunique := (Int.tdiv_tmod_unique' ha t.ne_zero (q := q) (r := r)).mpr
        ⟨by omega, hsmall.1, t.nonpos ha⟩
      exact ⟨hunique.1.symm, hunique.2.symm⟩
  · rintro ⟨hd, rfl, rfl⟩
    refine ⟨?_, ?_, ?_⟩
    · exact (Int.tdiv_mul_add_tmod a d).symm
    · rw [Int.abs_eq_natAbs, Int.abs_eq_natAbs, Int.natAbs_tmod]
      exact_mod_cast Nat.mod_lt _ (Int.natAbs_pos.mpr hd)
    · by_cases hdvd : d ∣ a
      · exact .inl (Int.tmod_eq_zero_of_dvd hdvd)
      · exact .inr ((Int.sign_tmod a d).trans (if_neg hdvd))

theorem truncates_tdiv (hd : d ≠ 0) : Truncates a d (a.tdiv d) (a.tmod d) :=
  truncates_iff.mpr ⟨hd, rfl, rfl⟩

theorem Truncates.unique (t : Truncates a d q r) (t' : Truncates a d q' r') : q = q' ∧ r = r' := by
  obtain ⟨-, hq, hr⟩ := truncates_iff.mp t
  obtain ⟨-, hq', hr'⟩ := truncates_iff.mp t'
  exact ⟨hq.trans hq'.symm, hr.trans hr'.symm⟩

section Bounds

variable (hd : d ≠ 0)

include hd

theorem abs_tdiv_lt_iff (k : ℤ) : |a.tdiv d| < k ↔ |a| < k * |d| := by
  have hpos : 0 < d.natAbs := Int.natAbs_pos.mpr hd
  obtain hk | hk := lt_or_ge k 0
  · have hprod : k * |d| ≤ 0 := mul_nonpos_of_nonpos_of_nonneg hk.le (abs_nonneg d)
    have hquot := abs_nonneg (a.tdiv d)
    have ha := abs_nonneg a
    exact iff_of_false (by omega) (by omega)
  · obtain ⟨n, rfl⟩ := Int.eq_ofNat_of_zero_le hk
    have hdiv := Nat.div_lt_iff_lt_mul (x := a.natAbs) (y := n) hpos
    rw [Int.abs_eq_natAbs, Int.abs_eq_natAbs, Int.abs_eq_natAbs, Int.natAbs_tdiv]
    exact_mod_cast hdiv

theorem tdiv_pos_of (hq : 0 < a.tdiv d) : 0 < a * d := by
  have t := truncates_tdiv (a := a) hd
  have hmul : |a.tmod d| * |d| < |d| * |d| := mul_lt_mul_of_pos_right t.small (abs_pos.mpr hd)
  have hle : 1 * (d * d) ≤ a.tdiv d * (d * d) := mul_le_mul_of_nonneg_right hq (mul_self_nonneg d)
  rw [← abs_mul, abs_mul_abs_self] at hmul
  have habs := neg_abs_le (a.tmod d * d)
  have heq : a * d = a.tdiv d * (d * d) + a.tmod d * d := by
    conv_lhs => rw [t.equation]
    ring
  omega

theorem tdiv_neg_of (hq : a.tdiv d < 0) : a * d < 0 := by
  have hneg : (-a).tdiv d = -a.tdiv d := Int.neg_tdiv a d
  have hpos := tdiv_pos_of (a := -a) hd (by omega)
  rw [neg_mul] at hpos
  omega

end Bounds

/-- When a truncated quotient is in the range from -h to h - 1. -/
def QuotientFits (h a d : ℤ) : Prop := |a| < h * |d| ∨ (a * d < 0 ∧ |a| < (h + 1) * |d|)

/-- When a truncated quotient is at least k. -/
def QuotientExceeds (k a d : ℤ) : Prop := 0 < a * d ∧ k * |d| ≤ |a|

theorem quotientFits_iff (hd : d ≠ 0) (hh : 0 < h) :
    QuotientFits h a d ↔ -h ≤ a.tdiv d ∧ a.tdiv d < h := by
  rw [QuotientFits, ← abs_tdiv_lt_iff hd, ← abs_tdiv_lt_iff hd, abs_lt, abs_lt]
  constructor
  · rintro (hin | ⟨hneg, hin⟩)
    · exact ⟨hin.1.le, hin.2⟩
    · have hle : ¬0 < a.tdiv d := fun hq ↦ absurd (tdiv_pos_of hd hq) (by omega)
      omega
  · rintro ⟨hlo, hhi⟩
    by_cases hin : -h < a.tdiv d
    · exact .inl ⟨hin, hhi⟩
    · exact .inr ⟨tdiv_neg_of hd (by omega), by omega, by omega⟩

theorem quotientExceeds_iff {k : ℤ} (hd : d ≠ 0) (hk : 0 < k) :
    QuotientExceeds k a d ↔ k ≤ a.tdiv d := by
  rw [QuotientExceeds, ← not_lt (a := |a|), ← abs_tdiv_lt_iff hd, abs_lt]
  constructor
  · rintro ⟨hpos, hout⟩
    have hle : ¬a.tdiv d < 0 := fun hq ↦ absurd (tdiv_neg_of hd hq) (by omega)
    omega
  · intro hle
    exact ⟨tdiv_pos_of hd (by omega), by omega⟩

/-- What is read back of a number that is stored with a range of 2h values. -/
structure Wraps (h x y : ℤ) : Prop where
  lower : -h ≤ y
  upper : y < h
  congr : 2 * h ∣ x - y

theorem Wraps.eq_add (w : Wraps h x y) (c : ℤ) (hc : |x - y - 2 * h * c| < 2 * h) :
    x = y + 2 * h * c := by
  have hdvd : 2 * h ∣ x - y - 2 * h * c := dvd_sub w.congr (dvd_mul_right _ _)
  have hzero := Int.eq_zero_of_abs_lt_dvd hdvd hc
  omega

theorem Wraps.eq_of_fits (w : Wraps h x y) (hlo : -h ≤ x) (hhi : x < h) : y = x := by
  have hlower := w.lower
  have hupper := w.upper
  have hzero := w.eq_add 0 (by rw [abs_lt]; omega)
  omega

theorem truncates_stored_iff (hd : d ≠ 0) (hdh : |d| ≤ h) (hq : Wraps h (a.tdiv d) q)
    (hr : Wraps h (a.tmod d) r) : Truncates a d q r ↔ -h ≤ a.tdiv d ∧ a.tdiv d < h := by
  constructor
  · intro t
    rw [← (truncates_iff.mp t).2.1]
    exact ⟨hq.lower, hq.upper⟩
  · rintro ⟨hlo, hhi⟩
    have t := truncates_tdiv (a := a) hd
    have hsmall := abs_lt.mp t.small
    rw [hq.eq_of_fits hlo hhi, hr.eq_of_fits (by omega) (by omega)]
    exact t

section Divisor

variable (hd : d < 0) (hdh : -h ≤ d) (t' : Truncates a (d + 2 * h) q' r')

include hd hdh t'

/-- A negative divisor that is taken without its sign gives the quotient zero for small
dividends, and for some more if it is the least one. -/
theorem truncates_of_unsigned (hq : Wraps h q' q) (hr : Wraps h r' r)
    (hcase : |a| < |d| ∨ (d = -h ∧ h * h ≤ a ∧ a < h * h + h)) : Truncates a d q r := by
  obtain hsmall | ⟨rfl, hlo, hhi⟩ := hcase
  · have habs : |d| = -d := abs_of_neg hd
    have hlarge : |d + 2 * h| = d + 2 * h := abs_of_pos (by omega)
    have hbound := abs_lt.mp (habs ▸ hsmall)
    have htrunc : Truncates a (d + 2 * h) 0 a := ⟨by ring, by omega, .inr rfl⟩
    obtain ⟨rfl, rfl⟩ := t'.unique htrunc
    have hq0 := hq.eq_of_fits (by omega) (by omega)
    have hra := hr.eq_of_fits (by omega) (by omega)
    rw [hq0, hra]
    exact ⟨by ring, hsmall, .inr rfl⟩
  · have hsquare : 0 < h * h := mul_pos (by omega) (by omega)
    have hsign : a - h * h = 0 ∨ (a - h * h).sign = a.sign := by
      obtain hzero | hpos := eq_or_lt_of_le hlo
      · exact .inl (by omega)
      · exact .inr ((Int.sign_eq_one_of_pos (by omega)).trans
          (Int.sign_eq_one_of_pos (by omega)).symm)
    have hrem : |a - h * h| < |h| := by
      rw [abs_of_nonneg (by omega), abs_of_pos (by omega)]
      omega
    have htrunc : Truncates a (-h + 2 * h) h (a - h * h) := by
      have hdivisor : -h + 2 * h = h := by ring
      rw [hdivisor]
      exact ⟨by ring, hrem, hsign⟩
    obtain ⟨hqh, hra⟩ := t'.unique htrunc
    have hlower := hq.lower
    have hupper := hq.upper
    have hwrap := hq.eq_add 1 (by rw [abs_lt]; omega)
    have hquotient : q = -h := by omega
    have hremainder : r = a - h * h := (hr.eq_of_fits (by omega) (by omega)).trans hra
    rw [hquotient, hremainder]
    refine ⟨by ring, ?_, hsign⟩
    rw [abs_neg]
    exact hrem

theorem unsigned_of_nonneg (hq : Wraps h q' q) (t : Truncates a d q r) (hpos : 0 ≤ a)
    (hlarge : -d ≤ a) : d = -h ∧ h * h ≤ a ∧ a < h * h + h := by
  have heq := t.equation
  have heq' := t'.equation
  have hsmall := abs_lt.mp t.small
  have hsmall' := abs_lt.mp t'.small
  have hr := t.nonneg hpos
  have hr' := t'.nonneg hpos
  have hlo := hq.lower
  rw [abs_of_neg hd] at hsmall
  rw [abs_of_pos (by omega)] at hsmall'
  have hqneg : q < 0 := by
    by_contra hq0
    have hprod := mul_nonpos_of_nonneg_of_nonpos (not_lt.mp hq0) hd.le
    omega
  have hqpos' : 0 ≤ q' := by
    by_contra hq0
    have hprod := mul_le_mul_of_nonneg_right (show q' ≤ -1 by omega) (show 0 ≤ d + 2 * h by omega)
    omega
  have hbound : a < h * h + h := by
    have hprod : -q * -d ≤ h * h := mul_le_mul (by omega) (by omega) (by omega) (by omega)
    rw [neg_mul_neg] at hprod
    omega
  have hqlt' : q' < 2 * h := by
    by_contra hq0
    have hprod : 2 * h * h ≤ q' * (d + 2 * h) :=
      mul_le_mul (by omega) (by omega) (by omega) hqpos'
    have hone : 1 * h ≤ h * h := mul_le_mul_of_nonneg_right (by omega) (by omega)
    rw [mul_assoc 2 h h] at hprod
    omega
  have hwrap := hq.eq_add 1 (by rw [abs_lt]; omega)
  have hprod : h * h ≤ q' * (d + 2 * h) := mul_le_mul (by omega) (by omega) (by omega) hqpos'
  refine ⟨?_, by omega, hbound⟩
  by_contra hne
  have hexpand : q' * (d + 2 * h) = q * d + 2 * h * (q + d + 2 * h) := by
    rw [hwrap]
    ring
  have hmul : 2 * h * 1 ≤ 2 * h * (q + d + 2 * h) :=
    mul_le_mul_of_nonneg_left (by omega) (by omega)
  omega

theorem unsigned_of_neg (hq : Wraps h q' q) (t : Truncates a d q r) (hneg : a < 0) : d < a := by
  by_contra hlarge
  have heq := t.equation
  have heq' := t'.equation
  have hsmall := abs_lt.mp t.small
  have hsmall' := abs_lt.mp t'.small
  have hr := t.nonpos hneg.le
  have hr' := t'.nonpos hneg.le
  have hhi := hq.upper
  rw [abs_of_neg hd] at hsmall
  rw [abs_of_pos (by omega)] at hsmall'
  have hqpos : 0 < q := by
    by_contra hq0
    have hprod := mul_nonneg_of_nonpos_of_nonpos (not_lt.mp hq0) hd.le
    omega
  have hqneg' : q' ≤ 0 := by
    by_contra hq0
    have hprod := mul_le_mul_of_nonneg_right (show 1 ≤ q' by omega) (show 0 ≤ d + 2 * h by omega)
    omega
  have hbound : -(h * h) < a := by
    have hprod : (q + 1) * -d ≤ h * h := mul_le_mul (by omega) (by omega) (by omega) (by omega)
    rw [mul_neg, add_mul, one_mul] at hprod
    omega
  have hqge' : -(2 * h) ≤ q' := by
    by_contra hq0
    have hprod : 2 * h * h ≤ -q' * (d + 2 * h) :=
      mul_le_mul (by omega) (by omega) (by omega) (by omega)
    have hnonneg : 0 ≤ h * h := mul_self_nonneg h
    rw [mul_assoc 2 h h, neg_mul] at hprod
    omega
  have hwrap := hq.eq_add (-1) (by rw [abs_lt]; omega)
  have hexpand : q' * (d + 2 * h) = q * d - 2 * h * (d + 2 * h - q) := by
    rw [hwrap]
    ring
  have hmul : 2 * h * 1 ≤ 2 * h * (d + 2 * h - q) :=
    mul_le_mul_of_nonneg_left (by omega) (by omega)
  omega

theorem unsigned_of_truncates (hq : Wraps h q' q) (t : Truncates a d q r) :
    |a| < |d| ∨ (d = -h ∧ h * h ≤ a ∧ a < h * h + h) := by
  rw [abs_of_neg hd]
  obtain hpos | hneg := le_or_gt 0 a
  · rw [abs_of_nonneg hpos]
    by_cases hsmall : a < -d
    · exact .inl hsmall
    · exact .inr (unsigned_of_nonneg hd hdh t' hq t hpos (not_lt.mp hsmall))
  · rw [abs_of_neg hneg]
    exact .inl (neg_lt_neg (unsigned_of_neg hd hdh t' hq t hneg))

end Divisor

section Dividend

variable (hx : -h ≤ x) (hx0 : x < 0) (hd : |d| ≤ h) (t' : Truncates x d q' r')

include hx hx0 hd t'

/-- A dividend whose high half is lost still gives the right quotient in one case only. -/
theorem truncates_of_lost (hax : 2 * h ∣ a - x) (hq : Wraps h q' q) (hr : Wraps h r' r)
    (ha : a = h) (hd1 : d = -1) : Truncates a d q r := by
  subst ha hd1
  have hwide : a - x = 2 * a := by
    have hzero := Int.eq_zero_of_abs_lt_dvd (dvd_sub hax (dvd_refl (2 * a)))
      (by rw [abs_lt]; omega)
    omega
  have hone : |(0 : ℤ)| < |-1| := by decide
  have hxa : x = -a := by omega
  have htrunc : Truncates x (-1) a 0 := ⟨by omega, hone, .inl rfl⟩
  obtain ⟨rfl, rfl⟩ := t'.unique htrunc
  have hlower := hq.lower
  have hupper := hq.upper
  have hwrap := hq.eq_add 1 (by rw [abs_lt]; omega)
  have hremainder := hr.eq_of_fits (by omega) (by omega)
  exact ⟨by omega, by rw [hremainder]; exact hone, .inl hremainder⟩

theorem lost_of_truncates (hne : a ≠ x) (hq : Wraps h q' q) (hr : Wraps h r' r)
    (t : Truncates a d q r) : a = h ∧ d = -1 := by
  have heq := t.equation
  have heq' := t'.equation
  have hsmall' := abs_lt.mp t'.small
  have hlo := hq.lower
  have hhi := hq.upper
  have hr' := t'.nonpos hx0.le
  have hremainder := hr.eq_of_fits (by omega) (by omega)
  have hquotient : |q'| ≤ h := by
    rw [(truncates_iff.mp t').2.1, Int.abs_eq_natAbs]
    have hle := Int.natAbs_tdiv_le_natAbs x d
    omega
  have hbounds := abs_le.mp hquotient
  by_cases hsame : q' - q < 2 * h
  · have hwrap := hq.eq_add 0 (by rw [abs_lt]; omega)
    have hqq : q' = q := by omega
    rw [hqq, ← hremainder] at heq'
    exact absurd (heq.trans heq'.symm) hne
  · have hq' : q' = h := by omega
    have hqh : q = -h := by omega
    subst hq'
    have hneg : d < 0 := by
      by_contra hge
      have hdpos : 0 < d := by
        have hne0 := t'.ne_zero
        omega
      rw [abs_of_pos hdpos] at hsmall' hd
      nlinarith
    have hle : -1 ≤ d := by nlinarith
    have hd1 : d = -1 := by omega
    subst hd1
    rw [abs_neg, abs_one] at hsmall'
    rw [hqh] at heq
    omega

end Dividend

end Qx86.Foundation.Quotients
