import Mathlib.Data.BitVec
import Mathlib.Data.Nat.Digits.Defs
import Mathlib.Tactic.Linarith
import Mathlib.Tactic.Positivity
import Mathlib.Tactic.Ring

namespace Qx86.Foundation.Limbs

section Ripple

variable {α β : Type}

def ripple (step : Bool → α → β × Bool) (c : Bool) : List α → List β × Bool
  | [] => ([], c)
  | a :: as =>
    let r := step c a
    let rest := ripple step r.2 as
    (r.1 :: rest.1, rest.2)

variable {step step' : Bool → α → β × Bool} {bad : Bool → α → Prop}

@[simp] theorem ripple_nil (c : Bool) : ripple step c [] = ([], c) := rfl

theorem ripple_length (c : Bool) (as : List α) : (ripple step c as).1.length = as.length := by
  induction as generalizing c with
  | nil => rfl
  | cons a as ih => exact congrArg (· + 1) (ih _)

/-- Two carries that part where the second is bad, and show at once, give the same result
exactly if no place is bad. -/
theorem ripple_eq_iff (same : ∀ c a, ¬bad c a → step' c a = step c a)
    (parts : ∀ c a, bad c a → (step' c a).2 ≠ (step c a).2)
    (shows : ∀ c c' a, c' ≠ c → (step' c' a).1 ≠ (step c a).1) (c : Bool) (as : List α) :
    ripple step' c as = ripple step c as ↔
      ∀ i a, as[i]? = some a → ¬bad (ripple step c (as.take i)).2 a := by
  induction as generalizing c with
  | nil => exact iff_of_true rfl nofun
  | cons a as ih =>
    by_cases hbad : bad c a
    · refine iff_of_false ?_ fun h ↦ h 0 a rfl hbad
      have hcarry := parts c a hbad
      intro h
      cases as with
      | nil =>
        rw [ripple, ripple, Prod.mk.injEq] at h
        exact hcarry h.2
      | cons b as =>
        have hlimbs := congrArg Prod.fst h
        have htail := (List.cons.inj hlimbs).2
        exact shows _ _ b hcarry (List.cons.inj htail).1
    · have hsame := same c a hbad
      have htail : ripple step' c (a :: as) = ripple step c (a :: as) ↔
          ripple step' (step c a).2 as = ripple step (step c a).2 as := by
        simp only [ripple, hsame, Prod.mk.injEq, List.cons.injEq, true_and]
        exact Prod.ext_iff.symm
      rw [htail, ih]
      constructor
      · intro h i b hb
        cases i with
        | zero =>
          cases hb
          exact hbad
        | succ i => exact h i b hb
      · intro h i b hb
        exact h (i + 1) b hb

end Ripple

section Value

variable {w : ℕ}

def value (xs : List (BitVec w)) : ℕ := Nat.ofDigits (2 ^ w) (xs.map BitVec.toNat)

@[simp] theorem value_nil : value ([] : List (BitVec w)) = 0 := rfl

@[simp] theorem value_cons (x : BitVec w) (xs : List (BitVec w)) :
    value (x :: xs) = x.toNat + 2 ^ w * value xs := Nat.ofDigits_cons ..

theorem value_lt (xs : List (BitVec w)) : value xs < 2 ^ (w * xs.length) := by
  induction xs with
  | nil => exact Nat.one_pos
  | cons x xs ih =>
    have hx := x.isLt
    rw [value_cons, List.length_cons, Nat.mul_succ, Nat.add_comm (w * _), Nat.pow_add]
    have hmul := Nat.mul_le_mul_left (2 ^ w) (Nat.succ_le_of_lt ih)
    rw [Nat.mul_succ] at hmul
    omega

theorem value_injective {xs ys : List (BitVec w)} (hl : xs.length = ys.length)
    (h : value xs = value ys) : xs = ys := by
  induction xs generalizing ys with
  | nil => exact (List.eq_nil_of_length_eq_zero hl.symm).symm
  | cons x xs ih =>
    obtain _ | ⟨y, ys⟩ := ys
    · cases hl
    · rw [value_cons, value_cons] at h
      have hmod := congrArg (· % 2 ^ w) h
      simp only [Nat.add_mul_mod_self_left, Nat.mod_eq_of_lt x.isLt,
        Nat.mod_eq_of_lt y.isLt] at hmod
      have hxy := BitVec.eq_of_toNat_eq hmod
      subst hxy
      have hrest := Nat.eq_of_mul_eq_mul_left (Nat.two_pow_pos w) (Nat.add_left_cancel h)
      rw [ih (Nat.succ.inj hl) hrest]

theorem value_append (xs ys : List (BitVec w)) :
    value (xs ++ ys) = value xs + 2 ^ (w * xs.length) * value ys := by
  rw [value, value, value, List.map_append, Nat.ofDigits_append, List.length_map, Nat.pow_mul]

theorem longDivision_step (qs xs : List (BitVec w)) {q x high low d r : ℕ}
    (hlength : qs.length = xs.length) (hstep : q * d + low = high * 2 ^ w + x)
    (hrest : value qs * d + r = low * 2 ^ (w * xs.length) + value xs) :
    (value qs + 2 ^ (w * qs.length) * q) * d + r =
      high * 2 ^ (w * (xs.length + 1)) + (value xs + 2 ^ (w * xs.length) * x) := by
  rw [hlength, Nat.mul_succ, Nat.pow_add]
  calc
    _ = value qs * d + r + 2 ^ (w * xs.length) * (q * d) := by ring
    _ = 2 ^ (w * xs.length) * (q * d + low) + value xs := by
      rw [hrest]
      ring
    _ = _ := by
      rw [hstep]
      ring

/-- The quotient of a number of two limbs is no limb exactly if its high one is not less than the
divisor. -/
theorem quotient_overflows_iff {n high low d : ℕ} (hlow : low < n) :
    d = 0 ∨ n ≤ (high * n + low) / d ↔ d ≤ high := by
  obtain rfl | hpos := Nat.eq_zero_or_pos d
  · exact iff_of_true (.inl rfl) (Nat.zero_le _)
  · rw [Nat.le_div_iff_mul_le hpos, Nat.mul_comm n]
    constructor
    · rintro (hzero | hlarge)
      · exact hzero.le.trans (Nat.zero_le _)
      · have hlt : d * n < (high + 1) * n := by
          rw [Nat.succ_mul]
          omega
        exact Nat.le_of_lt_succ (Nat.lt_of_mul_lt_mul_right hlt)
    · intro hle
      have hmul := Nat.mul_le_mul_right n hle
      exact .inr (by omega)

theorem longProduct_step (ys xs : List (BitVec w)) {y x f c high carry : ℕ}
    (hlength : ys.length = xs.length) (hstep : y + 2 ^ w * high = x * f + c)
    (hrest : value ys + 2 ^ (w * xs.length) * carry = value xs * f + high) :
    y + 2 ^ w * value ys + 2 ^ (w * (ys.length + 1)) * carry =
      (x + 2 ^ w * value xs) * f + c := by
  rw [hlength, Nat.mul_succ, Nat.pow_add]
  calc
    _ = y + 2 ^ w * (value ys + 2 ^ (w * xs.length) * carry) := by ring
    _ = y + 2 ^ w * high + 2 ^ w * (value xs * f) := by
      rw [hrest]
      ring
    _ = _ := by
      rw [hstep]
      ring

theorem product_carry_lt {x f c n : ℕ} (hx : x < n) (hf : f < n) (hc : c < n) :
    x * f + c < n * n := by
  have hmul := Nat.mul_le_mul_left x hf.le
  have hsucc := Nat.mul_le_mul_right n (Nat.succ_le_of_lt hx)
  rw [Nat.succ_mul] at hsucc
  omega

theorem add_limb_toNat {low high c : BitVec w}
    (hroom : high.toNat * 2 ^ w + low.toNat + c.toNat < 2 ^ w * 2 ^ w) :
    (low + c).toNat +
        2 ^ w * (high + BitVec.ofNat w (decide (2 ^ w ≤ low.toNat + c.toNat)).toNat).toNat =
      high.toNat * 2 ^ w + low.toNat + c.toNat := by
  have hlow := low.isLt
  have hhigh := high.isLt
  have hc := c.isLt
  rw [BitVec.toNat_add, BitVec.toNat_add, BitVec.toNat_ofNat]
  by_cases h : 2 ^ w ≤ low.toNat + c.toNat
  · have hlt : high.toNat + 1 < 2 ^ w := by
      refine Nat.lt_of_mul_lt_mul_right (a := 2 ^ w) ?_
      rw [Nat.succ_mul]
      omega
    rw [decide_eq_true h, Bool.toNat_true, Nat.mod_eq_sub_mod h, Nat.mod_eq_of_lt (by omega),
      Nat.mod_eq_of_lt (a := 1) (by omega), Nat.mod_eq_of_lt hlt, Nat.mul_succ, Nat.mul_comm]
    omega
  · rw [decide_eq_false h, Bool.toNat_false, Nat.mod_eq_of_lt (by omega), Nat.zero_mod,
      Nat.add_zero, Nat.mod_eq_of_lt hhigh, Nat.mul_comm]
    omega

end Value

section Sums

variable {w : ℕ}

def sumStep (c : Bool) (l : BitVec w × BitVec w) : BitVec w × Bool :=
  (l.1 + l.2 + BitVec.ofNat w c.toNat, decide (2 ^ w ≤ l.1.toNat + l.2.toNat + c.toNat))

def differenceStep (c : Bool) (l : BitVec w × BitVec w) : BitVec w × Bool :=
  (l.1 - l.2 - BitVec.ofNat w c.toNat, decide (l.1.toNat < l.2.toNat + c.toNat))

theorem sumStep_toNat (hw : 0 < w) (c : Bool) (x y : BitVec w) :
    (sumStep c (x, y)).1.toNat + 2 ^ w * (sumStep c (x, y)).2.toNat =
      x.toNat + y.toNat + c.toNat := by
  have hx := x.isLt
  have hy := y.isLt
  have hone : 1 < 2 ^ w := Nat.one_lt_two_pow (by omega)
  have hle : c.toNat ≤ 1 := Bool.toNat_le c
  have hc : c.toNat % 2 ^ w = c.toNat := Nat.mod_eq_of_lt (by omega)
  simp only [sumStep, BitVec.toNat_add, BitVec.toNat_ofNat, hc]
  by_cases h : 2 ^ w ≤ x.toNat + y.toNat + c.toNat
  · rw [decide_eq_true h, Bool.toNat_true, Nat.mul_one, Nat.mod_add_mod,
      Nat.mod_eq_sub_mod h, Nat.mod_eq_of_lt (by omega)]
    omega
  · rw [decide_eq_false h, Bool.toNat_false, Nat.mul_zero, Nat.mod_add_mod,
      Nat.mod_eq_of_lt (by omega)]
    rfl

theorem differenceStep_toNat (hw : 0 < w) (c : Bool) (x y : BitVec w) :
    (differenceStep c (x, y)).1.toNat + y.toNat + c.toNat =
      x.toNat + 2 ^ w * (differenceStep c (x, y)).2.toNat := by
  have hx := x.isLt
  have hy := y.isLt
  have hone : 1 < 2 ^ w := Nat.one_lt_two_pow (by omega)
  have hle : c.toNat ≤ 1 := Bool.toNat_le c
  have hc : c.toNat % 2 ^ w = c.toNat := Nat.mod_eq_of_lt (by omega)
  simp only [differenceStep, BitVec.toNat_sub, BitVec.toNat_ofNat, hc, Nat.add_mod_mod]
  by_cases h : x.toNat < y.toNat + c.toNat
  · have hsum : 2 ^ w - c.toNat + (2 ^ w - y.toNat + x.toNat) =
        x.toNat + 2 ^ w - y.toNat - c.toNat + 2 ^ w := by omega
    rw [decide_eq_true h, Bool.toNat_true, Nat.mul_one, hsum, Nat.add_mod_right,
      Nat.mod_eq_of_lt (by omega)]
    omega
  · have hsum : 2 ^ w - c.toNat + (2 ^ w - y.toNat + x.toNat) =
        x.toNat - y.toNat - c.toNat + 2 ^ w + 2 ^ w := by omega
    rw [decide_eq_false h, Bool.toNat_false, Nat.mul_zero, hsum, Nat.add_mod_right,
      Nat.add_mod_right, Nat.mod_eq_of_lt (by omega)]
    omega

theorem value_sum (hw : 0 < w) (c : Bool) (ls : List (BitVec w × BitVec w)) :
    value (ripple sumStep c ls).1 + 2 ^ (w * ls.length) * (ripple sumStep c ls).2.toNat =
      value (ls.map Prod.fst) + value (ls.map Prod.snd) + c.toNat := by
  induction ls generalizing c with
  | nil => simp
  | cons l ls ih =>
    obtain ⟨x, y⟩ := l
    have hstep := sumStep_toNat hw c x y
    have hrest := ih (sumStep c (x, y)).2
    simp only [ripple, value_cons, List.map_cons, List.length_cons, Nat.mul_succ, Nat.pow_add]
    calc
      _ = (sumStep c (x, y)).1.toNat +
          2 ^ w * (value (ripple sumStep (sumStep c (x, y)).2 ls).1 +
            2 ^ (w * ls.length) * (ripple sumStep (sumStep c (x, y)).2 ls).2.toNat) := by ring
      _ = (sumStep c (x, y)).1.toNat + 2 ^ w * (sumStep c (x, y)).2.toNat +
          2 ^ w * (value (ls.map Prod.fst) + value (ls.map Prod.snd)) := by
        rw [hrest]
        ring
      _ = _ := by
        rw [hstep]
        ring

theorem value_difference (hw : 0 < w) (c : Bool) (ls : List (BitVec w × BitVec w)) :
    value (ripple differenceStep c ls).1 + value (ls.map Prod.snd) + c.toNat =
      value (ls.map Prod.fst) +
        2 ^ (w * ls.length) * (ripple differenceStep c ls).2.toNat := by
  induction ls generalizing c with
  | nil => simp
  | cons l ls ih =>
    obtain ⟨x, y⟩ := l
    have hstep := differenceStep_toNat hw c x y
    have hrest := ih (differenceStep c (x, y)).2
    simp only [ripple, value_cons, List.map_cons, List.length_cons, Nat.mul_succ, Nat.pow_add]
    calc
      _ = (differenceStep c (x, y)).1.toNat + y.toNat + c.toNat +
          2 ^ w * (value (ripple differenceStep (differenceStep c (x, y)).2 ls).1 +
            value (ls.map Prod.snd)) := by ring
      _ = x.toNat + 2 ^ w * (value (ripple differenceStep (differenceStep c (x, y)).2 ls).1 +
            value (ls.map Prod.snd) + (differenceStep c (x, y)).2.toNat) := by
        rw [hstep]
        ring
      _ = _ := by
        rw [hrest]
        ring

def first (ls : List (BitVec w × BitVec w)) : ℕ := value (ls.map Prod.fst)

def second (ls : List (BitVec w × BitVec w)) : ℕ := value (ls.map Prod.snd)

theorem first_lt (ls : List (BitVec w × BitVec w)) : first ls < 2 ^ (w * ls.length) := by
  have h := value_lt (ls.map Prod.fst)
  rwa [List.length_map] at h

theorem second_lt (ls : List (BitVec w × BitVec w)) : second ls < 2 ^ (w * ls.length) := by
  have h := value_lt (ls.map Prod.snd)
  rwa [List.length_map] at h

theorem value_ripple_lt (step : Bool → BitVec w × BitVec w → BitVec w × Bool) (c : Bool)
    (ls : List (BitVec w × BitVec w)) :
    value (ripple step c ls).1 < 2 ^ (w * ls.length) := by
  have h := value_lt (ripple step c ls).1
  rwa [ripple_length] at h

theorem sum_carry (hw : 0 < w) (ls : List (BitVec w × BitVec w)) :
    (ripple sumStep false ls).2 = decide (2 ^ (w * ls.length) ≤ first ls + second ls) := by
  have hlt := value_ripple_lt sumStep false ls
  have hsum := value_sum hw false ls
  rw [Bool.toNat_false, Nat.add_zero] at hsum
  change _ = first ls + second ls at hsum
  cases hc : (ripple sumStep false ls).2 with
  | false =>
    rw [hc, Bool.toNat_false, Nat.mul_zero, Nat.add_zero] at hsum
    exact (decide_eq_false (by omega)).symm
  | true =>
    rw [hc, Bool.toNat_true, Nat.mul_one] at hsum
    exact (decide_eq_true (by omega)).symm

theorem sum_value (hw : 0 < w) (ls : List (BitVec w × BitVec w)) :
    value (ripple sumStep false ls).1 = (first ls + second ls) % 2 ^ (w * ls.length) := by
  have hsum := value_sum hw false ls
  rw [Bool.toNat_false, Nat.add_zero] at hsum
  change _ = first ls + second ls at hsum
  rw [← hsum, Nat.add_mul_mod_self_left, Nat.mod_eq_of_lt (value_ripple_lt sumStep false ls)]

theorem difference_borrow (hw : 0 < w) (ls : List (BitVec w × BitVec w)) :
    (ripple differenceStep false ls).2 = decide (first ls < second ls) := by
  have hlt := value_ripple_lt differenceStep false ls
  have hsecond := second_lt ls
  have hfirst := first_lt ls
  have hdifference := value_difference hw false ls
  rw [Bool.toNat_false, Nat.add_zero] at hdifference
  change _ + second ls = first ls + _ at hdifference
  cases hc : (ripple differenceStep false ls).2 with
  | false =>
    rw [hc, Bool.toNat_false, Nat.mul_zero, Nat.add_zero] at hdifference
    exact (decide_eq_false (by omega)).symm
  | true =>
    rw [hc, Bool.toNat_true, Nat.mul_one] at hdifference
    exact (decide_eq_true (by omega)).symm

theorem difference_value (hw : 0 < w) (ls : List (BitVec w × BitVec w)) :
    (value (ripple differenceStep false ls).1 : ℤ) =
      ((first ls : ℤ) - second ls) % 2 ^ (w * ls.length) := by
  have hlt := value_ripple_lt differenceStep false ls
  have hdifference := value_difference hw false ls
  rw [Bool.toNat_false, Nat.add_zero] at hdifference
  change _ + second ls = first ls + _ at hdifference
  have hcast : (first ls : ℤ) - second ls = value (ripple differenceStep false ls).1 +
      2 ^ (w * ls.length) * -(ripple differenceStep false ls).2.toNat := by
    have h := congrArg (Nat.cast (R := ℤ)) hdifference
    push_cast at h
    linarith
  have hlt' : (value (ripple differenceStep false ls).1 : ℤ) < 2 ^ (w * ls.length) := by
    exact_mod_cast hlt
  rw [hcast, Int.add_mul_emod_self_left, Int.emod_eq_of_lt (by positivity) hlt']

end Sums

section Early

variable {w : ℕ}

/-- A place where the carry is taken into the first limb before the other one, so that the
carry out of this is lost. -/
def earlySumStep (c : Bool) (l : BitVec w × BitVec w) : BitVec w × Bool :=
  let x := l.1 + BitVec.ofNat w c.toNat
  (x + l.2, decide (2 ^ w ≤ x.toNat + l.2.toNat))

def earlyDifferenceStep (c : Bool) (l : BitVec w × BitVec w) : BitVec w × Bool :=
  let x := l.1 - BitVec.ofNat w c.toNat
  (x - l.2, decide (x.toNat < l.2.toNat))

theorem ofNat_one_toNat (hw : 0 < w) : (BitVec.ofNat w 1).toNat = 1 :=
  Nat.mod_eq_of_lt (Nat.one_lt_two_pow (by omega))

theorem ofNat_carry_injective (hw : 0 < w) {c c' : Bool}
    (h : BitVec.ofNat w c.toNat = BitVec.ofNat w c'.toNat) : c = c' := by
  have hone := ofNat_one_toNat hw
  have hzero : (BitVec.ofNat w 0).toNat = 0 := Nat.zero_mod _
  have hnat := congrArg BitVec.toNat h
  cases c with
  | false =>
    cases c' with
    | false => rfl
    | true =>
      rw [Bool.toNat_false, Bool.toNat_true, hzero, hone] at hnat
      cases hnat
  | true =>
    cases c' with
    | false =>
      rw [Bool.toNat_false, Bool.toNat_true, hzero, hone] at hnat
      cases hnat
    | true => rfl

theorem toNat_allOnes_iff (x : BitVec w) : x = BitVec.allOnes w ↔ x.toNat + 1 = 2 ^ w := by
  have hpos := Nat.two_pow_pos w
  constructor
  · rintro rfl
    rw [BitVec.toNat_allOnes]
    omega
  · intro h
    apply BitVec.eq_of_toNat_eq
    rw [BitVec.toNat_allOnes]
    omega

theorem earlySumStep_eq (hw : 0 < w) (c : Bool) (x y : BitVec w)
    (h : ¬(c = true ∧ x = BitVec.allOnes w)) : earlySumStep c (x, y) = sumStep c (x, y) := by
  have hx := x.isLt
  simp only [earlySumStep, sumStep, Prod.mk.injEq]
  rw [add_right_comm x]
  refine ⟨rfl, decide_eq_decide.mpr ?_⟩
  cases c with
  | false => rw [Bool.toNat_false, BitVec.add_zero, Nat.add_zero]
  | true =>
    rw [toNat_allOnes_iff] at h
    have hne : x.toNat + 1 ≠ 2 ^ w := fun heq ↦ h ⟨rfl, heq⟩
    rw [Bool.toNat_true, BitVec.toNat_add, ofNat_one_toNat hw, Nat.mod_eq_of_lt (by omega),
      Nat.add_right_comm]

theorem earlySumStep_parts (hw : 0 < w) (y : BitVec w) :
    (earlySumStep true (BitVec.allOnes w, y)).2 ≠ (sumStep true (BitVec.allOnes w, y)).2 := by
  have hy := y.isLt
  have hall := (toNat_allOnes_iff (BitVec.allOnes w)).mp rfl
  have hwrap : (BitVec.allOnes w + BitVec.ofNat w 1).toNat = 0 := by
    rw [BitVec.toNat_add, ofNat_one_toNat hw, hall, Nat.mod_self]
  simp only [earlySumStep, sumStep, Bool.toNat_true, hwrap, ne_eq, decide_eq_decide]
  omega

theorem earlySumStep_shows (hw : 0 < w) (c c' : Bool) (x y : BitVec w) (h : c' ≠ c) :
    (earlySumStep c' (x, y)).1 ≠ (sumStep c (x, y)).1 := by
  intro heq
  have hsum : x + y + BitVec.ofNat w c'.toNat = x + y + BitVec.ofNat w c.toNat :=
    (add_right_comm x y _).trans heq
  exact h (ofNat_carry_injective hw ((BitVec.add_right_inj _).mp hsum))

theorem earlyDifferenceStep_eq (hw : 0 < w) (c : Bool) (x y : BitVec w)
    (h : ¬(c = true ∧ x = 0#w)) : earlyDifferenceStep c (x, y) = differenceStep c (x, y) := by
  have hx := x.isLt
  simp only [earlyDifferenceStep, differenceStep, Prod.mk.injEq]
  rw [sub_right_comm x]
  refine ⟨rfl, decide_eq_decide.mpr ?_⟩
  cases c with
  | false => rw [Bool.toNat_false, BitVec.sub_zero, Nat.add_zero]
  | true =>
    have hpos : x.toNat ≠ 0 := fun hzero ↦ h ⟨rfl, BitVec.eq_of_toNat_eq hzero⟩
    have hle : BitVec.ofNat w 1 ≤ x := by
      rw [BitVec.le_def, ofNat_one_toNat hw]
      omega
    rw [Bool.toNat_true, BitVec.toNat_sub_of_le hle, ofNat_one_toNat hw]
    omega

theorem earlyDifferenceStep_parts (hw : 0 < w) (y : BitVec w) :
    (earlyDifferenceStep true (0#w, y)).2 ≠ (differenceStep true (0#w, y)).2 := by
  have hy := y.isLt
  have hone : 1 < 2 ^ w := Nat.one_lt_two_pow (by omega)
  have hzero : (0#w).toNat = 0 := Nat.zero_mod _
  have hwrap : (0#w - BitVec.ofNat w 1).toNat + 1 = 2 ^ w := by
    rw [BitVec.toNat_sub, ofNat_one_toNat hw, hzero, Nat.add_zero, Nat.mod_eq_of_lt (by omega)]
    omega
  simp only [earlyDifferenceStep, differenceStep, Bool.toNat_true, hzero, ne_eq,
    decide_eq_decide]
  omega

theorem earlyDifferenceStep_shows (hw : 0 < w) (c c' : Bool) (x y : BitVec w) (h : c' ≠ c) :
    (earlyDifferenceStep c' (x, y)).1 ≠ (differenceStep c (x, y)).1 := by
  intro heq
  have hdifference : x - y - BitVec.ofNat w c'.toNat = x - y - BitVec.ofNat w c.toNat :=
    (sub_right_comm x y _).trans heq
  exact h (ofNat_carry_injective hw ((BitVec.sub_right_inj _).mp hdifference))

theorem carry_into (hw : 0 < w) {ls : List (BitVec w × BitVec w)} {i : ℕ}
    {l : BitVec w × BitVec w} (hl : ls[i]? = some l) :
    (ripple sumStep false (ls.take i)).2 =
      decide (2 ^ (w * i) ≤ first (ls.take i) + second (ls.take i)) := by
  obtain ⟨hi, -⟩ := List.getElem?_eq_some_iff.mp hl
  rw [sum_carry hw, List.length_take_of_le (by omega)]

/-- The sum is right unless a carry goes into a limb of the first number that is all ones. -/
theorem earlySum_eq_iff (hw : 0 < w) (ls : List (BitVec w × BitVec w)) :
    ripple earlySumStep false ls = ripple sumStep false ls ↔
      ∀ i l, ls[i]? = some l → l.1 = BitVec.allOnes w →
        first (ls.take i) + second (ls.take i) < 2 ^ (w * i) := by
  have hsame : ∀ c (l : BitVec w × BitVec w), ¬(c = true ∧ l.1 = BitVec.allOnes w) →
      earlySumStep c l = sumStep c l := by
    rintro c ⟨x, y⟩ h
    exact earlySumStep_eq hw c x y h
  have hparts : ∀ c (l : BitVec w × BitVec w), c = true ∧ l.1 = BitVec.allOnes w →
      (earlySumStep c l).2 ≠ (sumStep c l).2 := by
    rintro c ⟨x, y⟩ ⟨rfl, rfl⟩
    exact earlySumStep_parts hw y
  have hshows : ∀ c c' (l : BitVec w × BitVec w), c' ≠ c →
      (earlySumStep c' l).1 ≠ (sumStep c l).1 := by
    rintro c c' ⟨x, y⟩ h
    exact earlySumStep_shows hw c c' x y h
  rw [ripple_eq_iff hsame hparts hshows]
  refine forall_congr' fun i ↦ forall_congr' fun l ↦ forall_congr' fun hl ↦ ?_
  rw [carry_into hw hl, decide_eq_true_eq, not_and', Nat.not_le]

/-- The difference is right unless a borrow goes into a limb of the first number that is zero. -/
theorem earlyDifference_eq_iff (hw : 0 < w) (ls : List (BitVec w × BitVec w)) :
    ripple earlyDifferenceStep false ls = ripple differenceStep false ls ↔
      ∀ i l, ls[i]? = some l → l.1 = 0#w →
        second (ls.take i) ≤ first (ls.take i) := by
  have hsame : ∀ c (l : BitVec w × BitVec w), ¬(c = true ∧ l.1 = 0#w) →
      earlyDifferenceStep c l = differenceStep c l := by
    rintro c ⟨x, y⟩ h
    exact earlyDifferenceStep_eq hw c x y h
  have hparts : ∀ c (l : BitVec w × BitVec w), c = true ∧ l.1 = 0#w →
      (earlyDifferenceStep c l).2 ≠ (differenceStep c l).2 := by
    rintro c ⟨x, y⟩ ⟨rfl, rfl⟩
    exact earlyDifferenceStep_parts hw y
  have hshows : ∀ c c' (l : BitVec w × BitVec w), c' ≠ c →
      (earlyDifferenceStep c' l).1 ≠ (differenceStep c l).1 := by
    rintro c c' ⟨x, y⟩ h
    exact earlyDifferenceStep_shows hw c c' x y h
  rw [ripple_eq_iff hsame hparts hshows]
  refine forall_congr' fun i ↦ forall_congr' fun l ↦ forall_congr' fun _ ↦ ?_
  rw [difference_borrow hw, decide_eq_true_eq, not_and', Nat.not_lt]

theorem ripple_eq_iff_value {step step' : Bool → BitVec w × BitVec w → BitVec w × Bool} (c : Bool)
    (ls : List (BitVec w × BitVec w)) :
    ripple step' c ls = ripple step c ls ↔
      value (ripple step' c ls).1 = value (ripple step c ls).1 ∧
        (ripple step' c ls).2 = (ripple step c ls).2 := by
  constructor
  · intro h
    rw [h]
    exact ⟨rfl, rfl⟩
  · rintro ⟨hvalue, hcarry⟩
    refine Prod.ext (value_injective ?_ hvalue) hcarry
    rw [ripple_length, ripple_length]

theorem earlySum_exact_iff (hw : 0 < w) (ls : List (BitVec w × BitVec w)) :
    (value (ripple earlySumStep false ls).1 = (first ls + second ls) % 2 ^ (w * ls.length) ∧
        (ripple earlySumStep false ls).2 =
          decide (2 ^ (w * ls.length) ≤ first ls + second ls)) ↔
      ∀ i l, ls[i]? = some l → l.1 = BitVec.allOnes w →
        first (ls.take i) + second (ls.take i) < 2 ^ (w * i) := by
  rw [← earlySum_eq_iff hw, ripple_eq_iff_value, sum_value hw, sum_carry hw]

theorem earlyDifference_exact_iff (hw : 0 < w) (ls : List (BitVec w × BitVec w)) :
    ((value (ripple earlyDifferenceStep false ls).1 : ℤ) =
          ((first ls : ℤ) - second ls) % 2 ^ (w * ls.length) ∧
        (ripple earlyDifferenceStep false ls).2 = decide (first ls < second ls)) ↔
      ∀ i l, ls[i]? = some l → l.1 = 0#w → second (ls.take i) ≤ first (ls.take i) := by
  rw [← earlyDifference_eq_iff hw, ripple_eq_iff_value, ← difference_value hw,
    difference_borrow hw, Nat.cast_inj]

end Early

end Qx86.Foundation.Limbs
