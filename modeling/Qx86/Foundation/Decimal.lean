import Qx86.Foundation.Limbs

namespace Qx86.Foundation.Decimal

open Limbs

/-- A byte with a decimal digit in each of its nibbles. -/
@[ext] structure Packed where
  byte : BitVec 8
  low : byte.toNat % 16 ≤ 9
  high : byte.toNat / 16 ≤ 9

namespace Packed

def value (x : Packed) : ℕ := x.byte.toNat / 16 * 10 + x.byte.toNat % 16

theorem digits_toNat (k : ℕ) :
    (BitVec.ofNat 8 (k % 100 / 10 * 16 + k % 10)).toNat = k % 100 / 10 * 16 + k % 10 := by
  have hhigh : k % 100 / 10 ≤ 9 := by omega
  rw [BitVec.toNat_ofNat]
  exact Nat.mod_eq_of_lt (by omega)

def ofNat (k : ℕ) : Packed where
  byte := BitVec.ofNat 8 (k % 100 / 10 * 16 + k % 10)
  low := by
    rw [digits_toNat]
    omega
  high := by
    rw [digits_toNat]
    omega

theorem byte_ofNat (k : ℕ) : (ofNat k).byte.toNat = k % 100 / 10 * 16 + k % 10 := digits_toNat k

theorem value_ofNat (k : ℕ) : (ofNat k).value = k % 100 := by
  rw [value, byte_ofNat]
  omega

theorem value_lt (x : Packed) : x.value < 100 := by
  have hlow := x.low
  have hhigh := x.high
  rw [value]
  omega

end Packed

def decimal (xs : List Packed) : ℕ := Nat.ofDigits 100 (xs.map Packed.value)

@[simp] theorem decimal_nil : decimal [] = 0 := rfl

@[simp] theorem decimal_cons (x : Packed) (xs : List Packed) :
    decimal (x :: xs) = x.value + 100 * decimal xs := Nat.ofDigits_cons ..

theorem decimal_lt (xs : List Packed) : decimal xs < 100 ^ xs.length := by
  induction xs with
  | nil => exact Nat.one_pos
  | cons x xs ih =>
    have hx := x.value_lt
    rw [decimal_cons, List.length_cons, Nat.pow_succ]
    omega

def digitStep (c : Bool) (l : Packed × Packed) : Packed × Bool :=
  (.ofNat (l.1.value + l.2.value + c.toNat), decide (100 ≤ l.1.value + l.2.value + c.toNat))

theorem digitStep_value (c : Bool) (l : Packed × Packed) :
    (digitStep c l).1.value + 100 * (digitStep c l).2.toNat =
      l.1.value + l.2.value + c.toNat := by
  have hx := l.1.value_lt
  have hy := l.2.value_lt
  have hc := Bool.toNat_le c
  rw [digitStep, Packed.value_ofNat]
  by_cases h : 100 ≤ l.1.value + l.2.value + c.toNat
  · rw [decide_eq_true h, Bool.toNat_true]
    omega
  · rw [decide_eq_false h, Bool.toNat_false]
    omega

/-- Packed digits added place by place, with a carry, are added as numbers. -/
theorem decimal_sum (c : Bool) (ls : List (Packed × Packed)) :
    decimal (ripple digitStep c ls).1 + 100 ^ ls.length * (ripple digitStep c ls).2.toNat =
      decimal (ls.map Prod.fst) + decimal (ls.map Prod.snd) + c.toNat := by
  induction ls generalizing c with
  | nil => simp
  | cons l ls ih =>
    have hstep := digitStep_value c l
    have hrest := ih (digitStep c l).2
    simp only [ripple, decimal_cons, List.map_cons, List.length_cons, Nat.pow_succ]
    calc
      _ = (digitStep c l).1.value + 100 * (decimal (ripple digitStep (digitStep c l).2 ls).1 +
            100 ^ ls.length * (ripple digitStep (digitStep c l).2 ls).2.toNat) := by ring
      _ = (digitStep c l).1.value + 100 * (digitStep c l).2.toNat +
          100 * (decimal (ls.map Prod.fst) + decimal (ls.map Prod.snd)) := by
        rw [hrest]
        ring
      _ = _ := by
        rw [hstep]
        ring

section Exact

variable (ls : List (Packed × Packed))

theorem ripple_decimal_lt (c : Bool) :
    decimal (ripple digitStep c ls).1 < 100 ^ ls.length := by
  have h := decimal_lt (ripple digitStep c ls).1
  rwa [ripple_length] at h

theorem decimal_ripple :
    decimal (ripple digitStep false ls).1 =
      (decimal (ls.map Prod.fst) + decimal (ls.map Prod.snd)) % 100 ^ ls.length ∧
    (ripple digitStep false ls).2 =
      decide (100 ^ ls.length ≤ decimal (ls.map Prod.fst) + decimal (ls.map Prod.snd)) := by
  have hlt := ripple_decimal_lt ls false
  have hsum := decimal_sum false ls
  rw [Bool.toNat_false, Nat.add_zero] at hsum
  cases hc : (ripple digitStep false ls).2 with
  | false =>
    rw [hc, Bool.toNat_false, Nat.mul_zero, Nat.add_zero] at hsum
    rw [← hsum, Nat.mod_eq_of_lt hlt]
    exact ⟨rfl, (decide_eq_false (by omega)).symm⟩
  | true =>
    rw [hc, Bool.toNat_true, Nat.mul_one] at hsum
    rw [← hsum, Nat.add_mod_right, Nat.mod_eq_of_lt hlt]
    exact ⟨rfl, (decide_eq_true (by omega)).symm⟩

end Exact

section Adjustment

/-- The adjustment of a byte after an addition, by the carries out of its nibbles. -/
def adjusted (a : BitVec 8) (half carry : Bool) : BitVec 8 × Bool :=
  let low := if 9 < a &&& 0x0F ∨ half then a + 6 else a
  if 0x99 < a ∨ carry then (low + 0x60, true) else (low, false)

theorem low_iff {X Y c A : ℕ} (hX : X % 16 ≤ 9) (hY : Y % 16 ≤ 9) (hc : c ≤ 1)
    (hA : A = (X + c + Y) % 256) :
    9 < A % 16 ∨ 16 ≤ (X + c) % 16 + Y % 16 ↔ 10 ≤ X % 16 + Y % 16 + c := by
  omega

theorem high_iff {X Y c A : ℕ} (hX : X % 16 ≤ 9) (hY : Y % 16 ≤ 9) (hc : c ≤ 1)
    (hA : A = (X + c + Y) % 256) :
    153 < A ∨ 256 ≤ X + c + Y ↔
      100 ≤ X / 16 * 10 + X % 16 + (Y / 16 * 10 + Y % 16) + c := by
  omega

theorem adjustments {u v : ℕ} (hu : u ≤ 19) (hv : v ≤ 18) :
    ((16 * v + u) % 256 + (if 10 ≤ u then 6 else 0) + (if 100 ≤ 10 * v + u then 96 else 0)) % 256 =
      (10 * v + u) % 100 / 10 * 16 + (10 * v + u) % 10 := by
  have hunits : (10 * v + u) % 10 = u % 10 := by omega
  have htens : (10 * v + u) % 100 / 10 = (v + u / 10) % 10 := by omega
  have hcarry : 100 ≤ 10 * v + u ↔ 10 ≤ v + u / 10 := by omega
  obtain ⟨t, ht⟩ : ∃ t, t = v + u / 10 := ⟨_, rfl⟩
  obtain ⟨r, hr⟩ : ∃ r, r = u % 10 := ⟨_, rfl⟩
  have hr' : r ≤ 9 := by omega
  have hbinary : (16 * v + u) % 256 + (if 10 ≤ u then 6 else 0) = (16 * t + r) % 256 ∨
      (16 * v + u) % 256 + (if 10 ≤ u then 6 else 0) = (16 * t + r) % 256 + 256 := by
    split
    · omega
    · omega
  rw [← ht] at hcarry htens
  rw [hunits, htens, ← hr]
  have ht' : t ≤ 19 := by omega
  by_cases h : 100 ≤ 10 * v + u
  · have hmod : t % 10 = t - 10 := by omega
    rw [if_pos h, hmod]
    omega
  · have hmod : t % 10 = t := by omega
    rw [if_neg h, hmod]
    omega

/-- After the binary sum of packed digits and a carry, it leaves the decimal one. -/
theorem adjusted_sum (c : Bool) (x y : Packed) :
    adjusted (x.byte + BitVec.ofNat 8 c.toNat + y.byte)
        (decide (16 ≤ (x.byte + BitVec.ofNat 8 c.toNat).toNat % 16 + y.byte.toNat % 16))
        (decide (2 ^ 8 ≤ (x.byte + BitVec.ofNat 8 c.toNat).toNat + y.byte.toNat)) =
      ((digitStep c (x, y)).1.byte, (digitStep c (x, y)).2) := by
  have hc := Bool.toNat_le c
  have hlow := x.low
  have hhigh := x.high
  have hfirst : (x.byte + BitVec.ofNat 8 c.toNat).toNat = x.byte.toNat + c.toNat := by
    rw [BitVec.toNat_add, BitVec.toNat_ofNat]
    omega
  obtain ⟨a, ha⟩ : ∃ a, a = x.byte + BitVec.ofNat 8 c.toNat + y.byte := ⟨_, rfl⟩
  have hA : a.toNat = (x.byte.toNat + c.toNat + y.byte.toNat) % 256 := by
    rw [ha, BitVec.toNat_add, hfirst]
  have hnibble : (9 < a &&& 0x0F) ↔ 9 < a.toNat % 16 := by
    rw [BitVec.lt_def, BitVec.toNat_and]
    change 9 < a.toNat &&& (2 ^ 4 - 1) ↔ _
    rw [Nat.and_two_pow_sub_one_eq_mod]
  have hadjust := low_iff hlow y.low hc hA
  have hcarry : 0x99 < a ∨ 2 ^ 8 ≤ x.byte.toNat + c.toNat + y.byte.toNat ↔
      100 ≤ x.value + y.value + c.toNat := high_iff hlow y.low hc hA
  have hlow' := y.low
  have hhigh' := y.high
  have hdigits := adjustments (u := x.byte.toNat % 16 + y.byte.toNat % 16 + c.toNat)
    (v := x.byte.toNat / 16 + y.byte.toNat / 16) (by omega) (by omega)
  have hbinary : 16 * (x.byte.toNat / 16 + y.byte.toNat / 16) +
      (x.byte.toNat % 16 + y.byte.toNat % 16 + c.toNat) =
        x.byte.toNat + c.toNat + y.byte.toNat := by omega
  have hdecimal : 10 * (x.byte.toNat / 16 + y.byte.toNat / 16) +
      (x.byte.toNat % 16 + y.byte.toNat % 16 + c.toNat) = x.value + y.value + c.toNat := by
    rw [Packed.value, Packed.value]
    omega
  rw [hbinary, hdecimal, ← hA] at hdigits
  rw [hfirst, ← ha, adjusted, digitStep]
  simp only [hnibble, decide_eq_true_iff, hadjust, hcarry]
  obtain ⟨b, hb⟩ : ∃ b, b = if 10 ≤ x.byte.toNat % 16 + y.byte.toNat % 16 + c.toNat then a + 6
    else a := ⟨_, rfl⟩
  have hB : b.toNat = (a.toNat + if 10 ≤ x.byte.toNat % 16 + y.byte.toNat % 16 + c.toNat then 6
      else 0) % 256 := by
    rw [hb]
    split
    · exact BitVec.toNat_add a 6
    · exact (Nat.mod_eq_of_lt a.isLt).symm
  rw [← Packed.byte_ofNat] at hdigits
  rw [← hb]
  by_cases h : 100 ≤ x.value + y.value + c.toNat
  · rw [if_pos h] at hdigits ⊢
    refine Prod.ext (BitVec.eq_of_toNat_eq ?_) (decide_eq_true h).symm
    rw [← hdigits, BitVec.toNat_add, hB]
    exact Nat.mod_add_mod ..
  · rw [if_neg h] at hdigits ⊢
    refine Prod.ext (BitVec.eq_of_toNat_eq ?_) (decide_eq_false h).symm
    rw [← hdigits, hB]
    rfl

end Adjustment

end Qx86.Foundation.Decimal
