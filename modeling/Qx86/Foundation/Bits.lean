import Mathlib.Data.BitVec
import Mathlib.Order.Bounds.Basic

namespace Qx86.Foundation.Bits

variable {n : ℕ}

def withBit (x : BitVec n) (i : ℕ) (b : Bool) : BitVec n :=
  if b then x ||| BitVec.twoPow n i else x &&& ~~~BitVec.twoPow n i

def ones (x : BitVec n) : Set ℕ := {i | x.getLsbD i = true}

theorem not_mem_ones_zero {i : ℕ} : i ∉ ones (0 : BitVec n) := by
  intro h
  cases BitVec.getLsbD_zero.symm.trans h

section Put

variable (x : BitVec n) {i : ℕ} (b : Bool)

theorem getLsbD_withBit (hi : i < n) (j : ℕ) :
    (withBit x i b).getLsbD j = if j = i then b else x.getLsbD j := by
  cases b with
  | true =>
    rw [withBit, if_pos rfl, BitVec.getLsbD_or, BitVec.getLsbD_twoPow]
    by_cases h : j = i
    · simp [h, hi]
    · simp [h, Ne.symm h]
  | false =>
    rw [withBit, if_neg (by decide), BitVec.getLsbD_and, BitVec.getLsbD_not,
      BitVec.getLsbD_twoPow]
    by_cases h : j = i
    · simp [h, hi]
    · have hlt : x.getLsbD j = true → j < n := BitVec.lt_of_getLsbD
      cases hx : x.getLsbD j with
      | true => simp [hlt hx, h, Ne.symm h]
      | false => simp [h]

theorem withBit_withBit (hi : i < n) (b' : Bool) :
    withBit (withBit x i b) i b' = withBit x i b' := by
  apply BitVec.eq_of_getLsbD_eq
  intro j _
  rw [getLsbD_withBit _ _ hi, getLsbD_withBit _ _ hi, getLsbD_withBit _ _ hi]
  by_cases h : j = i
  · rw [if_pos h, if_pos h]
  · rw [if_neg h, if_neg h, if_neg h]

theorem withBit_self (hi : i < n) : withBit x i (x.getLsbD i) = x := by
  apply BitVec.eq_of_getLsbD_eq
  intro j _
  rw [getLsbD_withBit _ _ hi]
  by_cases h : j = i
  · rw [if_pos h, h]
  · rw [if_neg h]

theorem withBit_mod_eq_iff (hi : i < n) (m : ℕ) :
    (withBit x i !x.getLsbD i).toNat % 2 ^ m = x.toNat % 2 ^ m ↔ m ≤ i := by
  have hbit : ∀ j, (withBit x i !x.getLsbD i).toNat.testBit j =
      if j = i then !x.getLsbD i else x.toNat.testBit j := getLsbD_withBit x (!x.getLsbD i) hi
  constructor
  · intro h
    by_contra hlt
    have hat := congrArg (Nat.testBit · i) h
    simp only [Nat.testBit_mod_two_pow, hbit, if_pos, decide_eq_true (Nat.lt_of_not_le hlt),
      Bool.true_and] at hat
    exact Bool.not_ne_self _ hat
  · intro hle
    apply Nat.eq_of_testBit_eq
    intro j
    rw [Nat.testBit_mod_two_pow, Nat.testBit_mod_two_pow, hbit]
    by_cases hj : j < m
    · rw [if_neg (by omega)]
    · rw [decide_eq_false hj, Bool.false_and, Bool.false_and]

end Put

section Scan

variable {x : BitVec n} {p : ℕ → Bool}

theorem find_none_iff (place : ℕ → ℕ) (hp : ∀ i < n, p i = x.getLsbD (place i))
    (hplace : ∀ j < n, place j < n ∧ place (place j) = j) :
    (List.range n).find? p = none ↔ x = 0 := by
  rw [List.find?_eq_none]
  constructor
  · intro h
    apply BitVec.eq_of_getLsbD_eq
    intro i hi
    obtain ⟨hlt, hback⟩ := hplace i hi
    have hne := h (place i) (List.mem_range.mpr hlt)
    rw [hp _ hlt, hback, Bool.not_eq_true] at hne
    exact hne.trans BitVec.getLsbD_zero.symm
  · rintro rfl i hi
    rw [hp i (List.mem_range.mp hi)]
    simp

theorem isLeast_of_find (hp : ∀ i < n, p i = x.getLsbD i) {i : ℕ}
    (h : (List.range n).find? p = some i) : i < n ∧ IsLeast (ones x) i := by
  obtain ⟨hi, hmem, hbefore⟩ := List.find?_range_eq_some.mp h
  have hlt := List.mem_range.mp hmem
  refine ⟨hlt, (hp i hlt).symm.trans hi, ?_⟩
  intro j hj
  by_contra hne
  have hji : j < i := by omega
  have hno := hbefore j hji
  rw [hp j (by omega), show x.getLsbD j = true from hj] at hno
  cases hno

theorem isGreatest_of_find (hp : ∀ i < n, p i = x.getLsbD (n - 1 - i)) {i : ℕ}
    (h : (List.range n).find? p = some i) : i < n ∧ IsGreatest (ones x) (n - 1 - i) := by
  obtain ⟨hi, hmem, hbefore⟩ := List.find?_range_eq_some.mp h
  have hlt := List.mem_range.mp hmem
  refine ⟨hlt, (hp i hlt).symm.trans hi, ?_⟩
  intro j hj
  by_contra hne
  have hjn : j < n := BitVec.lt_of_getLsbD hj
  have hji : n - 1 - j < i := by omega
  have hno := hbefore _ hji
  have hindex : n - 1 - (n - 1 - j) = j := by omega
  rw [hp _ (by omega), hindex, show x.getLsbD j = true from hj] at hno
  cases hno

end Scan

end Qx86.Foundation.Bits
