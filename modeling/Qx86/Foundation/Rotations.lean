import Mathlib.Data.BitVec
import Mathlib.Dynamics.PeriodicPts.Defs

namespace Qx86.Foundation.Rotations

inductive Direction where
  | left
  | right
  deriving DecidableEq

namespace Direction

variable {n : ℕ}

def rotate : Direction → BitVec n → ℕ → BitVec n
  | left, x, k => x.rotateLeft k
  | right, x, k => x.rotateRight k

/-- The bit that a rotation by one moves around. -/
def outBit : Direction → BitVec n → Bool
  | left, x => x.msb
  | right, x => x.getLsbD 0

/-- The place that a bit that is moved around comes to. -/
def inBit : Direction → BitVec n → Bool
  | left, x => x.getLsbD 0
  | right, x => x.msb

def rotateOne (d : Direction) (s : BitVec n × Bool) : BitVec n × Bool :=
  (d.rotate s.1 1, d.outBit s.1)

def carryOne : Direction → BitVec n × Bool → BitVec n × Bool
  | left, s => (s.1.shiftConcat s.2, s.1.msb)
  | right, s => ((BitVec.cons s.2 s.1).extractLsb' 1 n, s.1.getLsbD 0)

/-- The overflow flag after a rotation by one that leaves a word and a carry. -/
def oneOverflow : Direction → BitVec n × Bool → Bool
  | left, s => s.1.msb ^^ s.2
  | right, s => s.1.msb ^^ s.1.getLsbD (n - 2)

section Rotate

theorem getLsbD_rotateRight_mod (x : BitVec n) (k : ℕ) {i : ℕ} (hi : i < n) :
    (x.rotateRight k).getLsbD i = x.getLsbD ((k + i) % n) := by
  have hk : k % n < n := Nat.mod_lt _ (by omega)
  rw [BitVec.getLsbD_rotateRight, ← Nat.mod_add_mod]
  by_cases h : i < n - k % n
  · rw [decide_eq_true h, Nat.mod_eq_of_lt (show k % n + i < n by omega)]
    rfl
  · have hwrap : (k % n + i) % n = i - (n - k % n) := by
      rw [Nat.mod_eq_sub_mod (by omega), Nat.mod_eq_of_lt (by omega)]
      omega
    rw [decide_eq_false h, decide_eq_true hi, hwrap]
    rfl

theorem rotate_add (d : Direction) (x : BitVec n) (j k : ℕ) :
    d.rotate x (j + k) = d.rotate (d.rotate x j) k := by
  cases d with
  | left =>
    apply BitVec.eq_of_getMsbD_eq
    intro i hi
    have hlt : (k + i) % n < n := Nat.mod_lt _ (by omega)
    change (x.rotateLeft (j + k)).getMsbD i = ((x.rotateLeft j).rotateLeft k).getMsbD i
    rw [BitVec.getMsbD_rotateLeft, BitVec.getMsbD_rotateLeft, BitVec.getMsbD_rotateLeft,
      decide_eq_true hlt, Nat.add_mod_mod, Nat.add_assoc, Bool.true_and]
  | right =>
    apply BitVec.eq_of_getLsbD_eq
    intro i hi
    have hlt : (k + i) % n < n := Nat.mod_lt _ (by omega)
    change (x.rotateRight (j + k)).getLsbD i = ((x.rotateRight j).rotateRight k).getLsbD i
    rw [getLsbD_rotateRight_mod _ _ hi, getLsbD_rotateRight_mod _ _ hi,
      getLsbD_rotateRight_mod _ _ hlt, Nat.add_mod_mod, Nat.add_assoc]

theorem rotate_mod (d : Direction) (x : BitVec n) (k : ℕ) : d.rotate x (k % n) = d.rotate x k := by
  cases d with
  | left => exact BitVec.rotateLeft_mod_eq_rotateLeft
  | right => exact BitVec.rotateRight_mod_eq_rotateRight

theorem rotate_zero (d : Direction) (x : BitVec n) : d.rotate x 0 = x := by
  cases d with
  | left =>
    apply BitVec.eq_of_getMsbD_eq
    intro i hi
    exact BitVec.getMsbD_rotateLeft.trans (by simp [hi, Nat.mod_eq_of_lt hi])
  | right =>
    apply BitVec.eq_of_getLsbD_eq
    intro i hi
    refine (getLsbD_rotateRight_mod x 0 hi).trans ?_
    rw [Nat.zero_add, Nat.mod_eq_of_lt hi]

theorem rotate_iterate (d : Direction) (x : BitVec n) (k : ℕ) :
    (d.rotate · 1)^[k] x = d.rotate x k := by
  induction k with
  | zero => exact (d.rotate_zero x).symm
  | succ k ih => rw [Function.iterate_succ_apply', ih, ← rotate_add]

theorem inBit_rotate (d : Direction) (x : BitVec n) (hn : 0 < n) :
    d.inBit (d.rotate x 1) = d.outBit x := by
  have hwrap : (1 + (n - 1)) % n = 0 := by
    rw [Nat.add_sub_cancel' hn, Nat.mod_self]
  cases d with
  | left =>
    change (x.rotateLeft 1).getLsbD 0 = x.msb
    rw [BitVec.getLsbD_eq_getMsbD, BitVec.getMsbD_rotateLeft, Nat.sub_zero, hwrap,
      decide_eq_true hn, decide_eq_true (by omega)]
    rfl
  | right =>
    change (x.rotateRight 1).msb = x.getLsbD 0
    rw [BitVec.msb_eq_getLsbD_last, getLsbD_rotateRight_mod _ _ (by omega), hwrap]

theorem rotateOne_iterate (d : Direction) (k : ℕ) (x : BitVec n) (b : Bool) (hn : 0 < n) :
    d.rotateOne^[k + 1] (x, b) = (d.rotate x (k + 1), d.inBit (d.rotate x (k + 1))) := by
  induction k with
  | zero => rw [Function.iterate_one, rotateOne, inBit_rotate _ _ hn]
  | succ k ih =>
    rw [Function.iterate_succ_apply', ih, rotateOne, rotate_add d x (k + 1), inBit_rotate _ _ hn]

theorem rotateOne_iterate_fst (d : Direction) (k : ℕ) (s : BitVec n × Bool) :
    (d.rotateOne^[k] s).1 = d.rotate s.1 k := by
  rw [← rotate_iterate]
  exact Function.Semiconj.iterate_right (f := Prod.fst) (fun _ ↦ rfl) k s

/-- A number of rotations and its rest by the width do the same, apart from the bit that is moved
around last. -/
theorem rotateOne_iterate_mod_iff (d : Direction) (k : ℕ) (x : BitVec n) (b : Bool) (hn : 0 < n) :
    d.rotateOne^[k % n] (x, b) = d.rotateOne^[k] (x, b) ↔ k % n ≠ 0 ∨ k = 0 ∨ b = d.inBit x := by
  have hmod := d.rotate_mod x k
  cases hk : k with
  | zero => exact iff_of_true (by rw [Nat.zero_mod]) (.inr (.inl rfl))
  | succ k' =>
    rw [rotateOne_iterate _ _ _ _ hn, ← hk, ← hmod]
    cases hj : k % n with
    | zero =>
      rw [rotate_zero]
      constructor
      · intro h
        exact .inr (.inr (congrArg Prod.snd h))
      · intro h
        have hb := (h.resolve_left (· rfl)).resolve_left (by omega)
        exact Prod.ext rfl hb
    | succ j => exact iff_of_true (rotateOne_iterate _ _ _ _ hn) (.inl (Nat.succ_ne_zero j))

theorem getLsbD_rotateLeft_mod (x : BitVec n) (k : ℕ) {i : ℕ} (hi : i < n) :
    (x.rotateLeft k).getLsbD ((k + i) % n) = x.getLsbD i := by
  have hk : k % n < n := Nat.mod_lt _ (by omega)
  rw [BitVec.getLsbD_rotateLeft, ← Nat.mod_add_mod]
  by_cases h : k % n + i < n
  · rw [Nat.mod_eq_of_lt h, decide_eq_false (by omega), decide_eq_true h, Nat.add_sub_cancel_left]
    rfl
  · have hwrap : (k % n + i) % n = k % n + i - n := by
      rw [Nat.mod_eq_sub_mod (by omega), Nat.mod_eq_of_lt (by omega)]
    have hback : n - k % n + (k % n + i - n) = i := by omega
    rw [hwrap, decide_eq_true (by omega), hback]
    rfl

theorem rotateRight_rotateLeft (x : BitVec n) (k : ℕ) : (x.rotateLeft k).rotateRight k = x := by
  apply BitVec.eq_of_getLsbD_eq
  intro i hi
  rw [getLsbD_rotateRight_mod _ _ hi, getLsbD_rotateLeft_mod _ _ hi]

end Rotate

section Carry

def ring : Direction → BitVec n × Bool → BitVec (n + 1)
  | left, s => s.1.concat s.2
  | right, s => BitVec.cons s.2 s.1

def split : Direction → BitVec (n + 1) → BitVec n × Bool
  | left, y => (y.extractLsb' 1 n, y.getLsbD 0)
  | right, y => (y.setWidth n, y.getLsbD n)

theorem getLsbD_ring_left (s : BitVec n × Bool) (i : ℕ) :
    (left.ring s).getLsbD i = if i = 0 then s.2 else s.1.getLsbD (i - 1) :=
  BitVec.getLsbD_concat s.1 s.2 i

theorem getLsbD_ring_right (s : BitVec n × Bool) (i : ℕ) :
    (right.ring s).getLsbD i = if i = n then s.2 else s.1.getLsbD i :=
  BitVec.getLsbD_cons s.2 s.1 i

theorem split_ring (d : Direction) (s : BitVec n × Bool) : d.split (d.ring s) = s := by
  cases d with
  | left =>
    refine Prod.ext (BitVec.eq_of_getLsbD_eq ?_) ?_
    · intro i hi
      change ((left.ring s).extractLsb' 1 n).getLsbD i = _
      rw [BitVec.getLsbD_extractLsb', decide_eq_true hi, getLsbD_ring_left, if_neg (by omega),
        Nat.add_sub_cancel_left, Bool.true_and]
    · exact (getLsbD_ring_left s 0).trans (if_pos rfl)
  | right =>
    refine Prod.ext (BitVec.eq_of_getLsbD_eq ?_) ?_
    · intro i hi
      change ((right.ring s).setWidth n).getLsbD i = _
      rw [BitVec.getLsbD_setWidth, decide_eq_true hi, getLsbD_ring_right, if_neg (by omega),
        Bool.true_and]
    · exact (getLsbD_ring_right s n).trans (if_pos rfl)

theorem getLsbD_carryOne_left (s : BitVec n × Bool) {i : ℕ} (hi : i < n) :
    (left.carryOne s).1.getLsbD i = if i = 0 then s.2 else s.1.getLsbD (i - 1) := by
  refine (BitVec.getLsbD_shiftConcat s.1 s.2 i).trans ?_
  rw [decide_eq_true hi, Bool.true_and]

theorem getLsbD_carryOne_right (s : BitVec n × Bool) {i : ℕ} (hi : i < n) :
    (right.carryOne s).1.getLsbD i = if 1 + i = n then s.2 else s.1.getLsbD (1 + i) := by
  change ((right.ring s).extractLsb' 1 n).getLsbD i = _
  rw [BitVec.getLsbD_extractLsb', decide_eq_true hi, getLsbD_ring_right, Bool.true_and]

theorem ring_carryOne (d : Direction) (s : BitVec n × Bool) (hn : 0 < n) :
    d.ring (d.carryOne s) = d.rotate (d.ring s) 1 := by
  apply BitVec.eq_of_getLsbD_eq
  intro i hi
  cases d with
  | left =>
    have hone : 1 % (n + 1) = 1 := Nat.mod_eq_of_lt (by omega)
    change _ = ((left.ring s).rotateLeft 1).getLsbD i
    rw [BitVec.getLsbD_rotateLeft, hone, getLsbD_ring_left, getLsbD_ring_left, getLsbD_ring_left]
    cases i with
    | zero =>
      rw [if_pos rfl, if_neg (by omega)]
      exact BitVec.msb_eq_getLsbD_last s.1
    | succ i =>
      have hlt : i < n := by omega
      rw [if_neg (by omega), Nat.add_sub_cancel, getLsbD_carryOne_left _ hlt,
        decide_eq_false (by omega), decide_eq_true hi]
      rfl
  | right =>
    change _ = ((right.ring s).rotateRight 1).getLsbD i
    rw [getLsbD_rotateRight_mod _ _ hi, getLsbD_ring_right, getLsbD_ring_right]
    by_cases h : i = n
    · have hwrap : (1 + i) % (n + 1) = 0 := by
        rw [h, Nat.add_comm, Nat.mod_self]
      rw [if_pos h, hwrap, if_neg (by omega)]
      rfl
    · have hlt : i < n := by omega
      rw [if_neg h, Nat.mod_eq_of_lt (by omega), getLsbD_carryOne_right _ hlt]

theorem carryOne_iterate (d : Direction) (k : ℕ) (s : BitVec n × Bool) (hn : 0 < n) :
    d.carryOne^[k] s = d.split (d.rotate (d.ring s) k) := by
  have hring : d.ring (d.carryOne^[k] s) = d.rotate (d.ring s) k := by
    rw [← rotate_iterate]
    exact Function.Semiconj.iterate_right (fun s ↦ d.ring_carryOne s hn) k s
  rw [← hring, split_ring]

theorem carryOne_period (d : Direction) (s : BitVec n × Bool) (hn : 0 < n) :
    d.carryOne^[n + 1] s = s := by
  rw [carryOne_iterate _ _ _ hn, ← rotate_mod, Nat.mod_self, rotate_zero, split_ring]

theorem right_left (s : BitVec n × Bool) (hn : 0 < n) : right.carryOne (left.carryOne s) = s := by
  have hcarry : (right.carryOne (left.carryOne s)).2 = s.2 :=
    (getLsbD_carryOne_left s hn).trans (if_pos rfl)
  refine Prod.ext (BitVec.eq_of_getLsbD_eq ?_) hcarry
  intro i hi
  rw [getLsbD_carryOne_right _ hi]
  by_cases h : 1 + i = n
  · rw [if_pos h, Nat.eq_sub_of_add_eq' h]
    exact BitVec.msb_eq_getLsbD_last s.1
  · rw [if_neg h, getLsbD_carryOne_left _ (by omega), if_neg (by omega), Nat.add_sub_cancel_left]

theorem right_left_iterate (s : BitVec n × Bool) (k : ℕ) (hn : 0 < n) :
    right.carryOne^[k] (left.carryOne^[k] s) = s :=
  Function.LeftInverse.iterate (fun s ↦ right_left s hn) k s

theorem left_right (s : BitVec n × Bool) (hn : 0 < n) : left.carryOne (right.carryOne s) = s := by
  have hperiod := left.carryOne_period s hn
  have hback : right.carryOne s = left.carryOne^[n] s := by
    have h := right_left (left.carryOne^[n] s) hn
    rwa [← Function.iterate_succ_apply' left.carryOne, hperiod] at h
  rw [hback, ← Function.iterate_succ_apply' left.carryOne, hperiod]

theorem carryOne_injective (d : Direction) (hn : 0 < n) :
    Function.Injective (d.carryOne (n := n)) := by
  cases d with
  | left => exact Function.LeftInverse.injective fun s ↦ right_left s hn
  | right => exact Function.LeftInverse.injective fun s ↦ left_right s hn

theorem fixed_iff (d : Direction) (s : BitVec n × Bool) (m : ℕ) (hn : 0 < n) :
    d.carryOne^[m] s = s ↔ left.carryOne^[m] s = s := by
  cases d with
  | left => rfl
  | right =>
    constructor
    · intro h
      have hback := Function.LeftInverse.iterate (fun s ↦ left_right (n := n) s hn) m s
      rwa [h] at hback
    · intro h
      have hback := right_left_iterate s m hn
      rwa [h] at hback

/-- Two numbers of rotations do the same exactly if those that they have in common with the whole
ring change nothing. -/
theorem carryOne_iterate_eq_iff (d : Direction) {j k : ℕ} (hjk : j ≤ k) (s : BitVec n × Bool)
    (hn : 0 < n) : d.carryOne^[j] s = d.carryOne^[k] s ↔
      left.carryOne^[(k - j).gcd (n + 1)] s = s := by
  have hperiod : Function.IsPeriodicPt d.carryOne (n + 1) s := d.carryOne_period s hn
  rw [← d.fixed_iff _ _ hn]
  constructor
  · intro h
    have hdiff : Function.IsPeriodicPt d.carryOne (k - j) s :=
      Function.iterate_cancel (d.carryOne_injective hn) h.symm
    exact hdiff.gcd hperiod
  · intro h
    have hdiff : Function.IsPeriodicPt d.carryOne (k - j) s :=
      Function.IsPeriodicPt.trans_dvd h (Nat.gcd_dvd_left _ _)
    rw [← Nat.add_sub_cancel' hjk, Function.iterate_add_apply, hdiff]

theorem carryOne_eq_self_iff (s : BitVec n × Bool) (hn : 0 < n) :
    left.carryOne s = s ↔ ∀ i < n, s.1.getLsbD i = s.2 := by
  constructor
  · intro h i hi
    have hbit := fun {i : ℕ} (hi : i < n) ↦ getLsbD_carryOne_left s hi
    rw [h] at hbit
    induction i with
    | zero => exact (hbit hi).trans (if_pos rfl)
    | succ i ih =>
      rw [hbit hi, if_neg (by omega)]
      exact ih (by omega)
  · intro h
    refine Prod.ext (BitVec.eq_of_getLsbD_eq ?_) ?_
    · intro i hi
      rw [getLsbD_carryOne_left _ hi, h i hi]
      split
      · rfl
      · exact h (i - 1) (by omega)
    · exact (BitVec.msb_eq_getLsbD_last s.1).trans (h (n - 1) (by omega))

end Carry

end Direction

end Qx86.Foundation.Rotations
