import Qx86.Foundation.Words

namespace Qx86.Foundation.Views

open Words

/-- Some consecutive bits of one word of a bank. -/
structure View (ι : Type) (n k : ℕ) where
  word : ι
  first : ℕ
  fits : first + k ≤ n

namespace View

variable {ι : Type} {n k k' : ℕ}

def read (x : View ι n k) (b : ι → BitVec n) : BitVec k := (b x.word).extractLsb' x.first k

def write [DecidableEq ι] (x : View ι n k) (b : ι → BitVec n) (v : BitVec k) : ι → BitVec n :=
  Function.update b x.word (splice (b x.word) x.first v)

def Has (x : View ι n k) (j : ι) (i : ℕ) : Prop := j = x.word ∧ x.first ≤ i ∧ i < x.first + k

instance [DecidableEq ι] (x : View ι n k) (j : ι) (i : ℕ) : Decidable (x.Has j i) := by
  unfold Has
  infer_instance

def Disjoint (x : View ι n k) (y : View ι n k') : Prop := ∀ j i, x.Has j i → ¬y.Has j i

theorem read_getLsbD (x : View ι n k) (b : ι → BitVec n) {i : ℕ} (hi : i < k) :
    (x.read b).getLsbD i = (b x.word).getLsbD (x.first + i) := by
  rw [read, BitVec.getLsbD_extractLsb', decide_eq_true hi, Bool.true_and]

theorem bank_ext {b b' : ι → BitVec n}
    (h : ∀ j i, i < n → (b j).getLsbD i = (b' j).getLsbD i) : b = b' := by
  funext j
  exact BitVec.eq_of_getLsbD_eq fun i hi ↦ h j i hi

section Write

variable [DecidableEq ι] (x : View ι n k) (y : View ι n k') (b : ι → BitVec n)

theorem write_getLsbD (v : BitVec k) (j : ι) {i : ℕ} (hi : i < n) :
    (x.write b v j).getLsbD i =
      if x.Has j i then v.getLsbD (i - x.first) else (b j).getLsbD i := by
  by_cases hj : j = x.word
  · subst hj
    have hself : x.write b v x.word = splice (b x.word) x.first v := Function.update_self ..
    have hhas : x.Has x.word i ↔ x.first ≤ i ∧ i < x.first + k := and_iff_right rfl
    rw [hself, splice_getLsbD _ _ _ hi]
    simp only [hhas]
  · have hother : x.write b v j = b j := Function.update_of_ne hj ..
    have hhas : ¬x.Has j i := fun h ↦ hj h.1
    rw [hother, if_neg hhas]

theorem read_write (v : BitVec k) : x.read (x.write b v) = v := by
  apply BitVec.eq_of_getLsbD_eq
  intro i hi
  have hfits := x.fits
  have hhas : x.Has x.word (x.first + i) := ⟨rfl, by omega, by omega⟩
  rw [read_getLsbD _ _ hi, write_getLsbD _ _ _ _ (by omega), if_pos hhas, Nat.add_sub_cancel_left]

theorem read_write_getLsbD (v : BitVec k) {i : ℕ} (hi : i < k') :
    (y.read (x.write b v)).getLsbD i =
      if x.Has y.word (y.first + i) then v.getLsbD (y.first + i - x.first)
      else (y.read b).getLsbD i := by
  have hfits := y.fits
  rw [read_getLsbD _ _ hi, read_getLsbD _ _ hi, write_getLsbD _ _ _ _ (by omega)]

theorem write_read : x.write b (x.read b) = b := by
  apply bank_ext
  intro j i hi
  rw [write_getLsbD _ _ _ _ hi]
  by_cases h : x.Has j i
  · obtain ⟨rfl, hlo, hhi⟩ := id h
    rw [if_pos h, read_getLsbD _ _ (by omega), Nat.add_sub_cancel' hlo]
  · rw [if_neg h]

theorem write_comm {x : View ι n k} {y : View ι n k'} (h : x.Disjoint y) (v : BitVec k)
    (v' : BitVec k') : y.write (x.write b v) v' = x.write (y.write b v') v := by
  apply bank_ext
  intro j i hi
  simp only [write_getLsbD _ _ _ _ hi]
  by_cases hx : x.Has j i
  · rw [if_pos hx, if_pos hx, if_neg (h j i hx)]
  · rw [if_neg hx, if_neg hx]

end Write

end View

end Qx86.Foundation.Views
