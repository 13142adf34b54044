import Mathlib.Data.BitVec
import Mathlib.Tactic.Common

namespace Qx86.Foundation.Bytes

variable {α : Type} {w : ℕ}

def overwrite (l : List α) (i : ℕ) : List α → List α
  | [] => l
  | d :: ds => overwrite (l.set i d) (i + 1) ds

@[simp] theorem overwrite_length (l : List α) (i : ℕ) (ds : List α) :
    (overwrite l i ds).length = l.length := by
  induction ds generalizing l i with
  | nil => rfl
  | cons d ds ih => simp [overwrite, ih]

theorem overwrite_getElem? (l : List α) (i : ℕ) (ds : List α)
    (h : i + ds.length ≤ l.length) (j : ℕ) :
    (overwrite l i ds)[j]? = if i ≤ j ∧ j < i + ds.length then ds[j - i]? else l[j]? := by
  induction ds generalizing l i with
  | nil => simp [overwrite]
  | cons d ds ih =>
    simp only [List.length_cons] at h
    rw [overwrite, ih _ _ (by simp; omega), List.getElem?_set]
    by_cases hj : i = j
    · subst hj
      have hi : i < l.length := by omega
      simp [hi]
    · by_cases hlt : i + 1 ≤ j ∧ j < i + 1 + ds.length
      · obtain ⟨k, rfl⟩ : ∃ k, j = i + 1 + k := ⟨j - (i + 1), by omega⟩
        have hk : i + 1 + k - i = k + 1 := by omega
        have hb : i ≤ i + 1 + k ∧ i + 1 + k < i + (ds.length + 1) := by omega
        rw [if_pos hlt, List.length_cons, if_pos hb, hk]
        simp
      · rw [if_neg hlt, if_neg hj, List.length_cons, if_neg (by omega)]

theorem overwrite_overwrite {l ds ds' : List α} {i : ℕ} (h : i + ds.length ≤ l.length)
    (hl : ds'.length = ds.length) : overwrite (overwrite l i ds) i ds' = overwrite l i ds' := by
  apply List.ext_getElem?
  intro j
  rw [overwrite_getElem? _ _ _ (by rw [overwrite_length]; omega), overwrite_getElem? _ _ _ h,
    overwrite_getElem? _ _ _ (by omega)]
  by_cases hj : i ≤ j ∧ j < i + ds.length
  · rw [hl, if_pos hj, if_pos hj]
  · rw [hl, if_neg hj, if_neg hj, if_neg hj]

theorem overwrite_self {l : List α} {i n : ℕ} (h : i + n ≤ l.length) :
    overwrite l i ((l.drop i).take n) = l := by
  have hlen : ((l.drop i).take n).length = n := by
    rw [List.length_take, List.length_drop]
    omega
  apply List.ext_getElem?
  intro j
  rw [overwrite_getElem? _ _ _ (by omega), hlen]
  by_cases hj : i ≤ j ∧ j < i + n
  · rw [if_pos hj, List.getElem?_take_of_lt (by omega), List.getElem?_drop,
      Nat.add_sub_cancel' hj.1]
  · rw [if_neg hj]

theorem overwrite_slice {l ds : List α} {i : ℕ} (h : i + ds.length ≤ l.length) :
    ((overwrite l i ds).drop i).take ds.length = ds := by
  apply List.ext_getElem?
  intro j
  by_cases hj : j < ds.length
  · have hin : i ≤ i + j ∧ i + j < i + ds.length := by omega
    rw [List.getElem?_take_of_lt hj, List.getElem?_drop, overwrite_getElem? _ _ _ h, if_pos hin,
      Nat.add_sub_cancel_left]
  · rw [List.getElem?_eq_none (by rw [List.length_take]; omega),
      List.getElem?_eq_none (by omega)]

theorem overwrite_slice_apart {l ds : List α} {i j n : ℕ} (h : i + ds.length ≤ l.length)
    (hd : j + n ≤ i ∨ i + ds.length ≤ j) :
    ((overwrite l i ds).drop j).take n = (l.drop j).take n := by
  apply List.ext_getElem?
  intro k
  by_cases hk : k < n
  · have hout : ¬(i ≤ j + k ∧ j + k < i + ds.length) := by omega
    rw [List.getElem?_take_of_lt hk, List.getElem?_take_of_lt hk, List.getElem?_drop,
      List.getElem?_drop, overwrite_getElem? _ _ _ h, if_neg hout]
  · rw [List.getElem?_eq_none (by rw [List.length_take]; omega),
      List.getElem?_eq_none (by rw [List.length_take]; omega)]

theorem overwrite_slice_below {l ds : List α} {i j n k : ℕ} (h : i + ds.length ≤ l.length)
    (hk : ds.take k = (l.drop i).take k) (hj : j + n ≤ i + k) :
    ((overwrite l i ds).drop j).take n = (l.drop j).take n := by
  apply List.ext_getElem?
  intro x
  by_cases hx : x < n
  · rw [List.getElem?_take_of_lt hx, List.getElem?_take_of_lt hx, List.getElem?_drop,
      List.getElem?_drop, overwrite_getElem? _ _ _ h]
    by_cases hin : i ≤ j + x ∧ j + x < i + ds.length
    · have hlt : j + x - i < k := by omega
      have hget := congrArg (·[j + x - i]?) hk
      rw [List.getElem?_take_of_lt hlt, List.getElem?_take_of_lt hlt, List.getElem?_drop,
        Nat.add_sub_cancel' hin.1] at hget
      rw [if_pos hin, hget]
    · rw [if_neg hin]
  · rw [List.getElem?_eq_none (by rw [List.length_take]; omega),
      List.getElem?_eq_none (by rw [List.length_take]; omega)]

theorem take_congr_of_le {l l' : List α} {n k : ℕ} (h : l'.take n = l.take n) (hk : k ≤ n) :
    l'.take k = l.take k := by
  have := congrArg (List.take k) h
  rwa [List.take_take, List.take_take, Nat.min_eq_left hk] at this

theorem take_drop_congr {l l' : List α} {n i k : ℕ} (h : l'.take n = l.take n)
    (hk : i + k ≤ n) : (l'.drop i).take k = (l.drop i).take k := by
  rw [List.take_drop, List.take_drop, take_congr_of_le h hk]

/-- The `n` low bytes of a word, least significant first. -/
def leBytes (n : ℕ) (v : BitVec w) : List (BitVec 8) :=
  (List.range n).map fun i ↦ v.extractLsb' (8 * i) 8

/-- The word whose bytes, least significant first, are given. -/
def fromLeBytes (w : ℕ) : List (BitVec 8) → BitVec w
  | [] => 0
  | b :: bs => fromLeBytes w bs <<< 8 ||| b.setWidth w

@[simp] theorem leBytes_length (n : ℕ) (v : BitVec w) : (leBytes n v).length = n := by
  simp [leBytes]

theorem fromLeBytes_getLsbD (bs : List (BitVec 8)) (i : ℕ) :
    (fromLeBytes w bs).getLsbD i = (decide (i < w) && (bs[i / 8]?.getD 0).getLsbD (i % 8)) := by
  induction bs generalizing i with
  | nil => simp [fromLeBytes]
  | cons b bs ih =>
    rw [fromLeBytes, BitVec.getLsbD_or, BitVec.getLsbD_shiftLeft, ih, BitVec.getLsbD_setWidth]
    by_cases hi : i < 8
    · have h₀ : i / 8 = 0 := by omega
      have h₁ : i % 8 = i := by omega
      simp [hi, h₀, h₁]
    · obtain ⟨k, rfl⟩ : ∃ k, i = k + 8 := ⟨i - 8, by omega⟩
      have h₀ : (k + 8) / 8 = k / 8 + 1 := by omega
      have h₁ : k + 8 < w → k < w := by omega
      by_cases hw : k + 8 < w
      · simp [h₀, hw, h₁ hw]
      · simp [hw]

theorem fromLeBytes_leBytes (n : ℕ) (v : BitVec w) (h : w = 8 * n) :
    fromLeBytes w (leBytes n v) = v := by
  apply BitVec.eq_of_getLsbD_eq
  intro i hi
  have hlt : i / 8 < n := by omega
  rw [fromLeBytes_getLsbD, leBytes, List.getElem?_map, List.getElem?_range hlt]
  have hmod : i % 8 < 8 := Nat.mod_lt _ (by decide)
  simp only [hi, decide_true, Bool.true_and, Option.map_some, Option.getD_some,
    BitVec.getLsbD_extractLsb', hmod]
  rw [show 8 * (i / 8) + i % 8 = i by omega]

theorem leBytes_fromLeBytes {bs : List (BitVec 8)} {n : ℕ} (hl : bs.length = n)
    (h : w = 8 * n) : leBytes n (fromLeBytes w bs) = bs := by
  apply List.ext_getElem?
  intro i
  by_cases hi : i < n
  · have hbs : i < bs.length := by omega
    rw [leBytes, List.getElem?_map, List.getElem?_range hi, List.getElem?_eq_getElem hbs]
    refine congrArg some (BitVec.eq_of_getLsbD_eq fun j hj ↦ ?_)
    have hdiv : (8 * i + j) / 8 = i := by omega
    have hmod : (8 * i + j) % 8 = j := by omega
    have hw : 8 * i + j < w := by omega
    simp only [BitVec.getLsbD_extractLsb', hj, decide_true, Bool.true_and, fromLeBytes_getLsbD,
      hdiv, hmod, hw, List.getElem?_eq_getElem hbs, Option.getD_some]
  · rw [List.getElem?_eq_none (by rw [leBytes_length]; omega), List.getElem?_eq_none (by omega)]

theorem leBytes_take (v : BitVec w) {k n : ℕ} (h : k ≤ n) :
    (leBytes n v).take k = leBytes k v := by
  rw [leBytes, leBytes, ← List.map_take, List.take_range, Nat.min_eq_left h]

theorem leBytes_setWidth (v : BitVec w) (k : ℕ) :
    leBytes k (v.setWidth (8 * k)) = leBytes k v := by
  refine List.map_congr_left fun i hi ↦ ?_
  have hlt := List.mem_range.mp hi
  apply BitVec.eq_of_getLsbD_eq
  intro j hj
  have hbit : 8 * i + j < 8 * k := by omega
  rw [BitVec.getLsbD_extractLsb', BitVec.getLsbD_extractLsb', BitVec.getLsbD_setWidth,
    decide_eq_true hbit, Bool.true_and]

theorem leBytes_eq_iff {v v' : BitVec w} {k : ℕ} :
    leBytes k v = leBytes k v' ↔ v.setWidth (8 * k) = v'.setWidth (8 * k) := by
  constructor
  · intro h
    rw [← fromLeBytes_leBytes k (v.setWidth (8 * k)) rfl,
      ← fromLeBytes_leBytes k (v'.setWidth (8 * k)) rfl, leBytes_setWidth, leBytes_setWidth, h]
  · intro h
    rw [← leBytes_setWidth v, ← leBytes_setWidth v', h]

theorem leBytes_add_eq_iff {x d : BitVec w} {k : ℕ} (hk : 8 * k ≤ w) :
    leBytes k (x + d) = leBytes k x ↔ d.setWidth (8 * k) = 0 := by
  rw [leBytes_eq_iff, BitVec.setWidth_add x d hk]
  exact add_eq_left

theorem exists_lowest_byte {d : BitVec w} {n : ℕ} (hw : w = 8 * n) (hd : d ≠ 0) :
    ∃ k < n, d.setWidth (8 * k) = 0 ∧ d.setWidth (8 * (k + 1)) ≠ 0 := by
  have hpos : n ≠ 0 := by
    rintro rfl
    subst hw
    exact hd (BitVec.eq_of_getLsbD_eq fun i hi ↦ absurd hi (Nat.not_lt_zero i))
  have hex : ∃ k, d.setWidth (8 * (k + 1)) ≠ 0 := by
    refine ⟨n - 1, ?_⟩
    have hn : 8 * (n - 1 + 1) = w := by omega
    rw [hn, BitVec.setWidth_eq]
    exact hd
  have hlast : Nat.find hex ≤ n - 1 := by
    apply Nat.find_min'
    have hn : 8 * (n - 1 + 1) = w := by omega
    rw [hn, BitVec.setWidth_eq]
    exact hd
  refine ⟨Nat.find hex, by omega, ?_, Nat.find_spec hex⟩
  cases hk : Nat.find hex with
  | zero => exact BitVec.eq_of_getLsbD_eq fun i hi ↦ absurd hi (Nat.not_lt_zero i)
  | succ k => exact not_not.mp (Nat.find_min hex (m := k) (by omega))

end Qx86.Foundation.Bytes
