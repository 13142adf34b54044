import Mathlib.Data.BitVec
import Mathlib.Tactic.Common

namespace Qx86.Foundation.Words

variable {w : ℕ}

def saturatingSub (a b : BitVec w) : BitVec w := if a < b then 0 else a - b

/-- Native shifts take their count modulo the width of the shifted word. -/
def wrappingShl (a : BitVec w) (count : ℕ) : BitVec w := a <<< (count % w)

def wrappingShr (a : BitVec w) (count : ℕ) : BitVec w := a >>> (count % w)

theorem saturatingSub_toNat (a b : BitVec w) :
    (saturatingSub a b).toNat = a.toNat - b.toNat := by
  unfold saturatingSub
  split
  · next h => rw [BitVec.lt_def] at h; simp; omega
  · next h => rw [BitVec.lt_def] at h; rw [BitVec.toNat_sub_of_le (by rw [BitVec.le_def]; omega)]

@[simp] theorem saturatingSub_zero (a : BitVec w) : saturatingSub a 0 = a :=
  BitVec.eq_of_toNat_eq (by simp [saturatingSub_toNat])

@[simp] theorem zero_saturatingSub (b : BitVec w) : saturatingSub 0 b = 0 :=
  BitVec.eq_of_toNat_eq (by simp [saturatingSub_toNat])

theorem eq_zero_iff_toNat (a : BitVec w) : a = 0 ↔ a.toNat = 0 :=
  ⟨fun h ↦ by simp [h], fun h ↦ BitVec.eq_of_toNat_eq (by simpa using h)⟩

theorem topBit_eq_zero (a : BitVec 32) : a &&& 0x80000000 = 0 ↔ a < 0x80000000 := by
  have h : a &&& 0x80000000 = 0 ↔ a.msb = false := by
    constructor
    · intro h
      have h' := congrArg (fun x : BitVec 32 ↦ x.getLsbD 31) h
      simpa [BitVec.msb_eq_getLsbD_last] using h'
    · intro h
      apply BitVec.eq_of_getLsbD_eq
      intro i hi
      have hc : (0x80000000 : BitVec 32) = BitVec.twoPow 32 31 := by decide
      rw [hc, BitVec.getLsbD_and, BitVec.getLsbD_twoPow]
      by_cases hi' : 31 = i
      · subst hi'
        simpa [BitVec.msb_eq_getLsbD_last] using h
      · simp [hi']
  rw [h, BitVec.msb_eq_false_iff_two_mul_lt, BitVec.lt_def]
  simp
  omega

theorem topBit_page (a : BitVec 32) :
    (a &&& 0xFFFF0000) &&& 0x80000000 = a &&& 0x80000000 := by
  rw [BitVec.and_assoc]
  rfl

section Extract

variable {n m : ℕ}

theorem and_mask_extract {x : BitVec m} (lo n : ℕ) {mask : BitVec m} (hn : lo + n ≤ m)
    (hm : ∀ i : Fin m, mask.getLsbD i = decide (lo ≤ i.val ∧ i.val < lo + n)) :
    ((x &&& mask) >>> lo).setWidth n = x.extractLsb' lo n := by
  apply BitVec.eq_of_getLsbD_eq
  intro i hi
  have hbit := hm ⟨lo + i, by omega⟩
  have hin : lo ≤ lo + i ∧ lo + i < lo + n := by omega
  rw [decide_eq_true hin] at hbit
  rw [BitVec.getLsbD_setWidth, BitVec.getLsbD_ushiftRight, BitVec.getLsbD_and,
    BitVec.getLsbD_extractLsb', hbit, Bool.and_true]

theorem and_mask_eq_zero_iff {x : BitVec m} (lo n : ℕ) {mask : BitVec m} (hn : lo + n ≤ m)
    (hm : ∀ i : Fin m, mask.getLsbD i = decide (lo ≤ i.val ∧ i.val < lo + n)) :
    x &&& mask = 0 ↔ x.extractLsb' lo n = 0 := by
  constructor
  · intro h
    rw [← and_mask_extract lo n hn hm, h]
    exact (congrArg (BitVec.setWidth n) BitVec.zero_ushiftRight).trans (BitVec.setWidth_zero n m)
  · intro h
    apply BitVec.eq_of_getLsbD_eq
    intro i hi
    have hbit := congrArg (BitVec.getLsbD · (i - lo)) h
    rw [BitVec.getLsbD_and, hm ⟨i, hi⟩]
    by_cases hin : lo ≤ i ∧ i < lo + n
    · have hlt : i - lo < n := by omega
      simp only [BitVec.getLsbD_extractLsb', hlt, decide_true, Bool.true_and,
        Nat.add_sub_cancel' hin.1] at hbit
      rw [hbit]
      simp
    · rw [decide_eq_false hin, Bool.and_false]
      exact (BitVec.getLsbD_zero).symm

theorem shift_and_mask_eq_zero_iff {x : BitVec m} (lo n : ℕ) {mask : BitVec m} {k : ℕ}
    (hk : k ≤ lo) (hn : lo + n ≤ m)
    (hm : ∀ i : Fin m, mask.getLsbD i = decide (lo ≤ i.val ∧ i.val < lo + n)) :
    (x &&& mask) >>> k = 0 ↔ x.extractLsb' lo n = 0 := by
  rw [← and_mask_eq_zero_iff lo n hn hm]
  constructor
  · intro h
    apply BitVec.eq_of_getLsbD_eq
    intro i hi
    have hzero : (0 : BitVec m).getLsbD i = false := BitVec.getLsbD_zero
    rw [hzero]
    by_cases hin : k ≤ i
    · have hbit := congrArg (BitVec.getLsbD · (i - k)) h
      simp only [BitVec.getLsbD_ushiftRight, Nat.add_sub_cancel' hin] at hbit
      exact hbit.trans BitVec.getLsbD_zero
    · have hout : ¬(lo ≤ i ∧ i < lo + n) := by omega
      rw [BitVec.getLsbD_and, hm ⟨i, hi⟩, decide_eq_false hout, Bool.and_false]
  · intro h
    rw [h]
    exact BitVec.zero_ushiftRight

theorem signExtend_signExtend {k : ℕ} (x : BitVec m) (hn : m ≤ n) (hk : n ≤ k) :
    (x.signExtend n).signExtend k = x.signExtend k := by
  apply BitVec.eq_of_toInt_eq
  rw [BitVec.toInt_signExtend_of_le hk, BitVec.toInt_signExtend_of_le hn,
    BitVec.toInt_signExtend_of_le (hn.trans hk)]

theorem setWidth_signExtend {k : ℕ} (x : BitVec m) (hk : n ≤ k) :
    (x.signExtend k).setWidth n = x.signExtend n := by
  apply BitVec.eq_of_getLsbD_eq
  intro i hi
  have hlt : i < k := by omega
  rw [BitVec.getLsbD_setWidth, BitVec.getLsbD_signExtend, BitVec.getLsbD_signExtend,
    decide_eq_true hi, decide_eq_true hlt, Bool.true_and]

theorem zero_lt_iff_ne_zero (x : BitVec m) : 0 < x ↔ x ≠ 0 := by
  rw [BitVec.lt_def, ne_eq, eq_zero_iff_toNat]
  exact Nat.pos_iff_ne_zero

end Extract

section Splice

variable {n k m : ℕ}

def splice (x : BitVec n) (lo : ℕ) (v : BitVec k) : BitVec n :=
  (x &&& ~~~((BitVec.allOnes k).setWidth n <<< lo)) ||| (v.setWidth n <<< lo)

theorem splice_getLsbD (x : BitVec n) (lo : ℕ) (v : BitVec k) {i : ℕ} (hi : i < n) :
    (splice x lo v).getLsbD i =
      if lo ≤ i ∧ i < lo + k then v.getLsbD (i - lo) else x.getLsbD i := by
  have hin : i - lo < n := by omega
  simp only [splice, BitVec.getLsbD_or, BitVec.getLsbD_and, BitVec.getLsbD_not,
    BitVec.getLsbD_shiftLeft, BitVec.getLsbD_setWidth, BitVec.getLsbD_allOnes, hi, hin]
  by_cases hlo : lo ≤ i
  · by_cases hk : i < lo + k
    · have hlt : i - lo < k := by omega
      simp [hlo, hk, hlt, Nat.not_lt.mpr hlo]
    · have hge : ¬i - lo < k := by omega
      have hout : v.getLsbD (i - lo) = false := BitVec.getLsbD_of_ge _ _ (by omega)
      simp [hlo, hk, hge, hout]
  · simp [hlo, Nat.lt_of_not_le hlo]

theorem splice_zero (x : BitVec n) (v : BitVec k) :
    splice x 0 v = (x &&& ~~~((BitVec.allOnes k).setWidth n)) ||| v.setWidth n := by
  rw [splice, BitVec.shiftLeft_zero, BitVec.shiftLeft_zero]

theorem splice_all (x v : BitVec n) : splice x 0 v = v := by
  apply BitVec.eq_of_getLsbD_eq
  intro i hi
  have hin : 0 ≤ i ∧ i < 0 + n := by omega
  rw [splice_getLsbD x 0 v hi, if_pos hin, Nat.sub_zero]

theorem splice_splice (x : BitVec n) (lo : ℕ) (v v' : BitVec k) :
    splice (splice x lo v) lo v' = splice x lo v' := by
  apply BitVec.eq_of_getLsbD_eq
  intro i hi
  rw [splice_getLsbD _ lo v' hi, splice_getLsbD x lo v' hi, splice_getLsbD x lo v hi]
  by_cases h : lo ≤ i ∧ i < lo + k
  · rw [if_pos h, if_pos h]
  · rw [if_neg h, if_neg h, if_neg h]

theorem splice_extract (x : BitVec n) (lo : ℕ) : splice x lo (x.extractLsb' lo k) = x := by
  apply BitVec.eq_of_getLsbD_eq
  intro i hi
  rw [splice_getLsbD x lo _ hi]
  by_cases h : lo ≤ i ∧ i < lo + k
  · rw [if_pos h, BitVec.getLsbD_extractLsb', decide_eq_true (by omega), Bool.true_and,
      Nat.add_sub_cancel' h.1]
  · rw [if_neg h]

theorem extract_splice (x : BitVec n) {lo : ℕ} (v : BitVec k) (h : lo + k ≤ n) :
    (splice x lo v).extractLsb' lo k = v := by
  apply BitVec.eq_of_getLsbD_eq
  intro i hi
  have hin : lo ≤ lo + i ∧ lo + i < lo + k := by omega
  rw [BitVec.getLsbD_extractLsb', splice_getLsbD x lo v (by omega), if_pos hin,
    Nat.add_sub_cancel_left, decide_eq_true hi, Bool.true_and]

theorem extract_splice_disjoint (x : BitVec n) {lo lo' k' : ℕ} (v : BitVec k)
    (h : lo' + k' ≤ lo ∨ lo + k ≤ lo') :
    (splice x lo v).extractLsb' lo' k' = x.extractLsb' lo' k' := by
  apply BitVec.eq_of_getLsbD_eq
  intro i hi
  rw [BitVec.getLsbD_extractLsb', BitVec.getLsbD_extractLsb']
  by_cases hn : lo' + i < n
  · have hout : ¬(lo ≤ lo' + i ∧ lo' + i < lo + k) := by omega
    rw [splice_getLsbD x lo v hn, if_neg hout]
  · rw [BitVec.getLsbD_of_ge _ _ (by omega), BitVec.getLsbD_of_ge _ _ (by omega)]

theorem splice_parts (x : BitVec m) (lo : ℕ) (v : BitVec (n + k)) :
    splice (splice x lo (v.extractLsb' 0 n)) (lo + n) (v.extractLsb' n k) = splice x lo v := by
  apply BitVec.eq_of_getLsbD_eq
  intro i hi
  rw [splice_getLsbD _ (lo + n) _ hi, splice_getLsbD x lo _ hi, splice_getLsbD x lo v hi]
  by_cases hlow : lo ≤ i ∧ i < lo + n
  · have hout : ¬(lo + n ≤ i ∧ i < lo + n + k) := by omega
    have hin : lo ≤ i ∧ i < lo + (n + k) := by omega
    have hlt : i - lo < n := by omega
    rw [if_neg hout, if_pos hlow, if_pos hin, BitVec.getLsbD_extractLsb', decide_eq_true hlt,
      Bool.true_and, Nat.zero_add]
  · by_cases hhigh : lo + n ≤ i ∧ i < lo + n + k
    · have hin : lo ≤ i ∧ i < lo + (n + k) := by omega
      have hlt : i - (lo + n) < k := by omega
      have hindex : n + (i - (lo + n)) = i - lo := by omega
      rw [if_pos hhigh, if_pos hin, BitVec.getLsbD_extractLsb', decide_eq_true hlt,
        Bool.true_and, hindex]
    · have hout : ¬(lo ≤ i ∧ i < lo + (n + k)) := by omega
      rw [if_neg hhigh, if_neg hlow, if_neg hout]

theorem splice_comm (x : BitVec n) {lo lo' k' : ℕ} (v : BitVec k) (v' : BitVec k')
    (h : lo' + k' ≤ lo ∨ lo + k ≤ lo') :
    splice (splice x lo v) lo' v' = splice (splice x lo' v') lo v := by
  apply BitVec.eq_of_getLsbD_eq
  intro i hi
  rw [splice_getLsbD _ lo' v' hi, splice_getLsbD _ lo v hi, splice_getLsbD _ lo v hi,
    splice_getLsbD _ lo' v' hi]
  by_cases hin : lo ≤ i ∧ i < lo + k
  · have hout : ¬(lo' ≤ i ∧ i < lo' + k') := by omega
    rw [if_neg hout, if_pos hin, if_pos hin]
  · rw [if_neg hin, if_neg hin]

end Splice

def setBits (bits : List ℕ) (mask : ℕ) : ℕ := bits.foldr (fun b m ↦ m ||| 2 ^ b) mask

theorem testBit_setBits (bits : List ℕ) (mask i : ℕ) :
    (setBits bits mask).testBit i = (mask.testBit i || decide (i ∈ bits)) := by
  induction bits with
  | nil => simp [setBits]
  | cons b bits ih =>
    have hcons : setBits (b :: bits) mask = setBits bits mask ||| 2 ^ b := rfl
    rw [hcons, Nat.testBit_or, ih, Nat.testBit_two_pow, Bool.or_assoc]
    congr 1
    rw [Bool.eq_iff_iff]
    simp only [Bool.or_eq_true, decide_eq_true_eq, List.mem_cons]
    rw [or_comm, @eq_comm _ b]

end Qx86.Foundation.Words
