import Qx86.Decode.Decoding

namespace Qx86

open Foundation Outcome Bytes

section Fields

def modField (b : BitVec 8) : Fin 4 := Fin.ofNat 4 (b.toNat / 64)
def regField (b : BitVec 8) : Fin 8 := Fin.ofNat 8 (b.toNat / 8)
def rmField (b : BitVec 8) : Fin 8 := Fin.ofNat 8 b.toNat

theorem ModRM.parse_eq (b : BitVec 8) :
    ModRM.parse b = ⟨rmField b, regField b, modField b⟩ := by
  revert b
  decide +kernel

theorem SIB.parse_eq (b : BitVec 8) : SIB.parse b = ⟨rmField b, regField b, modField b⟩ := by
  revert b
  decide +kernel

end Fields

section Sizes

/-- The bytes after the ModRM byte that the addressing tables prescribe: a SIB byte for
`rm` 4, and a displacement by `mod`, by `rm` 5 and by the base 5 of the SIB byte. -/
def sibSize (modrm : BitVec 8) : ℕ :=
  if modField modrm ≠ 3 ∧ rmField modrm = 4 then 1 else 0

def dispSize (modrm sib : BitVec 8) : ℕ :=
  match modField modrm with
  | 0 => if rmField modrm = 5 ∨ rmField modrm = 4 ∧ rmField sib = 5 then 4 else 0
  | 1 => 1
  | 2 => 4
  | 3 => 0

/-- How many bytes name the operand, in a stream that starts with the ModRM byte. -/
def addressingSize (bytes : List (BitVec 8)) : ℕ :=
  1 + sibSize (bytes.headD 0) + dispSize (bytes.headD 0) (bytes.tail.headD 0)

theorem sibSize_le (modrm : BitVec 8) : sibSize modrm ≤ 1 := by
  unfold sibSize
  split <;> omega

theorem dispSize_cases (modrm sib : BitVec 8) :
    dispSize modrm sib = 0 ∨ dispSize modrm sib = 1 ∨ dispSize modrm sib = 4 := by
  unfold dispSize
  split
  · split <;> omega
  all_goals omega

theorem addressingSize_le (bytes : List (BitVec 8)) :
    1 ≤ addressingSize bytes ∧ addressingSize bytes ≤ 6 := by
  have hs := sibSize_le (bytes.headD 0)
  have hd := dispSize_cases (bytes.headD 0) (bytes.tail.headD 0)
  unfold addressingSize
  omega

/-- What the ModRM byte, the SIB byte and the displacement at the front of a stream say. -/
def ParsedModRM.ofBytes (bytes : List (BitVec 8)) : ParsedModRM :=
  let modrm := bytes.headD 0
  let sib := bytes.tail.headD 0
  let disp := bytes.drop (1 + sibSize modrm)
  { modrm := ModRM.parse modrm
    sib := if sibSize modrm = 1 then some (SIB.parse sib) else none
    disp := match dispSize modrm sib with
      | 0 => none
      | 1 => some ((disp.headD 0).signExtend 32)
      | _ => some (fromLeBytes 32 (disp.take 4))
    size := addressingSize bytes }

end Sizes

theorem sibSize_eq_one (modrm : BitVec 8) :
    sibSize modrm = 1 ↔ modField modrm ≠ 3 ∧ rmField modrm = 4 := by
  unfold sibSize
  split <;> simp [*]

theorem dispSize_eq_four (modrm sib : BitVec 8) :
    dispSize modrm sib = 4 ↔ modField modrm = 0 ∧ rmField modrm = 5 ∨ modField modrm = 2 ∨
      modField modrm = 0 ∧ sibSize modrm = 1 ∧ rmField sib = 5 := by
  rw [sibSize_eq_one]
  unfold dispSize
  generalize modField modrm = m
  match m with
  | 0 => simp [or_iff_not_imp_left]
  | 1 | 2 | 3 => simp

theorem dispSize_eq_one (modrm sib : BitVec 8) :
    dispSize modrm sib = 1 ↔ modField modrm = 1 := by
  unfold dispSize
  generalize modField modrm = m
  match m with
  | 0 =>
    simp only [Fin.zero_eq_one_iff, Nat.reduceEqDiff, iff_false]
    split <;> simp
  | 1 | 2 | 3 => simp

theorem withDisp_eq {modrm sib : BitVec 8} {s : Option SIB} (n : ℕ) (bytes : List (BitVec 8))
    (hs : s = if sibSize modrm = 1 then some (SIB.parse sib) else none) :
    ParsedModRM.withDisp { modrm := ModRM.parse modrm, sib := s, size := n } bytes =
      if dispSize modrm sib ≤ bytes.length then
        .ok { modrm := ModRM.parse modrm
              sib := s
              disp := match dispSize modrm sib with
                | 0 => none
                | 1 => some ((bytes.headD 0).signExtend 32)
                | _ => some (fromLeBytes 32 (bytes.take 4))
              size := n + dispSize modrm sib }
      else .err .decodingOverrun := by
  have hbase : (s.getD {}).base = 5 ↔ sibSize modrm = 1 ∧ rmField sib = 5 := by
    rw [hs, SIB.parse_eq]
    split
    · next h => simp [h]
    · next h => simp [h]
  have h₄ := dispSize_eq_four modrm sib
  have h₁ := dispSize_eq_one modrm sib
  simp only [ParsedModRM.withDisp, ModRM.parse_eq, hbase, ← h₄, ← h₁]
  obtain h | h | h := dispSize_cases modrm sib
  · simp [h]
  · cases bytes with
    | nil => simp [h, u8FromBytes]
    | cons b bytes => simp [h, u8FromBytes]
  · by_cases hl : 4 ≤ bytes.length
    · simp [h, u32FromBytes, hl, Nat.not_lt.mpr hl]
    · simp [h, u32FromBytes, hl, Nat.lt_of_not_le hl]

theorem fromBytes_eq {buffer : List (BitVec 8)} (h : 5 ≤ buffer.length) :
    ParsedModRM.fromBytes buffer =
      if 1 + addressingSize buffer.tail ≤ buffer.length then .ok (.ofBytes buffer.tail)
      else .err .decodingOverrun := by
  obtain ⟨opcode, modrm, sib, bytes, rfl⟩ :
      ∃ opcode modrm sib bytes, buffer = opcode :: modrm :: sib :: bytes := by
    match buffer, h with
    | opcode :: modrm :: sib :: bytes, _ => exact ⟨opcode, modrm, sib, bytes, rfl⟩
  have hcond : (ModRM.parse modrm).mode ≠ 3 ∧ (ModRM.parse modrm).rm = 4 ↔ sibSize modrm = 1 := by
    rw [sibSize_eq_one, ModRM.parse_eq]
  rw [ParsedModRM.fromBytes, if_neg (by omega)]
  simp only [slice, index_cons_zero, List.length_cons, Nat.le_add_left, if_true, ok_bind,
    List.drop_succ_cons, List.drop_zero, hcond, List.tail_cons]
  have hle := sibSize_le modrm
  split
  · next hsib =>
    rw [withDisp_eq 2 bytes (if_pos hsib).symm]
    simp only [ParsedModRM.ofBytes, addressingSize, List.headD_cons, List.tail_cons, hsib,
      List.drop_succ_cons, List.drop_zero, if_true]
    exact if_congr (by omega) rfl rfl
  · next hsib =>
    have h₀ : sibSize modrm = 0 := by omega
    rw [@withDisp_eq modrm sib none 1 (sib :: bytes) (if_neg hsib).symm]
    simp only [ParsedModRM.ofBytes, addressingSize, List.headD_cons, List.tail_cons, h₀,
      List.drop_succ_cons, List.drop_zero]
    exact if_congr (by rw [List.length_cons]; omega) rfl rfl

theorem dispSize_congr {modrm : BitVec 8} (h : sibSize modrm = 0) (sib sib' : BitVec 8) :
    dispSize modrm sib = dispSize modrm sib' := by
  unfold sibSize at h
  unfold dispSize
  split
  · next hm =>
    have h₄ : rmField modrm ≠ 4 := by
      intro h₄
      simp [hm, h₄] at h
    simp [h₄]
  all_goals rfl

theorem addressing_congr {l l' : List (BitVec 8)}
    (h : l'.take (addressingSize l) = l.take (addressingSize l)) :
    addressingSize l' = addressingSize l ∧ ParsedModRM.ofBytes l' = ParsedModRM.ofBytes l := by
  have hget : ∀ i < addressingSize l, l'[i]? = l[i]? := by
    intro i hi
    rw [← List.getElem?_take_of_lt hi, h, List.getElem?_take_of_lt hi]
  have hpos := (addressingSize_le l).1
  have hmodrm : l'.headD 0 = l.headD 0 := by
    rw [List.headD_eq_head?_getD, List.headD_eq_head?_getD, List.head?_eq_getElem?,
      List.head?_eq_getElem?, hget 0 hpos]
  have hsib : sibSize (l.headD 0) = 1 → l'.tail.headD 0 = l.tail.headD 0 := by
    intro hs
    have h₁ : 1 < addressingSize l := by
      unfold addressingSize
      omega
    rw [List.headD_eq_head?_getD, List.headD_eq_head?_getD, List.head?_tail, List.head?_tail,
      hget 1 h₁]
  have hdisp : dispSize (l.headD 0) (l'.tail.headD 0) = dispSize (l.headD 0) (l.tail.headD 0) := by
    by_cases hs : sibSize (l.headD 0) = 1
    · rw [hsib hs]
    · have hle := sibSize_le (l.headD 0)
      exact dispSize_congr (by omega) _ _
  have hsize : addressingSize l' = addressingSize l := by
    rw [addressingSize, hmodrm, hdisp, addressingSize]
  refine ⟨hsize, ?_⟩
  have hdrop : (l'.drop (1 + sibSize (l.headD 0))).take (dispSize (l.headD 0) (l.tail.headD 0)) =
      (l.drop (1 + sibSize (l.headD 0))).take (dispSize (l.headD 0) (l.tail.headD 0)) := by
    rw [List.take_drop, List.take_drop]
    change (l'.take (addressingSize l)).drop _ = (l.take (addressingSize l)).drop _
    rw [h]
  simp only [ParsedModRM.ofBytes, hmodrm, hdisp, hsize]
  congr 1
  · split
    · next hs => rw [hsib hs]
    · rfl
  · split
    · rfl
    · next hd =>
      rw [hd] at hdrop
      have hhead := congrArg List.head? hdrop
      simp only [List.head?_take, if_neg Nat.one_ne_zero] at hhead
      simp only [List.headD_eq_head?_getD] at hhead ⊢
      rw [hhead]
    · next h₀ h₁ =>
      obtain h₂ | h₂ | h₂ := dispSize_cases (l.headD 0) (l.tail.headD 0)
      · exact absurd h₂ h₀
      · exact absurd h₂ h₁
      rw [h₂] at hdrop
      rw [hdrop]

end Qx86
