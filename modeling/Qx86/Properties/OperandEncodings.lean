import Qx86.Properties.OperandAddresses

namespace Qx86

open Foundation Outcome Bytes

section Fields

def fieldsByte (mode : Fin 4) (reg rm : Fin 8) : BitVec 8 :=
  BitVec.ofNat 8 (64 * mode.val + 8 * reg.val + rm.val)

variable (mode : Fin 4) (reg rm : Fin 8)

@[simp] theorem modField_fieldsByte : modField (fieldsByte mode reg rm) = mode := by
  decide +revert

@[simp] theorem regField_fieldsByte : regField (fieldsByte mode reg rm) = reg := by
  decide +revert

@[simp] theorem rmField_fieldsByte : rmField (fieldsByte mode reg rm) = rm := by
  decide +revert

end Fields

section Displacements

def fitsByte (d : BitVec 32) : Prop := (d.setWidth 8).signExtend 32 = d

instance decidable_fitsByte (d : BitVec 32) : Decidable (fitsByte d) :=
  inferInstanceAs (Decidable (_ = _))

/-- The `mod` of the shortest displacement from a base. EBP has no form without one. -/
def dispMode (base : Register) (d : BitVec 32) : Fin 4 :=
  if d = 0 ∧ base ≠ 5 then 0 else if fitsByte d then 1 else 2

theorem dispMode_zero {base : Register} {d : BitVec 32} (h : dispMode base d = 0) : base ≠ 5 := by
  unfold dispMode at h
  split at h
  · next h₀ => exact h₀.2
  · split at h <;> cases h

def dispLength : Fin 4 → ℕ
  | 1 => 1
  | 2 => 4
  | _ => 0

theorem dispMode_ne_three (base : Register) (d : BitVec 32) : dispMode base d ≠ 3 := by
  unfold dispMode
  split
  · decide
  · split <;> decide

def readDisp (n : ℕ) (bytes : List (BitVec 8)) : BitVec 32 :=
  match n with
  | 0 => 0
  | 1 => (bytes.headD 0).signExtend 32
  | _ => fromLeBytes 32 (bytes.take 4)

theorem displacement_eq (bytes : List (BitVec 8)) : displacement bytes =
    readDisp (dispSize (bytes.headD 0) (bytes.tail.headD 0))
      (bytes.drop (1 + sibSize (bytes.headD 0))) := rfl

theorem readDisp_four (d : BitVec 32) (rest : List (BitVec 8)) :
    readDisp 4 (leBytes 4 d ++ rest) = d := by
  have htake : (leBytes 4 d ++ rest).take 4 = leBytes 4 d := List.take_left' (leBytes_length 4 d)
  simp only [readDisp, htake]
  exact fromLeBytes_leBytes 4 d rfl

theorem readDisp_dispMode (base : Register) (d : BitVec 32) (rest : List (BitVec 8)) :
    readDisp (dispLength (dispMode base d)) (leBytes (dispLength (dispMode base d)) d ++ rest) =
      d := by
  unfold dispMode
  by_cases h₀ : d = 0 ∧ base ≠ 5
  · rw [if_pos h₀]
    exact h₀.1.symm
  rw [if_neg h₀]
  by_cases hf : fitsByte d
  · rw [if_pos hf]
    change ((leBytes 1 d ++ rest).headD 0).signExtend 32 = d
    have hhead : (leBytes 1 d ++ rest).headD 0 = d.setWidth 8 := by
      simp [leBytes, BitVec.setWidth_eq_extractLsb']
    rw [hhead]
    exact hf
  · rw [if_neg hf]
    exact readDisp_four d rest

end Displacements

namespace RmOperand

/-- ESP is no index. -/
def Encodable : RmOperand → Prop
  | .memory _ (some (index, _)) _ => index ≠ 4
  | _ => True

/-- The shortest bytes that name an operand, with the other register of the ModRM byte. -/
def encode (reg : Fin 8) : RmOperand → List (BitVec 8)
  | .register r => [fieldsByte 3 reg r]
  | .memory none none d => fieldsByte 0 reg 5 :: leBytes 4 d
  | .memory none (some (index, scale)) d =>
    fieldsByte 0 reg 4 :: fieldsByte scale index 5 :: leBytes 4 d
  | .memory (some base) none d =>
    let mode := dispMode base d
    if base = 4 then
      fieldsByte mode reg 4 :: fieldsByte 0 4 base :: leBytes (dispLength mode) d
    else fieldsByte mode reg base :: leBytes (dispLength mode) d
  | .memory (some base) (some (index, scale)) d =>
    let mode := dispMode base d
    fieldsByte mode reg 4 :: fieldsByte scale index base :: leBytes (dispLength mode) d

section Reading

variable {reg rm : Fin 8} {base : Register} {d : BitVec 32} {sib : BitVec 8}

theorem sibSize_of_rm {mode : Fin 4} (hm : mode ≠ 3) : sibSize (fieldsByte mode reg 4) = 1 := by
  simp [sibSize_eq_one, hm]

theorem sibSize_of_ne {mode : Fin 4} (hrm : mode = 3 ∨ rm ≠ 4) :
    sibSize (fieldsByte mode reg rm) = 0 := by
  unfold sibSize
  rw [if_neg (by simpa [imp_iff_not_or] using hrm)]

theorem dispSize_dispMode (h : rm = base ∧ base ≠ 4 ∨ rm = 4 ∧ rmField sib = base) :
    dispSize (fieldsByte (dispMode base d) reg rm) sib = dispLength (dispMode base d) := by
  unfold dispSize dispMode
  rw [modField_fieldsByte, rmField_fieldsByte]
  by_cases h₀ : d = 0 ∧ base ≠ 5
  · rw [if_pos h₀]
    obtain ⟨rfl, h₄⟩ | ⟨rfl, hb⟩ := h
    · exact if_neg fun h ↦ h.elim h₀.2 fun h ↦ h₄ h.1
    · exact if_neg fun h ↦ h.elim (by decide) fun h ↦ h₀.2 (hb ▸ h.2)
  · rw [if_neg h₀]
    by_cases hf : fitsByte d
    · rw [if_pos hf]
      rfl
    · rw [if_neg hf]
      rfl

theorem ofBytes_encode (reg : Fin 8) {o : RmOperand} (ho : o.Encodable)
    (rest : List (BitVec 8)) :
    RmOperand.ofBytes (o.encode reg ++ rest) = o ∧
      addressingSize (o.encode reg ++ rest) = (o.encode reg).length ∧
      regField ((o.encode reg ++ rest).headD 0) = reg := by
  cases o with
  | register r =>
    simp [encode, RmOperand.ofBytes, addressingSize, sibSize, dispSize]
  | memory base index d =>
    cases base with
    | none =>
      cases index with
      | none =>
        have hs : sibSize (fieldsByte 0 reg 5) = 0 := sibSize_of_ne (.inr (by decide))
        have hd : ∀ sib, dispSize (fieldsByte 0 reg 5) sib = 4 := fun sib ↦ by simp [dispSize]
        simp [encode, RmOperand.ofBytes, addressingSize, displacement_eq, hs, hd, readDisp_four]
      | some index =>
        obtain ⟨index, scale⟩ := index
        have hs : sibSize (fieldsByte 0 reg 4) = 1 := sibSize_of_rm (by decide)
        have hd : dispSize (fieldsByte 0 reg 4) (fieldsByte scale index 5) = 4 := by
          simp [dispSize]
        have hi : index ≠ 4 := ho
        simp [encode, RmOperand.ofBytes, addressingSize, displacement_eq, hs, hd, readDisp_four, hi]
    | some base =>
      have h₃ := dispMode_ne_three base d
      have h₀ : ¬(dispMode base d = 0 ∧ base = 5) := fun h ↦ dispMode_zero h.1 h.2
      have hsib : sibSize (fieldsByte (dispMode base d) reg 4) = 1 := sibSize_of_rm h₃
      cases index with
      | some index =>
        obtain ⟨index, scale⟩ := index
        have hi : index ≠ 4 := ho
        have hd : dispSize (fieldsByte (dispMode base d) reg 4) (fieldsByte scale index base) =
            dispLength (dispMode base d) := dispSize_dispMode (.inr ⟨rfl, by simp⟩)
        simp [encode, RmOperand.ofBytes, addressingSize, displacement_eq, hsib, hd,
          readDisp_dispMode, hi, h₃, h₀]
        omega
      | none =>
        by_cases h₄ : base = 4
        · subst h₄
          have hd : dispSize (fieldsByte (dispMode 4 d) reg 4) (fieldsByte 0 4 4) =
              dispLength (dispMode 4 d) := dispSize_dispMode (.inr ⟨rfl, by simp⟩)
          simp [encode, RmOperand.ofBytes, addressingSize, displacement_eq, hsib, hd,
            readDisp_dispMode, h₃]
          omega
        · have hs : sibSize (fieldsByte (dispMode base d) reg base) = 0 := sibSize_of_ne (.inr h₄)
          have hd : ∀ sib, dispSize (fieldsByte (dispMode base d) reg base) sib =
              dispLength (dispMode base d) := fun sib ↦ dispSize_dispMode (.inl ⟨rfl, h₄⟩)
          simp [encode, RmOperand.ofBytes, addressingSize, displacement_eq, hs, hd,
            readDisp_dispMode, h₃, h₀, h₄]
          omega

end Reading

section Shortest

theorem fitsByte_signExtend (b : BitVec 8) : fitsByte (b.signExtend 32) := by
  unfold fitsByte
  decide +revert

theorem dispLength_le {n : ℕ} (hn : n = 0 ∨ n = 1 ∨ n = 4) {base : Register} (h : n = 0 → base ≠ 5)
    (bytes : List (BitVec 8)) : dispLength (dispMode base (readDisp n bytes)) ≤ n := by
  have hle : ∀ d, dispLength (dispMode base d) ≤ 4 := by
    intro d
    unfold dispLength
    split <;> omega
  obtain rfl | rfl | rfl := hn
  · simp [readDisp, dispMode, h rfl, dispLength]
  · unfold dispMode
    split
    · exact Nat.zero_le _
    · rw [if_pos (show fitsByte (readDisp 1 bytes) from fitsByte_signExtend _)]
      exact Nat.le_refl _
  · exact hle _

theorem dispSize_ne_zero {modrm sib : BitVec 8} (h₃ : modField modrm ≠ 3)
    (h : rmField modrm = 5 ∨ rmField modrm = 4 ∧ rmField sib = 5) : dispSize modrm sib ≠ 0 := by
  unfold dispSize
  generalize modField modrm = mode at h₃ ⊢
  match mode with
  | 0 => simp [h]
  | 1 | 2 => exact Nat.succ_ne_zero _
  | 3 => exact absurd rfl h₃

theorem encodable_ofBytes (bytes : List (BitVec 8)) : (RmOperand.ofBytes bytes).Encodable := by
  simp only [RmOperand.ofBytes]
  split
  · trivial
  · split
    · by_cases hi : regField (bytes.tail.headD 0) = 4
      · simp only [if_pos hi]
        trivial
      · simp only [if_neg hi]
        exact hi
    · split <;> trivial

theorem encode_length_le (reg : Fin 8) (bytes : List (BitVec 8)) :
    ((RmOperand.ofBytes bytes).encode reg).length ≤ addressingSize bytes := by
  simp only [RmOperand.ofBytes, addressingSize, displacement_eq]
  generalize bytes.headD 0 = modrm
  generalize bytes.tail.headD 0 = sib
  generalize bytes.drop (1 + sibSize modrm) = rest
  have hle : ∀ base, (dispSize modrm sib = 0 → base ≠ 5) →
      dispLength (dispMode base (readDisp (dispSize modrm sib) rest)) ≤ dispSize modrm sib :=
    fun base h ↦ dispLength_le (dispSize_cases modrm sib) h rest
  by_cases h₃ : modField modrm = 3
  · simp [h₃, encode]
    omega
  have hpos := @dispSize_ne_zero modrm sib h₃
  by_cases h₄ : rmField modrm = 4
  · have hs : sibSize modrm = 1 := (sibSize_eq_one _).mpr ⟨h₃, h₄⟩
    by_cases h₅ : modField modrm = 0 ∧ rmField sib = 5
    · have hd : dispSize modrm sib = 4 := by simp [dispSize, h₅.1, h₄, h₅.2]
      simp only [if_neg h₃, if_pos h₄, if_pos h₅, hs, hd]
      split <;> simp [encode]
    · have hlen := hle (rmField sib) fun hz h ↦ hpos (.inr ⟨h₄, h⟩) hz
      simp only [if_neg h₃, if_pos h₄, if_neg h₅, hs]
      split
      · simp only [encode]
        split <;> simp <;> omega
      · simp [encode]
        omega
  · have hs : sibSize modrm = 0 := by
      unfold sibSize
      exact if_neg fun h ↦ h₄ h.2
    by_cases h₅ : modField modrm = 0 ∧ rmField modrm = 5
    · have hd : dispSize modrm sib = 4 := by simp [dispSize, h₅.1, h₅.2]
      simp [h₅, hs, hd, encode]
    · have hlen := hle (rmField modrm) fun hz h ↦ hpos (.inl h) hz
      simp only [if_neg h₃, if_neg h₄, if_neg h₅, hs, encode]
      simp
      omega

end Shortest

end RmOperand

/-- Every operand of the 32-bit addressing tables has an encoding that the decoder reads back,
whatever follows it; these are all operands that the decoder can yield, and none of them is
read from fewer bytes. -/
theorem operand_encodings (s : ValueSize) :
    (∀ (opcode : BitVec 8) (reg : Fin 8) (o : RmOperand) (rest : List (BitVec 8)), o.Encodable →
      5 ≤ (opcode :: (o.encode reg ++ rest)).length →
      ∃ p, ParsedModRM.fromBytes (opcode :: (o.encode reg ++ rest)) = .ok p ∧
        p.size = (o.encode reg).length ∧ p.modrm.reg = reg ∧
        let arg := p.modrm.decode (p.sib.getD {}) (p.disp.getD 0) s
        arg.location.Denotes s o ∧ arg.isMemory = o.isMemory) ∧
    ∀ buffer p, ParsedModRM.fromBytes buffer = .ok p →
      ∃ o : RmOperand, o.Encodable ∧ (o.encode p.modrm.reg).length ≤ p.size ∧
        let arg := p.modrm.decode (p.sib.getD {}) (p.disp.getD 0) s
        arg.location.Denotes s o ∧ arg.isMemory = o.isMemory := by
  constructor
  · intro opcode reg o rest ho hlen
    obtain ⟨hof, hsize, hreg⟩ := RmOperand.ofBytes_encode reg ho rest
    have hfits : 1 + addressingSize (o.encode reg ++ rest) ≤
        (opcode :: (o.encode reg ++ rest)).length := by
      rw [hsize, List.length_cons, List.length_append]
      omega
    have hdec := decode_denotes (o.encode reg ++ rest) s
    rw [hof] at hdec
    refine ⟨.ofBytes (o.encode reg ++ rest), (fromBytes_eq hlen).trans (if_pos hfits), hsize, ?_,
      hdec⟩
    exact (congrArg ModRM.reg (ModRM.parse_eq _)).trans hreg
  · intro buffer p hp
    have hlen : 5 ≤ buffer.length := by
      by_contra hlt
      rw [ParsedModRM.fromBytes, if_pos (by omega)] at hp
      cases hp
    rw [fromBytes_eq hlen] at hp
    split at hp
    · cases hp
      exact ⟨.ofBytes buffer.tail, RmOperand.encodable_ofBytes _,
        RmOperand.encode_length_le _ buffer.tail, decode_denotes buffer.tail s⟩
    · cases hp

/-- `[ebp + ecx * 4 - 8]` with EAX, and a byte after it. -/
theorem operand_encodings_sib :
    ∃ p, ParsedModRM.fromBytes [0x8B, 0x44, 0x8D, 0xF8, 0x90] = .ok p ∧ p.size = 3 ∧
      p.modrm.reg = 0 ∧
      let arg := p.modrm.decode (p.sib.getD {}) (p.disp.getD 0) .dword
      arg.location.Denotes .dword (.memory (some .ebp) (some (.ecx, 2)) (-8)) ∧
        arg.isMemory = true :=
  (operand_encodings .dword).1 0x8B 0 (.memory (some .ebp) (some (.ecx, 2)) (-8)) [0x90]
    (show (1 : Fin 8) ≠ 4 by decide) (by decide)

end Qx86
