import Qx86.Decode.Encoding

namespace Qx86

open Foundation Outcome Bytes

theorem argOf_congr {source : ArgSource} {size : ValueSize} {bytes bytes' : List (BitVec 8)}
    (h : bytes'.take (source.encodedSize size) = bytes.take (source.encodedSize size))
    (modrm : ParsedModRM) (byte : BitVec 8) :
    argOf source size modrm byte bytes' = argOf source size modrm byte bytes := by
  have himm : bytes'.take size.bytes = bytes.take size.bytes →
      immediateOf bytes' size = immediateOf bytes size := by
    intro ht
    cases size with
    | none | qword => rfl
    | byte =>
      have hhead := congrArg List.head? ht
      simp only [ValueSize.bytes, List.head?_take, if_neg Nat.one_ne_zero] at hhead
      simp only [immediateOf, List.headD_eq_head?_getD, hhead]
    | word | dword =>
      rw [ValueSize.bytes] at ht
      simp only [immediateOf, ht]
  cases source with
  | none | modRM | modRMReg | registerSuffix | literal | hardcodedRegister => rfl
  | immediateAddress =>
    rw [ArgSource.encodedSize] at h
    simp only [argOf, h]
  | immediateValue | jumpRel =>
    rw [ArgSource.encodedSize] at h
    simp only [argOf, himm h]

theorem argsOf_congr {op : Opcode} {so : Bool} {bytes bytes' : List (BitVec 8)}
    (h : bytes'.take (op.immediateSize so) = bytes.take (op.immediateSize so))
    (modrm : ParsedModRM) (byte : BitVec 8) :
    op.argsOf so modrm byte bytes' = op.argsOf so modrm byte bytes := by
  have h₀ : bytes'.take (op.argBytes so 0) = bytes.take (op.argBytes so 0) :=
    take_congr_of_le h (by rw [Opcode.immediateSize]; omega)
  have h₁ : (bytes'.drop (op.argBytes so 0)).take (op.argBytes so 1) =
      (bytes.drop (op.argBytes so 0)).take (op.argBytes so 1) :=
    take_drop_congr h (by rw [Opcode.immediateSize]; omega)
  have h₂ : (bytes'.drop (op.argBytes so 0 + op.argBytes so 1)).take (op.argBytes so 2) =
      (bytes.drop (op.argBytes so 0 + op.argBytes so 1)).take (op.argBytes so 2) :=
    take_drop_congr h (by rw [Opcode.immediateSize])
  simp only [Opcode.argsOf, argOf_congr h₀, argOf_congr h₁, argOf_congr h₂]

namespace OpcodeProperties

variable {e : OpcodeProperties} {so : Bool} {bytes bytes' : List (BitVec 8)}

theorem selected_congr (h : bytes'.take (e.modrmSize bytes) = bytes.take (e.modrmSize bytes)) :
    e.modrmSize bytes' = e.modrmSize bytes ∧ e.selected bytes' = e.selected bytes ∧
      e.parsedModrm bytes' = e.parsedModrm bytes := by
  unfold modrmSize at h
  unfold modrmSize selected parsedModrm
  by_cases hm : e.hasModrm = true
  · simp only [if_pos hm] at h ⊢
    obtain ⟨hsize, hparsed⟩ := addressing_congr h
    have hreg : regField (bytes'.headD 0) = regField (bytes.headD 0) := by
      have hmodrm := congrArg ParsedModRM.modrm hparsed
      simp only [ParsedModRM.ofBytes, ModRM.parse_eq, ModRM.mk.injEq] at hmodrm
      exact hmodrm.2.1
    rw [hreg]
    exact ⟨hsize, rfl, by rw [hparsed]⟩
  · simp only [if_neg hm, and_self]

theorem operandSize_congr
    (h : bytes'.take (e.operandSize bytes so) = bytes.take (e.operandSize bytes so)) :
    e.operandSize bytes' so = e.operandSize bytes so := by
  have hm : bytes'.take (e.modrmSize bytes) = bytes.take (e.modrmSize bytes) :=
    take_congr_of_le h (by rw [operandSize]; omega)
  obtain ⟨hsize, hsel, -⟩ := selected_congr hm
  rw [operandSize, hsize, hsel, operandSize]

theorem opcodeSlot_congr (charger : GasCharger) (prefixSize : ℕ) (opcode : BitVec 8)
    (h : bytes'.take (e.operandSize bytes so) = bytes.take (e.operandSize bytes so)) :
    opcodeSlot charger e so prefixSize opcode bytes' =
      opcodeSlot charger e so prefixSize opcode bytes := by
  have hm : bytes'.take (e.modrmSize bytes) = bytes.take (e.modrmSize bytes) :=
    take_congr_of_le h (by rw [operandSize]; omega)
  obtain ⟨hsize, hsel, hparsed⟩ := selected_congr hm
  have himm : (bytes'.drop (e.modrmSize bytes)).take ((e.selected bytes).immediateSize so) =
      (bytes.drop (e.modrmSize bytes)).take ((e.selected bytes).immediateSize so) :=
    take_drop_congr h (by rw [operandSize])
  simp only [opcodeSlot, hsize, hsel, hparsed, argsOf_congr himm, operandSize_congr h]

theorem operandSize_take {n : ℕ}
    (h : e.operandSize bytes so ≤ n ∨ e.operandSize (bytes.take n) so ≤ n) :
    e.operandSize (bytes.take n) so = e.operandSize bytes so := by
  obtain h | h := h
  · apply operandSize_congr
    rw [List.take_take, Nat.min_eq_left h]
  · refine (operandSize_congr ?_).symm
    rw [List.take_take, Nat.min_eq_left h]

theorem selected_take {n : ℕ}
    (h : e.modrmSize bytes ≤ n ∨ e.modrmSize (bytes.take n) ≤ n) :
    e.modrmSize (bytes.take n) = e.modrmSize bytes ∧
      e.selected (bytes.take n) = e.selected bytes := by
  obtain h | h := h
  · have htake : (bytes.take n).take (e.modrmSize bytes) = bytes.take (e.modrmSize bytes) := by
      rw [List.take_take, Nat.min_eq_left h]
    obtain ⟨hsize, hsel, -⟩ := selected_congr htake
    exact ⟨hsize, hsel⟩
  · have htake : bytes.take (e.modrmSize (bytes.take n)) =
        (bytes.take n).take (e.modrmSize (bytes.take n)) := by
      rw [List.take_take, Nat.min_eq_left h]
    obtain ⟨hsize, hsel, -⟩ := selected_congr htake
    exact ⟨hsize.symm, hsel.symm⟩

end OpcodeProperties

end Qx86
