import Qx86.Decode.Decoding

namespace Qx86

open Foundation Outcome

/-- The three arguments that `decodeArgsWithModrm` reads, one after the other. -/
structure ReadsArgs (opcode : Opcode) (sizeOverride : Bool) (modrm : ParsedModRM)
    (buffer : List (BitVec 8)) (args : Fin 3 → OpArgument) (size : ℕ) : Prop where
  length : 6 ≤ buffer.length
  reads : ∃ (byte : BitVec 8) (b₁ b₂ : List (BitVec 8)) (n₀ n₁ n₂ : ℕ),
    buffer[0]? = some byte ∧
    decodeArg (opcode.argSource 0) ((opcode.argSize 0).toFixed sizeOverride) modrm byte
      (buffer.drop (1 + modrm.size)) = .ok (args 0, n₀) ∧
    decodeArg (opcode.argSource 1) ((opcode.argSize 1).toFixed sizeOverride) modrm byte
      b₁ = .ok (args 1, n₁) ∧
    decodeArg (opcode.argSource 2) ((opcode.argSize 2).toFixed sizeOverride) modrm byte
      b₂ = .ok (args 2, n₂) ∧
    b₁ = buffer.drop (1 + modrm.size + n₀) ∧ b₂ = buffer.drop (1 + modrm.size + n₀ + n₁) ∧
    size = 1 + modrm.size + n₀ + n₁ + n₂
  size_le : size ≤ buffer.length

theorem decodeArgsWithModrm_eq_ok {opcode : Opcode} {buffer : List (BitVec 8)}
    {sizeOverride : Bool} {parsed : Option ParsedModRM} {args : Fin 3 → OpArgument} {size : ℕ}
    (h : decodeArgsWithModrm opcode buffer sizeOverride parsed = .ok (args, size)) :
    ReadsArgs opcode sizeOverride (parsed.getD {}) buffer args size := by
  unfold decodeArgsWithModrm at h
  split at h
  · cases h
  · next hl =>
    simp only [bind_eq_ok, slice_eq_ok, Prod.exists] at h
    obtain ⟨byte, hb, _, ⟨hs₁, rfl⟩, _, ⟨hs₂, rfl⟩, a₀, n₀, h₀, _, ⟨hs₃, rfl⟩, a₁, n₁, h₁, _,
      ⟨hs₄, rfl⟩, a₂, n₂, h₂, _, ⟨hs₅, rfl⟩, h⟩ := h
    cases h
    simp only [List.drop_drop, List.length_drop] at hs₂ hs₃ hs₄ hs₅ h₀ h₁ h₂
    exact ⟨by omega,
      ⟨byte, _, _, n₀, n₁, n₂, index_eq_ok.mp hb, h₀, h₁, h₂, rfl, rfl, rfl⟩, by omega⟩

theorem ReadsArgs.arg {opcode : Opcode} {sizeOverride : Bool} {modrm : ParsedModRM}
    {buffer : List (BitVec 8)} {args : Fin 3 → OpArgument} {size : ℕ}
    (h : ReadsArgs opcode sizeOverride modrm buffer args size) (n : Fin 3) :
    ∃ byte bytes k, buffer[0]? = some byte ∧
      decodeArg (opcode.argSource n) ((opcode.argSize n).toFixed sizeOverride) modrm byte
        bytes = .ok (args n, k) := by
  obtain ⟨byte, b₁, b₂, n₀, n₁, n₂, hb, h₀, h₁, h₂, -⟩ := h.reads
  match n with
  | 0 => exact ⟨byte, _, n₀, hb, h₀⟩
  | 1 => exact ⟨byte, _, n₁, hb, h₁⟩
  | 2 => exact ⟨byte, _, n₂, hb, h₂⟩

theorem ReadsArgs.one_le_size {opcode : Opcode} {sizeOverride : Bool} {modrm : ParsedModRM}
    {buffer : List (BitVec 8)} {args : Fin 3 → OpArgument} {size : ℕ}
    (h : ReadsArgs opcode sizeOverride modrm buffer args size) : 1 ≤ size := by
  obtain ⟨_, _, _, _, _, _, _, _, _, _, _, _, hs⟩ := h.reads
  omega

theorem decodeArg_jumpRel {size : ValueSize} {modrm : ParsedModRM} {byte : BitVec 8}
    {bytes : List (BitVec 8)} {arg : OpArgument} {n : ℕ}
    (h : decodeArg .jumpRel size modrm byte bytes = .ok (arg, n)) :
    ∃ v, arg = ⟨.immediate v, false⟩ := by
  obtain ⟨⟨v, k⟩, -, h⟩ := bind_eq_ok.mp h
  cases h
  exact ⟨v, rfl⟩

theorem decodeArg_jumpRel_extends {size : ValueSize} {modrm : ParsedModRM} {byte : BitVec 8}
    {bytes : List (BitVec 8)} {v : SizedValue} {isMemory : Bool} {n : ℕ}
    (h : decodeArg .jumpRel size modrm byte bytes = .ok (⟨.immediate v, isMemory⟩, n)) :
    ∃ rel, v.u32Sx = .ok rel := by
  obtain ⟨⟨v, k⟩, hv, h⟩ := bind_eq_ok.mp h
  cases h
  cases size with
  | none | qword =>
    cases hv
    exact ⟨_, rfl⟩
  | byte | word | dword =>
    obtain ⟨x, -, hv⟩ := bind_eq_ok.mp hv
    cases hv
    exact ⟨_, rfl⟩

theorem decodeArg_immediateValue {size : ValueSize} {modrm : ParsedModRM} {byte : BitVec 8}
    {bytes : List (BitVec 8)} {arg : OpArgument} {n : ℕ}
    (h : decodeArg .immediateValue size modrm byte bytes = .ok (arg, n)) :
    ∃ v, arg = ⟨.immediate v, false⟩ :=
  @decodeArg_jumpRel size modrm byte bytes arg n h

theorem decodeArg_none {size : ValueSize} {modrm : ParsedModRM} {byte : BitVec 8}
    {bytes : List (BitVec 8)} {arg : OpArgument} {n : ℕ}
    (h : decodeArg .none size modrm byte bytes = .ok (arg, n)) : arg = {} ∧ n = 0 := by
  cases h
  exact ⟨rfl, rfl⟩

end Qx86
