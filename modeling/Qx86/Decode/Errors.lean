import Qx86.Decode.Encoding
import Qx86.Machine.Commands

namespace Qx86

open Foundation Outcome Op

def VMError.isDecoding (x : VMError) : Bool := x.isMemory || x.isWidth || x == .decodingOverrun

variable {vm : VM} {writeable : Bool} {eip : BitVec 32} {x : VMError}

theorem decodeOpcode_err {charger : GasCharger} {pre : PrefixesActivated} {n : ℕ}
    {buffer : List (BitVec 8)} (h : decodeOpcode charger OPCODES pre n buffer = .err x) :
    x = .decodingOverrun := by
  cases buffer with
  | nil => cases h
  | cons opcode bytes =>
    by_cases hi : tableIndex pre.twoBytes opcode < OPCODE_TABLE_SIZE
    · rw [decodeOpcode_eq charger rfl n hi] at h
      split at h
      · cases h
        rfl
      split at h
      · cases h
      split at h
      · cases h
      · cases h
        rfl
    · rw [decodeOpcode_unmapped charger rfl n hi] at h
      cases h

theorem followSlot_err {charger : GasCharger} {pre : PrefixesActivated} {n : ℕ}
    {buffer : List (BitVec 8)} {opcode : Opcode} {slot : Pipeline}
    (hd : DecodesTo charger pre n buffer opcode slot)
    (h : followSlot vm eip slot opcode.pipelineBehavior = .err x) : x.isDecoding = true := by
  obtain ⟨-, f, hf⟩ | ⟨-, a, hf⟩ := hd.followSlot_ok_or vm eip
  · cases hf.symm.trans h
  · cases hf.symm.trans h
    rfl

theorem getPrefixes_ne_err (pre : PrefixesActivated) (buffer : List (BitVec 8)) (n : ℕ) :
    PrefixesActivated.getPrefixes pre buffer n ≠ .err x := by
  intro h
  induction buffer generalizing pre n with
  | nil => cases h
  | cons b bytes ih =>
    unfold PrefixesActivated.getPrefixes at h
    split at h
    · exact ih _ _ h
    split at h
    · cases h
    split at h
    · cases h
    split at h
    · exact ih _ _ h
    split at h
    · exact ih _ _ h
    · cases h

theorem fillSlot_err {p : Pipeline} (h : fillSlot vm OPCODES writeable eip p = .err x) :
    x.isDecoding = true := by
  obtain h | ⟨window, -, h⟩ := bind_eq_err.mp h
  · simp only [VMError.isDecoding, getSizedMemory_error (ofExcept_eq_err.mp h), Bool.true_or]
  obtain h | ⟨⟨pre, n⟩, -, h⟩ := bind_eq_err.mp h
  · exact absurd h (getPrefixes_ne_err _ _ _)
  obtain h | ⟨buffer, -, h⟩ := bind_eq_err.mp h
  · unfold slice at h
    split at h <;> cases h
  dsimp only at h
  split at h
  · obtain h | ⟨slot, -, h⟩ := bind_eq_err.mp h
    · obtain h | ⟨opcode, -, h⟩ := bind_eq_err.mp h
      · unfold index at h
        split at h <;> cases h
      · cases h
    · cases h
  · obtain h | ⟨⟨slot, behavior⟩, hd, h⟩ := bind_eq_err.mp h
    · rw [decodeOpcode_err h]
      rfl
    · obtain ⟨opcode, hto, rfl⟩ := decodeOpcode_eq_ok hd
      obtain h | ⟨⟨next, stop⟩, -, h⟩ := bind_eq_err.mp h
      · exact followSlot_err hto h
      · cases h

end Qx86
