import Qx86.Decode.Locality
import Qx86.Execute.Image

namespace Qx86

open Foundation Outcome Bytes PrefixesActivated

section Instruction

variable {vm vm' : VM} {eip eip' : BitVec 32} {window window' run rest rest' : List (BitVec 8)}
  {twoBytes : Bool} {opcode : BitVec 8} {writeable : Bool} {p : Pipeline} {f : Filled}

theorem Split.eipSize_eq (h : Split window run twoBytes opcode rest)
    (hw : vm.memory.getSizedMemory eip 16 = .ok window)
    (hf : fillSlot vm OPCODES writeable eip p = .ok f) :
    f.slot.eipSize.toNat = instructionSize run twoBytes opcode rest ∧
      instructionSize run twoBytes opcode rest ≤ 16 := by
  obtain ⟨hslot, htail⟩ := h.slot_eq hw hf
  have hlen := h.length
  rw [MemorySystem.getSizedMemory_length hw] at hlen
  have hle : instructionSize run twoBytes opcode rest ≤ 16 := by
    rw [instructionSize]
    change 16 = _ at hlen
    omega
  refine ⟨?_, hle⟩
  rw [hslot, slotOf, surcharge_eipSize]
  rw [instructionSize, tailSize] at hle ⊢
  by_cases hr : (prefixesOf run twoBytes).repMode ≠ .none
  · simp only [if_pos hr, repSlot] at hle ⊢
    rw [BitVec.toNat_add, BitVec.toNat_ofNat]
    change (_ + 1) % _ = _
    omega
  · simp only [if_neg hr, opcodeSlot] at hle ⊢
    rw [BitVec.toNat_add, BitVec.toNat_ofNat, BitVec.toNat_ofNat]
    omega

theorem Split.congr (h : Split window run twoBytes opcode rest) {k : ℕ}
    (heq : window'.take (prefixSize run twoBytes + 1 + k) =
      window.take (prefixSize run twoBytes + 1 + k)) :
    ∃ rest', Split window' run twoBytes opcode rest' ∧ rest'.take k = rest.take k := by
  have hhead : (run ++ (twoByteMarker twoBytes ++ [opcode])).length =
      prefixSize run twoBytes + 1 := by
    rw [prefixSize]
    cases twoBytes <;> simp [twoByteMarker]
  have hwin : window = (run ++ (twoByteMarker twoBytes ++ [opcode])) ++ rest := by
    rw [h.eq]
    simp
  have htake : window'.take (prefixSize run twoBytes + 1) =
      run ++ (twoByteMarker twoBytes ++ [opcode]) := by
    rw [take_congr_of_le heq (by omega), hwin, List.take_left' hhead]
  refine ⟨window'.drop (prefixSize run twoBytes + 1), ⟨?_, h.legacy, h.plain⟩, ?_⟩
  · conv_lhs => rw [← List.take_append_drop (prefixSize run twoBytes + 1) window', htake]
    simp
  · rw [take_drop_congr heq (by omega), hwin, List.drop_left' hhead]

theorem tailSize_congr
    (h : rest'.take (tailSize run twoBytes opcode rest) =
      rest.take (tailSize run twoBytes opcode rest)) :
    tailSize run twoBytes opcode rest' = tailSize run twoBytes opcode rest := by
  unfold tailSize at h ⊢
  by_cases hr : (prefixesOf run twoBytes).repMode ≠ .none
  · simp only [if_pos hr]
  · simp only [if_neg hr] at h ⊢
    exact OpcodeProperties.operandSize_congr h

theorem slotOf_congr (charger : GasCharger)
    (h : rest'.take (tailSize run twoBytes opcode rest) =
      rest.take (tailSize run twoBytes opcode rest)) :
    slotOf charger writeable p run twoBytes opcode rest' =
      slotOf charger writeable p run twoBytes opcode rest := by
  unfold tailSize at h
  unfold slotOf
  by_cases hr : (prefixesOf run twoBytes).repMode ≠ .none
  · simp only [if_pos hr]
  · simp only [if_neg hr] at h ⊢
    rw [OpcodeProperties.opcodeSlot_congr _ _ _ h]

theorem followSlot_ok (vm' : VM) (eip' : BitVec 32) {charger : GasCharger}
    {pre : PrefixesActivated} {n : ℕ} {buffer : List (BitVec 8)} {slot : Pipeline} {op : Opcode}
    (hd : DecodesTo charger pre n buffer op slot) {r : BitVec 32 × Bool}
    (h : followSlot vm eip slot op.pipelineBehavior = .ok r) :
    ∃ r', followSlot vm' eip' slot op.pipelineBehavior = .ok r' := by
  rw [hd.followSlot_congr vm vm'] at h
  cases hb : op.pipelineBehavior with
  | none | unpredictable | unpredictableNoGas => exact ⟨_, rfl⟩
  | relativeJump =>
    rw [hb] at h
    obtain ⟨rel, hrel, h⟩ := bind_eq_ok.mp h
    rw [followSlot, hrel, ok_bind]
    by_cases hso : slot.sizeOverride = true
    · simp only [if_pos hso] at h
      cases h
    · simp only [if_neg hso]
      exact ⟨_, rfl⟩

theorem decodeOpcode_congr {charger : GasCharger} {pre : PrefixesActivated} {n : ℕ}
    (htwo : pre.twoBytes = twoBytes) (hlen : rest'.length = rest.length)
    (ht : rest'.take ((entryOf twoBytes opcode).operandSize rest pre.sizeOverride) =
      rest.take ((entryOf twoBytes opcode).operandSize rest pre.sizeOverride))
    {d : Pipeline × PipelineBehavior}
    (hd : decodeOpcode charger OPCODES pre n (opcode :: rest) = .ok d) :
    decodeOpcode charger OPCODES pre n (opcode :: rest') = .ok d := by
  by_cases hi : tableIndex twoBytes opcode < OPCODE_TABLE_SIZE
  · rw [decodeOpcode_eq _ htwo _ hi] at hd ⊢
    rw [hlen]
    by_cases hl : rest.length < 5
    · rw [if_pos hl] at hd
      cases hd
    · rw [if_neg hl] at hd ⊢
      by_cases hfit : (entryOf twoBytes opcode).operandSize rest pre.sizeOverride ≤ rest.length
      · have hm : rest'.take ((entryOf twoBytes opcode).modrmSize rest) =
            rest.take ((entryOf twoBytes opcode).modrmSize rest) :=
          take_congr_of_le ht (by rw [OpcodeProperties.operandSize]; omega)
        rw [if_pos hfit] at hd
        rw [OpcodeProperties.operandSize_congr ht, if_pos hfit,
          OpcodeProperties.opcodeSlot_congr _ _ _ ht, (OpcodeProperties.selected_congr hm).2.1]
        exact hd
      · rw [if_neg hfit] at hd
        split at hd <;> cases hd
  · rw [decodeOpcode_unmapped _ htwo _ hi] at hd
    cases hd

theorem Split.fill_ok (h : Split window run twoBytes opcode rest)
    (h' : Split window' run twoBytes opcode rest')
    (hw : vm.memory.getSizedMemory eip 16 = .ok window)
    (hw' : vm'.memory.getSizedMemory eip' 16 = .ok window') (hc : vm'.charger = vm.charger)
    (ht : rest'.take (tailSize run twoBytes opcode rest) =
      rest.take (tailSize run twoBytes opcode rest))
    (hf : fillSlot vm OPCODES writeable eip p = .ok f) :
    ∃ f', fillSlot vm' OPCODES writeable eip' p = .ok f' := by
  have hlen : rest'.length = rest.length := by
    have hl := h.length
    have hl' := h'.length
    rw [MemorySystem.getSizedMemory_length hw] at hl
    rw [MemorySystem.getSizedMemory_length hw'] at hl'
    omega
  rw [h.fillSlot_eq hw] at hf
  rw [h'.fillSlot_eq hw']
  by_cases hr : (prefixesOf run twoBytes).repMode ≠ .none
  · simp only [if_pos hr]
    exact ⟨_, rfl⟩
  · rw [tailSize] at ht
    simp only [if_neg hr] at hf ht ⊢
    obtain ⟨⟨slot, behavior⟩, hd, hf⟩ := bind_eq_ok.mp hf
    obtain ⟨⟨next, stop⟩, hfollow, -⟩ := bind_eq_ok.mp hf
    have hd' := decodeOpcode_congr (prefixesOf_twoBytes run twoBytes) hlen ht hd
    obtain ⟨op, hto, rfl⟩ := decodeOpcode_eq_ok hd
    obtain ⟨r', hr'⟩ := followSlot_ok vm' eip' hto hfollow
    rw [hc, hd', ok_bind, hr', ok_bind]
    exact ⟨_, rfl⟩

theorem eipSize_congr {writeable' : Bool} {p' : Pipeline} {f' : Filled}
    (hw : vm.memory.getSizedMemory eip 16 = .ok window)
    (hw' : vm'.memory.getSizedMemory eip' 16 = .ok window')
    (hf : fillSlot vm OPCODES writeable eip p = .ok f)
    (hf' : fillSlot vm' OPCODES writeable' eip' p' = .ok f')
    (heq : window'.take f.slot.eipSize.toNat = window.take f.slot.eipSize.toNat) :
    f'.slot.eipSize.toNat = f.slot.eipSize.toNat := by
  obtain ⟨run, twoBytes, opcode, rest, h⟩ | h := split_or_unsplit window
  · obtain ⟨hsize, -⟩ := h.eipSize_eq hw hf
    rw [hsize, instructionSize] at heq
    obtain ⟨rest', h', ht⟩ := h.congr heq
    rw [(h'.eipSize_eq hw' hf').1, hsize, instructionSize, instructionSize, tailSize_congr ht]
  · rw [h.fillSlot_eq hw] at hf
    cases hf

end Instruction

/-- The encodings of instructions: the bytes of a window that a filled slot takes. -/
def Accepted (e : List (BitVec 8)) : Prop :=
  ∃ (vm : VM) (eip : BitVec 32) (window : List (BitVec 8)) (writeable : Bool) (p : Pipeline)
    (f : Filled), vm.memory.getSizedMemory eip 16 = .ok window ∧
      fillSlot vm OPCODES writeable eip p = .ok f ∧ e = window.take f.slot.eipSize.toNat

/-- A slot takes the bytes that the map gives its instruction and depends on no others, and
no encoding is the beginning of another. -/
theorem decoding_selfDelimiting {vm : VM} {eip : BitVec 32} {window : List (BitVec 8)}
    {writeable : Bool} {p : Pipeline} {f : Filled}
    (hw : vm.memory.getSizedMemory eip 16 = .ok window)
    (hf : fillSlot vm OPCODES writeable eip p = .ok f) :
    let n := f.slot.eipSize.toNat
    (1 ≤ n ∧ n ≤ 16) ∧
      (∃ run twoBytes opcode rest, Split window run twoBytes opcode rest ∧
        n = instructionSize run twoBytes opcode rest) ∧
      (∀ (vm' : VM) (eip' : BitVec 32) (window' : List (BitVec 8)),
        vm'.charger = vm.charger → vm'.memory.getSizedMemory eip' 16 = .ok window' →
        window'.take n = window.take n →
        ∃ f', fillSlot vm' OPCODES writeable eip' p = .ok f' ∧ f'.slot = f.slot) ∧
      ∀ e, Accepted e → window.take n <+: e → e = window.take n := by
  intro n
  obtain ⟨run, twoBytes, opcode, rest, h⟩ | h := split_or_unsplit window
  · obtain ⟨hsize, hle⟩ := h.eipSize_eq hw hf
    refine ⟨fillSlot_eipSize hf, ⟨run, twoBytes, opcode, rest, h, hsize⟩, ?_, ?_⟩
    · intro vm' eip' window' hc hw' heq
      rw [show n = _ from hsize, instructionSize] at heq
      obtain ⟨rest', h', ht⟩ := h.congr heq
      obtain ⟨f', hf'⟩ := h.fill_ok h' hw hw' hc ht hf
      refine ⟨f', hf', ?_⟩
      rw [(h'.slot_eq hw' hf').1, (h.slot_eq hw hf).1, hc, slotOf_congr vm.charger ht]
    · rintro e ⟨vm', eip', window', writeable', p', f', hw', hf', rfl⟩ hpre
      have hn : (window.take n).length = n := by
        rw [List.length_take, MemorySystem.getSizedMemory_length hw]
        exact Nat.min_eq_left (fillSlot_eipSize hf).2
      have hle' : n ≤ f'.slot.eipSize.toNat := by
        have hlen := hpre.length_le
        rw [hn, List.length_take] at hlen
        omega
      have heq : window'.take n = window.take n := by
        have htake := List.prefix_iff_eq_take.mp hpre
        rw [hn, List.take_take, Nat.min_eq_left hle'] at htake
        exact htake.symm
      rw [eipSize_congr hw hw' hf hf' heq]
      exact heq
  · rw [h.fillSlot_eq hw] at hf
    cases hf

def addEaxVm : VM := createVm ⟨[0x83, 0xC0, 0x05] ++ List.replicate 13 0x90, by decide⟩

/-- `add eax, 5` is an encoding of three bytes, and no other encoding begins with it. -/
theorem decoding_selfDelimiting_addEax :
    Accepted [0x83, 0xC0, 0x05] ∧
      ∀ e, Accepted e → [0x83, 0xC0, 0x05] <+: e → e = [0x83, 0xC0, 0x05] := by
  have hw : addEaxVm.memory.getSizedMemory CODE_MEM 16 =
      .ok ([0x83, 0xC0, 0x05] ++ List.replicate 13 0x90) := rfl
  obtain ⟨f, hf, hsize⟩ : ∃ f, fillSlot addEaxVm OPCODES false CODE_MEM default = .ok f ∧
      f.slot.eipSize = 3 := by
    have hany : (fillSlot addEaxVm OPCODES false CODE_MEM default).any
        (·.slot.eipSize == 3) = true := by
      decide +kernel
    obtain ⟨f, hf, hsize⟩ := any_eq_true.mp hany
    exact ⟨f, hf, beq_iff_eq.mp hsize⟩
  obtain ⟨-, -, -, hfree⟩ := decoding_selfDelimiting hw hf
  rw [hsize] at hfree
  exact ⟨⟨addEaxVm, CODE_MEM, _, false, default, f, hw, hf, by rw [hsize]; rfl⟩, hfree⟩

end Qx86
