import Qx86.Decode.Locality
import Qx86.Execute.Image

namespace Qx86

open Foundation Outcome Bytes PrefixesActivated

section Decoding

variable (charger : GasCharger)

/-- The bytes at an address up to the opcode byte and what follows it, decoded. -/
def decodeWindow (window : List (BitVec 8)) : Outcome VMError (Pipeline × PipelineBehavior) := do
  let (pre, prefixSize) ← getPrefixes {} window 0
  let buffer ← slice window prefixSize
  decodeOpcode charger OPCODES pre prefixSize buffer

theorem Split.decodeWindow_eq {window run : List (BitVec 8)} {twoBytes : Bool}
    {opcode : BitVec 8} {rest : List (BitVec 8)} (h : Split window run twoBytes opcode rest) :
    decodeWindow charger window = decodeOpcode charger OPCODES (prefixesOf run twoBytes)
      (prefixSize run twoBytes) (opcode :: rest) := by
  have hn : prefixSize run twoBytes ≤ window.length := by
    rw [h.length]
    omega
  rw [decodeWindow, h.getPrefixes, ok_bind]
  change slice window (prefixSize run twoBytes) >>= _ = _
  rw [slice_of_le hn, ok_bind, h.drop]
  rfl

theorem Unsplit.decodeWindow_eq {window : List (BitVec 8)} (h : Unsplit window) :
    decodeWindow charger window = .panic := by
  obtain ⟨pre, hp⟩ | hp := h.getPrefixes
  · rw [decodeWindow, hp, ok_bind]
    change slice window window.length >>= _ = _
    rw [slice_of_le le_rfl, ok_bind, List.drop_length]
    rfl
  · rw [decodeWindow, hp]
    rfl

theorem decodeWindow_eq_ok {window : List (BitVec 8)} {slot : Pipeline}
    {behavior : PipelineBehavior} (h : decodeWindow charger window = .ok (slot, behavior)) :
    ∃ pre n buffer op, DecodesTo charger pre n buffer op slot ∧ behavior = op.pipelineBehavior := by
  obtain ⟨⟨pre, n⟩, -, h⟩ := bind_eq_ok.mp h
  obtain ⟨buffer, -, h⟩ := bind_eq_ok.mp h
  obtain ⟨op, hd, rfl⟩ := decodeOpcode_eq_ok h
  exact ⟨pre, n, buffer, op, hd, rfl⟩

end Decoding

/-- The complete encoding of an entry of the map behind a run of operand-size prefixes. -/
structure Encoding where
  overrides : ℕ
  twoBytes : Bool
  opcode : BitVec 8
  operands : List (BitVec 8)
  plain : twoBytes = false → legacyPrefix opcode = false ∧ opcode ≠ 0x0F ∧ opcode ≠ 0x67
  mapped : tableIndex twoBytes opcode < OPCODE_TABLE_SIZE
  complete : (entryOf twoBytes opcode).operandSize operands (decide (0 < overrides)) =
    operands.length

namespace Encoding

variable (e : Encoding)

def run : List (BitVec 8) := List.replicate e.overrides 0x66

def bytes : List (BitVec 8) := e.run ++ (twoByteMarker e.twoBytes ++ e.opcode :: e.operands)

def entry : OpcodeProperties := entryOf e.twoBytes e.opcode

def sizeOverride : Bool := decide (0 < e.overrides)

def prefixSize : ℕ := Qx86.prefixSize e.run e.twoBytes

def immediateSize : ℕ := (e.entry.selected e.operands).immediateSize e.sizeOverride

theorem bytes_length : e.bytes.length = e.prefixSize + 1 + e.operands.length := by
  rw [bytes, prefixSize, Qx86.prefixSize]
  cases e.twoBytes <;> simp [twoByteMarker] <;> omega

theorem modrmSize_add : e.entry.modrmSize e.operands + e.immediateSize = e.operands.length :=
  e.complete

theorem prefixesOf_run : prefixesOf e.run e.twoBytes =
    { sizeOverride := e.sizeOverride, twoBytes := e.twoBytes, repMode := .none } := by
  have hfold : ∀ n (pre : PrefixesActivated),
      (List.replicate n 0x66).foldl PrefixesActivated.push pre =
        { pre with sizeOverride := pre.sizeOverride || decide (0 < n) } := by
    intro n
    induction n with
    | zero => simp
    | succ n ih =>
      intro pre
      rw [List.replicate_succ, List.foldl_cons, ih, PrefixesActivated.push, if_pos rfl]
      simp
  rw [prefixesOf, run, hfold]
  simp [sizeOverride]

variable {e} {after window : List (BitVec 8)}

section Rest

variable {rest : List (BitVec 8)} (hr : rest = (e.operands ++ after).take rest.length)

include hr

theorem rest_of_fits (charger : GasCharger) (h : e.operands.length ≤ rest.length) :
    e.entry.operandSize rest e.sizeOverride = e.operands.length ∧
      e.entry.selected rest = e.entry.selected e.operands ∧
      opcodeSlot charger e.entry e.sizeOverride e.prefixSize e.opcode rest =
        opcodeSlot charger e.entry e.sizeOverride e.prefixSize e.opcode e.operands := by
  have hop : e.entry.operandSize e.operands e.sizeOverride = e.operands.length := e.complete
  have hmodrm := e.modrmSize_add
  have hagree : ∀ k, k ≤ e.operands.length → rest.take k = e.operands.take k := by
    intro k hk
    rw [hr, List.take_take, Nat.min_eq_left (by omega), List.take_append_of_le_length hk]
  obtain ⟨-, hsel, -⟩ := OpcodeProperties.selected_congr (e := e.entry)
    (hagree (e.entry.modrmSize e.operands) (by omega))
  exact ⟨(OpcodeProperties.operandSize_congr (hagree _ hop.le)).trans hop, hsel,
    OpcodeProperties.opcodeSlot_congr charger e.prefixSize e.opcode (hagree _ hop.le)⟩

theorem rest_of_overruns (h : rest.length < e.operands.length) :
    ¬e.entry.operandSize rest e.sizeOverride ≤ rest.length ∧
      ((e.entry.selected rest).immediateSize e.sizeOverride = 1 ∧
        e.entry.modrmSize rest ≤ rest.length ↔
          e.immediateSize = 1 ∧ e.operands.length = rest.length + 1) := by
  have hop : e.entry.operandSize e.operands e.sizeOverride = e.operands.length := e.complete
  have hmodrm := e.modrmSize_add
  have happend : ∀ k, k ≤ e.operands.length →
      (e.operands ++ after).take k = e.operands.take k := fun k hk ↦
    List.take_append_of_le_length hk
  have hsize : e.entry.operandSize (e.operands ++ after) e.sizeOverride = e.operands.length :=
    (OpcodeProperties.operandSize_congr (happend _ hop.le)).trans hop
  obtain ⟨hmod, hsel, -⟩ := OpcodeProperties.selected_congr (e := e.entry)
    (happend (e.entry.modrmSize e.operands) (by omega))
  have htake : e.entry.modrmSize (e.operands ++ after) ≤ rest.length ∨
      e.entry.modrmSize rest ≤ rest.length →
        e.entry.modrmSize rest = e.entry.modrmSize (e.operands ++ after) ∧
          e.entry.selected rest = e.entry.selected (e.operands ++ after) := by
    intro hle
    have hsame := OpcodeProperties.selected_take (e := e.entry) (n := rest.length)
      (hle.imp_right fun h ↦ by rw [← hr]; exact h)
    rwa [← hr] at hsame
  constructor
  · intro hle
    have hrop : e.entry.operandSize rest e.sizeOverride =
        e.entry.operandSize (e.operands ++ after) e.sizeOverride := by
      nth_rewrite 1 [hr]
      exact OpcodeProperties.operandSize_take (.inr (by rw [← hr]; exact hle))
    rw [hsize] at hrop
    omega
  · constructor
    · rintro ⟨himm, hle⟩
      obtain ⟨hrmod, hrsel⟩ := htake (.inr hle)
      have himm' : e.immediateSize = 1 := by
        rw [immediateSize, ← hsel, ← hrsel]
        exact himm
      omega
    · rintro ⟨himm, hlast⟩
      obtain ⟨hrmod, hrsel⟩ := htake (.inl (by omega))
      rw [hrsel, hsel, hrmod, hmod]
      exact ⟨himm, by omega⟩

end Rest

section Window

variable (hw : window = (e.bytes ++ after).take 16)

include hw

theorem split (hp : e.prefixSize ≤ 15) : Split window e.run e.twoBytes e.opcode
    ((e.operands ++ after).take (15 - e.prefixSize)) := by
  refine ⟨?_, ?_, e.plain⟩
  · have hhead : (e.run ++ (twoByteMarker e.twoBytes ++ [e.opcode])).length =
        e.prefixSize + 1 := by
      rw [prefixSize, Qx86.prefixSize]
      cases e.twoBytes <;> simp [twoByteMarker]
    have hbytes : e.bytes ++ after =
        (e.run ++ (twoByteMarker e.twoBytes ++ [e.opcode])) ++ (e.operands ++ after) := by
      simp [bytes]
    have hsub : 16 - (e.prefixSize + 1) = 15 - e.prefixSize := by omega
    rw [hw, hbytes, List.take_append, hhead, hsub, List.take_of_length_le (by omega)]
    simp
  · intro b hb
    rw [List.eq_of_mem_replicate hb]
    rfl

theorem unsplit (hp : 15 < e.prefixSize) : Unsplit window := by
  have hrun : ∀ n, ∀ b ∈ List.replicate n (0x66 : BitVec 8), legacyPrefix b = true := by
    intro n b hb
    rw [List.eq_of_mem_replicate hb]
    rfl
  have hlen : e.overrides + e.twoBytes.toNat = e.prefixSize := by
    rw [prefixSize, Qx86.prefixSize, run, List.length_replicate]
  have hbool := e.twoBytes.toNat_le
  by_cases hk : 16 ≤ e.overrides
  · refine ⟨List.replicate 16 0x66, hrun 16, .inl ?_⟩
    rw [hw, bytes, run, List.append_assoc, List.take_append_of_le_length (by simpa using hk),
      List.take_replicate, Nat.min_eq_left hk]
  · have h₁₅ : e.overrides = 15 := by omega
    have htwo : e.twoBytes = true := by
      cases h : e.twoBytes with
      | true => rfl
      | false =>
        rw [h, Bool.toNat_false] at hlen
        omega
    refine ⟨List.replicate 15 0x66, hrun 15, .inr (.inl ?_)⟩
    rw [hw, bytes, run, h₁₅, htwo]
    rfl

theorem decodeWindow_eq (charger : GasCharger) (hl : window.length = 16) :
    decodeWindow charger window =
      if 15 < e.prefixSize then .panic
      else if 10 < e.prefixSize then .err .decodingOverrun
      else if e.bytes.length ≤ 16 then
        .ok (opcodeSlot charger e.entry e.sizeOverride e.prefixSize e.opcode e.operands,
          (e.entry.selected e.operands).pipelineBehavior)
      else if e.immediateSize = 1 ∧ e.bytes.length = 17 then .panic
      else .err .decodingOverrun := by
  by_cases h₁₅ : 15 < e.prefixSize
  · rw [if_pos h₁₅, (unsplit hw h₁₅).decodeWindow_eq]
  have hsplit := split hw (Nat.le_of_not_lt h₁₅)
  have hrest := hsplit.length
  obtain ⟨rest, hr⟩ : ∃ rest, rest = (e.operands ++ after).take (15 - e.prefixSize) := ⟨_, rfl⟩
  rw [← hr, hl] at hrest
  change 16 = e.prefixSize + 1 + rest.length at hrest
  rw [if_neg h₁₅, hsplit.decodeWindow_eq, ← hr,
    decodeOpcode_eq _ (prefixesOf_twoBytes e.run e.twoBytes) _ e.mapped, prefixesOf_run]
  by_cases h₁₀ : 10 < e.prefixSize
  · rw [if_pos h₁₀, if_pos (by omega)]
  rw [if_neg h₁₀, if_neg (by omega)]
  change (if e.entry.operandSize rest e.sizeOverride ≤ rest.length then _ else _) = _
  have hlen := e.bytes_length
  have hn : 15 - e.prefixSize = rest.length := by omega
  rw [hn] at hr
  by_cases hfit : e.bytes.length ≤ 16
  · obtain ⟨hsize, hsel, hslot⟩ := rest_of_fits hr charger (by omega)
    rw [if_pos hfit, if_pos (by omega), ← hslot, ← hsel]
    rfl
  · obtain ⟨hover, hiff⟩ := rest_of_overruns hr (by omega)
    have hlast : e.operands.length = rest.length + 1 ↔ e.bytes.length = 17 := by omega
    rw [if_neg hfit, if_neg hover]
    exact if_congr (hiff.trans (and_congr_right' hlast)) rfl rfl

end Window

/-- The window is used exactly: filling reports an overrun if and only if the instruction
needs more bytes than the window has, and fills its slot with an instruction that fits. -/
def UsesWindow (e : Encoding) (vm : VM) (eip : BitVec 32) : Prop :=
  (∀ writeable p, fillSlot vm OPCODES writeable eip p = .err .decodingOverrun ↔
      16 < e.bytes.length) ∧
    (e.bytes.length ≤ 16 → ∀ writeable p, ∃ f, fillSlot vm OPCODES writeable eip p = .ok f)

/-- A jump that filling would follow, behind an operand-size prefix. -/
def CutsJump (e : Encoding) : Prop :=
  e.sizeOverride = true ∧ (e.entry.selected e.operands).pipelineBehavior = .relativeJump

/-- At most fifteen prefix bytes, at most ten and no cut jump in an instruction that fits, and no
one-byte immediate that is the first byte after the window. -/
def Fits (e : Encoding) : Prop :=
  e.prefixSize ≤ 15 ∧ (e.bytes.length ≤ 16 → e.prefixSize ≤ 10 ∧ ¬e.CutsJump) ∧
    ¬(e.prefixSize ≤ 10 ∧ e.immediateSize = 1 ∧ e.bytes.length = 17)

end Encoding

section Filling

variable {e : Encoding} {after window : List (BitVec 8)} {vm : VM} {eip : BitVec 32}
  (hw : window = (e.bytes ++ after).take 16) (hm : vm.memory.getSizedMemory eip 16 = .ok window)
  (writeable : Bool) (p : Pipeline)

include hw hm

/-- What filling makes of a window without a REP prefix. -/
theorem fillSlot_decodeWindow : fillSlot vm OPCODES writeable eip p =
    decodeWindow vm.charger window >>= fun d ↦ followSlot vm eip d.1 d.2 >>= fun f ↦
      .ok ⟨surcharge vm.charger writeable d.1, f.1, f.2 || writeable⟩ := by
  by_cases hp : e.prefixSize ≤ 15
  · have hsplit := Encoding.split hw hp
    rw [hsplit.fillSlot_eq hm, hsplit.decodeWindow_eq]
    simp only [e.prefixesOf_run]
    exact if_neg (not_not_intro rfl)
  · have hunsplit := Encoding.unsplit hw (Nat.lt_of_not_le hp)
    rw [hunsplit.fillSlot_eq hm, hunsplit.decodeWindow_eq, panic_bind]

theorem fillSlot_overrun_iff : fillSlot vm OPCODES writeable eip p = .err .decodingOverrun ↔
    decodeWindow vm.charger window = .err .decodingOverrun := by
  rw [fillSlot_decodeWindow hw hm]
  cases hd : decodeWindow vm.charger window with
  | panic | err => simp
  | ok d =>
    obtain ⟨pre, n, buffer, op, hto, hb⟩ := decodeWindow_eq_ok vm.charger hd
    rw [ok_bind, hb]
    obtain ⟨-, f, hf⟩ | ⟨-, a, hf⟩ := hto.followSlot_ok_or vm eip
    · rw [hf]
      exact iff_of_false nofun nofun
    · rw [hf]
      exact iff_of_false nofun nofun

theorem fillSlot_ok_iff {d : Pipeline × PipelineBehavior}
    (hd : decodeWindow vm.charger window = .ok d) :
    (∃ f, fillSlot vm OPCODES writeable eip p = .ok f) ↔
      ¬(d.1.sizeOverride = true ∧ d.2 = .relativeJump) := by
  obtain ⟨pre, n, buffer, op, hto, hb⟩ := decodeWindow_eq_ok vm.charger hd
  rw [fillSlot_decodeWindow hw hm, hd, ok_bind, hb]
  obtain ⟨hjump, f, hf⟩ | ⟨hjump, a, hf⟩ := hto.followSlot_ok_or vm eip
  · rw [hf]
    exact iff_of_true ⟨_, rfl⟩ hjump
  · rw [hf]
    exact iff_of_false nofun (not_not_intro hjump)

end Filling

/-- When the window is used exactly. -/
theorem fetchWindow_exact {e : Encoding} {after window : List (BitVec 8)} {vm : VM}
    {eip : BitVec 32} (hw : window = (e.bytes ++ after).take 16)
    (hm : vm.memory.getSizedMemory eip 16 = .ok window) : e.UsesWindow vm eip ↔ e.Fits := by
  have hdec := Encoding.decodeWindow_eq hw vm.charger (MemorySystem.getSizedMemory_length hm)
  have hlen : e.bytes.length = e.prefixSize + 1 + e.operands.length := e.bytes_length
  unfold Encoding.UsesWindow Encoding.Fits
  simp only [fillSlot_overrun_iff hw hm]
  by_cases h₁₅ : 15 < e.prefixSize
  · rw [if_pos h₁₅] at hdec
    rw [hdec]
    constructor
    · intro h
      have hover := (h.1 false default).mpr (by omega)
      cases hover
    · intro h
      omega
  by_cases h₁₀ : 10 < e.prefixSize
  · rw [if_neg h₁₅, if_pos h₁₀] at hdec
    rw [hdec]
    constructor
    · intro h
      have hlong := (h.1 false default).mp rfl
      exact ⟨by omega, fun hfit ↦ by omega, by omega⟩
    · intro h
      exact ⟨fun _ _ ↦ iff_of_true rfl (by omega), fun hfit ↦ by omega⟩
  by_cases hfit : e.bytes.length ≤ 16
  · rw [if_neg h₁₅, if_neg h₁₀, if_pos hfit] at hdec
    simp only [fillSlot_ok_iff hw hm _ _ hdec]
    rw [hdec]
    change _ ∧ (_ → Bool → Pipeline → ¬e.CutsJump) ↔ _
    constructor
    · intro h
      exact ⟨by omega, fun _ ↦ ⟨by omega, h.2 hfit false default⟩, by omega⟩
    · intro h
      exact ⟨fun _ _ ↦ iff_of_false nofun (by omega), fun _ _ _ ↦ (h.2.1 hfit).2⟩
  by_cases hbyte : e.immediateSize = 1 ∧ e.bytes.length = 17
  · rw [if_neg h₁₅, if_neg h₁₀, if_neg hfit, if_pos hbyte] at hdec
    rw [hdec]
    constructor
    · intro h
      have hover := (h.1 false default).mpr (by omega)
      cases hover
    · intro h
      omega
  · rw [if_neg h₁₅, if_neg h₁₀, if_neg hfit, if_neg hbyte] at hdec
    rw [hdec]
    constructor
    · intro _
      exact ⟨by omega, fun h ↦ absurd h hfit, fun h ↦ hbyte h.2⟩
    · intro _
      exact ⟨fun _ _ ↦ iff_of_true rfl (by omega), fun h ↦ absurd h hfit⟩

def prefixedNop (n : ℕ) : Encoding where
  overrides := n
  twoBytes := false
  opcode := 0x90
  operands := []
  plain := by decide
  mapped := by decide
  complete := by cases decide (0 < n) <;> decide +kernel

def prefixedNopVm (n : ℕ) : VM :=
  createVm ⟨(prefixedNop n).bytes ++ List.replicate 16 0, by simp⟩

theorem fetchWindow_exact_prefixedNop :
    (prefixedNop 10).UsesWindow (prefixedNopVm 10) CODE_MEM := by
  have hfits : ¬(prefixedNop 10).CutsJump := by
    rintro ⟨-, hjump⟩
    revert hjump
    decide +kernel
  have hwindow : (prefixedNop 10).bytes ++ List.replicate 5 0 =
      ((prefixedNop 10).bytes ++ List.replicate 16 0).take 16 := rfl
  exact (fetchWindow_exact hwindow rfl).mpr
    ⟨by decide, fun _ ↦ ⟨by decide, hfits⟩, by decide +kernel⟩

/-- Twelve bytes are called too long. -/
theorem fetchWindow_overrun_prefixedNop :
    ¬∀ (e : Encoding) (after window : List (BitVec 8)) (vm : VM) (eip : BitVec 32),
      window = (e.bytes ++ after).take 16 → vm.memory.getSizedMemory eip 16 = .ok window →
        e.UsesWindow vm eip := by
  intro h
  obtain ⟨hiff, -⟩ := h (prefixedNop 11) (List.replicate 16 0) _ (prefixedNopVm 11) CODE_MEM rfl rfl
  have hlong := (hiff false default).mp (by decide +kernel)
  revert hlong
  decide

end Qx86
