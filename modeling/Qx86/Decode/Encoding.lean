import Qx86.Decode.Addressing
import Qx86.Decode.Slots

namespace Qx86

open Foundation Outcome Bytes PrefixesActivated

section Arguments

def ValueSize.bytes : ValueSize → ℕ
  | .byte => 1
  | .word => 2
  | .dword => 4
  | .none | .qword => 0

def ArgSource.encodedSize (source : ArgSource) (size : ValueSize) : ℕ :=
  match source with
  | .immediateValue | .jumpRel => size.bytes
  | .immediateAddress => 4
  | _ => 0

/-- The only argument that is read without a check of what is left. -/
def ArgSource.isByteImmediate (source : ArgSource) (size : ValueSize) : Bool :=
  match source with
  | .immediateValue | .jumpRel => size == .byte
  | _ => false

def immediateOf (bytes : List (BitVec 8)) : ValueSize → SizedValue
  | .byte => .byte (bytes.headD 0)
  | .word => .word (fromLeBytes 16 (bytes.take 2))
  | .dword => .dword (fromLeBytes 32 (bytes.take 4))
  | .none | .qword => .none

def argOf (source : ArgSource) (size : ValueSize) (modrm : ParsedModRM) (opcodeByte : BitVec 8)
    (bytes : List (BitVec 8)) : OpArgument :=
  match source with
  | .none => {}
  | .modRM => modrm.modrm.decode (modrm.sib.getD {}) (modrm.disp.getD 0) size
  | .modRMReg => ⟨.registerValue modrm.modrm.reg size, false⟩
  | .immediateAddress => ⟨.address (fromLeBytes 32 (bytes.take 4)) size, true⟩
  | .immediateValue | .jumpRel => ⟨.immediate (immediateOf bytes size), false⟩
  | .registerSuffix => ⟨.registerValue (Fin.ofNat 8 (opcodeByte &&& 0x7).toNat) size, false⟩
  | .literal l => ⟨.immediate l, false⟩
  | .hardcodedRegister r => ⟨.registerValue r size, true⟩

/-- What a stream that ends inside an argument leads to. -/
def overrun {α : Type} (source : ArgSource) (size : ValueSize) : Outcome VMError α :=
  if source.isByteImmediate size then .panic else .err .decodingOverrun

theorem decodeImmediate_eq (bytes : List (BitVec 8)) (size : ValueSize) :
    decodeImmediate bytes size =
      if size.bytes ≤ bytes.length then .ok (immediateOf bytes size, size.bytes)
      else if size = .byte then .panic else .err .decodingOverrun := by
  cases size with
  | none | qword => rfl
  | byte =>
    cases bytes with
    | nil => rfl
    | cons b bytes => simp [decodeImmediate, ValueSize.bytes, immediateOf]
  | word =>
    by_cases h : 2 ≤ bytes.length
    · simp [decodeImmediate, u16FromBytes, ValueSize.bytes, immediateOf, h, Nat.not_lt.mpr h]
    · simp [decodeImmediate, u16FromBytes, ValueSize.bytes, h, Nat.lt_of_not_le h]
  | dword =>
    by_cases h : 4 ≤ bytes.length
    · simp [decodeImmediate, u32FromBytes, ValueSize.bytes, immediateOf, h, Nat.not_lt.mpr h]
    · simp [decodeImmediate, u32FromBytes, ValueSize.bytes, h, Nat.lt_of_not_le h]

theorem decodeArg_eq (source : ArgSource) (size : ValueSize) (modrm : ParsedModRM)
    (byte : BitVec 8) (bytes : List (BitVec 8)) :
    decodeArg source size modrm byte bytes =
      if source.encodedSize size ≤ bytes.length then
        .ok (argOf source size modrm byte bytes, source.encodedSize size)
      else overrun source size := by
  cases source with
  | none | modRM | modRMReg | registerSuffix | literal | hardcodedRegister => rfl
  | immediateAddress =>
    by_cases h : 4 ≤ bytes.length
    · simp [decodeArg, u32FromBytes, ArgSource.encodedSize, argOf, h, Nat.not_lt.mpr h]
    · simp [decodeArg, u32FromBytes, ArgSource.encodedSize, overrun, ArgSource.isByteImmediate, h,
        Nat.lt_of_not_le h]
  | immediateValue | jumpRel =>
    rw [decodeArg, decodeImmediate_eq]
    by_cases h : size.bytes ≤ bytes.length
    · rw [if_pos h]
      exact (if_pos h).symm
    · rw [if_neg h]
      refine Eq.trans ?_ (if_neg h).symm
      cases size <;> rfl

namespace Opcode

variable (op : Opcode) (sizeOverride : Bool)

def argBytes (n : Fin 3) : ℕ :=
  (op.argSource n).encodedSize ((op.argSize n).toFixed sizeOverride)

def immediateSize : ℕ :=
  op.argBytes sizeOverride 0 + op.argBytes sizeOverride 1 + op.argBytes sizeOverride 2

def isByteImmediate (n : Fin 3) : Bool :=
  (op.argSource n).isByteImmediate ((op.argSize n).toFixed sizeOverride)

def argsOf (modrm : ParsedModRM) (byte : BitVec 8) (bytes : List (BitVec 8)) :
    Fin 3 → OpArgument :=
  let arg (n : Fin 3) := argOf (op.argSource n) ((op.argSize n).toFixed sizeOverride) modrm byte
  ![arg 0 bytes, arg 1 (bytes.drop (op.argBytes sizeOverride 0)),
    arg 2 (bytes.drop (op.argBytes sizeOverride 0 + op.argBytes sizeOverride 1))]

end Opcode

theorem decodeArg_slice {β : Type} (op : Opcode) (so : Bool) (n : Fin 3) (modrm : ParsedModRM)
    (byte : BitVec 8) (bytes : List (BitVec 8))
    (k : OpArgument × ℕ → List (BitVec 8) → Outcome VMError β) :
    (decodeArg (op.argSource n) ((op.argSize n).toFixed so) modrm byte bytes >>= fun r ↦
      slice bytes r.2 >>= k r) =
      if op.argBytes so n ≤ bytes.length then
        k (argOf (op.argSource n) ((op.argSize n).toFixed so) modrm byte bytes, op.argBytes so n)
          (bytes.drop (op.argBytes so n))
      else if op.isByteImmediate so n then .panic else .err .decodingOverrun := by
  rw [decodeArg_eq]
  change (if op.argBytes so n ≤ bytes.length then _ else _) >>= _ = _
  by_cases h : op.argBytes so n ≤ bytes.length
  · rw [if_pos h, if_pos h, ok_bind]
    change slice bytes (op.argBytes so n) >>= _ = _
    rw [slice_of_le h, ok_bind]
    rfl
  · rw [if_neg h, if_neg h, overrun]
    change (if op.isByteImmediate so n = true then _ else _) >>= _ = _
    split <;> rfl

theorem decodeArgsWithModrm_eq {op : Opcode} {buffer : List (BitVec 8)} (so : Bool)
    {parsed : Option ParsedModRM} {m : ParsedModRM} (hp : parsed.getD {} = m)
    (hl : 6 ≤ buffer.length) (hm : 1 + m.size ≤ buffer.length) :
    decodeArgsWithModrm op buffer so parsed =
      if 1 + m.size + op.immediateSize so ≤ buffer.length then
        .ok (op.argsOf so m (buffer.headD 0) (buffer.drop (1 + m.size)),
          1 + m.size + op.immediateSize so)
      else if buffer.length < 1 + m.size + op.argBytes so 0 then
        if op.isByteImmediate so 0 then .panic else .err .decodingOverrun
      else if buffer.length < 1 + m.size + op.argBytes so 0 + op.argBytes so 1 then
        if op.isByteImmediate so 1 then .panic else .err .decodingOverrun
      else if op.isByteImmediate so 2 then .panic else .err .decodingOverrun := by
  obtain ⟨byte, bytes, rfl⟩ : ∃ byte bytes, buffer = byte :: bytes := by
    match buffer, hl with
    | byte :: bytes, _ => exact ⟨byte, bytes, rfl⟩
  have hm' : m.size ≤ bytes.length := by
    rw [List.length_cons] at hm
    omega
  have hdrop : (byte :: bytes).drop (1 + m.size) = bytes.drop m.size := by
    rw [Nat.add_comm, List.drop_succ_cons]
  rw [decodeArgsWithModrm, if_neg (by omega)]
  simp only [index_cons_zero, ok_bind, slice_of_le (show 1 ≤ (byte :: bytes).length by simp),
    List.drop_succ_cons, List.drop_zero, List.headD_cons, List.length_cons, hdrop, hp]
  rw [slice_of_le hm', ok_bind, decodeArg_slice, List.length_drop, Opcode.immediateSize]
  by_cases h₀ : op.argBytes so 0 ≤ bytes.length - m.size
  · have c₀ : ¬bytes.length + 1 < 1 + m.size + op.argBytes so 0 := by omega
    rw [if_pos h₀, decodeArg_slice, List.length_drop, List.length_drop, if_neg c₀]
    by_cases h₁ : op.argBytes so 1 ≤ bytes.length - m.size - op.argBytes so 0
    · have c₁ : ¬bytes.length + 1 < 1 + m.size + op.argBytes so 0 + op.argBytes so 1 := by omega
      rw [if_pos h₁, decodeArg_slice, List.length_drop, List.length_drop, List.length_drop,
        if_neg c₁]
      by_cases h₂ : op.argBytes so 2 ≤ bytes.length - m.size - op.argBytes so 0 - op.argBytes so 1
      · rw [if_pos h₂, if_pos (by omega)]
        simp only [pure_def, Opcode.argsOf, List.drop_drop, Nat.add_assoc]
      · have c₂ : ¬1 + m.size + (op.argBytes so 0 + op.argBytes so 1 + op.argBytes so 2) ≤
            bytes.length + 1 := by omega
        rw [if_neg h₂, if_neg c₂]
    · have c₁ : bytes.length + 1 < 1 + m.size + op.argBytes so 0 + op.argBytes so 1 := by omega
      have c₂ : ¬1 + m.size + (op.argBytes so 0 + op.argBytes so 1 + op.argBytes so 2) ≤
          bytes.length + 1 := by omega
      rw [if_neg h₁, if_neg c₂, if_pos c₁]
  · have c₀ : bytes.length + 1 < 1 + m.size + op.argBytes so 0 := by omega
    have c₂ : ¬1 + m.size + (op.argBytes so 0 + op.argBytes so 1 + op.argBytes so 2) ≤
        bytes.length + 1 := by omega
    rw [if_neg h₀, if_neg c₂, if_pos c₀]

end Arguments

section Immediates

variable (op : Opcode)

/-- Only one argument of the opcode takes bytes of its own. -/
def Opcode.OneImmediate : Prop :=
  ∀ so, ∃ n, ∀ k, k ≠ n → op.argBytes so k = 0

instance : Decidable op.OneImmediate :=
  inferInstanceAs (Decidable (∀ _, ∃ _, ∀ _, _ → _))

theorem Opcode.isByteImmediate_iff (so : Bool) (n : Fin 3) :
    op.isByteImmediate so n = true ↔ op.argBytes so n = 1 := by
  unfold Opcode.isByteImmediate Opcode.argBytes ArgSource.isByteImmediate ArgSource.encodedSize
  cases op.argSource n with
  | immediateValue | jumpRel =>
    cases (op.argSize n).toFixed so <;> simp [ValueSize.bytes]
  | _ => simp

/-- The entries with a ModRM byte have one immediate at most; the others are short. -/
theorem OPCODES_immediates (i : Fin OPCODE_TABLE_SIZE) (inner : Fin 8) :
    ((OPCODES i).hasModrm = true → ((OPCODES i).opcodes inner).OneImmediate) ∧
      ∀ so, ((OPCODES i).opcodes inner).immediateSize so ≤ 5 := by
  constructor
  · intro hm
    obtain hd | ⟨d, hd, hw, he⟩ := OPCODES_cases i inner
    · rw [hd]
      decide
    · have hall : ∀ d ∈ definitions, d.toOpcode.OneImmediate ∨ d.slots = [0xC8] := by
        decide +kernel
      obtain h | h := hall d hd
      · rw [he]
        exact h
      · have hi : i.val = 0xC8 := by simpa [h] using hw.1
        have hno : (OPCODES ⟨0xC8, by decide⟩).hasModrm = false := by decide +kernel
        rw [show i = ⟨0xC8, by decide⟩ from Fin.ext hi, hno] at hm
        cases hm
  · exact OPCODES_forall (P := fun o ↦ ∀ so, o.immediateSize so ≤ 5) (by decide)
      (by decide +kernel) i inner

theorem decodeArgsWithModrm_oneImmediate {op : Opcode} (h : op.OneImmediate)
    {buffer : List (BitVec 8)} (so : Bool) {parsed : Option ParsedModRM} {m : ParsedModRM}
    (hp : parsed.getD {} = m) (hl : 6 ≤ buffer.length) (hm : 1 + m.size ≤ buffer.length) :
    decodeArgsWithModrm op buffer so parsed =
      if 1 + m.size + op.immediateSize so ≤ buffer.length then
        .ok (op.argsOf so m (buffer.headD 0) (buffer.drop (1 + m.size)),
          1 + m.size + op.immediateSize so)
      else if op.immediateSize so = 1 then .panic else .err .decodingOverrun := by
  rw [decodeArgsWithModrm_eq so hp hl hm]
  simp only [op.isByteImmediate_iff]
  by_cases hfit : 1 + m.size + op.immediateSize so ≤ buffer.length
  · rw [if_pos hfit, if_pos hfit]
  · rw [if_neg hfit, if_neg hfit]
    rw [Opcode.immediateSize] at hfit ⊢
    obtain ⟨n, hn⟩ := h so
    match n with
    | 0 =>
      have h₁ := hn 1 (by decide)
      have h₂ := hn 2 (by decide)
      rw [h₁, h₂] at hfit ⊢
      rw [if_pos (by omega)]
      rfl
    | 1 =>
      have h₀ := hn 0 (by decide)
      have h₂ := hn 2 (by decide)
      rw [h₀, h₂] at hfit ⊢
      rw [if_neg (by omega), if_pos (by omega), Nat.zero_add]
      rfl
    | 2 =>
      have h₀ := hn 0 (by decide)
      have h₁ := hn 1 (by decide)
      rw [h₀, h₁] at hfit ⊢
      rw [if_neg (by omega), if_neg (by omega), Nat.zero_add]

end Immediates

section Selection

def tableIndex (twoBytes : Bool) (opcode : BitVec 8) : ℕ :=
  opcode.toNat ||| (twoBytes.toNat <<< 8)

def entryOf (twoBytes : Bool) (opcode : BitVec 8) : OpcodeProperties :=
  if h : tableIndex twoBytes opcode < OPCODE_TABLE_SIZE then OPCODES ⟨_, h⟩ else {}

namespace OpcodeProperties

variable (e : OpcodeProperties) (bytes : List (BitVec 8))

def selected : Opcode := e.opcodes (if e.hasModrm then regField (bytes.headD 0) else 0)

def parsedModrm : Option ParsedModRM := if e.hasModrm then some (.ofBytes bytes) else none

def modrmSize : ℕ := if e.hasModrm then addressingSize bytes else 0

def operandSize (so : Bool) : ℕ := e.modrmSize bytes + (e.selected bytes).immediateSize so

theorem parsedModrm_size : ((e.parsedModrm bytes).getD {}).size = e.modrmSize bytes := by
  unfold parsedModrm modrmSize
  split <;> rfl

end OpcodeProperties

def opcodeSlot (charger : GasCharger) (e : OpcodeProperties) (so : Bool) (prefixSize : ℕ)
    (opcode : BitVec 8) (bytes : List (BitVec 8)) : Pipeline :=
  let op := e.selected bytes
  let args := op.argsOf so ((e.parsedModrm bytes).getD {}) opcode (bytes.drop (e.modrmSize bytes))
  { function := .opcode op.function
    args := args
    gasCost := charger.total (slotCharges op (e.parsedModrm bytes) args)
    eipSize := BitVec.ofNat 8 (1 + e.operandSize bytes so) + BitVec.ofNat 8 prefixSize
    sizeOverride := so
    opcode := opcode }

theorem selectOpcode_eq {table : OpcodeTable} {twoBytes : Bool} {opcode : BitVec 8}
    {bytes : List (BitVec 8)} (h : tableIndex twoBytes opcode < OPCODE_TABLE_SIZE)
    (hl : 4 ≤ bytes.length) :
    let e := table ⟨_, h⟩
    selectOpcode table twoBytes (opcode :: bytes) =
      if e.modrmSize bytes ≤ bytes.length then .ok (e.selected bytes, e.parsedModrm bytes)
      else .err .decodingOverrun := by
  intro e
  have hi : opcode.toNat ||| (twoBytes.toNat <<< 8) < OPCODE_TABLE_SIZE := h
  simp only [selectOpcode, index_cons_zero, ok_bind, hi, dite_true]
  change (if e.hasModrm = true then _ else _) = _
  unfold OpcodeProperties.modrmSize OpcodeProperties.selected OpcodeProperties.parsedModrm
  by_cases hm : e.hasModrm = true
  · simp only [if_pos hm]
    rw [fromBytes_eq (by rw [List.length_cons]; omega), List.tail_cons, List.length_cons]
    by_cases hs : addressingSize bytes ≤ bytes.length
    · rw [if_pos (by omega), if_pos hs, ok_bind]
      simp only [ParsedModRM.ofBytes, ModRM.parse_eq, pure_def]
      rfl
    · rw [if_neg (by omega), if_neg hs, err_bind]
  · simp only [if_neg hm, if_pos (Nat.zero_le _)]
    rfl

theorem selectOpcode_cases {twoBytes : Bool} {opcode : BitVec 8} (bytes : List (BitVec 8))
    (h : tableIndex twoBytes opcode < OPCODE_TABLE_SIZE) :
    selectOpcode OPCODES twoBytes (opcode :: bytes) = .err .decodingOverrun ∨
      ∃ x, selectOpcode OPCODES twoBytes (opcode :: bytes) = .ok x := by
  by_cases hl : 4 ≤ bytes.length
  · rw [selectOpcode_eq h hl]
    split
    · exact .inr ⟨_, rfl⟩
    · exact .inl rfl
  · have hi : opcode.toNat ||| (twoBytes.toNat <<< 8) < OPCODE_TABLE_SIZE := h
    simp only [selectOpcode, index_cons_zero, ok_bind, hi, dite_true]
    split
    · rw [ParsedModRM.fromBytes, if_pos (by rw [List.length_cons]; omega)]
      exact .inl rfl
    · exact .inr ⟨_, rfl⟩

theorem decodeArgsWithModrm_selected (i : Fin OPCODE_TABLE_SIZE) (opcode : BitVec 8)
    {bytes : List (BitVec 8)} (so : Bool) (hl : 5 ≤ bytes.length)
    (hm : (OPCODES i).modrmSize bytes ≤ bytes.length) :
    let e := OPCODES i
    decodeArgsWithModrm (e.selected bytes) (opcode :: bytes) so (e.parsedModrm bytes) =
      if e.operandSize bytes so ≤ bytes.length then
        .ok ((e.selected bytes).argsOf so ((e.parsedModrm bytes).getD {}) opcode
          (bytes.drop (e.modrmSize bytes)), 1 + e.operandSize bytes so)
      else if (e.selected bytes).immediateSize so = 1 then .panic else .err .decodingOverrun := by
  intro e
  obtain ⟨hone, hshort⟩ := OPCODES_immediates i
    (if e.hasModrm then regField (bytes.headD 0) else 0)
  have hp := e.parsedModrm_size bytes
  have hlen : 6 ≤ (opcode :: bytes).length := by
    rw [List.length_cons]
    omega
  have hm' : e.modrmSize bytes ≤ bytes.length := hm
  have hfit : 1 + ((e.parsedModrm bytes).getD {}).size ≤ (opcode :: bytes).length := by
    rw [hp, List.length_cons]
    omega
  have hcond : 1 + e.operandSize bytes so ≤ (opcode :: bytes).length ↔
      e.operandSize bytes so ≤ bytes.length := by
    rw [List.length_cons]
    omega
  have hdrop : (opcode :: bytes).drop (1 + e.modrmSize bytes) = bytes.drop (e.modrmSize bytes) := by
    rw [Nat.add_comm, List.drop_succ_cons]
  have hsize : 1 + e.modrmSize bytes + (e.selected bytes).immediateSize so =
      1 + e.operandSize bytes so := by
    rw [OpcodeProperties.operandSize, Nat.add_assoc]
  by_cases he : e.hasModrm = true
  · have h := @decodeArgsWithModrm_oneImmediate (e.selected bytes) (hone he) _ so
      (e.parsedModrm bytes) _ rfl hlen hfit
    simpa only [hp, hcond, hdrop, hsize, List.headD_cons] using h
  · have hz : e.modrmSize bytes = 0 := if_neg he
    have hfits : e.operandSize bytes so ≤ bytes.length := by
      have := hshort so
      rw [OpcodeProperties.operandSize, hz]
      change 0 + ((OPCODES i).opcodes _).immediateSize so ≤ _
      omega
    have h := @decodeArgsWithModrm_eq (e.selected bytes) _ so (e.parsedModrm bytes) _ rfl hlen hfit
    simpa only [hp, hcond, hdrop, hsize, List.headD_cons, if_pos hfits] using h

/-- The opcode byte and what follows it, decoded: either all the bytes are there, or there
are too few. -/
theorem decodeOpcode_eq (charger : GasCharger) {pre : PrefixesActivated} {twoBytes : Bool}
    (htwo : pre.twoBytes = twoBytes) (prefixSize : ℕ) {opcode : BitVec 8}
    {bytes : List (BitVec 8)} (h : tableIndex twoBytes opcode < OPCODE_TABLE_SIZE) :
    let e := entryOf twoBytes opcode
    decodeOpcode charger OPCODES pre prefixSize (opcode :: bytes) =
      if bytes.length < 5 then .err .decodingOverrun
      else if e.operandSize bytes pre.sizeOverride ≤ bytes.length then
        .ok (opcodeSlot charger e pre.sizeOverride prefixSize opcode bytes,
          (e.selected bytes).pipelineBehavior)
      else if (e.selected bytes).immediateSize pre.sizeOverride = 1 ∧
          e.modrmSize bytes ≤ bytes.length then .panic
      else .err .decodingOverrun := by
  intro e
  obtain ⟨e', he'⟩ : ∃ e', e' = OPCODES ⟨_, h⟩ := ⟨_, rfl⟩
  have he : e = e' := (dif_pos h).trans he'.symm
  simp only [decodeOpcode, index_cons_zero, ok_bind, he, htwo]
  by_cases hl : bytes.length < 5
  · rw [if_pos hl]
    obtain hs | ⟨⟨op, modrm⟩, hs⟩ := selectOpcode_cases bytes h
    · rw [hs, err_bind]
    · rw [hs, ok_bind, decodeArgsWithModrm, if_pos (by rw [List.length_cons]; omega), err_bind]
  · rw [if_neg hl, selectOpcode_eq h (by omega), ← he']
    by_cases hm : e'.modrmSize bytes ≤ bytes.length
    · rw [if_pos hm, ok_bind]
      have hargs := decodeArgsWithModrm_selected ⟨_, h⟩ opcode pre.sizeOverride (by omega)
        (he' ▸ hm)
      rw [← he'] at hargs
      simp only [hargs]
      by_cases hfit : e'.operandSize bytes pre.sizeOverride ≤ bytes.length
      · rw [if_pos hfit, if_pos hfit, ok_bind]
        rfl
      · rw [if_neg hfit, if_neg hfit]
        by_cases h₁ : (e'.selected bytes).immediateSize pre.sizeOverride = 1
        · rw [if_pos h₁, if_pos ⟨h₁, hm⟩, panic_bind]
        · rw [if_neg h₁, if_neg fun h ↦ h₁ h.1, err_bind]
    · have hn : ¬e'.operandSize bytes pre.sizeOverride ≤ bytes.length := by
        unfold OpcodeProperties.operandSize
        omega
      rw [if_neg hm, if_neg hn, if_neg fun h ↦ hm h.2, err_bind]

end Selection

section Prefixes

def legacyPrefix (b : BitVec 8) : Bool := b == 0x66 || b == 0xF2 || b == 0xF3

def PrefixesActivated.push (pre : PrefixesActivated) (b : BitVec 8) : PrefixesActivated :=
  if b = 0x66 then { pre with sizeOverride := true }
  else if b = 0xF2 then { pre with repMode := .repne }
  else { pre with repMode := .repe }

def twoByteMarker (twoBytes : Bool) : List (BitVec 8) := if twoBytes then [0x0F] else []

/-- A window, cut into prefixes, two-byte marker, opcode byte and the rest. -/
structure Split (window run : List (BitVec 8)) (twoBytes : Bool) (opcode : BitVec 8)
    (rest : List (BitVec 8)) : Prop where
  eq : window = run ++ (twoByteMarker twoBytes ++ opcode :: rest)
  legacy : ∀ b ∈ run, legacyPrefix b = true
  plain : twoBytes = false → legacyPrefix opcode = false ∧ opcode ≠ 0x0F ∧ opcode ≠ 0x67

/-- A window in which no opcode byte is found: it ends in the prefixes, or they lead to
the unsupported one. -/
def Unsplit (window : List (BitVec 8)) : Prop :=
  ∃ run, (∀ b ∈ run, legacyPrefix b = true) ∧
    (window = run ∨ window = run ++ [0x0F] ∨ ∃ rest, window = run ++ 0x67 :: rest)

def prefixesOf (run : List (BitVec 8)) (twoBytes : Bool) : PrefixesActivated :=
  { run.foldl PrefixesActivated.push {} with twoBytes := twoBytes }

theorem legacyPrefix_cases {b : BitVec 8} (h : legacyPrefix b = true) :
    b = 0x66 ∨ b = 0xF2 ∨ b = 0xF3 := by
  simpa [legacyPrefix, or_assoc] using h

theorem getPrefixes_legacy {b : BitVec 8} (h : legacyPrefix b = true) (pre : PrefixesActivated)
    (bytes : List (BitVec 8)) (n : ℕ) :
    getPrefixes pre (b :: bytes) n = getPrefixes (pre.push b) bytes (n + 1) := by
  obtain rfl | rfl | rfl := legacyPrefix_cases h
  all_goals rfl

theorem getPrefixes_run {run : List (BitVec 8)} (h : ∀ b ∈ run, legacyPrefix b = true)
    (pre : PrefixesActivated) (bytes : List (BitVec 8)) (n : ℕ) :
    getPrefixes pre (run ++ bytes) n =
      getPrefixes (run.foldl PrefixesActivated.push pre) bytes (n + run.length) := by
  induction run generalizing pre n with
  | nil => rfl
  | cons b run ih =>
    rw [List.cons_append, getPrefixes_legacy (h b List.mem_cons_self),
      ih fun c hc ↦ h c (List.mem_cons_of_mem b hc), List.foldl_cons, List.length_cons]
    congr 1
    omega

theorem push_twoBytes (run : List (BitVec 8)) (pre : PrefixesActivated) :
    (run.foldl PrefixesActivated.push pre).twoBytes = pre.twoBytes := by
  induction run generalizing pre with
  | nil => rfl
  | cons b run ih =>
    rw [List.foldl_cons, ih, PrefixesActivated.push]
    split
    · rfl
    · split <;> rfl

theorem getPrefixes_plain {opcode : BitVec 8} (hl : legacyPrefix opcode = false)
    (h₀ : opcode ≠ 0x0F) (h₆ : opcode ≠ 0x67) (pre : PrefixesActivated)
    (bytes : List (BitVec 8)) (n : ℕ) : getPrefixes pre (opcode :: bytes) n = .ok (pre, n) := by
  have hne : opcode ≠ 0x66 ∧ opcode ≠ 0xF2 ∧ opcode ≠ 0xF3 := by
    simpa [legacyPrefix, and_assoc] using hl
  rw [getPrefixes, if_neg hne.1, if_neg h₀, if_neg h₆, if_neg hne.2.1, if_neg hne.2.2]

theorem Split.getPrefixes {window run : List (BitVec 8)} {twoBytes : Bool} {opcode : BitVec 8}
    {rest : List (BitVec 8)} (h : Split window run twoBytes opcode rest) :
    PrefixesActivated.getPrefixes {} window 0 =
      .ok (prefixesOf run twoBytes, run.length + twoBytes.toNat) := by
  rw [h.eq, getPrefixes_run h.legacy, Nat.zero_add]
  cases twoBytes with
  | true => rfl
  | false =>
    obtain ⟨hl, h₀, h₆⟩ := h.plain rfl
    have hpre : run.foldl PrefixesActivated.push {} = prefixesOf run false := by
      have htwo := push_twoBytes run {}
      unfold prefixesOf
      generalize run.foldl PrefixesActivated.push {} = pre at htwo ⊢
      cases pre
      cases htwo
      rfl
    exact (getPrefixes_plain hl h₀ h₆ _ rest _).trans (by rw [hpre]; rfl)

theorem split_or_unsplit (window : List (BitVec 8)) :
    (∃ run twoBytes opcode rest, Split window run twoBytes opcode rest) ∨ Unsplit window := by
  induction window with
  | nil => exact .inr ⟨[], nofun, .inl rfl⟩
  | cons b bytes ih =>
    by_cases hb : legacyPrefix b = true
    · have hcons : ∀ run : List (BitVec 8), (∀ c ∈ run, legacyPrefix c = true) →
          ∀ c ∈ b :: run, legacyPrefix c = true := by
        intro run hrun c hc
        obtain rfl | hc := List.mem_cons.mp hc
        · exact hb
        · exact hrun c hc
      obtain ⟨run, two, opcode, rest, h⟩ | ⟨run, hrun, h⟩ := ih
      · exact .inl ⟨b :: run, two, opcode, rest, by rw [h.eq]; rfl, hcons run h.legacy, h.plain⟩
      · refine .inr ⟨b :: run, hcons run hrun, ?_⟩
        obtain rfl | rfl | ⟨rest, rfl⟩ := h
        · exact .inl rfl
        · exact .inr (.inl rfl)
        · exact .inr (.inr ⟨rest, rfl⟩)
    · by_cases h₀ : b = 0x0F
      · subst h₀
        cases bytes with
        | nil => exact .inr ⟨[], nofun, .inr (.inl rfl)⟩
        | cons opcode rest => exact .inl ⟨[], true, opcode, rest, rfl, nofun, nofun⟩
      · by_cases h₆ : b = 0x67
        · subst h₆
          exact .inr ⟨[], nofun, .inr (.inr ⟨bytes, rfl⟩)⟩
        · exact .inl ⟨[], false, b, bytes, rfl, nofun, fun _ ↦ ⟨by simpa using hb, h₀, h₆⟩⟩

theorem prefixesOf_twoBytes (run : List (BitVec 8)) (twoBytes : Bool) :
    (prefixesOf run twoBytes).twoBytes = twoBytes := rfl

def prefixSize (run : List (BitVec 8)) (twoBytes : Bool) : ℕ := run.length + twoBytes.toNat

def repSlot (charger : GasCharger) (pre : PrefixesActivated) (n : ℕ) (opcode : BitVec 8)
    (p : Pipeline) : Pipeline :=
  { p with
    function := if pre.repMode = .repe then .repe else .repne
    gasCost := charger.cost .moderate
    eipSize := BitVec.ofNat 8 n + 1
    sizeOverride := pre.sizeOverride
    opcode := opcode }

section Cut

variable {window run : List (BitVec 8)} {twoBytes : Bool} {opcode : BitVec 8}
  {rest : List (BitVec 8)}

theorem Split.length (h : Split window run twoBytes opcode rest) :
    window.length = prefixSize run twoBytes + 1 + rest.length := by
  rw [h.eq, prefixSize]
  cases twoBytes <;> simp [twoByteMarker] <;> omega

theorem Split.drop (h : Split window run twoBytes opcode rest) :
    window.drop (prefixSize run twoBytes) = opcode :: rest := by
  have hlen : (run ++ twoByteMarker twoBytes).length = prefixSize run twoBytes := by
    rw [List.length_append]
    cases twoBytes <;> rfl
  rw [h.eq, ← List.append_assoc, List.drop_left' hlen]

theorem Unsplit.getPrefixes (h : Unsplit window) :
    (∃ pre, PrefixesActivated.getPrefixes {} window 0 = .ok (pre, window.length)) ∨
      PrefixesActivated.getPrefixes {} window 0 = .panic := by
  obtain ⟨run, hrun, rfl | rfl | ⟨rest, rfl⟩⟩ := h
  · have hp := getPrefixes_run hrun {} [] 0
    rw [List.append_nil] at hp
    rw [hp]
    exact .inr rfl
  · refine .inl ⟨{ run.foldl PrefixesActivated.push {} with twoBytes := true }, ?_⟩
    rw [getPrefixes_run hrun, List.length_append, Nat.zero_add]
    rfl
  · rw [getPrefixes_run hrun]
    exact .inr rfl

end Cut

section Fill

variable {vm : VM} {eip : BitVec 32} {window : List (BitVec 8)}
  (hw : vm.memory.getSizedMemory eip 16 = .ok window) (writeable : Bool) (p : Pipeline)

include hw

theorem Split.fillSlot_eq {run : List (BitVec 8)} {twoBytes : Bool} {opcode : BitVec 8}
    {rest : List (BitVec 8)} (h : Split window run twoBytes opcode rest) :
    let pre := prefixesOf run twoBytes
    let n := prefixSize run twoBytes
    fillSlot vm OPCODES writeable eip p =
      if pre.repMode ≠ .none then
        .ok ⟨surcharge vm.charger writeable (repSlot vm.charger pre n opcode p), eip, true⟩
      else decodeOpcode vm.charger OPCODES pre n (opcode :: rest) >>= fun d ↦
        followSlot vm eip d.1 d.2 >>= fun f ↦
          .ok ⟨surcharge vm.charger writeable d.1, f.1, f.2 || writeable⟩ := by
  intro pre n
  have hn : n ≤ window.length := by
    rw [h.length]
    omega
  rw [fillSlot, hw, ofExcept_ok, ok_bind, h.getPrefixes, ok_bind]
  change slice window n >>= _ = _
  rw [slice_of_le hn, ok_bind, h.drop]
  rfl

theorem Unsplit.fillSlot_eq (h : Unsplit window) :
    fillSlot vm OPCODES writeable eip p = .panic := by
  obtain ⟨pre, hp⟩ | hp := h.getPrefixes
  · rw [fillSlot, hw, ofExcept_ok, ok_bind, hp, ok_bind]
    change slice window window.length >>= _ = _
    rw [slice_of_le le_rfl, ok_bind, List.drop_length]
    split <;> rfl
  · rw [fillSlot, hw, ofExcept_ok, ok_bind, hp]
    rfl

end Fill

end Prefixes

section Instruction

def tailSize (run : List (BitVec 8)) (twoBytes : Bool) (opcode : BitVec 8)
    (rest : List (BitVec 8)) : ℕ :=
  let pre := prefixesOf run twoBytes
  if pre.repMode ≠ .none then 0
  else (entryOf twoBytes opcode).operandSize rest pre.sizeOverride

/-- The size of an instruction: prefixes, opcode byte, ModRM operand and immediates as the
entry of the map has them. A REP instruction ends with its opcode byte. -/
def instructionSize (run : List (BitVec 8)) (twoBytes : Bool) (opcode : BitVec 8)
    (rest : List (BitVec 8)) : ℕ :=
  prefixSize run twoBytes + 1 + tailSize run twoBytes opcode rest

variable {vm : VM} {eip : BitVec 32} {window : List (BitVec 8)}
  {run : List (BitVec 8)} {twoBytes : Bool} {opcode : BitVec 8} {rest : List (BitVec 8)}
  {writeable : Bool} {p : Pipeline} {f : Filled}

theorem decodeOpcode_unmapped (charger : GasCharger) {pre : PrefixesActivated}
    (htwo : pre.twoBytes = twoBytes) (n : ℕ)
    (h : ¬tableIndex twoBytes opcode < OPCODE_TABLE_SIZE) :
    decodeOpcode charger OPCODES pre n (opcode :: rest) = .panic := by
  subst htwo
  have hi : ¬(opcode.toNat ||| (pre.twoBytes.toNat <<< 8) < OPCODE_TABLE_SIZE) := h
  simp only [decodeOpcode, selectOpcode, index_cons_zero, ok_bind, hi, dite_false, panic_bind]

def slotOf (charger : GasCharger) (writeable : Bool) (p : Pipeline) (run : List (BitVec 8))
    (twoBytes : Bool) (opcode : BitVec 8) (rest : List (BitVec 8)) : Pipeline :=
  let pre := prefixesOf run twoBytes
  let n := prefixSize run twoBytes
  surcharge charger writeable <|
    if pre.repMode ≠ .none then repSlot charger pre n opcode p
    else opcodeSlot charger (entryOf twoBytes opcode) pre.sizeOverride n opcode rest

/-- What a filled slot is, and how much of the window it takes. -/
theorem Split.slot_eq (h : Split window run twoBytes opcode rest)
    (hw : vm.memory.getSizedMemory eip 16 = .ok window)
    (hf : fillSlot vm OPCODES writeable eip p = .ok f) :
    f.slot = slotOf vm.charger writeable p run twoBytes opcode rest ∧
      tailSize run twoBytes opcode rest ≤ rest.length := by
  rw [h.fillSlot_eq hw] at hf
  unfold slotOf tailSize
  by_cases hr : (prefixesOf run twoBytes).repMode ≠ .none
  · simp only [if_pos hr] at hf ⊢
    cases hf
    exact ⟨rfl, Nat.zero_le _⟩
  · simp only [if_neg hr] at hf ⊢
    obtain ⟨⟨slot, behavior⟩, hd, hf⟩ := bind_eq_ok.mp hf
    obtain ⟨⟨next, stop⟩, hfollow, hf⟩ := bind_eq_ok.mp hf
    cases hf
    by_cases hi : tableIndex twoBytes opcode < OPCODE_TABLE_SIZE
    · rw [decodeOpcode_eq _ (prefixesOf_twoBytes run twoBytes) _ hi] at hd
      split at hd
      · cases hd
      · by_cases hfit : (entryOf twoBytes opcode).operandSize rest
            (prefixesOf run twoBytes).sizeOverride ≤ rest.length
        · rw [if_pos hfit] at hd
          cases hd
          exact ⟨rfl, hfit⟩
        · rw [if_neg hfit] at hd
          split at hd <;> cases hd
    · rw [decodeOpcode_unmapped _ (prefixesOf_twoBytes run twoBytes) _ hi] at hd
      cases hd

end Instruction

end Qx86
