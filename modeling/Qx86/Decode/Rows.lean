import Qx86.Decode.Locality
import Qx86.Machine.Operands

namespace Qx86

open Foundation Outcome Bytes

section Rows

def Opcode.row (f : LogicFn) (args : List (ArgSource × OpcodeValueSize)) : Opcode where
  function := .logic f
  argSource n := (args[n.val]?.map Prod.fst).getD .none
  argSize n := (args[n.val]?.map Prod.snd).getD (.fixed .none)

/-- An opcode that is a row of the map, whatever it costs. -/
def Opcode.IsRow (op : Opcode) (f : LogicFn) (args : List (ArgSource × OpcodeValueSize)) : Prop :=
  op.function = .logic f ∧ op.pipelineBehavior ≠ .relativeJump ∧
    ∀ n, op.argSource n = (row f args).argSource n ∧ op.argSize n = (row f args).argSize n

instance (op : Opcode) (f : LogicFn) (args : List (ArgSource × OpcodeValueSize)) :
    Decidable (op.IsRow f args) :=
  inferInstanceAs (Decidable (_ ∧ _ ∧ ∀ _, _))

variable {op : Opcode} {f : LogicFn} {args : List (ArgSource × OpcodeValueSize)}

theorem Opcode.IsRow.immediateSize (h : op.IsRow f args) (so : Bool) :
    op.immediateSize so = (row f args).immediateSize so := by
  simp only [Opcode.immediateSize, Opcode.argBytes, h.2.2]

theorem Opcode.IsRow.argsOf (h : op.IsRow f args) (so : Bool) (modrm : ParsedModRM)
    (byte : BitVec 8) (bytes : List (BitVec 8)) :
    op.argsOf so modrm byte bytes = (row f args).argsOf so modrm byte bytes := by
  simp only [Opcode.argsOf, Opcode.argBytes, h.2.2]

end Rows

section Buckets

theorem buildTable_filter {p : OpcodeDefiner → Bool} {op : Fin OPCODE_TABLE_SIZE}
    {ds : List OpcodeDefiner} (hp : ∀ d ∈ ds, op.val ∈ d.slots → p d = true)
    {table table' : OpcodeTable} (h : table op = table' op) :
    buildTable (ds.filter p) table op = buildTable ds table' op := by
  induction ds generalizing table table' with
  | nil => exact h
  | cons d ds ih =>
    have hds := fun d' hd' ↦ hp d' (List.mem_cons_of_mem d hd')
    by_cases hd : p d = true
    · rw [List.filter_cons_of_pos hd]
      change buildTable (ds.filter p) (d.intoTable table) op =
        buildTable ds (d.intoTable table') op
      apply ih hds
      rw [OpcodeDefiner.intoTable, OpcodeDefiner.intoTable, h]
    · rw [List.filter_cons_of_neg hd]
      change buildTable (ds.filter p) table op = buildTable ds (d.intoTable table') op
      apply ih hds
      have hslot : op.val ∉ d.slots := fun hs ↦ hd (hp d List.mem_cons_self hs)
      rw [OpcodeDefiner.intoTable, if_neg fun hs ↦ hslot hs.1, h]

def bucket (n : ℕ) : List OpcodeDefiner :=
  definitions.filter fun d ↦ d.slots.any fun op ↦ op / 16 == n

def buckets : List (List OpcodeDefiner) := (List.range 16).map bucket

/-- An entry of the one-byte map, built from the definitions around it. -/
def bucketEntry (opcode : BitVec 8) : OpcodeProperties :=
  buildTable (buckets.getD (opcode.toNat / 16) []) (fun _ ↦ {})
    ⟨opcode.toNat, Nat.lt_of_lt_of_le opcode.isLt (by decide)⟩

theorem bucketEntry_eq (opcode : BitVec 8) : bucketEntry opcode = entryOf false opcode := by
  have hlt := opcode.isLt
  have hindex : tableIndex false opcode = opcode.toNat := Nat.or_zero _
  have hbucket : buckets.getD (opcode.toNat / 16) [] = bucket (opcode.toNat / 16) := by
    have hn : opcode.toNat / 16 < 16 := by omega
    simp [buckets, hn]
  have hmapped : tableIndex false opcode < OPCODE_TABLE_SIZE := by
    rw [hindex]
    exact Nat.lt_of_lt_of_le hlt (by decide)
  rw [bucketEntry, hbucket, entryOf, dif_pos hmapped]
  have hop : (⟨tableIndex false opcode, hmapped⟩ : Fin OPCODE_TABLE_SIZE) =
      ⟨opcode.toNat, Nat.lt_of_lt_of_le hlt (by decide)⟩ := Fin.ext hindex
  rw [hop]
  apply buildTable_filter _ rfl
  intro d _ hd
  exact List.any_eq_true.mpr ⟨_, hd, beq_self_eq_true _⟩

end Buckets

section Encodings

def overrideRun (so : Bool) : List (BitVec 8) := if so then [0x66] else []

/-- The bytes of an instruction behind its prefix: wherever they are found, they decode to a
logic function and its operands. -/
structure Encodes (so : Bool) (bytes : List (BitVec 8)) (f : LogicFn)
    (locations : Fin 3 → ArgLocation) : Prop where
  only : f.operandsOnly = true
  fills : ∀ {vm : VM} {eip : BitVec 32} {after : List (BitVec 8)},
    vm.memory.getSizedMemory eip 16 = .ok (overrideRun so ++ (bytes ++ after)) →
      ∀ writeable p, ∃ g, fillSlot vm OPCODES writeable eip p = .ok g ∧
        g.slot.function = .opcode (.logic f) ∧ g.slot.sizeOverride = so ∧
          ∀ n, (g.slot.args n).location = locations n

theorem Encodes.append {so : Bool} {bytes : List (BitVec 8)} {f : LogicFn}
    {locations : Fin 3 → ArgLocation} (h : Encodes so bytes f locations)
    (more : List (BitVec 8)) : Encodes so (bytes ++ more) f locations where
  only := h.only
  fills hw := h.fills (by rw [hw, List.append_assoc])

def PlainOpcode (opcode : BitVec 8) : Prop :=
  legacyPrefix opcode = false ∧ opcode ≠ 0x0F ∧ opcode ≠ 0x67

instance (opcode : BitVec 8) : Decidable (PlainOpcode opcode) :=
  inferInstanceAs (Decidable (_ ∧ _))

theorem prefixesOf_overrideRun (so : Bool) :
    prefixesOf (overrideRun so) false = { sizeOverride := so } := by
  cases so <;> rfl

theorem followSlot_other (vm : VM) (eip : BitVec 32) (slot : Pipeline) {b : PipelineBehavior}
    (h : b ≠ .relativeJump) : ∃ r, followSlot vm eip slot b = .ok r := by
  cases b with
  | relativeJump => exact absurd rfl h
  | none | unpredictable | unpredictableNoGas => exact ⟨_, rfl⟩

theorem fillSlot_complete {vm : VM} {eip : BitVec 32} {so : Bool} {opcode : BitVec 8}
    {operands after : List (BitVec 8)}
    (hw : vm.memory.getSizedMemory eip 16 =
      .ok (overrideRun so ++ (opcode :: operands ++ after)))
    (hplain : PlainOpcode opcode)
    (hsize : (entryOf false opcode).operandSize operands so = operands.length)
    (hb : ((entryOf false opcode).selected operands).pipelineBehavior ≠ .relativeJump)
    (writeable : Bool) (p : Pipeline) :
    ∃ g n, fillSlot vm OPCODES writeable eip p = .ok g ∧
      g.slot = surcharge vm.charger writeable
        (opcodeSlot vm.charger (entryOf false opcode) so n opcode operands) := by
  have hlen := MemorySystem.getSizedMemory_length hw
  have hrun : (overrideRun so).length ≤ 1 := by cases so <;> decide
  have hafter : 5 ≤ (operands ++ after).length := by
    rw [List.length_append, List.cons_append, List.length_cons] at hlen
    change _ = 16 at hlen
    omega
  have hsplit : Split (overrideRun so ++ (opcode :: operands ++ after)) (overrideRun so) false
      opcode (operands ++ after) := by
    refine ⟨rfl, ?_, fun _ ↦ hplain⟩
    intro b hb
    cases so with
    | true =>
      rw [List.mem_singleton.mp hb]
      rfl
    | false => cases hb
  have htake : (operands ++ after).take ((entryOf false opcode).operandSize operands so) =
      operands.take ((entryOf false opcode).operandSize operands so) := by
    rw [hsize, List.take_left, List.take_length]
  have hop := OpcodeProperties.operandSize_congr htake
  have hmodrm : (operands ++ after).take ((entryOf false opcode).modrmSize operands) =
      operands.take ((entryOf false opcode).modrmSize operands) :=
    take_congr_of_le htake (by rw [OpcodeProperties.operandSize]; omega)
  have hsel := (OpcodeProperties.selected_congr hmodrm).2.1
  have hmapped : tableIndex false opcode < OPCODE_TABLE_SIZE := by
    have := opcode.isLt
    change opcode.toNat ||| 0 < 0x1FF
    rw [Nat.or_zero]
    omega
  have hfit : (entryOf false opcode).operandSize (operands ++ after) so ≤
      (operands ++ after).length := by
    rw [hop, hsize, List.length_append]
    omega
  have hdecode := @decodeOpcode_eq vm.charger _ _ (prefixesOf_twoBytes (overrideRun so) false)
    (prefixSize (overrideRun so) false) _ (operands ++ after) hmapped
  simp only [prefixesOf_overrideRun] at hdecode
  rw [if_neg (Nat.not_lt.mpr hafter), if_pos hfit, hsel,
    OpcodeProperties.opcodeSlot_congr _ _ _ htake] at hdecode
  obtain ⟨⟨next, stop⟩, hfollow⟩ := followSlot_other vm eip
    (opcodeSlot vm.charger (entryOf false opcode) so (prefixSize (overrideRun so) false) opcode
      operands) hb
  refine ⟨⟨surcharge vm.charger writeable _, next, stop || writeable⟩,
    prefixSize (overrideRun so) false, ?_, rfl⟩
  have hfill := hsplit.fillSlot_eq hw writeable p
  simp only [prefixesOf_overrideRun] at hfill
  rw [if_neg (not_not.mpr rfl), hdecode, ok_bind, hfollow, ok_bind] at hfill
  exact hfill

variable {so : Bool} {opcode : BitVec 8} {f : LogicFn}
  {args : List (ArgSource × OpcodeValueSize)} {imm : List (BitVec 8)}
  {locations : Fin 3 → ArgLocation}

theorem encodes_of_selected {operands : List (BitVec 8)} (only : f.operandsOnly = true)
    (hplain : PlainOpcode opcode)
    (hrow : ((entryOf false opcode).selected operands).IsRow f args)
    (hsize : (entryOf false opcode).operandSize operands so = operands.length)
    (hl : ∀ n, ((Opcode.row f args).argsOf so
      (((entryOf false opcode).parsedModrm operands).getD {}) opcode
      (operands.drop ((entryOf false opcode).modrmSize operands)) n).location = locations n) :
    Encodes so (opcode :: operands) f locations where
  only := only
  fills hw writeable p := by
    obtain ⟨g, n, hfill, hslot⟩ := fillSlot_complete hw hplain hsize hrow.2.1 writeable p
    refine ⟨g, hfill, ?_, ?_, ?_⟩
    · rw [hslot, surcharge_function]
      exact congrArg SlotFn.opcode hrow.1
    · rw [hslot, surcharge_sizeOverride]
      rfl
    · intro k
      rw [hslot, surcharge_args, ← hl k, ← hrow.argsOf]
      rfl

def IsModrm (modrm : List (BitVec 8)) : Prop := modrm.length = addressingSize modrm

theorem IsModrm.append {modrm : List (BitVec 8)} (h : IsModrm modrm) (more : List (BitVec 8)) :
    addressingSize (modrm ++ more) = modrm.length ∧
      ParsedModRM.ofBytes (modrm ++ more) = ParsedModRM.ofBytes modrm ∧
      (modrm ++ more).headD 0 = modrm.headD 0 := by
  have hsize : modrm.length = addressingSize modrm := h
  have htake : (modrm ++ more).take (addressingSize modrm) =
      modrm.take (addressingSize modrm) := by
    rw [← hsize, List.take_left, List.take_length]
  obtain ⟨hadd, hparsed⟩ := addressing_congr htake
  refine ⟨hadd.trans hsize.symm, hparsed, ?_⟩
  have hpos := (addressingSize_le modrm).1
  cases modrm with
  | nil =>
    change 0 = _ at hsize
    omega
  | cons => rfl

/-- A row of the one-byte map with a ModRM byte, or without one. -/
structure MapRow (hasModrm : Bool) (opcode : BitVec 8) (inner : Fin 8) (f : LogicFn)
    (args : List (ArgSource × OpcodeValueSize)) : Prop where
  only : f.operandsOnly = true
  plain : PlainOpcode opcode
  modrm : (entryOf false opcode).hasModrm = hasModrm
  row : ((entryOf false opcode).opcodes inner).IsRow f args

instance (hasModrm : Bool) (opcode : BitVec 8) (inner : Fin 8) (f : LogicFn)
    (args : List (ArgSource × OpcodeValueSize)) :
    Decidable (MapRow hasModrm opcode inner f args) :=
  decidable_of_iff (f.operandsOnly = true ∧ PlainOpcode opcode ∧
      (bucketEntry opcode).hasModrm = hasModrm ∧
      ((bucketEntry opcode).opcodes inner).IsRow f args) <| by
    rw [bucketEntry_eq]
    exact ⟨fun ⟨ho, hp, hm, hr⟩ ↦ ⟨ho, hp, hm, hr⟩, fun h ↦ ⟨h.only, h.plain, h.modrm, h.row⟩⟩

theorem MapRow.encodes {modrm : List (BitVec 8)}
    (h : MapRow true opcode (regField (modrm.headD 0)) f args)
    (hmodrm : IsModrm modrm) (hsize : (Opcode.row f args).immediateSize so = imm.length)
    (hl : ∀ n, ((Opcode.row f args).argsOf so (.ofBytes modrm) opcode imm n).location =
      locations n) :
    Encodes so (opcode :: (modrm ++ imm)) f locations := by
  obtain ⟨only, hplain, hm, hrow⟩ := h
  obtain ⟨hadd, hparsed, hhead⟩ := hmodrm.append imm
  have hsel : (entryOf false opcode).selected (modrm ++ imm) =
      (entryOf false opcode).opcodes (regField (modrm.headD 0)) := by
    rw [OpcodeProperties.selected, if_pos hm, hhead]
  have hmodrmSize : (entryOf false opcode).modrmSize (modrm ++ imm) = modrm.length := by
    rw [OpcodeProperties.modrmSize, if_pos hm, hadd]
  apply @encodes_of_selected so opcode f args locations _ only hplain
  · rw [hsel]
    exact hrow
  · rw [OpcodeProperties.operandSize, hmodrmSize, hsel, hrow.immediateSize, hsize,
      List.length_append]
  · intro n
    rw [hmodrmSize, List.drop_left, OpcodeProperties.parsedModrm, if_pos hm, hparsed, ← hl n]
    rfl

theorem MapRow.encodesModrm {modrm : List (BitVec 8)}
    (h : MapRow true opcode (regField (modrm.headD 0)) f args)
    (hmodrm : IsModrm modrm) (hsize : (Opcode.row f args).immediateSize so = 0)
    (hl : ∀ n, ((Opcode.row f args).argsOf so (.ofBytes modrm) opcode [] n).location =
      locations n) :
    Encodes so (opcode :: modrm) f locations := by
  rw [← List.append_nil modrm]
  exact h.encodes hmodrm hsize hl

theorem MapRow.encodesPlain (h : MapRow false opcode 0 f args)
    (hsize : (Opcode.row f args).immediateSize so = imm.length)
    (hl : ∀ n, ((Opcode.row f args).argsOf so {} opcode imm n).location = locations n) :
    Encodes so (opcode :: imm) f locations := by
  obtain ⟨only, hplain, hm, hrow⟩ := h
  have hn : ¬(entryOf false opcode).hasModrm = true := by simp [hm]
  have hsel : (entryOf false opcode).selected imm = (entryOf false opcode).opcodes 0 := by
    rw [OpcodeProperties.selected, if_neg hn]
  have hmodrmSize : (entryOf false opcode).modrmSize imm = 0 := if_neg hn
  apply @encodes_of_selected so opcode f args locations _ only hplain
  · rw [hsel]
    exact hrow
  · rw [OpcodeProperties.operandSize, hmodrmSize, hsel, hrow.immediateSize, hsize, Nat.zero_add]
  · intro n
    rw [hmodrmSize, List.drop_zero, OpcodeProperties.parsedModrm, if_neg hn, ← hl n]
    rfl

end Encodings

end Qx86
