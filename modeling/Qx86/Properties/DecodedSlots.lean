import Qx86.Decode.Rows
import Qx86.Machine.Arithmetic
import Qx86.Properties.OperandWidths

namespace Qx86

open Foundation Outcome

/-- The functions that the map only gives operands of widths that they take. -/
def LogicFn.alwaysFits : LogicFn → Bool
  | pushf | enter | callRel | callAbs | bitTestReset => false
  | _ => true

def LogicFn.takesModrmRegister : LogicFn → Bool
  | xadd8bit | xaddNativeWord | cmpxchg8bit | cmpxchgNativeWord | bitScanForward
  | bitScanReverse => true
  | _ => false

def Opcode.givesRegister (op : Opcode) : Bool :=
  match op.function with
  | .logic g => !g.takesModrmRegister || op.argSource 1 == .modRMReg
  | .interrupt => true

structure Pipeline.Decoded (p : Pipeline) (op : Opcode) : Prop where
  table : ∃ i inner, op = (OPCODES i).opcodes inner
  function : p.function = .opcode op.function
  args : ∀ n, ∃ modrm byte bytes k, decodeArg (op.argSource n)
    ((op.argSize n).toFixed p.sizeOverride) modrm byte bytes = .ok (p.args n, k)

theorem Filled.decoded {vm : VM} {writeable : Bool} {eip : BitVec 32} {q : Pipeline} {f : Filled}
    (h : fillSlot vm OPCODES writeable eip q = .ok f) (hr : f.slot.function.isRep = false) :
    ∃ op, f.slot.Decoded op := by
  obtain ⟨window, pre, n, -, -, -, hf⟩ := fillSlot_eq_ok h
  cases hf with
  | rep slot _ hs he =>
    obtain ⟨b, -, hs⟩ := bind_eq_ok.mp hs
    cases hs
    rw [he, surcharge_function] at hr
    dsimp only at hr
    split at hr <;> cases hr
  | opcode op slot next stop _ hd _ he =>
    refine ⟨op, hd.mem_table, ?_, ?_⟩
    · rw [he, surcharge_function, hd.function]
    · intro k
      obtain ⟨modrm, byte, bytes, m, -, ha⟩ := hd.arg k
      exact ⟨modrm, byte, bytes, m, by rw [he, surcharge_sizeOverride, surcharge_args]; exact ha⟩

namespace Pipeline.Decoded

variable {p : Pipeline} {op : Opcode} {g : LogicFn}

theorem sizes_eq (h : p.Decoded op) : p.sizes = op.sizes p.sizeOverride := by
  funext n
  obtain ⟨i, inner, rfl⟩ := h.table
  obtain ⟨_, _, _, _, ha⟩ := h.args n
  exact decodeArg_size ((OPCODES_widthCase i inner p.sizeOverride).1 n) ha

theorem fits (h : p.Decoded op) (hf : p.function = .opcode (.logic g))
    (hg : g.alwaysFits = true) : g.fits p.sizeOverride p.sizes = true := by
  rw [h.function] at hf
  have hop := SlotFn.opcode.inj hf
  have hsizes := h.sizes_eq
  obtain ⟨i, inner, rfl⟩ := h.table
  have hcase := (OPCODES_widthCase i inner p.sizeOverride).2
  rw [hop] at hcase
  rw [hsizes]
  obtain hc | ⟨-, rfl⟩ | ⟨-, rfl, -⟩ | ⟨rfl, -⟩ | ⟨rfl, -⟩ | ⟨-, rfl, -⟩ := hcase
  · exact hc
  all_goals cases hg

theorem modrm_register (h : p.Decoded op) (hf : p.function = .opcode (.logic g))
    (hg : g.takesModrmRegister = true) :
    ∃ r size, (p.args 1).location = .registerValue r size := by
  rw [h.function] at hf
  obtain ⟨modrm, byte, bytes, k, ha⟩ := h.args 1
  obtain ⟨i, inner, rfl⟩ := h.table
  have hrow : ((OPCODES i).opcodes inner).givesRegister = true :=
    OPCODES_forall (P := (·.givesRegister = true)) (by decide +kernel) (by decide +kernel) i inner
  rw [Opcode.givesRegister, SlotFn.opcode.inj hf] at hrow
  dsimp only at hrow
  rw [hg, Bool.not_true, Bool.false_or, beq_iff_eq] at hrow
  rw [hrow] at ha
  exact ⟨_, _, congrArg OpArgument.location (congrArg Prod.fst (Outcome.ok.inj ha)).symm⟩

theorem of_row {two : Bool} {opcode : BitVec 8} {inner : Fin 8}
    {args : List (ArgSource × OpcodeValueSize)}
    (hmapped : tableIndex two opcode < OPCODE_TABLE_SIZE)
    (hrow : ((entryOf two opcode).opcodes inner).IsRow g args)
    (hf : p.function = .opcode (.logic g))
    (hargs : ∀ n, ∃ modrm byte bytes k, decodeArg ((Opcode.row g args).argSource n)
      (((Opcode.row g args).argSize n).toFixed p.sizeOverride) modrm byte bytes =
        .ok (p.args n, k)) :
    p.Decoded ((entryOf two opcode).opcodes inner) := by
  refine ⟨⟨⟨_, hmapped⟩, inner, ?_⟩, ?_, ?_⟩
  · rw [entryOf, dif_pos hmapped]
  · rw [hf, hrow.1]
  · intro n
    rw [(hrow.2.2 n).1, (hrow.2.2 n).2]
    exact hargs n

end Pipeline.Decoded

section Instruction

def selectedFunction (opcode : BitVec 8) (reg : Fin 8) : OpcodeFn :=
  ((bucketEntry opcode).opcodes (if (bucketEntry opcode).hasModrm then reg else 0)).function

variable {vm : VM} {eip : BitVec 32} {window run rest : List (BitVec 8)} {opcode : BitVec 8}
  {writeable : Bool} {q : Pipeline} {f : Filled}

theorem Split.slot_function (h : Split window run false opcode rest)
    (hrep : (prefixesOf run false).repMode = .none)
    (hw : vm.memory.getSizedMemory eip 16 = .ok window)
    (hf : fillSlot vm OPCODES writeable eip q = .ok f) :
    f.slot.function = .opcode (selectedFunction opcode (regField (rest.headD 0))) := by
  have hslot := (h.slot_eq hw hf).1
  have hn : ¬(prefixesOf run false).repMode ≠ .none := not_not.mpr hrep
  rw [hslot, slotOf, surcharge_function]
  simp only [if_neg hn, selectedFunction, bucketEntry_eq]
  rfl

theorem Split.slot_fits {g : LogicFn} (h : Split window run false opcode rest)
    (hrep : (prefixesOf run false).repMode = .none)
    (hw : vm.memory.getSizedMemory eip 16 = .ok window)
    (hf : fillSlot vm OPCODES writeable eip q = .ok f)
    (hg : selectedFunction opcode (regField (rest.headD 0)) = .logic g)
    (hfits : g.alwaysFits = true) :
    f.slot.function = .opcode (.logic g) ∧ g.fits f.slot.sizeOverride f.slot.sizes = true := by
  have hfn := h.slot_function hrep hw hf
  rw [hg] at hfn
  obtain ⟨op, hop⟩ := Filled.decoded hf (by rw [hfn]; rfl)
  exact ⟨hfn, hop.fits hfn hfits⟩

end Instruction

end Qx86
