import Mathlib.Tactic.Ring
import Qx86.Decode.Charges
import Qx86.Decode.Encoding
import Qx86.Execute.Image
import Qx86.Execute.Prediction

namespace Qx86

open Foundation Outcome PrefixesActivated

def ArgLocation.isMemory : ArgLocation → Bool
  | .address .. | .registerAddress .. | .modRMAddress .. | .sibAddress .. => true
  | .none | .immediate _ | .registerValue .. => false

def ArgSource.isHardcoded : ArgSource → Bool
  | .hardcodedRegister _ => true
  | _ => false

def VM.instructionAt (vm : VM) (eip : BitVec 32) :
    Outcome VMError (OpcodeProperties × Opcode) := do
  let buffer ← ofExcept (vm.memory.getSizedMemory eip 16)
  let (pre, prefixSize) ← getPrefixes {} buffer 0
  let buffer ← slice buffer prefixSize
  let byte ← index buffer 0
  let (opcode, _) ← selectOpcode OPCODES pre.twoBytes buffer
  pure (entryOf pre.twoBytes byte, opcode)

def Opcode.hardcoded (op : Opcode) : ℕ :=
  (List.finRange 3).countP fun n ↦ (op.argSource n).isHardcoded

namespace GasCharger

variable (charger : GasCharger)

def fetchPrice (eip : BitVec 32) : BitVec 64 :=
  if writeableAt eip then charger.cost .writeableMemoryExec else 0

def slotPrice (entry : OpcodeProperties) (opcode : Opcode) (eip : BitVec 32)
    (args : Fin 3 → OpArgument) : BitVec 64 :=
  charger.cost opcode.gasCost + (if entry.hasModrm then charger.cost .modRMSurcharge else 0) +
    (if opcode.pipelineBehavior = .unpredictable then charger.cost .conditionalBranch else 0) +
    charger.fetchPrice eip +
    BitVec.ofNat 64 ((List.finRange 3).countP fun n ↦ (args n).location.isMemory) *
      charger.cost .memoryAccess

@[simp] theorem total_nil : charger.total [] = 0 := rfl

theorem total_marked {α : Type} {marked left right : α → Bool} (g : GasCost)
    (h : ∀ n, marked n = (left n || right n)) (hdisjoint : ∀ n, (left n && right n) = false)
    (l : List α) :
    charger.total (l.flatMap fun n ↦ if marked n then [g] else []) =
      BitVec.ofNat 64 (l.countP left) * charger.cost g +
        BitVec.ofNat 64 (l.countP right) * charger.cost g := by
  induction l with
  | nil => simp
  | cons n l ih =>
    have hn := hdisjoint n
    rw [List.flatMap_cons, total_append, ih, h n, List.countP_cons, List.countP_cons,
      BitVec.ofNat_add, BitVec.ofNat_add]
    cases hleft : left n with
    | false =>
      cases right n with
      | false => simp
      | true =>
        simp [BitVec.add_mul]
        ring
    | true =>
      rw [hleft, Bool.true_and] at hn
      simp [hn, BitVec.add_mul]
      ring

end GasCharger

theorem decodeArg_isMemory {source : ArgSource} {size : ValueSize} {modrm : ParsedModRM}
    {byte : BitVec 8} {bytes : List (BitVec 8)} {arg : OpArgument} {k : ℕ}
    (h : decodeArg source size modrm byte bytes = .ok (arg, k)) :
    arg.isMemory = (arg.location.isMemory || source.isHardcoded) ∧
      (arg.location.isMemory && source.isHardcoded) = false := by
  cases source with
  | none | modRMReg | registerSuffix | literal | hardcodedRegister =>
    cases h
    exact ⟨rfl, rfl⟩
  | modRM =>
    cases h
    refine ⟨?_, Bool.and_false _⟩
    change _ = (_ || false)
    rw [Bool.or_false]
    unfold ModRM.decode
    split
    · rfl
    · split
      · rfl
      · split
        · rfl
        · split <;> rfl
  | immediateAddress =>
    obtain ⟨a, -, h⟩ := bind_eq_ok.mp h
    cases h
    exact ⟨rfl, rfl⟩
  | immediateValue | jumpRel =>
    obtain ⟨⟨v, advance⟩, -, h⟩ := bind_eq_ok.mp h
    cases h
    exact ⟨rfl, rfl⟩

section Fill

variable {vm : VM} {writeable : Bool}

theorem fillLoop_visit (ps : List Pipeline) {slots : List Pipeline} (eip : BitVec 32)
    (gas : BitVec 64) (h : fillLoop vm OPCODES writeable eip false gas ps = .ok slots) {n : ℕ}
    {v : Visit} (hv : (vm.walk writeable ps.length eip gas)[n]? = some v) :
    ∃ args f, vm.decodeAt writeable v.eip = .ok f ∧ slots[n]? = some (f.keepArgs args).slot := by
  induction ps generalizing slots eip gas n with
  | nil => cases hv
  | cons p ps ih =>
    obtain ⟨f, rest, hd, hrest, rfl⟩ := fillLoop_cons_eq_ok h
    rw [List.length_cons, walk_of_ok hd] at hv
    cases n with
    | zero =>
      cases hv
      exact ⟨p.args, f, hd, rfl⟩
    | succ n =>
      rw [List.getElem?_cons_succ] at hv ⊢
      cases hs : f.stop || Words.saturatingSub gas f.slot.gasCost == 0 with
      | true =>
        rw [hs, if_pos rfl] at hv
        cases hv
      | false =>
        rw [hs, if_neg Bool.false_ne_true] at hv
        rw [hs] at hrest
        exact ih _ _ hrest hv

end Fill

theorem selectOpcode_entry {twoBytes : Bool} {buffer : List (BitVec 8)} {opcode : Opcode}
    {modrm : Option ParsedModRM} (h : selectOpcode OPCODES twoBytes buffer = .ok (opcode, modrm)) :
    ∃ byte, buffer[0]? = some byte ∧ (entryOf twoBytes byte).hasModrm = modrm.isSome := by
  obtain ⟨byte, hbyte, op, hop, hentry⟩ := selectOpcode_eq_ok h
  have hlt : tableIndex twoBytes byte < OPCODE_TABLE_SIZE := lt_of_eq_of_lt hop.symm op.isLt
  have hop' : (⟨tableIndex twoBytes byte, hlt⟩ : Fin OPCODE_TABLE_SIZE) = op := Fin.ext hop.symm
  refine ⟨byte, hbyte, ?_⟩
  rw [entryOf, dif_pos hlt, hop']
  obtain ⟨hm, m, -, rfl, -⟩ | ⟨hm, rfl, -⟩ := hentry
  · rw [hm, Option.isSome_some]
  · rw [hm, Option.isSome_none]

theorem total_slotCharges (charger : GasCharger) {opcode : Opcode} {modrm : Option ParsedModRM}
    {args : Fin 3 → OpArgument} {entry : OpcodeProperties} (eip : BitVec 32)
    (hm : entry.hasModrm = modrm.isSome)
    (h : ∀ k, (args k).isMemory =
        ((args k).location.isMemory || (opcode.argSource k).isHardcoded) ∧
      ((args k).location.isMemory && (opcode.argSource k).isHardcoded) = false) :
    charger.total (slotCharges opcode modrm args) + charger.fetchPrice eip =
      charger.slotPrice entry opcode eip args +
        BitVec.ofNat 64 opcode.hardcoded * charger.cost .memoryAccess := by
  have hargs := charger.total_marked .memoryAccess (fun k ↦ (h k).1) (fun k ↦ (h k).2)
    (List.finRange 3)
  have hmodrm : charger.total (if modrm.isSome then [.modRMSurcharge] else []) =
      if entry.hasModrm then charger.cost .modRMSurcharge else 0 := by
    rw [hm]
    split <;> simp
  have hbranch : charger.total
      (if opcode.pipelineBehavior = .unpredictable then [.conditionalBranch] else []) =
      if opcode.pipelineBehavior = .unpredictable then charger.cost .conditionalBranch else 0 := by
    split <;> simp
  rw [slotCharges, GasCharger.total_append, GasCharger.total_append, GasCharger.total_append,
    hargs, hmodrm, hbranch, GasCharger.total_singleton, GasCharger.slotPrice, Opcode.hardcoded]
  ring

theorem decodeAt_price {vm : VM} {writeable : Bool} {eip : BitVec 32} {f : Filled}
    (h : vm.decodeAt writeable eip = .ok f) (hrep : f.slot.function.isRep = false) :
    ∃ entry opcode, vm.instructionAt eip = .ok (entry, opcode) ∧
      f.slot.function = .opcode opcode.function ∧
      f.slot.gasCost + vm.charger.fetchPrice eip =
        vm.charger.slotPrice entry opcode eip f.slot.args +
          (BitVec.ofNat 64 opcode.hardcoded * vm.charger.cost .memoryAccess +
            if writeable then vm.charger.cost .writeableMemoryExec else 0) ∧
      ∀ k, (f.slot.args k).isMemory =
          ((f.slot.args k).location.isMemory || (opcode.argSource k).isHardcoded) ∧
        ((f.slot.args k).location.isMemory && (opcode.argSource k).isHardcoded) = false := by
  obtain ⟨window, pre, n, hw, hp, hn, hf⟩ := fillSlot_eq_ok h
  cases hf with
  | rep slot _ hs he =>
    obtain ⟨b, -, hs⟩ := bind_eq_ok.mp hs
    cases hs
    rw [he, surcharge_function] at hrep
    dsimp only at hrep
    split at hrep <;> cases hrep
  | opcode opcode slot next stop _ hd _ he =>
    subst he
    obtain ⟨modrm, size, hsel, -, -, hgas⟩ := hd.argsOf
    have hmarks : ∀ k, (slot.args k).isMemory =
          ((slot.args k).location.isMemory || (opcode.argSource k).isHardcoded) ∧
        ((slot.args k).location.isMemory && (opcode.argSource k).isHardcoded) = false := by
      intro k
      obtain ⟨_, _, _, _, -, ha⟩ := hd.arg k
      exact decodeArg_isMemory ha
    obtain ⟨byte, hbyte, hm⟩ := selectOpcode_entry hsel
    refine ⟨entryOf pre.twoBytes byte, opcode, ?_, ?_, ?_, ?_⟩
    · rw [VM.instructionAt, hw, ofExcept_ok, ok_bind, hp, ok_bind]
      dsimp only
      rw [slice_of_le hn, ok_bind, index_eq_ok.mpr hbyte, ok_bind, hsel, ok_bind]
      rfl
    · rw [surcharge_function, hd.function]
    · have hcharges := total_slotCharges vm.charger eip hm hmarks
      rw [← hgas] at hcharges
      rw [surcharge_gasCost, surcharge_args, add_right_comm, hcharges, add_assoc]
      cases writeable <;> simp
    · intro k
      rw [surcharge_args]
      exact hmarks k

/-- What has to come to the same for a slot to be priced by what it does: a memory access for
each register that the opcode names with the surcharge of where filling began, and the
surcharge of where the instruction is. -/
def FairlyPriced (vm : VM) (v : Visit) (opcode : Opcode) : Prop :=
  BitVec.ofNat 64 opcode.hardcoded * vm.charger.cost .memoryAccess + vm.charger.fetchPrice vm.eip =
    vm.charger.fetchPrice v.eip

/-- The slots of a pipeline are priced by what they do if no opcode names its registers and they
are all in the same half of memory, and else only by chance. -/
theorem slot_price_iff {vm : VM} {pipeline slots : List Pipeline} {n : ℕ} {v : Visit}
    {slot : Pipeline} (h : fillPipeline vm OPCODES pipeline = .ok slots)
    (hv : (vm.visits pipeline.length)[n]? = some v) (hslot : slots[n]? = some slot)
    (hrep : slot.function.isRep = false) :
    ∃ entry opcode, vm.instructionAt v.eip = .ok (entry, opcode) ∧
      slot.function = .opcode opcode.function ∧
      (slot.gasCost = vm.charger.slotPrice entry opcode v.eip slot.args ↔
        FairlyPriced vm v opcode) ∧
      ∀ k, (slot.args k).isMemory = (slot.args k).location.isMemory ↔
        (opcode.argSource k).isHardcoded = false := by
  rw [← clearPipeline_length] at hv
  obtain ⟨args, f, hd, hf⟩ := fillLoop_visit _ _ _ h hv
  rw [hslot] at hf
  cases hf
  rw [Filled.keepArgs_function] at hrep
  have hkeep : f.keepArgs args = f := by
    rw [Filled.keepArgs, hrep, if_neg Bool.false_ne_true]
  rw [hkeep]
  obtain ⟨entry, opcode, hinstruction, hfunction, hprice, hmarks⟩ := decodeAt_price hd hrep
  refine ⟨entry, opcode, hinstruction, hfunction, ?_, ?_⟩
  · have hbegin : (if writeableAt vm.eip then vm.charger.cost .writeableMemoryExec else 0) =
        vm.charger.fetchPrice vm.eip := rfl
    rw [hbegin] at hprice
    rw [FairlyPriced]
    constructor
    · intro hgas
      rw [hgas] at hprice
      exact (add_left_cancel hprice).symm
    · intro hfair
      rw [hfair] at hprice
      exact add_right_cancel hprice
  · intro k
    obtain ⟨hmark, hdisjoint⟩ := hmarks k
    rw [hmark]
    cases hlocation : (f.slot.args k).location.isMemory with
    | false => simp
    | true =>
      rw [hlocation, Bool.true_and] at hdisjoint
      simp [hdisjoint]

/-- `mov ecx, [eax]` -/
def loadEcx : VM := createVm ⟨[0x8B, 0x08] ++ List.replicate 16 0, by decide⟩

theorem slot_price_iff_loadEcx :
    ∃ slots slot entry opcode, fillPipeline loadEcx OPCODES [default] = .ok slots ∧
      slots[0]? = some slot ∧ loadEcx.instructionAt CODE_MEM = .ok (entry, opcode) ∧
      slot.gasCost = loadEcx.charger.slotPrice entry opcode CODE_MEM slot.args := by
  have hfilled : (fillPipeline loadEcx OPCODES [default]).any
      (fun slots ↦ slots[0]?.any (·.function.isRep == false)) = true := by
    decide +kernel
  have hdecoded : (loadEcx.instructionAt CODE_MEM).any (·.2.hardcoded == 0) = true := by
    decide +kernel
  obtain ⟨slots, hfill, hfirst⟩ := any_eq_true.mp hfilled
  obtain ⟨slot, hslot, hrep⟩ := (Option.any_eq_true ..).mp hfirst
  obtain ⟨⟨entry, opcode⟩, hinstruction, hnone⟩ := any_eq_true.mp hdecoded
  obtain ⟨entry', opcode', hsame, -, hprice, -⟩ :=
    slot_price_iff (n := 0) (v := ⟨CODE_MEM, _⟩) hfill rfl hslot (beq_iff_eq.mp hrep)
  rw [hinstruction] at hsame
  cases hsame
  refine ⟨slots, slot, entry, opcode, hfill, hslot, hinstruction, hprice.mpr ?_⟩
  rw [FairlyPriced, beq_iff_eq.mp hnone]
  exact BitVec.add_left_eq_self.mpr BitVec.zero_mul

/-- `add al, 5` -/
def addAl : VM := createVm ⟨[0x04, 0x05] ++ List.replicate 16 0, by decide⟩

/-- The register AL, which the opcode names, is charged as memory. -/
theorem slot_price_addAl :
    ¬∀ (vm : VM) (pipeline slots : List Pipeline) (n : ℕ) (v : Visit) (slot : Pipeline),
      fillPipeline vm OPCODES pipeline = .ok slots →
      (vm.visits pipeline.length)[n]? = some v → slots[n]? = some slot →
      slot.function.isRep = false →
      ∃ entry opcode, vm.instructionAt v.eip = .ok (entry, opcode) ∧
        slot.gasCost = vm.charger.slotPrice entry opcode v.eip slot.args := by
  intro h
  have hfilled : (fillPipeline addAl OPCODES [default]).any (fun slots ↦ slots[0]?.any fun slot ↦
      slot.function.isRep == false && (addAl.instructionAt CODE_MEM).any fun e ↦
        slot.gasCost != addAl.charger.slotPrice e.1 e.2 CODE_MEM slot.args) = true := by
    decide +kernel
  obtain ⟨slots, hfill, hfirst⟩ := any_eq_true.mp hfilled
  obtain ⟨slot, hslot, hcheck⟩ := (Option.any_eq_true ..).mp hfirst
  obtain ⟨hrep, hdecoded⟩ := Bool.and_eq_true_iff.mp hcheck
  obtain ⟨⟨entry, opcode⟩, hinstruction, hpriced⟩ := any_eq_true.mp hdecoded
  obtain ⟨entry', opcode', hsame, hprice⟩ :=
    h addAl [default] slots 0 ⟨CODE_MEM, _⟩ slot hfill rfl hslot (beq_iff_eq.mp hrep)
  rw [hinstruction] at hsame
  cases hsame
  exact bne_iff_ne.mp hpriced hprice

end Qx86
