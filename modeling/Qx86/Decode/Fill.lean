import Qx86.Decode.Decoding

namespace Qx86

open Foundation Outcome Words PrefixesActivated

def selectOpcode (opcodes : OpcodeTable) (twoBytes : Bool) (buffer : List (BitVec 8)) :
    Outcome VMError (Opcode × Option ParsedModRM) := do
  let byte ← index buffer 0
  let i := byte.toNat ||| (twoBytes.toNat <<< 8)
  if h : i < OPCODE_TABLE_SIZE then
    let prop := opcodes ⟨i, h⟩
    if prop.hasModrm then
      let modrm ← ParsedModRM.fromBytes buffer
      pure (prop.opcodes modrm.modrm.reg, some modrm)
    else pure (prop.opcodes 0, none)
  else .panic

/-- What an instruction is charged for, apart from being in writeable memory. -/
def slotCharges (opcode : Opcode) (modrm : Option ParsedModRM) (args : Fin 3 → OpArgument) :
    List GasCost :=
  (if modrm.isSome then [.modRMSurcharge] else []) ++ [opcode.gasCost] ++
    (if opcode.pipelineBehavior = .unpredictable then [.conditionalBranch] else []) ++
    (List.finRange 3).flatMap fun n ↦ if (args n).isMemory then [.memoryAccess] else []

def decodeOpcode (charger : GasCharger) (opcodes : OpcodeTable) (pre : PrefixesActivated)
    (prefixSize : ℕ) (buffer : List (BitVec 8)) :
    Outcome VMError (Pipeline × PipelineBehavior) := do
  let byte ← index buffer 0
  let (opcode, modrm) ← selectOpcode opcodes pre.twoBytes buffer
  let (args, size) ← decodeArgsWithModrm opcode buffer pre.sizeOverride modrm
  let slot : Pipeline :=
    { function := .opcode opcode.function
      args := args
      gasCost := charger.total (slotCharges opcode modrm args)
      eipSize := BitVec.ofNat 8 size + BitVec.ofNat 8 prefixSize
      sizeOverride := pre.sizeOverride
      opcode := byte }
  pure (slot, opcode.pipelineBehavior)

/-- The slot of an instruction with a REP prefix. The arguments are those that the
slot held before. -/
def decodeRep (charger : GasCharger) (pre : PrefixesActivated) (prefixSize : ℕ)
    (buffer : List (BitVec 8)) (p : Pipeline) : Outcome VMError Pipeline := do
  let opcode ← index buffer 0
  pure { p with
    function := if pre.repMode = .repe then .repe else .repne
    gasCost := charger.cost .moderate
    eipSize := BitVec.ofNat 8 prefixSize + 1
    sizeOverride := pre.sizeOverride
    opcode := opcode }

/-- Where decoding goes on after a slot, and whether it stops there. -/
def followSlot (vm : VM) (eip : BitVec 32) (slot : Pipeline) :
    PipelineBehavior → Outcome VMError (BitVec 32 × Bool)
  | .none => pure (eip + slot.eipSize.setWidth 32, false)
  | .unpredictable | .unpredictableNoGas =>
    pure (eip + slot.eipSize.setWidth 32 + slot.eipSize.setWidth 32, true)
  | .relativeJump => do
    let rel ← ofExcept (vm.getArg (slot.args 0).location >>= SizedValue.u32Sx)
    let eip := eip + slot.eipSize.setWidth 32 + rel - slot.eipSize.setWidth 32
    if slot.sizeOverride then .err (.readBadMemory (eip &&& 0xFFFF))
    else pure (eip + slot.eipSize.setWidth 32, false)

def surcharge (charger : GasCharger) (writeable : Bool) (slot : Pipeline) : Pipeline :=
  if writeable then { slot with gasCost := slot.gasCost + charger.cost .writeableMemoryExec }
  else slot

/-- What the decoding of one slot gives: the slot, the address of the next one and
whether filling stops. -/
structure Filled where
  slot : Pipeline
  next : BitVec 32
  stop : Bool
  deriving DecidableEq

def fillSlot (vm : VM) (opcodes : OpcodeTable) (writeable : Bool) (eip : BitVec 32)
    (p : Pipeline) : Outcome VMError Filled := do
  let buffer ← ofExcept (vm.memory.getSizedMemory eip 16)
  let (pre, prefixSize) ← getPrefixes {} buffer 0
  let buffer ← slice buffer prefixSize
  if pre.repMode ≠ .none then
    let slot ← decodeRep vm.charger pre prefixSize buffer p
    pure ⟨surcharge vm.charger writeable slot, eip, true⟩
  else
    let (slot, behavior) ← decodeOpcode vm.charger opcodes pre prefixSize buffer
    let (next, stop) ← followSlot vm eip slot behavior
    pure ⟨surcharge vm.charger writeable slot, next, stop || writeable⟩

/-- A slot that filling does not reach. It keeps its arguments. -/
def idleSlot (p : Pipeline) : Pipeline :=
  { p with function := .opcode (.logic .nop), eipSize := 0, gasCost := 0 }

def fillLoop (vm : VM) (opcodes : OpcodeTable) (writeable : Bool) :
    (eip : BitVec 32) → (stopFilling : Bool) → (runningGas : BitVec 64) →
    List Pipeline → Outcome VMError (List Pipeline)
  | _, _, _, [] => pure []
  | eip, true, gas, p :: ps => do
    let rest ← fillLoop vm opcodes writeable eip true gas ps
    pure (idleSlot p :: rest)
  | eip, false, gas, p :: ps => do
    let f ← fillSlot vm opcodes writeable eip p
    let gas := saturatingSub gas f.slot.gasCost
    let rest ← fillLoop vm opcodes writeable f.next (f.stop || gas == 0) gas ps
    pure (f.slot :: rest)

/-- The source resets the first slot once for each slot of the buffer. -/
def clearPipeline : List Pipeline → List Pipeline
  | [] => []
  | _ :: ps => default :: ps

/-- Writeable memory is the half of the address space with the top bit set. -/
def writeableAt (eip : BitVec 32) : Bool := decide (0 < eip &&& 0x80000000)

def fillPipeline (vm : VM) (opcodes : OpcodeTable) (pipeline : List Pipeline) :
    Outcome VMError (List Pipeline) :=
  fillLoop vm opcodes (writeableAt vm.eip) vm.eip false vm.gasRemaining
    (clearPipeline pipeline)

end Qx86
