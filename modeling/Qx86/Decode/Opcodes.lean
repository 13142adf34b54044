import Qx86.Machine.Slot

namespace Qx86

inductive ArgSource where
  | none
  | modRM
  | modRMReg
  | immediateValue
  | immediateAddress
  | registerSuffix
  | jumpRel
  | literal (v : SizedValue)
  | hardcodedRegister (r : Register)
  deriving DecidableEq

inductive OpcodeValueSize where
  | fixed (size : ValueSize)
  | nativeWord
  deriving DecidableEq

def OpcodeValueSize.toFixed (s : OpcodeValueSize) (sizeOverride : Bool) : ValueSize :=
  match s with
  | .fixed f => f
  | .nativeWord => if sizeOverride then .word else .dword

inductive PipelineBehavior where
  | none
  | relativeJump
  | unpredictable
  | unpredictableNoGas
  deriving DecidableEq

@[ext] structure Opcode where
  function : OpcodeFn := .logic .opUndefined
  argSize : Fin 3 → OpcodeValueSize := fun _ ↦ .fixed .none
  argSource : Fin 3 → ArgSource := fun _ ↦ .none
  gasCost : GasCost := .none
  pipelineBehavior : PipelineBehavior := .unpredictable
  defined : Bool := false

instance : DecidableEq Opcode := fun p q ↦
  decidable_of_iff (p.function = q.function ∧ (∀ n, p.argSize n = q.argSize n) ∧
      (∀ n, p.argSource n = q.argSource n) ∧ p.gasCost = q.gasCost ∧
      p.pipelineBehavior = q.pipelineBehavior ∧ p.defined = q.defined)
    ⟨fun ⟨hf, ha, hs, hg, hp, hd⟩ ↦ Opcode.ext hf (funext ha) (funext hs) hg hp hd, by
      rintro rfl
      simp⟩

structure OpcodeProperties where
  hasModrm : Bool := false
  defined : Bool := false
  opcodes : Fin 8 → Opcode := fun _ ↦ {}

def OPCODE_TABLE_SIZE : ℕ := 0x1FF

def OP_TWOBYTE : ℕ := 1 <<< 8

abbrev OpcodeTable := Fin OPCODE_TABLE_SIZE → OpcodeProperties

structure OpcodeDefiner where
  opcode : BitVec 8
  len : ℕ
  twoByte : Bool := false
  group : Option (BitVec 8) := none
  gasLevel : Option GasCost := none
  args : List (ArgSource × OpcodeValueSize) := []
  function : Option OpcodeFn := none
  jump : Option PipelineBehavior := none
  hasModrm : Bool := false
  regSuffix : Bool := false

def defineOpcodeMulti (opcode : BitVec 8) (len : ℕ) : OpcodeDefiner where
  opcode := opcode
  len := len

def defineOpcode (opcode : BitVec 8) : OpcodeDefiner := defineOpcodeMulti opcode 1

namespace OpcodeDefiner

def isTwoByteOp (d : OpcodeDefiner) : OpcodeDefiner := { d with twoByte := true }

def isGroup (d : OpcodeDefiner) (group : BitVec 8) : OpcodeDefiner :=
  { d with group := some group, hasModrm := true }

def calls (d : OpcodeDefiner) (f : LogicFn) : OpcodeDefiner :=
  { d with function := some (.logic f) }

def callsInterrupt (d : OpcodeDefiner) : OpcodeDefiner := { d with function := some .interrupt }

def withArg (d : OpcodeDefiner) (source : ArgSource) (size : OpcodeValueSize) : OpcodeDefiner :=
  { d with
    hasModrm := d.hasModrm || source == .modRMReg || source == .modRM
    regSuffix := d.regSuffix || source == .registerSuffix
    args := d.args ++ [(source, size)] }

def isJump (d : OpcodeDefiner) : OpcodeDefiner := { d with jump := some .relativeJump }

def isUnpredictable (d : OpcodeDefiner) : OpcodeDefiner := { d with jump := some .unpredictable }

def isUnpredictableNoGas (d : OpcodeDefiner) : OpcodeDefiner :=
  { d with jump := some .unpredictableNoGas }

def withGas (d : OpcodeDefiner) (gas : GasCost) : OpcodeDefiner :=
  { d with gasLevel := some gas }

def withRm8 (d : OpcodeDefiner) : OpcodeDefiner := d.withArg .modRM (.fixed .byte)
def withRm16 (d : OpcodeDefiner) : OpcodeDefiner := d.withArg .modRM (.fixed .word)
def withRmw (d : OpcodeDefiner) : OpcodeDefiner := d.withArg .modRM .nativeWord
def withRmRegw (d : OpcodeDefiner) : OpcodeDefiner := d.withArg .modRMReg .nativeWord
def withRmReg32 (d : OpcodeDefiner) : OpcodeDefiner := d.withArg .modRMReg (.fixed .dword)
def withRmReg8 (d : OpcodeDefiner) : OpcodeDefiner := d.withArg .modRMReg (.fixed .byte)
def withImm8 (d : OpcodeDefiner) : OpcodeDefiner := d.withArg .immediateValue (.fixed .byte)
def withImm16 (d : OpcodeDefiner) : OpcodeDefiner := d.withArg .immediateValue (.fixed .word)
def withImmw (d : OpcodeDefiner) : OpcodeDefiner := d.withArg .immediateValue .nativeWord
def withOffs8 (d : OpcodeDefiner) : OpcodeDefiner := d.withArg .immediateAddress (.fixed .byte)
def withOffsw (d : OpcodeDefiner) : OpcodeDefiner := d.withArg .immediateAddress .nativeWord
def withSuffixReg8 (d : OpcodeDefiner) : OpcodeDefiner := d.withArg .registerSuffix (.fixed .byte)
def withSuffixRegw (d : OpcodeDefiner) : OpcodeDefiner := d.withArg .registerSuffix .nativeWord
def withSuffixReg32 (d : OpcodeDefiner) : OpcodeDefiner :=
  d.withArg .registerSuffix (.fixed .dword)

def slots (d : OpcodeDefiner) : List ℕ :=
  (List.range (if d.regSuffix then 8 else d.len)).map fun n ↦
    let op := d.opcode.toNat + n
    if d.twoByte then op ||| OP_TWOBYTE else op

def opStart (d : OpcodeDefiner) : ℕ := (d.group.getD 0).toNat

def opLimit (d : OpcodeDefiner) : ℕ :=
  if d.hasModrm then (d.group.map (·.toNat + 1)).getD 8 else 1

def writesInner (d : OpcodeDefiner) (inner : Fin 8) : Bool :=
  decide (d.opStart ≤ inner.val ∧ inner.val < d.opLimit)

/-- What the loop over the inner opcodes unwraps and indexes, if it runs at all. -/
def complete (d : OpcodeDefiner) : Bool :=
  decide (d.opLimit ≤ d.opStart) ||
    (d.function.isSome && decide (d.args.length ≤ 3) && decide (d.opLimit ≤ 8))

def writeOpcode (d : OpcodeDefiner) (op : Opcode) : Opcode where
  defined := true
  function := d.function.getD (.logic .opUndefined)
  gasCost := d.gasLevel.getD .low
  pipelineBehavior := d.jump.getD .none
  argSource n := (d.args[n.val]?.map Prod.fst).getD (op.argSource n)
  argSize n := (d.args[n.val]?.map Prod.snd).getD (op.argSize n)

/-- The entry for nop, which the later definition of xchg leaves as it is. -/
def keeps (op : ℕ) (e : OpcodeProperties) : Bool := op == 0x90 && e.defined

def writeEntry (d : OpcodeDefiner) (e : OpcodeProperties) : OpcodeProperties where
  defined := true
  hasModrm := d.hasModrm
  opcodes inner :=
    if d.writesInner inner then d.writeOpcode (e.opcodes inner) else e.opcodes inner

def intoTable (d : OpcodeDefiner) (table : OpcodeTable) : OpcodeTable := fun op ↦
  if op.val ∈ d.slots ∧ keeps op (table op) = false then d.writeEntry (table op) else table op

/-- Whether `into_table` gets by the checks on which it unwinds. -/
def accepted (d : OpcodeDefiner) (table : OpcodeTable) : Bool :=
  d.len != 0 && (!d.regSuffix || d.len == 1) &&
    d.slots.all fun op ↦
      if h : op < OPCODE_TABLE_SIZE then
        let e := table ⟨op, h⟩
        keeps op e || (!(e.defined && !e.hasModrm) && d.complete &&
          (List.finRange 8).all fun inner ↦
            !(d.writesInner inner) || !(e.opcodes inner).defined)
      else false

end OpcodeDefiner

end Qx86
