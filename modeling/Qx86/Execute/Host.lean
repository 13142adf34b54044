import Qx86.Machine.Logic
import Qx86.Decode.Definitions

namespace Qx86

open Foundation Words

/-- The environment that answers interrupts. It has a state of its own, receives the
virtual machine, may change it, and returns. -/
structure Hypervisor (σ : Type) where
  interrupt : VM → BitVec 8 → σ → Except VMError Unit × VM × σ

@[ext] structure Machine (σ : Type) where
  vm : VM
  host : σ

variable {σ : Type}

namespace Machine

def setGas (m : Machine σ) (g : BitVec 64) : Machine σ := { m with vm := m.vm.setGas g }

def charge (m : Machine σ) (cost : BitVec 64) : Machine σ :=
  m.setGas (saturatingSub m.vm.gasRemaining cost)

def advance (m : Machine σ) (eipSize : BitVec 8) : Machine σ :=
  { m with vm := { m.vm with eip := m.vm.eip + eipSize.setWidth 32 } }

def fail (m : Machine σ) : Machine σ :=
  { m with vm := { m.vm with errorEip := m.vm.eip } }

@[simp] theorem setGas_vm (m : Machine σ) (g : BitVec 64) : (m.setGas g).vm = m.vm.setGas g := rfl

@[simp] theorem setGas_host (m : Machine σ) (g : BitVec 64) : (m.setGas g).host = m.host := rfl

@[simp] theorem setGas_setGas (m : Machine σ) (g g' : BitVec 64) :
    (m.setGas g).setGas g' = m.setGas g' := rfl

@[simp] theorem setGas_self (m : Machine σ) : m.setGas m.vm.gasRemaining = m := rfl

end Machine

def OpcodeFn.call (hv : Hypervisor σ) (f : OpcodeFn) (p : Pipeline) (m : Machine σ) :
    Outcome VMError Unit × Machine σ :=
  match f with
  | .logic f =>
    let (r, vm) := (f.logic p).run m.vm
    (r, { m with vm := vm })
  | .interrupt =>
    match m.vm.getArg (p.args 0).location >>= SizedValue.u8Exact with
    | .error e => (.err e, m)
    | .ok num =>
      let (r, vm, host) := hv.interrupt m.vm num m.host
      (.ofExcept r, ⟨vm, host⟩)

theorem OpcodeFn.call_logic (hv : Hypervisor σ) (f : LogicFn) (p : Pipeline) (m : Machine σ) :
    (OpcodeFn.logic f).call hv p m =
      (((f.logic p).run m.vm).1, ⟨((f.logic p).run m.vm).2, m.host⟩) := rfl

/-- The opcodes that a REP prefix repeats without looking at the zero flag. -/
def repNoFlagOpcodes (opcode : BitVec 8) : Bool :=
  opcode ∈ [0xA4#8, 0xA5#8, 0xAC#8, 0xAD#8, 0xAA#8, 0xAB#8]

def repFlagOpcodes (opcode : BitVec 8) : Bool :=
  opcode ∈ [0xA6#8, 0xA7#8, 0xAE#8, 0xAF#8]

namespace VM

def readRegw (vm : VM) (reg : Register) (sizeOverride : Bool) : BitVec 32 :=
  if sizeOverride then vm.regs reg &&& 0x0000FFFF else vm.regs reg

def decrementRegw (vm : VM) (reg : Register) (sizeOverride : Bool) : VM :=
  if sizeOverride then
    let r : BitVec 16 := (vm.regs reg &&& 0x0000FFFF).setWidth 16 - 1
    vm.setReg32 reg ((vm.regs reg &&& 0xFFFF0000) ||| r.setWidth 32)
  else vm.setReg32 reg (vm.regs reg - 1)

section Decrement

variable (vm : VM) (reg : Register) (sizeOverride : Bool)

theorem decrementRegw_writes :
    ∃ v, vm.decrementRegw reg sizeOverride = vm.setReg32 reg v := by
  unfold decrementRegw
  split
  · exact ⟨_, rfl⟩
  · exact ⟨_, rfl⟩

theorem decrementRegw_frame : vm.Frame (vm.decrementRegw reg sizeOverride) := by
  obtain ⟨v, h⟩ := vm.decrementRegw_writes reg sizeOverride
  rw [h]
  exact setReg32_frame vm reg v

@[simp] theorem decrementRegw_eip : (vm.decrementRegw reg sizeOverride).eip = vm.eip := by
  obtain ⟨v, h⟩ := vm.decrementRegw_writes reg sizeOverride
  rw [h]
  rfl

@[simp] theorem decrementRegw_flags : (vm.decrementRegw reg sizeOverride).flags = vm.flags := by
  obtain ⟨v, h⟩ := vm.decrementRegw_writes reg sizeOverride
  rw [h]
  rfl

end Decrement

end VM

/-- The entry of the one-byte map that a REP prefix repeats. -/
def repOpcode (opcode : BitVec 8) : Opcode :=
  (OPCODES ⟨opcode.toNat, by have := opcode.isLt; unfold OPCODE_TABLE_SIZE; omega⟩).opcodes 0

section Rep

variable (hv : Hypervisor σ) (p : Pipeline) (cost : BitVec 64)
  (verdict : VM → Outcome VMError Bool)

def repPass (m : Machine σ) : Outcome VMError Unit × Machine σ :=
  match (repOpcode p.opcode).function.call hv p m with
  | (.ok _, m) =>
    (.ok (), Machine.charge { m with vm := m.vm.decrementRegw .ecx p.sizeOverride } cost)
  | r => r

/-- The loops of `repe` and `repne`, which differ in what they do after a pass: go on,
stop, or fail. The number bounds the passes. -/
def repLoop : ℕ → Machine σ → Outcome VMError Unit × Machine σ
  | 0, m => (.ok (), m)
  | n + 1, m =>
    if m.vm.readRegw .ecx p.sizeOverride = 0 then (.ok (), m)
    else if m.vm.gasRemaining = 0 then (.err .outOfGas, m)
    else
      match repPass hv p cost m with
      | (.ok _, m) =>
        match verdict m.vm with
        | .ok true => repLoop n m
        | .ok false => (.ok (), m)
        | .err e => (.err e, m)
        | .panic => (.panic, m)
      | r => r

end Rep

def repeVerdict (opcode : BitVec 8) (vm : VM) : Outcome VMError Bool :=
  if repFlagOpcodes opcode then .ok vm.flags.zero
  else if repNoFlagOpcodes opcode then .ok true
  else .err .invalidOpcodeEncoding

def repneVerdict (vm : VM) : Outcome VMError Bool := .ok (!vm.flags.zero)

/-- The counter of a REP loop bounds its passes: no string function changes it. -/
def repe (hv : Hypervisor σ) (p : Pipeline) (m : Machine σ) :
    Outcome VMError Unit × Machine σ :=
  repLoop hv p (m.vm.charger.cost (repOpcode p.opcode).gasCost) (repeVerdict p.opcode)
    (m.vm.readRegw .ecx p.sizeOverride).toNat m

def repne (hv : Hypervisor σ) (p : Pipeline) (m : Machine σ) :
    Outcome VMError Unit × Machine σ :=
  if repFlagOpcodes p.opcode then
    repLoop hv p (m.vm.charger.cost (repOpcode p.opcode).gasCost) repneVerdict
      (m.vm.readRegw .ecx p.sizeOverride).toNat m
  else (.err .invalidOpcodeEncoding, m)

def SlotFn.call (hv : Hypervisor σ) (f : SlotFn) (p : Pipeline) (m : Machine σ) :
    Outcome VMError Unit × Machine σ :=
  match f with
  | .opcode f => f.call hv p m
  | .repe => Qx86.repe hv p m
  | .repne => Qx86.repne hv p m

end Qx86
