import Qx86.Machine.Flags
import Qx86.Machine.Memory

namespace Qx86

open Foundation Words

inductive GasCost where
  | none
  | veryLow
  | low
  | moderate
  | high
  | conditionalBranch
  | memoryAccess
  | writeableMemoryExec
  | modRMSurcharge
  deriving DecidableEq

structure GasCharger where
  cost : GasCost → BitVec 64

/-- What some charges add up to in the 64 bits of a slot. -/
def GasCharger.total (charger : GasCharger) (charges : List GasCost) : BitVec 64 :=
  (charges.map charger.cost).sum

def GasCharger.testSchedule : GasCharger where
  cost
    | .none => 0
    | .veryLow => 1
    | .low => 4
    | .moderate => 10
    | .high => 20
    | .conditionalBranch => 10
    | .memoryAccess => 1
    | .writeableMemoryExec => 15
    | .modRMSurcharge => 1

@[ext] structure VM where
  regs : Register → BitVec 32
  eip : BitVec 32
  flags : X86Flags
  memory : MemorySystem
  errorEip : BitVec 32
  gasRemaining : BitVec 64
  charger : GasCharger

namespace VM

def reg32 (vm : VM) (r : Register) : BitVec 32 := vm.regs r

def reg16 (vm : VM) (r : Register) : BitVec 16 := (vm.regs r &&& 0xFFFF).setWidth 16

def reg8 (vm : VM) (r : Register) : BitVec 8 :=
  if r &&& 4 = 0 then (vm.regs r &&& 0xFF).setWidth 8
  else ((vm.regs (r &&& 3) &&& 0xFF00) >>> 8).setWidth 8

def getReg (vm : VM) (r : Register) : ValueSize → SizedValue
  | .none => .none
  | .byte => .byte (vm.reg8 r)
  | .word => .word (vm.reg16 r)
  | .dword => .dword (vm.reg32 r)
  | .qword => .none

def setReg32 (vm : VM) (r : Register) (v : BitVec 32) : VM :=
  { vm with regs := Function.update vm.regs r v }

def setReg (vm : VM) (r : Register) : SizedValue → VM
  | .none => vm
  | .qword _ => vm
  | .byte v =>
    if r &&& 4 = 0 then vm.setReg32 r ((vm.regs r &&& 0xFFFFFF00) ||| v.setWidth 32)
    else vm.setReg32 (r &&& 3) ((vm.regs (r &&& 3) &&& 0xFFFF00FF) ||| (v.setWidth 32 <<< 8))
  | .word v => vm.setReg32 r ((vm.regs r &&& 0xFFFF0000) ||| v.setWidth 32)
  | .dword v => vm.setReg32 r v

def getMem (vm : VM) (address : BitVec 32) : ValueSize → Except VMError SizedValue
  | .none => .ok .none
  | .byte => .byte <$> vm.memory.getU8 address
  | .word => .word <$> vm.memory.getU16 address
  | .dword => .dword <$> vm.memory.getU32 address
  | .qword => .qword <$> vm.memory.getU64 address

def setMem (vm : VM) (address : BitVec 32) (value : SizedValue) : Except VMError VM :=
  if address &&& 0x80000000 = 0 then .error (.wroteReadOnlyMemory address)
  else
    (fun m ↦ { vm with memory := m }) <$> vm.memory.setSized address value

def calculateModrmAddress (vm : VM) (offset : Option (BitVec 32)) (reg : Option Register) :
    BitVec 32 :=
  offset.getD 0 + (reg.map vm.regs).getD 0

def calculateSibAddress (vm : VM) (offset : BitVec 32) (base : Option Register)
    (scale : BitVec 8) (index : Option Register) : BitVec 32 :=
  (base.map vm.regs).getD 0 + (index.map vm.regs).getD 0 * scale.setWidth 32 + offset

def getArg (vm : VM) : ArgLocation → Except VMError SizedValue
  | .none => .ok .none
  | .immediate v => .ok v
  | .address a s => vm.getMem a s
  | .registerValue r s => .ok (vm.getReg r s)
  | .registerAddress r s => vm.getMem (vm.reg32 r) s
  | .modRMAddress offset reg s => vm.getMem (vm.calculateModrmAddress offset reg) s
  | .sibAddress offset base scale index s =>
    vm.getMem (vm.calculateSibAddress offset base scale index) s

def getArgLea (vm : VM) : ArgLocation → Except VMError (BitVec 32)
  | .address a _ => .ok a
  | .registerAddress r _ => .ok (vm.reg32 r)
  | .modRMAddress offset reg _ => .ok (vm.calculateModrmAddress offset reg)
  | .sibAddress offset base scale index _ =>
    .ok (vm.calculateSibAddress offset base scale index)
  | _ => .error .invalidOpcodeEncoding

def setArg (vm : VM) (arg : ArgLocation) (v : SizedValue) : Except VMError VM :=
  match arg with
  | .none => .ok vm
  | .immediate _ => .error .wroteUnwriteableArgument
  | .address a s => v.convertSizeZx s >>= vm.setMem a
  | .registerValue r s => vm.setReg r <$> v.convertSizeZx s
  | .registerAddress r s => v.convertSizeZx s >>= vm.setMem (vm.reg32 r)
  | .modRMAddress offset reg s =>
    vm.setMem (vm.calculateModrmAddress offset reg) (v.convertSizeTrunc s)
  | .sibAddress offset base scale index s =>
    vm.setMem (vm.calculateSibAddress offset base scale index) (v.convertSizeTrunc s)

/-- What a logic function may leave changed: registers, flags, `eip`, and
memory through the guard. Gas, the charger and `error_eip` belong to the cycle. -/
structure Frame (vm vm' : VM) : Prop where
  memory : vm.memory.Guarded vm'.memory
  errorEip : vm'.errorEip = vm.errorEip
  gas : vm'.gasRemaining = vm.gasRemaining
  charger : vm'.charger = vm.charger

theorem Frame.refl (vm : VM) : Frame vm vm := ⟨.refl _, rfl, rfl, rfl⟩

theorem Frame.trans {vm vm' vm'' : VM} (h : Frame vm vm') (h' : Frame vm' vm'') :
    Frame vm vm'' :=
  ⟨h.memory.trans h'.memory, h'.errorEip.trans h.errorEip, h'.gas.trans h.gas,
    h'.charger.trans h.charger⟩

def setGas (vm : VM) (g : BitVec 64) : VM := { vm with gasRemaining := g }

@[simp] theorem setGas_regs (vm : VM) (g : BitVec 64) : (vm.setGas g).regs = vm.regs := rfl
@[simp] theorem setGas_eip (vm : VM) (g : BitVec 64) : (vm.setGas g).eip = vm.eip := rfl
@[simp] theorem setGas_flags (vm : VM) (g : BitVec 64) : (vm.setGas g).flags = vm.flags := rfl
@[simp] theorem setGas_memory (vm : VM) (g : BitVec 64) : (vm.setGas g).memory = vm.memory := rfl
@[simp] theorem setGas_charger (vm : VM) (g : BitVec 64) :
    (vm.setGas g).charger = vm.charger := rfl
@[simp] theorem setGas_gas (vm : VM) (g : BitVec 64) : (vm.setGas g).gasRemaining = g := rfl
@[simp] theorem setGas_setGas (vm : VM) (g g' : BitVec 64) :
    (vm.setGas g).setGas g' = vm.setGas g' := rfl
@[simp] theorem setGas_self (vm : VM) : vm.setGas vm.gasRemaining = vm := rfl

@[simp] theorem setReg32_frame (vm : VM) (r : Register) (v : BitVec 32) :
    Frame vm (vm.setReg32 r v) := ⟨.refl _, rfl, rfl, rfl⟩

theorem setReg_frame (vm : VM) (r : Register) (v : SizedValue) : Frame vm (vm.setReg r v) := by
  cases v with
  | none | qword => exact .refl _
  | byte v => simp only [setReg]; split <;> exact setReg32_frame ..
  | word | dword => exact setReg32_frame ..

theorem setReg_eip (vm : VM) (r : Register) (v : SizedValue) : (vm.setReg r v).eip = vm.eip := by
  cases v <;> simp only [setReg] <;> try rfl
  split <;> rfl

theorem setReg_setGas (vm : VM) (r : Register) (v : SizedValue) (g : BitVec 64) :
    (vm.setGas g).setReg r v = (vm.setReg r v).setGas g := by
  cases v <;> simp only [setReg] <;> try rfl
  split <;> rfl

theorem getReg_setGas (vm : VM) (r : Register) (s : ValueSize) (g : BitVec 64) :
    (vm.setGas g).getReg r s = vm.getReg r s := by
  cases s <;> rfl

theorem getMem_setGas (vm : VM) (a : BitVec 32) (s : ValueSize) (g : BitVec 64) :
    (vm.setGas g).getMem a s = vm.getMem a s := by
  cases s <;> rfl

theorem getArg_setGas (vm : VM) (arg : ArgLocation) (g : BitVec 64) :
    (vm.setGas g).getArg arg = vm.getArg arg := by
  cases arg <;> simp [getArg, getReg_setGas, getMem_setGas] <;> rfl

theorem getArgLea_setGas (vm : VM) (arg : ArgLocation) (g : BitVec 64) :
    (vm.setGas g).getArgLea arg = vm.getArgLea arg := by
  cases arg <;> rfl

theorem setMem_frame {vm vm' : VM} {a : BitVec 32} {v : SizedValue}
    (h : vm.setMem a v = .ok vm') : Frame vm vm' ∧ vm'.eip = vm.eip := by
  unfold setMem at h
  split at h
  · cases h
  · next ha =>
    rw [topBit_eq_zero] at ha
    cases hm : vm.memory.setSized a v with
    | error e => simp [hm] at h
    | ok m =>
      simp only [hm, Functor.map, Except.map, Except.ok.injEq] at h
      subst h
      exact ⟨⟨MemorySystem.setSized_guarded ha hm, rfl, rfl, rfl⟩, rfl⟩

theorem setMem_setGas (vm : VM) (a : BitVec 32) (v : SizedValue) (g : BitVec 64) :
    (vm.setGas g).setMem a v = (·.setGas g) <$> vm.setMem a v := by
  unfold setMem
  split
  · rfl
  · simp only [setGas_memory, Functor.map_map]
    rfl

theorem setArg_frame {vm vm' : VM} {arg : ArgLocation} {v : SizedValue}
    (h : vm.setArg arg v = .ok vm') : Frame vm vm' ∧ vm'.eip = vm.eip := by
  cases arg with
  | none => cases h; exact ⟨.refl _, rfl⟩
  | immediate => cases h
  | address a s | registerAddress r s =>
    simp only [setArg] at h
    cases hc : v.convertSizeZx s with
    | error e => simp [hc, bind, Except.bind] at h
    | ok u => exact setMem_frame (by simpa [hc, bind, Except.bind] using h)
  | registerValue r s =>
    simp only [setArg] at h
    cases hc : v.convertSizeZx s with
    | error e => simp [hc] at h
    | ok u =>
      simp only [hc, Functor.map, Except.map, Except.ok.injEq] at h
      subst h
      exact ⟨setReg_frame .., setReg_eip ..⟩
  | modRMAddress | sibAddress => exact setMem_frame h

theorem setArg_setGas (vm : VM) (arg : ArgLocation) (v : SizedValue) (g : BitVec 64) :
    (vm.setGas g).setArg arg v = (·.setGas g) <$> vm.setArg arg v := by
  cases arg with
  | none | immediate => rfl
  | address a s | registerAddress r s =>
    simp only [setArg]
    cases v.convertSizeZx s with
    | error e => rfl
    | ok u => exact setMem_setGas ..
  | registerValue r s =>
    simp only [setArg]
    cases v.convertSizeZx s with
    | error e => rfl
    | ok u => exact congrArg Except.ok (setReg_setGas ..)
  | modRMAddress | sibAddress => exact setMem_setGas ..

end VM

end Qx86
