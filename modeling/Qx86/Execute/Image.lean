import Qx86.Execute.Cycle

namespace Qx86

def CODE_MEM : BitVec 32 := 0x10000

def DATA_MEM : BitVec 32 := 0x80000000

def INITIAL_GAS : BitVec 64 := 10000000

def codeMemory (code data : BufferMemory) : MemorySystem :=
  ((default : MemorySystem).insert CODE_MEM code).insert DATA_MEM data

theorem zeros_nonempty : 0 < (List.replicate 16 (0 : BitVec 8)).length := by
  decide

def zeroSection : BufferMemory := ⟨List.replicate 32 0, by decide⟩

def createVm (code : BufferMemory) : VM where
  regs _ := 0
  eip := CODE_MEM
  flags := {}
  memory := codeMemory code zeroSection
  errorEip := 0
  gasRemaining := INITIAL_GAS
  charger := .testSchedule

/-- A hypervisor that keeps a list of the interrupts it answers. -/
def testHypervisor : Hypervisor (List (BitVec 8)) where
  interrupt vm num s := (.ok (), vm, num :: s)

def createMachine (code : BufferMemory) : Machine (List (BitVec 8)) := ⟨createVm code, []⟩

end Qx86
