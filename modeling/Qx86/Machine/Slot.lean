import Mathlib.Data.Fin.VecNotation
import Qx86.Machine.State

namespace Qx86

/-- The logic functions of the opcode table that never use the hypervisor they
are handed, by name. -/
inductive LogicFn where
  | nop | opUndefined | mov | pusha | popa | enter | leave | push | pop | bswap
  | pushf | popf | lahf | sahf | stc | clc | cmc | xlatb | cbwCwde | cdqCwd
  | bitTest | bitTestSet | bitTestReset | bitTestComplement | bitScanForward | bitScanReverse
  | xchg | ret | callRel | callAbs | jmpRel | jmpAbs | jmpConditionalEcxIsZero | jcc
  | div8bit | divNativeWord | idiv8bit | idivNativeWord | mul8bit | mulNativeWord
  | imul1_8bit | imul1NativeWord | imul2NativeWord | imul3NativeWord
  | rol8bit | rolNativeWord | rcl8bit | rclNativeWord | rcr8bit | rcrNativeWord
  | ror8bit | rorNativeWord | sar8bit | sarNativeWord | shl8bit | shlNativeWord
  | shr8bit | shrNativeWord | aaa | aas | daa | das | aad | aam
  | adc8bit | adcNativeWord | sbb8bit | sbbNativeWord | xadd8bit | xaddNativeWord
  | add8bit | addNativeWord | hlt | increment8bit | incrementNativeWord
  | sub8bit | subNativeWord | decrement8bit | decrementNativeWord
  | cmpxchg8bit | cmpxchgNativeWord | cmpxchg8b | cmp8bit | cmpNativeWord
  | test8bit | testNativeWord | and8bit | andNativeWord | or8bit | orNativeWord
  | xor8bit | xorNativeWord | not8bit | notNativeWord | neg8bit | negNativeWord
  | setcc8bit | cmovccNative | lea | movzx8bit | movzx16bit | movsx8bit | movsx16bit
  | movsNativeWord | movsb | setDirection | clearDirection | cmpsNativeWord | cmpsb
  | storeStringByte | loadStringByte | scanStringByte
  | storeStringNativeWord | loadStringNativeWord | scanStringNativeWord
  deriving DecidableEq

inductive OpcodeFn where
  | logic (f : LogicFn)
  | interrupt
  deriving DecidableEq

/-- A function pointer of a pipeline slot. The two REP loops are never in the table. -/
inductive SlotFn where
  | opcode (f : OpcodeFn)
  | repe
  | repne
  deriving DecidableEq

@[ext] structure Pipeline where
  function : SlotFn
  args : Fin 3 → OpArgument
  gasCost : BitVec 64
  eipSize : BitVec 8
  sizeOverride : Bool
  opcode : BitVec 8

instance : DecidableEq Pipeline := fun p q ↦
  decidable_of_iff (p.function = q.function ∧ (∀ n, p.args n = q.args n) ∧
      p.gasCost = q.gasCost ∧ p.eipSize = q.eipSize ∧ p.sizeOverride = q.sizeOverride ∧
      p.opcode = q.opcode)
    ⟨fun ⟨hf, ha, hg, he, hs, ho⟩ ↦ Pipeline.ext hf (funext ha) hg he hs ho, by
      rintro rfl
      simp⟩

instance : Inhabited Pipeline where
  default :=
    { function := .opcode (.logic .nop)
      args := ![{}, {}, {}]
      gasCost := 0
      eipSize := 1
      sizeOverride := false
      opcode := 0 }

end Qx86
