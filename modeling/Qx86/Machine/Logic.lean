import Qx86.Machine.Operations.Bits
import Qx86.Machine.Operations.Strings

namespace Qx86

open Foundation

namespace LogicFn

def effects : LogicFn → Effects
  | enter | ret | callRel | callAbs | jmpRel | jmpAbs | jmpConditionalEcxIsZero | jcc => .jump
  | idiv8bit | idivNativeWord => .division
  | _ => .straight

/-- The function a pointer of the opcode table points to. -/
def logic : (f : LogicFn) → Pipeline → Op f.effects Unit
  | nop, _ => pure ()
  | opUndefined, _ => do
    let eip ← Op.eipValue
    let opcode ← Op.getMemAs SizedValue.u8Exact eip .byte
    Op.throw (.invalidOpcode opcode)
  | mov, p => Operations.mov p
  | pusha, p => Operations.pusha p
  | popa, p => Operations.popa p
  | enter, p => Operations.enter p
  | leave, p => Operations.leave p
  | push, p => Operations.push p
  | pop, p => Operations.pop p
  | bswap, p => Operations.bswap p
  | pushf, p => Operations.pushf p
  | popf, p => Operations.popf p
  | lahf, p => Operations.lahf p
  | sahf, p => Operations.sahf p
  | stc, p => Operations.stc p
  | clc, p => Operations.clc p
  | cmc, p => Operations.cmc p
  | xlatb, p => Operations.xlatb p
  | cbwCwde, p => Operations.cbwCwde p
  | cdqCwd, p => Operations.cdqCwd p
  | bitTest, p => Operations.bitTest p
  | bitTestSet, p => Operations.bitTestSet p
  | bitTestReset, p => Operations.bitTestReset p
  | bitTestComplement, p => Operations.bitTestComplement p
  | bitScanForward, p => Operations.bitScanForward p
  | bitScanReverse, p => Operations.bitScanReverse p
  | xchg, p => Operations.xchg p
  | ret, p => Operations.ret p
  | callRel, p => Operations.callRel p
  | callAbs, p => Operations.callAbs p
  | jmpRel, p => Operations.jmpRel p
  | jmpAbs, p => Operations.jmpAbs p
  | jmpConditionalEcxIsZero, p => Operations.jmpConditionalEcxIsZero p
  | jcc, p => Operations.jcc p
  | div8bit, p => Operations.div8bit p
  | divNativeWord, p => Operations.divNativeWord p
  | idiv8bit, p => Operations.idiv8bit p
  | idivNativeWord, p => Operations.idivNativeWord p
  | mul8bit, p => Operations.mul8bit p
  | mulNativeWord, p => Operations.mulNativeWord p
  | imul1_8bit, p => Operations.imul1_8bit p
  | imul1NativeWord, p => Operations.imul1NativeWord p
  | imul2NativeWord, p => Operations.imul2NativeWord p
  | imul3NativeWord, p => Operations.imul3NativeWord p
  | rol8bit, p => Operations.rol8bit p
  | rolNativeWord, p => Operations.rolNativeWord p
  | rcl8bit, p => Operations.rcl8bit p
  | rclNativeWord, p => Operations.rclNativeWord p
  | rcr8bit, p => Operations.rcr8bit p
  | rcrNativeWord, p => Operations.rcrNativeWord p
  | ror8bit, p => Operations.ror8bit p
  | rorNativeWord, p => Operations.rorNativeWord p
  | sar8bit, p => Operations.sar8bit p
  | sarNativeWord, p => Operations.sarNativeWord p
  | shl8bit, p => Operations.shl8bit p
  | shlNativeWord, p => Operations.shlNativeWord p
  | shr8bit, p => Operations.shr8bit p
  | shrNativeWord, p => Operations.shrNativeWord p
  | aaa, p => Operations.aaa p
  | aas, p => Operations.aas p
  | daa, p => Operations.daa p
  | das, p => Operations.das p
  | aad, p => Operations.aad p
  | aam, p => Operations.aam p
  | adc8bit, p => Operations.adc8bit p
  | adcNativeWord, p => Operations.adcNativeWord p
  | sbb8bit, p => Operations.sbb8bit p
  | sbbNativeWord, p => Operations.sbbNativeWord p
  | xadd8bit, p => Operations.xadd8bit p
  | xaddNativeWord, p => Operations.xaddNativeWord p
  | add8bit, p => Operations.add8bit p
  | addNativeWord, p => Operations.addNativeWord p
  | hlt, p => Operations.hlt p
  | increment8bit, p => Operations.increment8bit p
  | incrementNativeWord, p => Operations.incrementNativeWord p
  | sub8bit, p => Operations.sub8bit p
  | subNativeWord, p => Operations.subNativeWord p
  | decrement8bit, p => Operations.decrement8bit p
  | decrementNativeWord, p => Operations.decrementNativeWord p
  | cmpxchg8bit, p => Operations.cmpxchg8bit p
  | cmpxchgNativeWord, p => Operations.cmpxchgNativeWord p
  | cmpxchg8b, p => Operations.cmpxchg8b p
  | cmp8bit, p => Operations.cmp8bit p
  | cmpNativeWord, p => Operations.cmpNativeWord p
  | test8bit, p => Operations.test8bit p
  | testNativeWord, p => Operations.testNativeWord p
  | and8bit, p => Operations.and8bit p
  | andNativeWord, p => Operations.andNativeWord p
  | or8bit, p => Operations.or8bit p
  | orNativeWord, p => Operations.orNativeWord p
  | xor8bit, p => Operations.xor8bit p
  | xorNativeWord, p => Operations.xorNativeWord p
  | not8bit, p => Operations.not8bit p
  | notNativeWord, p => Operations.notNativeWord p
  | neg8bit, p => Operations.neg8bit p
  | negNativeWord, p => Operations.negNativeWord p
  | setcc8bit, p => Operations.setcc8bit p
  | cmovccNative, p => Operations.cmovccNative p
  | lea, p => Operations.lea p
  | movzx8bit, p => Operations.movzx8bit p
  | movzx16bit, p => Operations.movzx16bit p
  | movsx8bit, p => Operations.movsx8bit p
  | movsx16bit, p => Operations.movsx16bit p
  | movsNativeWord, p => Operations.movsNativeWord p
  | movsb, p => Operations.movsb p
  | setDirection, p => Operations.setDirection p
  | clearDirection, p => Operations.clearDirection p
  | cmpsNativeWord, p => Operations.cmpsNativeWord p
  | cmpsb, p => Operations.cmpsb p
  | storeStringByte, p => Operations.storeStringByte p
  | loadStringByte, p => Operations.loadStringByte p
  | scanStringByte, p => Operations.scanStringByte p
  | storeStringNativeWord, p => Operations.storeStringNativeWord p
  | loadStringNativeWord, p => Operations.loadStringNativeWord p
  | scanStringNativeWord, p => Operations.scanStringNativeWord p

end LogicFn

def LogicFn.isString : LogicFn → Bool
  | movsb | movsNativeWord | cmpsb | cmpsNativeWord | storeStringByte | storeStringNativeWord
  | loadStringByte | loadStringNativeWord | scanStringByte | scanStringNativeWord => true
  | _ => false

end Qx86
