import Qx86.Decode.Opcodes

namespace Qx86

open OpcodeDefiner

/-- The definitions of the opcode map, in the order of the source. -/
def definitions : List OpcodeDefiner :=
  [
    defineOpcode 0x90 |>.calls .nop |>.withGas .none,
    defineOpcode 0xF0 |>.calls .nop |>.withGas .none,
    defineOpcode 0xF4 |>.calls .hlt |>.withGas .none |>.isUnpredictableNoGas,
    defineOpcode 0xB0 |>.calls .mov |>.withGas .veryLow |>.withSuffixReg8 |>.withImm8,
    defineOpcode 0xB8 |>.calls .mov |>.withGas .veryLow |>.withSuffixRegw |>.withImmw,
    defineOpcode 0x88 |>.calls .mov |>.withGas .veryLow |>.withRm8 |>.withRmReg8,
    defineOpcode 0x89 |>.calls .mov |>.withGas .veryLow |>.withRmw |>.withRmRegw,
    defineOpcode 0x8A |>.calls .mov |>.withGas .veryLow |>.withRmReg8 |>.withRm8,
    defineOpcode 0x8B |>.calls .mov |>.withGas .veryLow |>.withRmRegw |>.withRmw,
    defineOpcode 0xA0 |>.calls .mov |>.withGas .veryLow
      |>.withArg (.hardcodedRegister .al) (.fixed .byte) |>.withOffs8,
    defineOpcode 0xA1 |>.calls .mov |>.withGas .veryLow
      |>.withArg (.hardcodedRegister .eax) .nativeWord |>.withOffsw,
    defineOpcode 0xA2 |>.calls .mov |>.withGas .veryLow |>.withOffs8
      |>.withArg (.hardcodedRegister .al) (.fixed .byte),
    defineOpcode 0xA3 |>.calls .mov |>.withGas .veryLow |>.withOffsw
      |>.withArg (.hardcodedRegister .eax) .nativeWord,
    defineOpcode 0xC6 |>.calls .mov |>.withGas .veryLow |>.withRm8 |>.withImm8,
    defineOpcode 0xC7 |>.calls .mov |>.withGas .veryLow |>.withRmw |>.withImmw,
    defineOpcode 0x50 |>.calls .push |>.withGas .veryLow |>.withSuffixRegw,
    defineOpcode 0x68 |>.calls .push |>.withGas .veryLow |>.withImmw,
    defineOpcode 0x6A |>.calls .push |>.withGas .veryLow |>.withImm8,
    defineOpcode 0xFF |>.calls .push |>.withGas .veryLow |>.isGroup 6 |>.withRmw,
    defineOpcode 0x58 |>.calls .pop |>.withGas .veryLow |>.withSuffixRegw,
    defineOpcode 0x8F |>.calls .pop |>.withGas .veryLow |>.isGroup 0 |>.withRmw,
    defineOpcode 0xE8 |>.calls .callRel |>.withGas .low |>.withArg .jumpRel .nativeWord |>.isJump,
    defineOpcode 0xFF |>.isGroup 2 |>.calls .callAbs |>.withGas .low |>.withRmw
      |>.isUnpredictable,
    defineOpcode 0xC2 |>.calls .ret |>.withImm16 |>.isUnpredictable,
    defineOpcode 0xC3 |>.calls .ret |>.isUnpredictable,
    defineOpcode 0xEB |>.calls .jmpRel |>.withGas .low |>.withArg .jumpRel (.fixed .byte)
      |>.isJump,
    defineOpcode 0xFF |>.isGroup 4 |>.calls .jmpAbs |>.withGas .moderate |>.withRmw
      |>.isUnpredictable,
    defineOpcode 0xE3 |>.calls .jmpConditionalEcxIsZero |>.withGas .low
      |>.withArg .jumpRel (.fixed .byte) |>.isUnpredictable,
    defineOpcode 0xE9 |>.calls .jmpRel |>.withGas .low |>.withArg .jumpRel .nativeWord
      |>.isUnpredictable,
    defineOpcodeMulti 0x70 16 |>.calls .jcc |>.withGas .low
      |>.withArg .jumpRel (.fixed .byte) |>.isUnpredictable,
    defineOpcodeMulti 0x80 16 |>.isTwoByteOp |>.calls .jcc |>.withGas .low
      |>.withArg .jumpRel .nativeWord |>.isUnpredictable,
    defineOpcode 0x18 |>.calls .sbb8bit |>.withGas .low |>.withRm8 |>.withRmReg8,
    defineOpcode 0x19 |>.calls .sbbNativeWord |>.withGas .low |>.withRmw |>.withRmRegw,
    defineOpcode 0x1A |>.calls .sbb8bit |>.withGas .low |>.withRmReg8 |>.withRm8,
    defineOpcode 0x1B |>.calls .sbbNativeWord |>.withGas .low |>.withRmRegw |>.withRmw,
    defineOpcode 0x1C |>.calls .sbb8bit |>.withGas .low
      |>.withArg (.hardcodedRegister .al) (.fixed .byte) |>.withImm8,
    defineOpcode 0x1D |>.calls .sbbNativeWord |>.withGas .low
      |>.withArg (.hardcodedRegister .eax) .nativeWord |>.withImmw,
    defineOpcode 0x80 |>.isGroup 3 |>.calls .sbb8bit |>.withGas .low |>.withRm8 |>.withImm8,
    defineOpcode 0x81 |>.isGroup 3 |>.calls .sbbNativeWord |>.withGas .low |>.withRmw |>.withImmw,
    defineOpcode 0x83 |>.isGroup 3 |>.calls .sbbNativeWord |>.withGas .low |>.withRmw |>.withImm8,
    defineOpcode 0x10 |>.calls .adc8bit |>.withGas .low |>.withRm8 |>.withRmReg8,
    defineOpcode 0x11 |>.calls .adcNativeWord |>.withGas .low |>.withRmw |>.withRmRegw,
    defineOpcode 0x12 |>.calls .adc8bit |>.withGas .low |>.withRmReg8 |>.withRm8,
    defineOpcode 0x13 |>.calls .adcNativeWord |>.withGas .low |>.withRmRegw |>.withRmw,
    defineOpcode 0x14 |>.calls .adc8bit |>.withGas .low
      |>.withArg (.hardcodedRegister .al) (.fixed .byte) |>.withImm8,
    defineOpcode 0x15 |>.calls .adcNativeWord |>.withGas .low
      |>.withArg (.hardcodedRegister .eax) .nativeWord |>.withImmw,
    defineOpcode 0x80 |>.isGroup 2 |>.calls .adc8bit |>.withGas .low |>.withRm8 |>.withImm8,
    defineOpcode 0x81 |>.isGroup 2 |>.calls .adcNativeWord |>.withGas .low |>.withRmw |>.withImmw,
    defineOpcode 0x83 |>.isGroup 2 |>.calls .adcNativeWord |>.withGas .low |>.withRmw |>.withImm8,
    defineOpcode 0x00 |>.calls .add8bit |>.withGas .low |>.withRm8 |>.withRmReg8,
    defineOpcode 0x01 |>.calls .addNativeWord |>.withGas .low |>.withRmw |>.withRmRegw,
    defineOpcode 0x02 |>.calls .add8bit |>.withGas .low |>.withRmReg8 |>.withRm8,
    defineOpcode 0x03 |>.calls .addNativeWord |>.withGas .low |>.withRmRegw |>.withRmw,
    defineOpcode 0x04 |>.calls .add8bit |>.withGas .low
      |>.withArg (.hardcodedRegister .al) (.fixed .byte) |>.withImm8,
    defineOpcode 0x05 |>.calls .addNativeWord |>.withGas .low
      |>.withArg (.hardcodedRegister .eax) .nativeWord |>.withImmw,
    defineOpcode 0x80 |>.isGroup 0 |>.calls .add8bit |>.withGas .low |>.withRm8 |>.withImm8,
    defineOpcode 0x81 |>.isGroup 0 |>.calls .addNativeWord |>.withGas .low |>.withRmw |>.withImmw,
    defineOpcode 0x83 |>.isGroup 0 |>.calls .addNativeWord |>.withGas .low |>.withRmw |>.withImm8,
    defineOpcode 0x28 |>.calls .sub8bit |>.withGas .low |>.withRm8 |>.withRmReg8,
    defineOpcode 0x29 |>.calls .subNativeWord |>.withGas .low |>.withRmw |>.withRmRegw,
    defineOpcode 0x2A |>.calls .sub8bit |>.withGas .low |>.withRmReg8 |>.withRm8,
    defineOpcode 0x2B |>.calls .subNativeWord |>.withGas .low |>.withRmRegw |>.withRmw,
    defineOpcode 0x2C |>.calls .sub8bit |>.withGas .low
      |>.withArg (.hardcodedRegister .al) (.fixed .byte) |>.withImm8,
    defineOpcode 0x2D |>.calls .subNativeWord |>.withGas .low
      |>.withArg (.hardcodedRegister .eax) .nativeWord |>.withImmw,
    defineOpcode 0x80 |>.isGroup 5 |>.calls .sub8bit |>.withGas .low |>.withRm8 |>.withImm8,
    defineOpcode 0x81 |>.isGroup 5 |>.calls .subNativeWord |>.withGas .low |>.withRmw |>.withImmw,
    defineOpcode 0x83 |>.isGroup 5 |>.calls .subNativeWord |>.withGas .low |>.withRmw |>.withImm8,
    defineOpcode 0xC0 |>.isGroup 4 |>.calls .shl8bit |>.withGas .low |>.withRm8 |>.withImm8,
    defineOpcode 0xC1 |>.isGroup 4 |>.calls .shlNativeWord |>.withGas .low |>.withRmw |>.withImm8,
    defineOpcode 0xD0 |>.isGroup 4 |>.calls .shl8bit |>.withGas .low |>.withRm8
      |>.withArg (.literal (.byte 1)) (.fixed .byte),
    defineOpcode 0xD1 |>.isGroup 4 |>.calls .shlNativeWord |>.withGas .low |>.withRmw
      |>.withArg (.literal (.byte 1)) (.fixed .byte),
    defineOpcode 0xD2 |>.isGroup 4 |>.calls .shl8bit |>.withGas .low |>.withRm8
      |>.withArg (.hardcodedRegister .cl) (.fixed .byte),
    defineOpcode 0xD3 |>.isGroup 4 |>.calls .shlNativeWord |>.withGas .low |>.withRmw
      |>.withArg (.hardcodedRegister .cl) (.fixed .byte),
    defineOpcode 0xC0 |>.isGroup 5 |>.calls .shr8bit |>.withGas .low |>.withRm8 |>.withImm8,
    defineOpcode 0xC1 |>.isGroup 5 |>.calls .shrNativeWord |>.withGas .low |>.withRmw |>.withImm8,
    defineOpcode 0xD0 |>.isGroup 5 |>.calls .shr8bit |>.withGas .low |>.withRm8
      |>.withArg (.literal (.byte 1)) (.fixed .byte),
    defineOpcode 0xD1 |>.isGroup 5 |>.calls .shrNativeWord |>.withGas .low |>.withRmw
      |>.withArg (.literal (.byte 1)) (.fixed .byte),
    defineOpcode 0xD2 |>.isGroup 5 |>.calls .shr8bit |>.withGas .low |>.withRm8
      |>.withArg (.hardcodedRegister .cl) (.fixed .byte),
    defineOpcode 0x86 |>.calls .xchg |>.withGas .low |>.withRm8 |>.withRmReg8,
    defineOpcode 0x87 |>.calls .xchg |>.withGas .low |>.withRmw |>.withRmRegw,
    defineOpcode 0x90 |>.calls .xchg |>.withGas .low
      |>.withArg (.hardcodedRegister .eax) .nativeWord |>.withSuffixRegw,
    defineOpcode 0xD3 |>.isGroup 5 |>.calls .shrNativeWord |>.withGas .low |>.withRmw
      |>.withArg (.hardcodedRegister .cl) (.fixed .byte),
    defineOpcode 0xF6 |>.isGroup 4 |>.calls .mul8bit |>.withGas .low |>.withRm8,
    defineOpcode 0xF7 |>.isGroup 4 |>.calls .mulNativeWord |>.withGas .low |>.withRmw,
    defineOpcode 0xF6 |>.isGroup 5 |>.calls .imul1_8bit |>.withGas .low |>.withRm8,
    defineOpcode 0xF7 |>.isGroup 5 |>.calls .imul1NativeWord |>.withGas .low |>.withRmw,
    defineOpcode 0xAF |>.isTwoByteOp |>.calls .imul2NativeWord |>.withGas .low |>.withRmRegw
      |>.withRmw,
    defineOpcode 0x69 |>.calls .imul3NativeWord |>.withGas .low |>.withRmRegw |>.withRmw
      |>.withImmw,
    defineOpcode 0x6B |>.calls .imul3NativeWord |>.withGas .low |>.withRmRegw |>.withRmw
      |>.withImm8,
    defineOpcode 0xF6 |>.isGroup 6 |>.calls .div8bit |>.withGas .low |>.withRm8,
    defineOpcode 0xF7 |>.isGroup 6 |>.calls .divNativeWord |>.withGas .low |>.withRmw,
    defineOpcode 0xF6 |>.isGroup 7 |>.calls .idiv8bit |>.withGas .low |>.withRm8,
    defineOpcode 0xF7 |>.isGroup 7 |>.calls .idivNativeWord |>.withGas .low |>.withRmw,
    defineOpcode 0xC7 |>.isTwoByteOp |>.calls .cmpxchg8b |>.withGas .low
      |>.withArg .modRM (.fixed .dword),
    defineOpcode 0xB0 |>.isTwoByteOp |>.calls .cmpxchg8bit |>.withGas .low |>.withRm8
      |>.withRmReg8,
    defineOpcode 0xB1 |>.isTwoByteOp |>.calls .cmpxchgNativeWord |>.withGas .low |>.withRmw
      |>.withRmRegw,
    defineOpcode 0x38 |>.calls .cmp8bit |>.withGas .low |>.withRm8 |>.withRmReg8,
    defineOpcode 0x39 |>.calls .cmpNativeWord |>.withGas .low |>.withRmw |>.withRmRegw,
    defineOpcode 0x3A |>.calls .cmp8bit |>.withGas .low |>.withRmReg8 |>.withRm8,
    defineOpcode 0x3B |>.calls .cmpNativeWord |>.withGas .low |>.withRmRegw |>.withRmw,
    defineOpcode 0x3C |>.calls .cmp8bit |>.withGas .low
      |>.withArg (.hardcodedRegister .al) (.fixed .byte) |>.withImm8,
    defineOpcode 0x3D |>.calls .cmpNativeWord |>.withGas .low
      |>.withArg (.hardcodedRegister .eax) .nativeWord |>.withImmw,
    defineOpcode 0x80 |>.isGroup 7 |>.calls .cmp8bit |>.withGas .low |>.withRm8 |>.withImm8,
    defineOpcode 0x81 |>.isGroup 7 |>.calls .cmpNativeWord |>.withGas .low |>.withRmw |>.withImmw,
    defineOpcode 0x83 |>.isGroup 7 |>.calls .cmpNativeWord |>.withGas .low |>.withRmw |>.withImm8,
    defineOpcode 0x60 |>.calls .pusha |>.withGas .low,
    defineOpcode 0x61 |>.calls .popa |>.withGas .low,
    defineOpcode 0x20 |>.calls .and8bit |>.withGas .low |>.withRm8 |>.withRmReg8,
    defineOpcode 0x21 |>.calls .andNativeWord |>.withGas .low |>.withRmw |>.withRmRegw,
    defineOpcode 0x22 |>.calls .and8bit |>.withGas .low |>.withRmReg8 |>.withRm8,
    defineOpcode 0x23 |>.calls .andNativeWord |>.withGas .low |>.withRmRegw |>.withRmw,
    defineOpcode 0x24 |>.calls .and8bit |>.withGas .low
      |>.withArg (.hardcodedRegister .al) (.fixed .byte) |>.withImm8,
    defineOpcode 0x25 |>.calls .andNativeWord |>.withGas .low
      |>.withArg (.hardcodedRegister .eax) .nativeWord |>.withImmw,
    defineOpcode 0x80 |>.isGroup 4 |>.calls .and8bit |>.withGas .low |>.withRm8 |>.withImm8,
    defineOpcode 0x81 |>.isGroup 4 |>.calls .andNativeWord |>.withGas .low |>.withRmw |>.withImmw,
    defineOpcode 0x83 |>.isGroup 4 |>.calls .andNativeWord |>.withGas .low |>.withRmw |>.withImm8,
    defineOpcode 0x08 |>.calls .or8bit |>.withGas .low |>.withRm8 |>.withRmReg8,
    defineOpcode 0x09 |>.calls .orNativeWord |>.withGas .low |>.withRmw |>.withRmRegw,
    defineOpcode 0x0A |>.calls .or8bit |>.withGas .low |>.withRmReg8 |>.withRm8,
    defineOpcode 0x0B |>.calls .orNativeWord |>.withGas .low |>.withRmRegw |>.withRmw,
    defineOpcode 0x0C |>.calls .or8bit |>.withGas .low
      |>.withArg (.hardcodedRegister .al) (.fixed .byte) |>.withImm8,
    defineOpcode 0x0D |>.calls .orNativeWord |>.withGas .low
      |>.withArg (.hardcodedRegister .eax) .nativeWord |>.withImmw,
    defineOpcode 0x80 |>.isGroup 1 |>.calls .or8bit |>.withGas .low |>.withRm8 |>.withImm8,
    defineOpcode 0x81 |>.isGroup 1 |>.calls .orNativeWord |>.withGas .low |>.withRmw |>.withImmw,
    defineOpcode 0x83 |>.isGroup 1 |>.calls .orNativeWord |>.withGas .low |>.withRmw |>.withImm8,
    defineOpcode 0x30 |>.calls .xor8bit |>.withGas .low |>.withRm8 |>.withRmReg8,
    defineOpcode 0x31 |>.calls .xorNativeWord |>.withGas .low |>.withRmw |>.withRmRegw,
    defineOpcode 0x32 |>.calls .xor8bit |>.withGas .low |>.withRmReg8 |>.withRm8,
    defineOpcode 0x33 |>.calls .xorNativeWord |>.withGas .low |>.withRmRegw |>.withRmw,
    defineOpcode 0x34 |>.calls .xor8bit |>.withGas .low
      |>.withArg (.hardcodedRegister .al) (.fixed .byte) |>.withImm8,
    defineOpcode 0x35 |>.calls .xorNativeWord |>.withGas .low
      |>.withArg (.hardcodedRegister .eax) .nativeWord |>.withImmw,
    defineOpcode 0x80 |>.isGroup 6 |>.calls .xor8bit |>.withGas .low |>.withRm8 |>.withImm8,
    defineOpcode 0x81 |>.isGroup 6 |>.calls .xorNativeWord |>.withGas .low |>.withRmw |>.withImmw,
    defineOpcode 0x83 |>.isGroup 6 |>.calls .xorNativeWord |>.withGas .low |>.withRmw |>.withImm8,
    defineOpcode 0xF6 |>.isGroup 2 |>.calls .not8bit |>.withGas .low |>.withRm8,
    defineOpcode 0xF7 |>.isGroup 2 |>.calls .notNativeWord |>.withGas .low |>.withRmw,
    defineOpcode 0xF6 |>.isGroup 3 |>.calls .neg8bit |>.withGas .low |>.withRm8,
    defineOpcode 0xF7 |>.isGroup 3 |>.calls .negNativeWord |>.withGas .low |>.withRmw,
    defineOpcode 0x48 |>.calls .decrementNativeWord |>.withGas .low |>.withSuffixRegw,
    defineOpcode 0xFE |>.isGroup 1 |>.calls .decrement8bit |>.withGas .low |>.withRm8,
    defineOpcode 0xFF |>.isGroup 1 |>.calls .decrementNativeWord |>.withGas .low |>.withRmw,
    defineOpcode 0x40 |>.calls .incrementNativeWord |>.withGas .low |>.withSuffixRegw,
    defineOpcode 0xFE |>.isGroup 0 |>.calls .increment8bit |>.withGas .low |>.withRm8,
    defineOpcode 0xFF |>.isGroup 0 |>.calls .incrementNativeWord |>.withGas .low |>.withRmw,
    defineOpcode 0x9E |>.calls .sahf |>.withGas .low,
    defineOpcode 0xF9 |>.calls .stc |>.withGas .low,
    defineOpcode 0xF8 |>.calls .clc |>.withGas .low,
    defineOpcode 0xF5 |>.calls .cmc |>.withGas .low,
    defineOpcode 0xD7 |>.calls .xlatb |>.withGas .low,
    defineOpcode 0x9F |>.calls .lahf |>.withGas .low,
    defineOpcode 0x2F |>.calls .das |>.withGas .low,
    defineOpcode 0x27 |>.calls .daa |>.withGas .low,
    defineOpcode 0xC0 |>.isGroup 1 |>.calls .ror8bit |>.withGas .low |>.withRm8 |>.withImm8,
    defineOpcode 0xC1 |>.isGroup 1 |>.calls .rorNativeWord |>.withGas .low |>.withRmw |>.withImm8,
    defineOpcode 0xD0 |>.isGroup 1 |>.calls .ror8bit |>.withGas .low |>.withRm8
      |>.withArg (.literal (.byte 1)) (.fixed .byte),
    defineOpcode 0xD1 |>.isGroup 1 |>.calls .rorNativeWord |>.withGas .low |>.withRmw
      |>.withArg (.literal (.byte 1)) (.fixed .byte),
    defineOpcode 0xD2 |>.isGroup 1 |>.calls .ror8bit |>.withGas .low |>.withRm8
      |>.withArg (.hardcodedRegister .cl) (.fixed .byte),
    defineOpcode 0xD3 |>.isGroup 1 |>.calls .rorNativeWord |>.withGas .low |>.withRmw
      |>.withArg (.hardcodedRegister .cl) (.fixed .byte),
    defineOpcode 0xC0 |>.isGroup 0 |>.calls .rol8bit |>.withGas .low |>.withRm8 |>.withImm8,
    defineOpcode 0xC1 |>.isGroup 0 |>.calls .rolNativeWord |>.withGas .low |>.withRmw |>.withImm8,
    defineOpcode 0xD0 |>.isGroup 0 |>.calls .rol8bit |>.withGas .low |>.withRm8
      |>.withArg (.literal (.byte 1)) (.fixed .byte),
    defineOpcode 0xD1 |>.isGroup 0 |>.calls .rolNativeWord |>.withGas .low |>.withRmw
      |>.withArg (.literal (.byte 1)) (.fixed .byte),
    defineOpcode 0xD2 |>.isGroup 0 |>.calls .rol8bit |>.withGas .low |>.withRm8
      |>.withArg (.hardcodedRegister .cl) (.fixed .byte),
    defineOpcode 0xD3 |>.isGroup 0 |>.calls .rolNativeWord |>.withGas .low |>.withRmw
      |>.withArg (.hardcodedRegister .cl) (.fixed .byte),
    defineOpcode 0xC0 |>.isGroup 2 |>.calls .rcl8bit |>.withGas .low |>.withRm8 |>.withImm8,
    defineOpcode 0xC1 |>.isGroup 2 |>.calls .rclNativeWord |>.withGas .low |>.withRmw |>.withImm8,
    defineOpcode 0xD0 |>.isGroup 2 |>.calls .rcl8bit |>.withGas .low |>.withRm8
      |>.withArg (.literal (.byte 1)) (.fixed .byte),
    defineOpcode 0xD1 |>.isGroup 2 |>.calls .rclNativeWord |>.withGas .low |>.withRmw
      |>.withArg (.literal (.byte 1)) (.fixed .byte),
    defineOpcode 0xD2 |>.isGroup 2 |>.calls .rcl8bit |>.withGas .low |>.withRm8
      |>.withArg (.hardcodedRegister .cl) (.fixed .byte),
    defineOpcode 0xD3 |>.isGroup 2 |>.calls .rclNativeWord |>.withGas .low |>.withRmw
      |>.withArg (.hardcodedRegister .cl) (.fixed .byte),
    defineOpcode 0xC0 |>.isGroup 3 |>.calls .rcr8bit |>.withGas .low |>.withRm8 |>.withImm8,
    defineOpcode 0xC1 |>.isGroup 3 |>.calls .rcrNativeWord |>.withGas .low |>.withRmw |>.withImm8,
    defineOpcode 0xD0 |>.isGroup 3 |>.calls .rcr8bit |>.withGas .low |>.withRm8
      |>.withArg (.literal (.byte 1)) (.fixed .byte),
    defineOpcode 0xD1 |>.isGroup 3 |>.calls .rcrNativeWord |>.withGas .low |>.withRmw
      |>.withArg (.literal (.byte 1)) (.fixed .byte),
    defineOpcode 0xD2 |>.isGroup 3 |>.calls .rcr8bit |>.withGas .low |>.withRm8
      |>.withArg (.hardcodedRegister .cl) (.fixed .byte),
    defineOpcode 0xD3 |>.isGroup 3 |>.calls .rcrNativeWord |>.withGas .low |>.withRmw
      |>.withArg (.hardcodedRegister .cl) (.fixed .byte),
    defineOpcode 0xC0 |>.isGroup 7 |>.calls .sar8bit |>.withGas .low |>.withRm8 |>.withImm8,
    defineOpcode 0xC1 |>.isGroup 7 |>.calls .sarNativeWord |>.withGas .low |>.withRmw |>.withImm8,
    defineOpcode 0xD0 |>.isGroup 7 |>.calls .sar8bit |>.withGas .low |>.withRm8
      |>.withArg (.literal (.byte 1)) (.fixed .byte),
    defineOpcode 0xD1 |>.isGroup 7 |>.calls .sarNativeWord |>.withGas .low |>.withRmw
      |>.withArg (.literal (.byte 1)) (.fixed .byte),
    defineOpcode 0xD2 |>.isGroup 7 |>.calls .sar8bit |>.withGas .low |>.withRm8
      |>.withArg (.hardcodedRegister .cl) (.fixed .byte),
    defineOpcode 0xD3 |>.isGroup 7 |>.calls .sarNativeWord |>.withGas .low |>.withRmw
      |>.withArg (.hardcodedRegister .cl) (.fixed .byte),
    defineOpcode 0x37 |>.calls .aaa |>.withGas .low,
    defineOpcode 0x3F |>.calls .aas |>.withGas .low,
    defineOpcode 0xD4 |>.calls .aam |>.withGas .low |>.withImm8,
    defineOpcode 0xD5 |>.calls .aad |>.withGas .low |>.withImm8,
    defineOpcode 0xCD |>.callsInterrupt |>.withGas .moderate |>.withImm8 |>.isUnpredictable,
    defineOpcode 0xCC |>.callsInterrupt |>.withGas .moderate
      |>.withArg (.literal (.byte 3)) (.fixed .byte) |>.isUnpredictable,
    defineOpcodeMulti 0x90 16 |>.isTwoByteOp |>.calls .setcc8bit |>.withGas .low |>.withRm8,
    defineOpcodeMulti 0x40 16 |>.isTwoByteOp |>.calls .cmovccNative |>.withGas .low
      |>.withRmRegw |>.withRmw,
    defineOpcode 0x84 |>.calls .test8bit |>.withGas .low |>.withRm8 |>.withRmReg8,
    defineOpcode 0x85 |>.calls .testNativeWord |>.withGas .low |>.withRmw |>.withRmRegw,
    defineOpcode 0xA8 |>.calls .test8bit |>.withGas .low
      |>.withArg (.hardcodedRegister .al) (.fixed .byte) |>.withImm8,
    defineOpcode 0xA9 |>.calls .testNativeWord |>.withGas .low
      |>.withArg (.hardcodedRegister .eax) .nativeWord |>.withImmw,
    defineOpcode 0xF6 |>.isGroup 0 |>.calls .test8bit |>.withGas .low |>.withRm8 |>.withImm8,
    defineOpcode 0xF7 |>.isGroup 0 |>.calls .testNativeWord |>.withGas .low |>.withRmw
      |>.withImmw,
    defineOpcode 0x8D |>.calls .lea |>.withGas .low |>.withRmRegw |>.withRmw,
    defineOpcode 0x9C |>.calls .pushf |>.withGas .low,
    defineOpcode 0x9D |>.calls .popf |>.withGas .low,
    defineOpcode 0xA3 |>.isTwoByteOp |>.calls .bitTest |>.withGas .low |>.withRmw |>.withRmRegw,
    defineOpcode 0xBA |>.isGroup 4 |>.isTwoByteOp |>.calls .bitTest |>.withGas .low
      |>.withRmw |>.withImm8,
    defineOpcode 0xAB |>.isTwoByteOp |>.calls .bitTestSet |>.withGas .low |>.withRmw
      |>.withRmRegw,
    defineOpcode 0xBA |>.isGroup 5 |>.isTwoByteOp |>.calls .bitTestSet |>.withGas .low
      |>.withRmw |>.withImm8,
    defineOpcode 0xB3 |>.isTwoByteOp |>.calls .bitTestReset |>.withGas .low |>.withRmw
      |>.withRmRegw,
    defineOpcode 0xBA |>.isGroup 6 |>.isTwoByteOp |>.calls .bitTestReset |>.withGas .low
      |>.withRmw |>.withImm8,
    defineOpcode 0xBB |>.isTwoByteOp |>.calls .bitTestComplement |>.withGas .low |>.withRmw
      |>.withRmRegw,
    defineOpcode 0xBA |>.isGroup 7 |>.isTwoByteOp |>.calls .bitTestComplement |>.withGas .low
      |>.withRmw |>.withImm8,
    defineOpcode 0x98 |>.calls .cbwCwde |>.withGas .low,
    defineOpcode 0x99 |>.calls .cdqCwd |>.withGas .low,
    defineOpcode 0xC8 |>.isTwoByteOp |>.calls .bswap |>.withGas .low |>.withSuffixReg32,
    defineOpcode 0xBC |>.isTwoByteOp |>.calls .bitScanForward |>.withGas .low |>.withRmw
      |>.withRmRegw,
    defineOpcode 0xBD |>.isTwoByteOp |>.calls .bitScanReverse |>.withGas .low |>.withRmw
      |>.withRmRegw,
    defineOpcode 0xB6 |>.isTwoByteOp |>.calls .movzx8bit |>.withGas .low |>.withRmRegw |>.withRm8,
    defineOpcode 0xB7 |>.isTwoByteOp |>.calls .movzx16bit |>.withGas .low |>.withRmReg32
      |>.withRm16,
    defineOpcode 0xBE |>.isTwoByteOp |>.calls .movsx8bit |>.withGas .low |>.withRmRegw |>.withRm8,
    defineOpcode 0xBF |>.isTwoByteOp |>.calls .movsx16bit |>.withGas .low |>.withRmReg32
      |>.withRm16,
    defineOpcode 0xA5 |>.calls .movsNativeWord |>.withGas .low,
    defineOpcode 0xA4 |>.calls .movsb |>.withGas .low,
    defineOpcode 0xC0 |>.isTwoByteOp |>.calls .xadd8bit |>.withGas .low |>.withRm8 |>.withRmReg8,
    defineOpcode 0xC1 |>.isTwoByteOp |>.calls .xaddNativeWord |>.withGas .low |>.withRmw
      |>.withRmRegw,
    defineOpcode 0xFD |>.calls .setDirection |>.withGas .veryLow,
    defineOpcode 0xFC |>.calls .clearDirection |>.withGas .veryLow,
    defineOpcode 0xA6 |>.calls .cmpsb |>.withGas .low,
    defineOpcode 0xA7 |>.calls .cmpsNativeWord |>.withGas .low,
    defineOpcode 0xAE |>.calls .scanStringByte |>.withGas .low,
    defineOpcode 0xAF |>.calls .scanStringNativeWord |>.withGas .low,
    defineOpcode 0xAA |>.calls .storeStringByte |>.withGas .low,
    defineOpcode 0xAB |>.calls .storeStringNativeWord |>.withGas .low,
    defineOpcode 0xAC |>.calls .loadStringByte |>.withGas .low,
    defineOpcode 0xAD |>.calls .loadStringNativeWord |>.withGas .low,
    defineOpcode 0xC9 |>.calls .leave |>.withGas .low,
    defineOpcode 0xC8 |>.calls .enter |>.withGas .low |>.withImm16 |>.withImm8
  ]

def buildTable (ds : List OpcodeDefiner) (table : OpcodeTable) : OpcodeTable :=
  ds.foldl (fun t d ↦ d.intoTable t) table

def OPCODES : OpcodeTable := buildTable definitions fun _ ↦ {}

def acceptsAll : List OpcodeDefiner → OpcodeTable → Bool
  | [], _ => true
  | d :: ds, t => d.accepted t && acceptsAll ds (d.intoTable t)

end Qx86
