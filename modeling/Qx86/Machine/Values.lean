import Qx86.Foundation.Outcome
import Qx86.Foundation.Words

namespace Qx86

open Foundation

section Literals

-- by name, so that all literals of an index type and all tests for a byte in a list have the same

instance (priority := 2000) neZeroThree : NeZero 3 := ⟨by decide⟩

instance (priority := 2000) neZeroFour : NeZero 4 := ⟨by decide⟩

instance (priority := 2000) neZeroEight : NeZero 8 := ⟨by decide⟩

instance (priority := 2000) lawfulBEqByte : LawfulBEq (BitVec 8) := inferInstance

end Literals

inductive VMError where
  | none
  | notYetImplemented
  | divideByZero
  | readBadMemory (address : BitVec 32)
  | wroteBadMemory (address : BitVec 32)
  | wroteReadOnlyMemory (address : BitVec 32)
  | readUnloadedMemory (address : BitVec 32)
  | unalignedMemoryAddition
  | conflictingMemoryAddition
  | invalidOpcode (opcode : BitVec 8)
  | wroteUnwriteableArgument
  | decodingOverrun
  | wrongSizeExpectation
  | tooBigSizeExpectation
  | internalVMStop
  | syscallError
  | outOfGas
  | invalidOpcodeEncoding
  deriving DecidableEq

inductive ValueSize where
  | none
  | byte
  | word
  | dword
  | qword
  deriving DecidableEq

inductive SizedValue where
  | none
  | byte (v : BitVec 8)
  | word (v : BitVec 16)
  | dword (v : BitVec 32)
  | qword (v : BitVec 64)
  deriving DecidableEq

namespace SizedValue

def u64Exact : SizedValue → Except VMError (BitVec 64)
  | .qword v => .ok v
  | _ => .error .wrongSizeExpectation

def u32Exact : SizedValue → Except VMError (BitVec 32)
  | .dword v => .ok v
  | _ => .error .wrongSizeExpectation

def u16Exact : SizedValue → Except VMError (BitVec 16)
  | .word v => .ok v
  | _ => .error .wrongSizeExpectation

def u8Exact : SizedValue → Except VMError (BitVec 8)
  | .byte v => .ok v
  | _ => .error .wrongSizeExpectation

def u32Zx : SizedValue → Except VMError (BitVec 32)
  | .dword v => .ok v
  | .word v => .ok (v.setWidth 32)
  | .byte v => .ok (v.setWidth 32)
  | .qword _ => .error .tooBigSizeExpectation
  | .none => .ok 0

def u16Zx : SizedValue → Except VMError (BitVec 16)
  | .word v => .ok v
  | .byte v => .ok (v.setWidth 16)
  | .none => .ok 0
  | .dword _ => .error .tooBigSizeExpectation
  | .qword _ => .error .tooBigSizeExpectation

def u32Sx : SizedValue → Except VMError (BitVec 32)
  | .dword v => .ok v
  | .word v => .ok (v.signExtend 32)
  | .byte v => .ok (v.signExtend 32)
  | .none => .ok 0
  | .qword _ => .error .tooBigSizeExpectation

def u16Sx : SizedValue → Except VMError (BitVec 16)
  | .word v => .ok v
  | .byte v => .ok (v.signExtend 16)
  | .none => .ok 0
  | .dword _ => .error .tooBigSizeExpectation
  | .qword _ => .error .tooBigSizeExpectation

def u64Trunc : SizedValue → BitVec 64
  | .dword v => v.setWidth 64
  | .qword v => v
  | .word v => v.setWidth 64
  | .byte v => v.setWidth 64
  | .none => 0

def u32Trunc : SizedValue → BitVec 32
  | .dword v => v
  | .qword v => v.setWidth 32
  | .word v => v.setWidth 32
  | .byte v => v.setWidth 32
  | .none => 0

def u16Trunc : SizedValue → BitVec 16
  | .word v => v
  | .byte v => v.setWidth 16
  | .none => 0
  | .dword v => v.setWidth 16
  | .qword v => v.setWidth 16

def u8Trunc : SizedValue → BitVec 8
  | .word v => v.setWidth 8
  | .byte v => v
  | .none => 0
  | .dword v => v.setWidth 8
  | .qword v => v.setWidth 8

def convertSizeZx (v : SizedValue) : ValueSize → Except VMError SizedValue
  | .dword => .dword <$> v.u32Zx
  | .word => .word <$> v.u16Zx
  | .byte => .byte <$> v.u8Exact
  | .none => .error .wrongSizeExpectation
  | .qword => .error .tooBigSizeExpectation

def convertSizeTrunc (v : SizedValue) : ValueSize → SizedValue
  | .qword => .qword v.u64Trunc
  | .dword => .dword v.u32Trunc
  | .word => .word v.u16Trunc
  | .byte => .byte v.u8Trunc
  | .none => .none

end SizedValue

/-- Register numbers are the three-bit fields of an encoding. -/
abbrev Register := Fin 8

namespace Register

def eax : Register := 0
def ecx : Register := 1
def edx : Register := 2
def ebx : Register := 3
def esp : Register := 4
def ebp : Register := 5
def esi : Register := 6
def edi : Register := 7

def al : Register := 0
def ah : Register := 4
def cl : Register := 1

end Register

inductive ArgLocation where
  | none
  | immediate (v : SizedValue)
  | address (a : BitVec 32) (size : ValueSize)
  | registerValue (r : Register) (size : ValueSize)
  | registerAddress (r : Register) (size : ValueSize)
  | modRMAddress (offset : Option (BitVec 32)) (reg : Option Register) (size : ValueSize)
  | sibAddress (offset : BitVec 32) (base : Option Register) (scale : BitVec 8)
      (index : Option Register) (size : ValueSize)
  deriving DecidableEq

structure OpArgument where
  location : ArgLocation := .none
  isMemory : Bool := false
  deriving DecidableEq

end Qx86
