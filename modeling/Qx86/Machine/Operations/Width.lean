import Qx86.Machine.Op

namespace Qx86

open Foundation Words

inductive SignType where
  | byte
  | word
  | dword

inductive AdjustType where
  | inc
  | dec
  | none

namespace X86Flags

def calculateSign (f : X86Flags) (val : BitVec 32) : SignType → X86Flags
  | .byte => f.calculateSign8 (val.setWidth 8)
  | .word => f.calculateSign16 (val.setWidth 16)
  | .dword => f.calculateSign32 val

def calculateAdjust (f : X86Flags) (source destination : BitVec 32) : AdjustType → X86Flags
  | .dec => { f with adjust := ((destination &&& 0x0F) - (source &&& 0x0F)).slt 0 }
  | .inc => { f with adjust := decide (15 < (destination &&& 0x0F) + (source &&& 0x0F)) }
  | .none => f

def getFlags (f : X86Flags) (result source destination : BitVec 32) (overflow carry : Bool)
    (adjust : AdjustType) (sign : SignType) : X86Flags :=
  let f := { f with overflow := overflow, carry := carry }
  let f := (f.calculateZero result).calculateParity result
  (f.calculateAdjust source destination adjust).calculateSign result sign

end X86Flags

/-- What tells the byte, word and dword members of a family of logic functions
apart: the size of the operand, how the destination and the source are unwrapped,
how a result is wrapped and where its sign is. -/
structure OperandWidth where
  bits : ℕ
  size : ValueSize
  exact : SizedValue → Except VMError (BitVec bits)
  extended : SizedValue → Except VMError (BitVec bits)
  sized : BitVec bits → SizedValue
  sign : SignType

def width8 : OperandWidth where
  bits := 8
  size := .byte
  exact := SizedValue.u8Exact
  extended := SizedValue.u8Exact
  sized := .byte
  sign := .byte

def width16 : OperandWidth where
  bits := 16
  size := .word
  exact := SizedValue.u16Exact
  extended := SizedValue.u16Sx
  sized := .word
  sign := .word

def width32 : OperandWidth where
  bits := 32
  size := .dword
  exact := SizedValue.u32Exact
  extended := SizedValue.u32Sx
  sized := .dword
  sign := .dword

namespace Operations

/-- The `_native_word` functions choose a member by the operand-size prefix. -/
def nativeWord {e : Effects} (f : OperandWidth → Pipeline → Op e Unit) (p : Pipeline) :
    Op e Unit :=
  if p.sizeOverride then f width16 p else f width32 p

end Operations

end Qx86
