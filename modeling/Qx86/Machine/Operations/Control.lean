import Qx86.Machine.Op

namespace Qx86.Operations

open Foundation Words BitManipulation Op Register

variable {e : Effects}

def mov (p : Pipeline) : Op e Unit := do
  let v ← getArg (p.args 1).location
  setArg (p.args 0).location v

def pushRegister (r : Register) (s : ValueSize) (p : Pipeline) : Op e Unit := do
  let v ← getReg r s
  pushStack v p

/-- Both halves of `pusha`, which differ in the size of the registers. -/
def pushAll (s : ValueSize) (p : Pipeline) : Op e Unit := do
  let sp ← getReg esp s
  pushRegister eax s p
  pushRegister ecx s p
  pushRegister edx s p
  pushRegister ebx s p
  pushStack sp p
  pushRegister ebp s p
  pushRegister esi s p
  pushRegister edi s p

def pusha (p : Pipeline) : Op e Unit :=
  if p.sizeOverride then pushAll .word p else pushAll .dword p

/-- Both halves of `popa`; the popped stack pointer is dropped. -/
def popAll (pop : Op e SizedValue) : Op e Unit := do
  let di ← pop
  let si ← pop
  let bp ← pop
  let _ ← pop
  let bx ← pop
  let dx ← pop
  let cx ← pop
  let ax ← pop
  setReg edi di
  setReg esi si
  setReg ebp bp
  setReg ebx bx
  setReg edx dx
  setReg ecx cx
  setReg eax ax

def popa (p : Pipeline) : Op e Unit :=
  if p.sizeOverride then popAll pop16 else popAll pop32

def advanceEip (n : BitVec 32) : Op .jump Unit := do
  let eip ← eipValue
  setEip (eip + n)

/-- The nested frame pointers that `enter` pushes. The range `1..nesting - 1` of the
source has `nesting - 2` elements. -/
def pushNesting (nesting : BitVec 8) (ebp temp : BitVec 32) (p : Pipeline) : Op e Unit :=
  if 0 < nesting then do
    times (nesting.toNat - 2) do
      if p.sizeOverride then setReg32 Register.ebp (ebp - 2)
      else setReg32 Register.ebp (ebp - 4)
      pushStack (.dword ebp) p
    pushStack (.dword temp) p
  else pure ()

def enter (p : Pipeline) : Op .jump Unit := do
  let locals ← getArgAs SizedValue.u16Exact (p.args 0).location
  advanceEip 2
  let nesting ← getArgAs SizedValue.u8Exact (p.args 1).location
  advanceEip 1
  let ebp ← reg32 Register.ebp
  pushStack (.dword ebp) p
  let temp ← reg32 esp
  pushNesting (nesting % 32) ebp temp p
  setReg32 Register.ebp temp
  setReg32 esp (temp - locals.setWidth 32)

def leave (_p : Pipeline) : Op e Unit := do
  let base ← getReg ebp .dword
  setReg esp base
  let dword ← pop32
  setReg ebp dword

def push (p : Pipeline) : Op e Unit := do
  let v ← getArg (p.args 0).location
  pushStack v p

def pop (p : Pipeline) : Op e Unit := do
  let v ← if p.sizeOverride then pop16 else pop32
  setArg (p.args 0).location v

def swapBytes (v : BitVec 32) : BitVec 32 := Bytes.fromLeBytes 32 (Bytes.leBytes 4 v).reverse

def bswap (p : Pipeline) : Op e Unit := do
  let source ← getArgAs SizedValue.u32Exact (p.args 0).location
  setArg (p.args 0).location (.dword (swapBytes source))

def pushf (p : Pipeline) : Op e Unit := do
  let f ← flags
  pushStack (.dword f.serializeFlagStorage) p

def popf (_p : Pipeline) : Op e Unit := do
  let flagResult ← pop32
  let flagInt ← ofExcept flagResult.u32Exact
  modifyFlags (·.deserializeFlagStorage flagInt)

def lahf (_p : Pipeline) : Op e Unit := do
  let f ← flags
  setReg ah (.byte (f.serializeFlagStorage.setWidth 8))

def sahf (_p : Pipeline) : Op e Unit := do
  let v ← reg8 ah
  modifyFlags (·.deserializeFlagStorage (v.setWidth 32))

def stc (_p : Pipeline) : Op e Unit := modifyFlags ({ · with carry := true })

def clc (_p : Pipeline) : Op e Unit := modifyFlags ({ · with carry := false })

def cmc (_p : Pipeline) : Op e Unit := modifyFlags fun f ↦ { f with carry := !f.carry }

def setDirection (_p : Pipeline) : Op e Unit := modifyFlags ({ · with direction := true })

def clearDirection (_p : Pipeline) : Op e Unit := modifyFlags ({ · with direction := false })

def xlatb (p : Pipeline) : Op e Unit := do
  let low ← reg8 al
  let sum ← if p.sizeOverride then do
      let bx ← reg16 ebx
      pure ((low.setWidth 16 + bx).setWidth 32)
    else do
      let ebx ← reg32 ebx
      pure (low.setWidth 32 + ebx)
  let result ← getMemAs SizedValue.u8Exact sum .byte
  setReg al (.byte result)

def cbwCwde (p : Pipeline) : Op e Unit :=
  if p.sizeOverride then do
    let lowerHalf ← reg8 al
    if lowerHalf < 0x80 then setReg ah (.byte 0) else setReg ah (.byte 0xFF)
  else do
    let lowerHalf ← reg16 eax
    if 0x8000 < lowerHalf then setReg eax (.dword (0xFFFF0000 + lowerHalf.setWidth 32))
    else setReg eax (.dword (lowerHalf.setWidth 32))

def cdqCwd (p : Pipeline) : Op e Unit :=
  if p.sizeOverride then do
    let lowerHalf ← reg16 eax
    if lowerHalf < 0x8000 then setReg edx (.word 0) else setReg edx (.word 0xFFFF)
  else do
    let lowerHalf ← reg32 eax
    if lowerHalf < 0x80000000 then setReg edx (.dword 0) else setReg edx (.dword 0xFFFFFFFF)

def xchg (p : Pipeline) : Op e Unit := do
  let source ← getArg (p.args 0).location
  let destination ← getArg (p.args 1).location
  setArg (p.args 0).location destination
  setArg (p.args 1).location source

def popEip (p : Pipeline) : Op .jump Unit :=
  if p.sizeOverride then do
    let word ← pop16
    let target ← ofExcept word.u32Zx
    setEip ((target - p.eipSize.setWidth 32) &&& 0xFFFF)
  else do
    let dword ← pop32
    let target ← ofExcept dword.u32Zx
    setEip (target - p.eipSize.setWidth 32)

def ret (p : Pipeline) : Op .jump Unit := do
  let stackClear ← getArgAs SizedValue.u16Zx (p.args 0).location
  popEip p
  if stackClear ≠ 0 then
    let sp ← reg32 esp
    setReg32 esp (sp + stackClear.setWidth 32)

/-- The source stores to `vm.eip` and then masks it in place. -/
def jumpTo (a : BitVec 32) (p : Pipeline) : Op .jump Unit :=
  if p.sizeOverride then setEip (a &&& 0xFFFF) else setEip a

def jmpRel (p : Pipeline) : Op .jump Unit := do
  let eip ← eipValue
  let futureEip := eip + p.eipSize.setWidth 32
  let rel ← getArgAs SizedValue.u32Sx (p.args 0).location
  jumpTo (futureEip + rel - p.eipSize.setWidth 32) p

def jmpAbs (p : Pipeline) : Op .jump Unit := do
  let target ← getArgAs SizedValue.u32Zx (p.args 0).location
  jumpTo (target - p.eipSize.setWidth 32) p

def call (jump : Pipeline → Op .jump Unit) (p : Pipeline) : Op .jump Unit := do
  let branchTo ← getArgAs SizedValue.u32Zx (p.args 0).location
  let eip ← eipValue
  pushStack (.dword (eip + p.eipSize.setWidth 32)) p
  setArg (p.args 1).location (.dword branchTo)
  jump p

def callRel (p : Pipeline) : Op .jump Unit := call jmpRel p

def callAbs (p : Pipeline) : Op .jump Unit := call jmpAbs p

def jmpConditionalEcxIsZero (p : Pipeline) : Op .jump Unit := do
  let count ← reg32 ecx
  if count = 0 then jmpRel p else pure ()

def ccMatches (opcode : BitVec 8) (flags : X86Flags) : Bool :=
  match 0x0F &&& opcode with
  | 0x0 => flags.overflow
  | 0x1 => !flags.overflow
  | 0x2 => flags.carry
  | 0x3 => !flags.carry
  | 0x4 => flags.zero
  | 0x5 => !flags.zero
  | 0x6 => flags.carry || flags.zero
  | 0x7 => !flags.carry && !flags.zero
  | 0x8 => flags.sign
  | 0x9 => !flags.sign
  | 0xA => flags.parity
  | 0xB => !flags.parity
  | 0xC => flags.sign != flags.overflow
  | 0xD => flags.sign == flags.overflow
  | 0xE => flags.sign != flags.overflow || flags.zero
  | 0xF => flags.sign == flags.overflow && !flags.zero
  | _ => false

def jcc (p : Pipeline) : Op .jump Unit := do
  let f ← flags
  if ccMatches p.opcode f then jmpRel p else pure ()

def setcc8bit (p : Pipeline) : Op e Unit := do
  let f ← flags
  if ccMatches p.opcode f then setArg (p.args 0).location (.byte 1)
  else setArg (p.args 0).location (.byte 0)

def cmovccNative (p : Pipeline) : Op e Unit := do
  let f ← flags
  if ccMatches p.opcode f then
    let v ← getArg (p.args 1).location
    setArg (p.args 0).location v
  else pure ()

def lea (p : Pipeline) : Op e Unit := do
  let address ← getArgLea (p.args 1).location
  if p.sizeOverride then setArg (p.args 0).location (.word (address.setWidth 16))
  else setArg (p.args 0).location (.dword address)

/-- The widening moves differ in how they extend to a word and to a dword. -/
def movx16 (to16 : SizedValue → Except VMError (BitVec 16)) (p : Pipeline) : Op e Unit := do
  let v ← getArgAs to16 (p.args 1).location
  setArg (p.args 0).location (.word v)

def movx32 (to32 : SizedValue → Except VMError (BitVec 32)) (p : Pipeline) : Op e Unit := do
  let v ← getArgAs to32 (p.args 1).location
  setArg (p.args 0).location (.dword v)

def movzx8bit (p : Pipeline) : Op e Unit :=
  if p.sizeOverride then movx16 SizedValue.u16Zx p else movx32 SizedValue.u32Zx p

def movzx16bit (p : Pipeline) : Op e Unit := movx32 SizedValue.u32Zx p

def movsx8bit (p : Pipeline) : Op e Unit :=
  if p.sizeOverride then movx16 SizedValue.u16Sx p else movx32 SizedValue.u32Sx p

def movsx16bit (p : Pipeline) : Op e Unit := movx32 SizedValue.u32Sx p

def hlt (_p : Pipeline) : Op e Unit := throw .internalVMStop

end Qx86.Operations
