import Qx86.Machine.Operations.Control
import Qx86.Machine.Operations.Width

namespace Qx86.Operations

open Foundation Words BitManipulation Op Register

variable {e : Effects}

section Width

variable (w : OperandWidth)

def subtractFlags (base subt : BitVec w.bits) (f : X86Flags) : X86Flags :=
  f.getFlags ((base - subt).setWidth 32) (subt.setWidth 32) (base.setWidth 32)
    (base.ssubOverflow subt) (base.usubOverflow subt) .dec w.sign

def add (p : Pipeline) : Op e Unit := do
  let base ← getArgAs w.exact (p.args 0).location
  let adder ← getArgAs w.extended (p.args 1).location
  let result := base + adder
  modifyFlags (·.getFlags (result.setWidth 32) (adder.setWidth 32) (base.setWidth 32)
    (base.saddOverflow adder) (base.uaddOverflow adder) .inc w.sign)
  setArg (p.args 0).location (w.sized result)

def sub (p : Pipeline) : Op e Unit := do
  let base ← getArgAs w.exact (p.args 0).location
  let subt ← getArgAs w.extended (p.args 1).location
  modifyFlags (subtractFlags w base subt)
  setArg (p.args 0).location (w.sized (base - subt))

def cmp (p : Pipeline) : Op e Unit := do
  let base ← getArgAs w.exact (p.args 0).location
  let cmpt ← getArgAs w.extended (p.args 1).location
  modifyFlags (subtractFlags w base cmpt)

def adc (p : Pipeline) : Op e Unit := do
  let f ← flags
  let carryAdd : BitVec w.bits := if f.carry then 1 else 0
  let prelimSum ← getArgAs w.exact (p.args 0).location
  setArg (p.args 0).location (w.sized (prelimSum + carryAdd))
  add w p

def sbb (p : Pipeline) : Op e Unit := do
  let f ← flags
  let carrySub : BitVec w.bits := if f.carry then 1 else 0
  let prelimDif ← getArgAs w.exact (p.args 0).location
  setArg (p.args 0).location (w.sized (prelimDif - carrySub))
  sub w p

def xadd (p : Pipeline) : Op e Unit := do
  xchg p
  add w p

/-- The bitwise functions differ in the operator and in whether they store. -/
def bitwise (op : BitVec w.bits → BitVec w.bits → BitVec w.bits) (stores : Bool)
    (p : Pipeline) : Op e Unit := do
  let base ← getArgAs w.exact (p.args 0).location
  let mask ← getArgAs w.extended (p.args 1).location
  let result := op base mask
  modifyFlags (·.getFlags (result.setWidth 32) (mask.setWidth 32) (base.setWidth 32)
    false false .none w.sign)
  if stores then setArg (p.args 0).location (w.sized result) else pure ()

/-- `increment` and `decrement` differ in the result, its overflow and the adjust flag. -/
def step (result : BitVec w.bits → BitVec w.bits) (overflow adjust : BitVec w.bits → Bool)
    (p : Pipeline) : Op e Unit := do
  let base ← getArgAs w.exact (p.args 0).location
  modifyFlags fun f ↦
    let f := { f with overflow := overflow base }
    let f := f.calculateZero ((result base).signExtend 32)
    let f := f.calculateParity ((result base).signExtend 32)
    let f := f.calculateSign ((result base).signExtend 32) w.sign
    { f with adjust := adjust base }
  setArg (p.args 0).location (w.sized (result base))

def increment (p : Pipeline) : Op e Unit :=
  step w (· + 1) (·.saddOverflow 1) (fun base ↦ decide (15 < (base &&& 0x0F) + (1 &&& 0x0F))) p

def decrement (p : Pipeline) : Op e Unit :=
  step w (· - 1) (·.ssubOverflow 1)
    (fun base ↦ ((base.setWidth 32 &&& 0x0F) - ((1 : BitVec 32) &&& 0x0F)).slt 0) p

def cmpxchg (p : Pipeline) : Op e Unit := do
  let accumulator ← getReg eax w.size
  let accumulator ← ofExcept (w.exact accumulator)
  let destination ← getArgAs w.exact (p.args 0).location
  let source ← getArg (p.args 1).location
  modifyFlags (subtractFlags w accumulator destination)
  let f ← flags
  if f.zero then setArg (p.args 0).location source
  else setReg eax (w.sized destination)

def invert (p : Pipeline) : Op e Unit := do
  let base ← getArgAs w.exact (p.args 0).location
  setArg (p.args 0).location (w.sized (~~~base))

def negate (p : Pipeline) : Op e Unit := do
  let base ← getArgAs w.exact (p.args 0).location
  modifyFlags fun f ↦
    let f := { f with carry := base != 0 }
    let f := f.calculateZero ((-base).signExtend 32)
    { f with overflow := base.negOverflow }
  setArg (p.args 0).location (w.sized (-base))

end Width

def add8bit (p : Pipeline) : Op e Unit := add width8 p
def addNativeWord (p : Pipeline) : Op e Unit := nativeWord add p
def sub8bit (p : Pipeline) : Op e Unit := sub width8 p
def subNativeWord (p : Pipeline) : Op e Unit := nativeWord sub p
def cmp8bit (p : Pipeline) : Op e Unit := cmp width8 p
def cmpNativeWord (p : Pipeline) : Op e Unit := nativeWord cmp p
def adc8bit (p : Pipeline) : Op e Unit := adc width8 p
def adcNativeWord (p : Pipeline) : Op e Unit := nativeWord adc p
def sbb8bit (p : Pipeline) : Op e Unit := sbb width8 p
def sbbNativeWord (p : Pipeline) : Op e Unit := nativeWord sbb p
def xadd8bit (p : Pipeline) : Op e Unit := xadd width8 p
def xaddNativeWord (p : Pipeline) : Op e Unit := nativeWord xadd p

def and8bit (p : Pipeline) : Op e Unit := bitwise width8 (· &&& ·) true p
def andNativeWord (p : Pipeline) : Op e Unit := nativeWord (fun w ↦ bitwise w (· &&& ·) true) p
def or8bit (p : Pipeline) : Op e Unit := bitwise width8 (· ||| ·) true p
def orNativeWord (p : Pipeline) : Op e Unit := nativeWord (fun w ↦ bitwise w (· ||| ·) true) p
def xor8bit (p : Pipeline) : Op e Unit := bitwise width8 (· ^^^ ·) true p
def xorNativeWord (p : Pipeline) : Op e Unit := nativeWord (fun w ↦ bitwise w (· ^^^ ·) true) p
def test8bit (p : Pipeline) : Op e Unit := bitwise width8 (· &&& ·) false p
/-- `test_native_word` of the source calls the storing `and` functions. -/
def testNativeWord (p : Pipeline) : Op e Unit := nativeWord (fun w ↦ bitwise w (· &&& ·) true) p

def increment8bit (p : Pipeline) : Op e Unit := increment width8 p
def incrementNativeWord (p : Pipeline) : Op e Unit := nativeWord increment p
def decrement8bit (p : Pipeline) : Op e Unit := decrement width8 p
def decrementNativeWord (p : Pipeline) : Op e Unit := nativeWord decrement p
def cmpxchg8bit (p : Pipeline) : Op e Unit := cmpxchg width8 p
def cmpxchgNativeWord (p : Pipeline) : Op e Unit := nativeWord cmpxchg p
def not8bit (p : Pipeline) : Op e Unit := invert width8 p
def notNativeWord (p : Pipeline) : Op e Unit := nativeWord invert p
def neg8bit (p : Pipeline) : Op e Unit := negate width8 p
def negNativeWord (p : Pipeline) : Op e Unit := nativeWord negate p

def cmpxchg8b (p : Pipeline) : Op e Unit := do
  let a ← reg32 eax
  let d ← reg32 edx
  let c ← reg32 ecx
  let b ← reg32 ebx
  let address ← getArgLea (p.args 0).location
  let temp ← getMemAs SizedValue.u64Exact address .qword
  let combinedValue := (d.setWidth 64 <<< 32) + a.setWidth 64
  if combinedValue = temp then
    modifyFlags ({ · with zero := true })
    setMem address (.qword ((c.setWidth 64 <<< 32) + b.setWidth 64))
  else
    modifyFlags ({ · with zero := false })
    setReg eax (.dword ((temp &&& 0xFFFFFFFF).setWidth 32))
    setReg edx (.dword (((temp &&& 0xFFFFFFFF00000000) >>> 32).setWidth 32))

def div8bit (p : Pipeline) : Op e Unit := do
  let firstArg ← reg16 eax
  let secondArg ← getArgAs SizedValue.u16Zx (p.args 0).location
  if secondArg = 0 ∨ 0xFF < firstArg / secondArg then throw .divideByZero
  else
    setReg al (.byte ((firstArg / secondArg).setWidth 8))
    setReg ah (.byte ((firstArg % secondArg).setWidth 8))

def div16bit (p : Pipeline) : Op e Unit := do
  let high ← reg16 edx
  let low ← reg16 eax
  let firstArg := (high.setWidth 32 <<< 16) ||| low.setWidth 32
  let secondArg ← getArgAs SizedValue.u32Zx (p.args 0).location
  if secondArg = 0 ∨ 0xFFFF < firstArg / secondArg then throw .divideByZero
  else
    setReg eax (.word ((firstArg / secondArg).setWidth 16))
    setReg edx (.word ((firstArg % secondArg).setWidth 16))

def div32bit (p : Pipeline) : Op e Unit := do
  let high ← reg32 edx
  let low ← reg32 eax
  let firstArg := (high.setWidth 64 <<< 32) ||| low.setWidth 64
  let secondArg ← getArgAs SizedValue.u32Zx (p.args 0).location
  let secondArg := secondArg.setWidth 64
  if secondArg = 0 ∨ 0xFFFFFFFF < firstArg / secondArg then throw .divideByZero
  else
    setReg eax (.dword ((firstArg / secondArg).setWidth 32))
    setReg edx (.dword ((firstArg % secondArg).setWidth 32))

def divNativeWord (p : Pipeline) : Op e Unit :=
  if p.sizeOverride then div16bit p else div32bit p

/-- Both signed `/` and `%` unwind on the least value over minus one. -/
def sdivOverflows {w : ℕ} (a b : BitVec w) : Bool := a == .intMin w && b == .allOnes w

def idiv8bit (p : Pipeline) : Op .division Unit := do
  let firstArg ← reg16 eax
  let secondArg ← getArgAs SizedValue.u16Zx (p.args 0).location
  if secondArg = 0 then throw .divideByZero
  else
    unwindIf (sdivOverflows firstArg secondArg)
    if BitVec.slt 0xFF (firstArg.sdiv secondArg) then throw .divideByZero
    else
      setReg al (.byte ((firstArg.sdiv secondArg).setWidth 8))
      setReg ah (.byte ((firstArg.srem secondArg).setWidth 8))

def idiv16bit (p : Pipeline) : Op .division Unit := do
  let high ← reg16 edx
  let low ← reg16 eax
  let firstArg := (high.signExtend 32 <<< 16) ||| low.setWidth 32
  let secondArg ← getArgAs SizedValue.u32Zx (p.args 0).location
  if secondArg = 0 then throw .divideByZero
  else
    unwindIf (sdivOverflows firstArg secondArg)
    if BitVec.slt 0xFFFF (firstArg.sdiv secondArg) then throw .divideByZero
    else
      setReg eax (.word ((firstArg.sdiv secondArg).setWidth 16))
      setReg edx (.word ((firstArg.srem secondArg).setWidth 16))

def idiv32bit (p : Pipeline) : Op .division Unit := do
  let high ← reg32 edx
  let low ← reg32 eax
  let firstArg := (high.signExtend 64 <<< 32) ||| low.signExtend 64
  let secondArg ← getArgAs SizedValue.u32Zx (p.args 0).location
  let secondArg := secondArg.signExtend 64
  if secondArg = 0 then throw .divideByZero
  else
    unwindIf (sdivOverflows firstArg secondArg)
    if BitVec.slt 0xFFFFFFFF (firstArg.sdiv secondArg) then throw .divideByZero
    else
      setReg eax (.dword ((firstArg.sdiv secondArg).setWidth 32))
      setReg edx (.dword ((firstArg.srem secondArg).setWidth 32))

def idivNativeWord (p : Pipeline) : Op .division Unit :=
  if p.sizeOverride then idiv16bit p else idiv32bit p

def setProductFlags (b : Bool) : Op e Unit :=
  modifyFlags ({ · with carry := b, overflow := b })

def mul8bit (p : Pipeline) : Op e Unit := do
  let firstArg ← reg8 al
  let secondArg ← getArgAs SizedValue.u16Zx (p.args 0).location
  let result := firstArg.setWidth 16 * secondArg
  setProductFlags (decide (0 < result &&& 0xFF00))
  setReg eax (.word result)

def storeProduct16 (result : BitVec 32) : Op e Unit := do
  setReg eax (.word ((result &&& 0x0000FFFF).setWidth 16))
  setReg edx (.word (((result &&& 0xFFFF0000) >>> 16).setWidth 16))
  let dx ← reg16 edx
  setProductFlags (decide (0 < dx))

def storeProduct32 (result : BitVec 64) : Op e Unit := do
  setReg eax (.dword ((result &&& 0x00000000FFFFFFFF).setWidth 32))
  setReg edx (.dword (((result &&& 0xFFFFFFFF00000000) >>> 32).setWidth 32))
  let edx ← reg32 edx
  setProductFlags (decide (0 < edx))

def mul16bit (p : Pipeline) : Op e Unit := do
  let firstArg ← reg16 eax
  let secondArg ← getArgAs SizedValue.u32Zx (p.args 0).location
  storeProduct16 (firstArg.setWidth 32 * secondArg)

def mul32bit (p : Pipeline) : Op e Unit := do
  let firstArg ← reg32 eax
  let secondArg ← getArgAs SizedValue.u32Zx (p.args 0).location
  storeProduct32 (firstArg.setWidth 64 * secondArg.setWidth 64)

def mulNativeWord (p : Pipeline) : Op e Unit :=
  if p.sizeOverride then mul16bit p else mul32bit p

def imul1_8bit (p : Pipeline) : Op e Unit := do
  let firstArg ← reg8 al
  let secondArg ← getArgAs SizedValue.u16Sx (p.args 0).location
  let result := firstArg.setWidth 16 * secondArg
  setProductFlags (decide (0 < result &&& 0xFF00))
  setReg eax (.word result)

def imul1_16bit (p : Pipeline) : Op e Unit := do
  let firstArg ← reg16 eax
  let secondArg ← getArgAs SizedValue.u16Sx (p.args 0).location
  storeProduct16 (firstArg.signExtend 32 * secondArg.signExtend 32)

def imul1_32bit (p : Pipeline) : Op e Unit := do
  let firstArg ← reg32 eax
  let secondArg ← getArgAs SizedValue.u32Sx (p.args 0).location
  storeProduct32 (firstArg.signExtend 64 * secondArg.signExtend 64)

def imul1NativeWord (p : Pipeline) : Op e Unit :=
  if p.sizeOverride then imul1_16bit p else imul1_32bit p

def keepProduct16 (result : BitVec 32) (p : Pipeline) : Op e Unit := do
  setProductFlags (decide (0 < (result &&& 0xFFFF0000) >>> 16))
  setArg (p.args 0).location (.word ((result &&& 0x0000FFFF).setWidth 16))

def keepProduct32 (result : BitVec 64) (p : Pipeline) : Op e Unit := do
  setProductFlags (decide (0 < (result &&& 0xFFFFFFFF00000000) >>> 16))
  setArg (p.args 0).location (.dword ((result &&& 0x00000000FFFFFFFF).setWidth 32))

def imul2_16bit (p : Pipeline) : Op e Unit := do
  let firstArg ← getArgAs SizedValue.u16Sx (p.args 0).location
  let secondArg ← getArgAs SizedValue.u16Sx (p.args 1).location
  keepProduct16 (firstArg.signExtend 32 * secondArg.signExtend 32) p

def imul2_32bit (p : Pipeline) : Op e Unit := do
  let firstArg ← getArgAs SizedValue.u32Sx (p.args 0).location
  let secondArg ← getArgAs SizedValue.u32Sx (p.args 1).location
  keepProduct32 (firstArg.signExtend 64 * secondArg.signExtend 64) p

def imul2NativeWord (p : Pipeline) : Op e Unit :=
  if p.sizeOverride then imul2_16bit p else imul2_32bit p

def imul3_16bit (p : Pipeline) : Op e Unit := do
  let firstArg ← getArgAs SizedValue.u32Sx (p.args 1).location
  let secondArg ← getArgAs SizedValue.u32Sx (p.args 2).location
  keepProduct16 ((firstArg.signExtend 64 * secondArg.signExtend 64).setWidth 32) p

def imul3_32bit (p : Pipeline) : Op e Unit := do
  let firstArg ← getArgAs SizedValue.u32Sx (p.args 1).location
  let secondArg ← getArgAs SizedValue.u32Sx (p.args 2).location
  keepProduct32 (firstArg.signExtend 64 * secondArg.signExtend 64) p

def imul3NativeWord (p : Pipeline) : Op e Unit :=
  if p.sizeOverride then imul3_16bit p else imul3_32bit p

/-- `aaa` and `aas` differ in the direction of the adjustment. -/
def asciiAdjust (low : BitVec 8 → BitVec 8) (high : BitVec 8 → BitVec 8) : Op e Unit := do
  let a ← reg8 al
  let h ← reg8 ah
  let f ← flags
  if 9 < a &&& 0x0F ∨ f.adjust then
    setReg al (.byte (low a))
    setReg ah (.byte (high h))
    modifyFlags ({ · with adjust := true, carry := true })
  else modifyFlags ({ · with adjust := false, carry := false })
  let a ← reg8 al
  setReg al (.byte (a &&& 0x0F))

def aaa (_p : Pipeline) : Op e Unit := asciiAdjust (· + 6) (· + 1)

def aas (_p : Pipeline) : Op e Unit := asciiAdjust (· - 6) (· - 1)

def setResultFlags (v : BitVec 8) : Op e Unit :=
  modifyFlags fun f ↦
    ((f.calculateParity (v.setWidth 32)).calculateSign8 v).calculateZero (v.setWidth 32)

def daa (_p : Pipeline) : Op e Unit := do
  let oldAl ← reg8 al
  let f ← flags
  let oldCarry := f.carry
  let low : BitVec 8 ← if 9 < oldAl &&& 0x0F ∨ f.adjust then do
      modifyFlags ({ · with carry := oldAl.uaddOverflow 6, adjust := true })
      pure (oldAl + 6)
    else do
      modifyFlags ({ · with adjust := false })
      pure oldAl
  let result : BitVec 8 ← if 0x99 < oldAl ∨ oldCarry then do
      modifyFlags ({ · with carry := true })
      pure (low + 0x60)
    else do
      modifyFlags ({ · with carry := false })
      pure low
  setResultFlags result
  setReg al (.byte result)

/-- Unlike `daa`, this leaves the carry of the low step when the high step is not taken. -/
def das (_p : Pipeline) : Op e Unit := do
  let oldAl ← reg8 al
  let f ← flags
  let oldCarry := f.carry
  let low : BitVec 8 ← if 9 < oldAl &&& 0x0F ∨ f.adjust then do
      modifyFlags ({ · with carry := oldAl.usubOverflow 6, adjust := true })
      pure (oldAl - 6)
    else do
      modifyFlags ({ · with adjust := false })
      pure oldAl
  let result : BitVec 8 ← if 0x99 < oldAl ∨ oldCarry then do
      modifyFlags ({ · with carry := true })
      pure (low - 0x60)
    else pure low
  setResultFlags result
  setReg al (.byte result)

def aad (p : Pipeline) : Op e Unit := do
  let a ← reg8 al
  let h ← reg8 ah
  let secondByte ← getArgAs SizedValue.u8Exact (p.args 0).location
  let result := h * secondByte + a
  setResultFlags result
  setReg al (.byte result)
  setReg ah (.byte 0)

def aam (p : Pipeline) : Op e Unit := do
  let a ← reg8 al
  let secondByte ← getArgAs SizedValue.u8Exact (p.args 0).location
  if secondByte = 0 then throw .divideByZero
  else
    setResultFlags (a % secondByte)
    setReg ah (.byte (a / secondByte))
    setReg al (.byte (a % secondByte))

end Qx86.Operations
