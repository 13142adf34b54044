import Qx86.Machine.Operations.Width

namespace Qx86.Operations

open Foundation Words BitManipulation Op

variable {e : Effects}

/-- The bit tests differ in how the index is unwrapped and in the bit they store,
which is a function of the bit they found. -/
def bitTestWith (w : OperandWidth) (conv : SizedValue → Except VMError (BitVec w.bits))
    (value : Option (Bool → Bool)) (p : Pipeline) : Op e Unit := do
  let bitset ← getArgAs w.exact (p.args 0).location
  let index ← getArgAs conv (p.args 1).location
  let i := (index % BitVec.ofNat w.bits w.bits).setWidth 8
  modifyFlags ({ · with carry := getBit bitset i })
  match value with
  | none => pure ()
  | some value => setArg (p.args 0).location (w.sized (setBit bitset i (value (getBit bitset i))))

def bitTest (p : Pipeline) : Op e Unit := nativeWord (fun w ↦ bitTestWith w w.extended none) p

def bitTestSet (p : Pipeline) : Op e Unit :=
  nativeWord (fun w ↦ bitTestWith w w.extended (some fun _ ↦ true)) p

/-- The dword half takes the index as an exact dword, unlike the other bit tests. -/
def bitTestReset (p : Pipeline) : Op e Unit :=
  if p.sizeOverride then bitTestWith width16 width16.extended (some fun _ ↦ false) p
  else bitTestWith width32 width32.exact (some fun _ ↦ false) p

def bitTestComplement (p : Pipeline) : Op e Unit :=
  nativeWord (fun w ↦ bitTestWith w w.extended (some fun carry ↦ !carry)) p

/-- The scans differ in the end they start from and in the index they store. -/
def bitScan (bit : {w : ℕ} → BitVec w → BitVec 8 → Bool)
    (index : {w : ℕ} → BitVec w → BitVec w) (w : OperandWidth) (p : Pipeline) : Op e Unit := do
  let source ← getArgAs w.exact (p.args 0).location
  match (List.range w.bits).find? fun i ↦ bit source (BitVec.ofNat 8 i) with
  | none => modifyFlags ({ · with zero := true })
  | some i =>
    modifyFlags ({ · with zero := false })
    setArg (p.args 1).location (w.sized (index (BitVec.ofNat w.bits i)))

def bitScanForward (p : Pipeline) : Op e Unit := nativeWord (bitScan getBit id) p

def bitScanReverse (p : Pipeline) : Op e Unit :=
  nativeWord (bitScan getBitBigEndian fun {w} i ↦ BitVec.ofNat w (w - 1) - i) p

section Rotate

variable (w : OperandWidth) (reduce : BitVec w.bits → BitVec w.bits)

def rol (p : Pipeline) : Op e Unit := do
  let destination ← getArgAs w.exact (p.args 0).location
  let count ← getArgAs w.extended (p.args 1).location
  let count := reduce (count &&& 0x1F)
  if count = 0 then pure ()
  else
    let destination := wrappingShl destination count.toNat |||
      wrappingShr destination (BitVec.ofNat w.bits w.bits - count).toNat
    let carry := destination &&& 0x1 != 0
    modifyFlags ({ · with carry := carry })
    if count = 1 then modifyFlags ({ · with overflow := getBitBigEndian destination 0 ^^ carry })
    setArg (p.args 0).location (w.sized destination)

def ror (second : BitVec w.bits) (p : Pipeline) : Op e Unit := do
  let destination ← getArgAs w.exact (p.args 0).location
  let count ← getArgAs w.extended (p.args 1).location
  let count := reduce (count &&& 0x1F)
  if count = 0 then pure ()
  else
    let result := wrappingShr destination count.toNat |||
      wrappingShl destination (BitVec.ofNat w.bits w.bits - count).toNat
    let carry := getBitBigEndian result 0
    modifyFlags ({ · with carry := carry })
    if count = 1 then
      modifyFlags ({ · with overflow := carry ^^ decide (0 < result &&& second) })
    setArg (p.args 0).location (w.sized result)

/-- The rotations through carry work in a word of twice the width. -/
def rcl (p : Pipeline) : Op e Unit := do
  let destination ← getArgAs w.exact (p.args 0).location
  let count ← getArgAs w.extended (p.args 1).location
  let count := reduce (count &&& 0x1F)
  if count = 0 then pure ()
  else
    let f ← flags
    let base := wrappingShl (destination.setWidth (2 * w.bits)) 1 |||
      (BitVec.ofBool f.carry).setWidth (2 * w.bits)
    let result := wrappingShl base count.toNat |||
      wrappingShr base (BitVec.ofNat w.bits (w.bits + 1) - count).toNat
    let carry := decide (0 < result &&& wrappingShl 1 (w.bits + 1))
    modifyFlags ({ · with carry := carry })
    if count = 1 then
      modifyFlags ({ · with overflow := getBit result (BitVec.ofNat 8 (w.bits - 1)) ^^ carry })
    setArg (p.args 0).location (w.sized ((wrappingShr result 1).setWidth w.bits))

def rcr (p : Pipeline) : Op e Unit := do
  let destination ← getArgAs w.exact (p.args 0).location
  let count ← getArgAs w.extended (p.args 1).location
  let count := reduce (count &&& 0x1F)
  if count = 0 then pure ()
  else
    let f ← flags
    let base := destination.setWidth (2 * w.bits) |||
      wrappingShl ((BitVec.ofBool f.carry).setWidth (2 * w.bits)) w.bits
    let result := wrappingShr base count.toNat |||
      wrappingShl base (BitVec.ofNat w.bits (w.bits + 1) - count).toNat
    let carry := decide (0 < result &&& wrappingShl 1 w.bits)
    modifyFlags ({ · with carry := carry })
    let result := result.setWidth w.bits
    if count = 1 then
      modifyFlags ({ · with
        overflow := getBit result (BitVec.ofNat 8 (w.bits - 1)) ^^
          decide (0 < result &&& wrappingShl 1 (w.bits - 2)) })
    setArg (p.args 0).location (w.sized result)

end Rotate

def rol8bit (p : Pipeline) : Op e Unit := rol width8 (BitVec.umod · 8) p

def rolNativeWord (p : Pipeline) : Op e Unit :=
  if p.sizeOverride then rol width16 (BitVec.umod · 16) p else rol width32 (BitVec.umod · 32) p

def ror8bit (p : Pipeline) : Op e Unit :=
  ror width8 (BitVec.umod · 8) (BitVec.ofNat 8 0x40) p

def rorNativeWord (p : Pipeline) : Op e Unit :=
  if p.sizeOverride then ror width16 (BitVec.umod · 16) (BitVec.ofNat 16 0x4000) p
  else ror width32 id (BitVec.ofNat 32 0x40000000) p

def rcl8bit (p : Pipeline) : Op e Unit := rcl width8 (BitVec.umod · 8) p

/-- Unlike the narrower rotations, this one takes the overflow flag from the
result after the carry is shifted out, and does not reduce the count. -/
def rcl32bit (p : Pipeline) : Op e Unit := do
  let destination ← getArgAs SizedValue.u32Exact (p.args 0).location
  let count ← getArgAs SizedValue.u32Sx (p.args 1).location
  let count := count &&& 0x1F
  if count = 0 then pure ()
  else
    let f ← flags
    let base := wrappingShl (destination.setWidth 64) 1 ||| (BitVec.ofBool f.carry).setWidth 64
    let result := wrappingShl base count.toNat ||| wrappingShr base (33 - count).toNat
    let carry := decide (0 < result &&& wrappingShl 1 33)
    modifyFlags ({ · with carry := carry })
    let result := wrappingShr result 1 &&& 0xFFFFFFFF
    if count = 1 then modifyFlags ({ · with overflow := getBit result 31 ^^ carry })
    setArg (p.args 0).location (.dword (result.setWidth 32))

def rclNativeWord (p : Pipeline) : Op e Unit :=
  if p.sizeOverride then rcl width16 (BitVec.umod · 16) p else rcl32bit p

def rcr8bit (p : Pipeline) : Op e Unit := rcr width8 (BitVec.umod · 8) p

def rcrNativeWord (p : Pipeline) : Op e Unit :=
  if p.sizeOverride then rcr width16 (BitVec.umod · 16) p else rcr width32 id p

def sar (w : OperandWidth) (p : Pipeline) : Op e Unit := do
  let destination ← getArgAs w.exact (p.args 0).location
  let count ← getArgAs w.extended (p.args 1).location
  if count = 1 then modifyFlags ({ · with overflow := false })
  let count := count &&& 0x1F
  if count = 0 then pure ()
  else
    modifyFlags ({ · with
      carry := decide (0 < wrappingShr destination (count - 1).toNat &&& 1) })
    let shifted := wrappingShr destination count.toNat
    let result :=
      if getBitBigEndian destination 0 then
        shifted ||| ~~~(wrappingShr (BitVec.allOnes w.bits) count.toNat)
      else shifted
    modifyFlags fun f ↦
      ((f.calculateParity (result.setWidth 32)).calculateSign (result.setWidth 32)
        w.sign).calculateZero (result.setWidth 32)
    setArg (p.args 0).location (w.sized result)

def sar8bit (p : Pipeline) : Op e Unit := sar width8 p
def sarNativeWord (p : Pipeline) : Op e Unit := nativeWord sar p

/-- The last step of every left and right shift: flags from the words each of
them picks, then the store. -/
def storeShift (w : OperandWidth) (zero parity : BitVec 32) (result : BitVec w.bits)
    (p : Pipeline) : Op e Unit := do
  modifyFlags fun f ↦
    ((f.calculateZero zero).calculateParity parity).calculateSign (result.setWidth 32) w.sign
  setArg (p.args 0).location (w.sized result)

def shl8bit (p : Pipeline) : Op e Unit := do
  let destination ← getArgAs SizedValue.u8Exact (p.args 0).location
  let count ← getArgAs SizedValue.u8Exact (p.args 1).location
  let result := wrappingShl (destination.setWidth 16) count.toNat
  if count = 1 then
    modifyFlags ({ · with overflow := destination &&& 0x80 != result.setWidth 8 &&& 0x80 })
  modifyFlags ({ · with carry := result &&& 0x100 != 0 })
  storeShift width8 ((result.setWidth 8).setWidth 32) (result.setWidth 32)
    (result.setWidth 8) p

def shl16bit (p : Pipeline) : Op e Unit := do
  let destination ← getArgAs SizedValue.u16Exact (p.args 0).location
  let count ← getArgAs SizedValue.u16Sx (p.args 1).location
  let result := wrappingShl (destination.setWidth 32) count.toNat
  if count = 1 then
    modifyFlags ({ · with overflow := destination.setWidth 32 &&& 0x8000 != result &&& 0x8000 })
  modifyFlags ({ · with carry := result &&& 0x1000 != 0 })
  storeShift width16 result result (result.setWidth 16) p

def shl32bit (p : Pipeline) : Op e Unit := do
  let destination ← getArgAs SizedValue.u32Exact (p.args 0).location
  let count ← getArgAs SizedValue.u32Sx (p.args 1).location
  let result := wrappingShl (destination.setWidth 64) count.toNat
  if count = 1 then
    modifyFlags ({ · with
      overflow := destination.setWidth 64 &&& 0x80000000 != result &&& 0x80000000 })
  modifyFlags ({ · with carry := result &&& 0x100000000 != 0 })
  storeShift width32 (result.setWidth 32) (result.setWidth 32) (result.setWidth 32) p

def shlNativeWord (p : Pipeline) : Op e Unit :=
  if p.sizeOverride then shl16bit p else shl32bit p

def shr8bit (p : Pipeline) : Op e Unit := do
  let destination ← getArgAs SizedValue.u8Exact (p.args 0).location
  let count ← getArgAs SizedValue.u8Exact (p.args 1).location
  let result := wrappingShr destination count.toNat
  let computationResult := wrappingShr destination (count - 1).toNat
  if count = 1 then
    modifyFlags ({ · with overflow := destination &&& 0x80 != result &&& 0x80 })
  modifyFlags ({ · with carry := computationResult &&& 1 != 0 })
  storeShift width8 (result.setWidth 32) (result.setWidth 32) result p

def shr16bit (p : Pipeline) : Op e Unit := do
  let destination ← getArgAs SizedValue.u16Exact (p.args 0).location
  let count ← getArgAs SizedValue.u16Sx (p.args 1).location
  let result := wrappingShr (destination.setWidth 32) count.toNat
  let computationResult := wrappingShr (destination.setWidth 32) (count - 1).toNat
  if count = 1 then
    modifyFlags ({ · with overflow := destination.setWidth 32 &&& 0x8000 != result &&& 0x8000 })
  modifyFlags ({ · with carry := computationResult &&& 1 != 0 })
  storeShift width16 result result (result.setWidth 16) p

def shr32bit (p : Pipeline) : Op e Unit := do
  let destination ← getArgAs SizedValue.u32Exact (p.args 0).location
  let count ← getArgAs SizedValue.u32Sx (p.args 1).location
  let result := wrappingShr (destination.setWidth 64) count.toNat
  let computationResult := wrappingShr destination (count - 1).toNat
  if count = 1 then
    modifyFlags ({ · with
      overflow := destination.setWidth 64 &&& 0x80000000 != result &&& 0x80000000 })
  modifyFlags ({ · with carry := computationResult &&& 1 != 0 })
  storeShift width32 (result.setWidth 32) (result.setWidth 32) (result.setWidth 32) p

def shrNativeWord (p : Pipeline) : Op e Unit :=
  if p.sizeOverride then shr16bit p else shr32bit p

end Qx86.Operations
