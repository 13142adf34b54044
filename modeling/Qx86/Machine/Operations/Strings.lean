import Qx86.Machine.Operations.Arithmetic

namespace Qx86.Operations

open Foundation Words Op Register

variable {e : Effects}

def elementStep (n : BitVec 32) : Op e (BitVec 32) := do
  let f ← flags
  pure (if f.direction then -n else n)

def advanceIndex (r : Register) (d : BitVec 32) : Op e Unit := do
  let v ← reg32 r
  setReg32 r (v + d)

section Width

variable (w : OperandWidth) (n : BitVec 32)

def movs : Op e Unit := do
  let dst ← reg32 edi
  let src ← reg32 esi
  let v ← getMemAs w.exact src w.size
  setMem dst (w.sized v)
  let d ← elementStep n
  advanceIndex edi d
  advanceIndex esi d

def cmps : Op e Unit := do
  let src ← reg32 esi
  let destination ← getMemAs w.exact src w.size
  let dst ← reg32 edi
  let source ← getMemAs w.exact dst w.size
  modifyFlags (subtractFlags w destination source)
  let d ← elementStep n
  advanceIndex edi d
  advanceIndex esi d

def storeString : Op e Unit := do
  let dst ← reg32 edi
  let v ← getReg eax w.size
  setMem dst v
  let d ← elementStep n
  advanceIndex edi d

def loadString : Op e Unit := do
  let src ← reg32 esi
  let v ← getMemAs w.exact src w.size
  setReg eax (w.sized v)
  let d ← elementStep n
  advanceIndex esi d

def scanString : Op e Unit := do
  let dst ← reg32 edi
  let mem ← getMemAs w.exact dst w.size
  let reg ← getReg eax w.size
  let reg ← ofExcept (w.exact reg)
  modifyFlags (subtractFlags w reg mem)
  let d ← elementStep n
  advanceIndex edi d

end Width

def stringNativeWord (f : OperandWidth → BitVec 32 → Op e Unit) (p : Pipeline) : Op e Unit :=
  if p.sizeOverride then f width16 2 else f width32 4

def movsb (_p : Pipeline) : Op e Unit := movs width8 1
def movsNativeWord (p : Pipeline) : Op e Unit := stringNativeWord movs p
def cmpsb (_p : Pipeline) : Op e Unit := cmps width8 1
def cmpsNativeWord (p : Pipeline) : Op e Unit := stringNativeWord cmps p
def storeStringByte (_p : Pipeline) : Op e Unit := storeString width8 1
def storeStringNativeWord (p : Pipeline) : Op e Unit := stringNativeWord storeString p
def loadStringByte (_p : Pipeline) : Op e Unit := loadString width8 1
def loadStringNativeWord (p : Pipeline) : Op e Unit := stringNativeWord loadString p
def scanStringByte (_p : Pipeline) : Op e Unit := scanString width8 1
def scanStringNativeWord (p : Pipeline) : Op e Unit := stringNativeWord scanString p

end Qx86.Operations
