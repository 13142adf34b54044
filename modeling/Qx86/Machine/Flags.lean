import Qx86.Foundation.Words

namespace Qx86

open Foundation Words

namespace BitManipulation

variable {w : ℕ}

def getBit (x : BitVec w) (index : BitVec 8) : Bool :=
  decide (0 < x &&& wrappingShl 1 index.toNat)

def getBitBigEndian (x : BitVec w) (index : BitVec 8) : Bool :=
  decide (0 < x &&& wrappingShl 1 (BitVec.ofNat 8 (w - 1) - index).toNat)

def setBit (x : BitVec w) (index : BitVec 8) (value : Bool) : BitVec w :=
  if value then x ||| wrappingShl 1 index.toNat
  else x &&& (BitVec.allOnes w ^^^ wrappingShl 1 index.toNat)

end BitManipulation

open BitManipulation

structure X86Flags where
  carry : Bool := false
  parity : Bool := false
  adjust : Bool := false
  zero : Bool := false
  sign : Bool := false
  trap : Bool := false
  interrupt : Bool := false
  direction : Bool := false
  overflow : Bool := false
  deriving DecidableEq

namespace X86Flags

def calculateParity (f : X86Flags) (val : BitVec 32) : X86Flags :=
  { f with
    parity := (List.range 8).countP (fun i ↦ val &&& wrappingShl 1 i != 0) % 2 == 0 }

def calculateSign8 (f : X86Flags) (val : BitVec 8) : X86Flags :=
  { f with sign := val &&& 0x80 != 0 }

def calculateSign16 (f : X86Flags) (val : BitVec 16) : X86Flags :=
  { f with sign := val &&& 0x8000 != 0 }

def calculateSign32 (f : X86Flags) (val : BitVec 32) : X86Flags :=
  { f with sign := val &&& 0x80000000 != 0 }

def calculateZero (f : X86Flags) (result : BitVec 32) : X86Flags :=
  { f with zero := result == 0 }

def serializeFlagStorage (f : X86Flags) : BitVec 32 :=
  let store := setBit 0 0 f.carry
  let store := setBit store 1 true
  let store := setBit store 2 f.parity
  let store := setBit store 4 f.adjust
  let store := setBit store 6 f.zero
  let store := setBit store 7 f.sign
  let store := setBit store 8 f.trap
  let store := setBit store 9 f.interrupt
  let store := setBit store 10 f.direction
  setBit store 11 f.overflow

def deserializeFlagStorage (_f : X86Flags) (store : BitVec 32) : X86Flags where
  carry := getBit store 0
  parity := getBit store 2
  adjust := getBit store 4
  zero := getBit store 6
  sign := getBit store 7
  trap := getBit store 8
  interrupt := getBit store 9
  direction := getBit store 10
  overflow := getBit store 11

end X86Flags

end Qx86
