import Qx86.Decode.Opcodes

namespace Qx86

open Foundation Outcome Bytes

inductive RepMode where
  | none
  | repe
  | repne
  deriving DecidableEq

structure PrefixesActivated where
  sizeOverride : Bool := false
  twoBytes : Bool := false
  repMode : RepMode := .none
  deriving DecidableEq

namespace PrefixesActivated

/-- Collect the prefixes at the front of an instruction and count their bytes. -/
def getPrefixes (pre : PrefixesActivated) (buffer : List (BitVec 8)) (prefixSize : ℕ) :
    Outcome VMError (PrefixesActivated × ℕ) :=
  match buffer with
  | [] => .panic
  | b :: bytes =>
    if b = 0x66 then getPrefixes { pre with sizeOverride := true } bytes (prefixSize + 1)
    else if b = 0x0F then .ok ({ pre with twoBytes := true }, prefixSize + 1)
    else if b = 0x67 then .panic
    else if b = 0xF2 then getPrefixes { pre with repMode := .repne } bytes (prefixSize + 1)
    else if b = 0xF3 then getPrefixes { pre with repMode := .repe } bytes (prefixSize + 1)
    else .ok (pre, prefixSize)

end PrefixesActivated

def u32FromBytes (bytes : List (BitVec 8)) : Outcome VMError (BitVec 32) :=
  if bytes.length < 4 then .err .decodingOverrun else .ok (fromLeBytes 32 (bytes.take 4))

def u16FromBytes (bytes : List (BitVec 8)) : Outcome VMError (BitVec 16) :=
  if bytes.length < 2 then .err .decodingOverrun else .ok (fromLeBytes 16 (bytes.take 2))

def u8FromBytes (bytes : List (BitVec 8)) : Outcome VMError (BitVec 8) :=
  if bytes.length < 1 then .err .decodingOverrun else index bytes 0

structure ModRM where
  rm : Fin 8 := 0
  reg : Fin 8 := 0
  mode : Fin 4 := 0
  deriving DecidableEq

structure SIB where
  base : Fin 8 := 0
  index : Fin 8 := 0
  scale : Fin 4 := 0
  deriving DecidableEq

def SIB.parse (b : BitVec 8) : SIB where
  base := Fin.ofNat 8 (b &&& 0x07).toNat
  index := Fin.ofNat 8 ((b &&& (0x07 <<< 3)) >>> 3).toNat
  scale := Fin.ofNat 4 ((b &&& (0x03 <<< 6)) >>> 6).toNat

namespace ModRM

def parse (b : BitVec 8) : ModRM where
  rm := Fin.ofNat 8 (b &&& 0x07).toNat
  reg := Fin.ofNat 8 ((b &&& (0x07 <<< 3)) >>> 3).toNat
  mode := Fin.ofNat 4 ((b &&& (0x03 <<< 6)) >>> 6).toNat

def decode (m : ModRM) (sib : SIB) (disp : BitVec 32) (size : ValueSize) : OpArgument :=
  if m.mode = 3 then ⟨.registerValue m.rm size, false⟩
  else if m.mode = 0 ∧ m.rm = 5 then ⟨.address disp size, true⟩
  else if m.mode = 0 ∧ m.rm ≠ 4 then ⟨.registerAddress m.rm size, true⟩
  else if (m.mode = 1 ∨ m.mode = 2) ∧ m.rm ≠ 4 then ⟨.modRMAddress disp m.rm size, true⟩
  else
    let base := if sib.base = 5 then if m.mode = 0 then none else some Register.ebp
      else some sib.base
    let index := if sib.index = 4 then none else some sib.index
    ⟨.sibAddress disp base (1 <<< sib.scale.val) index size, true⟩

end ModRM

structure ParsedModRM where
  modrm : ModRM := {}
  sib : Option SIB := none
  disp : Option (BitVec 32) := none
  size : ℕ := 0
  deriving DecidableEq

namespace ParsedModRM

def withDisp (parsed : ParsedModRM) (bytes : List (BitVec 8)) :
    Outcome VMError ParsedModRM :=
  let m := parsed.modrm
  if (m.mode = 0 ∧ m.rm = 5) ∨ m.mode = 2 ∨ (m.mode = 0 ∧ (parsed.sib.getD {}).base = 5) then do
    let disp ← u32FromBytes bytes
    pure { parsed with disp := some disp, size := parsed.size + 4 }
  else if m.mode = 1 then do
    let disp ← u8FromBytes bytes
    pure { parsed with disp := some (disp.signExtend 32), size := parsed.size + 1 }
  else pure parsed

def fromBytes (bytestream : List (BitVec 8)) : Outcome VMError ParsedModRM :=
  if bytestream.length < 5 then .err .decodingOverrun
  else do
    let bytes ← slice bytestream 1
    let b ← index bytes 0
    let modrm := ModRM.parse b
    let bytes ← slice bytes 1
    if modrm.mode ≠ 3 ∧ modrm.rm = 4 then
      let s ← index bytes 0
      let bytes ← slice bytes 1
      withDisp { modrm := modrm, sib := some (SIB.parse s), size := 2 } bytes
    else withDisp { modrm := modrm, size := 1 } bytes

end ParsedModRM

/-- An immediate of the instruction stream and the number of bytes it takes. -/
def decodeImmediate (bytes : List (BitVec 8)) : ValueSize → Outcome VMError (SizedValue × ℕ)
  | .none => pure (.none, 0)
  | .byte => do
    let v ← index bytes 0
    pure (.byte v, 1)
  | .word => do
    let v ← u16FromBytes bytes
    pure (.word v, 2)
  | .dword => do
    let v ← u32FromBytes bytes
    pure (.dword v, 4)
  | .qword => pure (.none, 0)

def decodeArg (source : ArgSource) (argSize : ValueSize) (modrm : ParsedModRM)
    (opcodeByte : BitVec 8) (bytes : List (BitVec 8)) : Outcome VMError (OpArgument × ℕ) :=
  match source with
  | .none => pure ({}, 0)
  | .modRM => pure (modrm.modrm.decode (modrm.sib.getD {}) (modrm.disp.getD 0) argSize, 0)
  | .modRMReg => pure (⟨.registerValue modrm.modrm.reg argSize, false⟩, 0)
  | .immediateAddress => do
    let a ← u32FromBytes bytes
    pure (⟨.address a argSize, true⟩, 4)
  | .immediateValue | .jumpRel => do
    let (v, advance) ← decodeImmediate bytes argSize
    pure (⟨.immediate v, false⟩, advance)
  | .registerSuffix =>
    pure (⟨.registerValue (Fin.ofNat 8 (opcodeByte &&& 0x7).toNat) argSize, false⟩, 0)
  | .literal l => pure (⟨.immediate l, false⟩, 0)
  | .hardcodedRegister r => pure (⟨.registerValue r argSize, true⟩, 0)

def decodeArgsWithModrm (opcode : Opcode) (bytestream : List (BitVec 8)) (sizeOverride : Bool)
    (parsedModrm : Option ParsedModRM) : Outcome VMError ((Fin 3 → OpArgument) × ℕ) :=
  if bytestream.length < 6 then .err .decodingOverrun
  else do
    let opcodeByte ← index bytestream 0
    let bytes ← slice bytestream 1
    let modrm := parsedModrm.getD {}
    let bytes ← slice bytes modrm.size
    let arg (n : Fin 3) :=
      decodeArg (opcode.argSource n) ((opcode.argSize n).toFixed sizeOverride) modrm opcodeByte
    let (a₀, n₀) ← arg 0 bytes
    let bytes ← slice bytes n₀
    let (a₁, n₁) ← arg 1 bytes
    let bytes ← slice bytes n₁
    let (a₂, n₂) ← arg 2 bytes
    let _ ← slice bytes n₂
    pure (![a₀, a₁, a₂], 1 + modrm.size + n₀ + n₁ + n₂)

end Qx86
