import Qx86.Foundation.Bytes
import Qx86.Machine.Values

namespace Qx86

open Foundation Bytes

def WRITEABLE_MEMORY : BitVec 32 := 0x80000000

/-- One section of memory. The map that holds the sections is private to the
memory system and `add_memory` unwinds on size zero, so none is ever empty. -/
structure BufferMemory where
  memory : List (BitVec 8)
  nonempty : 0 < memory.length

@[ext] structure MemorySystem where
  map : BitVec 32 → Option BufferMemory

namespace BufferMemory

@[ext] theorem ext {b b' : BufferMemory} (h : b.memory = b'.memory) : b = b' := by
  cases b; cases b'; simpa using h

def copyFromSlice (b : BufferMemory) (start : ℕ) (d : List (BitVec 8)) : BufferMemory where
  memory := overwrite b.memory start d
  nonempty := by simpa using b.nonempty

end BufferMemory

namespace MemorySystem

instance : Inhabited MemorySystem := ⟨⟨fun _ ↦ none⟩⟩

def page (address : BitVec 32) : BitVec 32 := address &&& 0xFFFF0000

def offset (address : BitVec 32) : ℕ := (address &&& 0xFFFF).toNat

def insert (m : MemorySystem) (key : BitVec 32) (b : BufferMemory) : MemorySystem where
  map k := if k = key then some b else m.map k

def addMemory (m : MemorySystem) (address size : BitVec 32) : Outcome VMError MemorySystem :=
  if address &&& 0xFFFF ≠ 0 then .err .unalignedMemoryAddition
  else if (m.map (page address)).isSome then .err .conflictingMemoryAddition
  else
    if h : 0 < size.toNat then
      .ok (m.insert (page address) ⟨(List.replicate size.toNat 0).set 0 10, by simpa using h⟩)
    else .panic

/-- The slice from an address to the end of its section, as section and start. -/
def getMutMemory (m : MemorySystem) (address : BitVec 32) :
    Except VMError (BufferMemory × ℕ) :=
  match m.map (page address) with
  | none => .error (.readUnloadedMemory address)
  | some b =>
    if b.memory.length - 1 < offset address then .error (.wroteBadMemory address)
    else .ok (b, offset address)

def getMemory (m : MemorySystem) (address : BitVec 32) : Except VMError (List (BitVec 8)) :=
  match m.map (page address) with
  | none => .error (.readUnloadedMemory address)
  | some b =>
    if b.memory.length - 1 < offset address then .error (.readBadMemory address)
    else .ok (b.memory.drop (offset address))

def getSizedMemory (m : MemorySystem) (address size : BitVec 32) :
    Except VMError (List (BitVec 8)) := do
  let s ← m.getMemory address
  if s.length < size.toNat then .error (.readBadMemory (address + size - 1))
  else .ok (s.take size.toNat)

def getMutSizedMemory (m : MemorySystem) (address size : BitVec 32) :
    Except VMError (BufferMemory × ℕ) := do
  let (b, start) ← m.getMutMemory address
  if b.memory.length - start < size.toNat then .error (.wroteBadMemory (address + size - 1))
  else .ok (b, start)

def getU8 (m : MemorySystem) (address : BitVec 32) : Except VMError (BitVec 8) :=
  fromLeBytes 8 <$> m.getSizedMemory address 1

def getU16 (m : MemorySystem) (address : BitVec 32) : Except VMError (BitVec 16) :=
  fromLeBytes 16 <$> m.getSizedMemory address 2

def getU32 (m : MemorySystem) (address : BitVec 32) : Except VMError (BitVec 32) :=
  fromLeBytes 32 <$> m.getSizedMemory address 4

def getU64 (m : MemorySystem) (address : BitVec 32) : Except VMError (BitVec 64) :=
  fromLeBytes 64 <$> m.getSizedMemory address 8

/-- The four setters differ in the number of bytes they store. -/
def setBytes (m : MemorySystem) (address : BitVec 32) (size : BitVec 32)
    (d : List (BitVec 8)) : Except VMError MemorySystem := do
  let (b, start) ← m.getMutSizedMemory address size
  .ok (m.insert (page address) (b.copyFromSlice start d))

def setU8 (m : MemorySystem) (address : BitVec 32) (v : BitVec 8) :
    Except VMError MemorySystem :=
  m.setBytes address 1 (leBytes 1 v)

def setU16 (m : MemorySystem) (address : BitVec 32) (v : BitVec 16) :
    Except VMError MemorySystem :=
  m.setBytes address 2 (leBytes 2 v)

def setU32 (m : MemorySystem) (address : BitVec 32) (v : BitVec 32) :
    Except VMError MemorySystem :=
  m.setBytes address 4 (leBytes 4 v)

def setU64 (m : MemorySystem) (address : BitVec 32) (v : BitVec 64) :
    Except VMError MemorySystem :=
  m.setBytes address 8 (leBytes 8 v)

def setSized (m : MemorySystem) (address : BitVec 32) : SizedValue → Except VMError MemorySystem
  | .none => .ok m
  | .byte v => m.setU8 address v
  | .word v => m.setU16 address v
  | .dword v => m.setU32 address v
  | .qword v => m.setU64 address v

/-- What the virtual machine may do to memory: the sections and their sizes
stay, and so does every byte of a section below the writeable half. -/
structure Guarded (m m' : MemorySystem) : Prop where
  sizes : ∀ base, (m'.map base).map (·.memory.length) = (m.map base).map (·.memory.length)
  readOnly : ∀ base, base < WRITEABLE_MEMORY → m'.map base = m.map base

theorem Guarded.refl (m : MemorySystem) : Guarded m m := ⟨fun _ ↦ rfl, fun _ _ ↦ rfl⟩

theorem Guarded.trans {m m' m'' : MemorySystem} (h : Guarded m m') (h' : Guarded m' m'') :
    Guarded m m'' where
  sizes base := (h'.sizes base).trans (h.sizes base)
  readOnly base hb := (h'.readOnly base hb).trans (h.readOnly base hb)

theorem getMutSizedMemory_section {m : MemorySystem} {address size : BitVec 32}
    {b : BufferMemory} {start : ℕ} (h : m.getMutSizedMemory address size = .ok (b, start)) :
    m.map (page address) = some b ∧ start = offset address ∧
      offset address + size.toNat ≤ b.memory.length := by
  cases hm : m.map (page address) with
  | none => simp [getMutSizedMemory, getMutMemory, hm, bind, Except.bind] at h
  | some b' =>
    by_cases hl : b'.memory.length - 1 < offset address
    · simp [getMutSizedMemory, getMutMemory, hm, hl, bind, Except.bind] at h
    · by_cases hs : b'.memory.length - offset address < size.toNat
      · simp [getMutSizedMemory, getMutMemory, hm, hl, hs, bind, Except.bind] at h
      · simp only [getMutSizedMemory, getMutMemory, hm, hl, hs, bind, Except.bind, if_false,
          Except.ok.injEq, Prod.mk.injEq] at h
        obtain ⟨rfl, rfl⟩ := h
        have hpos := b'.nonempty
        exact ⟨rfl, rfl, by omega⟩

theorem getSizedMemory_length {m : MemorySystem} {address size : BitVec 32}
    {bytes : List (BitVec 8)} (h : m.getSizedMemory address size = .ok bytes) :
    bytes.length = size.toNat := by
  unfold getSizedMemory at h
  cases hs : m.getMemory address with
  | error e => simp [hs, bind, Except.bind] at h
  | ok s =>
    simp only [hs, bind, Except.bind] at h
    split at h
    · cases h
    · next hl =>
      cases h
      rw [List.length_take]
      omega

theorem getSizedMemory_section {m : MemorySystem} {address size : BitVec 32}
    {bytes : List (BitVec 8)} (h : m.getSizedMemory address size = .ok bytes) :
    ∃ b, m.map (page address) = some b ∧ offset address + size.toNat ≤ b.memory.length := by
  unfold getSizedMemory getMemory at h
  cases hm : m.map (page address) with
  | none => simp [hm, bind, Except.bind] at h
  | some b =>
    refine ⟨b, rfl, ?_⟩
    have hpos := b.nonempty
    by_cases hl : b.memory.length - 1 < offset address
    · simp [hm, hl, bind, Except.bind] at h
    · simp only [hm, if_neg hl, bind, Except.bind, List.length_drop] at h
      split at h
      · cases h
      · omega

theorem setBytes_guarded {m m' : MemorySystem} {address size : BitVec 32}
    {d : List (BitVec 8)} (ha : ¬ address < WRITEABLE_MEMORY)
    (h : m.setBytes address size d = .ok m') : Guarded m m' := by
  unfold setBytes at h
  cases hs : m.getMutSizedMemory address size with
  | error e => simp [hs, bind, Except.bind] at h
  | ok p =>
    obtain ⟨b, start⟩ := p
    obtain ⟨hm, -, -⟩ := getMutSizedMemory_section hs
    simp only [hs, bind, Except.bind, Except.ok.injEq] at h
    subst h
    constructor
    · intro base
      by_cases hb : base = page address
      · simp [insert, hb, hm, BufferMemory.copyFromSlice]
      · simp [insert, hb]
    · intro base hb
      have hne : base ≠ page address := by
        rintro rfl
        rw [WRITEABLE_MEMORY, ← Words.topBit_eq_zero, page, Words.topBit_page,
          Words.topBit_eq_zero] at hb
        exact ha hb
      simp [insert, hne]

theorem setSized_guarded {m m' : MemorySystem} {address : BitVec 32} {v : SizedValue}
    (ha : ¬ address < WRITEABLE_MEMORY) (h : m.setSized address v = .ok m') : Guarded m m' := by
  cases v with
  | none => cases h; exact .refl _
  | byte | word | dword | qword => exact setBytes_guarded ha h

end MemorySystem

end Qx86
