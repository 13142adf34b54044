import Qx86.Machine.Accesses

namespace Qx86

open Foundation Bytes MemorySystem

inductive Access where
  | get (w : AccessWidth) (address : BitVec 32)
  | set (w : AccessWidth) (address : BitVec 32) (v : w.Value)

namespace Access

/-- The memory that an access leaves behind: a getter, and a setter that fails, leave it
as it is. -/
def after (m : MemorySystem) : Access → MemorySystem
  | get _ _ => m
  | set w a v =>
    match m.set w a v with
    | .ok m' => m'
    | .error _ => m

def written (m : MemorySystem) : Access → List (Entry (BitVec 8))
  | get _ _ => []
  | set w a v =>
    match m.set w a v with
    | .ok _ => [(a.toNat, leBytes w.bytes v)]
    | .error _ => []

def run (m : MemorySystem) (accesses : List Access) : MemorySystem := accesses.foldl after m

def history : MemorySystem → List Access → List (Entry (BitVec 8))
  | _, [] => []
  | m, access :: accesses => history (access.after m) accesses ++ access.written m

variable {m : MemorySystem}

theorem after_set_of_ok {m' : MemorySystem} {w : AccessWidth} {a : BitVec 32} {v : w.Value}
    (h : m.set w a v = .ok m') :
    (set w a v).after m = m' ∧ (set w a v).written m = [(a.toNat, leBytes w.bytes v)] := by
  simp only [after, written, h, and_self]

theorem after_set_of_error {w : AccessWidth} {a : BitVec 32} {v : w.Value} {e : VMError}
    (h : m.set w a v = .error e) : (set w a v).after m = m ∧ (set w a v).written m = [] := by
  simp only [after, written, h, and_self]

theorem after_sameSections (m : MemorySystem) (access : Access) :
    SameSections m (access.after m) := by
  cases access with
  | get => exact .refl m
  | set w a v =>
    cases hs : m.set w a v with
    | ok m' =>
      rw [(after_set_of_ok hs).1]
      exact set_sameSections hs
    | error e =>
      rw [(after_set_of_error hs).1]
      exact .refl m

theorem after_byteAt (hm : m.Sectioned) (access : Access) :
    (access.after m).byteAt = lastEntry m.byteAt (access.written m) := by
  cases access with
  | get => rfl
  | set w a v =>
    cases hs : m.set w a v with
    | ok m' =>
      obtain ⟨ha, hw⟩ := after_set_of_ok hs
      rw [ha, hw, lastEntry_cons, lastEntry_nil, set_byteAt hm hs]
    | error e =>
      obtain ⟨ha, hw⟩ := after_set_of_error hs
      rw [ha, hw, lastEntry_nil]

theorem run_sameSections (m : MemorySystem) (accesses : List Access) :
    SameSections m (run m accesses) := by
  induction accesses generalizing m with
  | nil => exact .refl m
  | cons access accesses ih => exact (after_sameSections m access).trans (ih _)

theorem run_byteAt (hm : m.Sectioned) (accesses : List Access) :
    (run m accesses).byteAt = lastEntry m.byteAt (history m accesses) := by
  induction accesses generalizing m with
  | nil => rfl
  | cons access accesses ih =>
    have hafter := (after_sameSections m access).sectioned hm
    rw [history, lastEntry_append, ← after_byteAt hm access]
    exact ih hafter

end Access

/-- Memory is a map of bytes, cut into sections. Whatever accesses came before, an access
succeeds exactly inside a section, a setter changes exactly its bytes, a setter that fails
changes nothing, and a getter returns the bytes that were written last. -/
theorem memory_sectioned {m : MemorySystem} (hm : m.Built) (accesses : List Access)
    (w : AccessWidth) (a : BitVec 32) :
    let m' := Access.run m accesses
    ((∃ v, m'.get w a = .ok v) ↔ m.Inside a w.bytes) ∧
      (∀ v, (∃ m'', m'.set w a v = .ok m'') ↔ m.Inside a w.bytes) ∧
      (∀ v m'', m'.set w a v = .ok m'' →
        SameSections m m'' ∧ m''.byteAt = patch m'.byteAt a.toNat (leBytes w.bytes v)) ∧
      (∀ v e, m'.set w a v = .error e → (Access.set w a v).after m' = m') ∧
      ∀ v, m'.get w a = .ok v → (leBytes w.bytes v).map some =
        view (lastEntry m.byteAt (Access.history m accesses)) a.toNat w.bytes := by
  intro m'
  have hsame := Access.run_sameSections m accesses
  have hm' := hsame.sectioned hm.sectioned
  refine ⟨?_, ?_, ?_, ?_, ?_⟩
  · rw [exists_get_iff hm', hsame.inside_iff]
  · intro v
    rw [exists_set_iff hm', hsame.inside_iff]
  · intro v m'' hset
    exact ⟨hsame.trans (set_sameSections hset), set_byteAt hm' hset⟩
  · intro v e hset
    exact (Access.after_set_of_error hset).1
  · intro v hget
    rw [← Access.run_byteAt hm.sectioned]
    exact ((get_eq_ok_iff hm').mp hget).2.symm

def fourBytes : MemorySystem :=
  (default : MemorySystem).insert WRITEABLE_MEMORY ⟨[10, 0, 0, 0], by decide⟩

theorem fourBytes_built : fourBytes.Built :=
  @MemorySystem.Built.add default _ WRITEABLE_MEMORY 4 .empty (by decide) rfl

/-- The middle of a double word of which the second byte was overwritten. -/
theorem memory_sectioned_fourBytes :
    [some 0xFF, some 0x22] =
      view (lastEntry fourBytes.byteAt (Access.history fourBytes
        [.set .u32 WRITEABLE_MEMORY 0x11223344, .set .u8 0x80000001 0xFF])) 0x80000001 2 :=
  (memory_sectioned fourBytes_built
    [.set .u32 WRITEABLE_MEMORY 0x11223344, .set .u8 0x80000001 0xFF] .u16
    0x80000001).2.2.2.2 0x22FF (by decide +kernel)

end Qx86
