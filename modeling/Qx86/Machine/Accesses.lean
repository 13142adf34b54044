import Qx86.Machine.Sections

namespace Qx86

open Foundation Bytes MemorySystem

inductive AccessWidth where
  | u8 | u16 | u32 | u64

namespace AccessWidth

def bytes : AccessWidth → ℕ
  | u8 => 1
  | u16 => 2
  | u32 => 4
  | u64 => 8

abbrev Value (w : AccessWidth) : Type := BitVec (8 * w.bytes)

def size (w : AccessWidth) : BitVec 32 := BitVec.ofNat 32 w.bytes

theorem size_toNat (w : AccessWidth) : w.size.toNat = w.bytes := by
  cases w <;> rfl

theorem bytes_pos (w : AccessWidth) : 0 < w.bytes := by
  cases w <;> decide

end AccessWidth

namespace MemorySystem

def get (m : MemorySystem) : (w : AccessWidth) → BitVec 32 → Except VMError w.Value
  | .u8, a => m.getU8 a
  | .u16, a => m.getU16 a
  | .u32, a => m.getU32 a
  | .u64, a => m.getU64 a

def set (m : MemorySystem) : (w : AccessWidth) → BitVec 32 → w.Value → Except VMError MemorySystem
  | .u8, a, v => m.setU8 a v
  | .u16, a, v => m.setU16 a v
  | .u32, a, v => m.setU32 a v
  | .u64, a, v => m.setU64 a v

theorem get_eq (m : MemorySystem) (w : AccessWidth) (a : BitVec 32) :
    m.get w a = fromLeBytes (8 * w.bytes) <$> m.getSizedMemory a w.size := by
  cases w <;> rfl

theorem set_eq (m : MemorySystem) (w : AccessWidth) (a : BitVec 32) (v : w.Value) :
    m.set w a v = m.setBytes a w.size (leBytes w.bytes v) := by
  cases w <;> rfl

variable {m m' : MemorySystem} {w : AccessWidth} {a : BitVec 32} {v : w.Value}

theorem get_eq_ok_iff (hm : m.Sectioned) : m.get w a = .ok v ↔
    m.Inside a w.bytes ∧ view m.byteAt a.toNat w.bytes = (leBytes w.bytes v).map some := by
  have hs : 0 < w.size.toNat := by
    rw [w.size_toNat]
    exact w.bytes_pos
  rw [get_eq, map_eq_ok]
  constructor
  · rintro ⟨bytes, hb, rfl⟩
    obtain ⟨hin, hv⟩ := (getSizedMemory_eq_ok_iff hm hs).mp hb
    have hlen := getSizedMemory_length hb
    rw [w.size_toNat] at hin hv hlen
    rw [leBytes_fromLeBytes hlen rfl]
    exact ⟨hin, hv⟩
  · rintro ⟨hin, hv⟩
    rw [← w.size_toNat] at hin
    refine ⟨leBytes w.bytes v, (getSizedMemory_eq_ok_iff hm hs).mpr ⟨hin, ?_⟩,
      fromLeBytes_leBytes _ _ rfl⟩
    rw [w.size_toNat]
    exact hv

theorem exists_get_iff (hm : m.Sectioned) : (∃ v, m.get w a = .ok v) ↔ m.Inside a w.bytes := by
  constructor
  · rintro ⟨v, h⟩
    exact ((get_eq_ok_iff hm).mp h).1
  · intro h
    obtain ⟨b, hb, hn⟩ := (inside_iff hm a w.bytes_pos).mp h
    rw [← w.size_toNat] at hn
    rw [get_eq, getSizedMemory_ok hb (by rw [w.size_toNat]; exact w.bytes_pos) hn]
    exact ⟨_, rfl⟩

theorem exists_set_iff (hm : m.Sectioned) : (∃ m', m.set w a v = .ok m') ↔
    m.Inside a w.bytes := by
  have hs : 0 < w.size.toNat := by
    rw [w.size_toNat]
    exact w.bytes_pos
  rw [inside_iff hm a w.bytes_pos, set_eq]
  constructor
  · rintro ⟨m', h⟩
    obtain ⟨b, hb, hn, -⟩ := setBytes_eq_ok h
    rw [w.size_toNat] at hn
    exact ⟨b, hb, hn⟩
  · rintro ⟨b, hb, hn⟩
    rw [← w.size_toNat] at hn
    exact ⟨_, setBytes_ok hb hs hn _⟩

theorem set_byteAt (hm : m.Sectioned) (h : m.set w a v = .ok m') :
    m'.byteAt = patch m.byteAt a.toNat (leBytes w.bytes v) := by
  rw [set_eq] at h
  refine setBytes_byteAt hm ?_ h
  rw [leBytes_length, w.size_toNat]

theorem set_sameSections (h : m.set w a v = .ok m') : SameSections m m' := by
  rw [set_eq] at h
  exact setBytes_sameSections h

end MemorySystem

end Qx86
