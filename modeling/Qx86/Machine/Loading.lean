import Qx86.Machine.Sections
import Qx86.Machine.State

namespace Qx86

open Foundation Bytes MemorySystem

namespace MemorySystem

def sectionExists (m : MemorySystem) (address : BitVec 32) : Bool := (m.map (page address)).isSome

end MemorySystem

namespace VM

/-- The size of the data is cut to 32 bits before its slice is taken; data that is longer than
its slice unwinds. -/
def copyIntoMemory (vm : VM) (address : BitVec 32) (data : List (BitVec 8)) : Outcome VMError VM :=
  let size := BitVec.ofNat 32 data.length
  match vm.memory.getMutSizedMemory address size with
  | .error e => .err e
  | .ok (b, start) =>
    if size.toNat < data.length then .panic
    else .ok
      { vm with memory := vm.memory.insert (page address) (b.copyFromSlice start data) }

def copyFromMemory (vm : VM) (address size : BitVec 32) : Except VMError (List (BitVec 8)) :=
  vm.memory.getSizedMemory address size

end VM

section Slices

variable {m : MemorySystem} {a size : BitVec 32} {b : BufferMemory} {n : ℕ}

theorem getMutSizedMemory_iff : (∃ s, m.getMutSizedMemory a size = .ok s) ↔
    ∃ b, m.map (page a) = some b ∧ offset a + max 1 size.toNat ≤ b.memory.length := by
  constructor
  · rintro ⟨⟨b, start⟩, h⟩
    obtain ⟨hb, -, hn⟩ := getMutSizedMemory_section h
    refine ⟨b, hb, ?_⟩
    have hpos := b.nonempty
    have hlow : ¬b.memory.length - 1 < offset a := by
      intro hlt
      simp [getMutSizedMemory, getMutMemory, hb, hlt, bind, Except.bind] at h
    omega
  · rintro ⟨b, hb, hn⟩
    have hlow : ¬b.memory.length - 1 < offset a := by omega
    have hsize : ¬b.memory.length - offset a < size.toNat := by omega
    refine ⟨(b, offset a), ?_⟩
    simp only [getMutSizedMemory, getMutMemory, hb, if_neg hlow, bind, Except.bind, if_neg hsize]

theorem getSizedMemory_slice (hb : m.map (page a) = some b)
    (hn : offset a + max 1 size.toNat ≤ b.memory.length) :
    m.getSizedMemory a size = .ok ((b.memory.drop (offset a)).take size.toNat) := by
  have hlow : ¬b.memory.length - 1 < offset a := by omega
  have hsize : ¬(b.memory.drop (offset a)).length < size.toNat := by
    rw [List.length_drop]
    omega
  simp only [getSizedMemory, getMemory, hb, if_neg hlow, bind, Except.bind, if_neg hsize]

theorem getSizedMemory_part (hm : m.Sectioned) {data : List (BitVec 8)}
    (h : m.getSizedMemory a size = .ok data) {i n : ℕ} (hn : 0 < n) (hi : i + n ≤ data.length) :
    m.getSizedMemory (a + BitVec.ofNat 32 i) (BitVec.ofNat 32 n) =
      .ok ((data.drop i).take n) := by
  have hlen := getSizedMemory_length h
  have hlt := size.isLt
  have hnat : ∀ k < 2 ^ 32, (BitVec.ofNat 32 k).toNat = k := fun k hk ↦ by
    rw [BitVec.toNat_ofNat, Nat.mod_eq_of_lt hk]
  obtain ⟨hin, hview⟩ := (getSizedMemory_eq_ok_iff hm (by omega)).mp h
  obtain ⟨b, hb, hsize⟩ := (inside_iff hm a (by omega)).mp hin
  have hbound := hm.size_le _ _ hb
  have hadd := page_add_offset a
  have hpage := (page a).isLt
  have hp := page_toNat a
  have ha : (a + BitVec.ofNat 32 i).toNat = a.toNat + i := by
    rw [BitVec.toNat_add, hnat i (by omega), Nat.mod_eq_of_lt (by omega)]
  rw [getSizedMemory_eq_ok_iff hm (by rw [hnat n (by omega)]; exact hn), ha, hnat n (by omega)]
  constructor
  · obtain ⟨base, b', hb', hin⟩ := hin
    refine ⟨base, b', hb', fun j hj ↦ ?_⟩
    have := hin (i + j) (by omega)
    omega
  · rw [view_eq_iff (by simp; omega)] at hview ⊢
    intro j hj
    have := hview (i + j) (by omega)
    rw [List.getElem?_map, List.getElem?_take_of_lt hj, List.getElem?_drop, ← List.getElem?_map,
      this, Nat.add_assoc]

end Slices

end Qx86
