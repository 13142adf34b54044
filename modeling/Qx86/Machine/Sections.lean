import Mathlib.Data.Nat.Bitwise
import Qx86.Foundation.Patch
import Qx86.Machine.Memory

namespace Qx86

open Foundation Bytes

namespace MemorySystem

section Addresses

theorem offset_eq (a : BitVec 32) : offset a = a.toNat % 0x10000 := by
  rw [offset, BitVec.toNat_and]
  exact Nat.and_two_pow_sub_one_eq_mod a.toNat 16

theorem page_toNat (a : BitVec 32) : (page a).toNat = a.toNat / 0x10000 * 0x10000 := by
  have h : (0xFFFF0000 : BitVec 32).toNat = (2 ^ 16 - 1) <<< 16 := rfl
  rw [page, BitVec.toNat_and, h]
  apply Nat.eq_of_testBit_eq
  intro i
  have hdiv : a.toNat / 0x10000 * 0x10000 = (a.toNat >>> 16) <<< 16 := by
    rw [Nat.shiftLeft_eq, Nat.shiftRight_eq_div_pow]
  rw [hdiv, Nat.testBit_and, Nat.testBit_shiftLeft, Nat.testBit_shiftLeft,
    Nat.testBit_shiftRight, Nat.testBit_two_pow_sub_one]
  by_cases hi : 16 ≤ i
  · by_cases hlt : i - 16 < 16
    · simp [hi, hlt]
    · have hz : a.toNat.testBit i = false :=
        Nat.testBit_lt_two_pow (Nat.lt_of_lt_of_le a.isLt (Nat.pow_le_pow_right (by decide)
          (by omega)))
      simp [hi, hlt, hz]
  · simp [hi]

theorem page_add_offset (a : BitVec 32) : (page a).toNat + offset a = a.toNat := by
  rw [page_toNat, offset_eq]
  omega

theorem page_eq_iff (a base : BitVec 32) (h : offset base = 0) :
    page a = base ↔ base.toNat ≤ a.toNat ∧ a.toNat < base.toNat + 0x10000 := by
  rw [offset_eq] at h
  constructor
  · rintro rfl
    have hp := page_toNat a
    omega
  · intro hr
    apply BitVec.eq_of_toNat_eq
    rw [page_toNat]
    omega

end Addresses

/-- Sections start at multiples of 0x10000 and end before the next one. -/
structure Sectioned (m : MemorySystem) : Prop where
  aligned : ∀ base b, m.map base = some b → offset base = 0
  size_le : ∀ base b, m.map base = some b → b.memory.length ≤ 0x10000

/-- The memories that a host builds: sections are added, and filled by the slice that
adding them returns. -/
inductive Built : MemorySystem → Prop
  | empty : Built default
  | add {m m' : MemorySystem} {address size : BitVec 32} (h : Built m)
      (hs : size.toNat ≤ 0x10000) (ha : m.addMemory address size = .ok m') : Built m'
  | fill {m : MemorySystem} {base : BitVec 32} {b b' : BufferMemory} (h : Built m)
      (hb : m.map base = some b) (hl : b'.memory.length = b.memory.length) :
      Built (m.insert base b')

theorem Sectioned.insert {m : MemorySystem} (h : m.Sectioned) {base : BitVec 32}
    {b : BufferMemory} (ha : offset base = 0) (hs : b.memory.length ≤ 0x10000) :
    (m.insert base b).Sectioned := by
  constructor
  · intro base' b' hb
    rw [MemorySystem.insert] at hb
    by_cases hk : base' = base
    · rw [hk]
      exact ha
    · exact h.aligned base' b' (by simpa [hk] using hb)
  · intro base' b' hb
    rw [MemorySystem.insert] at hb
    by_cases hk : base' = base
    · have hbb : b = b' := by simpa [hk] using hb
      rw [← hbb]
      exact hs
    · exact h.size_le base' b' (by simpa [hk] using hb)

theorem Built.sectioned {m : MemorySystem} (h : m.Built) : m.Sectioned := by
  induction h with
  | empty => exact ⟨nofun, nofun⟩
  | @add m m' address size h hs ha ih =>
    unfold addMemory at ha
    by_cases h₀ : address &&& 0xFFFF ≠ 0
    · rw [if_pos h₀] at ha
      cases ha
    · rw [if_neg h₀] at ha
      split at ha
      · cases ha
      · split at ha
        · cases ha
          refine ih.insert ?_ (by simpa using hs)
          have hp := page_toNat address
          rw [offset_eq]
          omega
        · cases ha
  | fill h hb hl ih =>
    refine ih.insert (ih.aligned _ _ hb) ?_
    rw [hl]
    exact ih.size_le _ _ hb

def byteAt (m : MemorySystem) : Store (BitVec 8) := fun x ↦
  if x < 2 ^ 32 then
    (m.map (page (BitVec.ofNat 32 x))).bind fun b ↦ b.memory[offset (BitVec.ofNat 32 x)]?
  else none

/-- Some bytes in a row lie in one section. -/
def Inside (m : MemorySystem) (a : BitVec 32) (n : ℕ) : Prop :=
  ∃ base b, m.map base = some b ∧
    ∀ i, i < n → base.toNat ≤ a.toNat + i ∧ a.toNat + i < base.toNat + b.memory.length

section Access

variable {m m' : MemorySystem} {a size : BitVec 32} {b : BufferMemory}

theorem inside_iff (hm : m.Sectioned) (a : BitVec 32) {n : ℕ} (hn : 0 < n) :
    m.Inside a n ↔ ∃ b, m.map (page a) = some b ∧ offset a + n ≤ b.memory.length := by
  have hadd := page_add_offset a
  constructor
  · rintro ⟨base, b, hb, h⟩
    have hsize := hm.size_le base b hb
    have hfirst := h 0 hn
    have hlast := h (n - 1) (by omega)
    have hpage : page a = base :=
      (page_eq_iff a base (hm.aligned base b hb)).mpr ⟨by omega, by omega⟩
    rw [hpage] at hadd ⊢
    exact ⟨b, hb, by omega⟩
  · rintro ⟨b, hb, h⟩
    exact ⟨page a, b, hb, fun i hi ↦ by omega⟩

theorem byteAt_section (hm : m.Sectioned) (hb : m.map (page a) = some b) {i : ℕ}
    (hi : offset a + i < b.memory.length) :
    m.byteAt (a.toNat + i) = b.memory[offset a + i]? := by
  have hsize := hm.size_le _ _ hb
  have hadd := page_add_offset a
  have hp := page_toNat a
  have hlt : a.toNat + i < 2 ^ 32 := by
    have := (page a).isLt
    omega
  have hnat : (BitVec.ofNat 32 (a.toNat + i)).toNat = a.toNat + i := by
    rw [BitVec.toNat_ofNat, Nat.mod_eq_of_lt hlt]
  have hpage : page (BitVec.ofNat 32 (a.toNat + i)) = page a := by
    rw [page_eq_iff _ _ (hm.aligned _ _ hb), hnat]
    omega
  have hoffset : offset (BitVec.ofNat 32 (a.toNat + i)) = offset a + i := by
    have := page_add_offset (BitVec.ofNat 32 (a.toNat + i))
    rw [hpage, hnat] at this
    omega
  rw [byteAt, if_pos hlt, hpage, hb, hoffset]
  rfl

theorem view_section (hm : m.Sectioned) (hb : m.map (page a) = some b) {n : ℕ}
    (hn : offset a + n ≤ b.memory.length) :
    view m.byteAt a.toNat n = ((b.memory.drop (offset a)).take n).map some := by
  have hlen : (((b.memory.drop (offset a)).take n).map some).length = n := by
    rw [List.length_map, List.length_take, List.length_drop]
    omega
  rw [view_eq_iff hlen]
  intro i hi
  have hin : offset a + i < b.memory.length := by omega
  rw [byteAt_section hm hb hin, List.getElem?_map, List.getElem?_take_of_lt hi,
    List.getElem?_drop, List.getElem?_eq_getElem hin, Option.map_some]

theorem getSizedMemory_ok (hb : m.map (page a) = some b) (hs : 0 < size.toNat)
    (h : offset a + size.toNat ≤ b.memory.length) :
    m.getSizedMemory a size = .ok ((b.memory.drop (offset a)).take size.toNat) := by
  have h₁ : ¬b.memory.length - 1 < offset a := by omega
  have h₂ : ¬(b.memory.drop (offset a)).length < size.toNat := by
    rw [List.length_drop]
    omega
  simp only [getSizedMemory, getMemory, hb, if_neg h₁, bind, Except.bind, if_neg h₂]

/-- An access succeeds exactly inside a section, and reads what is there. -/
theorem getSizedMemory_eq_ok_iff (hm : m.Sectioned) (hs : 0 < size.toNat)
    {bytes : List (BitVec 8)} : m.getSizedMemory a size = .ok bytes ↔
      m.Inside a size.toNat ∧ view m.byteAt a.toNat size.toNat = bytes.map some := by
  rw [inside_iff hm a hs]
  constructor
  · intro h
    obtain ⟨b, hb, hn⟩ := getSizedMemory_section h
    rw [getSizedMemory_ok hb hs hn] at h
    cases h
    exact ⟨⟨b, hb, hn⟩, view_section hm hb hn⟩
  · rintro ⟨⟨b, hb, hn⟩, h⟩
    rw [view_section hm hb hn] at h
    rw [getSizedMemory_ok hb hs hn,
      List.map_injective_iff.mpr (Option.some_injective _) h]

theorem setBytes_ok (hb : m.map (page a) = some b) (hs : 0 < size.toNat)
    (h : offset a + size.toNat ≤ b.memory.length) (d : List (BitVec 8)) :
    m.setBytes a size d = .ok (m.insert (page a) (b.copyFromSlice (offset a) d)) := by
  have h₁ : ¬b.memory.length - 1 < offset a := by omega
  have h₂ : ¬b.memory.length - offset a < size.toNat := by omega
  simp only [setBytes, getMutSizedMemory, getMutMemory, hb, if_neg h₁, bind, Except.bind,
    if_neg h₂]

theorem setBytes_eq_ok {d : List (BitVec 8)} (h : m.setBytes a size d = .ok m') :
    ∃ b, m.map (page a) = some b ∧ offset a + size.toNat ≤ b.memory.length ∧
      m' = m.insert (page a) (b.copyFromSlice (offset a) d) := by
  obtain ⟨⟨b, start⟩, hs, h⟩ := except_bind_eq_ok.mp h
  obtain ⟨hb, rfl, hn⟩ := getMutSizedMemory_section hs
  exact ⟨b, hb, hn, (Except.ok.inj h).symm⟩

theorem section_copied {d : List (BitVec 8)} (m : MemorySystem)
    (hn : offset a + size.toNat ≤ b.memory.length) :
    (m.insert (page a) (b.copyFromSlice (offset a) d)).map (page a) =
        some (b.copyFromSlice (offset a) d) ∧
      offset a + size.toNat ≤ (b.copyFromSlice (offset a) d).memory.length := by
  refine ⟨if_pos rfl, ?_⟩
  rw [BufferMemory.copyFromSlice, overwrite_length]
  exact hn

theorem byteAt_insert (hm : m.Sectioned) (hb : m.map (page a) = some b) {d : List (BitVec 8)}
    (h : offset a + d.length ≤ b.memory.length) :
    (m.insert (page a) (b.copyFromSlice (offset a) d)).byteAt = patch m.byteAt a.toNat d := by
  have hadd := page_add_offset a
  have hsize := hm.size_le _ _ hb
  funext x
  by_cases hx : x < 2 ^ 32
  · obtain ⟨y, rfl⟩ : ∃ y : BitVec 32, x = y.toNat :=
      ⟨BitVec.ofNat 32 x, by rw [BitVec.toNat_ofNat, Nat.mod_eq_of_lt hx]⟩
    have hy := page_add_offset y
    rw [byteAt, if_pos hx, BitVec.ofNat_toNat, BitVec.setWidth_eq, MemorySystem.insert]
    by_cases hpage : page y = page a
    · rw [hpage] at hy
      simp only [hpage, if_true, Option.bind_some, BufferMemory.copyFromSlice]
      rw [overwrite_getElem? _ _ _ h]
      by_cases hin : offset a ≤ offset y ∧ offset y < offset a + d.length
      · rw [if_pos hin, patch_inside (by omega) (by omega)]
        congr 1
        omega
      · rw [if_neg hin, patch_outside (by omega), byteAt, if_pos hx, BitVec.ofNat_toNat,
          BitVec.setWidth_eq, hpage, hb, Option.bind_some]
    · have hout : y.toNat < a.toNat ∨ a.toNat + d.length ≤ y.toNat := by
        rw [page_eq_iff _ _ (hm.aligned _ _ hb)] at hpage
        omega
      simp only [if_neg hpage]
      rw [patch_outside hout, byteAt, if_pos hx, BitVec.ofNat_toNat, BitVec.setWidth_eq]
  · have hout : x < a.toNat ∨ a.toNat + d.length ≤ x := by
      have hp := page_toNat a
      have hlt := (page a).isLt
      omega
    rw [patch_outside hout, byteAt, byteAt, if_neg hx, if_neg hx]

/-- A store puts its bytes where they belong and changes nothing else. -/
theorem setBytes_byteAt (hm : m.Sectioned) {d : List (BitVec 8)} (hd : d.length = size.toNat)
    (h : m.setBytes a size d = .ok m') :
    m'.byteAt = patch m.byteAt a.toNat d := by
  obtain ⟨b, hb, hn, rfl⟩ := setBytes_eq_ok h
  exact byteAt_insert hm hb (by omega)

end Access

section Layout

def SameSections (m m' : MemorySystem) : Prop :=
  ∀ base, (m'.map base).map (·.memory.length) = (m.map base).map (·.memory.length)

variable {m m' m'' : MemorySystem}

theorem SameSections.refl (m : MemorySystem) : SameSections m m := fun _ ↦ rfl

theorem SameSections.trans (h : SameSections m m') (h' : SameSections m' m'') :
    SameSections m m'' := fun base ↦ (h' base).trans (h base)

theorem SameSections.symm (h : SameSections m m') : SameSections m' m := fun base ↦
  (h base).symm

theorem SameSections.map_some (h : SameSections m m') {base : BitVec 32} {b' : BufferMemory}
    (hb : m'.map base = some b') :
    ∃ b, m.map base = some b ∧ b.memory.length = b'.memory.length := by
  have hs := h base
  rw [hb, Option.map_some] at hs
  obtain ⟨b, hb, hl⟩ := Option.map_eq_some_iff.mp hs.symm
  exact ⟨b, hb, hl⟩

theorem SameSections.sectioned (h : SameSections m m') (hm : m.Sectioned) : m'.Sectioned := by
  constructor
  · intro base b' hb'
    obtain ⟨b, hb, -⟩ := h.map_some hb'
    exact hm.aligned base b hb
  · intro base b' hb'
    obtain ⟨b, hb, hl⟩ := h.map_some hb'
    rw [← hl]
    exact hm.size_le base b hb

theorem SameSections.inside (h : SameSections m m') {a : BitVec 32} {n : ℕ}
    (hi : m'.Inside a n) : m.Inside a n := by
  obtain ⟨base, b', hb', hin⟩ := hi
  obtain ⟨b, hb, hl⟩ := h.map_some hb'
  exact ⟨base, b, hb, by rwa [hl]⟩

theorem SameSections.inside_iff (h : SameSections m m') (a : BitVec 32) (n : ℕ) :
    m'.Inside a n ↔ m.Inside a n := ⟨h.inside, h.symm.inside⟩

theorem setBytes_sameSections {a size : BitVec 32} {d : List (BitVec 8)}
    (h : m.setBytes a size d = .ok m') : SameSections m m' := by
  obtain ⟨⟨b, start⟩, hs, h⟩ := except_bind_eq_ok.mp h
  obtain ⟨hb, -, -⟩ := getMutSizedMemory_section hs
  cases h
  intro base
  by_cases hbase : base = page a
  · simp [MemorySystem.insert, hbase, hb, BufferMemory.copyFromSlice]
  · simp [MemorySystem.insert, hbase]

end Layout

end MemorySystem

end Qx86
