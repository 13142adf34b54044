import Qx86.Machine.Places

namespace Qx86.MemorySystem

open Foundation Outcome Bytes

variable {m m' : MemorySystem} {address size a a' : BitVec 32} {v : BitVec 8}

/-- The map that calls of `add_memory` lead to, when none of them unwinds; the ones that return
an error leave it as it is. -/
def addCalls (m : MemorySystem) : List (BitVec 32 × BitVec 32) → Option MemorySystem
  | [] => some m
  | (address, size) :: calls =>
    match m.addMemory address size with
    | .ok m' => m'.addCalls calls
    | .err _ => m.addCalls calls
    | .panic => none

/-- The documented rule for one call: it adds a section of zeros that is readable exactly in the
given range, or it returns an error. -/
structure AddsSection (m : MemorySystem) (address size : BitVec 32) : Prop where
  succeeds : (∃ m', m.addMemory address size = .ok m') ↔
    offset address = 0 ∧ 1 ≤ size.toNat ∧ size.toNat ≤ 0x10000 ∧ m.map address = none
  added : ∀ m', m.addMemory address size = .ok m' →
    (∀ base, base ≠ address → m'.map base = m.map base) ∧
      ∀ a v, page a = address → (m'.getU8 a = .ok v ↔
        address.toNat ≤ a.toNat ∧ a.toNat < address.toNat + size.toNat ∧ v = 0)
  refused : (¬∃ m', m.addMemory address size = .ok m') →
    ∃ x, m.addMemory address size = .err x

section Bytes

theorem getU8_eq_ok_iff :
    m.getU8 a = .ok v ↔ ∃ b, m.map (page a) = some b ∧ b.memory[offset a]? = some v := by
  have hread : ∀ (b : BufferMemory) x, m.map (page a) = some b → b.memory[offset a]? = some x →
      m.getU8 a = .ok x := by
    intro b x hb hx
    obtain ⟨hlt, hx⟩ := List.getElem?_eq_some_iff.mp hx
    have hone : (1 : BitVec 32).toNat = 1 := rfl
    have hsized : m.getSizedMemory a 1 =
        .ok ((b.memory.drop (offset a)).take (1 : BitVec 32).toNat) :=
      getSizedMemory_ok hb (by decide) (by omega)
    have htake : (b.memory.drop (offset a)).take 1 = [x] := by
      rw [List.drop_eq_getElem_cons hlt, hx]
      rfl
    rw [hone, htake] at hsized
    rw [getU8, hsized]
    refine congrArg Except.ok ?_
    simp [fromLeBytes]
  constructor
  · intro h
    obtain ⟨d, hd, -⟩ := map_eq_ok.mp h
    obtain ⟨b, hb, hn⟩ := getSizedMemory_section hd
    have hlt : offset a < b.memory.length := hn
    refine ⟨b, hb, ?_⟩
    have hx := hread b _ hb (List.getElem?_eq_getElem hlt)
    rw [h] at hx
    cases hx
    exact List.getElem?_eq_getElem hlt
  · rintro ⟨b, hb, hv⟩
    exact hread b v hb hv

theorem getU8_setU8_of_ne (h : a ≠ a') (hs : m.setU8 a v = .ok m') :
    m'.getU8 a' = m.getU8 a' := by
  have hne : a.toNat ≠ a'.toNat := fun heq ↦ h (BitVec.eq_of_toNat_eq heq)
  have hone : (1 : BitVec 32).toNat = 1 := rfl
  rw [getU8, getU8, getSizedMemory_setBytes_apart a' 1 (leBytes_length ..) (by omega) hs]

end Bytes

section Call

theorem page_of_aligned (h : offset address = 0) : page address = address := by
  have hadd := page_add_offset address
  exact BitVec.eq_of_toNat_eq (by omega)

theorem offset_eq_zero_iff : address &&& 0xFFFF = 0 ↔ offset address = 0 := by
  rw [offset, Words.eq_zero_iff_toNat]

theorem addMemory_refused (size : BitVec 32) (h : offset address ≠ 0 ∨ m.map address ≠ none) :
    ∃ x, m.addMemory address size = .err x := by
  by_cases halign : address &&& 0xFFFF = 0
  · have hoffset := offset_eq_zero_iff.mp halign
    have hsome : (m.map (page address)).isSome = true := by
      rw [page_of_aligned hoffset]
      exact Option.isSome_iff_ne_none.mpr (h.resolve_left (not_not.mpr hoffset))
    rw [addMemory, if_neg (not_not.mpr halign), if_pos hsome]
    exact ⟨_, rfl⟩
  · rw [addMemory, if_pos halign]
    exact ⟨_, rfl⟩

/-- A call that is not refused adds a section whose first byte is 10, or unwinds on size 0. -/
theorem addMemory_fresh (size : BitVec 32) (halign : offset address = 0)
    (hfresh : m.map address = none) :
    m.addMemory address size =
      if h : 0 < size.toNat then
        .ok (m.insert address ⟨(List.replicate size.toNat 0).set 0 10, by simpa using h⟩)
      else .panic := by
  have hpage := page_of_aligned halign
  rw [addMemory, if_neg (not_not.mpr (offset_eq_zero_iff.mpr halign)), hpage, hfresh]
  rfl

theorem addMemory_eq_ok (h : m.addMemory address size = .ok m') :
    offset address = 0 ∧ m.map address = none ∧ ∃ hs : 0 < size.toNat,
      m' = m.insert address ⟨(List.replicate size.toNat 0).set 0 10, by simpa using hs⟩ := by
  have halign : offset address = 0 := by
    by_contra hne
    obtain ⟨x, hx⟩ := addMemory_refused (m := m) size (.inl hne)
    rw [hx] at h
    cases h
  have hfresh : m.map address = none := by
    by_contra hne
    obtain ⟨x, hx⟩ := addMemory_refused (m := m) size (.inr hne)
    rw [hx] at h
    cases h
  rw [addMemory_fresh size halign hfresh] at h
  by_cases hs : 0 < size.toNat
  · rw [dif_pos hs] at h
    cases h
    exact ⟨halign, hfresh, hs, rfl⟩
  · rw [dif_neg hs] at h
    cases h

theorem getU8_addMemory (h : m.addMemory address size = .ok m') (hp : page a = address) :
    m'.getU8 a = .ok v ↔ address.toNat ≤ a.toNat ∧ a.toNat < address.toNat + size.toNat ∧
      v = if a = address then 10 else 0 := by
  obtain ⟨halign, -, hs, rfl⟩ := addMemory_eq_ok h
  have hadd := page_add_offset a
  rw [hp] at hadd
  have hbase : a = address ↔ offset a = 0 := by
    constructor
    · rintro rfl
      exact halign
    · intro hzero
      exact BitVec.eq_of_toNat_eq (by omega)
  have hmap : (m.insert address ⟨(List.replicate size.toNat 0).set 0 10, by simpa using hs⟩).map
      (page a) = some ⟨(List.replicate size.toNat 0).set 0 10, by simpa using hs⟩ := if_pos hp
  rw [getU8_eq_ok_iff, hmap]
  simp only [Option.some.injEq, exists_eq_left', List.getElem?_set, List.length_replicate, hs,
    if_true, List.getElem?_replicate, hbase]
  by_cases hzero : offset a = 0
  · simp only [hzero, if_true, Option.some.injEq]
    constructor
    · rintro rfl
      exact ⟨by omega, by omega, rfl⟩
    · rintro ⟨-, -, rfl⟩
      rfl
  · rw [if_neg (Ne.symm hzero), if_neg hzero]
    by_cases hlt : offset a < size.toNat
    · rw [if_pos hlt, Option.some.injEq]
      constructor
      · rintro rfl
        exact ⟨by omega, by omega, rfl⟩
      · rintro ⟨-, -, rfl⟩
        rfl
    · rw [if_neg hlt]
      constructor
      · rintro ⟨⟩
      · rintro ⟨-, hin, -⟩
        omega

theorem addsSection_iff :
    m.AddsSection address size ↔ offset address ≠ 0 ∨ m.map address ≠ none := by
  constructor
  · intro hrule
    by_contra h
    push Not at h
    obtain ⟨halign, hfresh⟩ := h
    have hcall := addMemory_fresh size halign hfresh
    by_cases hs : 0 < size.toNat
    · rw [dif_pos hs] at hcall
      have hpage := page_of_aligned halign
      have hzero := ((hrule.added _ hcall).2 address 10 hpage).mp
        ((getU8_addMemory hcall hpage).mpr ⟨le_rfl, by omega, (if_pos rfl).symm⟩)
      exact absurd hzero.2.2 (by decide)
    · rw [dif_neg hs] at hcall
      obtain ⟨x, hx⟩ := hrule.refused fun ⟨m', hm'⟩ ↦ by
        rw [hcall] at hm'
        cases hm'
      rw [hcall] at hx
      cases hx
  · intro h
    obtain ⟨x, hx⟩ := addMemory_refused size h
    have hnone : ∀ m', m.addMemory address size ≠ .ok m' := by
      intro m' hm'
      rw [hx] at hm'
      cases hm'
    refine ⟨?_, fun m' hm' ↦ absurd hm' (hnone m'), fun _ ↦ ⟨x, hx⟩⟩
    constructor
    · rintro ⟨m', hm'⟩
      exact absurd hm' (hnone m')
    · rintro ⟨halign, -, -, hfresh⟩
      exact h.elim (absurd halign) (absurd hfresh)

end Call

section Run

def Requested (m : MemorySystem) (calls : List (BitVec 32 × BitVec 32)) : Prop :=
  ∀ a v, m.getU8 a = .ok v → ∃ size, (page a, size) ∈ calls ∧ offset a < size.toNat ∧
    v = if a = page a then 10 else 0

theorem requested_addMemory {calls : List (BitVec 32 × BitVec 32)} (h : m.Requested calls)
    (hadd : m.addMemory address size = .ok m') : m'.Requested ((address, size) :: calls) := by
  intro a v hv
  by_cases hp : page a = address
  · obtain ⟨-, hlt, hvalue⟩ := (getU8_addMemory hadd hp).mp hv
    have hsum := page_add_offset a
    subst hp
    exact ⟨size, List.mem_cons_self, by omega, hvalue⟩
  · obtain ⟨-, -, hs, rfl⟩ := addMemory_eq_ok hadd
    obtain ⟨b, hb, hbyte⟩ := getU8_eq_ok_iff.mp hv
    have hkeep : (m.insert address ⟨(List.replicate size.toNat 0).set 0 10, by simpa using hs⟩).map
        (page a) = m.map (page a) := if_neg hp
    rw [hkeep] at hb
    obtain ⟨size', hmem, hrest⟩ := h a v (getU8_eq_ok_iff.mpr ⟨b, hb, hbyte⟩)
    exact ⟨size', List.mem_cons_of_mem _ hmem, hrest⟩

theorem Requested.mono {calls calls' : List (BitVec 32 × BitVec 32)} (h : m.Requested calls)
    (hsub : calls ⊆ calls') : m.Requested calls' := by
  intro a v hv
  obtain ⟨size, hmem, hrest⟩ := h a v hv
  exact ⟨size, hsub hmem, hrest⟩

theorem requested_addCalls {calls before : List (BitVec 32 × BitVec 32)}
    (h : m.Requested before) (hrun : m.addCalls calls = some m') :
    m'.Requested (before ++ calls) := by
  induction calls generalizing m before with
  | nil =>
    cases hrun
    exact h.mono (List.subset_append_left _ _)
  | cons call calls ih =>
    obtain ⟨address, size⟩ := call
    rw [addCalls] at hrun
    cases hcall : m.addMemory address size with
    | ok m₁ =>
      rw [hcall] at hrun
      refine (ih (requested_addMemory h hcall) hrun).mono fun x hx ↦ ?_
      simp only [List.mem_append, List.mem_cons] at hx ⊢
      tauto
    | err x =>
      rw [hcall] at hrun
      refine (ih h hrun).mono fun x hx ↦ ?_
      simp only [List.mem_append, List.mem_cons] at hx ⊢
      tauto
    | panic =>
      rw [hcall] at hrun
      cases hrun

end Run

/-- After any calls of `add_memory`, one more call follows the documented rule exactly if it is
refused; no two addresses share a byte, and only bytes that were asked for can be read. -/
theorem add_memory_layout {calls : List (BitVec 32 × BitVec 32)}
    (h : (default : MemorySystem).addCalls calls = some m) :
    (∀ address size, m.AddsSection address size ↔ offset address ≠ 0 ∨ m.map address ≠ none) ∧
    (∀ address size m', m.addMemory address size = .ok m' →
      (∀ base, base ≠ address → m'.map base = m.map base) ∧
      ∀ a v, page a = address → (m'.getU8 a = .ok v ↔ address.toNat ≤ a.toNat ∧
        a.toNat < address.toNat + size.toNat ∧ v = if a = address then 10 else 0)) ∧
    (∀ a a' v m', a ≠ a' → m.setU8 a v = .ok m' → m'.getU8 a' = m.getU8 a') ∧
    m.Requested calls := by
  refine ⟨fun _ _ ↦ addsSection_iff, ?_, fun _ _ _ _ ↦ getU8_setU8_of_ne, ?_⟩
  · intro address size m' hadd
    refine ⟨?_, fun a v hp ↦ getU8_addMemory hadd hp⟩
    intro base hbase
    obtain ⟨-, -, hs, rfl⟩ := addMemory_eq_ok hadd
    exact if_neg hbase
  · have hempty : (default : MemorySystem).Requested [] := by
      intro a v hv
      obtain ⟨b, hb, -⟩ := getU8_eq_ok_iff.mp hv
      cases hb
    exact requested_addCalls hempty h

theorem add_memory_layout_unaligned :
    ∃ m, (default : MemorySystem).addCalls [(0x10000, 0x100), (0x10000, 0x100)] = some m ∧
      m.AddsSection 0x100FF 0x100 := by
  obtain ⟨m, hm⟩ : ∃ m,
      (default : MemorySystem).addCalls [(0x10000, 0x100), (0x10000, 0x100)] = some m := ⟨_, rfl⟩
  exact ⟨m, hm, ((add_memory_layout hm).1 0x100FF 0x100).mpr (.inl (by decide))⟩

/-- The first byte of a new section is not zero. -/
theorem addMemory_first_byte :
    ¬∀ (calls : List (BitVec 32 × BitVec 32)) (m : MemorySystem),
      (default : MemorySystem).addCalls calls = some m →
      (∀ address size, m.AddsSection address size) ∧
        ∀ a a' v m', a ≠ a' → m.setU8 a v = .ok m' → m'.getU8 a' = m.getU8 a' := by
  intro h
  obtain hunaligned | hpresent := addsSection_iff.mp ((h [] default rfl).1 0x10000 0x100)
  · exact hunaligned (by decide)
  · exact hpresent rfl

end Qx86.MemorySystem
