import Qx86.Machine.Loading
import Qx86.Execute.Lookahead
import Qx86.Properties.ReadOnlyMemory

namespace Qx86

open Foundation Bytes MemorySystem Outcome

variable {σ : Type}

section Copies

variable {vm vm' : VM} {a : BitVec 32} {data : List (BitVec 8)}

theorem inside_max_iff (hm : vm.memory.Sectioned) (n : ℕ) : vm.memory.Inside a (max 1 n) ↔
    ∃ b, vm.memory.map (page a) = some b ∧ offset a + max 1 n ≤ b.memory.length :=
  inside_iff hm a (by omega)

/-- Copying succeeds exactly inside a section, and unwinds where the slice is too short for the
data although one was found. -/
theorem copyIntoMemory_cases (hm : vm.memory.Sectioned) (a : BitVec 32)
    (data : List (BitVec 8)) :
    (vm.memory.Inside a (max 1 (data.length % 2 ^ 32)) ∧ ∃ b, vm.memory.map (page a) = some b ∧
      offset a + data.length % 2 ^ 32 ≤ b.memory.length ∧
      vm.copyIntoMemory a data = if data.length < 2 ^ 32 then
        .ok { vm with memory := vm.memory.insert (page a) (b.copyFromSlice (offset a) data) }
      else .panic) ∨
    ¬vm.memory.Inside a (max 1 (data.length % 2 ^ 32)) ∧
      ∃ x, vm.copyIntoMemory a data = .err x := by
  have hsize : (BitVec.ofNat 32 data.length).toNat = data.length % 2 ^ 32 := BitVec.toNat_ofNat ..
  have hslice : (∃ s, vm.memory.getMutSizedMemory a (BitVec.ofNat 32 data.length) = .ok s) ↔ _ :=
    getMutSizedMemory_iff
  rw [hsize, ← inside_max_iff hm] at hslice
  cases hs : vm.memory.getMutSizedMemory a (BitVec.ofNat 32 data.length) with
  | error x =>
    refine .inr ⟨fun h ↦ ?_, x, by simp only [VM.copyIntoMemory, hs]⟩
    obtain ⟨s, h⟩ := hslice.mpr h
    cases hs.symm.trans h
  | ok s =>
    obtain ⟨b, start⟩ := s
    obtain ⟨hb, rfl, hn⟩ := getMutSizedMemory_section hs
    refine .inl ⟨hslice.mp ⟨_, hs⟩, b, hb, hsize ▸ hn, ?_⟩
    simp only [VM.copyIntoMemory, hs, hsize]
    by_cases hlt : data.length < 2 ^ 32
    · rw [if_pos hlt, if_neg (by rw [Nat.mod_eq_of_lt hlt]; omega)]
    · rw [if_neg hlt, if_pos (by omega)]

theorem copyIntoMemory_eq_ok (hm : vm.memory.Sectioned) (h : vm.copyIntoMemory a data = .ok vm') :
    data.length < 2 ^ 32 ∧ vm.memory.Inside a (max 1 data.length) ∧
      ∃ b, vm.memory.map (page a) = some b ∧ offset a + data.length ≤ b.memory.length ∧
        vm' = { vm with
          memory := vm.memory.insert (page a) (b.copyFromSlice (offset a) data) } := by
  obtain ⟨hin, b, hb, hn, hc⟩ | ⟨-, x, hc⟩ := copyIntoMemory_cases hm a data
  · rw [h] at hc
    by_cases hlt : data.length < 2 ^ 32
    · rw [Nat.mod_eq_of_lt hlt] at hin hn
      rw [if_pos hlt] at hc
      exact ⟨hlt, hin, b, hb, hn, Outcome.ok.inj hc⟩
    · rw [if_neg hlt] at hc
      cases hc
  · cases h.symm.trans hc

section

variable {m : MemorySystem} {b : BufferMemory}

theorem copied_sameSections (data : List (BitVec 8)) (hb : m.map (page a) = some b) :
    SameSections m (m.insert (page a) (b.copyFromSlice (offset a) data)) := by
  intro base
  by_cases hbase : base = page a
  · simp [MemorySystem.insert, hbase, hb, BufferMemory.copyFromSlice]
  · simp [MemorySystem.insert, hbase]

theorem copied_reads (m : MemorySystem) (hlt : data.length < 2 ^ 32)
    (hn : offset a + max 1 data.length ≤ b.memory.length) :
    (m.insert (page a) (b.copyFromSlice (offset a) data)).getSizedMemory a
      (BitVec.ofNat 32 data.length) = .ok data := by
  have hsize : (BitVec.ofNat 32 data.length).toNat = data.length := by
    rw [BitVec.toNat_ofNat, Nat.mod_eq_of_lt hlt]
  have hlen : (b.copyFromSlice (offset a) data).memory.length = b.memory.length :=
    overwrite_length ..
  rw [getSizedMemory_slice (if_pos rfl) (by rw [hsize, hlen]; exact hn), hsize]
  exact congrArg Except.ok (overwrite_slice (by omega))

end

end Copies

/-- Loading data with `copy_into_memory` puts exactly these bytes into a section and changes
nothing else. In read-only memory they stay: at every point of every run under a hypervisor that
does not write there, they are what `copy_from_memory` returns and what instructions are decoded
from. -/
theorem program_loaded (vm : VM) (hm : vm.memory.Built) (a : BitVec 32) (data : List (BitVec 8)) :
    ((∃ vm', vm.copyIntoMemory a data = .ok vm') ↔
      data.length < 2 ^ 32 ∧ vm.memory.Inside a (max 1 data.length)) ∧
    (vm.copyIntoMemory a data = .panic ↔
      2 ^ 32 ≤ data.length ∧ vm.memory.Inside a (max 1 (data.length % 2 ^ 32))) ∧
    ∀ vm', vm.copyIntoMemory a data = .ok vm' →
      SameSections vm.memory vm'.memory ∧
      vm'.memory.byteAt = patch vm.memory.byteAt a.toNat data ∧
      vm' = { vm with memory := vm'.memory } ∧
      vm'.copyFromMemory a (BitVec.ofNat 32 data.length) = .ok data ∧
      ∀ (hv : Hypervisor σ) (n : ℕ) (m m' : Machine σ), hv.GuardsMemory → a < WRITEABLE_MEMORY →
        m.vm.memory = vm'.memory → Point hv (start n m) m' →
        m'.vm.copyFromMemory a (BitVec.ofNat 32 data.length) = .ok data ∧
        ∀ i, i + 16 ≤ data.length →
          m'.vm.memory.getSizedMemory (a + BitVec.ofNat 32 i) 16 = .ok ((data.drop i).take 16) := by
  have hm := hm.sectioned
  have hcases := copyIntoMemory_cases hm a data
  refine ⟨⟨fun ⟨vm', h⟩ ↦ ?_, fun ⟨hlt, hin⟩ ↦ ?_⟩, ⟨fun h ↦ ?_, fun ⟨hle, hin⟩ ↦ ?_⟩,
    fun vm' h ↦ ?_⟩
  · obtain ⟨hlt, hin, -⟩ := copyIntoMemory_eq_ok hm h
    exact ⟨hlt, hin⟩
  · rw [Nat.mod_eq_of_lt hlt] at hcases
    obtain ⟨-, b, -, -, hc⟩ | ⟨hout, -⟩ := hcases
    · exact ⟨_, hc.trans (if_pos hlt)⟩
    · exact absurd hin hout
  · obtain ⟨hin, b, -, -, hc⟩ | ⟨-, x, hc⟩ := hcases
    · rw [h] at hc
      by_cases hlt : data.length < 2 ^ 32
      · rw [if_pos hlt] at hc
        cases hc
      · exact ⟨Nat.le_of_not_lt hlt, hin⟩
    · cases h.symm.trans hc
  · obtain ⟨-, b, -, -, hc⟩ | ⟨hout, -⟩ := hcases
    · rwa [if_neg (Nat.not_lt.mpr hle)] at hc
    · exact absurd hin hout
  · obtain ⟨hlt, hin, b, hb, hn, rfl⟩ := copyIntoMemory_eq_ok hm h
    have hsame := copied_sameSections (a := a) data hb
    obtain ⟨b', hb', hmax⟩ := (inside_max_iff hm _).mp hin
    cases hb.symm.trans hb'
    have hread := copied_reads vm.memory hlt hmax
    refine ⟨hsame, byteAt_insert hm hb hn, rfl, hread, fun hv n m m' hhv ha hmem hp ↦ ?_⟩
    have hguard := hhv.stepRelation.point hp
    have hread' := getSizedMemory_congr hguard ha (BitVec.ofNat 32 data.length)
    have hstart : (start n m).machine.vm.memory = m.vm.memory := rfl
    rw [hstart, hmem, hread] at hread'
    have hm' : m'.vm.memory.Sectioned := by
      refine SameSections.sectioned (m := m.vm.memory) hguard.sizes ?_
      rw [hmem]
      exact hsame.sectioned hm
    exact ⟨hread', fun i hi ↦ getSizedMemory_part hm' hread' (by decide) hi⟩

/-- A virtual machine with one section for code. -/
def bareVm : VM := { createVm zeroSection with
  memory := (default : MemorySystem).insert CODE_MEM
    ⟨(List.replicate 32 0).set 0 10, by decide⟩ }

theorem bareVm_built : bareVm.memory.Built :=
  @Built.add default _ CODE_MEM 32 .empty (by decide) rfl

/-- `nop` and `hlt`, loaded and run. -/
theorem program_loaded_nopHlt : ∃ vm' m', bareVm.copyIntoMemory CODE_MEM [0x90, 0xF4] = .ok vm' ∧
    Finishes (cycle testHypervisor) (start PIPELINE_SIZE ⟨vm', []⟩) (.ok true, m') ∧
    m'.vm.copyFromMemory CODE_MEM 2 = .ok [0x90, 0xF4] := by
  have hload := @program_loaded (List (BitVec 8)) bareVm bareVm_built CODE_MEM [0x90, 0xF4]
  have hrun : ∀ vm', bareVm.copyIntoMemory CODE_MEM [0x90, 0xF4] = .ok vm' →
      (iterate (cycle testHypervisor) 1 (start PIPELINE_SIZE ⟨vm', []⟩)).getRight?.map Prod.fst =
        some (.ok true) := by
    intro vm' h
    cases h
    decide +kernel
  obtain ⟨vm', h⟩ : ∃ vm', bareVm.copyIntoMemory CODE_MEM [0x90, 0xF4] = .ok vm' := ⟨_, rfl⟩
  obtain ⟨⟨_, m'⟩, hr, rfl⟩ := Finishes.of_getRight (hrun vm' h)
  obtain ⟨-, -, -, -, hpersist⟩ := hload.2.2 vm' h
  obtain ⟨hread, -⟩ := hpersist testHypervisor PIPELINE_SIZE ⟨vm', []⟩ m' (fun _ _ _ ↦ .refl _)
    (by decide) rfl (.finish _ _ hr)
  exact ⟨vm', m', h, hr, hread⟩

end Qx86
