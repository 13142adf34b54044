import Qx86.Decode.Charges
import Qx86.Execute.Image
import Qx86.Execute.Metering
import Qx86.Execute.Prediction

namespace Qx86

open Foundation Outcome Words

variable {σ : Type} {hv : Hypervisor σ}

/-- A hypervisor that does not raise the gas and leaves the charger and the memory map
alone. It may write to memory, also to the read-only half. -/
structure Hypervisor.Frugal (hv : Hypervisor σ) : Prop where
  gas : ∀ vm n s, (hv.interrupt vm n s).2.1.gasRemaining ≤ vm.gasRemaining
  charger : ∀ vm n s, (hv.interrupt vm n s).2.1.charger = vm.charger
  sizes : ∀ vm n s base, ((hv.interrupt vm n s).2.1.memory.map base).map (·.memory.length) =
    (vm.memory.map base).map (·.memory.length)

/-- What a step never does: raise the gas, change the charger or change the memory map. -/
structure Spends (m m' : Machine σ) : Prop where
  gas : m'.vm.gasRemaining.toNat ≤ m.vm.gasRemaining.toNat
  charger : m'.vm.charger = m.vm.charger
  sizes : ∀ base, (m'.vm.memory.map base).map (·.memory.length) =
    (m.vm.memory.map base).map (·.memory.length)

theorem spends_of_frame {vm vm' : VM} (s : σ) (h : vm.Frame vm') :
    Spends (⟨vm, s⟩ : Machine σ) ⟨vm', s⟩ :=
  ⟨by rw [h.gas], h.charger, h.memory.sizes⟩

theorem stepRelation_spends (h : hv.Frugal) : StepRelation hv Spends where
  refl _ := ⟨le_rfl, rfl, fun _ ↦ rfl⟩
  trans h₁ h₂ := ⟨h₂.gas.trans h₁.gas, h₂.charger.trans h₁.charger,
    fun base ↦ (h₂.sizes base).trans (h₁.sizes base)⟩
  charge m cost := ⟨(charge_gas m cost).trans_le (Nat.sub_le ..), rfl, fun _ ↦ rfl⟩
  advance _ _ := ⟨le_rfl, rfl, fun _ ↦ rfl⟩
  fail _ := ⟨le_rfl, rfl, fun _ ↦ rfl⟩
  count m s := spends_of_frame m.host (m.vm.decrementRegw_frame .ecx s)
  logic m f p := spends_of_frame m.host ((f.logic p).frame m.vm)
  interrupt m n := ⟨by
    have := h.gas m.vm n m.host
    rwa [BitVec.le_def] at this, h.charger .., h.sizes _ _ _⟩

def MemorySystem.Bounded (m : MemorySystem) : Prop :=
  ∀ base b, m.map base = some b → b.memory.length ≤ 0x10000

/-- What an instruction is charged for comes to nothing only if every charge is nothing:
the sum does not wrap around to zero. -/
def VM.PaysFor (vm : VM) (v : Visit) : Prop :=
  ∀ charges, vm.chargesAt (writeableAt vm.eip) v.eip = .ok charges →
    vm.charger.total charges = 0 → vm.charger.price charges = 0

theorem offset_eq_mod (a : BitVec 32) : MemorySystem.offset a = a.toNat % 0x10000 := by
  rw [MemorySystem.offset, BitVec.toNat_and]
  exact Nat.and_two_pow_sub_one_eq_mod a.toNat 16

theorem offset_add {eip : BitVec 32} {k : BitVec 8}
    (h : MemorySystem.offset eip + k.toNat < 0x10000) :
    MemorySystem.offset (eip + k.setWidth 32) = MemorySystem.offset eip + k.toNat := by
  have hk := k.isLt
  rw [offset_eq_mod] at h
  rw [offset_eq_mod, offset_eq_mod, BitVec.toNat_add, BitVec.toNat_setWidth]
  omega

/-- An instruction that costs nothing does nothing, or stops the machine. -/
theorem free_function {vm : VM} {writeable : Bool} {eip : BitVec 32} {f : Filled}
    (hd : vm.decodeAt writeable eip = .ok f) (ht : vm.charger.Tiered)
    (hz : ∀ charges, vm.chargesAt writeable eip = .ok charges →
      vm.charger.total charges = 0 → vm.charger.price charges = 0)
    (hg : f.slot.gasCost = 0) :
    f.slot.function ∈ [SlotFn.opcode (.logic .nop), .opcode (.logic .hlt),
      .opcode (.logic .opUndefined)] := by
  obtain ⟨charges, hc, hgas, -⟩ := decodeAt_charges hd
  refine function_of_price_eq_zero hd ht fun charges' hc' ↦ hz charges' hc' ?_
  rw [hc] at hc'
  cases hc'
  rw [← hgas, hg]

theorem free_step {vm : VM} {writeable : Bool} {m m' : Machine σ} {f : Filled}
    (hd : vm.decodeAt writeable m.vm.eip = .ok f) (hb : vm.memory.Bounded)
    (hfree : f.slot.function ∈ [SlotFn.opcode (.logic .nop), .opcode (.logic .hlt),
      .opcode (.logic .opUndefined)])
    (h : runSlot hv f.slot m = .inl m') :
    f.slot.function = .opcode (.logic .nop) ∧
      MemorySystem.offset m.vm.eip < MemorySystem.offset m'.vm.eip := by
  simp only [List.mem_cons, List.not_mem_nil, or_false] at hfree
  obtain hf | hf | hf := hfree
  · refine ⟨hf, ?_⟩
    obtain ⟨vm', hrun, rfl⟩ := runSlot_logic_inl hf h
    cases hrun
    obtain ⟨window, _, _, hw, -⟩ := fillSlot_eq_ok hd
    obtain ⟨b, hm, hsize⟩ := MemorySystem.getSizedMemory_section hw
    rw [show (16 : BitVec 32).toNat = 16 from rfl] at hsize
    have hle := hb _ b hm
    have hlow := (fillSlot_eipSize hd).1
    have hhigh := decodeAt_nop hd hf
    change _ < MemorySystem.offset (m.vm.eip + f.slot.eipSize.setWidth 32)
    rw [offset_add (by omega)]
    omega
  · obtain ⟨vm', hrun, -⟩ := runSlot_logic_inl hf h
    cases hrun
  · obtain ⟨vm', hrun, -⟩ := runSlot_logic_inl hf h
    obtain ⟨_, _, -, hrun⟩ := Op.run_bind_ok.mp hrun
    obtain ⟨_, _, -, hrun⟩ := Op.run_bind_ok.mp hrun
    cases hrun

theorem free_run {vm : VM} {writeable : Bool} (ps : List Pipeline) (eip : BitVec 32)
    (gas : BitVec 64) {slots : List Pipeline} {m m' : Machine σ}
    (hfill : fillLoop vm OPCODES writeable eip false gas ps = .ok slots)
    (ht : vm.charger.Tiered) (hb : vm.memory.Bounded)
    (hz : ∀ v ∈ vm.walk writeable ps.length eip gas, ∀ charges,
      vm.chargesAt writeable v.eip = .ok charges →
        vm.charger.total charges = 0 → vm.charger.price charges = 0)
    (hg : ∀ p ∈ slots, p.gasCost = 0) (heip : m.vm.eip = eip)
    (h : runSlots hv slots m = .inl m') :
    MemorySystem.offset eip ≤ MemorySystem.offset m'.vm.eip ∧
      (ps ≠ [] → MemorySystem.offset eip < MemorySystem.offset m'.vm.eip) := by
  induction ps generalizing eip gas slots m with
  | nil =>
    cases hfill
    cases h
    rw [heip]
    exact ⟨le_rfl, fun h ↦ absurd rfl h⟩
  | cons p ps ih =>
    suffices hlt : MemorySystem.offset eip < MemorySystem.offset m'.vm.eip from
      ⟨hlt.le, fun _ ↦ hlt⟩
    obtain ⟨f, rest, hf, hrest, rfl⟩ := fillLoop_cons_eq_ok hfill
    rw [List.length_cons, walk_of_ok hf] at hz
    have hcost := hg _ List.mem_cons_self
    rw [Filled.keepArgs_gasCost] at hcost
    simp only [runSlots] at h
    split at h
    · next m₁ hs =>
      subst heip
      have hfree := free_function hf ht (hz _ List.mem_cons_self) hcost
      have hkeep : f.keepArgs p.args = f := if_neg <| by
        simp only [List.mem_cons, List.not_mem_nil, or_false] at hfree
        obtain hfn | hfn | hfn := hfree <;> simp [hfn, SlotFn.isRep]
      rw [hkeep] at hs
      obtain ⟨hnop, hlt⟩ := free_step hf hb hfree hs
      refine hlt.trans_le ?_
      cases hstop : f.stop || saturatingSub gas f.slot.gasCost == 0 with
      | true =>
        rw [hstop, fillLoop_stopped] at hrest
        cases hrest
        rw [runSlots_idle] at h
        cases h
        exact le_rfl
      | false =>
        rw [hstop] at hrest hz
        have hne : f.slot.function ≠ .opcode (.logic .enter) := by simp [hnop]
        have hnext := (runSlot_next hf (Bool.or_eq_false_iff.mp hstop).1 hne hs).1
        rw [hnext]
        exact (ih f.next _ hrest (fun v hv ↦ hz v (List.mem_cons_of_mem _ (by simpa using hv)))
          (fun q hq ↦ hg q (List.mem_cons_of_mem _ hq)) hnext h).1
    · cases h

theorem MemorySystem.Bounded.of_sizes {m m' : MemorySystem} (h : m.Bounded)
    (hs : ∀ base, (m'.map base).map (·.memory.length) = (m.map base).map (·.memory.length)) :
    m'.Bounded := by
  intro base b hb
  have hsize := hs base
  rw [hb] at hsize
  obtain ⟨b', hb', he⟩ := Option.map_eq_some_iff.mp hsize.symm
  have hle := h base b' hb'
  rw [show b'.memory.length = b.memory.length from he] at hle
  exact hle

/-- A cycle that leads to another one spends gas or moves forward in its section. -/
theorem cycle_measure (hhv : hv.Frugal) {c c' : Running σ}
    (ht : c.machine.vm.charger.Tiered) (hb : c.machine.vm.memory.Bounded)
    (hn : 0 < c.pipeline.length)
    (hz : ∀ v ∈ c.machine.vm.visits c.pipeline.length, c.machine.vm.PaysFor v)
    (hs : cycle hv c = .inl c') :
    c'.machine.vm.gasRemaining.toNat * 0x10001 +
        (0x10000 - MemorySystem.offset c'.machine.vm.eip) <
      c.machine.vm.gasRemaining.toNat * 0x10001 +
        (0x10000 - MemorySystem.offset c.machine.vm.eip) := by
  obtain ⟨hfill, hrun⟩ := cycle_eq_inl hs
  have hgas := runSlots_gas hhv.gas hrun
  by_cases hlt : c'.machine.vm.gasRemaining.toNat < c.machine.vm.gasRemaining.toNat
  · omega
  · have hzero : ∀ p ∈ c'.pipeline, p.gasCost = 0 := fun p hp ↦ by
      have := Pipeline.le_totalCost hp
      exact (eq_zero_iff_toNat _).mpr (by omega)
    rw [← clearPipeline_length] at hn hz
    have hmove := (free_run _ _ _ hfill ht hb hz hzero rfl hrun).2 (List.length_pos_iff.mp hn)
    have hbound := offset_eq_mod c'.machine.vm.eip
    omega

/-- With every tier costing something, every run comes to an end, unless it decodes an
instruction whose charges wrap around to zero. -/
theorem execute_terminates (hv : Hypervisor σ) (hhv : hv.Frugal) (n : ℕ) (hn : 0 < n)
    (m : Machine σ) (ht : m.vm.charger.Tiered) (hb : m.vm.memory.Bounded)
    (hz : ∀ c, Reaches (cycle hv) (start n m) c → ∀ v ∈ c.machine.vm.visits n,
      c.machine.vm.PaysFor v) :
    ∃ r, Finishes (cycle hv) (start n m) r := by
  refine Finishes.of_measure (fun c ↦ c.machine.vm.gasRemaining.toNat * 0x10001 +
    (0x10000 - MemorySystem.offset c.machine.vm.eip)) (P := Reaches (cycle hv) (start n m))
    (fun c c' hs hc ↦ ⟨hc.trans (.single hs), ?_⟩) (.refl ..)
  have hspent := (stepRelation_spends hhv).reaches hc
  have ht' : c.machine.vm.charger.Tiered := hspent.charger ▸ ht
  have hb' : c.machine.vm.memory.Bounded := hb.of_sizes hspent.sizes
  exact cycle_measure hhv ht' hb' (by simpa [reaches_pipeline_length hc] using hn)
    (by rw [reaches_pipeline_length hc]; exact hz c hc) hs

instance (vm : VM) (v : Visit) : Decidable (vm.PaysFor v) :=
  match h : vm.chargesAt (writeableAt vm.eip) v.eip with
  | .ok charges => decidable_of_iff (vm.charger.total charges = 0 → vm.charger.price charges = 0)
      (by simp [VM.PaysFor, h])
  | .err _ => .isTrue (by simp [VM.PaysFor, h])
  | .panic => .isTrue (by simp [VM.PaysFor, h])

theorem frugal_testHypervisor : testHypervisor.Frugal :=
  ⟨fun _ _ _ ↦ BitVec.le_refl _, fun _ _ _ ↦ rfl, fun _ _ _ _ ↦ rfl⟩

theorem bounded_codeMemory {code data : BufferMemory} (hc : code.memory.length ≤ 0x10000)
    (hd : data.memory.length ≤ 0x10000) : (codeMemory code data).Bounded := by
  intro base b hb
  simp only [codeMemory, MemorySystem.insert] at hb
  split at hb
  · cases hb
    exact hd
  · split at hb
    · cases hb
      exact hc
    · cases hb

def nopHlt : BufferMemory :=
  ⟨[0x90, 0xF4] ++ List.replicate 16 0, by decide⟩

theorem execute_terminates_nopHlt :
    ∃ r, Finishes (cycle testHypervisor) (start PIPELINE_SIZE (createMachine nopHlt)) r := by
  have hstop : (cycle testHypervisor (start PIPELINE_SIZE (createMachine nopHlt))).isRight =
      true := by
    decide +kernel
  obtain ⟨s, hs⟩ := Sum.isRight_iff.mp hstop
  refine execute_terminates testHypervisor frugal_testHypervisor PIPELINE_SIZE (by decide)
    (createMachine nopHlt) (by decide) (bounded_codeMemory (by decide) (by decide))
    fun c hc ↦ ?_
  rw [hc.eq_of_inr hs]
  decide +kernel

/-- `jno` to itself, where a tier and the surcharge of a branch add up to 2 ^ 64. -/
def freeBranch : Machine (List (BitVec 8)) where
  vm := { createVm ⟨[0x71, 0xFE] ++ List.replicate 16 0, by decide⟩ with
    charger := ⟨fun
      | .none | .memoryAccess | .writeableMemoryExec | .modRMSurcharge => 0
      | .veryLow | .low | .moderate | .high => 1
      | .conditionalBranch => -1⟩ }
  host := []

def freeBranchSlots : List Pipeline :=
  { (default : Pipeline) with
    function := .opcode (.logic .jcc)
    args := ![⟨.immediate (.byte 0xFE), false⟩, {}, {}]
    eipSize := 2
    opcode := 0x71 } :: (List.replicate 15 default).map idleSlot

theorem cycle_freeBranch {pipeline : List Pipeline}
    (h : fillPipeline freeBranch.vm OPCODES pipeline = .ok freeBranchSlots) :
    cycle testHypervisor ⟨freeBranch, pipeline⟩ = .inl ⟨freeBranch, freeBranchSlots⟩ := by
  have hrun : runSlots testHypervisor freeBranchSlots freeBranch = .inl freeBranch :=
    @runSlots_idle _ testHypervisor (List.replicate 15 default) freeBranch
  simp only [cycle, h, hrun]
  rfl

/-- The branch costs nothing and is taken forever. -/
theorem execute_loops_freeBranch :
    ¬∀ hv : Hypervisor (List (BitVec 8)), hv.Frugal → ∀ m : Machine (List (BitVec 8)),
      m.vm.charger.Tiered → m.vm.memory.Bounded →
        ∃ r, Finishes (cycle hv) (start PIPELINE_SIZE m) r := by
  intro h
  obtain ⟨r, hr⟩ := h testHypervisor frugal_testHypervisor freeBranch (by decide)
    (bounded_codeMemory (by decide) (by decide))
  have hfirst : fillPipeline freeBranch.vm OPCODES (emptyPipeline PIPELINE_SIZE) =
      .ok freeBranchSlots := by
    decide +kernel
  have hnext : fillPipeline freeBranch.vm OPCODES freeBranchSlots = .ok freeBranchSlots := by
    decide +kernel
  exact Finishes.not_of_fixed (cycle_freeBranch hnext) (hr.tail (cycle_freeBranch hfirst))

end Qx86
