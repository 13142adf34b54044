import Qx86.Properties.Disassembly

namespace Qx86

open Foundation Outcome

variable {σ : Type} {hv : Hypervisor σ}

section Prices

def VM.priceAt (vm : VM) (a : BitVec 32) : ℕ :=
  match vm.decodeAt (writeableAt a) a with
  | .ok f => f.slot.gasCost.toNat
  | _ => 0

/-- What the instructions of a listing from an address on are charged, each of them once. -/
def VM.priceFrom (vm : VM) (l : List (BitVec 32 × Pipeline)) (a : BitVec 32) : ℕ :=
  (l.map fun e ↦ if a ≤ e.1 then vm.priceAt e.1 else 0).sum

variable {vm : VM} {l : List (BitVec 32 × Pipeline)} {e : BitVec 32 × Pipeline} {a b : BitVec 32}

theorem VM.priceFrom_mono (vm : VM) (l : List (BitVec 32 × Pipeline)) (hab : a ≤ b) :
    vm.priceFrom l b ≤ vm.priceFrom l a := by
  refine List.sum_le_sum fun e _ ↦ ?_
  by_cases hb : b ≤ e.1
  · rw [if_pos hb, if_pos (BitVec.le_trans hab hb)]
  · rw [if_neg hb]
    exact Nat.zero_le _

theorem VM.priceFrom_le (vm : VM) (l : List (BitVec 32 × Pipeline)) (a : BitVec 32) :
    vm.priceFrom l a ≤ (l.map fun e ↦ vm.priceAt e.1).sum :=
  List.sum_le_sum fun e _ ↦ by split <;> omega

theorem VM.priceAt_le (vm : VM) (he : e ∈ l) : vm.priceAt e.1 ≤ vm.priceFrom l e.1 :=
  List.le_sum_of_mem (List.mem_map.mpr ⟨e, he, if_pos (BitVec.le_refl _)⟩)

theorem VM.priceFrom_lt (vm : VM) (he : e ∈ l) (hb : e.1 < b) :
    vm.priceAt e.1 + vm.priceFrom l b ≤ vm.priceFrom l e.1 := by
  obtain ⟨l₁, l₂, rfl⟩ := List.append_of_mem he
  have h₁ := vm.priceFrom_mono l₁ (BitVec.le_of_lt hb)
  have h₂ := vm.priceFrom_mono l₂ (BitVec.le_of_lt hb)
  simp only [priceFrom, List.map_append, List.map_cons, List.sum_append, List.sum_cons] at h₁ h₂ ⊢
  rw [if_neg (BitVec.not_le.mpr hb), if_pos (BitVec.le_refl _)]
  omega

end Prices

section Calls

variable {f : OpcodeFn} {p : Pipeline} {m : Machine σ}

theorem opcodeCall_gas (ho : hv.Oblivious) (f : OpcodeFn) (p : Pipeline) (m : Machine σ) :
    (f.call hv p m).2.vm.gasRemaining = m.vm.gasRemaining := by
  cases f with
  | logic f =>
    rw [OpcodeFn.call_logic]
    exact ((f.logic p).frame m.vm).gas
  | interrupt =>
    rw [OpcodeFn.call]
    split
    · rfl
    · exact ho.gas ..

theorem opcodeCall_charger (hch : ∀ vm n s, (hv.interrupt vm n s).2.1.charger = vm.charger)
    (f : OpcodeFn) (p : Pipeline) (m : Machine σ) :
    (f.call hv p m).2.vm.charger = m.vm.charger := by
  cases f with
  | logic f =>
    rw [OpcodeFn.call_logic]
    exact ((f.logic p).frame m.vm).charger
  | interrupt =>
    rw [OpcodeFn.call]
    split
    · rfl
    · exact hch ..

theorem stepOne_left (ho : hv.Oblivious)
    (hch : ∀ vm n s, (hv.interrupt vm n s).2.1.charger = vm.charger) {f : Filled} {g : OpcodeFn}
    (hd : m.vm.decodeAt (writeableAt m.vm.eip) m.vm.eip = .ok f)
    (hg : f.slot.function = .opcode g) (hpaid : ¬m.vm.gasRemaining < f.slot.gasCost) :
    let m' := (stepOne hv m).elim id (·.2)
    m'.vm.gasRemaining.toNat = m.vm.gasRemaining.toNat - f.slot.gasCost.toNat ∧
      m'.vm.charger = m.vm.charger := by
  have hgas := opcodeCall_gas ho g f.slot (m.charge f.slot.gasCost)
  have hcharger := opcodeCall_charger hch g f.slot (m.charge f.slot.gasCost)
  have hone : stepOne hv m = endSlot f.slot (g.call hv f.slot (m.charge f.slot.gasCost)) := by
    simp only [stepOne, hd, runSlot_call hpaid, hg, SlotFn.call]
  rw [hone]
  rcases hcall : g.call hv f.slot (m.charge f.slot.gasCost) with ⟨_ | x | _, m₁⟩ <;>
    rw [hcall] at hgas hcharger
  · exact ⟨(congrArg BitVec.toNat hgas).trans (charge_gas m f.slot.gasCost), hcharger⟩
  · unfold endSlot
    dsimp only
    split <;> exact ⟨(congrArg BitVec.toNat hgas).trans (charge_gas m f.slot.gasCost), hcharger⟩
  · exact ⟨(congrArg BitVec.toNat hgas).trans (charge_gas m f.slot.gasCost), hcharger⟩

end Calls

/-- Every jump of a listing goes forward, and nothing is repeated. -/
def LoopFree (l : List (BitVec 32 × Pipeline)) : Prop :=
  ∀ e ∈ l, e.2.function.isRep = false ∧ ∀ ss ∈ e.2.successors e.1, ss.all (e.1 < ·)

instance decidable_loopFree (l : List (BitVec 32 × Pipeline)) : Decidable (LoopFree l) :=
  inferInstanceAs (Decidable (∀ _ ∈ l, _))

section Runs

variable {l : List (BitVec 32 × Pipeline)} {vm₀ : VM} {m : Machine σ} {k : ℕ}

/-- A machine at an instruction of a listing, with gas for the rest of it and some more. -/
structure Funded (vm₀ : VM) (l : List (BitVec 32 × Pipeline)) (k : ℕ) (m : Machine σ) : Prop where
  listed : m.core.Listed l
  guarded : vm₀.memory.Guarded m.vm.memory
  charger : m.vm.charger = vm₀.charger
  gas : vm₀.priceFrom l m.vm.eip + k ≤ m.vm.gasRemaining.toNat

theorem Funded.slot (hfree : LoopFree l) (h : Funded vm₀ l k m) {e : BitVec 32 × Pipeline}
    (he : e ∈ l) (ha : e.1 = m.vm.eip) :
    ∃ f g, m.vm.decodeAt (writeableAt m.vm.eip) m.vm.eip = .ok f ∧ f.slot.function = .opcode g ∧
      vm₀.priceAt e.1 = f.slot.gasCost.toNat ∧ ¬m.vm.gasRemaining < f.slot.gasCost := by
  have hlists : m.vm.Lists l := h.listed.1.congr fun _ _ ↦ rfl
  obtain ⟨hro, -, -, f, hf, hs, -⟩ := hlists e he
  have hw : writeableAt e.1 = false := writeableAt_eq_false.mpr hro
  have hprice : vm₀.priceAt e.1 = f.slot.gasCost.toNat := by
    rw [VM.priceAt, hw, ← decodeAt_stable h.guarded h.charger hro false, hf]
  have hrep : f.slot.function.isRep = false := by
    have hrep := (hfree e he).1
    rw [← hs] at hrep
    exact hrep
  have hgas := h.gas
  have hle := vm₀.priceAt_le he
  rw [← ha] at hgas
  cases hfn : f.slot.function with
  | opcode g =>
    refine ⟨f, g, by rwa [← ha, hw], hfn, hprice, ?_⟩
    rw [BitVec.not_lt, BitVec.le_def]
    omega
  | repe | repne =>
    rw [hfn] at hrep
    cases hrep

variable (hu : hv.Unmetered) (hc : hv.LeavesCode) (ho : hv.Oblivious)
  (hch : ∀ vm n s, (hv.interrupt vm n s).2.1.charger = vm.charger) (hclosed : Closed l)
  (hfree : LoopFree l)

include hu hc ho hch hclosed hfree

theorem Funded.step (h : Funded vm₀ l k m) :
    (∀ m', stepOne hv m = .inl m' → Funded vm₀ l k m' ∧ m.vm.eip < m'.vm.eip) ∧
      ∀ r, stepOne hv m = .inr r → r.1 ≠ .err .outOfGas ∧ k ≤ r.2.vm.gasRemaining.toNat := by
  obtain ⟨e, he, ha, -, hflows⟩ := h.listed.flows hc
  obtain ⟨f, g, hd, hg, hprice, hpaid⟩ := h.slot hfree he ha
  have hcore := stepOne_opcode hu hd hg hpaid
  have hleft := stepOne_left ho hch hd hg hpaid
  have hgas := h.gas
  rw [← show e.1 = m.vm.eip from ha] at hgas ⊢
  constructor
  · intro m' hs
    rw [hs] at hcore hleft
    obtain ⟨hgas', hcharger⟩ := hleft
    obtain ⟨hmem, hnext⟩ := hflows.next m'.core hcore.symm
    have hlt : e.1 < m'.vm.eip := by
      obtain ⟨ss, hss, -⟩ := hclosed e he
      obtain ⟨hrep, -⟩ | hin := hnext
      · rw [(hfree e he).1] at hrep
        cases hrep
      · exact of_decide_eq_true (List.all_eq_true.mp ((hfree e he).2 ss hss) _ (hin ss (ha ▸ hss)))
    have hrest := vm₀.priceFrom_lt he hlt
    refine ⟨⟨h.listed.step hc hclosed hcore.symm, h.guarded.trans hmem,
      hcharger.trans h.charger, ?_⟩, hlt⟩
    dsimp only [Sum.elim_inl, id] at hgas'
    omega
  · intro r hs
    rw [hs] at hcore hleft
    have hle := vm₀.priceAt_le he
    obtain ⟨hgas', -⟩ := hleft
    refine ⟨fun hr ↦ step_ne_outOfGas (c := r.2.core) hu m.core (by rw [← hcore, ← hr]; rfl), ?_⟩
    dsimp only [Sum.elim_inr] at hgas'
    omega

theorem Funded.finishes (h : Funded vm₀ l k m) :
    ∃ r, Finishes (stepOne hv) m r ∧ r.1 ≠ .err .outOfGas ∧ k ≤ r.2.vm.gasRemaining.toNat := by
  obtain ⟨r, hr⟩ : ∃ r, Finishes (stepOne hv) m r := Finishes.of_measure
    (fun m : Machine σ ↦ 2 ^ 32 - m.vm.eip.toNat) (P := Funded vm₀ l k)
    (fun m m' hs h ↦ by
      obtain ⟨h', hlt⟩ := (h.step hu hc ho hch hclosed hfree).1 m' hs
      have hbound := m'.vm.eip.isLt
      rw [BitVec.lt_def] at hlt
      exact ⟨h', by omega⟩) h
  obtain ⟨t, ht, hlast⟩ := hr.last
  have hfunded : Funded vm₀ l k t := ht.invariant
    (fun m m' hs h ↦ ((h.step hu hc ho hch hclosed hfree).1 m' hs).1) h
  exact ⟨r, hr, (hfunded.step hu hc ho hch hclosed hfree).2 r hlast⟩

end Runs

/-- Loop-free code ends, and is not out of gas, if it is given what its instructions cost
together; and it spends no more. -/
theorem loop_free_paid (hv : Hypervisor σ) (hu : hv.Unmetered) (hc : hv.LeavesCode)
    (ho : hv.Oblivious) (hch : ∀ vm n s, (hv.interrupt vm n s).2.1.charger = vm.charger) {n : ℕ}
    (hn : 0 < n) (m : Machine σ) (l : List (BitVec 32 × Pipeline)) (hl : m.vm.Lists l)
    (hclosed : Closed l) (hfree : LoopFree l) (he : ∃ e ∈ l, e.1 = m.vm.eip)
    (hgas : (l.map fun e ↦ m.vm.priceAt e.1).sum ≤ m.vm.gasRemaining.toNat) :
    ∃ r m', Finishes (cycle hv) (start n m) (r, m') ∧ r ≠ .err .outOfGas ∧
      m.vm.gasRemaining.toNat ≤
        m'.vm.gasRemaining.toNat + (l.map fun e ↦ m.vm.priceAt e.1).sum := by
  have hlisted : m.core.Listed l := ⟨hl.congr fun _ _ ↦ rfl, he⟩
  have hrun (c : Core σ) (h : Reaches (Core.step hv) m.core c) : c.Listed l :=
    hlisted.reaches hc hclosed h
  have hpred : PredictedRun hv n m := predictedRun_of_core hu hn
    (fun c h ↦ (hrun c h).repFixed) fun c h ↦ (hrun c h).foreseeable n
  have hfunded : Funded m.vm l
      (m.vm.gasRemaining.toNat - (l.map fun e ↦ m.vm.priceAt e.1).sum) m := by
    refine ⟨hlisted, .refl _, rfl, ?_⟩
    have hle := m.vm.priceFrom_le l m.vm.eip
    omega
  obtain ⟨r, hr, hne, hleft⟩ := hfunded.finishes hu hc ho hch hclosed hfree
  exact ⟨r.1, r.2, (finishes_iff_stepOne hv hn m hpred r).mpr hr, hne, by omega⟩

/-- `test eax, eax`, `jz` over an `inc eax`, and `hlt`. -/
def skipIfZero : BufferMemory :=
  ⟨[0x85, 0xC0, 0x74, 0x01, 0x40, 0xF4] ++ List.replicate 16 0, by decide⟩

def skipIfZeroListing : List (BitVec 32 × Pipeline) :=
  [(0x10000, instruction .testNativeWord ![regArg .eax, regArg .eax, {}] 2 0x85),
    (0x10002, instruction .jcc ![byteArg 0x01, {}, {}] 2 0x74),
    (0x10004, instruction .incrementNativeWord ![regArg .eax, {}, {}] 1 0x40),
    (0x10005, instruction .hlt ![{}, {}, {}] 1 0xF4)]

theorem loop_free_paid_skipIfZero : ∃ r m', Finishes (cycle testHypervisor)
    (start PIPELINE_SIZE (createMachine skipIfZero)) (r, m') ∧ r ≠ .err .outOfGas := by
  obtain ⟨r, m', hr, hne, -⟩ := loop_free_paid testHypervisor testHypervisor_unmetered
    testHypervisor_leavesCode oblivious_testHypervisor (fun _ _ _ ↦ rfl) (n := PIPELINE_SIZE)
    (by decide) (createMachine skipIfZero) skipIfZeroListing (by decide +kernel)
    (by decide +kernel) (by decide +kernel) (by decide +kernel) (by decide +kernel)
  exact ⟨r, m', hr, hne⟩

end Qx86
