import Qx86.Execute.Core
import Qx86.Execute.Prediction

namespace Qx86

open Foundation Outcome

variable {σ : Type} {hv : Hypervisor σ} {n : ℕ} {m : Machine σ}

/-- Every cycle of a run looks ahead without harm. -/
def PredictedRun (hv : Hypervisor σ) (n : ℕ) (m : Machine σ) : Prop :=
  ∀ c, Reaches (cycle hv) (start n m) c → Predicted (c.machine.vm.visits n)

/-- No REP prefix of a run without gas can be overwritten by what it repeats. -/
def RepFixedRun (hv : Hypervisor σ) (c : Core σ) : Prop :=
  ∀ c', Reaches (Core.step hv) c c' → c'.RepFixed

section Cycles

def Core.Foreseeable (c : Core σ) (n : ℕ) : Prop :=
  ∀ vm : VM, vm.processor = c.processor → vm.memory = c.memory → Predicted (vm.visits n)

/-- A metered run comes to no states but those of the run without gas, if looking ahead is
harmless in these. -/
theorem reaches_core (hu : hv.Unmetered) (hn : 0 < n) (hrep : RepFixedRun hv m.core)
    (h : ∀ c, Reaches (Core.step hv) m.core c → c.Foreseeable n) {c : Running σ}
    (hc : Reaches (cycle hv) (start n m) c) : Reaches (Core.step hv) m.core c.machine.core := by
  obtain ⟨k, hk⟩ := hc
  have hlen : (start n m).pipeline.length = n := by simp [start, emptyPipeline]
  change Reaches (Core.step hv) (start n m).machine.core c.machine.core
  change ∀ c, Reaches (Core.step hv) (start n m).machine.core c → c.Foreseeable n at h
  change RepFixedRun hv (start n m).machine.core at hrep
  generalize start n m = d at hk hlen h hrep
  induction k generalizing d with
  | zero =>
    cases hk
    exact .refl ..
  | succ k ih =>
    have hne : d.pipeline ≠ [] := List.length_pos_iff.mp (hlen ▸ hn)
    obtain ⟨j, hj⟩ : MacroStep (cycle hv) (stepOne hv) Running.machine d :=
      macroStep_cycle hne (hlen.symm ▸ h _ (.refl ..) d.machine.vm rfl rfl)
    cases hd : cycle hv d with
    | inr r =>
      rw [iterate_succ_inr hd] at hk
      cases hk
    | inl e =>
      rw [iterate_succ_inl hd] at hk
      rw [hd] at hj
      have hone : Reaches (stepOne hv) d.machine e.machine := ⟨j + 1, hj⟩
      have hcore := hone.covers (P := Core.RepFixed) (fun _ ↦ stepOne_covers hu) hrep
      exact hcore.trans (ih e hk ((cycle_pipeline_length hd).trans hlen)
        (fun c hc ↦ h c (hcore.trans hc)) fun c hc ↦ hrep c (hcore.trans hc))

theorem predictedRun_of_core (hu : hv.Unmetered) (hn : 0 < n) (hrep : RepFixedRun hv m.core)
    (h : ∀ c, Reaches (Core.step hv) m.core c → c.Foreseeable n) : PredictedRun hv n m :=
  fun c hc ↦ h _ (reaches_core hu hn hrep h hc) c.machine.vm rfl rfl

end Cycles

section Listings

/-- An instruction with its address, and with the one that filling decodes after it. -/
def VM.Shows (vm : VM) (l : List (BitVec 32 × Pipeline)) (e : BitVec 32 × Pipeline) : Prop :=
  ∃ f, vm.decodeAt false e.1 = .ok f ∧ f.slot.unpriced = e.2 ∧
    (f.stop = false → ∃ e' ∈ l, e'.1 = f.next)

instance decidable_shows (vm : VM) (l : List (BitVec 32 × Pipeline)) (e : BitVec 32 × Pipeline) :
    Decidable (vm.Shows l e) :=
  match h : vm.decodeAt false e.1 with
  | .ok f => decidable_of_iff
      (f.slot.unpriced = e.2 ∧ (f.stop = false → ∃ e' ∈ l, e'.1 = f.next)) (by simp [VM.Shows, h])
  | .err _ => .isFalse (by simp [VM.Shows, h])
  | .panic => .isFalse (by simp [VM.Shows, h])

/-- Instructions in read-only memory with their addresses, closed under what filling
decodes after them. -/
def VM.Lists (vm : VM) (l : List (BitVec 32 × Pipeline)) : Prop :=
  ∀ e ∈ l, e.1 < WRITEABLE_MEMORY ∧ e.2.ArgFree ∧ e.2.function ≠ .opcode (.logic .enter) ∧
    vm.Shows l e

instance decidable_lists (vm : VM) (l : List (BitVec 32 × Pipeline)) : Decidable (vm.Lists l) :=
  inferInstanceAs (Decidable (∀ _ ∈ l, _))

def Core.Listed (l : List (BitVec 32 × Pipeline)) (c : Core σ) : Prop :=
  c.machine.vm.Lists l ∧ ∃ e ∈ l, e.1 = c.processor.eip

namespace VM.Lists

variable {vm vm' : VM} {l : List (BitVec 32 × Pipeline)}

theorem congr (h : vm.Lists l) (hw : ∀ e ∈ l,
    vm.memory.getSizedMemory e.1 16 = vm'.memory.getSizedMemory e.1 16) : vm'.Lists l := by
  intro e he
  obtain ⟨hro, harg, hne, f, hf, hs, hnext⟩ := h e he
  have hdec := decodeAt_unpriced (hw e he) false
  rw [hf] at hdec
  generalize hf' : vm'.decodeAt false e.1 = d at hdec
  cases hdec with
  | @ok _ f' hu =>
    obtain ⟨hslot, hnext', hstop⟩ := Filled.mk.inj hu
    refine ⟨hro, harg, hne, f', hf', hslot ▸ hs, fun hst ↦ ?_⟩
    rw [← hnext']
    exact hnext (hstop.trans hst)

theorem walk (h : vm.Lists l) {a : BitVec 32} (ha : ∃ e ∈ l, e.1 = a) (n : ℕ) (gas : BitVec 64) :
    ∀ v ∈ vm.walk false n a gas, v.eip < WRITEABLE_MEMORY ∧
      ∃ f, v.decoded = .ok f ∧ f.slot.ArgFree ∧ f.slot.function ≠ .opcode (.logic .enter) := by
  induction n generalizing a gas with
  | zero => simp [VM.walk]
  | succ n ih =>
    obtain ⟨e, he, rfl⟩ := ha
    obtain ⟨hro, harg, hne, f, hf, hs, hnext⟩ := h e he
    rw [← hs] at harg hne
    intro v hv
    rw [walk_of_ok hf] at hv
    obtain rfl | hv := List.mem_cons.mp hv
    · exact ⟨hro, f, rfl, harg, hne⟩
    · split at hv
      · cases hv
      · next hstop =>
        rw [Bool.or_eq_true, not_or, Bool.not_eq_true] at hstop
        exact ih (hnext hstop.1) _ v hv

theorem predicted (h : vm.Lists l) (ha : ∃ e ∈ l, e.1 = vm.eip) (n : ℕ) :
    Predicted (vm.visits n) := by
  have hro : writeableAt vm.eip = false := by
    obtain ⟨e, he, hea⟩ := ha
    exact hea ▸ writeableAt_eq_false.mpr (h e he).1
  have hall := h.walk ha n vm.gasRemaining
  rw [VM.visits, hro]
  refine ⟨fun v hv ↦ (hall v (List.mem_of_mem_tail hv)).1, fun v hv ↦ ?_, fun v hv f hf ↦ ?_⟩
  · obtain ⟨-, f, hf, harg, -⟩ := hall v (List.mem_of_mem_tail hv)
    exact ⟨f, hf, harg⟩
  · obtain ⟨-, f', hf', -, hne⟩ := hall v (List.mem_of_mem_dropLast hv)
    cases hf.symm.trans hf'
    exact hne

end VM.Lists

namespace Core.Listed

variable {l : List (BitVec 32 × Pipeline)} {c : Core σ}

theorem foreseeable (h : c.Listed l) (n : ℕ) : c.Foreseeable n := by
  intro vm hp hm
  have heip : vm.eip = c.processor.eip := congrArg Processor.eip hp
  have hl : vm.Lists l := h.1.congr fun e _ ↦ by rw [hm]; rfl
  exact hl.predicted (heip ▸ h.2) n

theorem repFixed (h : c.Listed l) : c.RepFixed := by
  obtain ⟨hl, e, he, hea⟩ := h
  exact fun _ _ _ ↦ hea ▸ (hl e he).1

theorem step_eq {a : BitVec 32} {p : Pipeline} (hl : c.machine.vm.Lists l) (he : (a, p) ∈ l)
    (ha : c.processor.eip = a) : Core.step hv c = Core.execute hv p c := by
  obtain ⟨hro, -, -, f, hf, hs, -⟩ := hl (a, p) he
  have hdec : c.machine.vm.decodeAt (writeableAt c.processor.eip) c.processor.eip = .ok f := by
    rw [ha, writeableAt_eq_false.mpr hro]
    exact hf
  have hp : f.slot.unpriced = p.unpriced := by
    rw [show p = f.slot.unpriced from hs.symm]
    rfl
  rw [Core.step, hdec]
  exact execute_unpriced hp c

end Core.Listed

end Listings

end Qx86
