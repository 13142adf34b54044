import Qx86.Execute.Foresight
import Qx86.Foundation.Triples
import Qx86.Properties.GasMetering

namespace Qx86

open Foundation

variable {σ : Type} {hv : Hypervisor σ}

section Refinement

variable (hu : hv.Unmetered) {n : ℕ} (hn : 0 < n) {m : Machine σ}
  (hpred : PredictedRun hv n m) (hrep : RepFixedRun hv m.core)

section

include hu hn hpred hrep

theorem finishes_core {r : Outcome VMError Bool × Machine σ}
    (hr : Finishes (cycle hv) (start n m) r) :
    (r.1 = .err .outOfGas ∧ Reaches (Core.step hv) m.core r.2.core) ∨
      r.1 ≠ .err .outOfGas ∧ Finishes (Core.step hv) m.core (r.1, r.2.core) := by
  have hone := (finishes_iff_stepOne hv hn m hpred r).mp hr
  have hcovers := hone.covers (P := Core.RepFixed) (fun _ ↦ stepOne_covers hu) hrep
  obtain ⟨ho, hreach⟩ | hfin := hcovers
  · exact .inl ⟨ho, hreach⟩
  · refine .inr ⟨fun ho ↦ ?_, hfin⟩
    obtain ⟨c, -, hlast⟩ := hfin.last
    exact step_ne_outOfGas (c := r.2.core) hu c (by rw [hlast, ← ho]; rfl)

theorem core_finishes {q : Outcome VMError Bool × Core σ} (hq : Finishes (Core.step hv) m.core q) :
    ∃ r, Finishes (cycle hv) (start n m) r ∧ (r.1 = .err .outOfGas ∨ (r.1, r.2.core) = q) := by
  obtain ⟨r, hr, he⟩ :=
    Finishes.of_covers (P := Core.RepFixed) (fun _ ↦ stepOne_covers hu) hrep hq
  exact ⟨r, (finishes_iff_stepOne hv hn m hpred r).mpr hr, he⟩

end

theorem ends_metered (hu : hv.Unmetered) (hn : 0 < n) {l : List (BitVec 32 × Pipeline)}
    {P : Core σ → Prop} {E : Outcome VMError Bool × Core σ → Prop}
    (h : Ends (Core.step hv) (Core.Listed l) P E) (hP : P m.core) :
    ∃ q, Finishes (Core.step hv) m.core q ∧ E q ∧
      ∃ r, Finishes (cycle hv) (start n m) r ∧ (r.1 = .err .outOfGas ∨ (r.1, r.2.core) = q) := by
  obtain ⟨⟨q, hq, hE⟩, hl⟩ := h m.core hP
  have hrep : RepFixedRun hv m.core := fun c hc ↦ (hl c hc).repFixed
  have hpred := predictedRun_of_core hu hn hrep fun c hc ↦ (hl c hc).foreseeable n
  exact ⟨q, hq, hE, core_finishes hu hn hpred hrep hq⟩

end Refinement

/-- Metering only ever ends a run early: a run refines the machine that neither counts nor
charges, and one that is out of gas stopped at a state that this machine passes through. -/
theorem metering_erased (hv : Hypervisor σ) (hu : hv.Unmetered) {n : ℕ} (hn : 0 < n)
    (m : Machine σ) (hpred : PredictedRun hv n m) (hrep : RepFixedRun hv m.core) :
    (∀ r m', Finishes (cycle hv) (start n m) (r, m') →
      if r = .err .outOfGas then Reaches (Core.step hv) m.core m'.core
      else Finishes (Core.step hv) m.core (r, m'.core)) ∧
    ∀ r c, Finishes (Core.step hv) m.core (r, c) →
      ∃ r' m', Finishes (cycle hv) (start n m) (r', m') ∧
        (r' = .err .outOfGas ∨ r' = r ∧ m'.core = c) := by
  constructor
  · intro r m' hr
    obtain ⟨rfl, hreach⟩ | ⟨ho, hfin⟩ := finishes_core hu hn hpred hrep hr
    · rw [if_pos rfl]
      exact hreach
    · rw [if_neg ho]
      exact hfin
  · intro r c hq
    obtain ⟨⟨r', m'⟩, hr, he⟩ := core_finishes hu hn hpred hrep hq
    exact ⟨r', m', hr, he.imp id fun he ↦ ⟨congrArg Prod.fst he, congrArg Prod.snd he⟩⟩

theorem testHypervisor_unmetered : testHypervisor.Unmetered where
  alike _ _ n _ _ hvm hst := .same ⟨hvm, congrArg (n :: ·) hst⟩
  ne_outOfGas _ _ _ := nofun

def twoStosb : Machine (List (BitVec 8)) :=
  { repStosb with vm := repStosb.vm.setReg32 .ecx 2 }

theorem repFixed_of_readOnly {c : Core σ} (h : c.processor.eip < WRITEABLE_MEMORY) : c.RepFixed :=
  fun _ _ _ ↦ h

theorem twoStosb_repFixed : RepFixedRun testHypervisor twoStosb.core := fun _ hc ↦
  repFixed_of_readOnly <| hc.all_of_iterate (n := 4)
    (P := fun c ↦ c.processor.eip < WRITEABLE_MEMORY) (by decide +kernel) (by decide +kernel)

theorem twoStosb_predicted : PredictedRun testHypervisor PIPELINE_SIZE (twoStosb.setGas 11) :=
  fun _ hc ↦ hc.all_of_iterate (n := 1)
    (P := fun c ↦ Predicted (c.machine.vm.visits PIPELINE_SIZE)) (by decide +kernel)
    (by decide +kernel)

/-- With 11 units of gas one of the two bytes is stored. -/
theorem metering_erased_twoStosb : ∃ m', m'.vm.regs .ecx = 1 ∧
    Reaches (Core.step testHypervisor) twoStosb.core (Machine.core m') := by
  obtain ⟨⟨_, m'⟩, hr, he⟩ := Finishes.of_getRight
    (show (iterate (cycle testHypervisor) 1
      (start PIPELINE_SIZE (twoStosb.setGas 11))).getRight?.map
        (fun r ↦ (r.1, r.2.vm.regs .ecx)) = some (.err .outOfGas, 1) by decide +kernel)
  obtain ⟨rfl, hecx⟩ := Prod.mk.inj he
  have hreach := (metering_erased testHypervisor testHypervisor_unmetered (by decide)
    (twoStosb.setGas 11) twoStosb_predicted twoStosb_repFixed).1 _ _ hr
  rw [if_pos rfl] at hreach
  exact ⟨m', hecx, hreach⟩

/-- Runs one after the other: what ends for want of gas goes on from the state it stopped
in, with any gas, any prices and any length of the pipeline. -/
inductive Sessions (hv : Hypervisor σ) : Machine σ → Outcome VMError Bool × Machine σ → Prop
  | finish (n : ℕ) (m : Machine σ) (r : Outcome VMError Bool × Machine σ) (hn : 0 < n)
      (hpred : PredictedRun hv n m) (hr : Finishes (cycle hv) (start n m) r)
      (ho : r.1 ≠ .err .outOfGas) : Sessions hv m r
  | refill (n : ℕ) (m m₁ m₂ : Machine σ) (r : Outcome VMError Bool × Machine σ) (hn : 0 < n)
      (hpred : PredictedRun hv n m) (hr : Finishes (cycle hv) (start n m) (.err .outOfGas, m₁))
      (hm : m₂.core = m₁.core) (rest : Sessions hv m₂ r) : Sessions hv m r

theorem Sessions.core (hu : hv.Unmetered) {m : Machine σ} {r : Outcome VMError Bool × Machine σ}
    (h : Sessions hv m r) (hrep : RepFixedRun hv m.core) :
    Finishes (Core.step hv) m.core (r.1, r.2.core) := by
  induction h with
  | finish n m r hn hpred hr ho =>
    exact ((finishes_core hu hn hpred hrep hr).resolve_left fun h ↦ ho h.1).2
  | refill n m m₁ m₂ r hn hpred hr hm _ ih =>
    obtain ⟨-, hreach⟩ | ⟨ho, -⟩ := finishes_core hu hn hpred hrep hr
    · have hfin := ih fun c hc ↦ hrep c (hreach.trans (hm ▸ hc))
      rw [hm] at hfin
      exact .of_reaches hreach hfin
    · exact absurd rfl ho

/-- However often a program is out of gas and given more, at whatever prices and with
whatever pipelines, it ends as it would have. -/
theorem sessions_agree (hv : Hypervisor σ) (hu : hv.Unmetered) (m m' : Machine σ)
    (hcore : m.core = m'.core) (hrep : RepFixedRun hv m.core)
    (r r' : Outcome VMError Bool × Machine σ) (h : Sessions hv m r) (h' : Sessions hv m' r') :
    r.1 = r'.1 ∧ r.2.core = r'.2.core := by
  have hfin := h.core hu hrep
  have hfin' := h'.core hu (hcore ▸ hrep)
  rw [← hcore] at hfin'
  exact Prod.mk.inj (hfin.unique hfin')

/-- Two `stosb` under REP after the first of them, with more gas and other prices. -/
def secondStosb : Machine (List (BitVec 8)) :=
  match cycle testHypervisor (start PIPELINE_SIZE (twoStosb.setGas 11)) with
  | .inl c => c.machine
  | .inr (_, m) => { m with vm := { m.vm with gasRemaining := 100, charger := ⟨fun _ ↦ 7⟩ } }

/-- Broken off between its two bytes and repriced, the program ends as it does without a
break. -/
theorem sessions_agree_twoStosb : ∃ r r', Sessions testHypervisor (twoStosb.setGas 11) r ∧
    Sessions testHypervisor twoStosb r' ∧ r.1 = r'.1 ∧ r.2.core = r'.2.core := by
  have hbroke : (cycle testHypervisor (start PIPELINE_SIZE (twoStosb.setGas 11))).getRight?.map
      Prod.fst = some (.err .outOfGas) := by
    decide +kernel
  have hcore : secondStosb.core = (cycle testHypervisor
      (start PIPELINE_SIZE (twoStosb.setGas 11))).elim (·.machine.core) (·.2.core) := by
    unfold secondStosb
    cases cycle testHypervisor (start PIPELINE_SIZE (twoStosb.setGas 11)) <;> rfl
  obtain ⟨r, hr, he⟩ := Finishes.of_getRight
    (show (iterate (cycle testHypervisor) 2 (start 1 secondStosb)).getRight?.map Prod.fst =
      some (.ok true) by decide +kernel)
  obtain ⟨r', hr', he'⟩ := Finishes.of_getRight
    (show (iterate (cycle testHypervisor) 2 (start PIPELINE_SIZE twoStosb)).getRight?.map
      Prod.fst = some (.ok true) by decide +kernel)
  have hlast : Sessions testHypervisor secondStosb r :=
    .finish 1 _ _ (by decide) (fun _ _ ↦ predicted_visits_one _) hr fun ho ↦ by
      rw [he] at ho
      cases ho
  have hwhole : Sessions testHypervisor twoStosb r' :=
    .finish PIPELINE_SIZE _ _ (by decide) (fun _ hc ↦ hc.all_of_iterate (n := 2)
      (P := fun c ↦ Predicted (c.machine.vm.visits PIPELINE_SIZE)) (by decide +kernel)
      (by decide +kernel)) hr' fun ho ↦ by rw [he'] at ho; cases ho
  cases hc : cycle testHypervisor (start PIPELINE_SIZE (twoStosb.setGas 11)) with
  | inl c =>
    rw [hc] at hbroke
    cases hbroke
  | inr q =>
    rw [hc] at hbroke hcore
    obtain ⟨_, m₁⟩ := q
    cases hbroke
    have hfirst : Sessions testHypervisor (twoStosb.setGas 11) r :=
      .refill PIPELINE_SIZE _ m₁ _ _ (by decide) twoStosb_predicted (.single hc) hcore hlast
    exact ⟨r, r', hfirst, hwhole, sessions_agree testHypervisor testHypervisor_unmetered
      (twoStosb.setGas 11) twoStosb rfl twoStosb_repFixed r r' hfirst hwhole⟩

end Qx86
