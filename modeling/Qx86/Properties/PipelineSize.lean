import Qx86.Execute.Image
import Qx86.Execute.Prediction

namespace Qx86

open Foundation

variable {σ : Type}

/-- A run whose cycles are all predicted has the results of the machine that executes
one instruction at a time. -/
theorem finishes_iff_stepOne (hv : Hypervisor σ) {n : ℕ} (hn : 0 < n) (m : Machine σ)
    (h : ∀ c, Reaches (cycle hv) (start n m) c → Predicted (c.machine.vm.visits n))
    (r : Outcome VMError Bool × Machine σ) :
    Finishes (cycle hv) (start n m) r ↔ Finishes (stepOne hv) m r := by
  refine @finishes_iff_of_macroStep _ _ _ _ _ _ Running.machine (fun c hc ↦ ?_) r
  have hlen := reaches_pipeline_length hc
  refine macroStep_cycle (List.length_pos_iff.mp (by omega)) ?_
  rw [hlen]
  exact h c hc

theorem predicted_visits_one (vm : VM) : Predicted (vm.visits 1) := by
  apply Predicted.of_length_le_one
  simp only [VM.visits, VM.walk]
  split <;> simp

/-- The size of the pipeline does not affect the results of a run in which every cycle
is predicted. -/
theorem pipeline_size_unobservable (hv : Hypervisor σ) (n : ℕ) (hn : 0 < n) (m : Machine σ)
    (h : ∀ c, Reaches (cycle hv) (start n m) c → Predicted (c.machine.vm.visits n))
    (r : Outcome VMError Bool × Machine σ) :
    Finishes (cycle hv) (start n m) r ↔ Finishes (cycle hv) (start 1 m) r := by
  rw [finishes_iff_stepOne hv hn m h,
    finishes_iff_stepOne hv Nat.one_pos m fun c _ ↦ predicted_visits_one _]

def incHlt : BufferMemory :=
  ⟨[0x40, 0xF4] ++ List.replicate 16 0, by decide⟩

theorem pipeline_size_unobservable_incHlt :
    ∃ r, r.1 = .ok true ∧
      Finishes (cycle testHypervisor) (start PIPELINE_SIZE (createMachine incHlt)) r ∧
      Finishes (cycle testHypervisor) (start 1 (createMachine incHlt)) r := by
  obtain ⟨r, hr, he⟩ := Finishes.of_getRight
    (show (iterate (cycle testHypervisor) 1
      (start PIPELINE_SIZE (createMachine incHlt))).getRight?.map Prod.fst =
        some (.ok true) by decide +kernel)
  have hstop : (cycle testHypervisor (start PIPELINE_SIZE (createMachine incHlt))).isRight =
      true := by
    decide +kernel
  obtain ⟨s, hs⟩ := Sum.isRight_iff.mp hstop
  have hiff := pipeline_size_unobservable testHypervisor PIPELINE_SIZE (by decide)
    (createMachine incHlt) (fun c hc ↦ by
      rw [hc.eq_of_inr hs]
      decide +kernel) r
  exact ⟨r, he, hr, hiff.mp hr⟩

/-- `aam 0` at the end of a section: the bytes after it cannot be decoded. -/
def aamZero : BufferMemory :=
  ⟨[0xD4, 0x00] ++ List.replicate 15 0, by decide⟩

/-- The fault met while looking past the division hides the error of the division. -/
theorem pipeline_size_observable_aamZero :
    ¬∀ r, Finishes (cycle testHypervisor) (start PIPELINE_SIZE (createMachine aamZero)) r ↔
      Finishes (cycle testHypervisor) (start 1 (createMachine aamZero)) r := by
  intro h
  obtain ⟨r, hr, he⟩ := Finishes.of_getRight
    (show (iterate (cycle testHypervisor) 1
      (start PIPELINE_SIZE (createMachine aamZero))).getRight?.map Prod.fst =
        some (.err (.readBadMemory 0x10011)) by decide +kernel)
  obtain ⟨r', hr', he'⟩ := Finishes.of_getRight
    (show (iterate (cycle testHypervisor) 1
      (start 1 (createMachine aamZero))).getRight?.map Prod.fst =
        some (.err .divideByZero) by decide +kernel)
  rw [((h r).mp hr).unique hr', he'] at he
  cases he

end Qx86
