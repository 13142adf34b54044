import Qx86.Decode.Fill
import Qx86.Execute.Host
import Qx86.Foundation.Iteration

namespace Qx86

open Foundation

variable {σ : Type}

/-- How one slot of a filled pipeline leaves the machine: the next slot may run, or
the cycle is over with a result. -/
def runSlot (hv : Hypervisor σ) (p : Pipeline) (m : Machine σ) :
    Machine σ ⊕ (Outcome VMError Bool × Machine σ) :=
  if m.vm.gasRemaining < p.gasCost then .inr (.err .outOfGas, m.charge p.gasCost)
  else
    match p.function.call hv p (m.charge p.gasCost) with
    | (.ok _, m) => .inl (m.advance p.eipSize)
    | (.err e, m) => .inr (if e = .internalVMStop then (.ok true, m) else (.err e, m.fail))
    | (.panic, m) => .inr (.panic, m)

def runSlots (hv : Hypervisor σ) : List Pipeline → Machine σ →
    Machine σ ⊕ (Outcome VMError Bool × Machine σ)
  | [], m => .inl m
  | p :: ps, m =>
    match runSlot hv p m with
    | .inl m => runSlots hv ps m
    | .inr r => .inr r

/-- A machine between two cycles, with the reused buffer of its pipeline. -/
structure Running (σ : Type) where
  machine : Machine σ
  pipeline : List Pipeline

/-- The result of a cycle: `Ok(false)` leads to the next cycle, anything else ends
`execute`, and with it the buffer. -/
def cycle (hv : Hypervisor σ) (c : Running σ) :
    Running σ ⊕ (Outcome VMError Bool × Machine σ) :=
  match fillPipeline c.machine.vm OPCODES c.pipeline with
  | .ok slots => (runSlots hv slots c.machine).map (⟨·, slots⟩) id
  | .err e => .inr (.err e, c.machine)
  | .panic => .inr (.panic, c.machine)

theorem cycle_eq_inl {hv : Hypervisor σ} {c c' : Running σ} (h : cycle hv c = .inl c') :
    fillPipeline c.machine.vm OPCODES c.pipeline = .ok c'.pipeline ∧
      runSlots hv c'.pipeline c.machine = .inl c'.machine := by
  simp only [cycle] at h
  split at h
  · next slots hf =>
    cases hr : runSlots hv slots c.machine with
    | inl m => rw [hr] at h; cases h; exact ⟨hf, hr⟩
    | inr r => rw [hr] at h; cases h
  all_goals cases h

def PIPELINE_SIZE : ℕ := 16

def emptyPipeline (n : ℕ) : List Pipeline := List.replicate n default

/-- `execute` starts from a fresh buffer and runs cycles until one does not return
`Ok(false)`. -/
def start (n : ℕ) (m : Machine σ) : Running σ := ⟨m, emptyPipeline n⟩

def Executes (hv : Hypervisor σ) (m : Machine σ) (r : Outcome VMError Bool × Machine σ) :
    Prop :=
  Finishes (cycle hv) (start PIPELINE_SIZE m) r

end Qx86
