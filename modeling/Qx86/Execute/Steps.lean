import Qx86.Execute.Cycle

namespace Qx86

open Foundation

variable {σ : Type} {hv : Hypervisor σ}

def trace (hv : Hypervisor σ) : List Pipeline → Machine σ → List (Pipeline × Machine σ)
  | [], _ => []
  | p :: ps, m =>
    (p, m) :: match runSlot hv p m with
      | .inl m => trace hv ps m
      | .inr _ => []

theorem mem_of_mem_trace {ps : List Pipeline} {m : Machine σ} {x : Pipeline × Machine σ}
    (h : x ∈ trace hv ps m) : x.1 ∈ ps := by
  induction ps generalizing m with
  | nil => cases h
  | cons p ps ih =>
    obtain rfl | h := List.mem_cons.mp h
    · exact List.mem_cons_self
    · split at h
      · exact List.mem_cons_of_mem _ (ih h)
      · cases h

theorem runSlots_inr_iff {ps : List Pipeline} {m : Machine σ}
    {r : Outcome VMError Bool × Machine σ} :
    runSlots hv ps m = .inr r ↔ ∃ p t, (p, t) ∈ trace hv ps m ∧ runSlot hv p t = .inr r := by
  induction ps generalizing m with
  | nil => exact iff_of_false nofun fun ⟨_, _, h, _⟩ ↦ nomatch h
  | cons q ps ih =>
    simp only [runSlots, trace, List.mem_cons, Prod.mk.injEq]
    cases hs : runSlot hv q m with
    | inl m₁ =>
      refine ih.trans ⟨?_, ?_⟩
      · rintro ⟨p, t, ht, hp⟩
        exact ⟨p, t, .inr ht, hp⟩
      · rintro ⟨p, t, ⟨rfl, rfl⟩ | ht, hp⟩
        · cases hs.symm.trans hp
        · exact ⟨p, t, ht, hp⟩
    | inr r' =>
      constructor
      · intro hr
        exact ⟨q, m, .inl ⟨rfl, rfl⟩, hs.trans hr⟩
      · rintro ⟨p, t, ⟨rfl, rfl⟩ | ht, hp⟩
        · exact hs.symm.trans hp
        · cases ht

def ComesTo (hv : Hypervisor σ) (c : Running σ) (p : Pipeline) (m : Machine σ) : Prop :=
  ∃ c' slots, Reaches (cycle hv) c c' ∧
    fillPipeline c'.machine.vm OPCODES c'.pipeline = .ok slots ∧ (p, m) ∈ trace hv slots c'.machine

/-- The machines that a run shows: between two cycles, between two slots of a cycle,
and at its end. -/
inductive Point (hv : Hypervisor σ) (c : Running σ) : Machine σ → Prop
  | between (c' : Running σ) (h : Reaches (cycle hv) c c') : Point hv c c'.machine
  | slot (c' : Running σ) (slots : List Pipeline) (p : Pipeline) (m : Machine σ)
      (h : Reaches (cycle hv) c c')
      (hf : fillPipeline c'.machine.vm OPCODES c'.pipeline = .ok slots)
      (hm : (p, m) ∈ trace hv slots c'.machine) : Point hv c m
  | finish (r : Outcome VMError Bool) (m : Machine σ) (h : Finishes (cycle hv) c (r, m)) :
      Point hv c m

/-- Relations that every elementary step of the virtual machine keeps. -/
structure StepRelation (hv : Hypervisor σ) (R : Machine σ → Machine σ → Prop) : Prop where
  refl (m : Machine σ) : R m m
  trans {m m' m'' : Machine σ} : R m m' → R m' m'' → R m m''
  charge (m : Machine σ) (cost : BitVec 64) : R m (m.charge cost)
  advance (m : Machine σ) (n : BitVec 8) : R m (m.advance n)
  fail (m : Machine σ) : R m m.fail
  count (m : Machine σ) (s : Bool) : R m { m with vm := m.vm.decrementRegw .ecx s }
  logic (m : Machine σ) (f : LogicFn) (p : Pipeline) :
    R m { m with vm := ((f.logic p).run m.vm).2 }
  interrupt (m : Machine σ) (n : BitVec 8) :
    R m ⟨(hv.interrupt m.vm n m.host).2.1, (hv.interrupt m.vm n m.host).2.2⟩

namespace StepRelation

variable {R : Machine σ → Machine σ → Prop} (hR : StepRelation hv R)

include hR

theorem opcodeCall (f : OpcodeFn) (p : Pipeline) (m : Machine σ) : R m (f.call hv p m).2 := by
  cases f with
  | logic f => exact hR.logic m f p
  | interrupt =>
    simp only [OpcodeFn.call]
    split
    · exact hR.refl m
    · exact hR.interrupt m _

theorem repPass (p : Pipeline) (cost : BitVec 64) (m : Machine σ) :
    R m (repPass hv p cost m).2 := by
  have h := hR.opcodeCall (repOpcode p.opcode).function p m
  unfold Qx86.repPass
  split
  · next m' heq =>
    rw [heq] at h
    exact hR.trans h (hR.trans (hR.count m' p.sizeOverride) (hR.charge _ cost))
  · exact h

theorem repLoop (p : Pipeline) (cost : BitVec 64) (verdict : VM → Outcome VMError Bool)
    (n : ℕ) (m : Machine σ) : R m (repLoop hv p cost verdict n m).2 := by
  induction n generalizing m with
  | zero => exact hR.refl m
  | succ n ih =>
    have h := hR.repPass p cost m
    simp only [Qx86.repLoop]
    split
    · exact hR.refl m
    · split
      · exact hR.refl m
      · split
        · next m' heq =>
          rw [heq] at h
          split
          · exact hR.trans h (ih m')
          all_goals exact h
        · exact h

theorem slotCall (f : SlotFn) (p : Pipeline) (m : Machine σ) : R m (f.call hv p m).2 := by
  cases f with
  | opcode f => exact hR.opcodeCall f p m
  | repe => exact hR.repLoop ..
  | repne =>
    simp only [SlotFn.call, repne]
    split
    · exact hR.repLoop ..
    · exact hR.refl m

theorem runSlot_inl {p : Pipeline} {m m' : Machine σ} (h : runSlot hv p m = .inl m') :
    R m m' := by
  have hc := hR.trans (hR.charge m p.gasCost) (hR.slotCall p.function p (m.charge p.gasCost))
  simp only [runSlot] at h
  split at h
  · cases h
  · split at h
    · next heq =>
      cases h
      rw [heq] at hc
      exact hR.trans hc (hR.advance _ _)
    all_goals cases h

theorem runSlot_inr {p : Pipeline} {m m' : Machine σ} {r : Outcome VMError Bool}
    (h : runSlot hv p m = .inr (r, m')) : R m m' := by
  have hg := hR.charge m p.gasCost
  have hc := hR.trans hg (hR.slotCall p.function p (m.charge p.gasCost))
  simp only [runSlot] at h
  split at h
  · cases h
    exact hg
  · split at h
    · cases h
    · next heq =>
      rw [heq] at hc
      split at h
      · cases h
        exact hc
      · cases h
        exact hR.trans hc (hR.fail _)
    · next heq =>
      cases h
      rw [heq] at hc
      exact hc

theorem runSlots_inl {ps : List Pipeline} {m m' : Machine σ}
    (h : runSlots hv ps m = .inl m') : R m m' := by
  induction ps generalizing m with
  | nil => cases h; exact hR.refl _
  | cons p ps ih =>
    simp only [runSlots] at h
    split at h
    · next hp => exact hR.trans (hR.runSlot_inl hp) (ih h)
    · cases h

theorem runSlots_inr {ps : List Pipeline} {m m' : Machine σ} {r : Outcome VMError Bool}
    (h : runSlots hv ps m = .inr (r, m')) : R m m' := by
  induction ps generalizing m with
  | nil => cases h
  | cons p ps ih =>
    simp only [runSlots] at h
    split at h
    · next hp => exact hR.trans (hR.runSlot_inl hp) (ih h)
    · next hp => cases h; exact hR.runSlot_inr hp

theorem trace_mem {ps : List Pipeline} {m m' : Machine σ} {p : Pipeline}
    (h : (p, m') ∈ trace hv ps m) : R m m' := by
  induction ps generalizing m with
  | nil => cases h
  | cons q ps ih =>
    simp only [trace, List.mem_cons, Prod.mk.injEq] at h
    obtain ⟨-, rfl⟩ | h := h
    · exact hR.refl m'
    · split at h
      · next hq => exact hR.trans (hR.runSlot_inl hq) (ih h)
      · cases h

theorem cycle_inl {c c' : Running σ} (h : cycle hv c = .inl c') : R c.machine c'.machine :=
  hR.runSlots_inl (cycle_eq_inl h).2

theorem cycle_inr {c : Running σ} {r : Outcome VMError Bool} {m : Machine σ}
    (h : cycle hv c = .inr (r, m)) : R c.machine m := by
  simp only [cycle] at h
  split at h
  · next slots _ =>
    cases hr : runSlots hv slots c.machine with
    | inl m => rw [hr] at h; cases h
    | inr r =>
      rw [hr] at h
      cases h
      exact hR.runSlots_inr hr
  all_goals cases h; exact hR.refl _

theorem reaches {c c' : Running σ} (h : Reaches (cycle hv) c c') : R c.machine c'.machine :=
  h.invariant (P := fun d ↦ R c.machine d.machine)
    (fun _ _ hs hd ↦ hR.trans hd (hR.cycle_inl hs)) (hR.refl _)

/-- A relation that every elementary step keeps relates the start of a run to each of
its points. -/
theorem point {c : Running σ} {m : Machine σ} (h : Point hv c m) : R c.machine m := by
  cases h with
  | between c' h => exact hR.reaches h
  | slot c' slots p _ h _ hm => exact hR.trans (hR.reaches h) (hR.trace_mem hm)
  | finish r _ h =>
    obtain ⟨c', h', hs⟩ := h.last
    exact hR.trans (hR.reaches h') (hR.cycle_inr hs)

end StepRelation

end Qx86
