import Qx86.Execute.Image
import Qx86.Execute.InLine
import Qx86.Execute.Prediction
import Qx86.Machine.Faults
import Qx86.Properties.StackFrames

namespace Qx86

open Foundation Outcome Operations

variable {σ : Type} {hv : Hypervisor σ}

section Slots

/-- An `enter` whose pushes, of the old frame pointer, its copies and the new one, find room. -/
def Pipeline.FrameFits (p : Pipeline) (vm : VM) : Prop :=
  ∃ n level, p.EntersFrame n level ∧
    ∃ t, vm.pushList (framePushes vm (level.toNat % 32)) = .ok t

/-- A slot whose function leaves `eip` where it is if it fails. A REPE slot runs its opcode
before it may refuse it. -/
def Pipeline.InPlace (hv : Hypervisor σ) (p : Pipeline) (m : Machine σ) : Prop :=
  match p.function with
  | .opcode (.logic f) => f = .enter → p.FrameFits m.vm
  | .opcode .interrupt => ∀ num e,
      m.vm.getArg (p.args 0).location >>= SizedValue.u8Exact = .ok num →
      (hv.interrupt m.vm num m.host).1 = .error e →
        (hv.interrupt m.vm num m.host).2.1.eip = m.vm.eip
  | .repe => (repOpcode p.opcode).function.staysInLine = true
  | .repne => True

theorem call_err_eip {p : Pipeline} {m m' : Machine σ} {e : VMError} (h : p.InPlace hv m)
    (hc : p.function.call hv p m = (.err e, m')) : m'.vm.eip = m.vm.eip := by
  unfold Pipeline.InPlace at h
  cases hf : p.function with
  | opcode f =>
    rw [hf] at h hc
    cases f with
    | logic f =>
      change ((OpcodeFn.logic f).call hv p m) = _ at hc
      rw [OpcodeFn.call_logic, Prod.mk.injEq] at hc
      obtain ⟨hr, rfl⟩ := hc
      by_cases hne : f = .enter
      · obtain ⟨n, level, hp, hroom⟩ := h hne
        subst hne
        cases hr.symm.trans ((enter_succeeds_iff hp).mpr hroom)
      · exact LogicFn.failsInPlace hne p m.vm e _ (Prod.ext hr rfl)
    | interrupt =>
      change OpcodeFn.interrupt.call hv p m = _ at hc
      rw [OpcodeFn.call] at hc
      split at hc
      · cases hc
        rfl
      · next num hnum =>
        rcases hi : hv.interrupt m.vm num m.host with ⟨r, vm, host⟩
        have hkeep := h num e hnum
        rw [hi] at hkeep hc
        rw [Prod.mk.injEq] at hc
        obtain ⟨hr, rfl⟩ := hc
        cases r with
        | ok => cases hr
        | error x =>
          cases hr
          exact hkeep rfl
  | repe =>
    rw [hf] at h hc
    have heip := repLoop_eip hv h (m.vm.charger.cost (repOpcode p.opcode).gasCost)
      (repeVerdict p.opcode) (m.vm.readRegw .ecx p.sizeOverride).toNat m
    change repLoop .. = _ at hc
    rw [hc] at heip
    exact heip
  | repne =>
    rw [hf] at hc
    change repne hv p m = _ at hc
    unfold repne at hc
    by_cases ho : repFlagOpcodes p.opcode = true
    · rw [if_pos ho] at hc
      have heip := repLoop_eip hv (staysInLine_of_string (.inl ho))
        (m.vm.charger.cost (repOpcode p.opcode).gasCost) repneVerdict
        (m.vm.readRegw .ecx p.sizeOverride).toNat m
      rw [hc] at heip
      exact heip
    · rw [if_neg ho] at hc
      cases hc
      rfl

theorem runSlot_fails {p : Pipeline} {m m' : Machine σ} {e : VMError} (he : e ≠ .outOfGas)
    (hp : p.InPlace hv (m.charge p.gasCost)) (h : runSlot hv p m = .inr (.err e, m')) :
    m'.vm.eip = m.vm.eip ∧ m'.vm.errorEip = m.vm.eip := by
  by_cases hg : m.vm.gasRemaining < p.gasCost
  · rw [runSlot_broke hg] at h
    cases h
    exact absurd rfl he
  · rw [runSlot_call hg] at h
    rcases hc : p.function.call hv p (m.charge p.gasCost) with ⟨_ | x | _, m₁⟩ <;> rw [hc] at h
    · cases h
    · have heip := call_err_eip hp hc
      simp only [endSlot] at h
      split at h
      · cases h
      · cases h
        exact ⟨heip, heip⟩
    · cases h

end Slots

section Runs

/-- A cycle in which no error can be misplaced: every instruction that its fill decodes is
found and decoded, looking ahead is harmless, and no function moves `eip` and then fails. -/
structure Locatable (hv : Hypervisor σ) (c : Running σ) : Prop where
  predicted : Predicted (c.machine.vm.visits c.pipeline.length)
  decodes : ∃ f, c.machine.vm.decodeAt (writeableAt c.machine.vm.eip) c.machine.vm.eip = .ok f
  inPlace : ∀ slots, fillPipeline c.machine.vm OPCODES c.pipeline = .ok slots →
    ∀ p t, (p, t) ∈ trace hv slots c.machine → p.InPlace hv (t.charge p.gasCost)

/-- The machine that executes one instruction at a time comes to an instruction that cannot
be fetched, decoded or executed, and its address is recorded. -/
structure ErrorLocated (hv : Hypervisor σ) (m : Machine σ) (e : VMError) (m' : Machine σ) :
    Prop where
  reached : ∃ t, Reaches (stepOne hv) m t ∧ stepOne hv t = .inr (.err e, m') ∧
    m'.vm.eip = t.vm.eip
  recorded : m'.vm.errorEip = m'.vm.eip

theorem Follows.fails {slots : List Pipeline} {m : Machine σ}
    {r : Outcome VMError Bool × Machine σ} (h : Follows hv slots m)
    (hr : runSlots hv slots m = .inr r) :
    ∃ p t, (p, t) ∈ trace hv slots m ∧ Reaches (stepOne hv) m t ∧ stepOne hv t = .inr r ∧
      runSlot hv p t = .inr r := by
  induction h with
  | idle ps m =>
    rw [runSlots_idle] at hr
    cases hr
  | cons p ps m hd _ ih =>
    rw [runSlots] at hr
    cases hs : runSlot hv p m with
    | inr r' =>
      rw [hs] at hr
      cases hr
      exact ⟨p, m, List.mem_cons_self, .refl _ m, hd.stepOne.trans hs, hs⟩
    | inl m₁ =>
      rw [hs] at hr
      obtain ⟨q, t, hmem, hreach, hone, hfail⟩ := ih m₁ hs hr
      refine ⟨q, t, ?_, .head (hd.stepOne.trans hs) hreach, hone, hfail⟩
      rw [trace, hs]
      exact List.mem_cons_of_mem _ hmem

theorem Locatable.fill {c : Running σ} (h : Locatable hv c) :
    ∃ slots, fillPipeline c.machine.vm OPCODES c.pipeline = .ok slots := by
  have hlen := clearPipeline_length c.pipeline
  apply fillLoop_ok
  intro v hv'
  rw [hlen] at hv'
  cases hc : c.pipeline.length with
  | zero =>
    rw [hc] at hv'
    cases hv'
  | succ n =>
    obtain ⟨f, hf⟩ := h.decodes
    have hdecodes := h.predicted.decodes
    rw [VM.visits, hc, walk_of_ok hf] at hdecodes
    rw [hc, walk_of_ok hf] at hv'
    obtain rfl | htail := List.mem_cons.mp hv'
    · exact ⟨f, rfl⟩
    · obtain ⟨g, hg, -⟩ := hdecodes v htail
      exact ⟨g, hg⟩

theorem Locatable.located {c : Running σ} (h : Locatable hv c) {e : VMError} {m' : Machine σ}
    (hr : cycle hv c = .inr (.err e, m')) (he : e ≠ .outOfGas) :
    ErrorLocated hv c.machine e m' := by
  obtain ⟨slots, hfill⟩ := h.fill
  have hrun : runSlots hv slots c.machine = .inr (.err e, m') := by
    simp only [cycle, hfill] at hr
    cases hs : runSlots hv slots c.machine with
    | inl => simp [hs] at hr
    | inr => simpa [hs] using hr
  obtain ⟨hfollows, -⟩ := @follows_cycle _ hv c slots hfill h.predicted
  obtain ⟨p, t, hmem, hreach, hone, hfail⟩ := hfollows.fails hrun
  obtain ⟨heip, herror⟩ := runSlot_fails he (h.inPlace slots hfill p t hmem) hfail
  exact ⟨⟨t, hreach, hone, heip⟩, herror.trans heip.symm⟩

theorem reaches_stepOne {c c' : Running σ} (hne : c.pipeline ≠ [])
    (h : ∀ d, Reaches (cycle hv) c d → Locatable hv d) (hr : Reaches (cycle hv) c c') :
    Reaches (stepOne hv) c.machine c'.machine := by
  obtain ⟨n, hn⟩ := hr
  induction n generalizing c with
  | zero =>
    cases hn
    exact .refl ..
  | succ n ih =>
    cases hs : cycle hv c with
    | inr r =>
      rw [iterate_succ_inr hs] at hn
      cases hn
    | inl d =>
      rw [iterate_succ_inl hs] at hn
      obtain ⟨k, hk⟩ := macroStep_cycle hne (h c (.refl ..)).predicted
      rw [hs] at hk
      have hd : d.pipeline ≠ [] := by
        intro hnil
        have hlen := cycle_pipeline_length hs
        rw [hnil] at hlen
        exact hne (List.length_eq_zero_iff.mp hlen.symm)
      exact .trans ⟨k + 1, hk⟩ (ih hd (fun d' hd' ↦ h d' (.head hs hd')) hn)

/-- An error has its place: a run whose cycles are all locatable and that ends with an error
other than `OutOfGas` ends at the instruction that fails, behind all that precede it, and
`error_eip` is the address of that instruction. -/
theorem error_located (m : Machine σ)
    (h : ∀ c, Reaches (cycle hv) (start PIPELINE_SIZE m) c → Locatable hv c) {e : VMError}
    {m' : Machine σ} (hr : Executes hv m (.err e, m')) (he : e ≠ .outOfGas) :
    ErrorLocated hv m e m' := by
  obtain ⟨c, hc, hlast⟩ := hr.last
  obtain ⟨⟨t, ht, hone, heip⟩, hrecorded⟩ := (h c hc).located hlast he
  have hreach := reaches_stepOne (show (start PIPELINE_SIZE m).pipeline ≠ [] from nofun) h hc
  exact ⟨⟨t, hreach.trans ht, hone, heip⟩, hrecorded⟩

end Runs

def undefinedOpcode : BufferMemory :=
  ⟨[0x90, 0x90, 0x0F, 0x0B, 0x90, 0x90] ++ List.replicate 60 0, by decide⟩

def Pipeline.staysInLine (p : Pipeline) : Bool :=
  match p.function with
  | .opcode f => f.staysInLine
  | .repe | .repne => false

theorem Pipeline.InPlace.of_staysInLine {p : Pipeline} (h : p.staysInLine = true)
    (m : Machine σ) : p.InPlace hv m := by
  unfold Pipeline.staysInLine at h
  unfold Pipeline.InPlace
  cases hf : p.function with
  | repe | repne =>
    rw [hf] at h
    cases h
  | opcode f =>
    rw [hf] at h
    cases f with
    | interrupt => cases h
    | logic f =>
      rintro rfl
      cases h

theorem locatable_undefinedOpcode :
    Locatable testHypervisor (start PIPELINE_SIZE (createMachine undefinedOpcode)) where
  predicted := by decide +kernel
  decodes := by
    have hdecodes : ∃ f, (⟨CODE_MEM, (createVm undefinedOpcode).decodeAt (writeableAt CODE_MEM)
        CODE_MEM⟩ : Visit).decoded = .ok f := by
      decide +kernel
    exact hdecodes
  inPlace := by
    intro slots hfill p t hmem
    have hall : (fun slots : List Pipeline ↦ slots.all Pipeline.staysInLine) <$>
        fillPipeline (createVm undefinedOpcode) OPCODES (emptyPipeline PIPELINE_SIZE) =
          .ok true := by
      decide +kernel
    change fillPipeline (createVm undefinedOpcode) OPCODES (emptyPipeline PIPELINE_SIZE) = _
      at hfill
    rw [hfill] at hall
    have hslots : slots.all Pipeline.staysInLine = true := by
      injection hall
    exact .of_staysInLine (List.all_eq_true.mp hslots p (mem_of_mem_trace hmem)) _

/-- The run stops at the opcode, two bytes from its start. -/
theorem error_located_undefinedOpcode :
    ∃ m', Executes testHypervisor (createMachine undefinedOpcode)
        (.err (.invalidOpcode 0x0F), m') ∧
      ErrorLocated testHypervisor (createMachine undefinedOpcode) (.invalidOpcode 0x0F) m' ∧
      m'.vm.errorEip = 0x10002 := by
  obtain ⟨⟨o, m'⟩, hr, he⟩ := Finishes.of_getRight
    (show (iterate (cycle testHypervisor) 1
      (start PIPELINE_SIZE (createMachine undefinedOpcode))).getRight?.map
        (fun r ↦ (r.1, r.2.vm.errorEip)) = some (.err (.invalidOpcode 0x0F), 0x10002) by
          decide +kernel)
  have hstop : (cycle testHypervisor
      (start PIPELINE_SIZE (createMachine undefinedOpcode))).isRight = true := by
    decide +kernel
  obtain ⟨s, hs⟩ := Sum.isRight_iff.mp hstop
  rw [Prod.mk.injEq] at he
  obtain ⟨ho, herror⟩ := he
  change o = _ at ho
  subst ho
  refine ⟨m', hr, error_located _ ?_ hr nofun, herror⟩
  intro c hc
  rw [hc.eq_of_inr hs]
  exact locatable_undefinedOpcode

def nopSection : BufferMemory := ⟨List.replicate 16 0x90, by decide⟩

/-- The second `nop` cannot be fetched: the first one is not executed, and nothing is
recorded. -/
theorem error_not_located_nopSection :
    ¬∀ (m : Machine (List (BitVec 8))) (e : VMError) (m' : Machine (List (BitVec 8))),
      Executes testHypervisor m (.err e, m') → e ≠ .outOfGas →
        ErrorLocated testHypervisor m e m' := by
  intro h
  obtain ⟨⟨o, m'⟩, hr, he⟩ := Finishes.of_getRight
    (show (iterate (cycle testHypervisor) 1
      (start PIPELINE_SIZE (createMachine nopSection))).getRight?.map
        (fun r ↦ (r.1, r.2.vm.eip, r.2.vm.errorEip)) =
          some (.err (.readBadMemory 0x10010), 0x10000, 0) by decide +kernel)
  simp only [Prod.mk.injEq] at he
  obtain ⟨ho, heip, herror⟩ := he
  change o = _ at ho
  subst ho
  have hlocated := h _ _ m' hr nofun
  have hrecorded := hlocated.recorded
  rw [herror, heip] at hrecorded
  cases hrecorded

end Qx86
