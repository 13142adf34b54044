import Qx86.Machine.Restarts
import Qx86.Properties.MemoryLocality
import Qx86.Properties.MeteringErasure

namespace Qx86

open Foundation Outcome

variable {σ : Type} {hv : Hypervisor σ} {extra : MemorySystem} {p : Pipeline} {c c' : Core σ}

section Steps

abbrev StepResult (σ : Type) := Core σ ⊕ (Outcome VMError Bool × Core σ)

namespace Core

def extend (c : Core σ) (extra : MemorySystem) : Core σ :=
  { c with memory := c.memory.extend extra }

def extendResult (extra : MemorySystem) : StepResult σ → StepResult σ :=
  Sum.map (·.extend extra) (Prod.map id (·.extend extra))

end Core

/-- A step that ends the run for the want of a section. -/
def Misses (r : StepResult σ) : Prop := ∃ a c, r = .inr (.err (.readUnloadedMemory a), c)

theorem settle_extend (o : Outcome VMError Unit) (m : Machine σ) :
    Core.settle p (o, m.extend extra) = Core.extendResult extra (Core.settle p (o, m)) := by
  cases o with
  | ok _ | panic => rfl
  | err x =>
    rw [settle_err, settle_err]
    rfl

theorem settle_unloaded {x : VMError} (hx : x.Unloaded) (m : Machine σ) :
    Misses (Core.settle p (.err x, m)) := by
  obtain ⟨a, rfl⟩ := hx
  exact ⟨a, m.core, settle_err ..⟩

section

variable (hlocal : hv.Local)

include hlocal

theorem opcodeCall_extend (extra : MemorySystem) (f : OpcodeFn) (p : Pipeline) (m : Machine σ) :
    (∃ x, (f.call hv p m).1 = .err x ∧ x.Unloaded) ∨
      f.call hv p (m.extend extra) = ((f.call hv p m).1, (f.call hv p m).2.extend extra) := by
  have hpair : Paired (fun vm vm' ↦ vm' = vm.extend extra) Eq m (m.extend extra) := ⟨rfl, rfl⟩
  have hcall := opcodeCall_agrees (extend_congruence extra).toKeeps hpair f p
    fun _ k _ vm' t ↦ hlocal.alike extra m.vm vm' k m.host t
  refine hcall.imp id fun ⟨ho, hvm, hhost⟩ ↦ ?_
  exact Prod.ext ho.symm (Machine.ext hvm hhost.symm)

theorem pass_extend (extra : MemorySystem) {verdict : VM → Outcome VMError Bool}
    (hverdict : ∀ vm vm', vm.flags = vm'.flags → verdict vm = verdict vm') (c : Core σ) :
    Misses (Core.pass hv p verdict c) ∨
      Core.pass hv p verdict (c.extend extra) =
        Core.extendResult extra (Core.pass hv p verdict c) := by
  have hmachine : (c.extend extra).machine = c.machine.extend extra := rfl
  have hread : (c.machine.extend extra).vm.readRegw .ecx p.sizeOverride =
      c.machine.vm.readRegw .ecx p.sizeOverride := rfl
  simp only [Core.pass, hmachine, hread]
  split
  · exact .inr (settle_extend ..)
  obtain ⟨x, hx, hu⟩ | hcall := opcodeCall_extend hlocal extra (repOpcode p.opcode).function p
    c.machine
  · rcases hr : (repOpcode p.opcode).function.call hv p c.machine with ⟨_, m⟩
    rw [hr] at hx
    cases hx
    exact .inl (settle_unloaded hu m)
  · rw [hcall]
    rcases (repOpcode p.opcode).function.call hv p c.machine with ⟨_ | x | _, m⟩
    · have hdec : (m.extend extra).vm.decrementRegw .ecx p.sizeOverride =
          (m.vm.decrementRegw .ecx p.sizeOverride).extend extra := by
        cases p.sizeOverride <;> rfl
      have hsame : verdict ((m.vm.decrementRegw .ecx p.sizeOverride).extend extra) =
          verdict (m.vm.decrementRegw .ecx p.sizeOverride) := hverdict _ _ rfl
      dsimp only
      rw [hdec, hsame]
      cases hv' : verdict (m.vm.decrementRegw .ecx p.sizeOverride) with
      | ok b =>
        cases b with
        | true => exact .inr rfl
        | false => exact .inr (settle_extend _ ⟨m.vm.decrementRegw .ecx p.sizeOverride, m.host⟩)
      | err x => exact .inr (settle_extend _ ⟨m.vm.decrementRegw .ecx p.sizeOverride, m.host⟩)
      | panic => exact .inr rfl
    · exact .inr (settle_extend ..)
    · exact .inr (settle_extend ..)

theorem execute_extend (extra : MemorySystem) (p : Pipeline) (c : Core σ) :
    Misses (Core.execute hv p c) ∨
      Core.execute hv p (c.extend extra) = Core.extendResult extra (Core.execute hv p c) := by
  have hmachine : (c.extend extra).machine = c.machine.extend extra := rfl
  unfold Core.execute
  cases p.function with
  | opcode f =>
    dsimp only
    rw [hmachine]
    obtain ⟨x, hx, hu⟩ | hcall := opcodeCall_extend hlocal extra f p c.machine
    · rcases hr : f.call hv p c.machine with ⟨_, m⟩
      rw [hr] at hx
      cases hx
      exact .inl (settle_unloaded hu m)
    · rw [hcall]
      exact .inr (settle_extend ..)
  | repe => exact pass_extend hlocal extra (fun vm vm' h ↦ by simp only [repeVerdict, h]) c
  | repne =>
    dsimp only
    split
    · exact pass_extend hlocal extra (fun vm vm' h ↦ by simp only [repneVerdict, h]) c
    · exact .inr (settle_extend _ c.machine)

omit hlocal in
theorem decodeAt_extend (extra : MemorySystem) (c : Core σ) (writeable : Bool) (a : BitVec 32) :
    (∃ x, c.machine.vm.decodeAt writeable a = .err x ∧ x.Unloaded) ∨
      (c.extend extra).machine.vm.decodeAt writeable a = c.machine.vm.decodeAt writeable a :=
  (fillSlot_agrees (extend_congruence extra)
    (show (c.extend extra).machine.vm = c.machine.vm.extend extra from rfl) writeable a
    default).imp id Eq.symm

theorem step_extend (extra : MemorySystem) (c : Core σ) :
    Misses (Core.step hv c) ∨
      Core.step hv (c.extend extra) = Core.extendResult extra (Core.step hv c) := by
  have hproc : (c.extend extra).processor = c.processor := rfl
  simp only [Core.step, hproc]
  obtain ⟨x, hx, a, rfl⟩ | hdec := decodeAt_extend extra c (writeableAt c.processor.eip)
    c.processor.eip
  · rw [hx]
    exact .inl ⟨a, c, rfl⟩
  · rw [hdec]
    cases c.machine.vm.decodeAt (writeableAt c.processor.eip) c.processor.eip with
    | ok f => exact execute_extend hlocal extra f.slot c
    | err x | panic => exact .inr rfl

end

end Steps

section Restarts

/-- The slots that have changed nothing when they miss a section. -/
def Pipeline.restartable (p : Pipeline) : Bool :=
  match p.function with
  | .opcode (.logic f) => f.restartable p
  | .opcode .interrupt => false
  | .repe => repFlagOpcodes p.opcode || repNoFlagOpcodes p.opcode
  | .repne => true

def Core.Restartable (c : Core σ) : Prop :=
  ∀ f, c.machine.vm.decodeAt (writeableAt c.processor.eip) c.processor.eip = .ok f →
    f.slot.restartable = true

instance decidable_restartable (c : Core σ) : Decidable c.Restartable :=
  match h : c.machine.vm.decodeAt (writeableAt c.processor.eip) c.processor.eip with
  | .ok f => decidable_of_iff (f.slot.restartable = true) (by simp [Core.Restartable, h])
  | .err _ => .isTrue (by simp [Core.Restartable, h])
  | .panic => .isTrue (by simp [Core.Restartable, h])

variable {a : BitVec 32}

theorem of_settle_unloaded {o : Outcome VMError Unit} {m : Machine σ}
    (h : Core.settle p (o, m) = .inr (.err (.readUnloadedMemory a), c')) :
    o = .err (.readUnloadedMemory a) ∧ c' = m.core := by
  cases o with
  | ok _ => cases h
  | panic => cases h
  | err x =>
    rw [settle_err] at h
    obtain ⟨hx, hc⟩ := Prod.mk.inj (Sum.inr.inj h)
    split at hx
    · cases hx
    · cases hx
      exact ⟨rfl, hc.symm⟩

theorem logicCall_restarts {f : LogicFn} (hf : f.restartable p = true) {m m' : Machine σ}
    (h : OpcodeFn.call hv (.logic f) p m = (.err (.readUnloadedMemory a), m')) : m' = m := by
  rw [OpcodeFn.call_logic] at h
  obtain ⟨ho, hm⟩ := Prod.mk.inj h
  have hvm := (LogicFn.restarts hf).state (VM.loads_of_isPlain rfl) (Prod.ext ho rfl) ⟨a, rfl⟩
  exact hm.symm.trans (congrArg (fun vm ↦ (⟨vm, m.host⟩ : Machine σ)) hvm)

theorem restartable_of_isString {f : LogicFn} (h : f.isString = true) :
    f.restartable p = true := by
  cases f <;> first | rfl | cases h

theorem pass_restarts {verdict : VM → Outcome VMError Bool}
    (hverdict : ∀ vm, verdict vm ≠ .err (.readUnloadedMemory a))
    (hs : repFlagOpcodes p.opcode = true ∨ repNoFlagOpcodes p.opcode = true)
    (h : Core.pass hv p verdict c = .inr (.err (.readUnloadedMemory a), c')) : c' = c := by
  obtain ⟨f, hf, hfun⟩ := repOpcode_string hs
  simp only [Core.pass, hfun] at h
  split at h
  · cases (of_settle_unloaded h).1
  rcases hr : OpcodeFn.call hv (.logic f) p c.machine with ⟨_ | x | _, m⟩ <;> rw [hr] at h
  · dsimp only at h
    cases hvd : verdict (m.vm.decrementRegw .ecx p.sizeOverride) with
    | ok b =>
      rw [hvd] at h
      cases b with
      | true => cases h
      | false => cases (of_settle_unloaded h).1
    | err x =>
      rw [hvd] at h
      cases (of_settle_unloaded h).1
      exact absurd hvd (hverdict _)
    | panic =>
      rw [hvd] at h
      cases (of_settle_unloaded h).1
  · obtain ⟨hx, rfl⟩ := of_settle_unloaded h
    cases hx
    rw [logicCall_restarts (restartable_of_isString hf) hr]
    rfl
  · cases (of_settle_unloaded h).1

theorem repeVerdict_ne_unloaded (opcode : BitVec 8) (vm : VM) :
    repeVerdict opcode vm ≠ .err (.readUnloadedMemory a) := by
  intro h
  unfold repeVerdict at h
  split at h
  · cases h
  split at h <;> cases h

/-- An instruction that can be restarted has changed nothing when it misses a section. -/
theorem step_restarts (hc : c.Restartable)
    (h : Core.step hv c = .inr (.err (.readUnloadedMemory a), c')) : c' = c := by
  unfold Core.step at h
  cases hd : c.machine.vm.decodeAt (writeableAt c.processor.eip) c.processor.eip with
  | err x =>
    rw [hd] at h
    exact (congrArg Prod.snd (Sum.inr.inj h)).symm
  | panic =>
    rw [hd] at h
    cases h
  | ok f =>
    rw [hd] at h
    have hf := hc f hd
    simp only [Core.execute, Pipeline.restartable] at h hf
    cases hfun : f.slot.function with
    | opcode g =>
      rw [hfun] at h hf
      dsimp only at h hf
      cases g with
      | interrupt => cases hf
      | logic g =>
        rcases hr : OpcodeFn.call hv (.logic g) f.slot c.machine with ⟨o, m⟩
        rw [hr] at h
        obtain ⟨rfl, rfl⟩ := of_settle_unloaded h
        rw [logicCall_restarts hf hr]
        rfl
    | repe =>
      rw [hfun] at h hf
      exact pass_restarts (repeVerdict_ne_unloaded _) (Bool.or_eq_true_iff.mp hf) h
    | repne =>
      rw [hfun] at h
      dsimp only at h
      split at h
      · next hflag => exact pass_restarts (fun _ h ↦ by cases h) (.inl hflag) h
      · cases (of_settle_unloaded h).1

end Restarts

section Runs

/-- The instructions of a run that miss a section can be executed again. -/
def RestartableRun (hv : Hypervisor σ) (c : Core σ) : Prop :=
  ∀ c', Reaches (Core.step hv) c c' → Misses (Core.step hv c') → c'.Restartable

def MemorySystem.PartOf (part m : MemorySystem) : Prop :=
  ∀ base b, part.map base = some b → m.map base = some b

theorem extend_part {part : MemorySystem} (h : part.PartOf extra) (c : Core σ) :
    (c.extend part).extend extra = c.extend extra := by
  refine Core.ext rfl ?_ rfl
  ext1
  funext base
  simp only [Core.extend, MemorySystem.extend]
  cases c.memory.map base with
  | some b => rfl
  | none =>
    cases hp : part.map base with
    | none => rfl
    | some b => simp [h base b hp]

/-- Runs one after the other: what ends for want of gas or of a section goes on from the state
it stopped in, with any gas, any prices, any length of the pipeline and some more sections. -/
inductive Paged (hv : Hypervisor σ) (extra : MemorySystem) :
    Machine σ → Outcome VMError Bool × Machine σ → Prop
  | finish (n : ℕ) (m : Machine σ) (r : Outcome VMError Bool × Machine σ) (hn : 0 < n)
      (hpred : PredictedRun hv n m) (hr : Finishes (cycle hv) (start n m) r)
      (ho : r.1 ≠ .err .outOfGas) (hload : ∀ a, r.1 ≠ .err (.readUnloadedMemory a)) :
      Paged hv extra m r
  | resume (n : ℕ) (m m₁ m₂ : Machine σ) (x : VMError) (part : MemorySystem)
      (r : Outcome VMError Bool × Machine σ) (hn : 0 < n) (hpred : PredictedRun hv n m)
      (hrestart : RestartableRun hv m.core) (hr : Finishes (cycle hv) (start n m) (.err x, m₁))
      (hx : x = .outOfGas ∨ x.Unloaded) (hpart : part.PartOf extra)
      (hm : m₂.core = m₁.core.extend part) (rest : Paged hv extra m₂ r) : Paged hv extra m r

variable (hlocal : hv.Local)

include hlocal

theorem reaches_extend (h : Reaches (Core.step hv) c c') :
    Reaches (Core.step hv) (c.extend extra) (c'.extend extra) := by
  refine h.invariant (P := fun c' ↦ Reaches (Core.step hv) (c.extend extra) (c'.extend extra))
    (fun s s' hs hr ↦ ?_) (.refl ..)
  obtain ⟨a, q, hq⟩ | hstep := step_extend hlocal extra s
  · rw [hs] at hq
    cases hq
  · rw [hs] at hstep
    exact hr.trans (.single hstep)

theorem finishes_extend {r : Outcome VMError Bool × Core σ} (h : Finishes (Core.step hv) c r)
    (hr : ∀ a, r.1 ≠ .err (.readUnloadedMemory a)) :
    Finishes (Core.step hv) (c.extend extra) (r.1, r.2.extend extra) := by
  obtain ⟨t, ht, hlast⟩ := h.last
  obtain ⟨a, q, hq⟩ | hstep := step_extend hlocal extra t
  · rw [hlast] at hq
    cases hq
    exact absurd rfl (hr a)
  · rw [hlast] at hstep
    exact .of_reaches (reaches_extend hlocal ht) (.single hstep)

theorem repFixedRun_of_extend (h : RepFixedRun hv (c.extend extra)) : RepFixedRun hv c := by
  intro c' hc f hf
  obtain ⟨x, hx, -⟩ | hdec := decodeAt_extend extra c' (writeableAt c'.processor.eip)
    c'.processor.eip
  · cases hf.symm.trans hx
  · exact h _ (reaches_extend hlocal hc) f (hdec.trans hf)

theorem Paged.core (hu : hv.Unmetered) {m : Machine σ} {r : Outcome VMError Bool × Machine σ}
    (h : Paged hv extra m r) (hrep : RepFixedRun hv (m.core.extend extra)) :
    Finishes (Core.step hv) (m.core.extend extra) (r.1, r.2.core.extend extra) := by
  induction h with
  | finish n m r hn hpred hr ho hload =>
    have hrep' := repFixedRun_of_extend hlocal hrep
    have hfin := (finishes_core hu hn hpred hrep' hr).resolve_left fun h ↦ ho h.1
    exact finishes_extend hlocal hfin.2 hload
  | resume n m m₁ m₂ x part r hn hpred hrestart hr hx hpart hm _ ih =>
    have hrep' := repFixedRun_of_extend hlocal hrep
    have hreach : Reaches (Core.step hv) m.core m₁.core := by
      obtain ⟨-, hreach⟩ | ⟨ho, hfin⟩ := finishes_core hu hn hpred hrep' hr
      · exact hreach
      obtain rfl | ⟨a, rfl⟩ := hx
      · exact absurd rfl ho
      obtain ⟨t, ht, hlast⟩ := hfin.last
      rwa [step_restarts (hrestart t ht ⟨a, _, hlast⟩) hlast]
    have hreach' : Reaches (Core.step hv) (m.core.extend extra) (m₁.core.extend extra) :=
      reaches_extend hlocal hreach
    have hm' : m₂.core.extend extra = m₁.core.extend extra := by rw [hm, extend_part hpart]
    rw [hm'] at ih
    exact .of_reaches hreach' (ih fun c hc ↦ hrep c (hreach'.trans hc))

end Runs

/-- Demand paging is transparent: a program whose sections are mapped only when it misses them
ends as it does with all of them mapped from the start. -/
theorem demand_paging (hv : Hypervisor σ) (hu : hv.Unmetered) (hlocal : hv.Local)
    (extra : MemorySystem) (m : Machine σ) (hrep : RepFixedRun hv (m.core.extend extra))
    (r : Outcome VMError Bool × Machine σ) (h : Paged hv extra m r) :
    Finishes (Core.step hv) (m.core.extend extra) (r.1, r.2.core.extend extra) ∧
      ∀ m' r', m'.core = m.core.extend extra → Sessions hv m' r' →
        r'.1 = r.1 ∧ r'.2.core = r.2.core.extend extra := by
  have hfin := h.core hlocal hu hrep
  refine ⟨hfin, fun m' r' hm hs ↦ ?_⟩
  have hfin' := hs.core hu (hm ▸ hrep)
  rw [hm] at hfin'
  exact Prod.mk.inj (hfin'.unique hfin)

/-- `mov al, [0x90000000]` and then `hlt`. -/
def loadHlt : BufferMemory :=
  ⟨[0xA0, 0, 0, 0, 0x90, 0xF4] ++ List.replicate 16 0, by decide⟩

def latePage : MemorySystem := (default : MemorySystem).insert 0x90000000 zeroSection

theorem loadHlt_restartable :
    RestartableRun testHypervisor (createMachine loadHlt).core := fun _ hc _ ↦
  hc.all_of_iterate (n := 1) (P := Core.Restartable) (by decide +kernel) (by decide +kernel)

theorem loadHlt_repFixed :
    RepFixedRun testHypervisor ((createMachine loadHlt).core.extend latePage) := fun _ hc ↦
  repFixed_of_readOnly <| hc.all_of_iterate (n := 2)
    (P := fun c ↦ c.processor.eip < WRITEABLE_MEMORY) (by decide +kernel) (by decide +kernel)

theorem loadHlt_misses : Core.step testHypervisor (createMachine loadHlt).core =
    .inr (.err (.readUnloadedMemory 0x90000000), (createMachine loadHlt).core) := by
  have hmiss : (Core.step testHypervisor (createMachine loadHlt).core).getRight?.map Prod.fst =
      some (.err (.readUnloadedMemory 0x90000000)) := by
    decide +kernel
  cases hs : Core.step testHypervisor (createMachine loadHlt).core with
  | inl c =>
    rw [hs] at hmiss
    cases hmiss
  | inr q =>
    rw [hs] at hmiss
    obtain ⟨_, c⟩ := q
    cases hmiss
    rw [step_restarts (loadHlt_restartable _ (.refl ..) ⟨_, _, hs⟩) hs]

/-- The load misses its section, is given it, and is executed again. -/
theorem demand_paging_loadHlt : ∃ r, r.1 = .ok true ∧
    Paged testHypervisor latePage (createMachine loadHlt) r ∧
    Finishes (Core.step testHypervisor) ((createMachine loadHlt).core.extend latePage)
      (r.1, r.2.core.extend latePage) := by
  obtain ⟨⟨_, m₁⟩, hr, he⟩ := Finishes.of_getRight
    (show (iterate (cycle testHypervisor) 1 (start 1 (createMachine loadHlt))).getRight?.map
      Prod.fst = some (.err (.readUnloadedMemory 0x90000000)) by decide +kernel)
  obtain ⟨r, hr', he'⟩ := Finishes.of_getRight
    (show (iterate (cycle testHypervisor) 2
      (start 1 ((createMachine loadHlt).extend latePage))).getRight?.map Prod.fst =
        some (.ok true) by decide +kernel)
  cases he
  have hpred : ∀ m, PredictedRun testHypervisor 1 m := fun _ _ _ ↦ predicted_visits_one _
  have hcore : m₁.core = (createMachine loadHlt).core := by
    obtain ⟨ho, -⟩ | ⟨-, hfin⟩ := finishes_core testHypervisor_unmetered (by decide) (hpred _)
      (repFixedRun_of_extend testHypervisor_local loadHlt_repFixed) hr
    · cases ho
    · exact congrArg Prod.snd (hfin.unique (.single loadHlt_misses))
  have hlast : Paged testHypervisor latePage ((createMachine loadHlt).extend latePage) r :=
    .finish 1 _ _ (by decide) (hpred _) hr' (fun ho ↦ by rw [he'] at ho; cases ho)
      fun a ho ↦ by rw [he'] at ho; cases ho
  have hwhole : Paged testHypervisor latePage (createMachine loadHlt) r :=
    .resume 1 _ m₁ _ _ latePage _ (by decide) (hpred _) loadHlt_restartable hr
      (.inr ⟨_, rfl⟩) (fun _ _ ↦ id) (by rw [hcore]; rfl) hlast
  exact ⟨r, he', hwhole, (demand_paging testHypervisor testHypervisor_unmetered
    testHypervisor_local latePage (createMachine loadHlt) loadHlt_repFixed r hwhole).1⟩

end Qx86
