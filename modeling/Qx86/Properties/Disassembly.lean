import Qx86.Execute.Rules
import Qx86.Properties.ErrorLocation
import Qx86.Properties.MeteringErasure
import Qx86.Properties.ReadOnlyMemory
import Qx86.Properties.Successor

namespace Qx86

open Foundation Outcome Operations

variable {σ : Type} {hv : Hypervisor σ}

section Successors

def LogicFn.stops : LogicFn → Bool
  | .hlt | .opUndefined => true
  | _ => false

def Pipeline.destination (p : Pipeline) (a : BitVec 32) : Option (BitVec 32) :=
  match (p.args 0).location with
  | .immediate v => v.u32Sx.toOption.map fun rel ↦ relative p a rel + p.eipSize.setWidth 32
  | _ => none

/-- The addresses that an instruction may lead to, if they can be told from its bytes. -/
def Pipeline.successors (p : Pipeline) (a : BitVec 32) : Option (List (BitVec 32)) :=
  let next := a + p.eipSize.setWidth 32
  match p.function with
  | .opcode (.logic f) =>
    if f.effects.jumps then
      match f with
      | .jmpRel | .callRel => (p.destination a).map ([·])
      | .jcc | .jmpConditionalEcxIsZero => (p.destination a).map ([next, ·])
      | _ => none
    else if f.stops then some [] else some [next]
  | _ => some [next]

variable {p : Pipeline} {a : BitVec 32} {ss : List (BitVec 32)}

theorem LogicFn.not_ok_of_stops {f : LogicFn} (h : f.stops = true) (vm : VM) :
    ((f.logic p).run vm).1 ≠ .ok () := by
  intro hok
  obtain ⟨vm', hr⟩ : ∃ vm', (f.logic p).run vm = (.ok (), vm') := ⟨_, Prod.ext hok rfl⟩
  cases f <;> first | (cases h; done) | skip
  · obtain ⟨_, _, -, hr⟩ := Op.run_bind_ok.mp hr
    obtain ⟨_, _, -, hr⟩ := Op.run_bind_ok.mp hr
    cases hr
  · cases hr

theorem jmpRel_destination {vm vm' : VM} {d : BitVec 32} (h : (jmpRel p).run vm = (.ok (), vm'))
    (hd : p.destination vm.eip = some d) : vm'.eip + p.eipSize.setWidth 32 = d := by
  obtain ⟨rel, hrel, rfl⟩ := jmpRel_ok h
  unfold Pipeline.destination at hd
  split at hd
  · next v hv =>
    rw [hv] at hrel
    change v.u32Sx = .ok rel at hrel
    rw [hrel] at hd
    exact Option.some.inj hd
  · cases hd

theorem LogicFn.run_mem_successors {f : LogicFn} {vm vm' : VM}
    (hf : p.function = .opcode (.logic f)) (h : (f.logic p).run vm = (.ok (), vm'))
    (hs : p.successors vm.eip = some ss) : vm'.eip + p.eipSize.setWidth 32 ∈ ss := by
  simp only [Pipeline.successors, hf] at hs
  cases hj : f.effects.jumps with
  | false =>
    rw [hj, if_neg Bool.false_ne_true] at hs
    have heip : vm'.eip = vm.eip := by
      have := (f.logic p).eip hj vm
      rwa [h] at this
    split at hs
    · next hstop => exact absurd (congrArg Prod.fst h) (not_ok_of_stops hstop vm)
    · cases hs
      rw [heip]
      exact List.mem_singleton_self _
  | true =>
    rw [hj, if_pos rfl] at hs
    obtain rfl | rfl | rfl | rfl | rfl | rfl | rfl | rfl := eq_of_jumps hj
    · cases hs
    · cases hs
    · obtain ⟨d, hd, rfl⟩ := Option.map_eq_some_iff.mp hs
      obtain ⟨vm₁, he₁, h₁⟩ := call_ok h
      rw [jmpRel_destination h₁ (he₁ ▸ hd)]
      exact List.mem_singleton_self _
    · obtain ⟨d, hd, rfl⟩ := Option.map_eq_some_iff.mp hs
      rw [jmpRel_destination h hd]
      exact List.mem_singleton_self _
    · obtain ⟨d, hd, rfl⟩ := Option.map_eq_some_iff.mp hs
      have h := jcc_ok h
      split at h
      · rw [jmpRel_destination h hd]
        simp
      · rw [h]
        simp
    · obtain ⟨d, hd, rfl⟩ := Option.map_eq_some_iff.mp hs
      have h := jmpConditionalEcxIsZero_ok h
      split at h
      · rw [jmpRel_destination h hd]
        simp
      · rw [h]
        simp
    · cases hs
    · cases hs

end Successors

section Flow

/-- A hypervisor that does not move `eip` and does not write to read-only memory. -/
structure Hypervisor.LeavesCode (hv : Hypervisor σ) : Prop where
  eip : ∀ vm n s, (hv.interrupt vm n s).2.1.eip = vm.eip
  memory : ∀ (vm : VM) n s, vm.memory.Guarded (hv.interrupt vm n s).2.1.memory

theorem Hypervisor.LeavesCode.stepRelation (h : hv.LeavesCode) :
    StepRelation hv fun m m' ↦ m.vm.memory.Guarded m'.vm.memory :=
  Hypervisor.GuardsMemory.stepRelation h.memory

variable {p : Pipeline} {f : OpcodeFn} {m m' : Machine σ} {c c' : Core σ}
  {o : Outcome VMError Unit} {r : Outcome VMError Bool} (hc : hv.LeavesCode)

include hc

theorem interrupt_eip (p : Pipeline) (m : Machine σ) :
    (OpcodeFn.interrupt.call hv p m).2.vm.eip = m.vm.eip := by
  rw [OpcodeFn.call]
  split
  · rfl
  · exact hc.eip ..

omit hc in
theorem LogicFn.fails_eip {f : LogicFn} (hne : f ≠ .enter) {vm : VM}
    (ho : ((f.logic p).run vm).1 ≠ .ok ()) : ((f.logic p).run vm).2.eip = vm.eip := by
  cases hr : ((f.logic p).run vm).1 with
  | ok _ => exact absurd hr ho
  | err x => exact f.failsInPlace hne p vm x _ (Prod.ext hr rfl)
  | panic =>
    cases hj : f.effects.jumps with
    | false => exact (f.logic p).eip hj vm
    | true =>
      have htotal : f.effects.panics = false := by
        obtain rfl | rfl | rfl | rfl | rfl | rfl | rfl | rfl := eq_of_jumps hj <;> rfl
      exact absurd hr ((f.logic p).total htotal vm)

/-- An instruction that ends a run leaves `eip` where it is, and one that does not leads to a
successor or back to itself. -/
structure Core.Flows (p : Pipeline) (c : Core σ) (x : Core σ ⊕ (Outcome VMError Bool × Core σ)) :
    Prop where
  next : ∀ c', x = .inl c' → c.memory.Guarded c'.memory ∧
    (p.function.isRep = true ∧ c'.processor.eip = c.processor.eip ∨
      ∀ ss, p.successors c.processor.eip = some ss → c'.processor.eip ∈ ss)
  last : ∀ r c', x = .inr (r, c') → c'.processor.eip = c.processor.eip

omit hc in
theorem settle_flows (hmem : c.memory.Guarded m.vm.memory)
    (hok : o = .ok () → ∀ ss, p.successors c.processor.eip = some ss →
      m.vm.eip + p.eipSize.setWidth 32 ∈ ss)
    (hfail : o ≠ .ok () → m.vm.eip = c.processor.eip) : c.Flows p (Core.settle p (o, m)) := by
  constructor
  · intro c' h
    cases o with
    | ok _ =>
      cases h
      exact ⟨hmem, .inr (hok rfl)⟩
    | err x =>
      rw [settle_err] at h
      cases h
    | panic => cases h
  · intro r c' h
    cases o with
    | ok _ => cases h
    | err x =>
      rw [settle_err] at h
      cases h
      exact hfail nofun
    | panic =>
      cases h
      exact hfail nofun

theorem pass_flows {verdict : VM → Outcome VMError Bool} (hrep : p.function.isRep = true)
    (hin : (repOpcode p.opcode).function.staysInLine = true) (c : Core σ) :
    c.Flows p (Core.pass hv p verdict c) := by
  have hstep : ∀ ss, p.successors c.processor.eip = some ss →
      c.processor.eip + p.eipSize.setWidth 32 ∈ ss := by
    intro ss hs
    unfold Pipeline.successors at hs
    cases hf : p.function with
    | opcode f => rw [hf] at hrep; cases hrep
    | repe | repne =>
      rw [hf] at hs
      cases hs
      exact List.mem_singleton_self _
  have hcall := OpcodeFn.call_eip hv hin p c.machine
  have hmem := hc.stepRelation.opcodeCall (repOpcode p.opcode).function p c.machine
  unfold Core.pass
  split
  · exact settle_flows (.refl _) (fun _ ↦ hstep) fun _ ↦ rfl
  have hsettle (m : Machine σ) (o : Outcome VMError Unit) (hm : c.memory.Guarded m.vm.memory)
      (he : m.vm.eip = c.processor.eip) : c.Flows p (Core.settle p (o, m)) :=
    settle_flows hm (fun _ ss hs ↦ he ▸ hstep ss hs) fun _ ↦ he
  rcases hr : (repOpcode p.opcode).function.call hv p c.machine with ⟨_ | x | _, m⟩
  · rw [hr] at hcall hmem
    have heip := (m.vm.decrementRegw_eip .ecx p.sizeOverride).trans hcall
    have hmem' := hmem.trans (m.vm.decrementRegw_frame .ecx p.sizeOverride).memory
    dsimp only
    split
    · refine ⟨fun c' h ↦ ?_, fun _ _ h ↦ by cases h⟩
      cases h
      exact ⟨hmem', .inl ⟨hrep, heip⟩⟩
    all_goals exact hsettle _ _ hmem' heip
  · rw [hr] at hcall hmem
    exact hsettle _ _ hmem hcall
  · rw [hr] at hcall hmem
    exact hsettle _ _ hmem hcall

theorem opcodeCall_flows (hf : p.function = .opcode f) (hne : f ≠ .logic .enter) (c : Core σ) :
    c.Flows p (Core.settle p (f.call hv p c.machine)) := by
  have hmem := hc.stepRelation.opcodeCall f p c.machine
  cases f with
  | interrupt =>
    have heip := interrupt_eip hc p c.machine
    refine settle_flows hmem (fun _ ss hs ↦ ?_) fun _ ↦ heip
    unfold Pipeline.successors at hs
    rw [hf] at hs
    cases hs
    exact List.mem_singleton.mpr (congrArg (· + p.eipSize.setWidth 32) heip)
  | logic f =>
    rw [OpcodeFn.call_logic] at hmem ⊢
    exact settle_flows hmem
      (fun ho _ hs ↦ @LogicFn.run_mem_successors p _ f c.machine.vm _ hf (Prod.ext ho rfl) hs)
      (LogicFn.fails_eip fun h ↦ hne (h ▸ rfl))

theorem execute_flows (hfree : p.ArgFree) (hne : p.function ≠ .opcode (.logic .enter))
    (c : Core σ) : c.Flows p (Core.execute hv p c) := by
  unfold Core.execute
  cases hf : p.function with
  | opcode f => exact opcodeCall_flows hc hf (fun h ↦ hne (h ▸ hf)) c
  | repe => exact pass_flows hc (by rw [hf]; rfl) (staysInLine_of_string (hfree hf)) c
  | repne =>
    dsimp only
    split
    · next ho => exact pass_flows hc (by rw [hf]; rfl) (staysInLine_of_string (.inl ho)) c
    · exact settle_flows (.refl _) (fun ho ↦ by cases ho) fun _ ↦ rfl

end Flow

section Listings

variable {l : List (BitVec 32 × Pipeline)} {c c' : Core σ} {r : Outcome VMError Bool}

/-- A listing that shows every instruction that one of its own may lead to. -/
def Closed (l : List (BitVec 32 × Pipeline)) : Prop :=
  ∀ e ∈ l, ∃ ss ∈ e.2.successors e.1, ss ⊆ l.map Prod.fst

instance decidable_closed : Decidable (Closed l) := inferInstanceAs (Decidable (∀ _ ∈ l, _))

variable (hc : hv.LeavesCode) (hl : Closed l)

include hc

theorem Core.Listed.flows (h : c.Listed l) :
    ∃ e ∈ l, e.1 = c.processor.eip ∧ Core.step hv c = Core.execute hv e.2 c ∧
      c.Flows e.2 (Core.step hv c) := by
  obtain ⟨hlists, ⟨a, p⟩, he, ha⟩ := h
  obtain ⟨-, hfree, hne, -⟩ := hlists (a, p) he
  have hstep : Core.step hv c = Core.execute hv p c := step_eq hlists he ha.symm
  exact ⟨(a, p), he, ha, hstep, hstep ▸ execute_flows hc hfree hne c⟩

include hl

theorem Core.Listed.step (h : c.Listed l) (hs : Core.step hv c = .inl c') : c'.Listed l := by
  obtain ⟨e, he, ha, -, hflows⟩ := h.flows hc
  obtain ⟨hmem, hnext⟩ := hflows.next c' hs
  refine ⟨h.1.congr fun e' he' ↦ ?_, ?_⟩
  · exact (getSizedMemory_congr hmem (h.1 e' he').1 16).symm
  · obtain ⟨-, heip⟩ | hnext := hnext
    · exact ⟨e, he, ha.trans heip.symm⟩
    · obtain ⟨ss, hss, hin⟩ := hl e he
      exact List.mem_map.mp (hin (hnext ss (ha ▸ hss)))

theorem Core.Listed.reaches (h : c.Listed l) (hr : Reaches (Core.step hv) c c') : c'.Listed l :=
  hr.invariant (P := Core.Listed l) (fun _ _ hs h ↦ h.step hc hl hs) h

theorem Core.Listed.finishes (h : c.Listed l) (hr : Finishes (Core.step hv) c (r, c')) :
    ∃ e ∈ l, e.1 = c'.processor.eip ∧ ∃ t, Reaches (Core.step hv) c t ∧ t.processor.eip = e.1 ∧
      Core.execute hv e.2 t = .inr (r, c') := by
  obtain ⟨t, ht, hlast⟩ := hr.last
  obtain ⟨e, he, ha, hstep, hflows⟩ := (h.reaches hc hl ht).flows hc
  exact ⟨e, he, ha.trans (hflows.last r c' hlast).symm, t, ht, ha.symm, hstep ▸ hlast⟩

end Listings

/-- A closed listing of a program shows every instruction that it can execute: whatever the data
and the gas, under a host that leaves `eip` and the code alone, control never leaves the listing,
none of its bytes change, and a run ends for want of gas or because a listed instruction ends it. -/
theorem disassembly_sound (hv : Hypervisor σ) (hu : hv.Unmetered) (hc : hv.LeavesCode) {n : ℕ}
    (hn : 0 < n) (m : Machine σ) (l : List (BitVec 32 × Pipeline)) (hl : m.vm.Lists l)
    (hclosed : Closed l) (he : ∃ e ∈ l, e.1 = m.vm.eip) :
    (∀ c, Reaches (cycle hv) (start n m) c → c.machine.core.Listed l) ∧
    ∀ r m', Finishes (cycle hv) (start n m) (r, m') →
      ∃ e ∈ l, e.1 = m'.vm.eip ∧ (r = .err .outOfGas ∨ ∃ t, Reaches (Core.step hv) m.core t ∧
        t.processor.eip = e.1 ∧ Core.execute hv e.2 t = .inr (r, m'.core)) := by
  have hlisted : m.core.Listed l := ⟨hl.congr fun _ _ ↦ rfl, he⟩
  have hrun (c : Core σ) (h : Reaches (Core.step hv) m.core c) : c.Listed l :=
    hlisted.reaches hc hclosed h
  have hrep : RepFixedRun hv m.core := fun c h ↦ (hrun c h).repFixed
  have hfore (c : Core σ) (h : Reaches (Core.step hv) m.core c) : c.Foreseeable n :=
    (hrun c h).foreseeable n
  refine ⟨fun c h ↦ hrun _ (reaches_core hu hn hrep hfore h), fun r m' hr ↦ ?_⟩
  obtain ⟨rfl, hreach⟩ | ⟨-, hfin⟩ :=
    finishes_core hu hn (predictedRun_of_core hu hn hrep hfore) hrep hr
  · obtain ⟨e, he, ha⟩ := (hrun _ hreach).2
    exact ⟨e, he, ha, .inl rfl⟩
  · obtain ⟨e, he, ha, hlast⟩ := hlisted.finishes hc hclosed hfin
    exact ⟨e, he, ha, .inr hlast⟩

theorem testHypervisor_leavesCode : testHypervisor.LeavesCode :=
  ⟨fun _ _ _ ↦ rfl, fun _ _ _ ↦ .refl _⟩

/-- `dec ecx`, `jnz` back to it and `hlt`. -/
def countdown : BufferMemory :=
  ⟨[0x49, 0x75, 0xFD, 0xF4] ++ List.replicate 16 0, by decide⟩

def countdownListing : List (BitVec 32 × Pipeline) :=
  [(0x10000, instruction .decrementNativeWord ![regArg .ecx, {}, {}] 1 0x49),
    (0x10001, instruction .jcc ![byteArg 0xFD, {}, {}] 2 0x75),
    (0x10003, instruction .hlt ![{}, {}, {}] 1 0xF4)]

def countdownMachine : Machine (List (BitVec 8)) :=
  ⟨(createVm countdown).setReg32 .ecx 3, []⟩

theorem disassembly_sound_countdown : ∃ m', Finishes (cycle testHypervisor)
    (start PIPELINE_SIZE countdownMachine) (.ok true, m') ∧
      ∃ e ∈ countdownListing, e.1 = m'.vm.eip := by
  obtain ⟨⟨_, m'⟩, hr, rfl⟩ := Finishes.of_getRight
    (show (iterate (cycle testHypervisor) 4
      (start PIPELINE_SIZE countdownMachine)).getRight?.map Prod.fst = some (.ok true) by
        decide +kernel)
  obtain ⟨e, he, ha, -⟩ := (disassembly_sound testHypervisor testHypervisor_unmetered
    testHypervisor_leavesCode (n := PIPELINE_SIZE) (by decide) countdownMachine countdownListing
    (by decide +kernel) (by decide +kernel) (by decide +kernel)).2 _ m' hr
  exact ⟨m', hr, e, he, ha⟩

end Qx86
