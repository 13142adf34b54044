import Qx86.Execute.Lookahead

namespace Qx86

open Foundation Outcome Words

variable {σ : Type} {hv : Hypervisor σ}

/-- An address that filling decodes, with what it finds there. -/
structure Visit where
  eip : BitVec 32
  decoded : Outcome VMError Filled
  deriving DecidableEq

def VM.walk (vm : VM) (writeable : Bool) : ℕ → BitVec 32 → BitVec 64 → List Visit
  | 0, _, _ => []
  | n + 1, eip, gas =>
    ⟨eip, vm.decodeAt writeable eip⟩ ::
      match vm.decodeAt writeable eip with
      | .ok f =>
        let gas := saturatingSub gas f.slot.gasCost
        if f.stop || gas == 0 then [] else vm.walk writeable n f.next gas
      | _ => []

def VM.visits (vm : VM) (n : ℕ) : List Visit :=
  vm.walk (writeableAt vm.eip) n vm.eip vm.gasRemaining

/-- Looking ahead is harmless: the instructions decoded beyond the first lie in read-only
memory, decode, and repeat string functions only, and none is decoded past an `enter`. -/
structure Predicted (visits : List Visit) : Prop where
  readOnly : ∀ v ∈ visits.tail, v.eip < WRITEABLE_MEMORY
  decodes : ∀ v ∈ visits.tail, ∃ f, v.decoded = .ok f ∧ f.slot.ArgFree
  enter : ∀ v ∈ visits.dropLast, ∀ f, v.decoded = .ok f →
    f.slot.function ≠ .opcode (.logic .enter)

instance (v : Visit) : Decidable (∃ f, v.decoded = .ok f ∧ f.slot.ArgFree) :=
  match h : v.decoded with
  | .ok f => decidable_of_iff f.slot.ArgFree (by simp)
  | .err _ => .isFalse (by simp)
  | .panic => .isFalse (by simp)

instance (v : Visit) : Decidable (∃ f, v.decoded = .ok f) :=
  match h : v.decoded with
  | .ok f => .isTrue ⟨f, rfl⟩
  | .err _ => .isFalse (by simp)
  | .panic => .isFalse (by simp)

instance (v : Visit) (fn : SlotFn) :
    Decidable (∀ f, v.decoded = .ok f → f.slot.function ≠ fn) :=
  match h : v.decoded with
  | .ok f => decidable_of_iff (f.slot.function ≠ fn) (by simp)
  | .err _ => .isTrue (by simp)
  | .panic => .isTrue (by simp)

instance (visits : List Visit) : Decidable (Predicted visits) :=
  decidable_of_iff ((∀ v ∈ visits.tail, v.eip < WRITEABLE_MEMORY) ∧
      (∀ v ∈ visits.tail, ∃ f, v.decoded = .ok f ∧ f.slot.ArgFree) ∧
      ∀ v ∈ visits.dropLast, ∀ f, v.decoded = .ok f →
        f.slot.function ≠ .opcode (.logic .enter))
    ⟨fun h ↦ ⟨h.1, h.2.1, h.2.2⟩, fun h ↦ ⟨h.readOnly, h.decodes, h.enter⟩⟩

theorem Predicted.of_length_le_one {visits : List Visit} (h : visits.length ≤ 1) :
    Predicted visits := by
  have htail : visits.tail = [] := by
    apply List.eq_nil_of_length_eq_zero
    rw [List.length_tail]
    omega
  have hinit : visits.dropLast = [] := by
    apply List.eq_nil_of_length_eq_zero
    rw [List.length_dropLast]
    omega
  constructor
  · simp [htail]
  · simp [htail]
  · simp [hinit]

theorem Predicted.tail {v : Visit} {visits : List Visit} (h : Predicted (v :: visits)) :
    Predicted visits where
  readOnly u hu := h.readOnly u (List.mem_of_mem_tail hu)
  decodes u hu := h.decodes u (List.mem_of_mem_tail hu)
  enter u hu := h.enter u <| by
    cases visits with
    | nil => cases hu
    | cons w visits => exact List.mem_cons_of_mem _ hu

theorem walk_of_ok {vm : VM} {writeable : Bool} {n : ℕ} {eip : BitVec 32} {gas : BitVec 64}
    {f : Filled} (h : vm.decodeAt writeable eip = .ok f) :
    vm.walk writeable (n + 1) eip gas = ⟨eip, .ok f⟩ ::
      if f.stop || saturatingSub gas f.slot.gasCost == 0 then []
      else vm.walk writeable n f.next (saturatingSub gas f.slot.gasCost) := by
  simp only [VM.walk, h]

theorem fillLoop_cons_ok {vm : VM} {writeable : Bool} {eip : BitVec 32} {gas : BitVec 64}
    {p : Pipeline} {ps : List Pipeline} {f : Filled} (h : vm.decodeAt writeable eip = .ok f) :
    fillLoop vm OPCODES writeable eip false gas (p :: ps) =
      fillLoop vm OPCODES writeable f.next
        (f.stop || saturatingSub gas f.slot.gasCost == 0)
        (saturatingSub gas f.slot.gasCost) ps >>= fun rest ↦
      .ok ((f.keepArgs p.args).slot :: rest) := by
  simp only [fillLoop]
  rw [fillSlot_keepArgs]
  change vm.decodeAt writeable eip >>= _ >>= _ = _
  rw [h]
  simp

theorem fillLoop_cons_fail {vm : VM} {writeable : Bool} {eip : BitVec 32} {gas : BitVec 64}
    {p : Pipeline} {ps : List Pipeline} :
    (∀ e, vm.decodeAt writeable eip = .err e →
      fillLoop vm OPCODES writeable eip false gas (p :: ps) = .err e) ∧
    (vm.decodeAt writeable eip = .panic →
      fillLoop vm OPCODES writeable eip false gas (p :: ps) = .panic) := by
  simp only [fillLoop]
  rw [fillSlot_keepArgs]
  change (∀ e, _ → vm.decodeAt writeable eip >>= _ >>= _ = _) ∧
    (_ → vm.decodeAt writeable eip >>= _ >>= _ = _)
  exact ⟨fun e h ↦ by rw [h]; rfl, fun h ↦ by rw [h]; rfl⟩

theorem fillLoop_cons_eq_ok {vm : VM} {writeable : Bool} {eip : BitVec 32} {gas : BitVec 64}
    {p : Pipeline} {ps slots : List Pipeline}
    (h : fillLoop vm OPCODES writeable eip false gas (p :: ps) = .ok slots) :
    ∃ f rest, vm.decodeAt writeable eip = .ok f ∧
      fillLoop vm OPCODES writeable f.next (f.stop || saturatingSub gas f.slot.gasCost == 0)
        (saturatingSub gas f.slot.gasCost) ps = .ok rest ∧
      slots = (f.keepArgs p.args).slot :: rest := by
  cases hd : vm.decodeAt writeable eip with
  | err e =>
    rw [fillLoop_cons_fail.1 e hd] at h
    cases h
  | panic =>
    rw [fillLoop_cons_fail.2 hd] at h
    cases h
  | ok f =>
    rw [fillLoop_cons_ok hd] at h
    obtain ⟨rest, hrest, h⟩ := bind_eq_ok.mp h
    exact ⟨f, rest, rfl, hrest, (Outcome.ok.inj h).symm⟩

theorem keepArgs_default {vm : VM} {writeable : Bool} {eip : BitVec 32} {f : Filled}
    (h : vm.decodeAt writeable eip = .ok f) : f.keepArgs (default : Pipeline).args = f := by
  have hk := fillSlot_keepArgs vm writeable eip default
  change vm.decodeAt _ _ = vm.decodeAt _ _ >>= _ at hk
  rw [h, ok_bind, ok.injEq] at hk
  exact hk.symm

theorem not_isRep_of_not_stop {vm : VM} {writeable : Bool} {eip : BitVec 32} {f : Filled}
    (h : vm.decodeAt writeable eip = .ok f) (hs : f.stop = false) :
    f.slot.function.isRep = false ∧ writeable = false := by
  obtain ⟨_, _, _, -, -, -, hf⟩ := fillSlot_eq_ok h
  cases hf with
  | rep _ _ _ he => rw [he] at hs; cases hs
  | opcode _ slot _ _ _ hd _ he =>
    rw [he] at hs ⊢
    rw [surcharge_function, hd.function]
    exact ⟨rfl, (Bool.or_eq_false_iff.mp hs).2⟩

theorem fillLoop_ok {vm : VM} {writeable : Bool} (ps : List Pipeline) (eip : BitVec 32)
    (gas : BitVec 64)
    (h : ∀ v ∈ vm.walk writeable ps.length eip gas, ∃ f, v.decoded = .ok f) :
    ∃ slots, fillLoop vm OPCODES writeable eip false gas ps = .ok slots := by
  induction ps generalizing eip gas with
  | nil => exact ⟨[], rfl⟩
  | cons p ps ih =>
    obtain ⟨f, hf⟩ := h ⟨eip, vm.decodeAt writeable eip⟩ (by simp [VM.walk])
    rw [List.length_cons, walk_of_ok hf] at h
    rw [fillLoop_cons_ok hf]
    cases hs : f.stop || saturatingSub gas f.slot.gasCost == 0 with
    | true => exact ⟨_, by rw [fillLoop_stopped]; rfl⟩
    | false =>
      obtain ⟨rest, hr⟩ := ih f.next (saturatingSub gas f.slot.gasCost) fun v hv ↦
        h v (List.mem_cons_of_mem _ (by rwa [hs, if_neg Bool.false_ne_true]))
      exact ⟨_, by rw [hr]; rfl⟩

theorem fillLoop_length {vm : VM} {opcodes : OpcodeTable} {writeable : Bool}
    {ps slots : List Pipeline} {eip : BitVec 32} {stop : Bool} {gas : BitVec 64}
    (h : fillLoop vm opcodes writeable eip stop gas ps = .ok slots) :
    slots.length = ps.length := by
  induction ps generalizing eip stop gas slots with
  | nil => cases h; rfl
  | cons p ps ih =>
    cases stop with
    | true =>
      obtain ⟨rest, hr, h⟩ := Outcome.bind_eq_ok.mp h
      cases h
      exact congrArg (· + 1) (ih hr)
    | false =>
      obtain ⟨f, -, h⟩ := Outcome.bind_eq_ok.mp h
      obtain ⟨rest, hr, h⟩ := Outcome.bind_eq_ok.mp h
      cases h
      exact congrArg (· + 1) (ih hr)

theorem clearPipeline_length (ps : List Pipeline) : (clearPipeline ps).length = ps.length := by
  cases ps <;> rfl

theorem cycle_pipeline_length {c c' : Running σ}
    (h : cycle hv c = .inl c') : c'.pipeline.length = c.pipeline.length := by
  rw [← clearPipeline_length c.pipeline]
  exact fillLoop_length (cycle_eq_inl h).1

theorem reaches_pipeline_length {n : ℕ} {m : Machine σ} {c : Running σ}
    (h : Reaches (cycle hv) (start n m) c) : c.pipeline.length = n :=
  h.invariant (P := fun d ↦ d.pipeline.length = n)
    (fun _ _ hs hd ↦ (cycle_pipeline_length hs).trans hd) (by simp [start, emptyPipeline])

def Decodes (hv : Hypervisor σ) (p : Pipeline) (m : Machine σ) : Prop :=
  ∀ g, stepOne hv (m.setGas g) = runSlot hv p (m.setGas g)

/-- Slots each of which is, when it is reached, the one that is decoded there. -/
inductive Follows (hv : Hypervisor σ) : List Pipeline → Machine σ → Prop
  | idle (ps : List Pipeline) (m : Machine σ) : Follows hv (ps.map idleSlot) m
  | cons (p : Pipeline) (ps : List Pipeline) (m : Machine σ) (hd : Decodes hv p m)
      (next : ∀ m', runSlot hv p m = .inl m' → Follows hv ps m') : Follows hv (p :: ps) m

theorem Decodes.stepOne {p : Pipeline} {m : Machine σ} (h : Decodes hv p m) :
    stepOne hv m = runSlot hv p m := by
  simpa using h m.vm.gasRemaining

theorem Follows.steps {slots : List Pipeline} {m : Machine σ} (h : Follows hv slots m) :
    ∃ k, iterate (Qx86.stepOne hv) k m = runSlots hv slots m := by
  induction h with
  | idle ps m => exact ⟨0, (runSlots_idle ps m).symm⟩
  | cons p ps m hd _ ih =>
    cases hs : runSlot hv p m with
    | inr r => exact ⟨1, by simp only [iterate, hd.stepOne, runSlots, hs]⟩
    | inl m' =>
      obtain ⟨k, hk⟩ := ih m' hs
      exact ⟨k + 1, by simp only [iterate, hd.stepOne, runSlots, hs, hk]⟩

theorem Follows.step {p : Pipeline} {ps : List Pipeline} {m : Machine σ}
    (h : Follows hv (p :: ps) m) (hd : Decodes hv p m) :
    ∃ k, iterate (Qx86.stepOne hv) (k + 1) m = runSlots hv (p :: ps) m := by
  have hnext : ∀ m', runSlot hv p m = .inl m' → Follows hv ps m' := by
    generalize hq : p :: ps = qs at h
    cases h with
    | idle rs =>
      cases rs with
      | nil => cases hq
      | cons r rs =>
        cases hq
        intro m' hm
        rw [runSlot_idle] at hm
        cases hm
        exact .idle rs m
    | cons _ _ _ _ next => cases hq; exact next
  cases hs : runSlot hv p m with
  | inr r => exact ⟨0, by simp only [iterate, hd.stepOne, runSlots, hs]⟩
  | inl m' =>
    obtain ⟨k, hk⟩ := (hnext m' hs).steps
    exact ⟨k, by rw [iterate_succ_inl (hd.stepOne.trans hs), hk, runSlots, hs]⟩

/-- Running the slots of one fill is running its instructions one at a time. -/
theorem follows_fill {vm : VM} {writeable : Bool} (ps : List Pipeline) (eip : BitVec 32)
    (gas : BitVec 64) {slots : List Pipeline} {m : Machine σ}
    (hfill : fillLoop vm OPCODES writeable eip false gas ps = .ok slots)
    (hp : Predicted (vm.walk writeable ps.length eip gas)) (hw : writeable = writeableAt eip)
    (heip : m.vm.eip = eip)
    (hdec : m.vm.decodeAt writeable eip = vm.decodeAt writeable eip)
    (hmem : vm.memory.Guarded m.vm.memory) (hch : m.vm.charger = vm.charger)
    (hargs : ∀ p ∈ ps.head?, ∀ f, vm.decodeAt writeable eip = .ok f →
      p.args = (default : Pipeline).args ∧ f.keepArgs p.args = f ∨ f.slot.ArgFree) :
    Follows hv slots m ∧ ∀ p ∈ slots.head?, Decodes hv p m := by
  induction ps generalizing eip gas slots m with
  | nil =>
    cases hfill
    exact ⟨.idle [] m, nofun⟩
  | cons p ps ih =>
    obtain ⟨f, rest, hf, hrest, rfl⟩ := fillLoop_cons_eq_ok hfill
    have hd : Decodes hv (f.keepArgs p.args).slot m := fun g ↦ by
      rw [runSlot_keepArgs (hargs p rfl f hf), stepOne, Machine.setGas_vm, VM.setGas_eip,
        decodeAt_setGas, heip, ← hw, hdec, hf]
    refine ⟨.cons _ _ _ hd fun m' hs ↦ ?_, fun q hq ↦ ?_⟩
    · rw [List.length_cons, walk_of_ok hf] at hp
      cases hstop : f.stop || saturatingSub gas f.slot.gasCost == 0 with
      | true =>
        rw [hstop, fillLoop_stopped] at hrest
        cases hrest
        exact .idle ps m'
      | false =>
        rw [hstop] at hrest hp
        simp only [Bool.false_eq_true, if_false] at hp
        cases ps with
        | nil =>
          cases hrest
          exact .idle [] m'
        | cons q qs =>
          have hmem' : (⟨f.next, vm.decodeAt writeable f.next⟩ : Visit) ∈
              vm.walk writeable (q :: qs).length f.next
                (saturatingSub gas f.slot.gasCost) := by
            simp [VM.walk]
          have hro := hp.readOnly _ hmem'
          have hne : f.slot.function ≠ .opcode (.logic .enter) :=
            hp.enter ⟨eip, .ok f⟩ (by simp [VM.walk]) f rfl
          rw [runSlot_keepArgs (hargs p rfl f hf)] at hs
          simp only [Bool.or_eq_false_iff] at hstop
          obtain ⟨hnext, hguard, hcharger⟩ :=
            runSlot_next (heip ▸ hdec.trans hf) hstop.1 hne hs
          have hw' : writeable = false := (not_isRep_of_not_stop hf hstop.1).2
          have hguard' := hmem.trans hguard
          have hcharger' := hcharger.trans hch
          exact (ih f.next (saturatingSub gas f.slot.gasCost) hrest hp.tail
            (by rw [hw', writeableAt_eq_false.mpr hro]) hnext
            (decodeAt_stable hguard' hcharger' hro writeable) hguard' hcharger'
            (fun q' _ f' hf' ↦ by
              obtain ⟨g, hg, ha⟩ := hp.decodes _ hmem'
              have := hf'.symm.trans hg
              cases this
              exact .inr ha)).1
    · obtain rfl : (f.keepArgs p.args).slot = q := by simpa using hq
      exact hd

/-- An instruction of a fill that no `enter` leads astray is the first of the fill or
runs at an address that filling looked ahead to. -/
theorem trace_visits {vm : VM} {writeable : Bool} (ps : List Pipeline) (eip : BitVec 32)
    (gas : BitVec 64) {slots : List Pipeline} {m m' : Machine σ} {p : Pipeline}
    (hfill : fillLoop vm OPCODES writeable eip false gas ps = .ok slots)
    (hne : ∀ v ∈ (vm.walk writeable ps.length eip gas).dropLast, ∀ f, v.decoded = .ok f →
      f.slot.function ≠ .opcode (.logic .enter))
    (heip : m.vm.eip = eip) (hp : (p, m') ∈ trace hv slots m) (hi : p.eipSize ≠ 0) :
    slots.head? = some p ∧ m' = m ∨
      ∃ v ∈ (vm.walk writeable ps.length eip gas).tail, v.eip = m'.vm.eip := by
  induction ps generalizing eip gas slots m with
  | nil => cases hfill; cases hp
  | cons q ps ih =>
    obtain ⟨f, rest, hf, hrest, rfl⟩ := fillLoop_cons_eq_ok hfill
    rw [List.length_cons, walk_of_ok hf] at hne ⊢
    simp only [trace, List.mem_cons, Prod.mk.injEq] at hp
    obtain ⟨rfl, rfl⟩ | hp := hp
    · exact .inl ⟨rfl, rfl⟩
    · right
      split at hp
      · next m₁ hs =>
        cases hstop : f.stop || saturatingSub gas f.slot.gasCost == 0 with
        | true =>
          rw [hstop, fillLoop_stopped] at hrest
          cases hrest
          exact absurd (eipSize_of_mem_trace_idle hp) hi
        | false =>
          rw [hstop] at hrest hne
          simp only [Bool.false_eq_true, if_false, List.tail_cons] at hne ⊢
          simp only [Bool.or_eq_false_iff] at hstop
          cases ps with
          | nil => cases hrest; cases hp
          | cons r rs =>
            have hkeep : f.keepArgs q.args = f := by
              rw [Filled.keepArgs, (not_isRep_of_not_stop hf hstop.1).1]
              rfl
            rw [hkeep] at hs
            obtain ⟨v, vs, hvs, hv⟩ : ∃ v vs, vm.walk writeable (r :: rs).length f.next
                (saturatingSub gas f.slot.gasCost) = v :: vs ∧ v.eip = f.next :=
              ⟨_, _, rfl, rfl⟩
            rw [hvs] at hne ⊢
            obtain ⟨hnext, -⟩ := runSlot_next (heip ▸ hf) hstop.1
              (hne ⟨eip, .ok f⟩ (by simp) f rfl) hs
            obtain ⟨-, rfl⟩ | ⟨u, hu, he⟩ := ih f.next _ hrest
              (fun u hu ↦ hne u (List.mem_cons_of_mem _ (hvs ▸ hu))) hnext hp
            · exact ⟨v, List.mem_cons_self, hv.trans hnext.symm⟩
            · exact ⟨u, List.mem_of_mem_tail (hvs ▸ hu), he⟩
      · cases hp

theorem follows_cycle {c : Running σ} {slots : List Pipeline}
    (hfill : fillPipeline c.machine.vm OPCODES c.pipeline = .ok slots)
    (hp : Predicted (c.machine.vm.visits c.pipeline.length)) :
    Follows hv slots c.machine ∧ ∀ p ∈ slots.head?, Decodes hv p c.machine := by
  rw [← clearPipeline_length] at hp
  refine follows_fill _ _ _ hfill hp rfl rfl rfl (.refl _) rfl fun p hq g hg ↦ ?_
  obtain rfl : default = p := by
    cases hc : c.pipeline with
    | nil => rw [hc] at hq; cases hq
    | cons => rw [hc] at hq; simpa [clearPipeline] using hq
  exact .inl ⟨rfl, keepArgs_default hg⟩

/-- A predicted cycle is one or more instructions of the machine that does not look
ahead. -/
theorem macroStep_cycle {c : Running σ} (hne : c.pipeline ≠ [])
    (hp : Predicted (c.machine.vm.visits c.pipeline.length)) :
    MacroStep (cycle hv) (stepOne hv) Running.machine c := by
  obtain ⟨m, pipeline⟩ := c
  cases pipeline with
  | nil => exact absurd rfl hne
  | cons p ps =>
    have hclear : clearPipeline (p :: ps) = default :: ps := rfl
    cases hd : m.vm.decodeAt (writeableAt m.vm.eip) m.vm.eip with
    | err e =>
      refine ⟨0, ?_⟩
      simp only [iterate, stepOne, hd, cycle, fillPipeline, hclear,
        fillLoop_cons_fail.1 e hd]
      rfl
    | panic =>
      refine ⟨0, ?_⟩
      simp only [iterate, stepOne, hd, cycle, fillPipeline, hclear, fillLoop_cons_fail.2 hd]
      rfl
    | ok f =>
      obtain ⟨slots, hslots⟩ := @fillLoop_ok m.vm (writeableAt m.vm.eip) (default :: ps)
        m.vm.eip m.vm.gasRemaining <| by
          intro v hv'
          rw [List.length_cons, walk_of_ok hd] at hv'
          obtain rfl | hv' := List.mem_cons.mp hv'
          · exact ⟨f, rfl⟩
          · obtain ⟨g, hg, -⟩ := hp.decodes v <| by
              simp only [VM.visits, List.length_cons, walk_of_ok hd, List.tail_cons]
              exact hv'
            exact ⟨g, hg⟩
      have hfill : fillPipeline m.vm OPCODES (p :: ps) = .ok slots := hslots
      obtain ⟨hfollows, hhead⟩ := @follows_cycle _ hv ⟨m, p :: ps⟩ slots hfill hp
      cases slots with
      | nil => cases fillLoop_length hslots
      | cons q qs =>
        obtain ⟨k, hk⟩ := hfollows.step (hhead q rfl)
        refine ⟨k, ?_⟩
        change iterate _ _ m = _
        rw [hk]
        simp only [cycle, hfill]
        cases runSlots hv (q :: qs) m <;> rfl

end Qx86
