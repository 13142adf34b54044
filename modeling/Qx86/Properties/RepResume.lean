import Qx86.Execute.Prediction
import Qx86.Properties.RepUnrolling

namespace Qx86

open Foundation Outcome Register

variable {σ : Type} {hv : Hypervisor σ} {p : Pipeline} {k : StringOp}

section Passes

theorem pass_frame {vm : VM} :
    (∀ vm', p.pass k vm = .inl vm' → vm.Frame vm' ∧ vm'.eip = vm.eip) := by
  intro vm' h
  have hframe := (k.op p.elementWidth).frame vm
  have heip := (k.op p.elementWidth).eip rfl vm
  unfold Pipeline.pass unroll at h
  split at h
  · cases h
  · rcases hop : (k.op p.elementWidth).run vm with ⟨_ | e | _, vm₁⟩ <;>
      rw [hop] at h hframe heip
    · simp only at h
      split at h
      · cases h
        exact ⟨hframe.trans (vm₁.decrementRegw_frame ..), (vm₁.decrementRegw_eip ..).trans heip⟩
      · cases h
    · cases h
    · cases h

theorem reaches_frame {vm vm' : VM} (h : Reaches (p.pass k) vm vm') :
    vm.Frame vm' ∧ vm'.eip = vm.eip := by
  refine h.invariant (P := fun t ↦ vm.Frame t ∧ t.eip = vm.eip) ?_ ⟨.refl vm, rfl⟩
  rintro s s' hs ⟨hframe, heip⟩
  obtain ⟨hframe', heip'⟩ := pass_frame s' hs
  exact ⟨hframe.trans hframe', heip'.trans heip⟩

theorem Pipeline.Affords.rest {cost gas : ℕ} {vm vm' : VM} (h : p.Affords k cost vm gas)
    (hr : Reaches (p.pass k) vm.bare vm'.bare) : p.Affords k cost vm' gas := by
  obtain ⟨n, hn⟩ := hr
  intro i t hi hc
  have := h (n + i) t ((iterate_add_inl hn i).trans hi) hc
  rw [Nat.add_mul] at this
  omega

end Passes

section Attempts

def Machine.bare (m : Machine σ) : Machine σ := { m with vm := m.vm.bare }

def bareResult : Machine σ ⊕ (Outcome VMError Bool × Machine σ) →
    Machine σ ⊕ (Outcome VMError Bool × Machine σ) :=
  Sum.map Machine.bare (Prod.map id Machine.bare)

def BreaksOff (r : Machine σ ⊕ (Outcome VMError Bool × Machine σ)) : Prop :=
  ∃ m, r = .inr (.err .outOfGas, m)

theorem bareResult_endSlot (p : Pipeline) (o : Outcome VMError Unit) (m : Machine σ) :
    bareResult (endSlot p (o, m)) = bareResult (endSlot p (o, m.bare)) := by
  cases o with
  | ok | panic => rfl
  | err e =>
    by_cases he : e = .internalVMStop
    · simp only [endSlot, if_pos he]
      rfl
    · simp only [endSlot, if_neg he]
      rfl

/-- How an attempt at a REP instruction ends: it breaks off at a head of the loop, or it
has the result of the unrolling. -/
theorem runSlot_repeated (h : p.Repeats k) (m : Machine σ) :
    (∃ m', runSlot hv p m = .inr (.err .outOfGas, m') ∧ m'.host = m.host ∧
      Reaches (p.pass k) m.vm.bare m'.vm.bare) ∨
    ∃ o vm', o ≠ .err .outOfGas ∧ Finishes (p.pass k) m.vm.bare (o, vm') ∧
      bareResult (runSlot hv p m) = bareResult (endSlot p (o, ⟨vm', m.host⟩)) ∧
      ¬m.vm.gasRemaining < p.gasCost ∧
      p.Affords k (m.vm.charger.cost (repOpcode p.opcode).gasCost).toNat m.vm
        (m.vm.gasRemaining.toNat - p.gasCost.toNat) := by
  by_cases hg : m.vm.gasRemaining < p.gasCost
  · exact .inl ⟨_, runSlot_broke hg, rfl, .refl ..⟩
  · obtain ⟨hhost, hrep⟩ := @call_repeated σ hv p k h (m.charge p.gasCost)
    rw [runSlot_call hg]
    rcases hcall : p.function.call hv p (m.charge p.gasCost) with ⟨o, m'⟩
    rw [hcall] at hhost hrep
    cases hrep with
    | broke _ i hi hc hle => exact .inl ⟨m'.fail, rfl, hhost, ⟨i, hi⟩⟩
    | done _ _ ho hf hafford =>
      refine .inr ⟨o, m'.vm.bare, ho, hf, ?_, hg, ?_⟩
      · rw [bareResult_endSlot]
        change m'.host = m.host at hhost
        rw [← hhost]
        rfl
      · have hgas := charge_gas m p.gasCost
        rw [hgas] at hafford
        exact hafford

end Attempts

section Execution

variable (hv) in
def firstCycle (m : Machine σ) : Machine σ ⊕ (Outcome VMError Bool × Machine σ) :=
  (cycle hv (start PIPELINE_SIZE m)).map (·.machine) id

variable (hv) in
/-- `execute`, which is given more gas and called again each time it runs out of gas. -/
def resumed : List (BitVec 64) → Machine σ → Machine σ ⊕ (Outcome VMError Bool × Machine σ)
  | [], m => firstCycle hv m
  | g :: gs, m =>
    match firstCycle hv m with
    | .inr (.err .outOfGas, m) => resumed gs (m.setGas g)
    | r => r

structure AtRep (p : Pipeline) (k : StringOp) (m : Machine σ) : Prop where
  readOnly : m.vm.eip < WRITEABLE_MEMORY
  repeats : p.Repeats k
  decodes : ∃ f, m.vm.decodeAt false m.vm.eip = .ok f ∧ f.slot = p

theorem AtRep.firstCycle_eq {m : Machine σ} (h : AtRep p k m) :
    firstCycle hv m = runSlot hv p m := by
  obtain ⟨f, hd, rfl⟩ := h.decodes
  have hrep : f.slot.function.isRep = true := by
    obtain hf | ⟨hf, -⟩ := h.repeats.legal <;> rw [hf] <;> rfl
  have hstop : f.stop = true := by
    cases hs : f.stop with
    | true => rfl
    | false =>
      obtain ⟨hno, -⟩ := not_isRep_of_not_stop hd hs
      rw [hrep] at hno
      cases hno
  have hfill : fillPipeline m.vm OPCODES (emptyPipeline PIPELINE_SIZE) =
      .ok (f.slot :: (List.replicate 15 default).map idleSlot) := by
    have hro := writeableAt_eq_false.mpr h.readOnly
    change fillLoop m.vm OPCODES (writeableAt m.vm.eip) m.vm.eip false m.vm.gasRemaining
      (default :: List.replicate 15 default) = _
    rw [hro, fillLoop_cons_ok hd, hstop, Bool.true_or, fillLoop_stopped, keepArgs_default hd]
    rfl
  unfold firstCycle cycle
  simp only [start, hfill, runSlots, runSlots_idle]
  cases runSlot hv f.slot m <;> rfl

theorem AtRep.again {m m' : Machine σ} (h : AtRep p k m)
    (hr : Reaches (p.pass k) m.vm.bare m'.vm.bare) : AtRep p k m' := by
  obtain ⟨f, hd, hf⟩ := h.decodes
  obtain ⟨hframe, heip⟩ := reaches_frame hr
  have hmem : m.vm.memory.Guarded m'.vm.memory := hframe.memory
  have hch : m'.vm.charger = m.vm.charger := hframe.charger
  change m'.vm.eip = m.vm.eip at heip
  have hst := decodeAt_stable hmem hch h.readOnly false
  refine ⟨by rw [heip]; exact h.readOnly, h.repeats, f, ?_, hf⟩
  rw [heip, hst, hd]

theorem resumed_broke {m m' : Machine σ} (h : firstCycle hv m = .inr (.err .outOfGas, m'))
    (g : BitVec 64) (gs : List (BitVec 64)) :
    resumed hv (g :: gs) m = resumed hv gs (m'.setGas g) := by
  rw [resumed, h]

theorem resumed_of_not_breaksOff {m : Machine σ} (h : ¬BreaksOff (firstCycle hv m))
    (gs : List (BitVec 64)) : resumed hv gs m = firstCycle hv m := by
  cases gs with
  | nil => rfl
  | cons g gs =>
    rw [resumed]
    split
    · next m' he => exact absurd ⟨m', he⟩ h
    · rfl

theorem not_breaksOff_endSlot {o : Outcome VMError Unit} (ho : o ≠ .err .outOfGas)
    (m : Machine σ) : ¬BreaksOff (bareResult (endSlot p (o, m))) := by
  rintro ⟨m', h⟩
  cases o with
  | ok | panic => cases h
  | err e =>
    by_cases he : e = .internalVMStop
    · simp only [endSlot, if_pos he] at h
      cases h
    · simp only [endSlot, if_neg he] at h
      cases h
      exact ho rfl

theorem breaksOff_bareResult {r : Machine σ ⊕ (Outcome VMError Bool × Machine σ)}
    (h : BreaksOff r) : BreaksOff (bareResult r) := by
  obtain ⟨m, rfl⟩ := h
  exact ⟨m.bare, rfl⟩

theorem AtRep.not_breaksOff {m m' : Machine σ} (h : AtRep p k m) {o : Outcome VMError Unit}
    (ho : o ≠ .err .outOfGas)
    (he : bareResult (runSlot hv p m) = bareResult (endSlot p (o, m'))) :
    ¬BreaksOff (firstCycle hv m) := by
  rw [h.firstCycle_eq]
  intro hb
  apply not_breaksOff_endSlot ho m'
  rw [← he]
  exact breaksOff_bareResult hb

/-- The result of an instruction that is run without a break. -/
structure Uninterrupted (p : Pipeline) (k : StringOp) (m : Machine σ)
    (r : Machine σ ⊕ (Outcome VMError Bool × Machine σ)) : Prop where
  finishes : ∃ o vm', o ≠ .err .outOfGas ∧ Finishes (p.pass k) m.vm.bare (o, vm') ∧
    bareResult r = bareResult (endSlot p (o, ⟨vm', m.host⟩))

theorem Uninterrupted.unique {m : Machine σ}
    {r r' : Machine σ ⊕ (Outcome VMError Bool × Machine σ)}
    (h : Uninterrupted p k m r) (h' : Uninterrupted p k m r') : bareResult r = bareResult r' := by
  obtain ⟨o, vm', -, hf, hr⟩ := h.finishes
  obtain ⟨o', vm'', -, hf', hr'⟩ := h'.finishes
  cases hf.unique hf'
  rw [hr, hr']

theorem Uninterrupted.of_reaches {m m' : Machine σ}
    {r : Machine σ ⊕ (Outcome VMError Bool × Machine σ)}
    (hr : Reaches (p.pass k) m.vm.bare m'.vm.bare) (hhost : m'.host = m.host)
    (h : Uninterrupted p k m' r) : Uninterrupted p k m r := by
  obtain ⟨o, vm', ho, hf, he⟩ := h.finishes
  rw [hhost] at he
  exact ⟨o, vm', ho, .of_reaches hr hf, he⟩

theorem resumed_uninterrupted (gs : List (BitVec 64)) {m : Machine σ} (h : AtRep p k m)
    (hb : ¬BreaksOff (resumed hv gs m)) : Uninterrupted p k m (resumed hv gs m) := by
  induction gs generalizing m with
  | nil =>
    rw [resumed, h.firstCycle_eq] at hb ⊢
    obtain ⟨m', hr, -, -⟩ | ⟨o, vm', ho, hf, he, -, -⟩ := runSlot_repeated h.repeats m
    · exact absurd ⟨m', hr⟩ hb
    · exact ⟨o, vm', ho, hf, he⟩
  | cons g gs ih =>
    obtain ⟨m', hr, hhost, hreach⟩ | ⟨o, vm', ho, hf, he, -, -⟩ := runSlot_repeated h.repeats m
    · rw [resumed_broke (h.firstCycle_eq.trans hr)] at hb ⊢
      have hreach' : Reaches (p.pass k) m.vm.bare (m'.setGas g).vm.bare := hreach
      exact .of_reaches hreach' hhost (ih (h.again hreach') hb)
    · have hno := h.not_breaksOff ho he
      rw [resumed_of_not_breaksOff hno, h.firstCycle_eq]
      exact ⟨o, vm', ho, hf, he⟩

theorem AtRep.of_affords {m : Machine σ} (h : AtRep p k m) (hg : ¬m.vm.gasRemaining < p.gasCost)
    (ha : p.Affords k (m.vm.charger.cost (repOpcode p.opcode).gasCost).toNat m.vm
      (m.vm.gasRemaining.toNat - p.gasCost.toNat)) : ¬BreaksOff (firstCycle hv m) := by
  obtain ⟨-, hrep⟩ := @call_repeated σ hv p k h.repeats (m.charge p.gasCost)
  have hgas := charge_gas m p.gasCost
  have ho := hrep.ne_outOfGas (by rw [hgas]; exact ha)
  exact h.not_breaksOff ho (congrArg bareResult (runSlot_call hg))

theorem resumed_enough {cost : ℕ} {G : BitVec 64} (hcost : ¬G < p.gasCost)
    (gs : List (BitVec 64)) {m : Machine σ} (h : AtRep p k m)
    (hc : (m.vm.charger.cost (repOpcode p.opcode).gasCost).toNat = cost)
    (ha : p.Affords k cost m.vm (G.toNat - p.gasCost.toNat)) :
    ¬BreaksOff (resumed hv (gs ++ [G]) m) := by
  induction gs generalizing m with
  | nil =>
    obtain ⟨m', hr, -, hreach⟩ | ⟨o, vm', ho, -, he, -, -⟩ := runSlot_repeated h.repeats m
    · have hreach' : Reaches (p.pass k) m.vm.bare (m'.setGas G).vm.bare := hreach
      have hch : (m'.setGas G).vm.charger = m.vm.charger := (reaches_frame hreach').1.charger
      rw [List.nil_append, resumed_broke (h.firstCycle_eq.trans hr)]
      refine (h.again hreach').of_affords hcost ?_
      rw [hch, hc]
      exact ha.rest hreach'
    · have hno := h.not_breaksOff ho he
      rw [resumed_of_not_breaksOff hno]
      exact hno
  | cons g gs ih =>
    obtain ⟨m', hr, -, hreach⟩ | ⟨o, vm', ho, -, he, -, -⟩ := runSlot_repeated h.repeats m
    · have hreach' : Reaches (p.pass k) m.vm.bare (m'.setGas g).vm.bare := hreach
      have hch : (m'.setGas g).vm.charger = m.vm.charger := (reaches_frame hreach').1.charger
      rw [List.cons_append, resumed_broke (h.firstCycle_eq.trans hr)]
      exact ih (h.again hreach') (by rw [hch, hc]) (ha.rest hreach')
    · have hno := h.not_breaksOff ho he
      rw [resumed_of_not_breaksOff hno]
      exact hno

end Execution

/-- A REP string instruction in read-only memory is resumable. However often it runs out of
gas, it ends as it does with enough gas at once: with the same registers, flags, `eip` and
memory. -/
theorem rep_resumable {m : Machine σ} (h : AtRep p k m) (G : BitVec 64)
    (henough : ¬BreaksOff (firstCycle hv (m.setGas G))) (gs : List (BitVec 64)) :
    (¬BreaksOff (resumed hv gs m) →
      bareResult (resumed hv gs m) = bareResult (firstCycle hv (m.setGas G))) ∧
    bareResult (resumed hv (gs ++ [G]) m) = bareResult (firstCycle hv (m.setGas G)) := by
  have hG : AtRep p k (m.setGas G) := h.again (.refl _ m.vm.bare)
  have hwhole : Uninterrupted p k m (firstCycle hv (m.setGas G)) :=
    .of_reaches (.refl _ (m.setGas G).vm.bare) rfl (resumed_uninterrupted [] hG henough)
  refine ⟨fun hb ↦ (resumed_uninterrupted gs h hb).unique hwhole, ?_⟩
  have hb : ¬BreaksOff (resumed hv (gs ++ [G]) m) := by
    obtain ⟨m', hr, -, -⟩ | ⟨o, vm', ho, -, -, hcost, ha⟩ :=
      @runSlot_repeated σ hv p k h.repeats (m.setGas G)
    · rw [hG.firstCycle_eq] at henough
      exact absurd ⟨m', hr⟩ henough
    · exact resumed_enough hcost gs h rfl ha
  exact (resumed_uninterrupted (gs ++ [G]) h hb).unique hwhole

theorem atRep_stosb : AtRep stosbSlot .storeString ((stosbMachine 2).setGas 11) where
  readOnly := by decide
  repeats := stosbSlot_repeats
  decodes := ⟨⟨stosbSlot, CODE_MEM, true⟩, by decide +kernel, rfl⟩

/-- REP STOSB of two bytes, broken off after the first one and then before it starts. -/
theorem rep_resumable_stosb :
    bareResult (resumed testHypervisor ([9] ++ [18]) ((stosbMachine 2).setGas 11)) =
      bareResult (firstCycle testHypervisor (((stosbMachine 2).setGas 11).setGas 18)) := by
  refine (rep_resumable atRep_stosb 18 ?_ [9]).2
  have hends : (firstCycle testHypervisor (((stosbMachine 2).setGas 11).setGas 18)).isLeft =
      true := by
    decide +kernel
  rintro ⟨m, hm⟩
  rw [hm] at hends
  cases hends

end Qx86
