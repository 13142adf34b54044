import Qx86.Execute.Image
import Qx86.Execute.Metering
import Qx86.Properties.PipelineSize

namespace Qx86

open Foundation Outcome Words

variable {σ : Type} {hv : Hypervisor σ}

variable (hv) in
def spent (l : List (Pipeline × Machine σ)) : ℕ := (l.map fun x ↦ slotSpent hv x.1 x.2).sum

variable (hv) in
/-- The slots that a number of cycles executes, each with the machine as it finds it. -/
def executed : ℕ → Running σ → List (Pipeline × Machine σ)
  | 0, _ => []
  | k + 1, c =>
    match fillPipeline c.machine.vm OPCODES c.pipeline with
    | .ok slots =>
      trace hv slots c.machine ++
        match runSlots hv slots c.machine with
        | .inl m => executed k ⟨m, slots⟩
        | .inr _ => []
    | _ => []

variable (hv) in
/-- Every slot is charged exactly, or others that cost something come after it. -/
def Repaid : List (Pipeline × Machine σ) → Prop
  | [] => True
  | x :: l => (x.1.Exact x.2.vm ∨ 0 < spent hv l) ∧ Repaid l

@[simp] theorem spent_nil : spent hv ([] : List (Pipeline × Machine σ)) = 0 := rfl

@[simp] theorem spent_cons (x : Pipeline × Machine σ) (l : List (Pipeline × Machine σ)) :
    spent hv (x :: l) = slotSpent hv x.1 x.2 + spent hv l := by
  simp [spent]

@[simp] theorem spent_append (l l' : List (Pipeline × Machine σ)) :
    spent hv (l ++ l') = spent hv l + spent hv l' := by
  simp [spent]

theorem Repaid.of_append {l l' : List (Pipeline × Machine σ)} (h : Repaid hv (l ++ l')) :
    Repaid hv l' := by
  induction l with
  | nil => exact h
  | cons x l ih => exact ih h.2

theorem slotSpent_idle (p : Pipeline) (m : Machine σ) : slotSpent hv (idleSlot p) m = 0 := by
  rw [slotSpent, idleSlot, SlotFn.passes, Nat.zero_mul]
  rfl

theorem spent_trace_idle (ps : List Pipeline) (m : Machine σ) :
    spent hv (trace hv (ps.map idleSlot) m) = 0 := by
  induction ps with
  | nil => rfl
  | cons p ps ih => simp only [List.map_cons, trace, runSlot_idle, spent_cons, slotSpent_idle, ih]

theorem ledger_follows (h : hv.Oblivious) {slots : List Pipeline} {m : Machine σ}
    (hf : Follows hv slots m) {l : List (Pipeline × Machine σ)}
    {r : Outcome VMError Bool × Machine σ} (hr : r.1 = .ok true)
    (hp : Repaid hv (trace hv slots m ++ l))
    (hl : ∀ m', runSlots hv slots m = .inl m' →
      (machinePurse σ).Ledger (2 ^ 64) (resultPurse σ Bool) (stepOne hv) m' (spent hv l) r)
    (he : ∀ r', runSlots hv slots m = .inr r' → l = [] ∧ r' = r) :
    (machinePurse σ).Ledger (2 ^ 64) (resultPurse σ Bool) (stepOne hv) m
      (spent hv (trace hv slots m ++ l)) r := by
  induction hf with
  | idle ps m =>
    rw [spent_append, spent_trace_idle, Nat.zero_add]
    exact hl m (runSlots_idle ps m)
  | cons p ps m hd _ ih =>
    have hm (hs : Succeeds (runSlot hv p m)) := (runSlot_metered h hs).congr hd.stepOne
      (fun g ↦ hd _) id
    cases hs : runSlot hv p m with
    | inr r' =>
      obtain ⟨rfl, rfl⟩ := he r' (by simp only [runSlots, hs])
      simp only [trace, hs, List.append_nil, spent_cons, spent_nil, Nat.add_zero] at hp ⊢
      refine .last _ _ _ _ (hd.stepOne.trans hs) (hm ?_) (hp.1.resolve_right (by simp))
      intro r hr'
      rw [hs] at hr'
      cases hr'
      exact hr
    | inl m' =>
      simp only [trace, runSlots, hs, List.cons_append, spent_cons] at hp hl he ⊢
      refine .next _ _ _ _ _ _ (hd.stepOne.trans hs) (hm ?_) hp.1 (ih m' hs hp.2 hl he)
      intro r hr'
      rw [hs] at hr'
      cases hr'

theorem cycle_of_filled (hv : Hypervisor σ) {c : Running σ} {slots : List Pipeline}
    (hfill : fillPipeline c.machine.vm OPCODES c.pipeline = .ok slots) :
    cycle hv c = (runSlots hv slots c.machine).map (⟨·, slots⟩) id := by
  rw [cycle, hfill]

theorem ledger_run (h : hv.Oblivious) {k : ℕ} {c : Running σ} {m : Machine σ}
    (hp : ∀ d, Reaches (cycle hv) c d → Predicted (d.machine.vm.visits d.pipeline.length))
    (hrun : iterate (cycle hv) k c = .inr (.ok true, m)) (hr : Repaid hv (executed hv k c)) :
    (machinePurse σ).Ledger (2 ^ 64) (resultPurse σ Bool) (stepOne hv) c.machine
      (spent hv (executed hv k c)) (.ok true, m) := by
  induction k generalizing c with
  | zero => cases hrun
  | succ k ih =>
    cases hfill : fillPipeline c.machine.vm OPCODES c.pipeline with
    | err e | panic =>
      rw [iterate_succ_inr (by rw [cycle, hfill])] at hrun
      cases hrun
    | ok slots =>
      have hcycle := cycle_of_filled hv hfill
      simp only [executed, hfill] at hr ⊢
      refine ledger_follows h (follows_cycle hfill (hp c (.refl ..))).1 rfl hr ?_ ?_
      · intro m' hs
        rw [hs] at hcycle hr ⊢
        rw [iterate_succ_inl hcycle] at hrun
        exact ih (fun d hd ↦ hp d (.head hcycle hd)) hrun hr.of_append
      · intro r hs
        rw [hs] at hcycle ⊢
        rw [iterate_succ_inr hcycle] at hrun
        exact ⟨rfl, Sum.inr.inj hrun⟩

section Cut

def CutShort (gas : BitVec 64) (slots slots' : List Pipeline) : Prop :=
  ∃ head rest rest' : List Pipeline, slots = head ++ rest.map idleSlot ∧ slots' = head ++ rest' ∧
    gas.toNat ≤ Pipeline.totalCost head

theorem Pipeline.totalCost_cons (p : Pipeline) (ps : List Pipeline) :
    totalCost (p :: ps) = p.gasCost.toNat + totalCost ps := by
  simp [totalCost]

theorem CutShort.cons {gas : BitVec 64} {slots slots' : List Pipeline} {p : Pipeline}
    (h : CutShort (saturatingSub gas p.gasCost) slots slots') :
    CutShort gas (p :: slots) (p :: slots') := by
  obtain ⟨head, rest, rest', rfl, rfl, hle⟩ := h
  refine ⟨p :: head, rest, rest', rfl, rfl, ?_⟩
  rw [saturatingSub_toNat] at hle
  rw [Pipeline.totalCost_cons]
  omega

theorem cutShort_of_eq_zero {gas : BitVec 64} {p : Pipeline} (rest rest' : List Pipeline)
    (h : saturatingSub gas p.gasCost = 0) :
    CutShort gas (p :: rest.map idleSlot) (p :: rest') := by
  refine ⟨[p], rest, rest', rfl, rfl, ?_⟩
  rw [eq_zero_iff_toNat, saturatingSub_toNat] at h
  simp only [Pipeline.totalCost, List.map_cons, List.map_nil, List.sum_singleton]
  omega

theorem fillLoop_gas {vm : VM} {writeable : Bool} (ps : List Pipeline) (eip : BitVec 32)
    (a b : BitVec 64) {slots slots' : List Pipeline}
    (ha : fillLoop vm OPCODES writeable eip false a ps = .ok slots)
    (hb : fillLoop vm OPCODES writeable eip false b ps = .ok slots') :
    slots = slots' ∨ CutShort a slots slots' ∨ CutShort b slots' slots := by
  induction ps generalizing eip a b slots slots' with
  | nil =>
    cases ha
    cases hb
    exact .inl rfl
  | cons p ps ih =>
    obtain ⟨f, rest, hf, hrest, rfl⟩ := fillLoop_cons_eq_ok ha
    rw [fillLoop_cons_ok hf] at hb
    obtain ⟨rest', hrest', hb⟩ := bind_eq_ok.mp hb
    cases hb
    have hcost : f.slot.gasCost = (f.keepArgs p.args).slot.gasCost :=
      (Filled.keepArgs_gasCost ..).symm
    rw [hcost] at hrest hrest'
    cases hs : f.stop with
    | true =>
      rw [hs, Bool.true_or, fillLoop_stopped] at hrest hrest'
      cases hrest
      cases hrest'
      exact .inl rfl
    | false =>
      rw [hs, Bool.false_or] at hrest hrest'
      by_cases h₁ : saturatingSub a (f.keepArgs p.args).slot.gasCost = 0
      · rw [h₁, BEq.rfl, fillLoop_stopped] at hrest
        cases hrest
        exact .inr (.inl (cutShort_of_eq_zero ps rest' h₁))
      · by_cases h₂ : saturatingSub b (f.keepArgs p.args).slot.gasCost = 0
        · rw [h₂, BEq.rfl, fillLoop_stopped] at hrest'
          cases hrest'
          exact .inr (.inr (cutShort_of_eq_zero ps rest h₂))
        · rw [beq_eq_false_iff_ne.mpr h₁] at hrest
          rw [beq_eq_false_iff_ne.mpr h₂] at hrest'
          obtain rfl | h | h := ih _ _ _ hrest hrest'
          · exact .inl rfl
          · exact .inr (.inl h.cons)
          · exact .inr (.inr h.cons)

theorem fillSlot_setGas (vm : VM) (g : BitVec 64) (writeable : Bool) (eip : BitVec 32)
    (p : Pipeline) :
    fillSlot (vm.setGas g) OPCODES writeable eip p = fillSlot vm OPCODES writeable eip p :=
  fillSlot_congr rfl rfl writeable p

theorem fillLoop_setGas (vm : VM) (g : BitVec 64) (writeable stop : Bool) (ps : List Pipeline)
    (eip : BitVec 32) (gas : BitVec 64) :
    fillLoop (vm.setGas g) OPCODES writeable eip stop gas ps =
      fillLoop vm OPCODES writeable eip stop gas ps := by
  induction ps generalizing stop eip gas with
  | nil => cases stop <;> rfl
  | cons p ps ih => cases stop <;> simp only [fillLoop, fillSlot_setGas, ih]

theorem runSlots_append (ps qs : List Pipeline) (m : Machine σ) :
    runSlots hv (ps ++ qs) m = match runSlots hv ps m with
      | .inl m => runSlots hv qs m
      | .inr r => .inr r := by
  induction ps generalizing m with
  | nil => rfl
  | cons p ps ih =>
    simp only [List.cons_append, runSlots]
    cases runSlot hv p m with
    | inl m' => exact ih m'
    | inr r => rfl

theorem runSlots_append_idle (ps qs : List Pipeline) (m : Machine σ) :
    runSlots hv (ps ++ qs.map idleSlot) m = runSlots hv ps m := by
  rw [runSlots_append]
  cases runSlots hv ps m with
  | inl m' => exact runSlots_idle qs m'
  | inr r => rfl

theorem runSlots_fund (h : hv.Oblivious) {ps : List Pipeline} {m : Machine σ}
    (hs : Succeeds (runSlots hv ps m)) {g : ℕ} (hg : g < 2 ^ 64) :
    runSlots hv ps (m.fund g) = ((machinePurse σ).sum (resultPurse σ Bool)).fund
        (g - spent hv (trace hv ps m)) (runSlots hv ps m) ∨
      ∃ m', runSlots hv ps (m.fund g) = .inr (.err .outOfGas, m') := by
  induction ps generalizing m g with
  | nil => exact .inl rfl
  | cons p ps ih =>
    have hp : Succeeds (runSlot hv p m) := fun r hr ↦ hs r (by simp only [runSlots, hr])
    obtain hpaid | hfails := (runSlot_metered h hp).either g hg
    · cases hr : runSlot hv p m with
      | inr r =>
        have hr' : runSlot hv p (m.fund g) = _ := hpaid.inr hr
        left
        simp only [runSlots, trace, hr, hr', spent_cons, spent_nil, Nat.add_zero]
        rfl
      | inl m₁ =>
        have hr' : runSlot hv p (m.fund g) = .inl (m₁.fund _) := hpaid.inl hr
        simp only [runSlots, trace, hr, hr', spent_cons, ← Nat.sub_sub] at hs ⊢
        exact ih hs (lt_of_le_of_lt (Nat.sub_le ..) hg)
    · right
      change Purse.broke _ (runSlot hv p (m.fund g)) at hfails
      cases hr : runSlot hv p (m.fund g) with
      | inl m' => rw [hr] at hfails; cases hfails
      | inr r =>
        rw [hr] at hfails
        obtain ⟨_, m'⟩ := r
        cases hfails
        exact ⟨m', by simp only [runSlots, hr]⟩

theorem runSlots_spent (h : hv.Oblivious) {ps : List Pipeline} {m m' : Machine σ}
    (hs : runSlots hv ps m = .inl m') :
    m'.vm.gasRemaining.toNat = m.vm.gasRemaining.toNat - spent hv (trace hv ps m) := by
  have hlt := m.vm.gasRemaining.isLt
  have hown := runSlots_fund h
    (fun r (hr : runSlots hv ps m = .inr r) ↦ nomatch hs.symm.trans hr) hlt
  rw [fund_gas, hs] at hown
  obtain hown | ⟨_, hown⟩ := hown
  · have hm : m' = m'.fund _ := Sum.inl.inj hown
    conv_lhs => rw [hm]
    exact fund_gas_toNat m' _ (lt_of_le_of_lt (Nat.sub_le ..) hlt)
  · cases hown

theorem Hypervisor.Oblivious.gas_le (h : hv.Oblivious) (vm : VM) (n : BitVec 8) (s : σ) :
    (hv.interrupt vm n s).2.1.gasRemaining ≤ vm.gasRemaining :=
  (h.gas vm n s).symm ▸ BitVec.le_refl _

theorem CutShort.broke (h : hv.Oblivious) {m m' : Machine σ} {slots slots' : List Pipeline}
    (hcut : CutShort m.vm.gasRemaining slots slots') (hrun : runSlots hv slots m = .inl m') :
    m'.vm.gasRemaining = 0 := by
  obtain ⟨head, rest, rest', rfl, -, hle⟩ := hcut
  rw [runSlots_append_idle] at hrun
  have hpaid := runSlots_gas h.gas_le hrun
  exact (eq_zero_iff_toNat _).mpr (by omega)

theorem CutShort.not_inl (h : hv.Oblivious) {m d : Machine σ} {slots slots' : List Pipeline}
    (hcut : CutShort m.vm.gasRemaining slots slots') (hs : Succeeds (runSlots hv slots m)) {g : ℕ}
    (hg : g < 2 ^ 64) (hleft : ∀ m₁, runSlots hv slots m = .inl m₁ → m₁.vm.gasRemaining ≠ 0) :
    runSlots hv slots' (m.fund g) ≠ .inl d := by
  cases hm : runSlots hv slots m with
  | inl m₁ => exact absurd (hcut.broke h hm) (hleft m₁ hm)
  | inr r =>
    obtain ⟨head, rest, rest', rfl, rfl, -⟩ := hcut
    rw [runSlots_append_idle] at hm hs
    intro hrun
    rw [runSlots_append] at hrun
    obtain hpaid | ⟨_, hbroke⟩ := runSlots_fund h hs hg
    · rw [hm] at hpaid
      rw [hpaid] at hrun
      cases hrun
    · rw [hbroke] at hrun
      cases hrun

/-- With another amount of gas, a cycle leads to the same machine, or runs out of gas
just there, as long as the run it comes from has more than it spends. -/
theorem cycle_fund (h : hv.Oblivious) {k : ℕ} {c d : Running σ} {m : Machine σ} {g : ℕ}
    (hrun : iterate (cycle hv) k c = .inr (.ok true, m))
    (hlt : spent hv (executed hv k c) < c.machine.vm.gasRemaining.toNat) (hg : g < 2 ^ 64)
    (hd : cycle hv ⟨c.machine.fund g, c.pipeline⟩ = .inl d) :
    d.machine.vm.gasRemaining = 0 ∨ ∃ (j : ℕ) (c' : Running σ) (g' : ℕ),
      cycle hv c = .inl c' ∧ iterate (cycle hv) j c' = .inr (.ok true, m) ∧
        spent hv (executed hv j c') < c'.machine.vm.gasRemaining.toNat ∧ g' < 2 ^ 64 ∧
          d = ⟨c'.machine.fund g', c'.pipeline⟩ := by
  obtain ⟨hfill', hrun'⟩ := cycle_eq_inl hd
  cases k with
  | zero => cases hrun
  | succ k =>
    cases hfill : fillPipeline c.machine.vm OPCODES c.pipeline with
    | err e | panic =>
      rw [iterate_succ_inr (by rw [cycle, hfill])] at hrun
      cases hrun
    | ok slots =>
      have hcycle := cycle_of_filled hv hfill
      have hs : Succeeds (runSlots hv slots c.machine) := fun r hr ↦ by
        rw [hr] at hcycle
        rw [iterate_succ_inr hcycle] at hrun
        exact congrArg Prod.fst (Sum.inr.inj hrun)
      have hnext : ∀ m₁, runSlots hv slots c.machine = .inl m₁ →
          iterate (cycle hv) k ⟨m₁, slots⟩ = .inr (.ok true, m) ∧
            spent hv (executed hv k ⟨m₁, slots⟩) < m₁.vm.gasRemaining.toNat := by
        intro m₁ hm
        rw [hm] at hcycle
        rw [iterate_succ_inl hcycle] at hrun
        rw [runSlots_spent h hm]
        simp only [executed, hfill, hm, spent_append] at hlt
        exact ⟨hrun, by omega⟩
      change fillLoop (c.machine.vm.setGas _) OPCODES _ _ _ _ _ = _ at hfill'
      rw [fillLoop_setGas] at hfill'
      obtain heq | hcut | hcut := fillLoop_gas _ _ _ _ hfill' hfill
      · right
        rw [heq] at hrun'
        obtain hpaid | ⟨_, hbroke⟩ := runSlots_fund h hs hg
        · rw [hrun'] at hpaid
          cases hr : runSlots hv slots c.machine with
          | inr r => rw [hr] at hpaid; cases hpaid
          | inl m₁ =>
            rw [hr] at hpaid hcycle
            obtain ⟨hk, hrest⟩ := hnext m₁ hr
            refine ⟨k, ⟨m₁, slots⟩, g - spent hv (trace hv slots c.machine), hcycle, hk, hrest,
              lt_of_le_of_lt (Nat.sub_le ..) hg, ?_⟩
            have hm : d.machine = m₁.fund (g - spent hv (trace hv slots c.machine)) :=
              Sum.inl.inj hpaid
            rw [← hm, ← heq]
        · rw [hrun'] at hbroke
          cases hbroke
      · exact .inl (hcut.broke h hrun')
      · refine absurd hrun' (hcut.not_inl h hs hg fun m₁ hm hzero ↦ ?_)
        have hleft := (hnext m₁ hm).2
        rw [hzero] at hleft
        exact absurd hleft (Nat.not_lt_zero _)

end Cut

theorem predicted_of_gas_zero {vm : VM} (h : vm.gasRemaining = 0) (n : ℕ) :
    Predicted (vm.visits n) := by
  apply Predicted.of_length_le_one
  rw [VM.visits, h]
  cases n with
  | zero => exact Nat.zero_le 1
  | succ n =>
    simp only [VM.walk]
    split
    · rw [zero_saturatingSub, beq_self_eq_true, Bool.or_true, if_pos rfl]
      exact le_rfl
    · exact le_rfl

theorem predicted_fund (h : hv.Oblivious) {n k : ℕ} {m m' : Machine σ} {g : ℕ}
    (hrun : iterate (cycle hv) k (start n m) = .inr (.ok true, m'))
    (hample : spent hv (executed hv k (start n m)) < m.vm.gasRemaining.toNat) (hg : g < 2 ^ 64)
    (hp : ∀ c, Reaches (cycle hv) (start n m) c → ∀ gas,
      Predicted ((c.machine.vm.setGas gas).visits n))
    {d : Running σ} (hd : Reaches (cycle hv) (start n (m.fund g)) d) :
    Predicted (d.machine.vm.visits n) := by
  have hgas : StepRelation hv _ := stepRelation_gas h.gas_le
  have hshadow := hd.invariant (P := fun d ↦ d.machine.vm.gasRemaining = 0 ∨
      ∃ (j : ℕ) (c : Running σ) (g' : ℕ), Reaches (cycle hv) (start n m) c ∧
        iterate (cycle hv) j c = .inr (.ok true, m') ∧
          spent hv (executed hv j c) < c.machine.vm.gasRemaining.toNat ∧ g' < 2 ^ 64 ∧
            d = ⟨c.machine.fund g', c.pipeline⟩) ?_
    (.inr ⟨k, start n m, g, .refl .., hrun, hample, hg, rfl⟩)
  · obtain hzero | ⟨j, c, g', hc, -, -, -, rfl⟩ := hshadow
    · exact predicted_of_gas_zero hzero n
    · exact hp c hc _
  · rintro s s' hs (hzero | ⟨j, c, g', hc, hj, hlt, hg', rfl⟩)
    · left
      have := hgas.cycle_inl hs
      rw [hzero] at this
      exact (eq_zero_iff_toNat _).mpr (Nat.le_zero.mp this)
    · refine (cycle_fund h hj hlt hg' hs).imp_right ?_
      rintro ⟨j', c', g'', hc', hj', hlt', hg'', rfl⟩
      exact ⟨j', c', g'', hc.trans (.single hc'), hj', hlt', hg'', rfl⟩

/-- A run that is predicted and in which every REP loop is charged exactly or followed by
something that costs gas spends what its instructions cost, and needs it. -/
theorem gas_exact (hv : Hypervisor σ) (h : hv.Oblivious) {n k : ℕ} (hn : 0 < n)
    {m m' : Machine σ} (hrun : iterate (cycle hv) k (start n m) = .inr (.ok true, m'))
    (hample : spent hv (executed hv k (start n m)) < m.vm.gasRemaining.toNat)
    (hp : ∀ c, Reaches (cycle hv) (start n m) c → ∀ gas,
      Predicted ((c.machine.vm.setGas gas).visits n))
    (hr : Repaid hv (executed hv k (start n m))) (g : BitVec 64) :
    (spent hv (executed hv k (start n m)) ≤ g.toNat →
      Finishes (cycle hv) (start n (m.setGas g)) (.ok true,
        m'.setGas (g - BitVec.ofNat 64 (spent hv (executed hv k (start n m)))))) ∧
      (g.toNat < spent hv (executed hv k (start n m)) → ∃ m'',
        Finishes (cycle hv) (start n (m.setGas g)) (.err .outOfGas, m'')) := by
  have hfund : m.setGas g = m.fund g.toNat := by
    rw [Machine.fund, BitVec.ofNat_toNat, BitVec.setWidth_eq]
  have hledger := ledger_run h (fun c hc ↦ by
    rw [reaches_pipeline_length hc]
    exact hp c hc c.machine.vm.gasRemaining) hrun hr
  obtain ⟨hle, hlt⟩ := hledger.spends (fun _ ↦ id) g.isLt
  have hone := finishes_iff_stepOne hv hn (m.setGas g) fun d hd ↦ by
    rw [hfund] at hd
    exact predicted_fund h hrun hample g.isLt hp hd
  constructor
  · intro hg
    rw [hone, hfund]
    have hsub : BitVec.ofNat 64 (g.toNat - spent hv (executed hv k (start n m))) =
        g - BitVec.ofNat 64 (spent hv (executed hv k (start n m))) := by
      have := g.isLt
      refine BitVec.eq_of_toNat_eq ?_
      rw [BitVec.toNat_sub, BitVec.toNat_ofNat, BitVec.toNat_ofNat]
      omega
    rw [← hsub]
    exact hle hg
  · intro hg
    obtain ⟨⟨r, m''⟩, hfin, hbroke⟩ := hlt hg
    cases hbroke
    exact ⟨m'', (hone _).mpr (hfund ▸ hfin)⟩

theorem walk_isPrefix {vm : VM} {writeable : Bool} (n : ℕ) (eip : BitVec 32) {a b : BitVec 64}
    (h : a ≤ b) : vm.walk writeable n eip a <+: vm.walk writeable n eip b := by
  induction n generalizing eip a b with
  | zero => exact List.prefix_rfl
  | succ n ih =>
    simp only [VM.walk]
    refine List.prefix_cons_iff.mpr (.inr ⟨_, rfl, ?_⟩)
    cases vm.decodeAt writeable eip with
    | err | panic => exact List.prefix_rfl
    | ok f =>
      have hle : saturatingSub a f.slot.gasCost ≤ saturatingSub b f.slot.gasCost := by
        rw [BitVec.le_def] at h ⊢
        rw [saturatingSub_toNat, saturatingSub_toNat]
        omega
      dsimp only
      cases hs : f.stop with
      | true => exact List.prefix_rfl
      | false =>
        by_cases hz : saturatingSub a f.slot.gasCost = 0
        · rw [hz]
          exact List.nil_prefix
        · have hz' : saturatingSub b f.slot.gasCost ≠ 0 := fun h0 ↦ hz <| by
            rw [h0] at hle
            exact BitVec.le_zero_iff.mp hle
          rw [beq_eq_false_iff_ne.mpr hz, beq_eq_false_iff_ne.mpr hz']
          exact ih f.next hle

theorem Predicted.of_isPrefix {l l' : List Visit} (h : Predicted l') (hl : l <+: l') :
    Predicted l := by
  obtain ⟨rest, rfl⟩ := hl
  cases l with
  | nil => exact .of_length_le_one (Nat.zero_le 1)
  | cons v l =>
    refine ⟨fun u hu ↦ h.readOnly u (List.mem_append_left _ hu),
      fun u hu ↦ h.decodes u (List.mem_append_left _ hu), fun u hu ↦ h.enter u ?_⟩
    cases rest with
    | nil => rwa [List.append_nil]
    | cons w rest =>
      rw [List.dropLast_append_of_ne_nil (List.cons_ne_nil w rest)]
      exact List.mem_append_left _ (List.mem_of_mem_dropLast hu)

theorem predicted_setGas {vm : VM} {n : ℕ} (h : Predicted ((vm.setGas (-1)).visits n))
    (gas : BitVec 64) : Predicted ((vm.setGas gas).visits n) := by
  have hwalk : ∀ g n eip gas, (vm.setGas g).walk (writeableAt vm.eip) n eip gas =
      vm.walk (writeableAt vm.eip) n eip gas := fun g n ↦ by
    induction n with
    | zero => exact fun _ _ ↦ rfl
    | succ n ih => intro eip gas; simp only [VM.walk, decodeAt_setGas, ih]
  simp only [VM.visits, VM.setGas_eip, VM.setGas_gas, hwalk] at h ⊢
  have hle : gas ≤ BitVec.allOnes 64 := by
    rw [BitVec.le_def]
    have := gas.isLt
    simp
    omega
  exact h.of_isPrefix (walk_isPrefix n vm.eip hle)

instance (p : Pipeline) (vm : VM) : Decidable (p.Exact vm) :=
  inferInstanceAs (Decidable (_ → _ → _ ∧ _))

instance decidableRepaid : (l : List (Pipeline × Machine σ)) → Decidable (Repaid hv l)
  | [] => .isTrue trivial
  | x :: l =>
    have := decidableRepaid l
    inferInstanceAs (Decidable ((x.1.Exact x.2.vm ∨ 0 < spent hv l) ∧ Repaid hv l))

theorem oblivious_testHypervisor : testHypervisor.Oblivious := fun _ _ _ _ ↦ rfl

theorem gas_exact_incHlt : ∃ m' : Machine (List (BitVec 8)), ∀ g : BitVec 64,
    (4 ≤ g.toNat → Finishes (cycle testHypervisor)
      (start PIPELINE_SIZE ((createMachine incHlt).setGas g)) (.ok true, m'.setGas (g - 4))) ∧
    (g.toNat < 4 → ∃ m'', Finishes (cycle testHypervisor)
      (start PIPELINE_SIZE ((createMachine incHlt).setGas g)) (.err .outOfGas, m'')) := by
  have hstop : (cycle testHypervisor (start PIPELINE_SIZE (createMachine incHlt))).getRight?.map
      Prod.fst = some (.ok true) := by
    decide +kernel
  cases hs : cycle testHypervisor (start PIPELINE_SIZE (createMachine incHlt)) with
  | inl c => rw [hs] at hstop; cases hstop
  | inr r =>
    rw [hs] at hstop
    obtain ⟨_, m'⟩ := r
    cases hstop
    have hspent : spent testHypervisor (executed testHypervisor 1
        (start PIPELINE_SIZE (createMachine incHlt))) = 4 := by
      decide +kernel
    refine ⟨m', fun g ↦ ?_⟩
    have hexact := gas_exact testHypervisor oblivious_testHypervisor (by decide)
      (iterate_succ_inr hs 0) (by rw [hspent]; decide) (fun c hc ↦ by
        rw [hc.eq_of_inr hs]
        exact predicted_setGas (by decide +kernel)) (by decide +kernel) g
    rw [hspent] at hexact
    exact hexact

def repStosb : Machine (List (BitVec 8)) where
  vm := { createVm ⟨[0xF3, 0xAA, 0xF4] ++ List.replicate 16 0, by decide⟩ with
    regs := fun r ↦ if r = Register.ecx then 1 else if r = Register.edi then DATA_MEM else 0 }
  host := []

/-- The instructions cost 14, and 13 are enough: the loop gives away what its last pass
lacks. -/
theorem gas_undercharged_repStosb :
    ¬∀ (m m' : Machine (List (BitVec 8))) (k : ℕ),
      iterate (cycle testHypervisor) k (start PIPELINE_SIZE m) = .inr (.ok true, m') →
        spent testHypervisor (executed testHypervisor k (start PIPELINE_SIZE m)) <
            m.vm.gasRemaining.toNat →
          ∀ g : BitVec 64,
            g.toNat < spent testHypervisor (executed testHypervisor k (start PIPELINE_SIZE m)) →
              ∃ m'', Finishes (cycle testHypervisor) (start PIPELINE_SIZE (m.setGas g))
                (.err .outOfGas, m'') := by
  intro h
  have hstop : (iterate (cycle testHypervisor) 2 (start PIPELINE_SIZE repStosb)).getRight?.map
      Prod.fst = some (.ok true) := by
    decide +kernel
  cases hs : iterate (cycle testHypervisor) 2 (start PIPELINE_SIZE repStosb) with
  | inl c => rw [hs] at hstop; cases hstop
  | inr r =>
    rw [hs] at hstop
    obtain ⟨_, m'⟩ := r
    cases hstop
    have hspent : spent testHypervisor (executed testHypervisor 2
        (start PIPELINE_SIZE repStosb)) = 14 := by
      decide +kernel
    obtain ⟨m'', hbroke⟩ := h repStosb m' 2 hs (by rw [hspent]; decide) 13 (by rw [hspent]; decide)
    obtain ⟨r, hr, he⟩ := Finishes.of_getRight
      (show (iterate (cycle testHypervisor) 2
        (start PIPELINE_SIZE (repStosb.setGas 13))).getRight?.map Prod.fst =
          some (.ok true) by decide +kernel)
    rw [hr.unique hbroke] at he
    cases he

end Qx86
