import Mathlib.Algebra.Order.BigOperators.Group.List
import Mathlib.Algebra.Order.Group.Nat
import Qx86.Execute.Lookahead
import Qx86.Foundation.Metering
import Qx86.Machine.WidthSafe

namespace Qx86

open Foundation Outcome Words

variable {σ : Type} {hv : Hypervisor σ}

section Gas

theorem charge_gas (m : Machine σ) (cost : BitVec 64) :
    (m.charge cost).vm.gasRemaining.toNat = m.vm.gasRemaining.toNat - cost.toNat :=
  saturatingSub_toNat ..

theorem stepRelation_gas
    (h : ∀ vm n s, (hv.interrupt vm n s).2.1.gasRemaining ≤ vm.gasRemaining) :
    StepRelation hv fun m m' ↦ m'.vm.gasRemaining.toNat ≤ m.vm.gasRemaining.toNat where
  refl _ := le_rfl
  trans h₁ h₂ := h₂.trans h₁
  charge m cost := by
    rw [charge_gas]
    omega
  advance _ _ := le_rfl
  fail _ := le_rfl
  count m s := by
    have hgas := (m.vm.decrementRegw_frame .ecx s).gas
    rw [hgas]
  logic m f p := by rw [((f.logic p).frame m.vm).gas]
  interrupt m n := by
    have := h m.vm n m.host
    rwa [BitVec.le_def] at this

theorem runSlot_gas (h : ∀ vm n s, (hv.interrupt vm n s).2.1.gasRemaining ≤ vm.gasRemaining)
    {p : Pipeline} {m m' : Machine σ} (hr : runSlot hv p m = .inl m') :
    m'.vm.gasRemaining.toNat + p.gasCost.toNat ≤ m.vm.gasRemaining.toNat := by
  have hc := (stepRelation_gas h).slotCall p.function p (m.charge p.gasCost)
  simp only [runSlot] at hr
  split at hr
  · cases hr
  · next hg =>
    split at hr
    · next heq =>
      cases hr
      rw [heq, charge_gas] at hc
      rw [BitVec.not_lt, BitVec.le_def] at hg
      simp only [Machine.advance] at hc ⊢
      omega
    all_goals cases hr

/-- What the slots of a pipeline cost, apart from what REP loops charge. -/
def Pipeline.totalCost (ps : List Pipeline) : ℕ := (ps.map (·.gasCost.toNat)).sum

theorem Pipeline.le_totalCost {p : Pipeline} {ps : List Pipeline} (h : p ∈ ps) :
    p.gasCost.toNat ≤ totalCost ps :=
  List.le_sum_of_mem (List.mem_map_of_mem h)

theorem runSlots_gas (h : ∀ vm n s, (hv.interrupt vm n s).2.1.gasRemaining ≤ vm.gasRemaining)
    {ps : List Pipeline} {m m' : Machine σ} (hr : runSlots hv ps m = .inl m') :
    m'.vm.gasRemaining.toNat + Pipeline.totalCost ps ≤ m.vm.gasRemaining.toNat := by
  induction ps generalizing m with
  | nil => cases hr; simp [Pipeline.totalCost]
  | cons p ps ih =>
    simp only [runSlots] at hr
    split at hr
    · next m₁ hp =>
      have h₁ := runSlot_gas h hp
      have h₂ := ih hr
      simp only [Pipeline.totalCost, List.map_cons, List.sum_cons] at h₂ ⊢
      omega
    · cases hr

end Gas

section Fund

/-- A hypervisor that neither touches the gas nor looks at it. -/
def Hypervisor.Oblivious (hv : Hypervisor σ) : Prop :=
  ∀ vm n s g, hv.interrupt (vm.setGas g) n s =
    ((hv.interrupt vm n s).1, (hv.interrupt vm n s).2.1.setGas g, (hv.interrupt vm n s).2.2)

theorem Hypervisor.Oblivious.gas (h : hv.Oblivious) (vm : VM) (n : BitVec 8) (s : σ) :
    (hv.interrupt vm n s).2.1.gasRemaining = vm.gasRemaining := by
  have hi := h vm n s vm.gasRemaining
  rw [VM.setGas_self] at hi
  rw [hi, VM.setGas_gas]

def Machine.fund (g : ℕ) (m : Machine σ) : Machine σ := m.setGas (BitVec.ofNat 64 g)

def machinePurse (σ : Type) : Purse (Machine σ) := ⟨Machine.fund, fun _ ↦ False⟩

def resultPurse (σ α : Type) : Purse (Outcome VMError α × Machine σ) where
  fund g r := (r.1, r.2.fund g)
  broke r := r.1 = .err .outOfGas

variable (m : Machine σ) (g : ℕ)

theorem fund_gas : m.fund m.vm.gasRemaining.toNat = m := by
  rw [Machine.fund, BitVec.ofNat_toNat, BitVec.setWidth_eq, Machine.setGas_self]

theorem fund_gas_toNat (hg : g < 2 ^ 64) : (m.fund g).vm.gasRemaining.toNat = g := by
  change (BitVec.ofNat 64 g).toNat = g
  rw [BitVec.toNat_ofNat, Nat.mod_eq_of_lt hg]

theorem charge_fund (hg : g < 2 ^ 64) (cost : BitVec 64) :
    (m.fund g).charge cost = m.fund (g - cost.toNat) := by
  rw [Machine.charge, Machine.fund, Machine.setGas_setGas, Machine.fund]
  refine congrArg _ (BitVec.eq_of_toNat_eq ?_)
  rw [saturatingSub_toNat, Machine.setGas_vm, VM.setGas_gas, BitVec.toNat_ofNat,
    BitVec.toNat_ofNat]
  omega

theorem opcodeCall_setGas (h : hv.Oblivious) (f : OpcodeFn) (p : Pipeline) (g : BitVec 64) :
    f.call hv p (m.setGas g) = ((f.call hv p m).1, (f.call hv p m).2.setGas g) := by
  cases f with
  | logic f => rw [OpcodeFn.call_logic, OpcodeFn.call_logic, Machine.setGas_vm,
      (f.logic p).oblivious]; rfl
  | interrupt =>
    simp only [OpcodeFn.call, Machine.setGas_vm, VM.getArg_setGas, Machine.setGas_host]
    split
    · rfl
    · next num _ =>
      exact congrArg (fun r : Except VMError Unit × VM × σ ↦
        (Outcome.ofExcept r.1, (⟨r.2.1, r.2.2⟩ : Machine σ)))
        (h m.vm num m.host g)

theorem decrementRegw_setGas (vm : VM) (r : Register) (s : Bool) (g : BitVec 64) :
    (vm.setGas g).decrementRegw r s = (vm.decrementRegw r s).setGas g := by
  simp only [VM.decrementRegw]
  split <;> rfl

end Fund

section Rep

variable (hv) (p : Pipeline) (cost : BitVec 64) (verdict : VM → Outcome VMError Bool)

def repPasses : ℕ → Machine σ → ℕ
  | 0, _ => 0
  | n + 1, m =>
    if m.vm.readRegw .ecx p.sizeOverride = 0 then 0
    else if m.vm.gasRemaining = 0 then 0
    else
      match repPass hv p cost m with
      | (.ok _, m) =>
        match verdict m.vm with
        | .ok true => repPasses n m + 1
        | _ => 1
      | _ => 0

def Settles (o : Outcome VMError Unit) : Prop := o = .ok () ∨ o = .err .internalVMStop

def repAfter (n : ℕ) : Outcome VMError Unit × Machine σ → Outcome VMError Unit × Machine σ
  | (.ok _, m) =>
    match verdict m.vm with
    | .ok true => repLoop hv p cost verdict n m
    | .ok false => (.ok (), m)
    | .err e => (.err e, m)
    | .panic => (.panic, m)
  | r => r

variable {hv p cost verdict}

theorem repLoop_done {n : ℕ} {m : Machine σ} (h : m.vm.readRegw .ecx p.sizeOverride = 0) :
    repLoop hv p cost verdict n m = (.ok (), m) := by
  cases n with
  | zero => rfl
  | succ n => rw [repLoop, if_pos h]

theorem repLoop_broke {n : ℕ} {m : Machine σ} (h : m.vm.readRegw .ecx p.sizeOverride ≠ 0)
    (hg : m.vm.gasRemaining = 0) :
    repLoop hv p cost verdict (n + 1) m = (.err .outOfGas, m) := by
  rw [repLoop, if_neg h, if_pos hg]

theorem repLoop_pass {n : ℕ} {m : Machine σ} (h : m.vm.readRegw .ecx p.sizeOverride ≠ 0)
    (hg : m.vm.gasRemaining ≠ 0) : repLoop hv p cost verdict (n + 1) m =
      repAfter hv p cost verdict n (repPass hv p cost m) := by
  rw [repLoop, if_neg h, if_neg hg]
  rfl

theorem repLoop_rule {I : Machine σ → Prop} {Q : Outcome VMError Unit × Machine σ → Prop}
    (hstop : ∀ m o, I m → (o = .panic → verdict m.vm = .panic) → Q (o, m))
    (hpass : ∀ m, I m → (∀ m', repPass hv p cost m = (.ok (), m') → I m') ∧
      ((repPass hv p cost m).1 ≠ .ok () → Q (repPass hv p cost m)))
    (n : ℕ) {m : Machine σ} (hm : I m) : Q (repLoop hv p cost verdict n m) := by
  induction n generalizing m with
  | zero => exact hstop m _ hm nofun
  | succ n ih =>
    by_cases hc : m.vm.readRegw .ecx p.sizeOverride = 0
    · rw [repLoop_done hc]
      exact hstop m _ hm nofun
    by_cases hg : m.vm.gasRemaining = 0
    · rw [repLoop_broke hc hg]
      exact hstop m _ hm nofun
    obtain ⟨hnext, hfails⟩ := hpass m hm
    rw [repLoop_pass hc hg]
    rcases hr : repPass hv p cost m with ⟨_ | e | _, m'⟩
    · have hm' := hnext m' hr
      unfold repAfter
      cases hv' : verdict m'.vm with
      | ok b =>
        cases b with
        | true =>
          simp only [hv']
          exact ih hm'
        | false =>
          simp only [hv']
          exact hstop m' _ hm' nofun
      | err e =>
        simp only [hv']
        exact hstop m' _ hm' nofun
      | panic =>
        simp only [hv']
        exact hstop m' _ hm' fun _ ↦ hv'
    · rw [hr] at hfails
      exact hfails nofun
    · rw [hr] at hfails
      exact hfails nofun

theorem repPass_fund (h : hv.Oblivious) (m : Machine σ) {g : ℕ} (hg : g < 2 ^ 64) :
    repPass hv p cost (m.fund g) = match repPass hv p cost m with
      | (.ok a, m') => (.ok a, m'.fund (g - cost.toNat))
      | (r, m') => (r, m'.fund g) := by
  have hcall := opcodeCall_setGas m h (repOpcode p.opcode).function p (BitVec.ofNat 64 g)
  simp only [repPass, Machine.fund, hcall]
  rcases (repOpcode p.opcode).function.call hv p m with ⟨_ | _ | _, m'⟩
  · simp only [Machine.setGas_vm, decrementRegw_setGas]
    exact congrArg (Prod.mk _)
      (charge_fund { m' with vm := m'.vm.decrementRegw .ecx p.sizeOverride } g hg cost)
  · rfl
  · rfl

/-- A REP loop pays for each of its passes, the last one as far as the gas lasts. -/
theorem repLoop_metered (h : hv.Oblivious) (hverdict : ∀ vm g, verdict (vm.setGas g) = verdict vm)
    (n : ℕ) {m : Machine σ} (hs : Settles (repLoop hv p cost verdict n m).1) :
    (machinePurse σ).Metered (resultPurse σ Unit) (2 ^ 64) (repLoop hv p cost verdict n) m
      (repPasses hv p cost verdict n m * cost.toNat)
      (m.vm.readRegw .ecx p.sizeOverride = 0 ∨
        cost.toNat = 1 ∧ ∀ m : Machine σ, (repPass hv p cost m).1 ≠ .err .internalVMStop) := by
  induction n generalizing m with
  | zero =>
    rw [repPasses, Nat.zero_mul]
    exact .free fun _ _ ↦ rfl
  | succ n ih =>
    by_cases hc : m.vm.readRegw .ecx p.sizeOverride = 0
    · have hc' : ∀ g, (m.fund g).vm.readRegw .ecx p.sizeOverride = 0 := fun _ ↦ hc
      rw [repPasses, if_pos hc, Nat.zero_mul]
      exact .free fun g _ ↦ by rw [Purse.Paid, repLoop_done hc]; exact repLoop_done (hc' g)
    · have hc' : ∀ g, (m.fund g).vm.readRegw .ecx p.sizeOverride ≠ 0 := fun _ ↦ hc
      have hfail : (machinePurse σ).Fails (resultPurse σ Unit)
          (repLoop hv p cost verdict (n + 1)) m 0 :=
        congrArg Prod.fst (repLoop_broke (hc' 0) rfl)
      by_cases hgas : m.vm.gasRemaining = 0
      · rw [repLoop_broke hc hgas] at hs
        obtain hs | hs := hs <;> cases hs
      have hpay : ∀ g < 2 ^ 64, 0 < g → repLoop hv p cost verdict (n + 1) (m.fund g) =
          repAfter hv p cost verdict n (repPass hv p cost (m.fund g)) := by
        intro g hg hpos
        refine repLoop_pass (hc' g) fun h0 ↦ hpos.ne' ?_
        rw [← fund_gas_toNat m g hg, h0]
        rfl
      have hself := @repLoop_pass _ hv p cost verdict n _ hc hgas
      rw [hself] at hs
      rw [repPasses, if_neg hc, if_neg hgas]
      rcases hpass : repPass hv p cost m with ⟨_ | x | _, m₁⟩ <;> rw [hpass] at hs hself
      · have hpay' : ∀ g < 2 ^ 64, 0 < g → repLoop hv p cost verdict (n + 1) (m.fund g) =
            repAfter hv p cost verdict n (.ok (), m₁.fund (g - cost.toNat)) := fun g hg hpos ↦ by
          rw [hpay g hg hpos, repPass_fund h m hg, hpass]
        have hafter : ∀ g, verdict (m₁.fund g).vm = verdict m₁.vm := fun g ↦ hverdict ..
        have hlast : ∀ o, repLoop hv p cost verdict (n + 1) m = (o, m₁) →
            (∀ g < 2 ^ 64, 0 < g → repLoop hv p cost verdict (n + 1) (m.fund g) =
              (o, m₁.fund (g - cost.toNat))) →
            (machinePurse σ).Metered (resultPurse σ Unit) (2 ^ 64)
              (repLoop hv p cost verdict (n + 1)) m (1 * cost.toNat)
              (m.vm.readRegw .ecx p.sizeOverride = 0 ∨ cost.toNat = 1 ∧
                ∀ m : Machine σ, (repPass hv p cost m).1 ≠ .err .internalVMStop) := by
          intro o hself hpay
          rw [Nat.one_mul, ← Nat.add_zero cost.toNat]
          have hfree : (machinePurse σ).Metered (resultPurse σ Unit) (2 ^ 64) (Prod.mk o) m₁ 0
              True := .free fun _ _ ↦ rfl
          exact hfree.owe hself hpay hfail fun he ↦ ⟨(he.resolve_left hc).1, trivial⟩
        simp only [repAfter, hafter] at hs hself hpay' ⊢
        cases hv' : verdict m₁.vm with
        | ok b =>
          rw [hv'] at hs hself hpay'
          cases b with
          | true =>
            rw [Nat.add_mul, Nat.one_mul, Nat.add_comm (_ * _)]
            refine (ih hs).owe hself hpay' hfail fun he ↦ ?_
            exact ⟨(Or.resolve_left he hc).1, .inr (Or.resolve_left he hc)⟩
          | false => exact hlast _ hself hpay'
        | err e | panic =>
          rw [hv'] at hself hpay'
          exact hlast _ hself hpay'
      · obtain hs | hs := hs <;> cases hs
        have hpay' : ∀ g < 2 ^ 64, 0 < g → repLoop hv p cost verdict (n + 1) (m.fund g) =
            (.err .internalVMStop, m₁.fund g) := fun g hg hpos ↦ by
          rw [hpay g hg hpos, repPass_fund h m hg, hpass]
          rfl
        have hfree : (machinePurse σ).Metered (resultPurse σ Unit) (2 ^ 64)
            (Prod.mk (.err .internalVMStop)) m₁ 0 True := .free fun _ _ ↦ rfl
        rw [Nat.zero_mul, ← Nat.add_zero 0]
        refine hfree.owe hself hpay' hfail fun he ↦ ?_
        exact absurd (congrArg Prod.fst hpass) ((Or.resolve_left he hc).2 m)
      · obtain hs | hs := hs <;> cases hs

theorem repPass_ne_stop
    (h : repFlagOpcodes p.opcode = true ∨ repNoFlagOpcodes p.opcode = true) (m : Machine σ) :
    (repPass hv p cost m).1 ≠ .err .internalVMStop := by
  obtain ⟨f, hf, he⟩ := repOpcode_string h
  have hsafe := f.logic_memorySafe hf p m.vm .internalVMStop
  rw [repPass, he, OpcodeFn.call_logic]
  split
  · simp
  · intro hx
    cases hsafe hx

end Rep

section Slot

variable (hv) in
def SlotFn.passes (f : SlotFn) (p : Pipeline) (m : Machine σ) : ℕ :=
  let cost := m.vm.charger.cost (repOpcode p.opcode).gasCost
  let counter := (m.vm.readRegw .ecx p.sizeOverride).toNat
  match f with
  | .opcode _ => 0
  | .repe => repPasses hv p cost (repeVerdict p.opcode) counter m
  | .repne =>
    if repFlagOpcodes p.opcode then repPasses hv p cost repneVerdict counter m else 0

variable (hv) in
/-- What the instruction of a slot is to be charged: the cost of the slot, and the tier
of the string opcode for each pass of a REP loop. -/
def slotSpent (p : Pipeline) (m : Machine σ) : ℕ :=
  p.gasCost.toNat + p.function.passes hv p (m.charge p.gasCost) *
    (m.vm.charger.cost (repOpcode p.opcode).gasCost).toNat

/-- A slot that is charged exactly: if it is a REP loop that is entered, it repeats a
string function whose tier costs one. -/
def Pipeline.Exact (p : Pipeline) (vm : VM) : Prop :=
  p.function.isRep = true → vm.readRegw .ecx p.sizeOverride ≠ 0 →
    (repFlagOpcodes p.opcode = true ∨ repNoFlagOpcodes p.opcode = true) ∧
      vm.charger.cost (repOpcode p.opcode).gasCost = 1

theorem slotCall_metered (h : hv.Oblivious) (f : SlotFn) (p : Pipeline) {m : Machine σ}
    (hs : Settles (f.call hv p m).1) :
    (machinePurse σ).Metered (resultPurse σ Unit) (2 ^ 64) (f.call hv p) m
      (f.passes hv p m * (m.vm.charger.cost (repOpcode p.opcode).gasCost).toNat)
      (f.isRep = true → m.vm.readRegw .ecx p.sizeOverride ≠ 0 →
        (repFlagOpcodes p.opcode = true ∨ repNoFlagOpcodes p.opcode = true) ∧
          m.vm.charger.cost (repOpcode p.opcode).gasCost = 1) := by
  have hexact : (m.vm.readRegw .ecx p.sizeOverride ≠ 0 →
      (repFlagOpcodes p.opcode = true ∨ repNoFlagOpcodes p.opcode = true) ∧
        m.vm.charger.cost (repOpcode p.opcode).gasCost = 1) →
      m.vm.readRegw .ecx p.sizeOverride = 0 ∨
        (m.vm.charger.cost (repOpcode p.opcode).gasCost).toNat = 1 ∧ ∀ m' : Machine σ,
          (repPass hv p (m.vm.charger.cost (repOpcode p.opcode).gasCost) m').1 ≠
            .err .internalVMStop := fun he ↦ by
    by_cases hc : m.vm.readRegw .ecx p.sizeOverride = 0
    · exact .inl hc
    · obtain ⟨hstring, hone⟩ := he hc
      exact .inr ⟨by rw [hone]; rfl, repPass_ne_stop hstring⟩
  cases f with
  | opcode f =>
    rw [SlotFn.passes, Nat.zero_mul]
    exact .free fun g _ ↦ opcodeCall_setGas m h f p _
  | repe =>
    refine (repLoop_metered h ?_ _ hs).congr rfl (fun _ ↦ rfl) fun he ↦ hexact (he rfl)
    intro vm g
    rfl
  | repne =>
    simp only [SlotFn.passes]
    by_cases ho : repFlagOpcodes p.opcode = true
    · have hcall : ∀ m : Machine σ, SlotFn.repne.call hv p m = repLoop hv p
          (m.vm.charger.cost (repOpcode p.opcode).gasCost) repneVerdict
          (m.vm.readRegw .ecx p.sizeOverride).toNat m := fun m ↦ if_pos ho
      rw [hcall] at hs
      rw [if_pos ho]
      exact (repLoop_metered h (fun _ _ ↦ rfl) _ hs).congr (hcall m) (fun g ↦ hcall (m.fund g))
        fun he ↦ hexact (he rfl)
    · rw [show SlotFn.repne.call hv p m = _ from if_neg ho] at hs
      obtain hs | hs := hs <;> cases hs

def endSlot (p : Pipeline) : Outcome VMError Unit × Machine σ →
    Machine σ ⊕ (Outcome VMError Bool × Machine σ)
  | (.ok _, m) => .inl (m.advance p.eipSize)
  | (.err e, m) => .inr (if e = .internalVMStop then (.ok true, m) else (.err e, m.fail))
  | (.panic, m) => .inr (.panic, m)

theorem runSlot_broke {p : Pipeline} {m : Machine σ} (h : m.vm.gasRemaining < p.gasCost) :
    runSlot hv p m = .inr (.err .outOfGas, m.charge p.gasCost) := if_pos h

theorem runSlot_call {p : Pipeline} {m : Machine σ} (h : ¬m.vm.gasRemaining < p.gasCost) :
    runSlot hv p m = endSlot p (p.function.call hv p (m.charge p.gasCost)) := by
  rw [runSlot, if_neg h]
  rfl

theorem endSlot_fund (p : Pipeline) (g : ℕ) (o : Outcome VMError Unit × Machine σ) :
    endSlot p ((resultPurse σ Unit).fund g o) =
      ((machinePurse σ).sum (resultPurse σ Bool)).fund g (endSlot p o) := by
  obtain ⟨_ | x | _, m⟩ := o
  · rfl
  · by_cases hx : x = .internalVMStop
    · subst hx
      rfl
    · simp only [endSlot, resultPurse, if_neg hx]
      rfl
  · rfl

def Succeeds (o : Machine σ ⊕ (Outcome VMError Bool × Machine σ)) : Prop :=
  ∀ r, o = .inr r → r.1 = .ok true

theorem settles_of_succeeds {p : Pipeline} {o : Outcome VMError Unit × Machine σ}
    (h : Succeeds (endSlot p o)) : Settles o.1 := by
  obtain ⟨_ | x | _, m⟩ := o
  · exact .inl rfl
  · by_cases hx : x = .internalVMStop
    · exact .inr (congrArg _ hx)
    · have := h _ rfl
      rw [if_neg hx] at this
      cases this
  · cases h _ rfl

theorem runSlot_metered (h : hv.Oblivious) {p : Pipeline} {m : Machine σ}
    (hs : Succeeds (runSlot hv p m)) :
    (machinePurse σ).Metered ((machinePurse σ).sum (resultPurse σ Bool)) (2 ^ 64)
      (runSlot hv p) m (slotSpent hv p m) (p.Exact m.vm) := by
  have hgas : ¬m.vm.gasRemaining < p.gasCost := fun hlt ↦ by
    cases hs _ (runSlot_broke hlt)
  rw [runSlot_call hgas] at hs
  have hm := (slotCall_metered h p.function p (settles_of_succeeds hs)).map
    (T := (machinePurse σ).sum (resultPurse σ Bool)) (endSlot_fund p) fun o ho ↦ by
      obtain ⟨_, m⟩ := o
      cases ho
      rfl
  have hlt : ∀ g < 2 ^ 64, (m.fund g).vm.gasRemaining < p.gasCost ↔ g < p.gasCost.toNat :=
    fun g hg ↦ by rw [BitVec.lt_def, fund_gas_toNat m g hg]
  refine hm.charge (runSlot_call hgas) (fun g hg hle ↦ ?_) fun g hg hl ↦ ?_
  · change runSlot hv p (m.fund g) = endSlot p (p.function.call hv p _)
    rw [runSlot_call (by rw [hlt g hg]; omega), charge_fund m g hg]
    rfl
  · change Purse.broke _ (runSlot hv p (m.fund g))
    rw [runSlot_broke ((hlt g hg).mpr hl)]
    rfl

end Slot

end Qx86
