import Qx86.Decode.Errors
import Qx86.Execute.Lockstep
import Qx86.Execute.Repetition

namespace Qx86

open Foundation Outcome Op

variable {σ : Type}

/-- The state of the machine without what meters it. -/
@[ext] structure Core (σ : Type) where
  processor : Processor
  memory : MemorySystem
  host : σ

def Machine.core (m : Machine σ) : Core σ := ⟨m.vm.processor, m.vm.memory, m.host⟩

@[simp] theorem charge_core (m : Machine σ) (cost : BitVec 64) : (m.charge cost).core = m.core :=
  rfl

namespace Core

/-- A machine with no gas that charges nothing. -/
def machine (c : Core σ) : Machine σ where
  vm :=
    { regs := c.processor.regs
      eip := c.processor.eip
      flags := c.processor.flags
      memory := c.memory
      errorEip := 0
      gasRemaining := 0
      charger := ⟨fun _ ↦ 0⟩ }
  host := c.host

@[simp] theorem machine_core (c : Core σ) : c.machine.core = c := rfl

def settle (p : Pipeline) (r : Outcome VMError Unit × Machine σ) :
    Core σ ⊕ (Outcome VMError Bool × Core σ) :=
  (endSlot p r).map Machine.core (Prod.map id Machine.core)

/-- One pass of a REP instruction, which stays where it is until it is done. -/
def pass (hv : Hypervisor σ) (p : Pipeline) (verdict : VM → Outcome VMError Bool)
    (c : Core σ) : Core σ ⊕ (Outcome VMError Bool × Core σ) :=
  if c.machine.vm.readRegw .ecx p.sizeOverride = 0 then settle p (.ok (), c.machine)
  else
    match (repOpcode p.opcode).function.call hv p c.machine with
    | (.ok _, m) =>
      let m : Machine σ := { m with vm := m.vm.decrementRegw .ecx p.sizeOverride }
      match verdict m.vm with
      | .ok true => .inl m.core
      | .ok false => settle p (.ok (), m)
      | .err e => settle p (.err e, m)
      | .panic => settle p (.panic, m)
    | r => settle p r

def execute (hv : Hypervisor σ) (p : Pipeline) (c : Core σ) :
    Core σ ⊕ (Outcome VMError Bool × Core σ) :=
  match p.function with
  | .opcode f => settle p (f.call hv p c.machine)
  | .repe => pass hv p (repeVerdict p.opcode) c
  | .repne =>
    if repFlagOpcodes p.opcode then pass hv p repneVerdict c
    else settle p (.err .invalidOpcodeEncoding, c.machine)

/-- The machine that decodes an instruction and executes it, or one pass of it, and
neither counts nor charges. -/
def step (hv : Hypervisor σ) (c : Core σ) : Core σ ⊕ (Outcome VMError Bool × Core σ) :=
  match c.machine.vm.decodeAt (writeableAt c.processor.eip) c.processor.eip with
  | .ok f => execute hv f.slot c
  | .err e => .inr (.err e, c)
  | .panic => .inr (.panic, c)

end Core

/-- Virtual machines that differ only in what meters them. -/
def VM.SameCore (vm vm' : VM) : Prop := vm.processor = vm'.processor ∧ vm.memory = vm'.memory

theorem sameCore_keeps : Keeps VM.SameCore fun _ ↦ False where
  processor h := h.1
  withProcessor _ h := ⟨rfl, h.2⟩
  load a s h := by
    refine .inr ?_
    cases s <;> simp only [VM.getMem, h.2]
  store a v h := by
    unfold VM.setMem
    split
    · exact .same h
    · rw [h.2]
      cases MemorySystem.setSized _ a v with
      | error x => exact .same h
      | ok m => exact .same ⟨h.1, rfl⟩

variable {hv : Hypervisor σ}

/-- A hypervisor that neither looks at the gas and the charger nor reports a lack of gas. -/
structure Hypervisor.Unmetered (hv : Hypervisor σ) : Prop where
  alike : hv.Alike hv VM.SameCore Eq fun _ ↦ False
  ne_outOfGas : ∀ vm n s, (hv.interrupt vm n s).1 ≠ .error .outOfGas

section Congruence

variable {m m' : Machine σ} {p : Pipeline}

theorem paired_of_core (h : m.core = m'.core) : Paired VM.SameCore Eq m m' := by
  obtain ⟨hp, hm, hs⟩ := Core.mk.inj h
  exact ⟨⟨hp, hm⟩, hs⟩

theorem core_of_paired (h : Paired VM.SameCore Eq m m') : m.core = m'.core := by
  obtain ⟨⟨hp, hm⟩, hs⟩ := h
  exact Core.ext hp hm hs

theorem opcodeCall_core (hh : hv.Unmetered) (h : m.core = m'.core) (f : OpcodeFn)
    (p : Pipeline) :
    (f.call hv p m).1 = (f.call hv p m').1 ∧ (f.call hv p m).2.core = (f.call hv p m').2.core := by
  obtain ⟨-, -, hf⟩ | ⟨ho, hm⟩ := opcodeCall_agrees sameCore_keeps (paired_of_core h) f p
    fun _ k _ vm' t ↦ hh.alike m.vm vm' k m.host t
  · cases hf
  · exact ⟨ho, core_of_paired hm⟩

theorem advance_core (h : m.core = m'.core) (n : BitVec 8) :
    (m.advance n).core = (m'.advance n).core :=
  core_of_paired ((paired_of_core h).advance sameCore_keeps n)

theorem decrement_core (h : m.core = m'.core) (r : Register) (s : Bool) :
    Machine.core { m with vm := m.vm.decrementRegw r s } =
      Machine.core { m' with vm := m'.vm.decrementRegw r s } :=
  core_of_paired ((paired_of_core h).decrement sameCore_keeps r s)

theorem settle_err (p : Pipeline) (x : VMError) (m : Machine σ) :
    Core.settle p (.err x, m) =
      .inr (if x = .internalVMStop then .ok true else .err x, m.core) := by
  unfold Core.settle endSlot
  by_cases hx : x = .internalVMStop
  · simp only [if_pos hx, Sum.map_inr, Prod.map_apply, id_eq]
  · simp only [if_neg hx, Sum.map_inr, Prod.map_apply, id_eq]
    rfl

theorem settle_core (h : m.core = m'.core) (o : Outcome VMError Unit) :
    Core.settle p (o, m) = Core.settle p (o, m') := by
  cases o with
  | ok _ => exact congrArg Sum.inl (advance_core h _)
  | panic => exact congrArg (fun c ↦ Sum.inr (Outcome.panic, c)) h
  | err x => rw [settle_err, settle_err, h]

end Congruence

section Decode

def Pipeline.unpriced (p : Pipeline) : Pipeline := { p with gasCost := 0 }

def Filled.unpriced (f : Filled) : Filled := { f with slot := f.slot.unpriced }

theorem LogicFn.logic_price (f : LogicFn) (p : Pipeline) (g : BitVec 64) :
    f.logic { p with gasCost := g } = f.logic p := by
  cases f <;> rfl

theorem opcodeCall_price (f : OpcodeFn) (p : Pipeline) (g : BitVec 64) :
    f.call hv { p with gasCost := g } = f.call hv p := by
  cases f with
  | logic f =>
    funext m
    rw [OpcodeFn.call_logic, OpcodeFn.call_logic, LogicFn.logic_price]
  | interrupt => rfl

theorem settle_price (p : Pipeline) (g : BitVec 64) :
    (Core.settle { p with gasCost := g } : _ → Core σ ⊕ _) = Core.settle p := by
  funext ⟨o, m⟩
  cases o <;> rfl

theorem execute_price (p : Pipeline) (g : BitVec 64) (c : Core σ) :
    Core.execute hv { p with gasCost := g } c = Core.execute hv p c := by
  simp only [Core.execute, Core.pass, opcodeCall_price, settle_price]

theorem execute_unpriced {p p' : Pipeline} (h : p.unpriced = p'.unpriced) (c : Core σ) :
    Core.execute hv p c = Core.execute hv p' c := by
  have hp : Core.execute hv p.unpriced c = Core.execute hv p c := execute_price p 0 c
  have hp' : Core.execute hv p'.unpriced c = Core.execute hv p' c := execute_price p' 0 c
  rw [← hp, ← hp', h]

theorem surcharge_unpriced (charger charger' : GasCharger) (writeable : Bool) {p p' : Pipeline}
    (h : p.unpriced = p'.unpriced) :
    (surcharge charger writeable p).unpriced = (surcharge charger' writeable p').unpriced := by
  cases writeable <;> exact h

theorem filled_unpriced (charger charger' : GasCharger) (writeable : Bool) {p p' : Pipeline}
    (h : p.unpriced = p'.unpriced) {next : BitVec 32} {stop : Bool} :
    Filled.unpriced ⟨surcharge charger writeable p, next, stop⟩ =
      Filled.unpriced ⟨surcharge charger' writeable p', next, stop⟩ := by
  simp only [Filled.unpriced, surcharge_unpriced charger charger' writeable h]

theorem decodeOpcode_unpriced (charger charger' : GasCharger) (pre : PrefixesActivated) (n : ℕ)
    (buffer : List (BitVec 8)) :
    Both (fun r r' : Pipeline × PipelineBehavior ↦ r.1.unpriced = r'.1.unpriced ∧ r.2 = r'.2)
      (decodeOpcode charger OPCODES pre n buffer) (decodeOpcode charger' OPCODES pre n buffer) :=
  .same fun _ ↦ .same fun _ ↦ .same fun _ ↦ .ok ⟨rfl, rfl⟩

theorem followSlot_unpriced (vm vm' : VM) (eip : BitVec 32) {charger : GasCharger}
    {pre : PrefixesActivated} {n : ℕ} {buffer : List (BitVec 8)} {p p' : Pipeline} {opcode : Opcode}
    (hd : DecodesTo charger pre n buffer opcode p) (h : p.unpriced = p'.unpriced) :
    followSlot vm eip p opcode.pipelineBehavior =
      followSlot vm' eip p' opcode.pipelineBehavior := by
  rw [hd.followSlot_congr vm vm' eip]
  obtain ⟨f, args, g, size, so, op⟩ := p
  obtain ⟨f', args', g', size', so', op'⟩ := p'
  obtain ⟨rfl, rfl, -, rfl, rfl, rfl⟩ := Pipeline.mk.inj h
  rfl

/-- The price apart, decoding depends on the sixteen bytes at the address, and on nothing
else. -/
theorem decodeAt_unpriced {vm vm' : VM} {eip : BitVec 32}
    (hm : vm.memory.getSizedMemory eip 16 = vm'.memory.getSizedMemory eip 16) (writeable : Bool) :
    Both (fun f f' ↦ f.unpriced = f'.unpriced) (vm.decodeAt writeable eip)
      (vm'.decodeAt writeable eip) := by
  simp only [VM.decodeAt, fillSlot, hm]
  refine .same fun window ↦ .same fun r ↦ .same fun buffer ↦ ?_
  obtain ⟨pre, n⟩ := r
  dsimp only
  split
  · exact .bind (R := fun p p' : Pipeline ↦ p.unpriced = p'.unpriced)
      (.same fun _ ↦ .ok rfl) fun p p' h ↦ .ok (filled_unpriced _ _ _ h)
  · cases hd : decodeOpcode vm.charger OPCODES pre n buffer with
    | err x | panic =>
      have hu := decodeOpcode_unpriced vm.charger vm'.charger pre n buffer
      rw [hd] at hu
      generalize hd' : decodeOpcode vm'.charger OPCODES pre n buffer = r at hu
      cases hu
      first
        | exact .err _
        | exact .panic
    | ok r =>
      have hu := decodeOpcode_unpriced vm.charger vm'.charger pre n buffer
      rw [hd] at hu
      generalize hd' : decodeOpcode vm'.charger OPCODES pre n buffer = r' at hu
      cases hu with
      | @ok _ r' h =>
        obtain ⟨slot, behavior⟩ := r
        obtain ⟨slot', behavior'⟩ := r'
        obtain ⟨hs, rfl⟩ := h
        obtain ⟨opcode, hto, rfl⟩ := decodeOpcode_eq_ok hd
        have hnext := followSlot_unpriced vm vm' eip hto hs
        dsimp only at hnext
        simp only [ok_bind, hnext]
        exact .same fun next ↦ .ok (filled_unpriced _ _ _ hs)

end Decode

section Errors

variable {c : Core σ} {p : Pipeline}

theorem opcodeCall_ne_outOfGas (hu : hv.Unmetered) (f : OpcodeFn) (p : Pipeline) (m : Machine σ) :
    (f.call hv p m).1 ≠ .err .outOfGas := by
  cases f with
  | logic f =>
    have : Admits fun x ↦ x ≠ .outOfGas := ⟨fun x hx ho ↦ by rw [ho] at hx; cases hx⟩
    have hc : Composed (fun x ↦ x ≠ .outOfGas) (f.logic p) :=
      f.composed p fun _ _ ↦ ⟨fun _ _ ho ↦ by cases ho⟩
    intro h
    obtain hx | hx := hc.throws m.vm _ h
    · exact hx rfl
    · cases hx
  | interrupt =>
    intro h
    simp only [OpcodeFn.call] at h
    split at h
    · next y hy =>
      cases h
      obtain hy | ⟨v, -, hy⟩ := except_bind_eq_error.mp hy
      · cases VM.getArg_error hy
      · cases SizedValue.Converts.error v _ hy
    · exact hu.ne_outOfGas _ _ _ (ofExcept_eq_err.mp h)

theorem settle_ne_outOfGas (o : Outcome VMError Unit) (m : Machine σ) (h : o ≠ .err .outOfGas) :
    Core.settle p (o, m) ≠ .inr (.err .outOfGas, c) := by
  intro hs
  cases o with
  | ok _ | panic => cases hs
  | err x =>
    rw [settle_err] at hs
    split at hs
    · cases hs
    · cases hs
      exact h rfl

theorem pass_ne_outOfGas (hu : hv.Unmetered) {verdict : VM → Outcome VMError Bool}
    (hverdict : ∀ vm, verdict vm ≠ .err .outOfGas) (c' : Core σ) :
    Core.pass hv p verdict c' ≠ .inr (.err .outOfGas, c) := by
  have hcall := opcodeCall_ne_outOfGas hu (repOpcode p.opcode).function p c'.machine
  unfold Core.pass
  split
  · exact settle_ne_outOfGas _ _ fun ho ↦ by cases ho
  rcases hr : (repOpcode p.opcode).function.call hv p c'.machine with ⟨_ | x | _, m⟩
  · dsimp only
    split
    · exact fun ho ↦ by cases ho
    · exact settle_ne_outOfGas _ _ fun ho ↦ by cases ho
    · next e he => exact settle_ne_outOfGas _ _ fun ho ↦ hverdict _ (by cases ho; exact he)
    · exact settle_ne_outOfGas _ _ fun ho ↦ by cases ho
  · rw [hr] at hcall
    exact settle_ne_outOfGas _ _ hcall
  · exact settle_ne_outOfGas _ _ fun ho ↦ by cases ho

theorem repeVerdict_ne_outOfGas (opcode : BitVec 8) (vm : VM) :
    repeVerdict opcode vm ≠ .err .outOfGas := by
  intro h
  unfold repeVerdict at h
  split at h
  · cases h
  split at h <;> cases h

theorem step_ne_outOfGas (hu : hv.Unmetered) (c' : Core σ) :
    Core.step hv c' ≠ .inr (.err .outOfGas, c) := by
  unfold Core.step
  split
  · next f _ =>
    unfold Core.execute
    split
    · exact settle_ne_outOfGas _ _ (opcodeCall_ne_outOfGas hu _ _ _)
    · exact pass_ne_outOfGas hu (repeVerdict_ne_outOfGas _) _
    · split
      · exact pass_ne_outOfGas hu (fun _ ho ↦ by cases ho) _
      · exact settle_ne_outOfGas _ _ fun ho ↦ by cases ho
  · next e he =>
    intro ho
    cases ho
    cases fillSlot_err he
  · exact fun ho ↦ by cases ho

end Errors

section Passes

variable {m : Machine σ} {p : Pipeline} {verdict : VM → Outcome VMError Bool}

/-- A REP loop is a run of passes, and breaks off between two of them if its gas is gone. -/
theorem repLoop_core (hu : hv.Unmetered) (cost : BitVec 64) {S : Core σ → Prop}
    (hpass : ∀ c, S c → Core.step hv c = Core.pass hv p verdict c)
    (hflags : ∀ vm vm' : VM, vm.flags = vm'.flags → verdict vm = verdict vm')
    (hagain : ∀ m m' : Machine σ, S m.core →
      (repOpcode p.opcode).function.call hv p m = (.ok (), m') → verdict m'.vm = .ok true →
        S (Machine.core { m' with vm := m'.vm.decrementRegw .ecx p.sizeOverride }) ∧
          m'.vm.readRegw .ecx p.sizeOverride = m.vm.readRegw .ecx p.sizeOverride)
    (n : ℕ) (hS : S m.core) (hn : (m.vm.readRegw .ecx p.sizeOverride).toNat ≤ n) :
    let r := repLoop hv p cost verdict n m
    (r.1 = .err .outOfGas ∧ Reaches (Core.step hv) m.core r.2.core) ∨
      ∃ c, Reaches (Core.step hv) m.core c ∧ Core.step hv c = Core.settle p r := by
  intro r
  have hread (m : Machine σ) : m.core.machine.vm.readRegw .ecx p.sizeOverride =
      m.vm.readRegw .ecx p.sizeOverride := rfl
  have hdone (m : Machine σ) (hS : S m.core) (hz : m.vm.readRegw .ecx p.sizeOverride = 0) :
      Core.step hv m.core = Core.settle p (.ok (), m) := by
    rw [hpass _ hS, Core.pass, hread, if_pos hz]
    exact settle_core rfl _
  induction n generalizing m with
  | zero =>
    have hz : m.vm.readRegw .ecx p.sizeOverride = 0 :=
      BitVec.eq_of_toNat_eq (Nat.le_zero.mp hn)
    exact .inr ⟨m.core, .refl .., hdone m hS hz⟩
  | succ n ih =>
    by_cases hz : m.vm.readRegw .ecx p.sizeOverride = 0
    · have hr : r = (.ok (), m) := by simp only [r, repLoop, if_pos hz]
      rw [hr]
      exact .inr ⟨m.core, .refl .., hdone m hS hz⟩
    by_cases hg : m.vm.gasRemaining = 0
    · have hr : r = (.err .outOfGas, m) := by simp only [r, repLoop, if_neg hz, if_pos hg]
      rw [hr]
      exact .inl ⟨rfl, .refl ..⟩
    have hr : r = repLoop hv p cost verdict (n + 1) m := rfl
    simp only [repLoop, if_neg hz, if_neg hg, repPass] at hr
    have hcore := hpass _ hS
    simp only [Core.pass, hread, if_neg hz] at hcore
    obtain ⟨ho, hm⟩ := opcodeCall_core hu (show m.core.machine.core = m.core from rfl)
      (repOpcode p.opcode).function p
    rcases hc : (repOpcode p.opcode).function.call hv p m.core.machine with ⟨o, m₁⟩
    rcases hc' : (repOpcode p.opcode).function.call hv p m with ⟨o', m₂⟩
    rw [hc, hc'] at ho hm
    rw [hc] at hcore
    rw [hc'] at hr
    dsimp only at ho hm
    subst ho
    cases o with
    | err x | panic =>
      rw [hr]
      exact .inr ⟨m.core, .refl .., hcore.trans (settle_core hm _)⟩
    | ok _ =>
      have hdec := decrement_core hm .ecx p.sizeOverride
      have hverdict : verdict (m₁.vm.decrementRegw .ecx p.sizeOverride) = verdict m₂.vm := by
        rw [hflags _ _ (m₁.vm.decrementRegw_flags .ecx p.sizeOverride)]
        exact hflags _ _ (congrArg (·.processor.flags) hm)
      have hverdict' : verdict ((Machine.charge
          { m₂ with vm := m₂.vm.decrementRegw .ecx p.sizeOverride } cost).vm) = verdict m₂.vm :=
        hflags _ _ (m₂.vm.decrementRegw_flags .ecx p.sizeOverride)
      simp only [hverdict'] at hr
      simp only [hverdict] at hcore
      cases hv' : verdict m₂.vm with
      | err x | panic =>
        rw [hv'] at hr hcore
        dsimp only at hr hcore
        rw [hr]
        exact .inr ⟨m.core, .refl .., hcore.trans
          (settle_core (hdec.trans (charge_core _ cost).symm) _)⟩
      | ok b =>
        rw [hv'] at hr hcore
        cases b with
        | false =>
          rw [hr]
          exact .inr ⟨m.core, .refl .., hcore.trans
            (settle_core (hdec.trans (charge_core _ cost).symm) _)⟩
        | true =>
          obtain ⟨hS', hread'⟩ := hagain m m₂ hS hc' hv'
          have hcount := VM.readRegw_decrementRegw (hread' ▸ hz)
          have hstep : Core.step hv m.core = .inl (Machine.core
              { m₂ with vm := m₂.vm.decrementRegw .ecx p.sizeOverride }) :=
            hcore.trans (congrArg Sum.inl hdec)
          have hle : ((m₂.vm.decrementRegw .ecx p.sizeOverride).readRegw .ecx
              p.sizeOverride).toNat ≤ n := by
            rw [hcount, hread']
            omega
          obtain ⟨hout, hreach⟩ | ⟨c, hreach, hend⟩ := ih (m := Machine.charge
            { m₂ with vm := m₂.vm.decrementRegw .ecx p.sizeOverride } cost) hS' hle
          · exact .inl ⟨hr ▸ hout, hr ▸ .head hstep hreach⟩
          · exact .inr ⟨c, .head hstep hreach, hr ▸ hend⟩

/-- A REP prefix lies in memory that the repeated function cannot write. -/
def Core.RepFixed (c : Core σ) : Prop :=
  ∀ f, c.machine.vm.decodeAt (writeableAt c.processor.eip) c.processor.eip = .ok f →
    f.slot.function.isRep = true → c.processor.eip < WRITEABLE_MEMORY

def Core.SamePass (c c' : Core σ) : Prop :=
  c'.processor.eip = c.processor.eip ∧ c.memory.Guarded c'.memory

theorem samePass_again {c : Core σ} (hs : repFlagOpcodes p.opcode = true ∨
    repNoFlagOpcodes p.opcode = true) {m m' : Machine σ} (hm : c.SamePass m.core)
    (h : (repOpcode p.opcode).function.call hv p m = (.ok (), m')) :
    c.SamePass (Machine.core { m' with vm := m'.vm.decrementRegw .ecx p.sizeOverride }) ∧
      m'.vm.readRegw .ecx p.sizeOverride = m.vm.readRegw .ecx p.sizeOverride := by
  obtain ⟨k, hk⟩ : ∃ k, StringOp.ofOpcode p.opcode = some k := by
    rw [← Option.isSome_iff_exists, StringOp.ofOpcode_isSome, Bool.or_eq_true]
    exact hs
  rw [call_string hk] at h
  have hrun : (k.op p.elementWidth).run m.vm = (.ok (), m'.vm) :=
    Prod.ext (show _ = Outcome.ok () from congrArg Prod.fst h) (congrArg (·.2.vm) h)
  have heip := (k.op p.elementWidth).eip rfl m.vm
  have hframe := ((k.op p.elementWidth).frame m.vm).trans
    (((k.op p.elementWidth).run m.vm).2.decrementRegw_frame .ecx p.sizeOverride)
  rw [hrun] at heip hframe
  refine ⟨⟨?_, hm.2.trans hframe.memory⟩, StringOp.op_readRegw hrun p.sizeOverride⟩
  exact ((m'.vm.decrementRegw_eip .ecx p.sizeOverride).trans heip).trans hm.1

theorem slotCall_core (hu : hv.Unmetered) {c : Core σ} {f : Filled}
    (hd : c.machine.vm.decodeAt (writeableAt c.processor.eip) c.processor.eip = .ok f)
    (hp : f.slot.unpriced = p.unpriced) (hfix : c.RepFixed) (hm : m.core = c) :
    let r := p.function.call hv p m
    (r.1 = .err .outOfGas ∧ Reaches (Core.step hv) c r.2.core) ∨
      ∃ c', Reaches (Core.step hv) c c' ∧ Core.step hv c' = Core.settle p r := by
  intro r
  have hstep : Core.step hv c = Core.execute hv p c := by
    rw [Core.step, hd]
    exact execute_unpriced hp c
  have hfun : f.slot.function = p.function := (Pipeline.mk.inj hp).1
  have hsame (hrep : p.function.isRep = true) (c' : Core σ) (hc' : c.SamePass c') :
      Core.step hv c' = Core.execute hv p c' := by
    have hro := hfix f hd (hfun ▸ hrep)
    have hdec : c'.machine.vm.decodeAt (writeableAt c.processor.eip) c.processor.eip =
        c.machine.vm.decodeAt (writeableAt c.processor.eip) c.processor.eip :=
      decodeAt_stable (show c.machine.vm.memory.Guarded c'.machine.vm.memory from hc'.2) rfl hro _
    rw [Core.step, hc'.1, hdec, hd]
    exact execute_unpriced hp c'
  have hr : r = p.function.call hv p m := rfl
  have hloop (verdict : VM → Outcome VMError Bool) (cost : BitVec 64)
      (hrep : p.function.isRep = true)
      (hexec : ∀ c', Core.execute hv p c' = Core.pass hv p verdict c')
      (hflags : ∀ vm vm' : VM, vm.flags = vm'.flags → verdict vm = verdict vm')
      (hstring : ∀ vm, verdict vm = .ok true →
        repFlagOpcodes p.opcode = true ∨ repNoFlagOpcodes p.opcode = true) :=
    repLoop_core hu cost (S := c.SamePass) (m := m)
      (fun c' hc' ↦ (hsame hrep c' hc').trans (hexec c')) hflags
      (fun m m' hS hcall hv' ↦ samePass_again (hstring _ hv') hS hcall) _
      (hm ▸ ⟨rfl, .refl _⟩) le_rfl
  rw [hm] at hloop
  cases hf : p.function with
  | opcode f =>
    refine .inr ⟨c, .refl .., hstep.trans ?_⟩
    obtain ⟨ho, hc⟩ := opcodeCall_core hu (show c.machine.core = m.core from hm.symm) f p
    simp only [Core.execute, hf]
    rw [hr, hf, SlotFn.call, ← Prod.mk.eta (p := f.call hv p c.machine), ho]
    exact settle_core hc _
  | repe =>
    rw [hr, hf]
    refine hloop (repeVerdict p.opcode) _ (by rw [hf]; rfl)
      (fun c' ↦ by simp only [Core.execute, hf])
      (fun vm vm' h ↦ by simp only [repeVerdict, h]) fun vm h ↦ ?_
    unfold repeVerdict at h
    split at h
    · next hflag => exact .inl hflag
    split at h
    · next hno => exact .inr hno
    · cases h
  | repne =>
    rw [hr, hf]
    simp only [SlotFn.call, repne]
    split
    · next hflag =>
      exact hloop repneVerdict _ (by rw [hf]; rfl)
        (fun c' ↦ by simp only [Core.execute, hf, if_pos hflag])
        (fun vm vm' h ↦ by simp only [repneVerdict, h]) fun _ _ ↦ .inl hflag
    · next hflag =>
      refine .inr ⟨c, .refl .., hstep.trans ?_⟩
      simp only [Core.execute, hf, if_neg hflag]
      exact settle_core (show c.machine.core = m.core from hm.symm) _

theorem endSlot_outOfGas {r : Outcome VMError Unit × Machine σ} (h : r.1 = .err .outOfGas) :
    endSlot p r = .inr (.err .outOfGas, r.2.fail) := by
  obtain ⟨o, m⟩ := r
  cases h
  rfl

theorem stepOne_opcode (hu : hv.Unmetered) {m : Machine σ} {f : Filled} {g : OpcodeFn}
    (hd : m.vm.decodeAt (writeableAt m.vm.eip) m.vm.eip = .ok f)
    (hf : f.slot.function = .opcode g) (hg : ¬m.vm.gasRemaining < f.slot.gasCost) :
    (stepOne hv m).map Machine.core (Prod.map id Machine.core) = Core.step hv m.core := by
  have hwindow : m.vm.memory.getSizedMemory m.vm.eip 16 =
      m.core.machine.vm.memory.getSizedMemory m.vm.eip 16 := rfl
  have hdec := decodeAt_unpriced hwindow (writeableAt m.vm.eip)
  rw [hd] at hdec
  generalize hd' : m.core.machine.vm.decodeAt (writeableAt m.vm.eip) m.vm.eip = d at hdec
  cases hdec with
  | @ok _ f' hp =>
    have hstep : Core.step hv m.core = Core.execute hv f'.slot m.core := by
      change (match m.core.machine.vm.decodeAt (writeableAt m.vm.eip) m.vm.eip with
        | .ok f => Core.execute hv f.slot m.core
        | .err e => .inr (.err e, m.core)
        | .panic => .inr (.panic, m.core)) = _
      rw [hd']
    obtain ⟨ho, hc⟩ := opcodeCall_core hu
      (show (m.charge f.slot.gasCost).core = m.core.machine.core from rfl) g f.slot
    rw [hstep, ← execute_unpriced (congrArg Filled.slot hp), stepOne, hd]
    simp only [runSlot_call hg, Core.execute, hf, SlotFn.call]
    change Core.settle f.slot _ = _
    rw [← Prod.mk.eta (p := g.call hv f.slot (m.charge f.slot.gasCost)), ho]
    exact settle_core hc _

/-- An instruction of the metered machine is one or more steps of the machine without gas,
or breaks them off with an error. -/
theorem stepOne_covers (hu : hv.Unmetered) {m : Machine σ} (hfix : m.core.RepFixed) :
    Covers (stepOne hv) (Core.step hv) Machine.core (Prod.map id Machine.core)
      (fun q ↦ q.1 = .err .outOfGas) (fun q ↦ q.2.core) m := by
  have hwindow : m.core.machine.vm.memory.getSizedMemory m.vm.eip 16 =
      m.vm.memory.getSizedMemory m.vm.eip 16 := rfl
  have hdec := decodeAt_unpriced hwindow (writeableAt m.vm.eip)
  have hstep : Core.step hv m.core =
      match m.core.machine.vm.decodeAt (writeableAt m.vm.eip) m.vm.eip with
      | .ok f => Core.execute hv f.slot m.core
      | .err e => .inr (.err e, m.core)
      | .panic => .inr (.panic, m.core) := rfl
  cases hf : m.core.machine.vm.decodeAt (writeableAt m.vm.eip) m.vm.eip with
  | err x | panic =>
    rw [hf] at hdec hstep
    generalize hf' : m.vm.decodeAt (writeableAt m.vm.eip) m.vm.eip = d at hdec
    cases hdec
    refine .inr ⟨m.core, .refl .., ?_⟩
    rw [hstep, stepOne, hf']
    rfl
  | ok f =>
    rw [hf] at hdec hstep
    generalize hf' : m.vm.decodeAt (writeableAt m.vm.eip) m.vm.eip = d at hdec
    cases hdec with
    | @ok _ f' hp =>
      have hone : stepOne hv m = runSlot hv f'.slot m := by rw [stepOne, hf']
      by_cases hg : m.vm.gasRemaining < f'.slot.gasCost
      · rw [runSlot_broke hg] at hone
        exact .inl ⟨_, hone, rfl, .refl ..⟩
      · rw [runSlot_call hg] at hone
        obtain ⟨ho, hr⟩ | ⟨c, hr, hc⟩ := slotCall_core hu (m := m.charge f'.slot.gasCost) hf
          (congrArg Filled.slot hp) hfix rfl
        · rw [endSlot_outOfGas ho] at hone
          exact .inl ⟨_, hone, rfl, hr⟩
        · refine .inr ⟨c, hr, ?_⟩
          rw [hc, hone]
          rfl

end Passes

end Qx86
