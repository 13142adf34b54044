import Qx86.Decode.Slots
import Qx86.Execute.Interrupts
import Qx86.Machine.Composition

namespace Qx86

open Foundation Op

variable {σ τ : Type}

/-- Relations between virtual machines that no step of a cycle tells apart, unless it
fails with an error that is excused. -/
structure Congruence (V : VM → VM → Prop) (excused : VMError → Prop) : Prop
    extends Keeps V excused where
  gas {vm vm' : VM} : V vm vm' → vm.gasRemaining = vm'.gasRemaining
  charger {vm vm' : VM} : V vm vm' → vm.charger = vm'.charger
  setGas {vm vm' : VM} (g : BitVec 64) : V vm vm' → V (vm.setGas g) (vm'.setGas g)
  setErrorEip {vm vm' : VM} (a : BitVec 32) : V vm vm' →
    V { vm with errorEip := a } { vm' with errorEip := a }
  window {vm vm' : VM} (a : BitVec 32) : V vm vm' →
    (∃ x, vm.memory.getSizedMemory a 16 = .error x ∧ excused x) ∨
      vm.memory.getSizedMemory a 16 = vm'.memory.getSizedMemory a 16

def Paired (V : VM → VM → Prop) (H : σ → τ → Prop) (m : Machine σ) (m' : Machine τ) : Prop :=
  V m.vm m'.vm ∧ H m.host m'.host

def Hypervisor.Alike (hv : Hypervisor σ) (hv' : Hypervisor τ) (V : VM → VM → Prop)
    (H : σ → τ → Prop) (excused : VMError → Prop) : Prop :=
  ∀ vm vm' n s t, V vm vm' → H s t →
    Agrees (Paired V H) excused
      (.ofExcept (hv.interrupt vm n s).1, ⟨(hv.interrupt vm n s).2.1, (hv.interrupt vm n s).2.2⟩)
      (.ofExcept (hv'.interrupt vm' n t).1,
        ⟨(hv'.interrupt vm' n t).2.1, (hv'.interrupt vm' n t).2.2⟩)

/-- The same of one call of the first. -/
def Hypervisor.AlikeAt (hv : Hypervisor σ) (hv' : Hypervisor τ) (V : VM → VM → Prop)
    (H : σ → τ → Prop) (excused : VMError → Prop) (vm : VM) (n : BitVec 8) (s : σ) : Prop :=
  ∀ vm' t, V vm vm' → H s t →
    Agrees (Paired V H) excused
      (.ofExcept (hv.interrupt vm n s).1, ⟨(hv.interrupt vm n s).2.1, (hv.interrupt vm n s).2.2⟩)
      (.ofExcept (hv'.interrupt vm' n t).1,
        ⟨(hv'.interrupt vm' n t).2.1, (hv'.interrupt vm' n t).2.2⟩)

theorem VM.decrementRegw_processor (r : Register) (s : Bool) :
    ∃ g : Processor → Processor, ∀ vm : VM,
      vm.decrementRegw r s = vm.withProcessor (g vm.processor) := by
  cases s with
  | true => exact ⟨fun q ↦ { q with regs := Function.update q.regs r ((q.regs r &&& 0xFFFF0000) |||
      ((q.regs r &&& 0x0000FFFF).setWidth 16 - 1 : BitVec 16).setWidth 32) }, fun _ ↦ rfl⟩
  | false => exact ⟨fun q ↦ { q with regs := Function.update q.regs r (q.regs r - 1) }, fun _ ↦ rfl⟩

section Lockstep

variable {V : VM → VM → Prop} {H : σ → τ → Prop} {excused : VMError → Prop}
  {hv : Hypervisor σ} {hv' : Hypervisor τ}

theorem Keeps.map (hV : Keeps V excused) (g : Processor → Processor) {vm vm' : VM} (h : V vm vm') :
    V (vm.withProcessor (g vm.processor)) (vm'.withProcessor (g vm'.processor)) := by
  rw [hV.processor h]
  exact hV.withProcessor _ h

namespace Paired

variable {m : Machine σ} {m' : Machine τ} (hV : Keeps V excused) (h : Paired V H m m')

include hV h

theorem regs : m.vm.regs = m'.vm.regs := congrArg Processor.regs (hV.processor h.1)

theorem eip : m.vm.eip = m'.vm.eip := congrArg Processor.eip (hV.processor h.1)

theorem flags : m.vm.flags = m'.vm.flags := congrArg Processor.flags (hV.processor h.1)

theorem readRegw (r : Register) (s : Bool) : m.vm.readRegw r s = m'.vm.readRegw r s := by
  simp only [VM.readRegw, h.regs hV]

theorem advance (n : BitVec 8) : Paired V H (m.advance n) (m'.advance n) :=
  ⟨Keeps.map hV (fun q ↦ { q with eip := q.eip + n.setWidth 32 }) h.1, h.2⟩

theorem decrement (r : Register) (s : Bool) :
    Paired V H { m with vm := m.vm.decrementRegw r s }
      { m' with vm := m'.vm.decrementRegw r s } := by
  obtain ⟨g, hg⟩ := VM.decrementRegw_processor r s
  refine ⟨?_, h.2⟩
  simp only [hg]
  exact Keeps.map hV g h.1

theorem logic (f : LogicFn) (p : Pipeline) :
    Agrees (Paired V H) excused (((f.logic p).run m.vm).1, ⟨((f.logic p).run m.vm).2, m.host⟩)
      (((f.logic p).run m'.vm).1, ⟨((f.logic p).run m'.vm).2, m'.host⟩) := by
  have hc : Composed (fun _ ↦ True) (f.logic p) :=
    have : Admits fun _ ↦ True := ⟨fun _ _ ↦ trivial⟩
    f.composed p fun _ _ ↦ ⟨fun _ _ ↦ trivial⟩
  exact (hc.respects hV m.vm m'.vm h.1).imp id fun ⟨ho, hs⟩ ↦ ⟨ho, hs, h.2⟩

end Paired

theorem opcodeCall_agrees (hV : Keeps V excused) {m : Machine σ} {m' : Machine τ}
    (h : Paired V H m m') (f : OpcodeFn) (p : Pipeline)
    (hh : f = .interrupt → ∀ n, m.vm.getArg (p.args 0).location >>= SizedValue.u8Exact = .ok n →
      hv.AlikeAt hv' V H excused m.vm n m.host) :
    Agrees (Paired V H) excused (f.call hv p m) (f.call hv' p m') := by
  cases f with
  | logic f => exact h.logic hV f p
  | interrupt =>
    have hc : Composed (fun _ ↦ True) (getArgAs SizedValue.u8Exact (p.args 0).location :
        Op .straight (BitVec 8)) :=
      have : Admits fun _ ↦ True := ⟨fun _ _ ↦ trivial⟩
      inferInstance
    have hnum := hc.respects hV m.vm m'.vm h.1
    rw [run_getArgAs, run_getArgAs] at hnum
    simp only [OpcodeFn.call]
    obtain ⟨x, hx, he⟩ | ⟨ho, -⟩ := hnum
    · rw [Outcome.ofExcept_eq_err.mp hx]
      exact .excuse he
    · cases hn : m.vm.getArg (p.args 0).location >>= SizedValue.u8Exact with
      | error x =>
        rw [hn] at ho
        rw [Outcome.ofExcept_eq_err.mp ho.symm]
        exact .same h
      | ok n =>
        rw [hn] at ho
        rw [Outcome.ofExcept_eq_ok.mp ho.symm]
        exact hh rfl n hn _ _ h.1 h.2

namespace Paired

variable {m : Machine σ} {m' : Machine τ} (hV : Congruence V excused) (h : Paired V H m m')

include hV h

theorem charge (cost : BitVec 64) : Paired V H (m.charge cost) (m'.charge cost) := by
  refine ⟨?_, h.2⟩
  simp only [Machine.charge, Machine.setGas_vm, hV.gas h.1]
  exact hV.setGas _ h.1

theorem fail : Paired V H m.fail m'.fail := by
  have he := hV.setErrorEip m.vm.eip h.1
  refine ⟨?_, h.2⟩
  simpa only [Machine.fail, h.eip hV.toKeeps] using he

end Paired

section Calls

variable (hV : Congruence V excused)

include hV

theorem repPass_agrees {m : Machine σ} {m' : Machine τ} (h : Paired V H m m') {p : Pipeline}
    (hp : (repOpcode p.opcode).function ≠ .interrupt) (cost : BitVec 64) :
    Agrees (Paired V H) excused (repPass hv p cost m) (repPass hv' p cost m') := by
  have hcall : Agrees (Paired V H) excused ((repOpcode p.opcode).function.call hv p m)
      ((repOpcode p.opcode).function.call hv' p m') :=
    opcodeCall_agrees hV.toKeeps h _ p fun hi ↦ absurd hi hp
  simp only [repPass]
  rcases hr : (repOpcode p.opcode).function.call hv p m with ⟨o, m₁⟩
  rcases hr' : (repOpcode p.opcode).function.call hv' p m' with ⟨o', m₁'⟩
  rw [hr, hr'] at hcall
  obtain ⟨x, hx, he⟩ | ⟨ho, hm⟩ := hcall
  · cases hx
    exact .excuse he
  · cases ho
    cases o with
    | ok _ => exact .same ((hm.decrement hV.toKeeps _ _).charge hV cost)
    | err x | panic => exact .same hm

theorem repLoop_agrees {m : Machine σ} {m' : Machine τ} (h : Paired V H m m') {p : Pipeline}
    (hp : (repOpcode p.opcode).function ≠ .interrupt) (cost : BitVec 64)
    {verdict : VM → Outcome VMError Bool}
    (hverdict : ∀ vm vm', vm.flags = vm'.flags → verdict vm = verdict vm') (n : ℕ) :
    Agrees (Paired V H) excused (repLoop hv p cost verdict n m)
      (repLoop hv' p cost verdict n m') := by
  induction n generalizing m m' with
  | zero => exact .same h
  | succ n ih =>
    have hpass : Agrees (Paired V H) excused (repPass hv p cost m) (repPass hv' p cost m') :=
      repPass_agrees hV h hp cost
    simp only [repLoop, ← h.readRegw hV.toKeeps, ← hV.gas h.1]
    split
    · exact .same h
    · split
      · exact .same h
      · rcases hr : repPass hv p cost m with ⟨o, m₁⟩
        rcases hr' : repPass hv' p cost m' with ⟨o', m₁'⟩
        rw [hr, hr'] at hpass
        obtain ⟨x, hx, he⟩ | ⟨ho, hm⟩ := hpass
        · cases hx
          exact .excuse he
        · cases ho
          cases o with
          | err x | panic => exact .same hm
          | ok _ =>
            simp only [← hverdict _ _ (hm.flags hV.toKeeps)]
            cases verdict m₁.vm with
            | err x | panic => exact .same hm
            | ok b =>
              cases b with
              | false => exact .same hm
              | true => exact ih hm

theorem slotCall_agrees {m : Machine σ} {m' : Machine τ} (h : Paired V H m m') (p : Pipeline)
    (hp : ¬p.RepeatsOther)
    (hh : p.function = .opcode .interrupt → ∀ n,
      m.vm.getArg (p.args 0).location >>= SizedValue.u8Exact = .ok n →
        hv.AlikeAt hv' V H excused m.vm n m.host) :
    Agrees (Paired V H) excused (p.function.call hv p m) (p.function.call hv' p m') := by
  have hcost : m.vm.charger = m'.vm.charger := hV.charger h.1
  cases hf : p.function with
  | opcode f => exact opcodeCall_agrees hV.toKeeps h f p fun hi ↦ hh (hi ▸ hf)
  | repe =>
    have hstring := not_not.mp (not_and.mp hp hf)
    simp only [SlotFn.call, repe, ← h.readRegw hV.toKeeps, ← hcost]
    refine repLoop_agrees hV h (repOpcode_ne_interrupt hstring) _ (fun vm vm' hf ↦ ?_) _
    simp only [repeVerdict, hf]
  | repne =>
    simp only [SlotFn.call, repne, ← h.readRegw hV.toKeeps, ← hcost]
    split
    · next hflag =>
      refine repLoop_agrees hV h (repOpcode_ne_interrupt (.inl hflag)) _ (fun vm vm' hf ↦ ?_) _
      simp only [repneVerdict, hf]
    · exact .same h

end Calls

def SameResult (V : VM → VM → Prop) (H : σ → τ → Prop) (r : Outcome VMError Bool × Machine σ)
    (r' : Outcome VMError Bool × Machine τ) : Prop :=
  r.1 = r'.1 ∧ Paired V H r.2 r'.2

def ExcusedResult (excused : VMError → Prop) (r : Outcome VMError Bool × Machine σ) : Prop :=
  ∃ x, r.1 = .err x ∧ excused x

def Hypervisor.AlikeFor (hv : Hypervisor σ) (hv' : Hypervisor τ) (V : VM → VM → Prop)
    (H : σ → τ → Prop) (excused : VMError → Prop) (p : Pipeline) (m : Machine σ) : Prop :=
  p.Interrupts m.vm → ∀ n,
    (m.charge p.gasCost).vm.getArg (p.args 0).location >>= SizedValue.u8Exact = .ok n →
      hv.AlikeAt hv' V H excused (m.charge p.gasCost).vm n m.host

section Slots

variable (hV : Congruence V excused) (hstop : ¬excused .internalVMStop)

include hV hstop

theorem endRepe_matches {x : Outcome VMError Unit × Machine σ}
    {y : Outcome VMError Unit × Machine τ} (h : Agrees (Paired V H) excused x y) (p : Pipeline)
    (cost : BitVec 64) :
    ExcusedResult excused (endRepe p cost x) ∨
      SameResult V H (endRepe p cost x) (endRepe p cost y) := by
  obtain ⟨o, m⟩ := x
  obtain ⟨o', m'⟩ := y
  obtain ⟨x, hx, he⟩ | ⟨ho, hm⟩ := h
  · cases hx
    have hne : x ≠ .internalVMStop := by
      rintro rfl
      exact hstop he
    exact .inl ⟨x, by rw [endRepe, if_neg hne], he⟩
  · cases ho
    cases o with
    | ok _ => exact .inr ⟨rfl, ((hm.decrement hV.toKeeps _ _).charge hV cost).fail hV⟩
    | panic => exact .inr ⟨rfl, hm⟩
    | err x =>
      refine .inr ?_
      simp only [endRepe]
      split
      · exact ⟨rfl, hm⟩
      · exact ⟨rfl, hm.fail hV⟩

theorem runSlot_other_matches {m : Machine σ} {m' : Machine τ} (h : Paired V H m m') {p : Pipeline}
    (hp : p.RepeatsOther) (hh : hv.AlikeFor hv' V H excused p m) :
    Matches (Paired V H) (SameResult V H) (ExcusedResult excused) (runSlot hv p m)
      (runSlot hv' p m') := by
  have hc := h.charge hV p.gasCost
  have hcounter := h.readRegw hV.toKeeps .ecx p.sizeOverride
  by_cases henters : p.Enters m.vm
  · have henters' : p.Enters m'.vm :=
      ⟨hp.1, hp.2, hcounter ▸ henters.counter, hV.gas h.1 ▸ henters.gas⟩
    have hcall := opcodeCall_agrees hV.toKeeps hc (repOpcode p.opcode).function p
      fun hi ↦ hh (.inr ⟨henters, hi⟩)
    rw [runSlot_of_enters henters, runSlot_of_enters henters', ← hV.charger h.1]
    obtain hexc | hsame := endRepe_matches hV hstop hcall p _
    · exact .inl ⟨_, rfl, hexc⟩
    · exact .inr (.inr hsame)
  · have henters' : ¬p.Enters m'.vm := fun he ↦
      henters ⟨hp.1, hp.2, hcounter ▸ he.counter, hV.gas h.1 ▸ he.gas⟩
    rw [runSlot_of_not_enters hp henters, runSlot_of_not_enters hp henters', ← hV.gas h.1,
      ← hcounter]
    split
    · exact .inr (.inr ⟨rfl, hc⟩)
    split
    · exact .inr (.inl (hc.advance hV.toKeeps _))
    · exact .inr (.inr ⟨rfl, hc.fail hV⟩)

theorem runSlot_matches {m : Machine σ} {m' : Machine τ} (h : Paired V H m m') (p : Pipeline)
    (hh : hv.AlikeFor hv' V H excused p m) :
    Matches (Paired V H) (SameResult V H) (ExcusedResult excused) (runSlot hv p m)
      (runSlot hv' p m') := by
  by_cases hother : p.RepeatsOther
  · exact runSlot_other_matches hV hstop h hother hh
  have hc := h.charge hV p.gasCost
  by_cases hg : m.vm.gasRemaining < p.gasCost
  · rw [runSlot_broke hg, runSlot_broke (hV.gas h.1 ▸ hg)]
    exact .inr (.inr ⟨rfl, hc⟩)
  have hcall := slotCall_agrees hV hc p hother fun hi ↦ hh (.inl ⟨hi, hg⟩)
  rw [runSlot_call hg, runSlot_call (hV.gas h.1 ▸ hg)]
  rcases hr : p.function.call hv p (m.charge p.gasCost) with ⟨o, m₁⟩
  rcases hr' : p.function.call hv' p (m'.charge p.gasCost) with ⟨o', m₁'⟩
  rw [hr, hr'] at hcall
  obtain ⟨x, hx, he⟩ | ⟨ho, hm⟩ := hcall
  · cases hx
    have hne : x ≠ .internalVMStop := by
      rintro rfl
      exact hstop he
    exact .inl ⟨_, rfl, x, by rw [if_neg hne], he⟩
  · cases ho
    cases o with
    | ok _ => exact .inr (.inl (hm.advance hV.toKeeps _))
    | panic => exact .inr (.inr ⟨rfl, hm⟩)
    | err x =>
      refine .inr (.inr ?_)
      split
      · exact ⟨rfl, hm⟩
      · exact ⟨rfl, hm.fail hV⟩

theorem runSlots_matches {m : Machine σ} {m' : Machine τ} (h : Paired V H m m')
    (ps : List Pipeline)
    (hh : ∀ p t, (p, t) ∈ trace hv ps m → hv.AlikeFor hv' V H excused p t) :
    Matches (Paired V H) (SameResult V H) (ExcusedResult excused)
      (runSlots hv ps m) (runSlots hv' ps m') := by
  induction ps generalizing m m' with
  | nil => exact .inr (.inl h)
  | cons p ps ih =>
    have hp := runSlot_matches hV hstop h p (hh p m List.mem_cons_self)
    simp only [runSlots]
    obtain ⟨q, hq, he⟩ | hp := hp
    · rw [hq]
      exact .inl ⟨q, rfl, he⟩
    · cases hr : runSlot hv p m with
      | inl m₁ =>
        have hrest : ∀ q t, (q, t) ∈ trace hv ps m₁ → hv.AlikeFor hv' V H excused q t := by
          intro q t ht
          apply hh q t
          rw [trace, hr]
          exact List.mem_cons_of_mem _ ht
        cases hr' : runSlot hv' p m' with
        | inl m₁' =>
          rw [hr, hr', Sum.liftRel_inl_inl] at hp
          exact ih hp hrest
        | inr q' => simp [hr, hr'] at hp
      | inr q =>
        cases hr' : runSlot hv' p m' with
        | inl m₁' => simp [hr, hr'] at hp
        | inr q' =>
          rw [hr, hr'] at hp
          exact .inr hp

end Slots

section Fill

variable (hV : Congruence V excused)

include hV

theorem fillSlot_agrees {vm vm' : VM} (h : V vm vm') (writeable : Bool) (eip : BitVec 32)
    (p : Pipeline) :
    (∃ x, fillSlot vm OPCODES writeable eip p = .err x ∧ excused x) ∨
      fillSlot vm OPCODES writeable eip p = fillSlot vm' OPCODES writeable eip p := by
  obtain ⟨x, hx, he⟩ | hw := hV.window eip h
  · refine .inl ⟨x, ?_, he⟩
    rw [fillSlot, hx]
    rfl
  · exact .inr (fillSlot_congr (hV.charger h) hw writeable p)

theorem fillLoop_agrees {vm vm' : VM} (h : V vm vm') (writeable : Bool) (eip : BitVec 32)
    (stop : Bool) (gas : BitVec 64) (ps : List Pipeline) :
    (∃ x, fillLoop vm OPCODES writeable eip stop gas ps = .err x ∧ excused x) ∨
      fillLoop vm OPCODES writeable eip stop gas ps =
        fillLoop vm' OPCODES writeable eip stop gas ps := by
  induction ps generalizing eip stop gas with
  | nil => cases stop <;> exact .inr rfl
  | cons p ps ih =>
    cases stop with
    | true =>
      simp only [fillLoop]
      obtain ⟨x, hx, he⟩ | hrest := ih eip true gas
      · exact .inl ⟨x, by rw [hx]; rfl, he⟩
      · exact .inr (by rw [hrest])
    | false =>
      simp only [fillLoop]
      obtain ⟨x, hx, he⟩ | hslot := fillSlot_agrees hV h writeable eip p
      · exact .inl ⟨x, by rw [hx]; rfl, he⟩
      · rw [← hslot]
        cases hf : fillSlot vm OPCODES writeable eip p with
        | err x | panic => exact .inr rfl
        | ok f =>
          simp only [Outcome.ok_bind]
          obtain ⟨x, hx, he⟩ | hrest := ih f.next _ _
          · exact .inl ⟨x, by rw [hx]; rfl, he⟩
          · exact .inr (by rw [hrest])

theorem fillPipeline_agrees {vm vm' : VM} (h : V vm vm') (ps : List Pipeline) :
    (∃ x, fillPipeline vm OPCODES ps = .err x ∧ excused x) ∨
      fillPipeline vm OPCODES ps = fillPipeline vm' OPCODES ps := by
  have he : vm.eip = vm'.eip := congrArg Processor.eip (hV.processor h)
  simp only [fillPipeline, ← he, ← hV.gas h]
  exact fillLoop_agrees hV h ..

end Fill

theorem cycle_matches (hV : Congruence V excused) (hstop : ¬excused .internalVMStop)
    (c : Running σ) (c' : Running τ)
    (hh : ∀ p t, ComesTo hv c p t → hv.AlikeFor hv' V H excused p t)
    (h : Paired V H c.machine c'.machine ∧ c.pipeline = c'.pipeline) :
    Matches (fun (c : Running σ) (c' : Running τ) ↦
        Paired V H c.machine c'.machine ∧ c.pipeline = c'.pipeline)
      (SameResult V H) (ExcusedResult excused) (cycle hv c) (cycle hv' c') := by
  obtain ⟨hm, hp⟩ := h
  simp only [cycle, ← hp]
  obtain ⟨x, hx, he⟩ | hf := fillPipeline_agrees hV hm.1 c.pipeline
  · rw [hx]
    exact .inl ⟨_, rfl, x, rfl, he⟩
  rw [← hf]
  cases hfill : fillPipeline c.machine.vm OPCODES c.pipeline with
  | err x | panic => exact .inr (.inr ⟨rfl, hm⟩)
  | ok slots =>
    obtain ⟨q, hq, he⟩ | hr := runSlots_matches hV hstop hm slots fun p t ht ↦
      hh p t ⟨c, slots, .refl .., hfill, ht⟩
    · simp only [hq]
      exact .inl ⟨q, rfl, he⟩
    · refine .inr ?_
      simp only
      cases h₁ : runSlots hv slots c.machine with
      | inl m₁ =>
        cases h₂ : runSlots hv' slots c'.machine with
        | inl m₂ =>
          rw [h₁, h₂, Sum.liftRel_inl_inl] at hr
          exact .inl ⟨hr, rfl⟩
        | inr q' => simp [h₁, h₂] at hr
      | inr q =>
        cases h₂ : runSlots hv' slots c'.machine with
        | inl m₂ => simp [h₁, h₂] at hr
        | inr q' =>
          rw [h₁, h₂, Sum.liftRel_inr_inr] at hr
          exact .inr hr

section Runs

variable (hV : Congruence V excused) (hstop : ¬excused .internalVMStop) {m : Machine σ}
  {m' : Machine τ} (h : Paired V H m m') {n : ℕ}
  (hh : ∀ vm k s, Asked hv (start n m) vm k s → hv.AlikeAt hv' V H excused vm k s)

include hh

theorem alikeFor_of_reaches {c : Running σ} (hc : Reaches (cycle hv) (start n m) c) (p : Pipeline)
    (t : Machine σ) (ht : ComesTo hv c p t) : hv.AlikeFor hv' V H excused p t := by
  obtain ⟨d, slots, hd, hslots⟩ := ht
  intro hp k hk
  exact hh _ k _ (.call p t k ⟨d, slots, hc.trans hd, hslots⟩ hp hk)

include hV hstop h

/-- Runs of related machines end alike, unless the first ends with an excused error. -/
theorem finishes_related {r : Outcome VMError Bool × Machine σ}
    (hr : Finishes (cycle hv) (start n m) r) (he : ∀ x, r.1 = .err x → ¬excused x) :
    ∃ r', Finishes (cycle hv') (start n m') r' ∧ SameResult V H r r' :=
  hr.of_matches
    (R := fun c c' ↦ Paired V H c.machine c'.machine ∧ c.pipeline = c'.pipeline)
    (fun c c' hc ↦ cycle_matches hV hstop c c' (alikeFor_of_reaches hh hc)) ⟨h, rfl⟩
    fun ⟨x, hx, hexc⟩ ↦ he x hx hexc

theorem finishes_related_right {r' : Outcome VMError Bool × Machine τ}
    (hr : Finishes (cycle hv') (start n m') r') :
    ∃ r, Finishes (cycle hv) (start n m) r ∧ (ExcusedResult excused r ∨ SameResult V H r r') :=
  hr.of_matches_right
    (R := fun c c' ↦ Paired V H c.machine c'.machine ∧ c.pipeline = c'.pipeline)
    (fun c c' hc ↦ cycle_matches hV hstop c c' (alikeFor_of_reaches hh hc)) ⟨h, rfl⟩

end Runs

end Lockstep

end Qx86
