import Qx86.Execute.Image
import Qx86.Execute.Interrupts
import Qx86.Execute.Prediction
import Qx86.Machine.Stack
import Qx86.Properties.OperandWidths

namespace Qx86

open Foundation Outcome Operations Op SizedValue

variable {σ : Type} {hv : Hypervisor σ}

section Reads

/-- The functions of the one-byte map that never look at the arguments of their slot. -/
def ignoringFns : List LogicFn :=
  [.nop, .opUndefined, .pusha, .popa, .leave, .pushf, .popf, .lahf, .sahf, .stc, .clc, .cmc, .xlatb,
    .cbwCwde, .cdqCwd, .aaa, .aas, .daa, .das, .hlt, .setDirection, .clearDirection,
    .movsNativeWord, .movsb, .cmpsNativeWord, .cmpsb, .storeStringByte, .loadStringByte,
    .scanStringByte, .storeStringNativeWord, .loadStringNativeWord, .scanStringNativeWord]

def LogicFn.Reads (f : LogicFn) (p : Pipeline) (vm : VM) : Prop :=
  match f with
  | jmpConditionalEcxIsZero => vm.reg32 .ecx = 0
  | jcc => ccMatches p.opcode vm.flags = true
  | pop => vm.Readable (.registerAddress .esp (nativeSize p.sizeOverride))
  | f => f ∉ ignoringFns

def OpcodeFn.Reads (f : OpcodeFn) (p : Pipeline) (vm : VM) : Prop :=
  match f with
  | .logic f => f.Reads p vm
  | .interrupt => True

theorem run_jecxz_of_not {p : Pipeline} {vm : VM} (h : vm.reg32 .ecx ≠ 0) :
    (Operations.jmpConditionalEcxIsZero p).run vm = (.ok (), vm) := by
  rw [Operations.jmpConditionalEcxIsZero, run_bind, run_reg32, runBind_ok, if_neg h, run_pure]

theorem run_jcc_of_not {p : Pipeline} {vm : VM} (h : ccMatches p.opcode vm.flags ≠ true) :
    (Operations.jcc p).run vm = (.ok (), vm) := by
  rw [Operations.jcc, run_bind, run_flags, runBind_ok, if_neg h, run_pure]

theorem run_jcc_of {p : Pipeline} {vm : VM} (h : ccMatches p.opcode vm.flags = true) :
    (Operations.jcc p).run vm = (Operations.jmpRel p).run vm := by
  rw [Operations.jcc, run_bind, run_flags, runBind_ok, if_pos h]

theorem LogicFn.logic_of_not_reads {f : LogicFn} {p : Pipeline} {vm : VM} (h : ¬f.Reads p vm)
    (args : Fin 3 → OpArgument) :
    (f.logic { p with args := args }).run vm = (f.logic p).run vm := by
  cases f
  case jmpConditionalEcxIsZero =>
    exact (run_jecxz_of_not (p := { p with args := args }) h).trans (run_jecxz_of_not h).symm
  case jcc => exact (run_jcc_of_not (p := { p with args := args }) h).trans (run_jcc_of_not h).symm
  case pop =>
    cases hv : vm.getMem (vm.reg32 .esp) (nativeSize p.sizeOverride) with
    | ok v => exact absurd ⟨v, hv⟩ h
    | error x =>
      refine (run_pop vm { p with args := args }).trans (Eq.trans ?_ (run_pop vm p).symm)
      simp only [hv]
      rfl
  all_goals first | rfl | exact absurd (by decide : _ ∉ ignoringFns) h

end Reads

section Apart

/-- Two ways for a call to end, of which the first is an error that the second is not, or
not with the same machine. -/
def Apart (r s : Outcome VMError Unit × Machine σ) : Prop :=
  ∃ x, x ≠ .internalVMStop ∧ x ≠ .invalidOpcodeEncoding ∧ r.1 = .err x ∧
    (s.1 = .err x → r.2.fail ≠ s.2.fail)

def immediates (v : SizedValue) : Fin 3 → OpArgument := fun _ ↦ { location := .immediate v }

def noArguments : Fin 3 → OpArgument := fun _ ↦ {}

def convertingFns : List LogicFn :=
  [.add8bit, .addNativeWord, .or8bit, .orNativeWord, .adc8bit, .adcNativeWord, .sbb8bit,
    .sbbNativeWord, .and8bit, .andNativeWord, .sub8bit, .subNativeWord, .xor8bit, .xorNativeWord,
    .cmp8bit, .cmpNativeWord, .test8bit, .testNativeWord, .increment8bit, .incrementNativeWord,
    .decrementNativeWord, .rol8bit, .rolNativeWord, .imul3NativeWord, .push, .ret, .aam, .aad,
    .jmpRel, .jcc]

theorem logic_qword {f : LogicFn} (hf : f ∈ convertingFns) {p : Pipeline} {vm : VM}
    (h : f.Reads p vm) :
    IsWidthError ((f.logic { p with args := immediates (.qword 0) }).run vm).1 := by
  obtain ⟨function, args, gasCost, eipSize, sizeOverride, opcode⟩ := p
  cases f
  case jcc =>
    have hj := run_jcc_of (p := ⟨function, immediates (.qword 0), gasCost, eipSize, sizeOverride,
      opcode⟩) h
    exact ⟨_, congrArg Prod.fst hj, rfl⟩
  all_goals first
    | exact absurd hf (by decide)
    | cases sizeOverride <;> exact ⟨_, rfl, rfl⟩

theorem fits_immediates {f : LogicFn} (hf : f ∈ convertingFns) (so : Bool) :
    ∃ v : SizedValue, f.fits so (fun _ ↦ v.size) = true := by
  have hall : ∀ f ∈ convertingFns, ∀ so, ∃ v ∈ [SizedValue.byte 0, .word 0, .dword 0],
      f.fits so (fun _ ↦ v.size) = true := by
    decide
  obtain ⟨v, -, hv⟩ := hall f hf so
  exact ⟨v, hv⟩

theorem apart_of_widthError {f : LogicFn} {p q : Pipeline} {m : Machine σ}
    (h : IsWidthError ((f.logic p).run m.vm).1) (hq : ¬IsWidthError ((f.logic q).run m.vm).1) :
    Apart ((OpcodeFn.logic f).call hv p m) ((OpcodeFn.logic f).call hv q m) := by
  obtain ⟨x, hx, hw⟩ := h
  refine ⟨x, ?_, ?_, hx, fun hx' ↦ absurd ⟨x, hx', hw⟩ hq⟩ <;> rintro rfl <;> cases hw

theorem pop_apart {p : Pipeline} {m : Machine σ} (h : LogicFn.pop.Reads p m.vm) :
    Apart ((OpcodeFn.logic .pop).call hv { p with args := immediates .none } m)
      ((OpcodeFn.logic .pop).call hv { p with args := noArguments } m) := by
  obtain ⟨v, hv⟩ := h
  have hpop (args : Fin 3 → OpArgument) :
      ((Operations.pop { p with args := args } : Op .straight Unit).run m.vm).1 =
        ((setArg (args 0).location v : Op .straight Unit).run
          (m.vm.setReg32 .esp (m.vm.reg32 .esp + if p.sizeOverride then 2 else 4))).1 := by
    have hv : m.vm.getMem (m.vm.reg32 .esp) (nativeSize p.sizeOverride) = .ok v := hv
    rw [run_pop]
    simp only [hv, ofExcept_ok, runBind_ok]
  refine ⟨.wroteUnwriteableArgument, nofun, nofun, hpop (immediates .none), fun hx ↦ ?_⟩
  cases (hpop noArguments).symm.trans hx

theorem enter_apart (p : Pipeline) (m : Machine σ) :
    Apart ((OpcodeFn.logic .enter).call hv { p with args := immediates (.qword 0) } m)
      ((OpcodeFn.logic .enter).call hv { p with
        args := ![⟨.immediate (.word 0), false⟩, ⟨.immediate (.byte 0), false⟩, {}] } m) := by
  refine ⟨.wrongSizeExpectation, nofun, nofun, rfl, fun hx ↦ ?_⟩
  obtain ⟨function, args, gasCost, eipSize, sizeOverride, opcode⟩ := p
  cases sizeOverride with
  | true =>
    have htoo := enter_override (p := ⟨function, ![⟨.immediate (.word 0), false⟩,
      ⟨.immediate (.byte 0), false⟩, {}], gasCost, eipSize, true, opcode⟩) rfl rfl rfl m.vm
    cases htoo.symm.trans hx
  | false =>
    have hsafe := LogicFn.enter.logic_widthSafe (p := ⟨function, ![⟨.immediate (.word 0), false⟩,
      ⟨.immediate (.byte 0), false⟩, {}], gasCost, eipSize, false, opcode⟩) rfl
    exact absurd ⟨_, hx, rfl⟩ (WidthSafe.not_isWidthError hsafe m.vm)

/-- Under the operand-size prefix both calls fail in the same way, but one has already
moved the stack pointer. -/
theorem callRel_apart (p : Pipeline) (m : Machine σ) :
    Apart ((OpcodeFn.logic .callRel).call hv { p with args := immediates (.qword 0) } m)
      ((OpcodeFn.logic .callRel).call hv { p with args := noArguments } m) := by
  refine ⟨.tooBigSizeExpectation, nofun, nofun, rfl, fun hx ↦ ?_⟩
  obtain ⟨function, args, gasCost, eipSize, sizeOverride, opcode⟩ := p
  cases sizeOverride with
  | true =>
    intro hm
    have hesp : m.vm.regs .esp = m.vm.regs .esp - 2 :=
      congrArg (fun m : Machine σ ↦ m.vm.regs .esp) hm
    bv_omega
  | false =>
    have hsafe := widthSafe_call (p := ⟨function, noArguments, gasCost, eipSize, false, opcode⟩)
      nofun (widthSafe_jmpRel nofun) rfl rfl
    exact absurd ⟨_, hx, rfl⟩ (WidthSafe.not_isWidthError hsafe m.vm)

/-- A function that looks at its arguments shows what they are. -/
theorem logic_apart {f : LogicFn} {p : Pipeline} {m : Machine σ}
    (hf : f ∈ convertingFns ++ [LogicFn.mov, .xchg, .pop, .lea, .enter, .callRel])
    (h : f.Reads p m.vm) :
    ∃ a b, Apart ((OpcodeFn.logic f).call hv { p with args := a } m)
      ((OpcodeFn.logic f).call hv { p with args := b } m) := by
  obtain hf | hf := List.mem_append.mp hf
  · obtain ⟨v, hv⟩ := fits_immediates hf p.sizeOverride
    exact ⟨_, immediates v, apart_of_widthError (logic_qword hf h)
      (WidthSafe.not_isWidthError (f.logic_widthSafe hv) m.vm)⟩
  · simp only [List.mem_cons, List.not_mem_nil, or_false] at hf
    obtain rfl | rfl | rfl | rfl | rfl | rfl := hf
    · exact ⟨immediates .none, noArguments, .wroteUnwriteableArgument, nofun, nofun, rfl, nofun⟩
    · exact ⟨immediates .none, noArguments, .wroteUnwriteableArgument, nofun, nofun, rfl, nofun⟩
    · exact ⟨_, _, pop_apart h⟩
    · refine ⟨![⟨.immediate .none, false⟩, ⟨.address 0 .dword, true⟩, {}], noArguments,
        .wroteUnwriteableArgument, nofun, nofun, ?_, nofun⟩
      obtain ⟨function, args, gasCost, eipSize, sizeOverride, opcode⟩ := p
      cases sizeOverride <;> rfl
    · exact ⟨_, _, enter_apart p m⟩
    · exact ⟨_, _, callRel_apart p m⟩

def Hypervisor.recording (hv : Hypervisor σ) : Hypervisor (σ × List (VM × BitVec 8)) where
  interrupt vm n s :=
    let (r, vm', s') := hv.interrupt vm n s.1
    (r, vm', s', (vm, n) :: s.2)

theorem interrupt_apart (p : Pipeline) (m : Machine (σ × List (VM × BitVec 8))) :
    Apart (OpcodeFn.interrupt.call hv.recording { p with args := noArguments } m)
      (OpcodeFn.interrupt.call hv.recording { p with args := immediates (.byte 0) } m) := by
  refine ⟨.wrongSizeExpectation, nofun, nofun, rfl, fun _ hm ↦ ?_⟩
  have hcalls := congrArg (fun m : Machine (σ × List (VM × BitVec 8)) ↦ m.host.2.length) hm
  exact absurd hcalls (Nat.lt_succ_self _).ne

theorem repOpcode_reads (opcode : BitVec 8) {p : Pipeline} {vm : VM} (hc : vm.reg32 .ecx ≠ 0)
    (h : (repOpcode opcode).function.Reads p vm) :
    (repOpcode opcode).function = .interrupt ∨ ∃ f ∈ convertingFns ++
      [LogicFn.mov, .xchg, .pop, .lea, .enter, .callRel],
        (repOpcode opcode).function = .logic f := by
  have hall : ∀ d ∈ definitions, d.writesInner 0 = true → (∃ o ∈ d.slots, o < 256) →
      d.toOpcode.function = .interrupt ∨ (∃ f ∈ convertingFns ++
        [LogicFn.mov, .xchg, .pop, .lea, .enter, .callRel], d.toOpcode.function = .logic f) ∨
      ∃ f ∈ .jmpConditionalEcxIsZero :: ignoringFns, d.toOpcode.function = .logic f := by
    decide +kernel
  have hnot : ∀ f ∈ .jmpConditionalEcxIsZero :: ignoringFns, ¬LogicFn.Reads f p vm := by
    intro f hf
    obtain rfl | hf := List.mem_cons.mp hf
    · exact hc
    · unfold LogicFn.Reads
      split
      · exact hc
      · exact absurd hf (by decide)
      · exact absurd hf (by decide)
      · exact not_not.mpr hf
  rw [repOpcode] at h ⊢
  obtain hd | ⟨d, hd, hw, hd'⟩ := OPCODES_cases ⟨opcode.toNat, by
    have := opcode.isLt
    unfold OPCODE_TABLE_SIZE
    omega⟩ 0
  · rw [hd] at h
    exact absurd h (hnot .opUndefined (by decide))
  · rw [hd'] at h ⊢
    obtain hi | hf | ⟨f, hf, he⟩ := hall d hd hw.2 ⟨opcode.toNat, hw.1, opcode.isLt⟩
    · exact .inl hi
    · exact .inr hf
    · rw [he] at h
      exact absurd h (hnot f hf)

end Apart

section Slot

/-- A slot whose effect depends on the arguments that the buffer held: what REPE repeats
looks at them. -/
def Pipeline.Shows (p : Pipeline) (vm : VM) : Prop :=
  p.Enters vm ∧ (repOpcode p.opcode).function.Reads p vm

theorem reads_setGas (f : OpcodeFn) (p : Pipeline) (vm : VM) (g : BitVec 64) :
    f.Reads p (vm.setGas g) ↔ f.Reads p vm := by
  cases f with
  | interrupt => exact Iff.rfl
  | logic f =>
    simp only [OpcodeFn.Reads]
    unfold LogicFn.Reads
    split
    · exact Iff.rfl
    · exact Iff.rfl
    · simp only [VM.Readable, VM.getArg_setGas]
    · exact Iff.rfl

theorem runSlot_of_not_shows {p : Pipeline} {m : Machine σ} (hr : p.function.isRep = true)
    (h : ¬p.Shows m.vm) (args : Fin 3 → OpArgument) :
    runSlot hv { p with args := args } m = runSlot hv p m := by
  by_cases hg : m.vm.gasRemaining < p.gasCost
  · rw [runSlot_broke hg]
    exact runSlot_broke hg
  by_cases hs : p.function = .repe →
      repFlagOpcodes p.opcode = true ∨ repNoFlagOpcodes p.opcode = true
  · rw [runSlot_call hg]
    exact (runSlot_call (p := { p with args := args }) hg).trans
      (congrArg (endSlot p) (slotCall_args hr hs args _))
  obtain ⟨hrepe, hs⟩ := Classical.not_imp.mp hs
  by_cases henters : p.Enters m.vm
  · have henters' : ({ p with args := args } : Pipeline).Enters m.vm :=
      ⟨hrepe, hs, henters.counter, henters.gas⟩
    have hreads : ¬(repOpcode p.opcode).function.Reads p (m.charge p.gasCost).vm :=
      fun hreads ↦ h ⟨henters, (reads_setGas ..).mp hreads⟩
    rw [runSlot_of_enters henters, runSlot_of_enters henters']
    cases hf : (repOpcode p.opcode).function with
    | interrupt => rw [hf] at hreads; exact absurd trivial hreads
    | logic f =>
      rw [hf] at hreads
      simp only [OpcodeFn.call_logic]
      rw [LogicFn.logic_of_not_reads hreads]
      rfl
  · have henters' : ¬({ p with args := args } : Pipeline).Enters m.vm :=
      fun h ↦ henters ⟨hrepe, hs, h.counter, h.gas⟩
    rw [runSlot_of_not_enters ⟨hrepe, hs⟩ henters]
    exact runSlot_of_not_enters (p := { p with args := args }) ⟨hrepe, hs⟩ henters'

theorem endRepe_ne {p : Pipeline} {cost : BitVec 64} {r s : Outcome VMError Unit × Machine σ}
    (h : Apart r s) : endRepe p cost r ≠ endRepe p cost s := by
  obtain ⟨x, hstop, hinvalid, hx, hne⟩ := h
  obtain ⟨_, m⟩ := r
  cases hx
  obtain ⟨_ | y | _, m'⟩ := s
  · simp only [endRepe, if_neg hstop]
    exact fun h ↦ hinvalid (Outcome.err.inj (congrArg Prod.fst h))
  · by_cases hy : y = .internalVMStop
    · simp only [endRepe, if_neg hstop, if_pos hy]
      intro h
      cases congrArg Prod.fst h
    · simp only [endRepe, if_neg hstop, if_neg hy]
      intro h
      exact hne (congrArg _ (Outcome.err.inj (congrArg Prod.fst h)).symm) (congrArg Prod.snd h)
  · simp only [endRepe, if_neg hstop]
    intro h
    cases congrArg Prod.fst h

theorem runSlot_of_shows {p : Pipeline} {m : Machine (σ × List (VM × BitVec 8))}
    (h : p.Shows m.vm) :
    ∃ a b ra rb, runSlot hv.recording { p with args := a } m = .inr ra ∧
      runSlot hv.recording { p with args := b } m = .inr rb ∧ ra ≠ rb := by
  obtain ⟨henters, hreads⟩ := h
  have hecx : (m.charge p.gasCost).vm.reg32 .ecx ≠ 0 := fun h0 ↦ henters.counter <| by
    have h0 : m.vm.regs .ecx = 0 := h0
    rw [VM.readRegw, h0]
    split <;> rfl
  have hreads : (repOpcode p.opcode).function.Reads p (m.charge p.gasCost).vm :=
    (reads_setGas ..).mpr hreads
  obtain ⟨a, b, hapart⟩ : ∃ a b, Apart
      ((repOpcode p.opcode).function.call hv.recording { p with args := a } (m.charge p.gasCost))
      ((repOpcode p.opcode).function.call hv.recording { p with args := b }
        (m.charge p.gasCost)) := by
    obtain hi | ⟨f, hf, he⟩ := repOpcode_reads p.opcode hecx hreads
    · rw [hi]
      exact ⟨_, _, interrupt_apart p _⟩
    · rw [he] at hreads ⊢
      exact logic_apart hf hreads
  have henters' : ∀ args, ({ p with args := args } : Pipeline).Enters m.vm := fun _ ↦
    ⟨henters.repe, henters.noString, henters.counter, henters.gas⟩
  exact ⟨a, b, _, _, runSlot_of_enters (henters' a), runSlot_of_enters (henters' b),
    endRepe_ne hapart⟩

end Slot

section Refill

/-- The slots of a fill and those that the same fill leaves in another buffer. -/
inductive Refill : List Pipeline → List Pipeline → List Pipeline → Prop
  | stopped (bs ps : List Pipeline) : Refill bs (ps.map idleSlot) (bs.map idleSlot)
  | slot (b p : Pipeline) (bs ps qs : List Pipeline) (hr : p.function.isRep = false)
      (rest : Refill bs ps qs) : Refill (b :: bs) (p :: ps) (p :: qs)
  | rep (b p : Pipeline) (bs ps : List Pipeline) (hr : p.function.isRep = true) :
      Refill (b :: bs) (p :: ps.map idleSlot) ({ p with args := b.args } :: bs.map idleSlot)

theorem fillLoop_refill {vm : VM} {writeable : Bool} (ps bs : List Pipeline)
    (hlen : ps.length = bs.length) (eip : BitVec 32) (stop : Bool) (gas : BitVec 64) :
    (∃ slots slots', fillLoop vm OPCODES writeable eip stop gas ps = .ok slots ∧
      fillLoop vm OPCODES writeable eip stop gas bs = .ok slots' ∧ Refill bs slots slots') ∨
    fillLoop vm OPCODES writeable eip stop gas ps = fillLoop vm OPCODES writeable eip stop gas bs ∧
      ∀ slots, fillLoop vm OPCODES writeable eip stop gas ps ≠ .ok slots := by
  cases stop with
  | true => exact .inl ⟨_, _, fillLoop_stopped .., fillLoop_stopped .., .stopped bs ps⟩
  | false =>
    induction ps generalizing eip gas bs with
    | nil =>
      obtain rfl := List.length_eq_zero_iff.mp hlen.symm
      exact .inl ⟨[], [], rfl, rfl, .stopped [] []⟩
    | cons p ps ih =>
      obtain _ | ⟨b, bs⟩ := bs
      · cases hlen
      cases hf : vm.decodeAt writeable eip with
      | err e =>
        rw [fillLoop_cons_fail.1 e hf, fillLoop_cons_fail.1 e hf]
        exact .inr ⟨rfl, nofun⟩
      | panic =>
        rw [fillLoop_cons_fail.2 hf, fillLoop_cons_fail.2 hf]
        exact .inr ⟨rfl, nofun⟩
      | ok f =>
        rw [fillLoop_cons_ok hf, fillLoop_cons_ok hf]
        cases hr : f.slot.function.isRep with
        | true =>
          have hs : f.stop = true := by
            cases hs : f.stop with
            | true => rfl
            | false => rw [(not_isRep_of_not_stop hf hs).1] at hr; cases hr
          rw [hs, Bool.true_or, fillLoop_stopped, fillLoop_stopped, Filled.keepArgs, if_pos hr,
            Filled.keepArgs, if_pos hr]
          exact .inl ⟨_, _, rfl, rfl, .rep b { f.slot with args := p.args } bs ps hr⟩
        | false =>
          have hkeep : ∀ args, f.keepArgs args = f := fun args ↦ if_neg (by simp [hr])
          rw [hkeep, hkeep]
          cases hs : f.stop || Words.saturatingSub gas f.slot.gasCost == 0 with
          | true =>
            rw [fillLoop_stopped, fillLoop_stopped]
            exact .inl ⟨_, _, rfl, rfl, .slot b f.slot bs _ _ hr (.stopped bs ps)⟩
          | false =>
            obtain ⟨slots, slots', h, h', hrefill⟩ | ⟨heq, hno⟩ :=
              ih bs (Nat.succ.inj hlen) f.next (Words.saturatingSub gas f.slot.gasCost)
            · rw [h, h']
              exact .inl ⟨_, _, rfl, rfl, .slot b f.slot bs slots slots' hr hrefill⟩
            · rw [heq] at hno ⊢
              refine .inr ⟨rfl, fun slots h ↦ ?_⟩
              obtain ⟨rest, h, -⟩ := bind_eq_ok.mp h
              exact hno rest h

theorem not_isRep_of_mem_idle {ps : List Pipeline} {m : Machine σ} {x : Pipeline × Machine σ}
    (h : x ∈ trace hv (ps.map idleSlot) m) : x.1.function.isRep = false := by
  obtain ⟨p, -, hp⟩ := List.mem_map.mp (mem_of_mem_trace h)
  rw [← hp]
  rfl

theorem Refill.runSlots_eq {bs ps qs : List Pipeline} (h : Refill bs ps qs) {m : Machine σ}
    (hs : ∀ x ∈ trace hv ps m, ¬x.1.Shows x.2.vm) : runSlots hv qs m = runSlots hv ps m := by
  induction h generalizing m with
  | stopped bs ps => rw [runSlots_idle, runSlots_idle]
  | slot b p bs ps qs _ _ ih =>
    simp only [trace, List.mem_cons, forall_eq_or_imp] at hs
    simp only [runSlots]
    cases hp : runSlot hv p m with
    | inl m' =>
      rw [hp] at hs
      exact ih hs.2
    | inr r => rfl
  | rep b p bs ps hr =>
    simp only [trace, List.mem_cons, forall_eq_or_imp] at hs
    simp only [runSlots, runSlot_of_not_shows hr hs.1, runSlots_idle]

theorem Refill.runSlots_eq_inr {bs ps qs : List Pipeline} (h : Refill bs ps qs) {m m' : Machine σ}
    {p : Pipeline} (hx : (p, m') ∈ trace hv ps m) (hr : p.function.isRep = true)
    {r : Outcome VMError Bool × Machine σ}
    (hb : ∀ b ∈ bs, runSlot hv { p with args := b.args } m' = .inr r) :
    runSlots hv qs m = .inr r := by
  induction h generalizing m with
  | stopped bs ps =>
    rw [not_isRep_of_mem_idle hx] at hr
    cases hr
  | slot b p₀ bs ps qs hr₀ _ ih =>
    obtain heq | hx := List.mem_cons.mp hx
    · cases heq
      rw [hr] at hr₀
      cases hr₀
    · split at hx
      · next hs =>
        simp only [runSlots, hs]
        exact ih hx fun b hb' ↦ hb b (List.mem_cons_of_mem _ hb')
      · cases hx
  | rep b p₀ bs ps hr₀ =>
    obtain heq | hx := List.mem_cons.mp hx
    · cases heq
      simp only [runSlots, hb b List.mem_cons_self]
    · split at hx
      · rw [not_isRep_of_mem_idle hx] at hr
        cases hr
      · cases hx

end Refill

/-- What a cycle shows of its end: the machine it leads to, or the result. -/
def observe (hv : Hypervisor σ) (m : Machine σ) (ps : List Pipeline) :
    Machine σ ⊕ (Outcome VMError Bool × Machine σ) :=
  (cycle hv ⟨m, ps⟩).map Running.machine id

theorem observe_of_ok {m : Machine σ} {ps slots : List Pipeline}
    (h : fillPipeline m.vm OPCODES ps = .ok slots) : observe hv m ps = runSlots hv slots m := by
  simp only [observe, cycle, h]
  cases runSlots hv slots m <;> rfl

theorem fillPipeline_refill (vm : VM) {n : ℕ} (b : Pipeline) (bs : List Pipeline)
    (hlen : bs.length = n) :
    (∃ head slots slots', fillPipeline vm OPCODES (emptyPipeline (n + 1)) = .ok (head :: slots) ∧
      fillPipeline vm OPCODES (b :: bs) = .ok (head :: slots') ∧ Refill bs slots slots') ∨
    fillPipeline vm OPCODES (emptyPipeline (n + 1)) = fillPipeline vm OPCODES (b :: bs) ∧
      ∀ slots, fillPipeline vm OPCODES (emptyPipeline (n + 1)) ≠ .ok slots := by
  change (∃ head slots slots', fillLoop vm OPCODES _ _ _ _ (default :: emptyPipeline n) = _ ∧
    fillLoop vm OPCODES _ _ _ _ (default :: bs) = _ ∧ _) ∨
      fillLoop vm OPCODES _ _ _ _ (default :: emptyPipeline n) =
        fillLoop vm OPCODES _ _ _ _ (default :: bs) ∧
      ∀ slots, fillLoop vm OPCODES _ _ _ _ (default :: emptyPipeline n) ≠ _
  cases hf : vm.decodeAt (writeableAt vm.eip) vm.eip with
  | err e =>
    rw [fillLoop_cons_fail.1 e hf, fillLoop_cons_fail.1 e hf]
    exact .inr ⟨rfl, nofun⟩
  | panic =>
    rw [fillLoop_cons_fail.2 hf, fillLoop_cons_fail.2 hf]
    exact .inr ⟨rfl, nofun⟩
  | ok f =>
    rw [fillLoop_cons_ok hf, fillLoop_cons_ok hf]
    have hsize : (emptyPipeline n).length = bs.length := by
      rw [emptyPipeline, List.length_replicate, hlen]
    obtain ⟨slots, slots', h, h', hrefill⟩ | ⟨heq, hno⟩ := fillLoop_refill (emptyPipeline n) bs
      hsize f.next (f.stop || Words.saturatingSub vm.gasRemaining f.slot.gasCost == 0)
        (Words.saturatingSub vm.gasRemaining f.slot.gasCost)
    · rw [h, h']
      exact .inl ⟨_, slots, slots', rfl, rfl, hrefill⟩
    · rw [heq] at hno ⊢
      refine .inr ⟨rfl, fun slots h ↦ ?_⟩
      obtain ⟨rest, h, -⟩ := bind_eq_ok.mp h
      exact hno rest h

theorem observe_eq_empty {m : Machine σ} {n : ℕ} {ps : List Pipeline} (hlen : ps.length = n)
    (h : ∀ slots, fillPipeline m.vm OPCODES (emptyPipeline n) = .ok slots →
      ∀ x ∈ (trace hv slots m).tail, ¬x.1.Shows x.2.vm) :
    observe hv m ps = observe hv m (emptyPipeline n) := by
  cases ps with
  | nil => rw [← hlen]; rfl
  | cons b bs =>
    rw [List.length_cons] at hlen
    subst hlen
    obtain ⟨head, slots, slots', hfill, hfill', hrefill⟩ | ⟨heq, -⟩ :=
      fillPipeline_refill m.vm b bs rfl
    · have hs := h _ hfill
      rw [observe_of_ok hfill, observe_of_ok hfill']
      simp only [trace, List.tail_cons] at hs
      simp only [runSlots]
      cases hr : runSlot hv head m with
      | inl m' =>
        rw [hr] at hs
        exact hrefill.runSlots_eq hs
      | inr r => rfl
    · simp only [observe, cycle, heq]

/-- What the buffer held before a cycle does not matter to it if and only if none of the
instructions that it comes to after the first shows the arguments of its slot. -/
theorem history_hidden_iff (hv : Hypervisor σ) (m : Machine (σ × List (VM × BitVec 8)))
    (n : ℕ) :
    (∀ ps ps' : List Pipeline, ps.length = n → ps'.length = n →
      observe hv.recording m ps = observe hv.recording m ps') ↔
    ∀ slots, fillPipeline m.vm OPCODES (emptyPipeline n) = .ok slots →
      ∀ x ∈ (trace hv.recording slots m).tail, ¬x.1.Shows x.2.vm := by
  constructor
  · rintro h slots hfill ⟨p, m'⟩ hx hshows
    obtain ⟨a, b, ra, rb, ha, hb, hne⟩ := @runSlot_of_shows σ hv _ _ hshows
    have hr : p.function.isRep = true := by rw [hshows.1.repe]; rfl
    cases n with
    | zero => cases hfill; cases hx
    | succ n =>
      have hinr : ∀ args r, runSlot hv.recording { p with args := args } m' = .inr r →
          observe hv.recording m (default :: List.replicate n { (default : Pipeline) with
            args := args }) = .inr r := by
        intro args r hargs
        obtain ⟨head, rest, rest', hf, hf', hrefill⟩ | ⟨-, hno⟩ := fillPipeline_refill m.vm default
          (List.replicate n { (default : Pipeline) with args := args }) List.length_replicate
        · rw [hf] at hfill
          cases hfill
          rw [observe_of_ok hf']
          simp only [trace, List.tail_cons] at hx
          cases hs : runSlot hv.recording head m with
          | inl m₁ =>
            simp only [hs] at hx
            simp only [runSlots, hs]
            refine hrefill.runSlots_eq_inr hx hr fun c hc ↦ ?_
            rw [(List.mem_replicate.mp hc).2]
            exact hargs
          | inr r₁ =>
            simp only [hs] at hx
            cases hx
        · exact absurd hfill (hno slots)
      have heq := h (default :: List.replicate n { (default : Pipeline) with args := a })
        (default :: List.replicate n { (default : Pipeline) with args := b })
        (by rw [List.length_cons, List.length_replicate])
        (by rw [List.length_cons, List.length_replicate])
      rw [hinr a ra ha, hinr b rb hb] at heq
      exact hne (Sum.inr.inj heq)
  · intro h ps ps' hlen hlen'
    rw [observe_eq_empty hlen h, observe_eq_empty hlen' h]

/-- `nop` and then REPE of a `mov`. -/
def repeMov : Machine (List (BitVec 8)) where
  vm := { createVm ⟨[0x90, 0xF3, 0x88] ++ List.replicate 16 0, by decide⟩ with
    regs := fun r ↦ if r = Register.ecx then 1 else 0 }
  host := []

/-- The `mov` uses the arguments that the second slot held before. -/
theorem history_shown_repeMov :
    ¬∀ (hv : Hypervisor (List (BitVec 8))) (m : Machine (List (BitVec 8)))
      (ps ps' : List Pipeline), ps.length = ps'.length → observe hv m ps = observe hv m ps' := by
  intro h
  have heq := h testHypervisor repeMov (emptyPipeline 2) [default, { (default : Pipeline) with
    args := ![⟨.registerValue .eax .dword, false⟩, ⟨.immediate (.dword 5), false⟩, {}] }] rfl
  have heax := congrArg (fun o ↦ o.getRight?.map fun r ↦ r.2.vm.regs .eax) heq
  have hne : ((observe testHypervisor repeMov (emptyPipeline 2)).getRight?.map fun r ↦
      r.2.vm.regs .eax) ≠ (observe testHypervisor repeMov [default, { (default : Pipeline) with
        args := ![⟨.registerValue .eax .dword, false⟩, ⟨.immediate (.dword 5), false⟩,
          {}] }]).getRight?.map fun r ↦ r.2.vm.regs .eax := by
    decide +kernel
  exact hne heax

end Qx86
