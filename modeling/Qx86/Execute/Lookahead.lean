import Qx86.Decode.Slots
import Qx86.Execute.Steps
import Qx86.Machine.Jumps

namespace Qx86

open Foundation Outcome Words

variable {σ : Type} {hv : Hypervisor σ}

/-- The machine that decodes each instruction just before it executes it. -/
def stepOne (hv : Hypervisor σ) (m : Machine σ) :
    Machine σ ⊕ (Outcome VMError Bool × Machine σ) :=
  match m.vm.decodeAt (writeableAt m.vm.eip) m.vm.eip with
  | .ok f => runSlot hv f.slot m
  | .err e => .inr (.err e, m)
  | .panic => .inr (.panic, m)

theorem decodeAt_setGas (vm : VM) (g : BitVec 64) (writeable : Bool) (eip : BitVec 32) :
    (vm.setGas g).decodeAt writeable eip = vm.decodeAt writeable eip :=
  fillSlot_congr rfl rfl writeable default

theorem writeableAt_eq_false {eip : BitVec 32} :
    writeableAt eip = false ↔ eip < WRITEABLE_MEMORY := by
  rw [writeableAt, WRITEABLE_MEMORY, ← topBit_eq_zero, decide_eq_false_iff_not, BitVec.not_lt]
  exact BitVec.le_zero_iff

theorem getSizedMemory_congr {m m' : MemorySystem} (h : m.Guarded m') {a : BitVec 32}
    (ha : a < WRITEABLE_MEMORY) (n : BitVec 32) : m'.getSizedMemory a n = m.getSizedMemory a n := by
  have hp : MemorySystem.page a < WRITEABLE_MEMORY := by
    rw [WRITEABLE_MEMORY, ← topBit_eq_zero] at ha ⊢
    rw [MemorySystem.page, topBit_page, ha]
  simp only [MemorySystem.getSizedMemory, MemorySystem.getMemory, h.readOnly _ hp]

/-- Read-only code decodes to the same slot for as long as a cycle runs. -/
theorem decodeAt_stable {vm vm' : VM} (hm : vm.memory.Guarded vm'.memory)
    (hc : vm'.charger = vm.charger) {eip : BitVec 32} (he : eip < WRITEABLE_MEMORY)
    (writeable : Bool) : vm'.decodeAt writeable eip = vm.decodeAt writeable eip :=
  fillSlot_congr hc (getSizedMemory_congr hm he 16) writeable default

section Args

/-- A slot that cannot show which arguments the buffer held: REPE reads them when it
repeats something else than a string function. -/
def Pipeline.ArgFree (p : Pipeline) : Prop :=
  p.function = .repe → repFlagOpcodes p.opcode = true ∨ repNoFlagOpcodes p.opcode = true

instance (p : Pipeline) : Decidable p.ArgFree := inferInstanceAs (Decidable (_ → _))

theorem LogicFn.logic_args {f : LogicFn} (h : f.isString = true) (p : Pipeline)
    (args : Fin 3 → OpArgument) : f.logic { p with args := args } = f.logic p := by
  cases f <;> first | rfl | cases h

theorem repOpcode_string {opcode : BitVec 8}
    (h : repFlagOpcodes opcode = true ∨ repNoFlagOpcodes opcode = true) :
    ∃ f : LogicFn, f.isString = true ∧ (repOpcode opcode).function = .logic f := by
  have hall : ∀ b ∈ [0xA6#8, 0xA7#8, 0xAE#8, 0xAF#8] ++ [0xA4#8, 0xA5#8, 0xAC#8, 0xAD#8, 0xAA#8,
      0xAB#8], ∃ f ∈ [LogicFn.movsb, .movsNativeWord, .cmpsb, .cmpsNativeWord, .storeStringByte,
      .storeStringNativeWord, .loadStringByte, .loadStringNativeWord, .scanStringByte,
      .scanStringNativeWord], (repOpcode b).function = .logic f := by
    decide +kernel
  have hmem : opcode ∈ [0xA6#8, 0xA7#8, 0xAE#8, 0xAF#8] ++ [0xA4#8, 0xA5#8, 0xAC#8, 0xAD#8, 0xAA#8,
      0xAB#8] := by
    rcases h with h | h
    · exact List.mem_append_left _ (of_decide_eq_true h)
    · exact List.mem_append_right _ (of_decide_eq_true h)
  have hstring : ∀ f ∈ [LogicFn.movsb, .movsNativeWord, .cmpsb, .cmpsNativeWord,
      .storeStringByte, .storeStringNativeWord, .loadStringByte, .loadStringNativeWord,
      .scanStringByte, .scanStringNativeWord], f.isString = true := by
    decide
  obtain ⟨f, hf, he⟩ := hall opcode hmem
  exact ⟨f, hstring f hf, he⟩

theorem repPass_args {p : Pipeline}
    (h : repFlagOpcodes p.opcode = true ∨ repNoFlagOpcodes p.opcode = true)
    (args : Fin 3 → OpArgument) (cost : BitVec 64) (m : Machine σ) :
    repPass hv { p with args := args } cost m = repPass hv p cost m := by
  obtain ⟨f, hf, he⟩ := repOpcode_string h
  simp only [repPass, he, OpcodeFn.call, LogicFn.logic_args hf p args]

theorem repLoop_args {p : Pipeline}
    (h : repFlagOpcodes p.opcode = true ∨ repNoFlagOpcodes p.opcode = true)
    (args : Fin 3 → OpArgument) (cost : BitVec 64) (verdict : VM → Outcome VMError Bool) (n : ℕ)
    (m : Machine σ) :
    repLoop hv { p with args := args } cost verdict n m = repLoop hv p cost verdict n m := by
  induction n generalizing m with
  | zero => rfl
  | succ n ih => simp only [repLoop, repPass_args h, ih]

theorem slotCall_args {f : SlotFn} {p : Pipeline} (hr : f.isRep = true)
    (h : f = .repe → repFlagOpcodes p.opcode = true ∨ repNoFlagOpcodes p.opcode = true)
    (args : Fin 3 → OpArgument) (m : Machine σ) :
    f.call hv { p with args := args } m = f.call hv p m := by
  cases f with
  | opcode f => cases hr
  | repe => exact repLoop_args (h rfl) ..
  | repne =>
    simp only [SlotFn.call, repne]
    split
    · next ho => exact repLoop_args (.inl ho) ..
    · rfl

theorem runSlot_keepArgs {f : Filled} {args : Fin 3 → OpArgument}
    (h : args = (default : Pipeline).args ∧ f.keepArgs args = f ∨ f.slot.ArgFree)
    (m : Machine σ) : runSlot hv (f.keepArgs args).slot m = runSlot hv f.slot m := by
  obtain ⟨-, h⟩ | h := h
  · rw [h]
  · unfold Filled.keepArgs
    split
    · next hr => simp only [runSlot, slotCall_args hr h]
    · rfl

end Args

section Idle

theorem runSlot_idle (p : Pipeline) (m : Machine σ) : runSlot hv (idleSlot p) m = .inl m := by
  have hc : m.charge 0 = m := by rw [Machine.charge, saturatingSub_zero]; rfl
  have ha : m.advance 0 = m := by simp [Machine.advance]
  have hg : ¬m.vm.gasRemaining < (idleSlot p).gasCost := BitVec.not_lt_zero
  rw [runSlot, if_neg hg]
  simp only [idleSlot, hc, SlotFn.call, OpcodeFn.call_logic, LogicFn.logic, Op.run_pure]
  exact congrArg Sum.inl ha

theorem runSlots_idle (ps : List Pipeline) (m : Machine σ) :
    runSlots hv (ps.map idleSlot) m = .inl m := by
  induction ps with
  | nil => rfl
  | cons p ps ih => simp only [List.map_cons, runSlots, runSlot_idle, ih]

theorem fillLoop_stopped (vm : VM) (opcodes : OpcodeTable) (writeable : Bool) (eip : BitVec 32)
    (gas : BitVec 64) (ps : List Pipeline) :
    fillLoop vm opcodes writeable eip true gas ps = .ok (ps.map idleSlot) := by
  induction ps with
  | nil => rfl
  | cons p ps ih => simp [fillLoop, ih]

theorem eipSize_of_mem_trace_idle {ps : List Pipeline} {m m' : Machine σ} {p : Pipeline}
    (h : (p, m') ∈ trace hv (ps.map idleSlot) m) : p.eipSize = 0 := by
  induction ps with
  | nil => cases h
  | cons q ps ih =>
    simp only [List.map_cons, trace, runSlot_idle, List.mem_cons, Prod.mk.injEq] at h
    obtain ⟨rfl, -⟩ | h := h
    · rfl
    · exact ih h

end Idle

section Predict

theorem runSlot_logic_inl {p : Pipeline} {f : LogicFn} {m m' : Machine σ}
    (hf : p.function = .opcode (.logic f)) (h : runSlot hv p m = .inl m') :
    ∃ vm', (f.logic p).run (m.charge p.gasCost).vm = (.ok (), vm') ∧
      m' = Machine.advance ⟨vm', m.host⟩ p.eipSize := by
  simp only [runSlot, hf, SlotFn.call, OpcodeFn.call_logic] at h
  split at h
  · cases h
  · rcases hc : (f.logic p).run (m.charge p.gasCost).vm with ⟨_ | _ | _, vm'⟩ <;> rw [hc] at h <;>
      cases h
    exact ⟨vm', rfl, rfl⟩

theorem runSlot_inLine {pre : PrefixesActivated} {n : ℕ} {window : List (BitVec 8)}
    {opcode : Opcode} {slot : Pipeline} {charger : GasCharger} {m m' : Machine σ}
    (hd : DecodesTo charger pre n window opcode slot) (hb : opcode.pipelineBehavior = .none)
    (he : slot.function ≠ .opcode (.logic .enter)) (h : runSlot hv slot m = .inl m') :
    m'.vm.eip = m.vm.eip + slot.eipSize.setWidth 32 ∧ m.vm.memory.Guarded m'.vm.memory ∧
      m'.vm.charger = m.vm.charger := by
  have hin := hd.predictable.inLine hb
  rw [hd.function] at he
  cases ho : opcode.function with
  | interrupt => rw [ho] at hin; simp [OpcodeFn.staysInLine] at hin
  | logic f =>
    rw [ho] at hin he
    have hj : f.effects.jumps = false := by
      obtain hin | hin := hin
      · exact absurd (congrArg SlotFn.opcode hin) he
      · simpa [OpcodeFn.staysInLine] using hin
    obtain ⟨vm', hrun, rfl⟩ := runSlot_logic_inl (hd.function.trans (by rw [ho])) h
    have heip := (f.logic slot).eip hj (m.charge slot.gasCost).vm
    have hframe := (f.logic slot).frame (m.charge slot.gasCost).vm
    rw [hrun] at heip hframe
    exact ⟨congrArg (· + slot.eipSize.setWidth 32) heip, hframe.memory, hframe.charger⟩

theorem runSlot_relativeJump {pre : PrefixesActivated} {n : ℕ} {window : List (BitVec 8)}
    {opcode : Opcode} {slot : Pipeline} {charger : GasCharger} {m m' : Machine σ} {v : SizedValue}
    {rel : BitVec 32} (hd : DecodesTo charger pre n window opcode slot)
    (hb : opcode.pipelineBehavior = .relativeJump) (ha : (slot.args 0).location = .immediate v)
    (hrel : Except.ok v >>= SizedValue.u32Sx = .ok rel) (hso : ¬slot.sizeOverride = true)
    (h : runSlot hv slot m = .inl m') :
    m'.vm.eip = m.vm.eip + slot.eipSize.setWidth 32 + rel - slot.eipSize.setWidth 32 +
        slot.eipSize.setWidth 32 ∧
      m.vm.memory.Guarded m'.vm.memory ∧ m'.vm.charger = m.vm.charger := by
  have hmask : ∀ a, Operations.masked slot a = a := fun a ↦ by
    simp [Operations.masked, hso]
  obtain hfn | hfn := (hd.predictable.jumps hb).1
  · obtain ⟨vm', hrun, rfl⟩ := runSlot_logic_inl (hd.function.trans (by rw [hfn])) h
    have hframe := (LogicFn.jmpRel.logic slot).frame (m.charge slot.gasCost).vm
    rw [hrun] at hframe
    obtain ⟨rel', hrel', rfl⟩ := Operations.jmpRel_ok hrun
    rw [ha, show VM.getArg _ (.immediate v) = .ok v from rfl, hrel] at hrel'
    cases hrel'
    refine ⟨?_, hframe.memory, hframe.charger⟩
    simp only [Machine.advance, Operations.relative, hmask]
    rfl
  · obtain ⟨vm', hrun, rfl⟩ := runSlot_logic_inl (hd.function.trans (by rw [hfn])) h
    have hframe := (LogicFn.callRel.logic slot).frame (m.charge slot.gasCost).vm
    rw [hrun] at hframe
    obtain ⟨vm₁, heip, hrun'⟩ := Operations.call_ok hrun
    obtain ⟨rel', hrel', rfl⟩ := Operations.jmpRel_ok hrun'
    rw [ha, show VM.getArg _ (.immediate v) = .ok v from rfl, hrel] at hrel'
    cases hrel'
    refine ⟨?_, hframe.memory, hframe.charger⟩
    simp only [Machine.advance, Operations.relative, hmask, heip]
    rfl

/-- A slot that filling decodes past and that runs leads to the address where filling
went on, unless it is `enter`. -/
theorem runSlot_next {vm : VM} {writeable : Bool} {f : Filled} {m m' : Machine σ}
    (hd : vm.decodeAt writeable m.vm.eip = .ok f) (hs : f.stop = false)
    (he : f.slot.function ≠ .opcode (.logic .enter)) (h : runSlot hv f.slot m = .inl m') :
    m'.vm.eip = f.next ∧ m.vm.memory.Guarded m'.vm.memory ∧ m'.vm.charger = m.vm.charger := by
  obtain ⟨window, pre, n, -, -, -, hf⟩ := fillSlot_eq_ok hd
  cases hf with
  | rep slot _ _ hf => subst hf; cases hs
  | opcode opcode slot next stop hr hd' hn hf =>
    subst hf
    simp only [Bool.or_eq_false_iff] at hs
    obtain ⟨rfl, rfl⟩ := hs
    change runSlot hv slot m = .inl m' at h
    change slot.function ≠ _ at he
    cases hb : opcode.pipelineBehavior with
    | unpredictable | unpredictableNoGas => rw [hb] at hn; cases hn
    | none =>
      rw [hb] at hn
      cases hn
      exact runSlot_inLine hd' hb he h
    | relativeJump =>
      rw [hb] at hn
      obtain ⟨⟨v, hv'⟩, -⟩ := hd'.jump_args hb
      obtain ⟨rel, hrel, hn⟩ := bind_eq_ok.mp hn
      rw [hv'] at hrel
      split at hn
      · cases hn
      · next hso =>
        cases hn
        exact runSlot_relativeJump hd' hb hv' (ofExcept_eq_ok.mp hrel) hso h

end Predict

end Qx86
