import Qx86.Decode.Encoding
import Qx86.Execute.Image
import Qx86.Execute.Metering
import Qx86.Execute.Prediction
import Qx86.Machine.Division
import Qx86.Properties.OperandWidths

namespace Qx86

open Foundation Outcome Words

variable {σ : Type} {hv : Hypervisor σ}

section Windows

/-- The sixteen bytes at an address, from which decoding does not return: no opcode byte is
found, the opcode is the one that the table leaves out, or an immediate of one byte is the
first byte past the window. -/
inductive Unsupported (window : List (BitVec 8)) : Prop
  | unsplit (h : Unsplit window)
  | unmapped (run rest : List (BitVec 8)) (h : Split window run true 0xFF rest)
      (hr : (prefixesOf run true).repMode = .none)
  | immediate (run : List (BitVec 8)) (twoBytes : Bool) (opcode : BitVec 8)
      (rest : List (BitVec 8)) (h : Split window run twoBytes opcode rest)
      (hr : (prefixesOf run twoBytes).repMode = .none) (hl : 5 ≤ rest.length)
      (hm : (entryOf twoBytes opcode).modrmSize rest = rest.length)
      (hi : ((entryOf twoBytes opcode).selected rest).immediateSize
        (prefixesOf run twoBytes).sizeOverride = 1)

theorem not_mapped_iff {twoBytes : Bool} {opcode : BitVec 8} :
    ¬tableIndex twoBytes opcode < OPCODE_TABLE_SIZE ↔ twoBytes = true ∧ opcode = 0xFF := by
  revert twoBytes opcode
  decide +kernel

theorem followSlot_ne_panic (vm : VM) (eip : BitVec 32) (slot : Pipeline)
    (b : PipelineBehavior) : followSlot vm eip slot b ≠ .panic := by
  cases b with
  | none | unpredictable | unpredictableNoGas => exact nofun
  | relativeJump =>
    intro h
    obtain h | ⟨rel, -, h⟩ := bind_eq_panic.mp h
    · exact ofExcept_ne_panic _ h
    · split at h <;> cases h

/-- Decoding behind the prefixes unwinds in two cases. -/
theorem decodeOpcode_panic_iff (charger : GasCharger) {run : List (BitVec 8)} {twoBytes : Bool}
    (n : ℕ) {opcode : BitVec 8} {rest : List (BitVec 8)} :
    decodeOpcode charger OPCODES (prefixesOf run twoBytes) n (opcode :: rest) = .panic ↔
      (twoBytes = true ∧ opcode = 0xFF) ∨ 5 ≤ rest.length ∧
        (entryOf twoBytes opcode).modrmSize rest = rest.length ∧
        ((entryOf twoBytes opcode).selected rest).immediateSize
          (prefixesOf run twoBytes).sizeOverride = 1 := by
  by_cases hi : tableIndex twoBytes opcode < OPCODE_TABLE_SIZE
  · have hmap : ¬(twoBytes = true ∧ opcode = 0xFF) := fun h ↦ not_mapped_iff.mpr h hi
    rw [decodeOpcode_eq charger (prefixesOf_twoBytes run twoBytes) n hi]
    simp only [hmap, false_or]
    by_cases hl : rest.length < 5
    · rw [if_pos hl]
      constructor
      · intro h
        cases h
      · rintro ⟨h, -⟩
        omega
    · rw [if_neg hl]
      rw [OpcodeProperties.operandSize]
      split
      · constructor
        · intro h
          cases h
        · rintro ⟨-, hm, h₁⟩
          omega
      · split
        · next h =>
          refine iff_of_true rfl ⟨by omega, ?_, h.1⟩
          omega
        · next h =>
          constructor
          · intro herr
            cases herr
          · rintro ⟨-, hm, h₁⟩
            exact absurd ⟨h₁, hm.le⟩ h
  · rw [decodeOpcode_unmapped charger (prefixesOf_twoBytes run twoBytes) n hi]
    exact iff_of_true rfl (.inl (not_mapped_iff.mp hi))

theorem fillSlot_panic_iff {vm : VM} {eip : BitVec 32} {window : List (BitVec 8)}
    (hw : vm.memory.getSizedMemory eip 16 = .ok window) (writeable : Bool) (p : Pipeline) :
    fillSlot vm OPCODES writeable eip p = .panic ↔ Unsupported window := by
  have hsplit : ∀ {run twoBytes opcode rest}, Split window run twoBytes opcode rest →
      (fillSlot vm OPCODES writeable eip p = .panic ↔
        (prefixesOf run twoBytes).repMode = .none ∧
          decodeOpcode vm.charger OPCODES (prefixesOf run twoBytes) (prefixSize run twoBytes)
            (opcode :: rest) = .panic) := by
    intro run twoBytes opcode rest h
    rw [h.fillSlot_eq hw]
    by_cases hr : (prefixesOf run twoBytes).repMode = .none
    · rw [if_neg (not_not.mpr hr), bind_eq_panic]
      refine ⟨?_, fun hd ↦ .inl hd.2⟩
      rintro (hd | ⟨d, -, hd⟩)
      · exact ⟨hr, hd⟩
      · obtain hd | ⟨_, -, hd⟩ := bind_eq_panic.mp hd
        · exact (followSlot_ne_panic _ _ _ _ hd).elim
        · cases hd
    · rw [if_pos hr]
      exact iff_of_false nofun fun h ↦ hr h.1
  constructor
  · intro hp
    obtain ⟨run, twoBytes, opcode, rest, h⟩ | h := split_or_unsplit window
    · obtain ⟨hr, hd⟩ := (hsplit h).mp hp
      obtain ⟨rfl, rfl⟩ | ⟨hl, hm, hi⟩ := (decodeOpcode_panic_iff ..).mp hd
      · exact .unmapped run rest h hr
      · exact .immediate run twoBytes opcode rest h hr hl hm hi
    · exact .unsplit h
  · intro hu
    cases hu with
    | unsplit h => exact h.fillSlot_eq hw writeable p
    | unmapped run rest h hr =>
      exact (hsplit h).mpr ⟨hr, (decodeOpcode_panic_iff ..).mpr (.inl ⟨rfl, rfl⟩)⟩
    | immediate run twoBytes opcode rest h hr hl hm hi =>
      exact (hsplit h).mpr ⟨hr, (decodeOpcode_panic_iff ..).mpr (.inr ⟨hl, hm, hi⟩)⟩

def VM.Fetches (vm : VM) (n : ℕ) (window : List (BitVec 8)) : Prop :=
  ∃ v ∈ vm.visits n, vm.memory.getSizedMemory v.eip 16 = .ok window

theorem decoded_of_mem_walk {vm : VM} {writeable : Bool} {n : ℕ} {eip : BitVec 32}
    {gas : BitVec 64} {v : Visit} (h : v ∈ vm.walk writeable n eip gas) :
    v.decoded = vm.decodeAt writeable v.eip := by
  induction n generalizing eip gas with
  | zero => cases h
  | succ n ih =>
    obtain rfl | h := List.mem_cons.mp h
    · rfl
    · split at h
      · dsimp only at h
        split at h
        · cases h
        · exact ih h
      · cases h

theorem fillLoop_panic_iff {vm : VM} {writeable : Bool} (ps : List Pipeline) (eip : BitVec 32)
    (gas : BitVec 64) :
    fillLoop vm OPCODES writeable eip false gas ps = .panic ↔
      ∃ v ∈ vm.walk writeable ps.length eip gas, v.decoded = .panic := by
  induction ps generalizing eip gas with
  | nil =>
    constructor
    · intro h
      cases h
    · rintro ⟨v, hv, -⟩
      cases hv
  | cons p ps ih =>
    cases hd : vm.decodeAt writeable eip with
    | panic =>
      refine iff_of_true (fillLoop_cons_fail.2 hd) ⟨⟨eip, .panic⟩, ?_, rfl⟩
      rw [List.length_cons, VM.walk, hd]
      exact List.mem_cons_self
    | err e =>
      rw [fillLoop_cons_fail.1 e hd, List.length_cons, VM.walk, hd]
      constructor
      · intro h
        cases h
      · rintro ⟨v, hv', hp⟩
        rw [List.mem_singleton.mp hv'] at hp
        cases hp
    | ok f =>
      rw [fillLoop_cons_ok hd, List.length_cons, walk_of_ok hd, bind_eq_panic]
      cases hs : f.stop || saturatingSub gas f.slot.gasCost == 0 with
      | true =>
        rw [fillLoop_stopped, if_pos rfl]
        simp
      | false =>
        rw [ih, if_neg Bool.false_ne_true]
        simp

theorem fillPipeline_panic_iff {c : Running σ} :
    fillPipeline c.machine.vm OPCODES c.pipeline = .panic ↔
      ∃ window, c.machine.vm.Fetches c.pipeline.length window ∧ Unsupported window := by
  refine (fillLoop_panic_iff _ _ _).trans ?_
  rw [clearPipeline_length]
  constructor
  · rintro ⟨v, hv', hp⟩
    rw [decoded_of_mem_walk hv'] at hp
    cases hw : c.machine.vm.memory.getSizedMemory v.eip 16 with
    | error e =>
      rw [VM.decodeAt, fillSlot, hw] at hp
      cases hp
    | ok window => exact ⟨window, ⟨v, hv', hw⟩, (fillSlot_panic_iff hw _ _).mp hp⟩
  · rintro ⟨window, ⟨v, hv', hw⟩, hu⟩
    refine ⟨v, hv', ?_⟩
    rw [decoded_of_mem_walk hv']
    exact (fillSlot_panic_iff hw _ _).mpr hu

end Windows

section Slots

def OpcodeFn.mayUnwind : OpcodeFn → Bool
  | .logic f => f.effects.panics
  | .interrupt => false

theorem OpcodeFn.call_returns {f : OpcodeFn} (h : f.mayUnwind = false) (p : Pipeline)
    (m : Machine σ) : (f.call hv p m).1 ≠ .panic := by
  cases f with
  | logic f => exact (f.logic p).total h m.vm
  | interrupt =>
    rw [OpcodeFn.call]
    split
    · intro h
      cases h
    · exact ofExcept_ne_panic _

theorem repOpcode_returns (opcode : BitVec 8) :
    (repOpcode opcode).function.mayUnwind = false := by
  unfold repOpcode
  obtain h | ⟨d, hd, hw, h⟩ := OPCODES_cases ⟨opcode.toNat, by
    have := opcode.isLt
    unfold OPCODE_TABLE_SIZE
    omega⟩ 0
  · rw [h]
    rfl
  · have hall : ∀ d ∈ definitions, d.writesInner 0 = true →
        d.toOpcode.function.mayUnwind = false := by
      decide +kernel
    rw [h]
    exact hall d hd hw.2

theorem repPass_returns (p : Pipeline) (cost : BitVec 64) (m : Machine σ) :
    (repPass hv p cost m).1 ≠ .panic := by
  have hcall : ((repOpcode p.opcode).function.call hv p m).1 ≠ .panic :=
    OpcodeFn.call_returns (repOpcode_returns p.opcode) p m
  unfold repPass
  rcases hc : (repOpcode p.opcode).function.call hv p m with ⟨_ | e | _, m'⟩ <;> rw [hc] at hcall
  · exact nofun
  · exact nofun
  · exact absurd rfl hcall

theorem repLoop_returns (p : Pipeline) (cost : BitVec 64)
    {verdict : VM → Outcome VMError Bool} (hverdict : ∀ vm, verdict vm ≠ .panic) (n : ℕ)
    (m : Machine σ) : (repLoop hv p cost verdict n m).1 ≠ .panic := by
  refine repLoop_rule (I := fun _ ↦ True) (Q := fun r ↦ r.1 ≠ .panic) ?_ ?_ n trivial
  · intro m' o _ ho h
    exact hverdict m'.vm (ho h)
  · intro m' _
    exact ⟨fun _ _ ↦ trivial, fun _ ↦ repPass_returns p cost m'⟩

theorem repeVerdict_returns (opcode : BitVec 8) (vm : VM) : repeVerdict opcode vm ≠ .panic := by
  unfold repeVerdict
  split
  · exact nofun
  · split <;> exact nofun

theorem SlotFn.call_rep_returns {f : SlotFn} (h : f.isRep = true) (p : Pipeline)
    (m : Machine σ) : (f.call hv p m).1 ≠ .panic := by
  cases f with
  | opcode f => cases h
  | repe => exact repLoop_returns p _ (repeVerdict_returns p.opcode) _ m
  | repne =>
    change (Qx86.repne hv p m).1 ≠ .panic
    unfold Qx86.repne
    split
    · have hverdict : ∀ vm, repneVerdict vm ≠ .panic := fun _ ↦ nofun
      exact repLoop_returns p _ hverdict _ m
    · exact nofun

/-- A slot of a filled pipeline: it is decoded from memory, or filling did not reach it. -/
inductive Pipeline.Filled (vm : VM) (p : Pipeline) : Prop
  | decoded (writeable : Bool) (eip : BitVec 32) (q : Pipeline) (f : Qx86.Filled)
      (h : fillSlot vm OPCODES writeable eip q = .ok f) (hp : p = f.slot)
  | idle (q : Pipeline) (hp : p = idleSlot q)

theorem filled_of_mem {vm : VM} {writeable : Bool} {ps slots : List Pipeline} {eip : BitVec 32}
    {stop : Bool} {gas : BitVec 64}
    (h : fillLoop vm OPCODES writeable eip stop gas ps = .ok slots) {p : Pipeline}
    (hp : p ∈ slots) : p.Filled vm := by
  induction ps generalizing eip stop gas slots with
  | nil =>
    cases h
    cases hp
  | cons q ps ih =>
    cases stop with
    | true =>
      obtain ⟨rest, hr, h⟩ := bind_eq_ok.mp h
      cases h
      obtain rfl | hp := List.mem_cons.mp hp
      · exact .idle q rfl
      · exact ih hr hp
    | false =>
      obtain ⟨f, hf, h⟩ := bind_eq_ok.mp h
      obtain ⟨rest, hr, h⟩ := bind_eq_ok.mp h
      cases h
      obtain rfl | hp := List.mem_cons.mp hp
      · exact .decoded writeable eip q f hf rfl
      · exact ih hr hp

theorem Pipeline.Filled.dividesBy {vm : VM} {p : Pipeline} (h : p.Filled vm) :
    (p.function = .opcode (.logic .idiv8bit) → (p.args 0).location.size = .byte) ∧
      (p.function = .opcode (.logic .idivNativeWord) →
        (p.args 0).location.size = nativeSize p.sizeOverride) := by
  cases h with
  | idle q hp =>
    subst hp
    exact ⟨nofun, nofun⟩
  | decoded writeable eip q f hf hp =>
    subst hp
    obtain ⟨window, pre, n, -, -, -, hf⟩ := fillSlot_eq_ok hf
    cases hf with
    | rep slot _ hs he =>
      obtain ⟨b, -, hs⟩ := bind_eq_ok.mp hs
      cases hs
      rw [he]
      simp only [surcharge_function]
      constructor
      · intro h
        split at h <;> cases h
      · intro h
        split at h <;> cases h
    | opcode opcode slot next stop _ hd _ he =>
      rw [he]
      simp only [surcharge_function, surcharge_args, surcharge_sizeOverride, hd.function]
      have hcase := (hd.widthCase slot.sizeOverride).2
      have hsizes : (slot.args 0).location.size = opcode.sizes slot.sizeOverride 0 :=
        congrFun hd.sizes_eq 0
      rw [hsizes]
      constructor
      · intro h
        simp only [SlotFn.opcode.injEq] at h
        simpa [h, LogicFn.WidthCase, LogicFn.fits] using hcase
      · intro h
        simp only [SlotFn.opcode.injEq] at h
        simpa [h, LogicFn.WidthCase, LogicFn.fits] using hcase

theorem Pipeline.Filled.call_panics_iff {vm : VM} {p : Pipeline} (h : p.Filled vm)
    (m : Machine σ) : (p.function.call hv p m).1 = .panic ↔ p.Overflows m.vm := by
  obtain ⟨hbyte, hnative⟩ := h.dividesBy
  cases hf : p.function with
  | repe | repne =>
    refine iff_of_false (SlotFn.call_rep_returns rfl p m) ?_
    intro ho
    cases hf.symm.trans ho.function
  | opcode f =>
    by_cases hu : f.mayUnwind = true
    · cases f with
      | interrupt => cases hu
      | logic f =>
        cases f with
        | idiv8bit =>
          refine iff_of_false (Operations.idiv8bit_returns (hbyte hf)) ?_
          intro ho
          cases hf.symm.trans ho.function
        | idivNativeWord => exact Operations.idivNativeWord_panics hf (hnative hf)
        | _ => cases hu
    · rw [Bool.not_eq_true] at hu
      refine iff_of_false (OpcodeFn.call_returns hu p m) ?_
      intro ho
      cases hf.symm.trans ho.function
      cases hu

/-- A slot that is paid for and divides with a quotient that does not fit. -/
structure Pipeline.Unwinds (p : Pipeline) (vm : VM) : Prop where
  paid : ¬vm.gasRemaining < p.gasCost
  overflows : p.Overflows vm

theorem Pipeline.overflows_setGas {p : Pipeline} {vm : VM} (g : BitVec 64) :
    p.Overflows (vm.setGas g) ↔ p.Overflows vm := by
  constructor
  · intro h
    refine ⟨h.function, h.dword, h.high, h.low, ?_⟩
    rw [← h.divisor, VM.getArg_setGas]
  · intro h
    refine ⟨h.function, h.dword, h.high, h.low, ?_⟩
    rw [← h.divisor, VM.getArg_setGas]

theorem runSlot_panics_iff {vm : VM} {p : Pipeline} (h : p.Filled vm) (m : Machine σ) :
    (∃ m', runSlot hv p m = .inr (.panic, m')) ↔ p.Unwinds m.vm := by
  have hcall : (p.function.call hv p (m.charge p.gasCost)).1 = .panic ↔
      p.Overflows (m.charge p.gasCost).vm := h.call_panics_iff (m.charge p.gasCost)
  rw [show (m.charge p.gasCost).vm = m.vm.setGas _ from rfl, p.overflows_setGas] at hcall
  by_cases hg : m.vm.gasRemaining < p.gasCost
  · rw [runSlot_broke hg]
    exact iff_of_false (fun ⟨_, hr⟩ ↦ nomatch hr) fun hu ↦ hu.paid hg
  · rw [runSlot_call hg]
    rcases hc : p.function.call hv p (m.charge p.gasCost) with ⟨_ | e | _, m'⟩ <;> rw [hc] at hcall
    · exact iff_of_false (fun ⟨_, hr⟩ ↦ nomatch hr) fun hu ↦ nomatch hcall.mpr hu.overflows
    · refine iff_of_false ?_ fun hu ↦ nomatch hcall.mpr hu.overflows
      rintro ⟨_, hr⟩
      simp only [endSlot] at hr
      split at hr <;> cases hr
    · exact iff_of_true ⟨m', rfl⟩ ⟨hg, hcall.mp rfl⟩

theorem runSlots_panics_iff {slots : List Pipeline} {m : Machine σ} :
    (∃ m', runSlots hv slots m = .inr (.panic, m')) ↔
      ∃ p t, (p, t) ∈ trace hv slots m ∧ ∃ m', runSlot hv p t = .inr (.panic, m') := by
  simp only [runSlots_inr_iff]
  constructor
  · rintro ⟨m', p, t, ht, hp⟩
    exact ⟨p, t, ht, m', hp⟩
  · rintro ⟨p, t, ht, m', hp⟩
    exact ⟨m', p, t, ht, hp⟩

end Slots

section Runs

/-- The state before a cycle in which nothing unwinds: every window from which the cycle
decodes is supported, and no division that it comes to overflows. -/
structure Supported (hv : Hypervisor σ) (c : Running σ) : Prop where
  windows : ∀ window, c.machine.vm.Fetches c.pipeline.length window → ¬Unsupported window
  divisions : ∀ slots, fillPipeline c.machine.vm OPCODES c.pipeline = .ok slots →
    ∀ p t, (p, t) ∈ trace hv slots c.machine → ¬p.Unwinds t.vm

theorem cycle_panics_iff {c : Running σ} :
    (∃ m', cycle hv c = .inr (.panic, m')) ↔ ¬Supported hv c := by
  cases hfill : fillPipeline c.machine.vm OPCODES c.pipeline with
  | panic =>
    obtain ⟨window, hw, hu⟩ := fillPipeline_panic_iff.mp hfill
    refine iff_of_true ⟨c.machine, ?_⟩ fun hs ↦ hs.windows window hw hu
    simp only [cycle, hfill]
  | err e =>
    refine iff_of_false ?_ (not_not.mpr ⟨?_, ?_⟩)
    · simp [cycle, hfill]
    · intro window hw hu
      cases hfill.symm.trans (fillPipeline_panic_iff.mpr ⟨window, hw, hu⟩)
    · rw [hfill]
      intro slots hslots
      cases hslots
  | ok slots =>
    have hfilled : ∀ p t, (p, t) ∈ trace hv slots c.machine → p.Filled c.machine.vm :=
      fun _ _ ht ↦ filled_of_mem hfill (mem_of_mem_trace ht)
    have hcycle : (∃ m', cycle hv c = .inr (.panic, m')) ↔
        ∃ m', runSlots hv slots c.machine = .inr (.panic, m') := by
      simp only [cycle, hfill]
      cases runSlots hv slots c.machine <;> simp
    rw [hcycle, runSlots_panics_iff]
    constructor
    · rintro ⟨p, t, ht, hp⟩ hs
      exact hs.divisions slots hfill p t ht ((runSlot_panics_iff (hfilled p t ht) t).mp hp)
    · intro hs
      by_contra hnone
      refine hs ⟨?_, ?_⟩
      · intro window hw hu
        cases hfill.symm.trans (fillPipeline_panic_iff.mpr ⟨window, hw, hu⟩)
      · intro slots' hfill' p t ht hp
        cases hfill.symm.trans hfill'
        exact hnone ⟨p, t, ht, (runSlot_panics_iff (hfilled p t ht) t).mpr hp⟩

/-- `execute` never unwinds the host exactly if every cycle that it comes to is supported. -/
theorem execute_returns_iff (hv : Hypervisor σ) (m : Machine σ) :
    (∀ r m', Executes hv m (r, m') → r ≠ .panic) ↔
      ∀ c, Reaches (cycle hv) (start PIPELINE_SIZE m) c → Supported hv c := by
  constructor
  · intro h c hc
    by_contra hs
    obtain ⟨m', hm⟩ := cycle_panics_iff.mpr hs
    exact h .panic m' (.of_reaches hc (.single hm)) rfl
  · rintro h r m' hr rfl
    obtain ⟨c, hc, hlast⟩ := hr.last
    exact cycle_panics_iff.mp ⟨m', hlast⟩ (h c hc)

/-- The first opcode past the end of the opcode table. -/
def outsideTable : BufferMemory := ⟨[0x0F, 0xFF] ++ List.replicate 14 0, by decide⟩

/-- It unwinds the host. -/
theorem execute_unwinds_outsideTable :
    ¬∀ (m : Machine (List (BitVec 8))) (r : Outcome VMError Bool)
      (m' : Machine (List (BitVec 8))), Executes testHypervisor m (r, m') → r ≠ .panic := by
  intro h
  obtain ⟨⟨r, m'⟩, hr, he⟩ := Finishes.of_getRight
    (show (iterate (cycle testHypervisor) 1
      (start PIPELINE_SIZE (createMachine outsideTable))).getRight?.map Prod.fst =
        some .panic by decide +kernel)
  exact h (createMachine outsideTable) r m' hr he

end Runs

end Qx86
