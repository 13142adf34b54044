import Qx86.Decode.Errors
import Qx86.Execute.Image
import Qx86.Execute.Interrupts
import Qx86.Execute.Prediction
import Qx86.Machine.Composition

namespace Qx86

open Foundation Outcome Op

variable {σ : Type} {hv : Hypervisor σ}

namespace VMError

def isExecution : VMError → Bool
  | .divideByZero | .readBadMemory _ | .wroteBadMemory _ | .wroteReadOnlyMemory _
  | .readUnloadedMemory _ | .invalidOpcode _ | .decodingOverrun | .wrongSizeExpectation
  | .tooBigSizeExpectation | .outOfGas | .invalidOpcodeEncoding => true
  | _ => false

theorem isExecution_of_isMemory {x : VMError} (h : x.isMemory = true) : x.isExecution = true := by
  cases x <;> first | rfl | cases h

theorem isExecution_of_isWidth {x : VMError} (h : x.isWidth = true) : x.isExecution = true := by
  cases x <;> first | rfl | cases h

theorem isExecution_of_isDecoding {x : VMError} (h : x.isDecoding = true) :
    x.isExecution = true := by
  cases x <;> first | rfl | cases h

theorem isExecution_of_isRaised {x : VMError} (h : x.isRaised = true) :
    x.isExecution = true ∨ x = .internalVMStop := by
  cases x <;> first | exact .inl rfl | exact .inr rfl | cases h

end VMError

section Filling

variable {vm : VM} {writeable : Bool} {eip : BitVec 32} {x : VMError}

theorem fillLoop_err {stop : Bool} {gas : BitVec 64} {ps : List Pipeline}
    (h : fillLoop vm OPCODES writeable eip stop gas ps = .err x) : x.isExecution = true := by
  induction ps generalizing eip stop gas with
  | nil => cases stop <;> cases h
  | cons p ps ih =>
    cases stop with
    | true =>
      obtain h | ⟨rest, -, h⟩ := bind_eq_err.mp h
      · exact ih h
      · cases h
    | false =>
      obtain h | ⟨f, -, h⟩ := bind_eq_err.mp h
      · exact VMError.isExecution_of_isDecoding (fillSlot_err h)
      obtain h | ⟨rest, -, h⟩ := bind_eq_err.mp h
      · exact ih h
      · cases h

end Filling

section Table

def ArgSource.isValue : ArgSource → Bool
  | .immediateValue | .jumpRel | .literal _ => true
  | _ => false

/-- The arguments that a function of the table stores to are none of the literal ones. -/
def Opcode.StoresSafely (op : Opcode) : Prop :=
  match op.function with
  | .logic f => ∀ n ∈ f.written, (op.argSource n).isValue = false
  | .interrupt => True

instance (op : Opcode) : Decidable op.StoresSafely := by
  unfold Opcode.StoresSafely
  split <;> infer_instance

theorem OPCODES_storesSafely (op : Fin OPCODE_TABLE_SIZE) (inner : Fin 8) :
    ((OPCODES op).opcodes inner).StoresSafely :=
  OPCODES_forall (by decide) (by decide +kernel) op inner

theorem decodeArg_place {source : ArgSource} (hs : source.isValue = false) {size : ValueSize}
    {modrm : ParsedModRM} {byte : BitVec 8} {bytes : List (BitVec 8)} {arg : OpArgument} {n : ℕ}
    (h : decodeArg source size modrm byte bytes = .ok (arg, n)) (v : SizedValue) :
    arg.location ≠ .immediate v := by
  cases source with
  | immediateValue | jumpRel | literal l => cases hs
  | none | modRMReg | registerSuffix | hardcodedRegister r =>
    cases h
    nofun
  | modRM =>
    cases h
    unfold ModRM.decode
    repeat' split
    all_goals nofun
  | immediateAddress =>
    obtain ⟨a, -, h⟩ := bind_eq_ok.mp h
    cases h
    nofun

def Pipeline.StoresSafely (p : Pipeline) : Prop :=
  ∀ f, p.function = .opcode (.logic f) → ∀ n ∈ f.written, ∀ v, (p.args n).location ≠ .immediate v

theorem DecodesTo.storesSafely {charger : GasCharger} {pre : PrefixesActivated} {n : ℕ}
    {buffer : List (BitVec 8)} {opcode : Opcode} {slot : Pipeline}
    (h : DecodesTo charger pre n buffer opcode slot) : slot.StoresSafely := by
  intro f hf k hk v
  obtain ⟨op, inner, rfl⟩ := h.mem_table
  have hsafe := OPCODES_storesSafely op inner
  obtain ⟨_, _, _, _, -, ha⟩ := h.arg k
  rw [h.function, SlotFn.opcode.injEq] at hf
  rw [Opcode.StoresSafely, hf] at hsafe
  exact decodeArg_place (hsafe k hk) ha v

theorem fillSlot_storesSafely {vm : VM} {writeable : Bool} {eip : BitVec 32} {p : Pipeline}
    {f : Filled} (h : fillSlot vm OPCODES writeable eip p = .ok f) : f.slot.StoresSafely := by
  obtain ⟨window, pre, n, -, -, -, hf⟩ := fillSlot_eq_ok h
  cases hf with
  | rep slot hr hs hf =>
    obtain ⟨opcode, -, hs⟩ := bind_eq_ok.mp hs
    cases hs
    intro g hg
    rw [hf, surcharge_function] at hg
    dsimp only at hg
    split at hg <;> cases hg
  | opcode opcode slot next stop hr hd hn hf =>
    intro g hg k hk v
    rw [hf, surcharge_function] at hg
    rw [hf, surcharge_args]
    exact hd.storesSafely g hg k hk v

theorem fillLoop_storesSafely {vm : VM} {writeable : Bool} {eip : BitVec 32} {stop : Bool}
    {gas : BitVec 64} {ps slots : List Pipeline}
    (h : fillLoop vm OPCODES writeable eip stop gas ps = .ok slots) {p : Pipeline}
    (hp : p ∈ slots) : p.StoresSafely := by
  induction ps generalizing eip stop gas slots with
  | nil =>
    cases stop <;>
    · cases h
      cases hp
  | cons q ps ih =>
    cases stop with
    | true =>
      obtain ⟨rest, hr, h⟩ := bind_eq_ok.mp h
      cases h
      obtain rfl | hp := List.mem_cons.mp hp
      · rintro f ⟨⟩ n hn
        cases hn
      · exact ih hr hp
    | false =>
      obtain ⟨f, hf, h⟩ := bind_eq_ok.mp h
      obtain ⟨rest, hr, h⟩ := bind_eq_ok.mp h
      cases h
      obtain rfl | hp := List.mem_cons.mp hp
      · exact fillSlot_storesSafely hf
      · exact ih hr hp

end Table

section Calls

/-- A REPE prefix in front of a function that stores to an argument, which in this slot is still
a literal of the instruction before. -/
def Pipeline.StoresStale (p : Pipeline) : Prop :=
  p.RepeatsOther ∧ ∃ f, (repOpcode p.opcode).function = .logic f ∧
    ∃ n ∈ f.written, ∃ v, (p.args n).location = .immediate v

def Hypervisor.Refuses (hv : Hypervisor σ) (p : Pipeline) (m : Machine σ) (x : VMError)
    (m' : Machine σ) : Prop :=
  ∃ num, m.vm.getArg (p.args 0).location >>= SizedValue.u8Exact = .ok num ∧
    hv.interrupt m.vm num m.host = (.error x, m'.vm, m'.host)

variable {m m' : Machine σ} {p : Pipeline} {x : VMError}

theorem logic_err {f : LogicFn} {vm : VM} (h : ((f.logic p).run vm).1 = .err x) :
    x.isExecution = true ∨ x = .internalVMStop ∨
      x = .wroteUnwriteableArgument ∧ ∃ n ∈ f.written, ∃ v, (p.args n).location = .immediate v := by
  let P (x : VMError) : Prop := x.isRaised = true ∨
    x = .wroteUnwriteableArgument ∧ ∃ n ∈ f.written, ∃ v, (p.args n).location = .immediate v
  have : Admits P := ⟨fun _ ↦ .inl⟩
  have hc : Composed P (f.logic p) :=
    f.composed p fun n hn ↦ ⟨fun v hv ↦ .inr ⟨rfl, n, hn, v, hv⟩⟩
  obtain (hx | hx) | hx := hc.throws vm x h
  · exact (VMError.isExecution_of_isRaised hx).imp id .inl
  · exact .inr (.inr hx)
  · exact .inl (VMError.isExecution_of_isMemory hx)

theorem opcodeCall_err {f : OpcodeFn} (h : f.call hv p m = (.err x, m')) :
    x.isExecution = true ∨ x = .internalVMStop ∨ (f = .interrupt ∧ hv.Refuses p m x m') ∨
      x = .wroteUnwriteableArgument ∧
        ∃ g, f = .logic g ∧ ∃ n ∈ g.written, ∃ v, (p.args n).location = .immediate v := by
  cases f with
  | logic f =>
    obtain hx | hx | ⟨hx, hw⟩ := logic_err (f := f) (congrArg Prod.fst h)
    · exact .inl hx
    · exact .inr (.inl hx)
    · exact .inr (.inr (.inr ⟨hx, f, rfl, hw⟩))
  | interrupt =>
    simp only [OpcodeFn.call] at h
    split at h
    · next y hy =>
      cases h
      obtain hy | ⟨v, -, hy⟩ := except_bind_eq_error.mp hy
      · exact .inl (VMError.isExecution_of_isMemory (VM.getArg_error hy))
      · exact .inl (VMError.isExecution_of_isWidth (SizedValue.Converts.error v x hy))
    · next num hnum =>
      obtain ⟨hr, rfl⟩ := Prod.mk.inj h
      exact .inr (.inr (.inl ⟨rfl, num, hnum, Prod.ext (ofExcept_eq_err.mp hr) rfl⟩))

theorem repLoop_err {cost : BitVec 64} {verdict : VM → Outcome VMError Bool} {n : ℕ}
    (h : (repLoop hv p cost verdict n m).1 = .err x) :
    x = .outOfGas ∨ (∃ vm, verdict vm = .err x) ∨
      ∃ m', ((repOpcode p.opcode).function.call hv p m').1 = .err x := by
  induction n generalizing m with
  | zero => cases h
  | succ n ih =>
    simp only [repLoop] at h
    split at h
    · cases h
    split at h
    · cases h
      exact .inl rfl
    cases hr : (repOpcode p.opcode).function.call hv p m with
    | mk o m₁ =>
      simp only [repPass, hr] at h
      cases o with
      | ok _ =>
        simp only at h
        split at h
        · exact ih h
        · cases h
        · next hv' =>
          cases h
          exact .inr (.inl ⟨_, hv'⟩)
        · cases h
      | err y =>
        cases h
        exact .inr (.inr ⟨m, by rw [hr]⟩)
      | panic => cases h

theorem LogicFn.written_of_isString {f : LogicFn} (h : f.isString = true) : f.written = [] := by
  cases f <;> first | rfl | cases h

theorem repLoop_string_err {cost : BitVec 64} {verdict : VM → Outcome VMError Bool} {n : ℕ}
    (hs : repFlagOpcodes p.opcode = true ∨ repNoFlagOpcodes p.opcode = true)
    (hverdict : ∀ vm, verdict vm ≠ .err x)
    (h : (repLoop hv p cost verdict n m).1 = .err x) :
    x.isExecution = true ∨ x = .internalVMStop := by
  obtain rfl | ⟨vm, hx⟩ | ⟨m₁, hx⟩ := repLoop_err h
  · exact .inl rfl
  · exact absurd hx (hverdict vm)
  · obtain ⟨f, hf, hfun⟩ := repOpcode_string hs
    rw [hfun] at hx
    obtain hx | hx | ⟨-, n, hn, -⟩ := logic_err (f := f) hx
    · exact .inl hx
    · exact .inr hx
    · rw [LogicFn.written_of_isString hf] at hn
      cases hn

theorem slotCall_err (hs : p.StoresSafely) (hp : ¬p.RepeatsOther)
    (h : p.function.call hv p m = (.err x, m')) :
    x.isExecution = true ∨ x = .internalVMStop ∨
      p.function = .opcode .interrupt ∧ hv.Refuses p m x m' := by
  cases hf : p.function with
  | opcode f =>
    rw [hf] at h
    obtain hx | hx | ⟨rfl, hx⟩ | ⟨-, g, rfl, n, hn, v, hv⟩ := opcodeCall_err h
    · exact .inl hx
    · exact .inr (.inl hx)
    · exact .inr (.inr ⟨rfl, hx⟩)
    · exact absurd hv (hs g hf n hn v)
  | repe =>
    have hstr := not_not.mp (not_and.mp hp hf)
    rw [hf] at h
    refine (repLoop_string_err hstr ?_ (congrArg Prod.fst h)).imp_right .inl
    intro vm hx
    unfold repeVerdict at hx
    split at hx
    · cases hx
    · next hflag =>
      rw [if_pos (hstr.resolve_left hflag)] at hx
      cases hx
  | repne =>
    rw [hf] at h
    change repne hv p m = _ at h
    unfold repne at h
    split at h
    · next hflag =>
      refine (repLoop_string_err (.inl hflag) ?_ (congrArg Prod.fst h)).imp_right .inl
      intro vm hx
      cases hx
    · cases h
      exact .inl rfl

end Calls

section Runs

variable {m m' : Machine σ} {p : Pipeline} {x : VMError}

/-- What the error of a slot is, if it is none of decoding and executing: the answer to the
interrupt that the slot called, or the store of a REPE slot to a stale literal. -/
inductive SlotReports (hv : Hypervisor σ) (p : Pipeline) (m : Machine σ) :
    VMError → Machine σ → Prop
  | refused {x : VMError} {m' : Machine σ} (hp : p.Interrupts m.vm)
      (h : hv.Refuses p (m.charge p.gasCost) x m') (hx : x ≠ .internalVMStop) :
      SlotReports hv p m x m'.fail
  | stale (m' : Machine σ) (hp : p.StoresStale) :
      SlotReports hv p m .wroteUnwriteableArgument m'

/-- REPE runs any other function than a string function once at most. -/
theorem runSlot_other_err (hp : p.RepeatsOther) (h : runSlot hv p m = .inr (.err x, m')) :
    x.isExecution = true ∨ SlotReports hv p m x m' := by
  by_cases henters : p.Enters m.vm
  · rw [runSlot_of_enters henters] at h
    rcases hr : (repOpcode p.opcode).function.call hv p (m.charge p.gasCost) with ⟨_ | y | _, m₁⟩
      <;> rw [hr] at h
    · cases h
      exact .inl rfl
    · simp only [endRepe] at h
      split at h
      · cases h
      · next hne =>
        cases h
        obtain hx | hx | ⟨hint, hx⟩ | ⟨rfl, hstale⟩ := opcodeCall_err hr
        · exact .inl hx
        · exact absurd hx hne
        · exact .inr (.refused (.inr ⟨henters, hint⟩) hx hne)
        · exact .inr (.stale _ ⟨hp, hstale⟩)
    · cases h
  · rw [runSlot_of_not_enters hp henters] at h
    split at h
    · cases h
      exact .inl rfl
    split at h
    · cases h
    · cases h
      exact .inl rfl

theorem runSlot_err (hs : p.StoresSafely) (h : runSlot hv p m = .inr (.err x, m')) :
    x.isExecution = true ∨ SlotReports hv p m x m' := by
  by_cases hother : p.RepeatsOther
  · exact runSlot_other_err hother h
  by_cases hg : m.vm.gasRemaining < p.gasCost
  · rw [runSlot_broke hg] at h
    cases h
    exact .inl rfl
  rw [runSlot_call hg] at h
  rcases hc : p.function.call hv p (m.charge p.gasCost) with ⟨_ | y | _, m₁⟩ <;> rw [hc] at h
  · cases h
  · simp only [endSlot] at h
    split at h
    · cases h
    · next hne =>
      cases h
      obtain hx | hx | ⟨hp, hx⟩ := slotCall_err hs hother hc
      · exact .inl hx
      · exact absurd hx hne
      · exact .inr (.refused (.inl ⟨hp, hg⟩) hx hne)
  · cases h

/-- An error of a run is one of decoding and executing instructions, or the slot that ended the
run called an interrupt that the hypervisor answered with it, or that slot repeats a function
that stores to a stale literal. -/
theorem execution_errors (hv : Hypervisor σ) (n : ℕ) (m m' : Machine σ) (x : VMError)
    (h : Finishes (cycle hv) (start n m) (.err x, m')) :
    x.isExecution = true ∨ ∃ p t, ComesTo hv (start n m) p t ∧
      runSlot hv p t = .inr (.err x, m') ∧ SlotReports hv p t x m' := by
  obtain ⟨c, hc, hlast⟩ := h.last
  simp only [cycle] at hlast
  split at hlast
  · next slots hf =>
    have hruns : runSlots hv slots c.machine = .inr (.err x, m') := by
      cases hr : runSlots hv slots c.machine with
      | inl m₁ =>
        rw [hr] at hlast
        cases hlast
      | inr r =>
        rw [hr] at hlast
        cases hlast
        rfl
    obtain ⟨p, t, ht, hend⟩ := runSlots_inr_iff.mp hruns
    have hsafe := fillLoop_storesSafely hf (mem_of_mem_trace ht)
    exact (runSlot_err hsafe hend).imp_right fun hx ↦ ⟨p, t, ⟨c, slots, hc, hf, ht⟩, hend, hx⟩
  · next hf =>
    cases hlast
    exact .inl (fillLoop_err hf)
  · cases hlast

end Runs

/-- `mov cl, 1`, `int 0x20`, `nop` and a REPE prefix in front of a `mov`, whose slot still
holds the number of the interrupt. -/
def staleMov : BufferMemory :=
  ⟨[0xB1, 0x01, 0xCD, 0x20, 0x90, 0xF3, 0x88] ++ List.replicate 32 0, by decide⟩

theorem execution_errors_staleMov : ∃ p t m',
    ComesTo testHypervisor (start PIPELINE_SIZE (createMachine staleMov)) p t ∧
      runSlot testHypervisor p t = .inr (.err .wroteUnwriteableArgument, m') ∧ p.StoresStale := by
  obtain ⟨⟨_, m⟩, hr, rfl⟩ := Finishes.of_getRight
    (show (iterate (cycle testHypervisor) 2
      (start PIPELINE_SIZE (createMachine staleMov))).getRight?.map Prod.fst =
        some (.err .wroteUnwriteableArgument) by decide +kernel)
  obtain h | ⟨p, t, ht, hend, hx⟩ := execution_errors testHypervisor PIPELINE_SIZE
    (createMachine staleMov) m .wroteUnwriteableArgument hr
  · cases h
  · refine ⟨p, t, m, ht, hend, ?_⟩
    cases hx with
    | refused _ h _ =>
      obtain ⟨num, -, h⟩ := h
      cases congrArg Prod.fst h
    | stale _ hp => exact hp

end Qx86
