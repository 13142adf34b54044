import Qx86.Decode.Encoding
import Qx86.Execute.Image
import Qx86.Execute.Metering
import Qx86.Machine.StringOps

namespace Qx86

open Foundation Register

variable {σ : Type} {hv : Hypervisor σ}

/-- The encodings in which a REP prefix stands before a one-byte string opcode that it
belongs to. -/
def LegalRep (mode : RepMode) (twoBytes : Bool) (opcode : BitVec 8) : Prop :=
  twoBytes = false ∧
    match mode with
    | .none => True
    | .repe => repFlagOpcodes opcode = true ∨ repNoFlagOpcodes opcode = true
    | .repne => repFlagOpcodes opcode = true

def Machine.withCounter (m : Machine σ) (c : BitVec 32) : Machine σ :=
  { m with vm := m.vm.setReg32 ecx c }

/-- A slot ends in the error for illegal encodings, and nothing but the gas for it is gone. -/
def Rejected (hv : Hypervisor σ) (p : Pipeline) (m : Machine σ) : Prop :=
  runSlot hv p m = .inr (.err .invalidOpcodeEncoding, (m.charge p.gasCost).fail)

section Slot

variable {p : Pipeline} {m : Machine σ}

theorem rejected_of_repne (hgas : ¬m.vm.gasRemaining < p.gasCost) (hp : p.function = .repne)
    (ho : repFlagOpcodes p.opcode = false) : Rejected hv p m := by
  have hcall : p.function.call hv p (m.charge p.gasCost) =
      (.err .invalidOpcodeEncoding, m.charge p.gasCost) := by
    rw [hp]
    change repne hv p _ = _
    rw [repne, if_neg (by rw [ho]; exact Bool.false_ne_true)]
  rw [Rejected, runSlot_call hgas, hcall]
  rfl

theorem not_rejected_of_done (hgas : ¬m.vm.gasRemaining < p.gasCost)
    (hp : p.function = .repe ∨ p.function = .repne ∧ repFlagOpcodes p.opcode = true)
    (hc : m.vm.readRegw ecx p.sizeOverride = 0) : ¬Rejected hv p m := by
  have hc' : (m.charge p.gasCost).vm.readRegw ecx p.sizeOverride = 0 := hc
  have hcall : p.function.call hv p (m.charge p.gasCost) = (.ok (), m.charge p.gasCost) := by
    obtain hf | ⟨hf, ho⟩ := hp
    · rw [hf]
      exact repLoop_done hc'
    · rw [hf]
      change repne hv p _ = _
      rw [repne, if_pos ho]
      exact repLoop_done hc'
  rw [Rejected, runSlot_call hgas, hcall]
  intro hend
  cases hend

end Slot

/-- Which illegal REP encodings are rejected whatever the counter is: those with REPNE, unless
the byte after a two-byte marker is a string comparison. -/
theorem rep_rejected_iff {vm : VM} {eip : BitVec 32} {window run : List (BitVec 8)}
    {twoBytes : Bool} {opcode : BitVec 8} {rest : List (BitVec 8)} {writeable : Bool}
    {p : Pipeline} {f : Filled} (hw : vm.memory.getSizedMemory eip 16 = .ok window)
    (h : Split window run twoBytes opcode rest)
    (hf : fillSlot vm OPCODES writeable eip p = .ok f)
    (hrep : (prefixesOf run twoBytes).repMode ≠ .none)
    (hillegal : ¬LegalRep (prefixesOf run twoBytes).repMode twoBytes opcode) {m : Machine σ}
    (hgas : ¬m.vm.gasRemaining < f.slot.gasCost) :
    (∀ c, Rejected hv f.slot (m.withCounter c)) ↔
      (prefixesOf run twoBytes).repMode = .repne ∧
        (twoBytes = true → repFlagOpcodes opcode = false) := by
  obtain ⟨hslot, -⟩ := h.slot_eq hw hf
  have hfunction : f.slot.function =
      if (prefixesOf run twoBytes).repMode = .repe then .repe else .repne := by
    rw [hslot, slotOf, surcharge_function, if_pos hrep]
    rfl
  have hopcode : f.slot.opcode = opcode := by
    rw [hslot, slotOf, surcharge_opcode, if_pos hrep]
    rfl
  have hzero : (m.withCounter 0).vm.readRegw ecx f.slot.sizeOverride = 0 := by
    have hecx : (m.withCounter 0).vm.regs ecx = 0 := VM.setReg32_self ..
    rw [VM.readRegw, hecx]
    split <;> rfl
  have hgas' : ¬(m.withCounter 0).vm.gasRemaining < f.slot.gasCost := hgas
  cases hmode : (prefixesOf run twoBytes).repMode with
  | none => exact absurd hmode hrep
  | repe =>
    rw [hmode, if_pos rfl] at hfunction
    constructor
    · intro hall
      exact absurd (hall 0) (not_rejected_of_done hgas' (.inl hfunction) hzero)
    · rintro ⟨hne, -⟩
      cases hne
  | repne =>
    rw [hmode, if_neg nofun] at hfunction
    rw [hmode] at hillegal
    constructor
    · intro hall
      refine ⟨rfl, fun _ ↦ ?_⟩
      by_contra hflag
      rw [Bool.not_eq_false, ← hopcode] at hflag
      exact not_rejected_of_done hgas' (.inr ⟨hfunction, hflag⟩) hzero (hall 0)
    · rintro ⟨-, htwo⟩ c
      refine rejected_of_repne hgas hfunction ?_
      rw [hopcode]
      cases ht : twoBytes with
      | true => exact htwo ht
      | false =>
        by_contra hflag
        rw [Bool.not_eq_false] at hflag
        exact hillegal ⟨ht, hflag⟩

def pairMachine (first second : BitVec 8) : Machine (List (BitVec 8)) :=
  createMachine ⟨[first, second] ++ List.replicate 14 0, by simp⟩

theorem pairMachine_window (first second : BitVec 8) :
    (pairMachine first second).vm.memory.getSizedMemory CODE_MEM 16 =
      .ok ([first, second] ++ List.replicate 14 0) := rfl

theorem split_pair (first : BitVec 8) {second : BitVec 8} (hf : legacyPrefix first = true)
    (hs : legacyPrefix second = false ∧ second ≠ 0x0F ∧ second ≠ 0x67) :
    Split ([first, second] ++ List.replicate 14 0) [first] false second
      (List.replicate 14 0) where
  eq := rfl
  legacy b hb := by
    rw [List.mem_singleton] at hb
    rw [hb]
    exact hf
  plain _ := hs

theorem fillSlot_pair {first second : BitVec 8} (hf : legacyPrefix first = true)
    (hs : legacyPrefix second = false ∧ second ≠ 0x0F ∧ second ≠ 0x67)
    (hrep : (prefixesOf [first] false).repMode ≠ .none) :
    fillSlot (pairMachine first second).vm OPCODES false CODE_MEM default =
      .ok ⟨repSlot .testSchedule (prefixesOf [first] false) 1 second default, CODE_MEM, true⟩ := by
  rw [(split_pair first hf hs).fillSlot_eq (pairMachine_window first second), if_pos hrep]
  rfl

/-- REPNE MOVSB is rejected. -/
theorem rep_rejected_repneMovsb :
    Rejected testHypervisor (repSlot .testSchedule (prefixesOf [0xF2] false) 1 0xA4 default)
      ((pairMachine 0xF2 0xA4).withCounter 5) :=
  (rep_rejected_iff (pairMachine_window 0xF2 0xA4) (split_pair 0xF2 rfl (by decide))
    (fillSlot_pair rfl (by decide) (by decide)) (by decide)
    (fun h ↦ absurd (show repFlagOpcodes 0xA4 = true from h.2) (by decide)) (by decide)).mpr
      ⟨rfl, nofun⟩ 5

/-- REPE before a NOP is accepted when the counter is zero. -/
theorem rep_not_rejected_repeNop :
    ¬∀ (m : Machine (List (BitVec 8))) (window run : List (BitVec 8)) (twoBytes : Bool)
      (opcode : BitVec 8) (rest : List (BitVec 8)) (f : Filled),
      m.vm.memory.getSizedMemory m.vm.eip 16 = .ok window →
        Split window run twoBytes opcode rest →
          fillSlot m.vm OPCODES (writeableAt m.vm.eip) m.vm.eip default = .ok f →
            (prefixesOf run twoBytes).repMode ≠ .none →
              ¬LegalRep (prefixesOf run twoBytes).repMode twoBytes opcode →
                ¬m.vm.gasRemaining < f.slot.gasCost → Rejected testHypervisor f.slot m := by
  intro h
  have hillegal : ¬LegalRep .repe false 0x90 := by
    rintro ⟨-, hstring⟩
    exact absurd (show repFlagOpcodes 0x90 = true ∨ repNoFlagOpcodes 0x90 = true from hstring)
      (by decide)
  have hrejected := h (pairMachine 0xF3 0x90) _ _ _ _ _ _ (pairMachine_window 0xF3 0x90)
    (split_pair 0xF3 rfl (by decide)) (fillSlot_pair rfl (by decide) (by decide)) (by decide)
    hillegal (by decide)
  exact not_rejected_of_done (by decide) (.inl rfl) rfl hrejected

end Qx86
