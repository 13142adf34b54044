import Qx86.Execute.Metering

namespace Qx86

open Foundation

variable {σ : Type} {hv : Hypervisor σ}

section Other

def Pipeline.RepeatsOther (p : Pipeline) : Prop :=
  p.function = .repe ∧ ¬(repFlagOpcodes p.opcode = true ∨ repNoFlagOpcodes p.opcode = true)

/-- REPE enters its loop, to repeat something else than a string function. -/
structure Pipeline.Enters (p : Pipeline) (vm : VM) : Prop where
  repe : p.function = .repe
  noString : ¬(repFlagOpcodes p.opcode = true ∨ repNoFlagOpcodes p.opcode = true)
  counter : vm.readRegw .ecx p.sizeOverride ≠ 0
  gas : p.gasCost < vm.gasRemaining

/-- How a cycle ends after a call that REPE does not repeat. -/
def endRepe (p : Pipeline) (cost : BitVec 64) :
    Outcome VMError Unit × Machine σ → Outcome VMError Bool × Machine σ
  | (.ok _, m) => (.err .invalidOpcodeEncoding,
      (Machine.charge { m with vm := m.vm.decrementRegw .ecx p.sizeOverride } cost).fail)
  | (.err e, m) => if e = .internalVMStop then (.ok true, m) else (.err e, m.fail)
  | (.panic, m) => (.panic, m)

theorem runSlot_repe {p : Pipeline} {m : Machine σ} (hf : p.function = .repe)
    (hg : ¬m.vm.gasRemaining < p.gasCost) :
    runSlot hv p m = endSlot p (repe hv p (m.charge p.gasCost)) := by
  rw [runSlot_call hg, hf]
  rfl

theorem exists_counter {p : Pipeline} {vm : VM} (hc : vm.readRegw .ecx p.sizeOverride ≠ 0) :
    ∃ n, (vm.readRegw .ecx p.sizeOverride).toNat = n + 1 :=
  Nat.exists_eq_succ_of_ne_zero fun h ↦ hc ((Words.eq_zero_iff_toNat _).mpr h)

/-- REPE of something else than a string function ends the cycle after a pass. -/
theorem runSlot_of_enters {p : Pipeline} {m : Machine σ} (h : p.Enters m.vm) :
    runSlot hv p m = .inr (endRepe p (m.vm.charger.cost (repOpcode p.opcode).gasCost)
      ((repOpcode p.opcode).function.call hv p (m.charge p.gasCost))) := by
  have hlt := h.gas
  rw [BitVec.lt_def] at hlt
  have hg : ¬m.vm.gasRemaining < p.gasCost := by
    rw [BitVec.lt_def]
    omega
  have hg' : (m.charge p.gasCost).vm.gasRemaining ≠ 0 := by
    rw [ne_eq, Words.eq_zero_iff_toNat, charge_gas]
    omega
  have hverdict : ∀ vm, repeVerdict p.opcode vm = .err .invalidOpcodeEncoding := fun vm ↦ by
    rw [repeVerdict, if_neg (fun hs ↦ h.noString (.inl hs)),
      if_neg (fun hs ↦ h.noString (.inr hs))]
  have hc : (m.charge p.gasCost).vm.readRegw .ecx p.sizeOverride ≠ 0 := h.counter
  obtain ⟨n, hn⟩ := exists_counter hc
  rw [runSlot_repe h.repe hg, repe, hn, repLoop_pass hc hg', repPass]
  rcases (repOpcode p.opcode).function.call hv p (m.charge p.gasCost) with ⟨_ | x | _, m'⟩
  · simp only [repAfter, hverdict]
    rfl
  · simp only [repAfter, endSlot, endRepe]
  · rfl

theorem runSlot_of_not_enters {p : Pipeline} {m : Machine σ} (hp : p.RepeatsOther)
    (h : ¬p.Enters m.vm) :
    runSlot hv p m =
      if m.vm.gasRemaining < p.gasCost then .inr (.err .outOfGas, m.charge p.gasCost)
      else if m.vm.readRegw .ecx p.sizeOverride = 0 then
        .inl ((m.charge p.gasCost).advance p.eipSize)
      else .inr (.err .outOfGas, (m.charge p.gasCost).fail) := by
  by_cases hg : m.vm.gasRemaining < p.gasCost
  · rw [if_pos hg, runSlot_broke hg]
  rw [if_neg hg, runSlot_repe hp.1 hg]
  by_cases hc : m.vm.readRegw .ecx p.sizeOverride = 0
  · have hc' : (m.charge p.gasCost).vm.readRegw .ecx p.sizeOverride = 0 := hc
    rw [if_pos hc, repe, repLoop_done hc']
    rfl
  · have hlt : ¬p.gasCost < m.vm.gasRemaining := fun hlt ↦ h ⟨hp.1, hp.2, hc, hlt⟩
    have hzero : (m.charge p.gasCost).vm.gasRemaining = 0 := by
      rw [Words.eq_zero_iff_toNat, charge_gas]
      rw [BitVec.not_lt, BitVec.le_def] at hlt
      omega
    have hc' : (m.charge p.gasCost).vm.readRegw .ecx p.sizeOverride ≠ 0 := hc
    obtain ⟨n, hn⟩ := exists_counter hc'
    rw [if_neg hc, repe, hn, repLoop_broke hc' hzero]
    rfl

end Other

theorem repOpcode_ne_interrupt {opcode : BitVec 8}
    (h : repFlagOpcodes opcode = true ∨ repNoFlagOpcodes opcode = true) :
    (repOpcode opcode).function ≠ .interrupt := by
  obtain ⟨f, -, hf⟩ := repOpcode_string h
  rw [hf]
  nofun

/-- A slot that calls an interrupt on the machine that it finds, itself or behind REPE. -/
def Pipeline.Interrupts (p : Pipeline) (vm : VM) : Prop :=
  p.function = .opcode .interrupt ∧ ¬vm.gasRemaining < p.gasCost ∨
    p.Enters vm ∧ (repOpcode p.opcode).function = .interrupt

/-- The interrupts that a run calls, each with the machine and the host that it is called on. -/
inductive Asked (hv : Hypervisor σ) (c : Running σ) : VM → BitVec 8 → σ → Prop
  | call (p : Pipeline) (m : Machine σ) (num : BitVec 8) (h : ComesTo hv c p m)
      (hp : p.Interrupts m.vm)
      (hnum : (m.charge p.gasCost).vm.getArg (p.args 0).location >>= SizedValue.u8Exact =
        .ok num) : Asked hv c (m.charge p.gasCost).vm num m.host

end Qx86
