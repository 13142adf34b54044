import Mathlib.Algebra.Order.BigOperators.Group.List
import Mathlib.Algebra.Order.Group.Nat
import Qx86.Decode.Slots

namespace Qx86

open Foundation Outcome PrefixesActivated

namespace GasCharger

variable (charger : GasCharger)

/-- What some charges add up to, without the wrap-around of a slot. -/
def price (charges : List GasCost) : ℕ := (charges.map fun g ↦ (charger.cost g).toNat).sum

theorem total_append (l l' : List GasCost) :
    charger.total (l ++ l') = charger.total l + charger.total l' := by
  simp [total]

@[simp] theorem total_singleton (g : GasCost) : charger.total [g] = charger.cost g := by
  simp [total]

theorem le_price {g : GasCost} {charges : List GasCost} (h : g ∈ charges) :
    (charger.cost g).toNat ≤ charger.price charges :=
  List.le_sum_of_mem (List.mem_map_of_mem h)

/-- The four tiers all cost something. -/
def Tiered : Prop :=
  ∀ g ∈ [GasCost.veryLow, .low, .moderate, .high], charger.cost g ≠ 0

instance : Decidable charger.Tiered := inferInstanceAs (Decidable (∀ g ∈ _, _))

end GasCharger

/-- What the instruction at an address is charged for. -/
def VM.chargesAt (vm : VM) (writeable : Bool) (eip : BitVec 32) :
    Outcome VMError (List GasCost) := do
  let buffer ← ofExcept (vm.memory.getSizedMemory eip 16)
  let (pre, prefixSize) ← getPrefixes {} buffer 0
  let buffer ← slice buffer prefixSize
  let extra := if writeable then [GasCost.writeableMemoryExec] else []
  if pre.repMode ≠ .none then pure ([.moderate] ++ extra)
  else
    let (opcode, modrm) ← selectOpcode OPCODES pre.twoBytes buffer
    let (args, _) ← decodeArgsWithModrm opcode buffer pre.sizeOverride modrm
    pure (slotCharges opcode modrm args ++ extra)

/-- An opcode costs one of the four tiers, or nothing, and then it does nothing or stops. -/
def Opcode.Tiered (op : Opcode) : Prop :=
  op.gasCost ∈ [GasCost.veryLow, .low, .moderate, .high] ∨
    op.function ∈ [OpcodeFn.logic .nop, .logic .hlt, .logic .opUndefined]

instance (op : Opcode) : Decidable op.Tiered := inferInstanceAs (Decidable (_ ∨ _))

theorem OPCODES_tiered (op : Fin OPCODE_TABLE_SIZE) (inner : Fin 8) :
    ((OPCODES op).opcodes inner).Tiered :=
  OPCODES_forall (by decide) (by decide +kernel) op inner

theorem opcode_mem_slotCharges (opcode : Opcode) (modrm : Option ParsedModRM)
    (args : Fin 3 → OpArgument) : opcode.gasCost ∈ slotCharges opcode modrm args := by
  simp [slotCharges]

theorem surcharge_gasCost (charger : GasCharger) (writeable : Bool) (slot : Pipeline) :
    (surcharge charger writeable slot).gasCost = slot.gasCost +
      charger.total (if writeable then [.writeableMemoryExec] else []) := by
  cases writeable <;> simp [surcharge, GasCharger.total]

/-- The price of a slot is the sum of what its instruction is charged for. -/
theorem decodeAt_charges {vm : VM} {writeable : Bool} {eip : BitVec 32} {f : Filled}
    (h : vm.decodeAt writeable eip = .ok f) :
    ∃ charges, vm.chargesAt writeable eip = .ok charges ∧
      f.slot.gasCost = vm.charger.total charges ∧
      ((f.slot.function.isRep = true ∧ GasCost.moderate ∈ charges) ∨
        ∃ opcode : Opcode, opcode.Tiered ∧ f.slot.function = .opcode opcode.function ∧
          opcode.gasCost ∈ charges) := by
  obtain ⟨window, pre, n, hw, hp, hn, hf⟩ := fillSlot_eq_ok h
  have hs : slice window n = (.ok (window.drop n) : Outcome VMError _) := slice_of_le hn
  cases hf with
  | rep slot hr hd he =>
    obtain ⟨b, -, hd⟩ := bind_eq_ok.mp hd
    cases hd
    subst he
    refine ⟨[.moderate] ++ if writeable then [.writeableMemoryExec] else [], ?_, ?_, .inl ⟨?_, ?_⟩⟩
    · rw [VM.chargesAt, hw, ofExcept_ok, ok_bind, hp, ok_bind]
      dsimp only
      rw [hs, ok_bind, if_pos hr, pure_def]
    · rw [surcharge_gasCost, GasCharger.total_append, GasCharger.total_singleton]
    · rw [surcharge_function]
      split <;> rfl
    · simp
  | opcode opcode slot next stop hr hd _ he =>
    subst he
    obtain ⟨modrm, size, hsel, hargs, -, hgas⟩ := hd.argsOf
    obtain ⟨op, inner, hop⟩ := hd.mem_table
    refine ⟨slotCharges opcode modrm slot.args ++
      if writeable then [.writeableMemoryExec] else [], ?_, ?_, .inr ⟨opcode, ?_, ?_, ?_⟩⟩
    · rw [VM.chargesAt, hw, ofExcept_ok, ok_bind, hp, ok_bind]
      dsimp only
      rw [hs, ok_bind, if_neg (not_not.mpr hr), hsel, ok_bind]
      dsimp only
      rw [hargs, ok_bind, pure_def]
    · rw [surcharge_gasCost, GasCharger.total_append, hgas]
    · rw [hop]
      exact OPCODES_tiered op inner
    · rw [surcharge_function, hd.function]
    · exact List.mem_append_left _ (opcode_mem_slotCharges ..)

theorem function_of_price_eq_zero {vm : VM} {writeable : Bool} {eip : BitVec 32} {f : Filled}
    (h : vm.decodeAt writeable eip = .ok f) (ht : vm.charger.Tiered)
    (hz : ∀ charges, vm.chargesAt writeable eip = .ok charges →
      vm.charger.price charges = 0) :
    f.slot.function ∈ [SlotFn.opcode (.logic .nop), .opcode (.logic .hlt),
      .opcode (.logic .opUndefined)] := by
  obtain ⟨charges, hc, -, ⟨-, hm⟩ | ⟨opcode, hop, hfn, hm⟩⟩ := decodeAt_charges h
  · have hle := vm.charger.le_price hm
    rw [hz charges hc] at hle
    have hne := ht .moderate (by simp)
    exact absurd ((Words.eq_zero_iff_toNat _).mpr (by omega)) hne
  · obtain htier | hfree := hop
    · have hle := vm.charger.le_price hm
      rw [hz charges hc] at hle
      exact absurd ((Words.eq_zero_iff_toNat _).mpr (by omega)) (ht _ htier)
    · rw [hfn]
      simpa using hfree

theorem OPCODES_nop {op : Fin OPCODE_TABLE_SIZE} {inner : Fin 8}
    (h : ((OPCODES op).opcodes inner).function = .logic .nop) :
    (OPCODES op).hasModrm = false ∧ ∀ n, ((OPCODES op).opcodes inner).argSource n = .none := by
  have hall : ∀ d ∈ definitions, d.toOpcode.function = .logic .nop →
      (∀ o ∈ d.slots, o = 0x90 ∨ o = 0xF0) ∧ ∀ n, d.toOpcode.argSource n = .none := by
    decide +kernel
  obtain hd | ⟨d, hd, hw, hd'⟩ := OPCODES_cases op inner
  · rw [hd] at h
    cases h
  · rw [hd'] at h ⊢
    obtain ⟨hslots, hargs⟩ := hall d hd h
    refine ⟨?_, hargs⟩
    obtain ho | ho := hslots op.val hw.1
    · rw [show op = ⟨0x90, by decide⟩ from Fin.ext ho]
      decide +kernel
    · rw [show op = ⟨0xF0, by decide⟩ from Fin.ext ho]
      decide +kernel

/-- A `nop` is one byte after its prefixes, and decoding wants six. -/
theorem decodeAt_nop {vm : VM} {writeable : Bool} {eip : BitVec 32} {f : Filled}
    (h : vm.decodeAt writeable eip = .ok f) (hf : f.slot.function = .opcode (.logic .nop)) :
    f.slot.eipSize.toNat ≤ 11 := by
  obtain ⟨window, pre, n, hw, -, -, hfill⟩ := fillSlot_eq_ok h
  have hl : window.length = 16 := MemorySystem.getSizedMemory_length hw
  cases hfill with
  | rep slot _ hd he =>
    obtain ⟨b, -, hd⟩ := bind_eq_ok.mp hd
    cases hd
    rw [he, surcharge_function] at hf
    dsimp only at hf
    split at hf <;> cases hf
  | opcode opcode slot next stop _ hd _ he =>
    rw [he, surcharge_function, hd.function, SlotFn.opcode.injEq] at hf
    rw [he, surcharge_eipSize]
    obtain ⟨modrm, size, hsel, hargs, heip, -⟩ := hd.argsOf
    obtain ⟨byte, -, op, -, hop⟩ := selectOpcode_eq_ok hsel
    have hnone : modrm = none ∧ ∀ k, opcode.argSource k = .none := by
      obtain ⟨hm, _, -, -, rfl⟩ | ⟨-, rfl, rfl⟩ := hop
      · rw [(OPCODES_nop hf).1] at hm
        cases hm
      · exact ⟨rfl, (OPCODES_nop hf).2⟩
    obtain ⟨rfl, hsrc⟩ := hnone
    have hr := decodeArgsWithModrm_eq_ok hargs
    have hlen := hr.length
    obtain ⟨_, _, _, n₀, n₁, n₂, -, h₀, h₁, h₂, -, -, hsize⟩ := hr.reads
    rw [hsrc] at h₀ h₁ h₂
    obtain ⟨-, rfl⟩ := decodeArg_none h₀
    obtain ⟨-, rfl⟩ := decodeArg_none h₁
    obtain ⟨-, rfl⟩ := decodeArg_none h₂
    rw [List.length_drop] at hlen
    rw [heip, BitVec.toNat_add, BitVec.toNat_ofNat, BitVec.toNat_ofNat]
    simp only [Option.getD_none] at hsize
    omega

end Qx86
