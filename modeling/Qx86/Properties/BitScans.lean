import Qx86.Machine.Bits
import Qx86.Properties.Arithmetic
import Qx86.Properties.DecodedSlots

namespace Qx86

open Foundation Bits BitManipulation Outcome Op Operations Register

inductive BitScanKind where
  | forward
  | reverse

namespace BitScanKind

def function : BitScanKind → LogicFn
  | forward => .bitScanForward
  | reverse => .bitScanReverse

def Finds : BitScanKind → Set ℕ → ℕ → Prop
  | forward => IsLeast
  | reverse => IsGreatest

def opcode : BitScanKind → BitVec 8
  | forward => 0xBC
  | reverse => 0xBD

def Encoded (κ : BitScanKind) : Prop :=
  ∀ reg, ((entryOf true κ.opcode).opcodes reg).IsRow κ.function
    [(.modRM, .nativeWord), (.modRMReg, .nativeWord)]

instance (κ : BitScanKind) : Decidable κ.Encoded := inferInstanceAs (Decidable (∀ _, _))

theorem encoded (κ : BitScanKind) : κ.Encoded := by
  cases κ with
  | forward | reverse => decide +kernel

theorem Finds.mem {κ : BitScanKind} {s : Set ℕ} {i : ℕ} (h : κ.Finds s i) : i ∈ s := by
  cases κ with
  | forward | reverse => exact h.1

theorem Finds.unique {κ : BitScanKind} {s : Set ℕ} {i j : ℕ} (hi : κ.Finds s i)
    (hj : κ.Finds s j) : i = j := by
  cases κ with
  | forward => exact IsLeast.unique hi hj
  | reverse => exact IsGreatest.unique hi hj

end BitScanKind

variable {κ : BitScanKind} {w : ElementWidth} {p : Pipeline} {op : Opcode} {vm : VM}
  {x : BitVec w.operand.bits} {r : Register}

/-- A scan that stores the place of an extreme one, if there is one, and the zero flag. -/
structure BitScans (κ : BitScanKind) (w : ElementWidth) (p : Pipeline) (vm : VM) (r : Register)
    (x : BitVec w.operand.bits) : Prop where
  none : x = 0 → (κ.function.logic p).run vm =
    (.ok (), { vm with flags := { vm.flags with zero := true } })
  exists_place : x ≠ 0 → ∃! i, κ.Finds (ones x) i
  some : ∀ i, κ.Finds (ones x) i → (κ.function.logic p).run vm =
    (.ok (), { vm.setReg r (w.operand.sized (BitVec.ofNat w.operand.bits i)) with
      flags := { vm.flags with zero := false } })

section Decoder

theorem OPCODES_bitScan (κ : BitScanKind) (n : Fin OPCODE_TABLE_SIZE) (inner : Fin 8) :
    ((OPCODES n).opcodes inner).function = .logic κ.function →
      ((OPCODES n).opcodes inner).argSource 1 = .modRMReg ∧
        ((OPCODES n).opcodes inner).argSize 1 = .nativeWord := by
  have hall : ∀ d ∈ definitions, d.toOpcode.function = .logic κ.function →
      d.toOpcode.argSource 1 = .modRMReg ∧ d.toOpcode.argSize 1 = .nativeWord := by
    cases κ with
    | forward | reverse => decide +kernel
  refine OPCODES_forall (P := fun o ↦ o.function = .logic κ.function →
    o.argSource 1 = .modRMReg ∧ o.argSize 1 = .nativeWord) ?_ hall n inner
  cases κ with
  | forward | reverse => decide

theorem Pipeline.Decoded.scan_destination (h : p.Decoded op)
    (hf : p.function = .opcode (.logic κ.function)) :
    ∃ r, (p.args 1).location = .registerValue r (nativeSize p.sizeOverride) := by
  have hfn := h.function
  rw [hf] at hfn
  obtain ⟨modrm, byte, bytes, n, ha⟩ := h.args 1
  obtain ⟨m, inner, rfl⟩ := h.table
  obtain ⟨hsource, hsize⟩ := OPCODES_bitScan κ m inner (SlotFn.opcode.inj hfn).symm
  rw [hsource, hsize] at ha
  exact ⟨_, congrArg OpArgument.location (congrArg Prod.fst (Outcome.ok.inj ha)).symm⟩

end Decoder

theorem BitScanKind.run_cases (κ : BitScanKind) (hp : p.HasWidth w) (hw : w ≠ .byte)
    (hx : vm.getArg (p.args 0).location = .ok (w.operand.sized x)) :
    (κ.function.logic p).run vm = (.ok (), { vm with flags := { vm.flags with zero := true } }) ∧
      x = 0 ∨ ∃ i < w.operand.bits, κ.Finds (ones x) i ∧ (κ.function.logic p).run vm =
        vm.stored { vm.flags with zero := false } (p.args 1).location
          (w.operand.sized (BitVec.ofNat w.operand.bits i)) := by
  cases κ with
  | forward =>
    have hrun : (BitScanKind.forward.function.logic p).run vm = _ :=
      nativeWord_run hp hw (bitScan getBit id) vm
    rw [hrun]
    exact bitScanForward_run hx
  | reverse =>
    have hrun : (BitScanKind.reverse.function.logic p).run vm = _ :=
      nativeWord_run hp hw (bitScan getBitBigEndian fun {w} i ↦ BitVec.ofNat w (w - 1) - i) vm
    rw [hrun]
    exact bitScanReverse_run hx

/-- BSF and BSR find the least and the greatest one of their source. -/
theorem bitScan_exact (κ : BitScanKind) (w : ElementWidth) (hw : w ≠ .byte) (p : Pipeline)
    {op : Opcode} (hp : p.Decoded op) (hf : p.function = .opcode (.logic κ.function))
    (hpw : p.HasWidth w) (vm : VM) (x : BitVec w.operand.bits)
    (hx : vm.getArg (p.args 0).location = .ok (w.operand.sized x)) :
    κ.Encoded ∧ ∃ r, (p.args 1).location = .registerValue r w.operand.size ∧
      BitScans κ w p vm r x := by
  obtain ⟨r, hr⟩ := hp.scan_destination hf
  rw [hpw.nativeSize_eq hw] at hr
  refine ⟨κ.encoded, r, hr, ?_⟩
  obtain ⟨hrun, rfl⟩ | ⟨i, hi, hfinds, hrun⟩ := κ.run_cases hpw hw hx
  · refine ⟨fun _ ↦ hrun, fun h ↦ absurd rfl h, ?_⟩
    intro i hi
    exact absurd hi.mem not_mem_ones_zero
  · have hstore := ArgLocation.setArg_register vm r (BitVec.ofNat w.operand.bits i)
    rw [hr, stored_ok hstore] at hrun
    refine ⟨?_, fun _ ↦ ⟨i, hfinds, fun j hj ↦ hj.unique hfinds⟩, ?_⟩
    · rintro rfl
      exact absurd hfinds.mem not_mem_ones_zero
    · intro j hj
      rw [hj.unique hfinds]
      exact hrun

section Witness

def BitScanKind.slot (κ : BitScanKind) : Pipeline :=
  { operandSlot false ![.registerValue ebx .dword, .registerValue eax .dword, .none] with
    function := .opcode (.logic κ.function) }

theorem BitScanKind.decoded_slot (κ : BitScanKind) :
    κ.slot.Decoded ((entryOf true κ.opcode).opcodes 0) := by
  refine .of_row (by cases κ <;> decide) (κ.encoded 0) rfl ?_
  intro n
  match n with
  | 0 | 1 | 2 => exact ⟨{ modrm := ⟨ebx, eax, 3⟩ }, 0, [], 0, rfl⟩

theorem bitScan_exact_reverse : BitScanKind.reverse.Encoded ∧
    ∃ r, (BitScanKind.reverse.slot.args 1).location = .registerValue r .dword ∧
      BitScans .reverse .dword BitScanKind.reverse.slot (twoRegisters 0 6) r (6 : BitVec 32) :=
  bitScan_exact .reverse .dword nofun _ BitScanKind.reverse.decoded_slot rfl rfl (twoRegisters 0 6)
    (6 : BitVec 32) rfl

example : ((LogicFn.bitScanReverse.logic BitScanKind.reverse.slot).run (twoRegisters 0 6)).2.regs
    eax = 2 := by decide

end Witness

end Qx86
