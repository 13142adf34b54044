import Qx86.Execute.Image
import Qx86.Machine.Arithmetic
import Qx86.Machine.Operands

namespace Qx86

open Foundation Op Operations Register

variable {w : ElementWidth} {p : Pipeline} {vm t : VM} {a r : BitVec w.operand.bits}

/-- A step that sets flags and then stores its result in its first operand, where it is found
afterwards. -/
structure Writes (p : Pipeline) (w : ElementWidth) (vm : VM) (r : BitVec w.operand.bits)
    (f : X86Flags) (o : Outcome VMError Unit × VM) : Prop where
  step : o = vm.stored f (p.args 0).location (w.operand.sized r)
  flags : o.2.flags = f
  value : o.1 = .ok () → o.2.getArg (p.args 0).location = .ok (w.operand.sized r)

theorem stored_writes (hl : (p.args 0).location.size = w.operand.size) (f : X86Flags) :
    Writes p w vm r f (vm.stored f (p.args 0).location (w.operand.sized r)) := by
  refine ⟨rfl, stored_flags .., ?_⟩
  obtain ⟨x, -, h⟩ | ⟨t, ht, h⟩ := stored_cases vm f (p.args 0).location (w.operand.sized r)
  · rw [h]
    nofun
  · rw [h]
    intro _
    rw [VM.getArg_flags]
    exact VM.getArg_setArg hl ht

/-- Sums, differences, comparisons and steps by one are exact, with all six flags. -/
theorem arithmetic_exact (p : Pipeline) (w : ElementWidth) (hw : p.HasWidth w) (vm : VM)
    (a : BitVec w.operand.bits) (ha : vm.getArg (p.args 0).location = .ok (w.operand.sized a)) :
    (∀ b, vm.SourceReads w (p.args 1).location b →
      Writes p w vm (a + b) (vm.flags.ofSum a b)
        (((w.select .add8bit .addNativeWord).logic p).run vm) ∧
      Writes p w vm (a - b) (vm.flags.ofDifference a b)
        (((w.select .sub8bit .subNativeWord).logic p).run vm) ∧
      ((w.select .cmp8bit .cmpNativeWord).logic p).run vm =
        (.ok (), { vm with flags := vm.flags.ofDifference a b })) ∧
    Writes p w vm (a + 1) { vm.flags.ofSum a 1 with carry := vm.flags.carry }
      (((w.select .increment8bit .incrementNativeWord).logic p).run vm) ∧
    Writes p w vm (a - 1) { vm.flags.ofDifference a 1 with carry := vm.flags.carry }
      (((w.select .decrement8bit .decrementNativeWord).logic p).run vm) := by
  have hl := size_of_getArg ha
  refine ⟨?_, ?_, ?_⟩
  · intro b hb
    refine ⟨?_, ?_, ?_⟩
    · rw [select_run (F := add) (fun _ ↦ rfl) (fun _ ↦ rfl) hw, add_run ha hb]
      exact stored_writes hl _
    · rw [select_run (F := sub) (fun _ ↦ rfl) (fun _ ↦ rfl) hw, sub_run ha hb]
      exact stored_writes hl _
    · rw [select_run (F := Operations.cmp) (fun _ ↦ rfl) (fun _ ↦ rfl) hw, cmp_run ha hb]
  · rw [select_run (F := increment) (fun _ ↦ rfl) (fun _ ↦ rfl) hw, increment_run ha]
    exact stored_writes hl _
  · rw [select_run (F := decrement) (fun _ ↦ rfl) (fun _ ↦ rfl) hw, decrement_run ha]
    exact stored_writes hl _

def twoRegisters (a b : BitVec 32) : VM :=
  { createVm ⟨List.replicate 16 0, zeros_nonempty⟩ with
    regs := fun r ↦ if r = eax then a else if r = ebx then b else 0 }

/-- Adding the byte -1 to 1 gives 0 with a carry. -/
def addMinusOne : Pipeline :=
  operandSlot false ![.registerValue eax .dword, .immediate (.byte 0xFF), .none]

theorem arithmetic_exact_addMinusOne :
    Writes addMinusOne .dword (twoRegisters 1 0) 0
      ((twoRegisters 1 0).flags.ofSum 1 (-1 : BitVec 32))
      ((LogicFn.addNativeWord.logic addMinusOne).run (twoRegisters 1 0)) :=
  ((arithmetic_exact addMinusOne .dword rfl (twoRegisters 1 0) 1 rfl).1 (-1 : BitVec 32)
    (.inr ⟨0xFF, rfl, rfl⟩)).1

example : (twoRegisters 1 0).flags.ofSum 1 (-1 : BitVec 32) =
    { carry := true, zero := true, parity := true, adjust := true } := by decide

end Qx86
