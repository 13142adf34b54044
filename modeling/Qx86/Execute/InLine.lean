import Qx86.Execute.Lookahead
import Qx86.Execute.Metering

namespace Qx86

open Foundation Outcome

variable {σ : Type}

theorem LogicFn.isString_inLine {f : LogicFn} (h : f.isString = true) :
    f.effects.jumps = false := by
  cases f <;> first | rfl | cases h

theorem staysInLine_of_string {opcode : BitVec 8}
    (h : repFlagOpcodes opcode = true ∨ repNoFlagOpcodes opcode = true) :
    (repOpcode opcode).function.staysInLine = true := by
  obtain ⟨f, hf, he⟩ := repOpcode_string h
  rw [he, OpcodeFn.staysInLine, LogicFn.isString_inLine hf]
  rfl

theorem OpcodeFn.call_eip (hv : Hypervisor σ) {f : OpcodeFn} (h : f.staysInLine = true)
    (p : Pipeline) (m : Machine σ) : (f.call hv p m).2.vm.eip = m.vm.eip := by
  cases f with
  | interrupt => cases h
  | logic f =>
    have hj : f.effects.jumps = false := by
      simpa [OpcodeFn.staysInLine] using h
    exact (f.logic p).eip hj m.vm

theorem repPass_eip (hv : Hypervisor σ) {p : Pipeline}
    (h : (repOpcode p.opcode).function.staysInLine = true) (cost : BitVec 64)
    (m : Machine σ) : (repPass hv p cost m).2.vm.eip = m.vm.eip := by
  have hcall := OpcodeFn.call_eip hv h p m
  unfold repPass
  rcases hc : (repOpcode p.opcode).function.call hv p m with ⟨_ | e | _, m'⟩ <;> rw [hc] at hcall
  · refine Eq.trans ?_ hcall
    exact m'.vm.decrementRegw_eip .ecx p.sizeOverride
  · exact hcall
  · exact hcall

theorem repLoop_eip (hv : Hypervisor σ) {p : Pipeline}
    (h : (repOpcode p.opcode).function.staysInLine = true) (cost : BitVec 64)
    (verdict : VM → Outcome VMError Bool) (n : ℕ) (m : Machine σ) :
    (repLoop hv p cost verdict n m).2.vm.eip = m.vm.eip := by
  refine repLoop_rule (I := fun m' ↦ m'.vm.eip = m.vm.eip) (Q := fun r ↦ r.2.vm.eip = m.vm.eip)
    (fun m' _ hm _ ↦ hm) ?_ n rfl
  intro m₁ hm₁
  have hpass := (repPass_eip hv h cost m₁).trans hm₁
  refine ⟨?_, fun _ ↦ hpass⟩
  intro m₂ hm₂
  rw [hm₂] at hpass
  exact hpass

end Qx86
