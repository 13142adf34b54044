import Qx86.Execute.Lookahead
import Qx86.Machine.Arithmetic
import Qx86.Machine.Jumps
import Qx86.Machine.Stack
import Qx86.Properties.DecodedSlots

namespace Qx86

open Foundation Words Op Operations Register

variable {σ : Type} {hv : Hypervisor σ} {p q : Pipeline} {m m' : Machine σ} {vm t : VM}
  {target : BitVec 32}

def VM.nextEip (vm : VM) (p : Pipeline) : BitVec 32 := vm.eip + p.eipSize.setWidth 32

def VM.pushReturn (vm : VM) (p : Pipeline) : Except VMError VM :=
  (vm.setReg32 esp (vm.regs esp - 4)).setMem (vm.regs esp - 4) (.dword (vm.nextEip p))

/-- The stack pointer and the dword that it points to are new, and nothing else is. -/
structure ReturnPushed (vm : VM) (p : Pipeline) (t : VM) : Prop where
  stack : t.regs esp = vm.regs esp - 4
  top : t.getMem (t.regs esp) .dword = .ok (.dword (vm.nextEip p))
  below : ∀ (w : ElementWidth) (a : BitVec 32),
    a.toNat + w.bytes ≤ (vm.regs esp - 4).toNat ∨ (vm.regs esp - 4).toNat + 4 ≤ a.toNat →
      t.getMem a w.operand.size = vm.getMem a w.operand.size
  rest : t = { vm with regs := Function.update vm.regs esp (vm.regs esp - 4), memory := t.memory }

/-- A slot that leads to a target, from a given state and apart from the gas. -/
def LeadsTo (hv : Hypervisor σ) (p : Pipeline) (m : Machine σ) (t : VM) (target : BitVec 32) :
    Prop :=
  runSlot hv p m =
    .inl ⟨{ t with eip := target, gasRemaining := saturatingSub m.vm.gasRemaining p.gasCost },
      m.host⟩

section Slot

variable {f : LogicFn}

theorem leadsTo_of_run (hf : p.function = .opcode (.logic f))
    (hgas : ¬m.vm.gasRemaining < p.gasCost)
    (h : (f.logic p).run m.vm = (.ok (), { t with eip := target - p.eipSize.setWidth 32 })) :
    LeadsTo hv p m t target := by
  have hcharged := (f.logic p).oblivious m.vm (saturatingSub m.vm.gasRemaining p.gasCost)
  rw [h] at hcharged
  have hcall : p.function.call hv p (m.charge p.gasCost) =
      (.ok (), ⟨VM.setGas { t with eip := target - p.eipSize.setWidth 32 }
        (saturatingSub m.vm.gasRemaining p.gasCost), m.host⟩) := by
    rw [hf, SlotFn.call, OpcodeFn.call_logic]
    exact congrArg (fun r ↦ (r.1, (⟨r.2, m.host⟩ : Machine σ))) hcharged
  rw [LeadsTo, runSlot, if_neg hgas, hcall]
  simp only [Machine.advance, VM.setGas, BitVec.sub_add_cancel]

theorem run_of_leadsTo (hf : p.function = .opcode (.logic f)) (h : LeadsTo hv p m t target) :
    ∃ u, (f.logic p).run m.vm = (.ok (), u) ∧ u.eip + p.eipSize.setWidth 32 = target := by
  obtain ⟨u, hrun, hm⟩ := runSlot_logic_inl hf h
  have hcharged := (f.logic p).oblivious m.vm (saturatingSub m.vm.gasRemaining p.gasCost)
  have hrun' := hcharged.symm.trans hrun
  have heip := congrArg (fun m : Machine σ ↦ m.vm.eip) hm
  refine ⟨((f.logic p).run m.vm).2, ?_, ?_⟩
  · have hok : ((f.logic p).run m.vm).1 = .ok () := (congrArg Prod.fst hrun' :)
    exact Prod.ext hok rfl
  · have hu := congrArg (fun r ↦ r.2.eip) hrun'
    change ((f.logic p).run m.vm).2.eip = u.eip at hu
    rw [hu]
    exact heip.symm

end Slot

section Push

theorem pushReturn_pushed (h : vm.pushReturn p = .ok t) : ReturnPushed vm p t := by
  have hpush : vm.push .dword (vm.nextEip p) = .ok t := h
  have hstack := VM.push_esp hpush
  refine ⟨hstack, VM.push_top hpush, ?_, VM.push_eq hpush⟩
  intro w a ha
  have hread : t.getMem a w.operand.size = _ := VM.getMem_setMem_apart (w := .dword) ha h
  rw [hread]
  exact VM.getMem_congr rfl a _

theorem call_run (jump : Pipeline → Op .jump Unit) (hp : p.sizeOverride = false)
    (hsecond : (p.args 1).location = .none)
    (hfirst : vm.getArg (p.args 0).location >>= SizedValue.u32Zx = .ok target)
    (h : vm.pushReturn p = .ok t) : (call jump p).run vm = (jump p).run t := by
  have hpush : (pushStack (.dword (vm.eip + p.eipSize.setWidth 32)) p : Op .jump Unit).run vm =
      (.ok (), t) := (pushStack_ok (w := .dword) hp nofun).mpr h
  have hnone : t.setArg (p.args 1).location (.dword target) = .ok t := by
    rw [hsecond]
    rfl
  simp only [call, run_bind, run_getArgAs, hfirst, Outcome.ofExcept_ok, runBind_ok, run_eipValue,
    hpush, run_setArg, hnone, storeResult]

end Push

section Jump

theorem jumpTo_run (hp : p.sizeOverride = false) (a : BitVec 32) :
    (jumpTo a p).run t = (.ok (), { t with eip := a }) := by
  rw [jumpTo, if_neg (Pipeline.HasWidth.not_override hp)]
  rfl

theorem jmpRel_run {rel : BitVec 32} (hp : p.sizeOverride = false)
    (h : (p.args 0).location = .immediate (.dword rel)) :
    (jmpRel p).run t =
      (.ok (), { t with eip := t.nextEip p + rel - p.eipSize.setWidth 32 }) := by
  have hread : t.getArg (p.args 0).location >>= SizedValue.u32Sx = .ok rel := by
    rw [h]
    rfl
  simp only [jmpRel, run_bind, run_eipValue, runBind_ok, run_getArgAs, hread, Outcome.ofExcept_ok,
    jumpTo_run hp, VM.nextEip]

theorem jmpAbs_run (hp : p.sizeOverride = false)
    (h : t.getArg (p.args 0).location = .ok (.dword target)) :
    (jmpAbs p).run t = (.ok (), { t with eip := target - p.eipSize.setWidth 32 }) := by
  have hread : t.getArg (p.args 0).location >>= SizedValue.u32Zx = .ok target := by
    rw [h]
    rfl
  simp only [jmpAbs, run_bind, run_getArgAs, hread, Outcome.ofExcept_ok, runBind_ok, jumpTo_run hp]

theorem callRel_leadsTo {rel : BitVec 32} (hf : p.function = .opcode (.logic .callRel))
    (hgas : ¬m.vm.gasRemaining < p.gasCost) (hp : p.sizeOverride = false)
    (hfirst : (p.args 0).location = .immediate (.dword rel))
    (hsecond : (p.args 1).location = .none) (hpush : m.vm.pushReturn p = .ok t) :
    LeadsTo hv p m t (m.vm.nextEip p + rel) := by
  have hread : m.vm.getArg (p.args 0).location >>= SizedValue.u32Zx = .ok rel := by
    rw [hfirst]
    rfl
  have heip : t.eip = m.vm.eip := (congrArg VM.eip (pushReturn_pushed hpush).rest :)
  have hrun := (call_run jmpRel hp hsecond hread hpush).trans (jmpRel_run hp hfirst)
  rw [VM.nextEip, heip] at hrun
  exact leadsTo_of_run hf hgas hrun

/-- An indirect call evaluates its operand again when the return address is on the stack. -/
theorem callAbs_leadsTo_iff (hf : p.function = .opcode (.logic .callAbs))
    (hgas : ¬m.vm.gasRemaining < p.gasCost) (hp : p.sizeOverride = false)
    (hfirst : m.vm.getArg (p.args 0).location = .ok (.dword target))
    (hsecond : (p.args 1).location = .none) (hpush : m.vm.pushReturn p = .ok t) :
    LeadsTo hv p m t target ↔ t.getArg (p.args 0).location = .ok (.dword target) := by
  have hread : m.vm.getArg (p.args 0).location >>= SizedValue.u32Zx = .ok target := by
    rw [hfirst]
    rfl
  have hrun := call_run jmpAbs hp hsecond hread hpush
  have hsize : (p.args 0).location.size = ElementWidth.dword.operand.size :=
    size_of_getArg (w := .dword) hfirst
  constructor
  · intro h
    obtain ⟨u, hu, heip⟩ := run_of_leadsTo hf h
    have hjump : (jmpAbs p).run t = (.ok (), u) := hrun.symm.trans hu
    obtain ⟨a, ha, rfl⟩ := jmpAbs_ok hjump
    obtain ⟨x, hx⟩ | ⟨b, hb⟩ := destination_cases (w := .dword) hsize t
    · rw [hx] at ha
      cases ha
    · rw [hb] at ha
      cases ha
      rw [masked, if_neg (Pipeline.HasWidth.not_override hp)] at heip
      rw [← heip, BitVec.sub_add_cancel]
      exact hb
  · intro h
    exact leadsTo_of_run hf hgas (hrun.trans (jmpAbs_run hp h))

end Jump

section Return

theorem ret_run {n : BitVec 16} (hp : p.sizeOverride = false)
    (hn : vm.getArg (p.args 0).location >>= SizedValue.u16Zx = .ok n)
    (h : vm.getMem (vm.regs esp) .dword = .ok (.dword target)) :
    (ret p).run vm = (.ok (), { vm.setReg32 esp (vm.regs esp + 4 + n.setWidth 32) with
      eip := target - p.eipSize.setWidth 32 }) := by
  have hpop32 : (pop32 : Op .jump SizedValue).run vm =
      (.ok (.dword target), vm.setReg32 esp (vm.regs esp + 4)) :=
    popSized_run (w := .dword) nofun h
  have hpop : (popEip p).run vm = (.ok (), { vm.setReg32 esp (vm.regs esp + 4) with
      eip := target - p.eipSize.setWidth 32 }) := by
    rw [popEip, if_neg (Pipeline.HasWidth.not_override hp)]
    simp only [run_bind, hpop32, runBind_ok, SizedValue.u32Zx, run_ofExcept,
      Outcome.ofExcept_ok, run_setEip]
  simp only [ret, run_bind, run_getArgAs, hn, Outcome.ofExcept_ok, runBind_ok, hpop]
  by_cases hzero : n = 0
  · subst hzero
    have hadd : vm.regs esp + 4 + (0 : BitVec 16).setWidth 32 = vm.regs esp + 4 :=
      BitVec.add_zero _
    rw [if_neg (not_not.mpr rfl), run_pure, hadd]
  · rw [if_pos hzero]
    simp only [run_bind, run_reg32, runBind_ok, run_setReg32, VM.reg32, VM.setReg32,
      Function.update_self, Function.update_idem]

end Return

/-- A call leads to its target with the address of the next instruction on the stack: a relative
call always does, and an indirect one exactly if its operand does not change when that address is
pushed. A return to it leads to the next instruction. -/
theorem call_leadsTo_iff (hv : Hypervisor σ) (p : Pipeline) (m : Machine σ) (t : VM)
    (hgas : ¬m.vm.gasRemaining < p.gasCost) (hp : p.sizeOverride = false)
    (hsecond : (p.args 1).location = .none) (hpush : m.vm.pushReturn p = .ok t) :
    ReturnPushed m.vm p t ∧
    (∀ rel, p.function = .opcode (.logic .callRel) →
      (p.args 0).location = .immediate (.dword rel) →
        LeadsTo hv p m t (m.vm.nextEip p + rel)) ∧
    (∀ target, p.function = .opcode (.logic .callAbs) →
      m.vm.getArg (p.args 0).location = .ok (.dword target) →
        (LeadsTo hv p m t target ↔ t.getArg (p.args 0).location = .ok (.dword target))) ∧
    ∀ (q : Pipeline) (m' : Machine σ) (n : BitVec 16), q.function = .opcode (.logic .ret) →
      q.sizeOverride = false → ¬m'.vm.gasRemaining < q.gasCost →
      m'.vm.getArg (q.args 0).location >>= SizedValue.u16Zx = .ok n →
      m'.vm.regs esp = t.regs esp →
      m'.vm.getMem (t.regs esp) .dword = t.getMem (t.regs esp) .dword →
        LeadsTo hv q m' (m'.vm.setReg32 esp (m.vm.regs esp + n.setWidth 32)) (m.vm.nextEip p) := by
  have hpushed := pushReturn_pushed hpush
  refine ⟨hpushed, ?_, ?_, ?_⟩
  · intro rel hf hfirst
    exact callRel_leadsTo hf hgas hp hfirst hsecond hpush
  · intro target hf hfirst
    exact callAbs_leadsTo_iff hf hgas hp hfirst hsecond hpush
  · intro q m' n hf hq hgas' hn hstack htop
    rw [hpushed.top, ← hstack] at htop
    have hrun := ret_run hq hn htop
    have hesp : m'.vm.regs esp + 4 = m.vm.regs esp := by
      rw [hstack, hpushed.stack, BitVec.sub_add_cancel]
    rw [hesp] at hrun
    exact leadsTo_of_run hf hgas' hrun

def callRegister (r : Register) : Pipeline :=
  { operandSlot false ![.registerValue r .dword, .none, .none] with
    function := .opcode (.logic .callAbs)
    eipSize := 2 }

def stackMachine : Machine (List (BitVec 8)) where
  vm := { createVm ⟨List.replicate 16 0, zeros_nonempty⟩ with
    regs := fun r ↦ if r = esp then 0x80000020 else if r = eax then 0x10008 else 0
    gasRemaining := 100 }
  host := []

theorem call_leadsTo_iff_eax : ∃ t, stackMachine.vm.pushReturn (callRegister eax) = .ok t ∧
    LeadsTo testHypervisor (callRegister eax) stackMachine t 0x10008 := by
  refine ⟨_, rfl, ?_⟩
  exact ((call_leadsTo_iff testHypervisor (callRegister eax) stackMachine _ (by decide) rfl rfl
    rfl).2.2.1 0x10008 rfl rfl).mpr rfl

/-- CALL ESP goes to the address below the one that ESP holds. -/
theorem callAbs_again : ¬∀ (p : Pipeline) (m : Machine (List (BitVec 8))) (t : VM)
    (target : BitVec 32), ¬m.vm.gasRemaining < p.gasCost → p.sizeOverride = false →
      (p.args 1).location = .none → m.vm.pushReturn p = .ok t →
      p.function = .opcode (.logic .callAbs) →
      m.vm.getArg (p.args 0).location = .ok (.dword target) →
        LeadsTo testHypervisor p m t target := by
  intro h
  have hgas : ¬stackMachine.vm.gasRemaining < (callRegister esp).gasCost := by decide
  have hleads := h (callRegister esp) stackMachine _ 0x80000020 hgas rfl rfl rfl rfl rfl
  have hread := (callAbs_leadsTo_iff rfl hgas rfl rfl rfl rfl).mp hleads
  have hesp := SizedValue.dword.inj (Except.ok.inj hread)
  exact absurd hesp (by decide)

end Qx86
