import Qx86.Execute.Foresight
import Qx86.Foundation.Triples

namespace Qx86

open Foundation

variable {σ : Type} {hv : Hypervisor σ}

section Instructions

def instruction (f : LogicFn) (args : Fin 3 → OpArgument) (size opcode : BitVec 8) : Pipeline where
  function := .opcode (.logic f)
  args := args
  gasCost := 0
  eipSize := size
  sizeOverride := false
  opcode := opcode

def regArg (r : Register) : OpArgument := ⟨.registerValue r .dword, false⟩

def byteArg (v : BitVec 8) : OpArgument := ⟨.immediate (.byte v), false⟩

def dwordArg (v : BitVec 32) : OpArgument := ⟨.immediate (.dword v), false⟩

namespace Processor

def put (q : Processor) (r : Register) (v : BitVec 32) (f : X86Flags) (size : BitVec 8) :
    Processor :=
  ⟨Function.update q.regs r v, q.eip + size.setWidth 32, f⟩

def skip (q : Processor) (f : X86Flags) (size : BitVec 8) : Processor :=
  ⟨q.regs, q.eip + size.setWidth 32, f⟩

def jump (q : Processor) (rel size : BitVec 8) : Processor :=
  ⟨q.regs, q.eip + size.setWidth 32 + rel.signExtend 32, q.flags⟩

variable (q : Processor) (r : Register) (v : BitVec 32) (f : X86Flags) (rel size : BitVec 8)

@[simp] theorem put_regs : (q.put r v f size).regs = Function.update q.regs r v := rfl

theorem put_self : (q.put r v f size).regs r = v := Function.update_self ..

@[simp] theorem put_eip : (q.put r v f size).eip = q.eip + size.setWidth 32 := rfl

@[simp] theorem put_flags : (q.put r v f size).flags = f := rfl

@[simp] theorem skip_regs : (q.skip f size).regs = q.regs := rfl

@[simp] theorem skip_eip : (q.skip f size).eip = q.eip + size.setWidth 32 := rfl

@[simp] theorem skip_flags : (q.skip f size).flags = f := rfl

@[simp] theorem jump_regs : (q.jump rel size).regs = q.regs := rfl

@[simp] theorem jump_eip :
    (q.jump rel size).eip = q.eip + size.setWidth 32 + rel.signExtend 32 := rfl

end Processor

namespace Core

def become (c : Core σ) (q : Processor) : Core σ := { c with processor := q }

@[simp] theorem become_processor (c : Core σ) (q : Processor) : (c.become q).processor = q := rfl

@[simp] theorem become_memory (c : Core σ) (q : Processor) : (c.become q).memory = c.memory := rfl

@[simp] theorem become_host (c : Core σ) (q : Processor) : (c.become q).host = c.host := rfl

end Core

/-- An instruction that succeeds and touches nothing but the processor. -/
def Pipeline.Computes (hv : Hypervisor σ) (p : Pipeline) (g : Processor → Processor) : Prop :=
  ∀ c : Core σ, Core.execute hv p c = .inl (c.become (g c.processor))

def flagsAfter (f : LogicFn) (p : Pipeline) (q : Processor) : X86Flags :=
  ((f.logic p).run (Core.machine ⟨q, default, ()⟩).vm).2.flags

variable (r r' : Register) (a a' : OpArgument) (size opcode : BitVec 8)

theorem mov_reg_computes : (instruction .mov ![regArg r, regArg r', a] size opcode).Computes hv
    fun q ↦ q.put r (q.regs r') q.flags size := fun _ ↦ rfl

theorem mov_imm_computes (v : BitVec 32) :
    (instruction .mov ![regArg r, dwordArg v, a] size opcode).Computes hv
      fun q ↦ q.put r v q.flags size := fun _ ↦ rfl

theorem add_reg_computes :
    let p := instruction .addNativeWord ![regArg r, regArg r', a] size opcode
    p.Computes hv fun q ↦ q.put r (q.regs r + q.regs r') (flagsAfter .addNativeWord p q) size :=
  fun _ ↦ rfl

theorem decrement_computes :
    let p := instruction .decrementNativeWord ![regArg r, a, a'] size opcode
    p.Computes hv fun q ↦ q.put r (q.regs r - 1) (flagsAfter .decrementNativeWord p q) size :=
  fun _ ↦ rfl

theorem decrement_zero (q : Processor) : (flagsAfter .decrementNativeWord
    (instruction .decrementNativeWord ![regArg r, a, a'] size opcode) q).zero =
      (q.regs r - 1 == 0) := by
  change ((q.regs r - 1).signExtend 32 == 0) = _
  rw [BitVec.signExtend_eq]

theorem cmp_imm_computes (v : BitVec 8) :
    let p := instruction .cmpNativeWord ![regArg r, byteArg v, a] size opcode
    p.Computes hv fun q ↦ q.skip (flagsAfter .cmpNativeWord p q) size := fun _ ↦ rfl

theorem cmp_imm_zero (v : BitVec 8) (q : Processor) : (flagsAfter .cmpNativeWord
    (instruction .cmpNativeWord ![regArg r, byteArg v, a] size opcode) q).zero =
      (q.regs r - v.signExtend 32 == 0) := rfl

theorem nop_computes (args : Fin 3 → OpArgument) :
    (instruction .nop args size opcode).Computes hv fun q ↦ q.skip q.flags size := fun _ ↦ rfl

theorem jmp_computes (rel : BitVec 8) :
    (instruction .jmpRel ![byteArg rel, a, a'] size opcode).Computes hv
      fun q ↦ q.jump rel size := by
  intro c
  have heip : ∀ x y z : BitVec 32, x + y + z - y + y = x + y + z := fun x y z ↦
    BitVec.sub_add_cancel _ _
  exact congrArg (fun e ↦ Sum.inl (c.become ⟨c.processor.regs, e, c.processor.flags⟩)) (heip _ _ _)

theorem jcc_computes (rel : BitVec 8) :
    (instruction .jcc ![byteArg rel, a, a'] size opcode).Computes hv fun q ↦
      if Operations.ccMatches opcode q.flags then q.jump rel size else q.skip q.flags size := by
  intro c
  have hflags : c.machine.vm.flags = c.processor.flags := rfl
  have hjmp : Core.execute hv _ c = _ := jmp_computes a a' size opcode rel c
  simp only [Core.execute, instruction, OpcodeFn.call_logic, LogicFn.logic] at hjmp
  simp only [Core.execute, instruction, OpcodeFn.call_logic, LogicFn.logic, Operations.jcc,
    Op.run_bind, Op.run_flags, Op.runBind, Op.run_ite, hflags]
  by_cases hcc : Operations.ccMatches opcode c.processor.flags = true
  · rw [if_pos hcc, if_pos hcc]
    exact hjmp
  · rw [if_neg hcc, if_neg hcc]
    rfl

theorem execute_int {v : BitVec 8} {p : Pipeline} (hf : p.function = .opcode .interrupt)
    (hp : p.args 0 = byteArg v) {c : Core σ} {vm : VM} {s : σ}
    (h : hv.interrupt c.machine.vm v c.host = (.ok (), vm, s)) :
    Core.execute hv p c = .inl (Machine.core (Machine.advance ⟨vm, s⟩ p.eipSize)) := by
  have hcall : OpcodeFn.interrupt.call hv p c.machine = (.ok (), ⟨vm, s⟩) := by
    have hnum : c.machine.vm.getArg (p.args 0).location >>= SizedValue.u8Exact = .ok v := by
      rw [hp]
      rfl
    simp only [OpcodeFn.call, hnum]
    change (Outcome.ofExcept (hv.interrupt c.machine.vm v c.host).1,
      (⟨(hv.interrupt c.machine.vm v c.host).2.1, (hv.interrupt c.machine.vm v c.host).2.2⟩ :
        Machine σ)) = _
    rw [h]
    rfl
  simp only [Core.execute, hf, hcall]
  rfl

end Instructions

section Steps

structure Core.At (m₀ : MemorySystem) (s : σ) (a : BitVec 32) (P : Processor → Prop)
    (c : Core σ) : Prop where
  memory : c.memory = m₀
  host : c.host = s
  eip : c.processor.eip = a
  holds : P c.processor

variable {vm₀ : VM} {l : List (BitVec 32 × Pipeline)} {s : σ} {a b : BitVec 32} {p : Pipeline}
  {P Q : Processor → Prop} {g : Processor → Processor}

theorem Core.At.become {m₀ : MemorySystem} {c : Core σ} (h : c.At m₀ s a P) {q : Processor}
    (hb : q.eip = b) (hQ : Q q) : (c.become q).At m₀ s b Q :=
  ⟨h.memory, h.host, hb, hQ⟩

variable (hl : vm₀.Lists l)

include hl

theorem Core.At.lists {c : Core σ} (h : c.At vm₀.memory s a P) : c.machine.vm.Lists l := by
  refine hl.congr fun e _ ↦ ?_
  rw [← h.memory]
  rfl

variable (he : (a, p) ∈ l)

include he

theorem Core.At.listed {c : Core σ} (h : c.At vm₀.memory s a P) : c.Listed l :=
  ⟨h.lists hl, (a, p), he, h.eip.symm⟩

/-- The rule for an instruction that touches nothing but the processor. -/
theorem leads_computes (hg : p.Computes hv g) {T : Core σ → Prop}
    (hT : ∀ c : Core σ, c.At vm₀.memory s a P → T (c.become (g c.processor))) :
    Leads (Core.step hv) (Core.Listed l) (Core.At vm₀.memory s a P) T := by
  refine .of_step fun c hc ↦ ⟨hc.listed hl he, _, ?_, hT c hc⟩
  rw [Core.Listed.step_eq (hc.lists hl) he hc.eip]
  exact hg c

theorem leads_at (hg : p.Computes hv g)
    (hb : ∀ q, q.eip = a → P q → (g q).eip = b ∧ Q (g q)) :
    Leads (Core.step hv) (Core.Listed l) (Core.At vm₀.memory s a P) (Core.At vm₀.memory s b Q) :=
  leads_computes hl he hg fun c hc ↦
    let ⟨hb, hQ⟩ := hb c.processor hc.eip hc.holds
    hc.become hb hQ

theorem leads_back (hg : p.Computes hv g) (hb : ∀ q, q.eip = a → (g q).eip = b) :
    Leads (Core.step hv) (Core.Listed l) (Core.At vm₀.memory s a fun q ↦ Q (g q))
      (Core.At vm₀.memory s b Q) :=
  leads_at hl he hg fun q hq hQ ↦ ⟨hb q hq, hQ⟩

end Steps

end Qx86
