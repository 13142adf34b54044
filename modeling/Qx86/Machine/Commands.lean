import Qx86.Foundation.Simulation
import Qx86.Machine.Logic
import Qx86.Machine.Widths

namespace Qx86

open Foundation

/-- What a logic function may use without an access to memory. -/
@[ext] structure Processor where
  regs : Register → BitVec 32
  eip : BitVec 32
  flags : X86Flags

namespace VM

def processor (vm : VM) : Processor := ⟨vm.regs, vm.eip, vm.flags⟩

def withProcessor (vm : VM) (q : Processor) : VM :=
  { vm with regs := q.regs, eip := q.eip, flags := q.flags }

@[simp] theorem withProcessor_processor (vm : VM) : vm.withProcessor vm.processor = vm := rfl

@[simp] theorem withProcessor_memory (vm : VM) (q : Processor) :
    (vm.withProcessor q).memory = vm.memory := rfl

@[simp] theorem processor_withProcessor (vm : VM) (q : Processor) :
    (vm.withProcessor q).processor = q := rfl

end VM

namespace VMError

def isRaised : VMError → Bool
  | .divideByZero | .invalidOpcode _ | .wrongSizeExpectation | .tooBigSizeExpectation
  | .internalVMStop | .invalidOpcodeEncoding => true
  | _ => false

end VMError

namespace SizedValue

variable {α : Type}

/-- A conversion that fails, if it does, because of the width. -/
class Converts (conv : SizedValue → Except VMError α) : Prop where
  error : ∀ v x, conv v = .error x → x.isWidth = true

instance converts_u64Exact : Converts u64Exact := ⟨by rintro (_ | _ | _ | _ | _) x ⟨⟩ <;> rfl⟩

instance converts_u32Exact : Converts u32Exact := ⟨by rintro (_ | _ | _ | _ | _) x ⟨⟩ <;> rfl⟩

instance converts_u16Exact : Converts u16Exact := ⟨by rintro (_ | _ | _ | _ | _) x ⟨⟩ <;> rfl⟩

instance converts_u8Exact : Converts u8Exact := ⟨by rintro (_ | _ | _ | _ | _) x ⟨⟩ <;> rfl⟩

instance converts_u32Zx : Converts u32Zx := ⟨by rintro (_ | _ | _ | _ | _) x ⟨⟩; rfl⟩

instance converts_u16Zx : Converts u16Zx := ⟨by rintro (_ | _ | _ | _ | _) x ⟨⟩ <;> rfl⟩

instance converts_u32Sx : Converts u32Sx := ⟨by rintro (_ | _ | _ | _ | _) x ⟨⟩; rfl⟩

instance converts_u16Sx : Converts u16Sx := ⟨by rintro (_ | _ | _ | _ | _) x ⟨⟩ <;> rfl⟩

instance converts_convertSizeZx (s : ValueSize) : Converts (·.convertSizeZx s) where
  error v x h := by
    cases s with
    | none | qword => cases h; rfl
    | byte => exact Converts.error v x (map_eq_error.mp h)
    | word => exact Converts.error v x (map_eq_error.mp h)
    | dword => exact Converts.error v x (map_eq_error.mp h)

end SizedValue

namespace OperandWidth

/-- The conversions of a width fail only because of the width. -/
class Converts (w : OperandWidth) : Prop where
  exact : SizedValue.Converts w.exact
  extended : SizedValue.Converts w.extended

attribute [instance] Converts.exact Converts.extended

instance converts_width8 : width8.Converts :=
  ⟨inferInstanceAs (SizedValue.Converts SizedValue.u8Exact),
    inferInstanceAs (SizedValue.Converts SizedValue.u8Exact)⟩

instance converts_width16 : width16.Converts :=
  ⟨inferInstanceAs (SizedValue.Converts SizedValue.u16Exact),
    inferInstanceAs (SizedValue.Converts SizedValue.u16Sx)⟩

instance converts_width32 : width32.Converts :=
  ⟨inferInstanceAs (SizedValue.Converts SizedValue.u32Exact),
    inferInstanceAs (SizedValue.Converts SizedValue.u32Sx)⟩

end OperandWidth

namespace Op

open SizedValue

variable {e : Effects} {α β : Type} {P : VMError → Prop} {c c' : Op e α}

theorem ext_run (h : ∀ vm, c.run vm = c'.run vm) : c = c' := by
  cases c
  cases c'
  cases funext h
  rfl

/-- Computations made of steps of the processor, which raise the errors that are allowed,
and of loads and stores. -/
class inductive Composed (P : VMError → Prop) : {e : Effects} → {α : Type} → Op e α → Prop
  | processor {e : Effects} {α : Type} (c : Op e α)
      (g : Processor → Outcome VMError α × Processor)
      (hc : ∀ vm, c.run vm = ((g vm.processor).1, vm.withProcessor (g vm.processor).2))
      (hP : ∀ q x, (g q).1 = .err x → P x) : Composed P c
  | load {e : Effects} (c : Op e SizedValue) (a : BitVec 32) (s : ValueSize)
      (hc : ∀ vm, c.run vm = (.ofExcept (vm.getMem a s), vm)) : Composed P c
  | store {e : Effects} (c : Op e Unit) (a : BitVec 32) (v : SizedValue)
      (hc : ∀ vm, c.run vm = storeResult vm (vm.setMem a v)) : Composed P c
  | bind {e : Effects} {α β : Type} (c : Op e α) (f : α → Op e β) (hc : Composed P c)
      (hf : ∀ a, Composed P (f a)) : Composed P (c >>= f)

theorem Composed.throws (h : Composed P c) : Throws (fun x ↦ P x ∨ x.isMemory = true) c := by
  induction h with
  | processor c g hc hP =>
    intro vm x hx
    rw [hc] at hx
    exact .inl (hP _ x hx)
  | load c a s hc =>
    intro vm x hx
    rw [hc] at hx
    exact .inr (VM.getMem_error (Outcome.ofExcept_eq_err.mp hx))
  | store c a v hc =>
    intro vm x hx
    rw [hc] at hx
    cases hm : vm.setMem a v with
    | ok vm' =>
      rw [hm] at hx
      cases hx
    | error y =>
      rw [hm] at hx
      cases hx
      exact .inr (VM.setMem_error hm)
  | bind c f hc hf ihc ihf => exact ihc.bind ihf

/-- Relations between machines that the steps of a computation keep. -/
structure Keeps (R : VM → VM → Prop) (excused : VMError → Prop) : Prop where
  processor {vm vm' : VM} : R vm vm' → vm.processor = vm'.processor
  withProcessor {vm vm' : VM} (q : Processor) : R vm vm' →
    R (vm.withProcessor q) (vm'.withProcessor q)
  load {vm vm' : VM} (a : BitVec 32) (s : ValueSize) : R vm vm' →
    (∃ x, vm.getMem a s = .error x ∧ excused x) ∨ vm.getMem a s = vm'.getMem a s
  store {vm vm' : VM} (a : BitVec 32) (v : SizedValue) : R vm vm' →
    Agrees R excused (storeResult vm (vm.setMem a v)) (storeResult vm' (vm'.setMem a v))

def Respects (R : VM → VM → Prop) (excused : VMError → Prop) (c : Op e α) : Prop :=
  ∀ vm vm', R vm vm' → Agrees R excused (c.run vm) (c.run vm')

theorem Composed.respects {R : VM → VM → Prop} {excused : VMError → Prop} (h : Composed P c)
    (hR : Keeps R excused) : Respects R excused c := by
  induction h with
  | processor c g hc hP =>
    intro vm vm' h
    rw [hc, hc, hR.processor h]
    exact .same (hR.withProcessor _ h)
  | load c a s hc =>
    intro vm vm' h
    rw [hc, hc]
    obtain ⟨x, hx, he⟩ | hl := hR.load a s h
    · rw [hx]
      exact .excuse he
    · rw [hl]
      exact .same h
  | store c a v hc =>
    intro vm vm' h
    rw [hc, hc]
    exact hR.store a v h
  | bind c f hc hf ihc ihf =>
    intro vm vm' h
    have hx := ihc vm vm' h
    rw [run_bind, run_bind]
    rcases hr : c.run vm with ⟨o, vm₁⟩
    rcases hr' : c.run vm' with ⟨o', vm₁'⟩
    rw [hr, hr'] at hx
    obtain ⟨x, hx, he⟩ | ⟨ho, hvm⟩ := hx
    · cases hx
      exact .excuse he
    · cases ho
      cases o with
      | ok a => exact ihf a vm₁ vm₁' hvm
      | err x | panic => exact .same hvm

end Op

end Qx86
