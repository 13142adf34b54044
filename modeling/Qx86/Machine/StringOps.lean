import Qx86.Machine.Accesses
import Qx86.Machine.Logic

namespace Qx86

open Foundation Bytes Op Register

inductive ElementWidth where
  | byte | word | dword
  deriving DecidableEq

namespace ElementWidth

def operand : ElementWidth → OperandWidth
  | byte => width8
  | word => width16
  | dword => width32

def bytes : ElementWidth → ℕ
  | byte => 1
  | word => 2
  | dword => 4

def step (w : ElementWidth) : BitVec 32 := BitVec.ofNat 32 w.bytes

theorem bytes_pos (w : ElementWidth) : 0 < w.bytes := by
  cases w <;> decide

theorem bits_eq (w : ElementWidth) : w.operand.bits = 8 * w.bytes := by
  cases w <;> rfl

theorem bits_pos (w : ElementWidth) : 0 < w.operand.bits := by
  cases w <;> decide

end ElementWidth

/-- The functions that a REP prefix repeats, apart from their width. -/
inductive StringOp where
  | movs | cmps | storeString | loadString | scanString
  deriving DecidableEq

namespace StringOp

def op (k : StringOp) (w : ElementWidth) : Op .straight Unit :=
  match k with
  | movs => Operations.movs w.operand w.step
  | cmps => Operations.cmps w.operand w.step
  | storeString => Operations.storeString w.operand w.step
  | loadString => Operations.loadString w.operand w.step
  | scanString => Operations.scanString w.operand w.step

def compares : StringOp → Bool
  | cmps | scanString => true
  | movs | storeString | loadString => false

end StringOp

namespace VM

variable (w : ElementWidth)

def element (vm : VM) (a : BitVec 32) : Except VMError (BitVec w.operand.bits) :=
  vm.getMem a w.operand.size >>= w.operand.exact

def setElement (vm : VM) (a : BitVec 32) (v : BitVec w.operand.bits) : Except VMError VM :=
  vm.setMem a (w.operand.sized v)

def accumulator (vm : VM) : BitVec w.operand.bits :=
  match w with
  | .byte => vm.reg8 eax
  | .word => vm.reg16 eax
  | .dword => vm.reg32 eax

def stride (vm : VM) : BitVec 32 := if vm.flags.direction then -w.step else w.step

def advance (vm : VM) (d : BitVec 32) (rs : List Register) : VM :=
  rs.foldl (fun vm r ↦ vm.setReg32 r (vm.regs r + d)) vm

def compared (vm : VM) (a b : BitVec w.operand.bits) : VM :=
  { vm with flags := Operations.subtractFlags w.operand a b vm.flags }

end VM

section Run

variable (w : ElementWidth) (vm : VM)

theorem accumulator_eq : vm.getReg eax w.operand.size = w.operand.sized (vm.accumulator w) := by
  cases w <;> rfl

theorem exact_sized (v : BitVec w.operand.bits) : w.operand.exact (w.operand.sized v) = .ok v := by
  cases w <;> rfl

theorem compared_stride (a b : BitVec w.operand.bits) :
    (vm.compared w a b).stride w = vm.stride w := by
  cases w <;> rfl

theorem movs_run : (StringOp.movs.op w).run vm =
    match vm.element w (vm.regs esi) >>= vm.setElement w (vm.regs edi) with
    | .ok vm' => (.ok (), vm'.advance (vm'.stride w) [edi, esi])
    | .error e => (.err e, vm) := by
  change (Operations.movs w.operand w.step).run vm = _
  simp only [Operations.movs, run_bind, run_reg32, runBind_ok, run_getMemAs]
  change runBind (.ofExcept (vm.element w (vm.regs esi)), vm) _ = _
  cases vm.element w (vm.regs esi) with
  | error e => rfl
  | ok v =>
    simp only [Outcome.ofExcept_ok, runBind_ok, run_setMem, run_bind]
    change runBind (storeResult vm (vm.setElement w (vm.regs edi) v)) _ = match
      vm.setElement w (vm.regs edi) v with | .ok vm' => _ | .error e => _
    cases vm.setElement w (vm.regs edi) v <;> rfl

theorem cmps_run : (StringOp.cmps.op w).run vm =
    match vm.element w (vm.regs esi), vm.element w (vm.regs edi) with
    | .ok a, .ok b => (.ok (), (vm.compared w a b).advance (vm.stride w) [edi, esi])
    | .error e, _ => (.err e, vm)
    | .ok _, .error e => (.err e, vm) := by
  change (Operations.cmps w.operand w.step).run vm = _
  simp only [Operations.cmps, run_bind, run_reg32, runBind_ok, run_getMemAs]
  change runBind (.ofExcept (vm.element w (vm.regs esi)), vm) _ = _
  cases vm.element w (vm.regs esi) with
  | error e => rfl
  | ok a =>
    simp only [Outcome.ofExcept_ok, runBind_ok, run_bind, run_reg32, run_getMemAs]
    change runBind (.ofExcept (vm.element w (vm.regs edi)), vm) _ = _
    cases vm.element w (vm.regs edi) with
    | error e => rfl
    | ok b =>
      rw [← compared_stride w vm a b]
      rfl

theorem storeString_run : (StringOp.storeString.op w).run vm =
    match vm.setElement w (vm.regs edi) (vm.accumulator w) with
    | .ok vm' => (.ok (), vm'.advance (vm'.stride w) [edi])
    | .error e => (.err e, vm) := by
  change (Operations.storeString w.operand w.step).run vm = _
  simp only [Operations.storeString, run_bind, run_reg32, runBind_ok, run_getReg,
    accumulator_eq, run_setMem]
  change runBind (storeResult vm (vm.setElement w (vm.regs edi) (vm.accumulator w))) _ = _
  cases vm.setElement w (vm.regs edi) (vm.accumulator w) <;> rfl

theorem loadString_run : (StringOp.loadString.op w).run vm =
    match vm.element w (vm.regs esi) with
    | .ok v =>
      let vm' := vm.setReg eax (w.operand.sized v)
      (.ok (), vm'.advance (vm'.stride w) [esi])
    | .error e => (.err e, vm) := by
  change (Operations.loadString w.operand w.step).run vm = _
  simp only [Operations.loadString, run_bind, run_reg32, runBind_ok, run_getMemAs]
  change runBind (.ofExcept (vm.element w (vm.regs esi)), vm) _ = _
  cases vm.element w (vm.regs esi) <;> rfl

theorem scanString_run : (StringOp.scanString.op w).run vm =
    match vm.element w (vm.regs edi) with
    | .ok b => (.ok (), (vm.compared w (vm.accumulator w) b).advance (vm.stride w) [edi])
    | .error e => (.err e, vm) := by
  change (Operations.scanString w.operand w.step).run vm = _
  simp only [Operations.scanString, run_bind, run_reg32, runBind_ok, run_getMemAs]
  change runBind (.ofExcept (vm.element w (vm.regs edi)), vm) _ = _
  cases vm.element w (vm.regs edi) with
  | error e => rfl
  | ok b =>
    simp only [Outcome.ofExcept_ok, runBind_ok, run_bind, run_getReg, accumulator_eq,
      run_ofExcept, exact_sized]
    rw [← compared_stride w vm (vm.accumulator w) b]
    rfl

end Run

namespace VM

/-- The machine with other values in the two fields that no string function looks at. -/
def book (vm : VM) (g : BitVec 64) (e : BitVec 32) : VM :=
  { vm with gasRemaining := g, errorEip := e }

variable {w : ElementWidth} {vm vm' : VM} {a : BitVec 32}

theorem setMem_ok {v : SizedValue} (h : vm.setMem a v = .ok vm') :
    ¬a < WRITEABLE_MEMORY ∧ ∃ m, vm.memory.setSized a v = .ok m ∧
      vm' = { vm with memory := m } := by
  unfold setMem at h
  by_cases ha : a &&& 0x80000000 = 0
  · rw [if_pos ha] at h
    cases h
  · rw [if_neg ha] at h
    obtain ⟨m, hm, rfl⟩ := map_eq_ok.mp h
    rw [Words.topBit_eq_zero] at ha
    exact ⟨ha, m, hm, rfl⟩

theorem setMem_book (v : SizedValue) (g : BitVec 64) (e : BitVec 32) :
    (vm.book g e).setMem a v = (·.book g e) <$> vm.setMem a v := by
  unfold setMem
  split
  · rfl
  · change _ <$> vm.memory.setSized a v = _
    rw [Functor.map_map]
    rfl

theorem element_book (g : BitVec 64) (e : BitVec 32) :
    (vm.book g e).element w a = vm.element w a := by
  cases w <;> rfl

theorem setReg32_self (vm : VM) (r : Register) (v : BitVec 32) : (vm.setReg32 r v).regs r = v :=
  Function.update_self ..

theorem setReg32_of_ne {r r' : Register} (h : r' ≠ r) (vm : VM) (v : BitVec 32) :
    (vm.setReg32 r v).regs r' = vm.regs r' := Function.update_of_ne h ..

theorem advance_book (d : BitVec 32) (rs : List Register) (g : BitVec 64) (e : BitVec 32) :
    (vm.book g e).advance d rs = (vm.advance d rs).book g e := by
  induction rs generalizing vm with
  | nil => rfl
  | cons r rs ih => exact @ih (vm.setReg32 r (vm.regs r + d))

theorem advance_of_notMem (d : BitVec 32) {rs : List Register} {r : Register} (h : r ∉ rs) :
    (vm.advance d rs).regs r = vm.regs r := by
  induction rs generalizing vm with
  | nil => rfl
  | cons r' rs ih =>
    rw [List.mem_cons, not_or] at h
    exact (@ih (vm.setReg32 r' (vm.regs r' + d)) h.2).trans (setReg32_of_ne h.1 vm _)

theorem setReg_book (r : Register) (v : SizedValue) (g : BitVec 64) (e : BitVec 32) :
    (vm.book g e).setReg r v = (vm.setReg r v).book g e := by
  cases v with
  | byte v =>
    simp only [setReg]
    split <;> rfl
  | none | word | dword | qword => rfl

theorem setReg_eax (v : BitVec w.operand.bits) {r : Register} (h : r ≠ eax) :
    (vm.setReg eax (w.operand.sized v)).regs r = vm.regs r := by
  cases w <;> exact Function.update_of_ne h _ _

end VM

namespace StringOp

variable {k : StringOp} {w : ElementWidth} {vm vm' : VM}

theorem op_ecx (h : (k.op w).run vm = (.ok (), vm')) : vm'.regs ecx = vm.regs ecx := by
  cases k with
  | movs =>
    rw [movs_run] at h
    cases hv : vm.element w (vm.regs esi) >>= vm.setElement w (vm.regs edi) with
    | error e =>
      rw [hv] at h
      cases h
    | ok vm₁ =>
      rw [hv] at h
      cases h
      obtain ⟨v, -, hset⟩ := except_bind_eq_ok.mp hv
      obtain ⟨-, m, -, rfl⟩ := VM.setMem_ok hset
      exact VM.advance_of_notMem _ (by decide)
  | cmps =>
    rw [cmps_run] at h
    split at h <;> cases h
    exact VM.advance_of_notMem _ (by decide)
  | storeString =>
    rw [storeString_run] at h
    cases hv : vm.setElement w (vm.regs edi) (vm.accumulator w) with
    | error e =>
      rw [hv] at h
      cases h
    | ok vm₁ =>
      rw [hv] at h
      cases h
      obtain ⟨-, m, -, rfl⟩ := VM.setMem_ok hv
      exact VM.advance_of_notMem _ (by decide)
  | loadString =>
    rw [loadString_run] at h
    split at h <;> cases h
    exact (VM.advance_of_notMem _ (by decide)).trans (VM.setReg_eax _ (by decide))
  | scanString =>
    rw [scanString_run] at h
    split at h <;> cases h
    exact VM.advance_of_notMem _ (by decide)

theorem op_book (g : BitVec 64) (e : BitVec 32) :
    (k.op w).run (vm.book g e) = (((k.op w).run vm).1, ((k.op w).run vm).2.book g e) := by
  cases k with
  | movs =>
    have hb : (vm.book g e).element w (vm.regs esi) >>= (vm.book g e).setElement w (vm.regs edi) =
        (·.book g e) <$> (vm.element w (vm.regs esi) >>= vm.setElement w (vm.regs edi)) := by
      rw [VM.element_book]
      cases vm.element w (vm.regs esi) with
      | error => rfl
      | ok v => exact VM.setMem_book ..
    rw [movs_run, movs_run]
    change (match (vm.book g e).element w (vm.regs esi) >>=
      (vm.book g e).setElement w (vm.regs edi) with | .ok vm' => _ | .error e => _) = _
    rw [hb]
    cases vm.element w (vm.regs esi) >>= vm.setElement w (vm.regs edi) with
    | error => rfl
    | ok vm₁ => exact congrArg (Prod.mk _) (VM.advance_book ..)
  | cmps =>
    rw [cmps_run, cmps_run, VM.element_book, VM.element_book]
    change (match vm.element w (vm.regs esi), vm.element w (vm.regs edi) with
      | .ok a, .ok b => _ | .error e, _ => _ | .ok _, .error e => _) = _
    cases vm.element w (vm.regs esi) with
    | error => rfl
    | ok a => cases vm.element w (vm.regs edi) <;> rfl
  | storeString =>
    have hb : (vm.book g e).setElement w (vm.regs edi) ((vm.book g e).accumulator w) =
        (·.book g e) <$> vm.setElement w (vm.regs edi) (vm.accumulator w) := by
      have hacc : (vm.book g e).accumulator w = vm.accumulator w := by
        cases w <;> rfl
      rw [hacc]
      exact VM.setMem_book ..
    rw [storeString_run, storeString_run]
    change (match (vm.book g e).setElement w (vm.regs edi) ((vm.book g e).accumulator w) with
      | .ok vm' => _ | .error e => _) = _
    rw [hb]
    cases vm.setElement w (vm.regs edi) (vm.accumulator w) with
    | error => rfl
    | ok vm₁ => exact congrArg (Prod.mk _) (VM.advance_book ..)
  | loadString =>
    rw [loadString_run, loadString_run, VM.element_book]
    change (match vm.element w (vm.regs esi) with | .ok v => _ | .error e => _) = _
    cases vm.element w (vm.regs esi) with
    | error => rfl
    | ok v =>
      simp only [VM.setReg_book]
      exact congrArg (Prod.mk _) (VM.advance_book ..)
  | scanString =>
    rw [scanString_run, scanString_run, VM.element_book]
    change (match vm.element w (vm.regs edi) with | .ok b => _ | .error e => _) = _
    have hacc : (vm.book g e).accumulator w = vm.accumulator w := by
      cases w <;> rfl
    rw [hacc]
    cases vm.element w (vm.regs edi) <;> rfl

theorem op_ne_panic : ((k.op w).run vm).1 ≠ .panic := (k.op w).total rfl vm

end StringOp

end Qx86
