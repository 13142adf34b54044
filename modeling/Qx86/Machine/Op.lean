import Qx86.Machine.Slot

namespace Qx86

open Foundation

/-- Whether a logic function may move `eip`, and whether it may unwind. -/
structure Effects where
  jumps : Bool
  panics : Bool
  deriving DecidableEq

namespace Effects

def straight : Effects := ⟨false, false⟩
def jump : Effects := ⟨true, false⟩
def division : Effects := ⟨false, true⟩

end Effects

/-- The body of a logic function: a step on the machine that keeps the frame,
touches `eip` and unwinds only where its effects allow, and cannot see the gas. -/
structure Op (e : Effects) (α : Type) where
  run : VM → Outcome VMError α × VM
  frame : ∀ vm : VM, vm.Frame (run vm).2
  eip : e.jumps = false → ∀ vm : VM, (run vm).2.eip = vm.eip
  total : e.panics = false → ∀ vm : VM, (run vm).1 ≠ .panic
  oblivious : ∀ (vm : VM) (g : BitVec 64), run (vm.setGas g) = ((run vm).1, (run vm).2.setGas g)

namespace Op

variable {e : Effects} {α β : Type}

protected def pure (a : α) : Op e α where
  run vm := (.ok a, vm)
  frame := .refl
  eip _ _ := rfl
  total _ _ := nofun
  oblivious _ _ := rfl

def runBind (x : Outcome VMError α × VM) (f : α → VM → Outcome VMError β × VM) :
    Outcome VMError β × VM :=
  match x with
  | (.ok a, vm) => f a vm
  | (.err e, vm) => (.err e, vm)
  | (.panic, vm) => (.panic, vm)

@[simp] theorem runBind_ok (a : α) (vm : VM) (f : α → VM → Outcome VMError β × VM) :
    runBind (.ok a, vm) f = f a vm := rfl

@[simp] theorem runBind_err (x : VMError) (vm : VM) (f : α → VM → Outcome VMError β × VM) :
    runBind (.err x, vm) f = (.err x, vm) := rfl

@[simp] theorem runBind_panic (vm : VM) (f : α → VM → Outcome VMError β × VM) :
    runBind (.panic, vm) f = (.panic, vm) := rfl

protected def bind (c : Op e α) (f : α → Op e β) : Op e β where
  run vm := runBind (c.run vm) fun a ↦ (f a).run
  frame vm := by
    have h := c.frame vm
    rcases hc : c.run vm with ⟨a | x | _, vm'⟩ <;> rw [hc] at h
    · exact h.trans ((f a).frame vm')
    · exact h
    · exact h
  eip he vm := by
    have h := c.eip he vm
    rcases hc : c.run vm with ⟨a | x | _, vm'⟩ <;> rw [hc] at h
    · exact ((f a).eip he vm').trans h
    · exact h
    · exact h
  total he vm := by
    have h := c.total he vm
    rcases hc : c.run vm with ⟨a | x | _, vm'⟩ <;> rw [hc] at h
    · exact (f a).total he vm'
    · simp
    · exact absurd rfl h
  oblivious vm g := by
    rw [c.oblivious]
    rcases hc : c.run vm with ⟨a | x | _, vm'⟩
    · exact (f a).oblivious vm' g
    · rfl
    · rfl

instance : Monad (Op e) where
  pure := Op.pure
  bind := Op.bind

@[simp] theorem run_pure (a : α) (vm : VM) : (pure a : Op e α).run vm = (.ok a, vm) := rfl

@[simp] theorem run_bind (c : Op e α) (f : α → Op e β) (vm : VM) :
    (c >>= f).run vm = runBind (c.run vm) fun a ↦ (f a).run := rfl

def throw (x : VMError) : Op e α where
  run vm := (.err x, vm)
  frame := .refl
  eip _ _ := rfl
  total _ _ := nofun
  oblivious _ _ := rfl

def read (f : VM → Except VMError α) (hf : ∀ vm g, f (vm.setGas g) = f vm) : Op e α where
  run vm := (.ofExcept (f vm), vm)
  frame := .refl
  eip _ _ := rfl
  total _ vm := Outcome.ofExcept_ne_panic _
  oblivious vm g := by rw [hf]

def ofExcept (x : Except VMError α) : Op e α := read (fun _ ↦ x) fun _ _ ↦ rfl

def storeResult (vm : VM) : Except VMError VM → Outcome VMError Unit × VM
  | .ok vm' => (.ok (), vm')
  | .error x => (.err x, vm)

def store (f : VM → Except VMError VM)
    (hf : ∀ vm vm', f vm = .ok vm' → vm.Frame vm' ∧ vm'.eip = vm.eip)
    (hg : ∀ vm g, f (vm.setGas g) = (·.setGas g) <$> f vm) : Op e Unit where
  run vm := storeResult vm (f vm)
  frame vm := by
    cases h : f vm with
    | error x => exact .refl _
    | ok vm' => exact (hf vm vm' h).1
  eip _ vm := by
    cases h : f vm with
    | error x => rfl
    | ok vm' => exact (hf vm vm' h).2
  total _ vm := by cases f vm <;> simp [storeResult]
  oblivious vm g := by rw [hg]; cases f vm <;> rfl

def getArg (loc : ArgLocation) : Op e SizedValue :=
  read (·.getArg loc) fun _ _ ↦ VM.getArg_setGas ..

/-- `vm.get_arg(location)?` followed by one of the unwrapping conversions. -/
def getArgAs (conv : SizedValue → Except VMError α) (loc : ArgLocation) : Op e α :=
  read (fun vm ↦ vm.getArg loc >>= conv) fun _ _ ↦ by rw [VM.getArg_setGas]

def getArgLea (loc : ArgLocation) : Op e (BitVec 32) :=
  read (·.getArgLea loc) fun _ _ ↦ VM.getArgLea_setGas ..

def getMemAs (conv : SizedValue → Except VMError α) (a : BitVec 32) (s : ValueSize) : Op e α :=
  read (fun vm ↦ vm.getMem a s >>= conv) fun _ _ ↦ by rw [VM.getMem_setGas]

def getReg (r : Register) (s : ValueSize) : Op e SizedValue :=
  read (fun vm ↦ .ok (vm.getReg r s)) fun _ _ ↦ by rw [VM.getReg_setGas]

def reg8 (r : Register) : Op e (BitVec 8) := read (fun vm ↦ .ok (vm.reg8 r)) fun _ _ ↦ rfl
def reg16 (r : Register) : Op e (BitVec 16) := read (fun vm ↦ .ok (vm.reg16 r)) fun _ _ ↦ rfl
def reg32 (r : Register) : Op e (BitVec 32) := read (fun vm ↦ .ok (vm.reg32 r)) fun _ _ ↦ rfl

def flags : Op e X86Flags := read (fun vm ↦ .ok vm.flags) fun _ _ ↦ rfl

def eipValue : Op e (BitVec 32) := read (fun vm ↦ .ok vm.eip) fun _ _ ↦ rfl

def setArg (loc : ArgLocation) (v : SizedValue) : Op e Unit :=
  store (·.setArg loc v) (fun _ _ ↦ VM.setArg_frame) fun _ _ ↦ VM.setArg_setGas ..

def setMem (a : BitVec 32) (v : SizedValue) : Op e Unit :=
  store (·.setMem a v) (fun _ _ ↦ VM.setMem_frame) fun _ _ ↦ VM.setMem_setGas ..

def setReg (r : Register) (v : SizedValue) : Op e Unit where
  run vm := (.ok (), vm.setReg r v)
  frame _ := VM.setReg_frame ..
  eip _ _ := VM.setReg_eip ..
  total _ _ := nofun
  oblivious _ _ := by rw [VM.setReg_setGas]

def setReg32 (r : Register) (v : BitVec 32) : Op e Unit := setReg r (.dword v)

def modifyFlags (f : X86Flags → X86Flags) : Op e Unit where
  run vm := (.ok (), { vm with flags := f vm.flags })
  frame _ := ⟨.refl _, rfl, rfl, rfl⟩
  eip _ _ := rfl
  total _ _ := nofun
  oblivious _ _ := rfl

def setEip (a : BitVec 32) : Op .jump Unit where
  run vm := (.ok (), { vm with eip := a })
  frame _ := ⟨.refl _, rfl, rfl, rfl⟩
  eip h := nomatch h
  total _ _ := nofun
  oblivious _ _ := rfl

/-- Native signed division unwinds when the quotient does not fit. -/
def unwindIf (b : Bool) : Op .division Unit where
  run vm := (if b then .panic else .ok (), vm)
  frame := .refl
  eip _ _ := rfl
  total h := nomatch h
  oblivious _ _ := rfl

def pop16 : Op e SizedValue := do
  let esp ← reg32 .esp
  setReg32 .esp (esp + 2)
  read (·.getMem esp .word) fun _ _ ↦ VM.getMem_setGas ..

def pop32 : Op e SizedValue := do
  let esp ← reg32 .esp
  setReg32 .esp (esp + 4)
  read (·.getMem esp .dword) fun _ _ ↦ VM.getMem_setGas ..

def pushStack (val : SizedValue) (p : Pipeline) : Op e Unit := do
  let esp ← reg32 .esp
  if p.sizeOverride then
    setReg32 .esp (esp - 2)
    let v ← ofExcept val.u16Zx
    setMem (esp - 2) (.word v)
  else
    setReg32 .esp (esp - 4)
    let v ← ofExcept val.u32Zx
    setMem (esp - 4) (.dword v)

def times : ℕ → Op e Unit → Op e Unit
  | 0, _ => pure ()
  | n + 1, c => do c; times n c

theorem runBind_eq_ok {r : Outcome VMError α × VM} {f : α → VM → Outcome VMError β × VM} {b : β}
    {vm' : VM} : runBind r f = (.ok b, vm') ↔
      ∃ a vm₁, r = (.ok a, vm₁) ∧ f a vm₁ = (.ok b, vm') := by
  rcases r with ⟨a | x | _, vm₁⟩ <;> simp

theorem run_bind_ok {c : Op e α} {f : α → Op e β} {vm vm' : VM} {b : β} :
    (c >>= f).run vm = (.ok b, vm') ↔
      ∃ a vm₁, c.run vm = (.ok a, vm₁) ∧ (f a).run vm₁ = (.ok b, vm') := runBind_eq_ok

section run

variable (vm : VM)

@[simp] theorem run_throw (x : VMError) : (throw x : Op e α).run vm = (.err x, vm) := rfl

@[simp] theorem run_read (f : VM → Except VMError α) (hf) :
    (read f hf : Op e α).run vm = (.ofExcept (f vm), vm) := rfl

@[simp] theorem run_ofExcept (x : Except VMError α) :
    (ofExcept x : Op e α).run vm = (.ofExcept x, vm) := rfl

@[simp] theorem run_getArg (loc : ArgLocation) :
    (getArg loc : Op e _).run vm = (.ofExcept (vm.getArg loc), vm) := rfl

@[simp] theorem run_getArgAs (conv : SizedValue → Except VMError α) (loc : ArgLocation) :
    (getArgAs conv loc : Op e α).run vm = (.ofExcept (vm.getArg loc >>= conv), vm) := rfl

@[simp] theorem run_getArgLea (loc : ArgLocation) :
    (getArgLea loc : Op e _).run vm = (.ofExcept (vm.getArgLea loc), vm) := rfl

@[simp] theorem run_getMemAs (conv : SizedValue → Except VMError α) (a : BitVec 32)
    (s : ValueSize) :
    (getMemAs conv a s : Op e α).run vm = (.ofExcept (vm.getMem a s >>= conv), vm) := rfl

@[simp] theorem run_getReg (r : Register) (s : ValueSize) :
    (getReg r s : Op e _).run vm = (.ok (vm.getReg r s), vm) := rfl

@[simp] theorem run_reg8 (r : Register) : (reg8 r : Op e _).run vm = (.ok (vm.reg8 r), vm) := rfl

@[simp] theorem run_reg16 (r : Register) :
    (reg16 r : Op e _).run vm = (.ok (vm.reg16 r), vm) := rfl

@[simp] theorem run_reg32 (r : Register) :
    (reg32 r : Op e _).run vm = (.ok (vm.reg32 r), vm) := rfl

@[simp] theorem run_flags : (flags : Op e _).run vm = (.ok vm.flags, vm) := rfl

@[simp] theorem run_eipValue : (eipValue : Op e _).run vm = (.ok vm.eip, vm) := rfl

@[simp] theorem run_setArg (loc : ArgLocation) (v : SizedValue) :
    (setArg loc v : Op e _).run vm = storeResult vm (vm.setArg loc v) := rfl

@[simp] theorem run_setMem (a : BitVec 32) (v : SizedValue) :
    (setMem a v : Op e _).run vm = storeResult vm (vm.setMem a v) := rfl

@[simp] theorem run_setReg (r : Register) (v : SizedValue) :
    (setReg r v : Op e _).run vm = (.ok (), vm.setReg r v) := rfl

@[simp] theorem run_setReg32 (r : Register) (v : BitVec 32) :
    (setReg32 r v : Op e _).run vm = (.ok (), vm.setReg32 r v) := rfl

@[simp] theorem run_modifyFlags (f : X86Flags → X86Flags) :
    (modifyFlags f : Op e _).run vm = (.ok (), { vm with flags := f vm.flags }) := rfl

@[simp] theorem run_setEip (a : BitVec 32) :
    (setEip a).run vm = (.ok (), { vm with eip := a }) := rfl

@[simp] theorem run_ite (c : Prop) [Decidable c] (a b : Op e α) :
    (if c then a else b).run vm = if c then a.run vm else b.run vm := by split <;> rfl

end run

end Op

end Qx86
