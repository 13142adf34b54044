import Qx86.Machine.Commands
import Qx86.Machine.Extension
import Qx86.Machine.Faults

namespace Qx86

open Foundation MemorySystem

def ArgLocation.isPlain : ArgLocation → Bool
  | .none | .immediate _ | .registerValue .. => true
  | .address .. | .registerAddress .. | .modRMAddress .. | .sibAddress .. => false

theorem VMError.not_unloaded_of_isWidth {x : VMError} (h : x.isWidth = true) : ¬x.Unloaded := by
  rintro ⟨a, rfl⟩
  cases h

section Memory

variable {m : MemorySystem} {a n : BitVec 32}

theorem getSizedMemory_isSome {d : List (BitVec 8)} (h : m.getSizedMemory a n = .ok d) :
    (m.map (page a)).isSome := by
  obtain ⟨b, hb, -⟩ := getSizedMemory_section h
  rw [hb]
  rfl

theorem getSizedMemory_not_unloaded (hm : (m.map (page a)).isSome) {x : VMError}
    (h : m.getSizedMemory a n = .error x) : ¬x.Unloaded := by
  rintro ⟨_, rfl⟩
  obtain ⟨b, hb⟩ := Option.isSome_iff_exists.mp hm
  simp only [getSizedMemory, getMemory, hb] at h
  obtain h | ⟨_, -, h⟩ := except_bind_eq_error.mp h
  · split at h <;> cases h
  · split at h <;> cases h

theorem setBytes_not_unloaded (hm : (m.map (page a)).isSome) {d : List (BitVec 8)} {x : VMError}
    (h : m.setBytes a n d = .error x) : ¬x.Unloaded := by
  rintro ⟨_, rfl⟩
  obtain ⟨b, hb⟩ := Option.isSome_iff_exists.mp hm
  simp only [setBytes, getMutSizedMemory, getMutMemory, hb] at h
  obtain h | ⟨_, -, h⟩ := except_bind_eq_error.mp h
  · obtain h | ⟨⟨_, _⟩, -, h⟩ := except_bind_eq_error.mp h
    · split at h <;> cases h
    · dsimp only at h
      split at h <;> cases h
  · cases h

end Memory

namespace VM

variable {vm vm' : VM} {loc : ArgLocation} {a : BitVec 32} {s : ValueSize} {v : SizedValue}
  {x : VMError}

theorem getMem_isSome (hs : s ≠ .none) (h : vm.getMem a s = .ok v) :
    (vm.memory.map (page a)).isSome := by
  cases s with
  | none => exact absurd rfl hs
  | byte | word | dword | qword =>
    obtain ⟨_, h, -⟩ := map_eq_ok.mp h
    obtain ⟨_, h, -⟩ := map_eq_ok.mp h
    exact getSizedMemory_isSome h

theorem getMem_not_unloaded (hm : s ≠ .none → (vm.memory.map (page a)).isSome)
    (h : vm.getMem a s = .error x) : ¬x.Unloaded := by
  cases s with
  | none => cases h
  | byte | word | dword | qword =>
    exact getSizedMemory_not_unloaded (hm nofun) (map_eq_error.mp (map_eq_error.mp h))

theorem setMem_not_unloaded (hm : v ≠ .none → (vm.memory.map (page a)).isSome)
    (h : vm.setMem a v = .error x) : ¬x.Unloaded := by
  unfold setMem at h
  split at h
  · cases h
    rintro ⟨_, h⟩
    cases h
  · have h := map_eq_error.mp h
    cases v with
    | none => cases h
    | byte | word | dword | qword => exact setBytes_not_unloaded (hm nofun) h

def Loads (vm : VM) (loc : ArgLocation) : Prop :=
  ∀ a, vm.getArgLea loc = .ok a → loc.size ≠ .none → (vm.memory.map (page a)).isSome

theorem loads_of_isPlain (h : loc.isPlain = true) : vm.Loads loc := by
  intro a ha
  cases loc with
  | none | immediate | registerValue => cases ha
  | address | registerAddress | modRMAddress | sibAddress => cases h

theorem loads_of_getArg (h : vm.getArg loc = .ok v) : vm.Loads loc := by
  intro a ha hs
  cases loc with
  | none | immediate | registerValue => cases ha
  | address | registerAddress | modRMAddress | sibAddress =>
    cases ha
    exact getMem_isSome hs h

theorem Loads.getArg (hl : vm.Loads loc) (h : vm.getArg loc = .error x) : ¬x.Unloaded := by
  cases loc with
  | none | immediate | registerValue => cases h
  | address | registerAddress | modRMAddress | sibAddress =>
    exact getMem_not_unloaded (hl _ rfl) h

theorem convertSizeZx_ne_none (h : v.convertSizeZx s = .ok v') : s ≠ .none := by
  rintro rfl
  cases h

theorem Loads.setArg (hl : vm.Loads loc) (h : vm.setArg loc v = .error x) : ¬x.Unloaded := by
  have hwidth : ∀ s y, v.convertSizeZx s = .error y → ¬y.Unloaded := fun s y hy ↦
    VMError.not_unloaded_of_isWidth ((SizedValue.converts_convertSizeZx s).error v y hy)
  cases loc with
  | none => cases h
  | immediate =>
    cases h
    rintro ⟨_, h⟩
    cases h
  | registerValue r s => exact hwidth s x (map_eq_error.mp h)
  | address a s | registerAddress r s =>
    obtain h | ⟨u, hu, h⟩ := except_bind_eq_error.mp h
    · exact hwidth s x h
    · exact setMem_not_unloaded (fun _ ↦ hl _ rfl (convertSizeZx_ne_none hu)) h
  | modRMAddress | sibAddress =>
    refine setMem_not_unloaded (fun hv ↦ hl _ rfl ?_) h
    rintro rfl
    exact hv rfl

theorem Loads.congr (hl : vm.Loads loc) (hr : vm'.regs = vm.regs)
    (hm : ∀ base, (vm'.memory.map base).isSome = (vm.memory.map base).isSome) :
    vm'.Loads loc := by
  intro a ha hs
  rw [hm]
  refine hl a ?_ hs
  cases loc with
  | none | immediate | registerValue => cases ha
  | address | registerAddress | modRMAddress | sibAddress =>
    simpa only [getArgLea, reg32, calculateModrmAddress, calculateSibAddress, hr] using ha

theorem setMem_regs (h : vm.setMem a v = .ok vm') : vm'.regs = vm.regs := by
  unfold setMem at h
  split at h
  · cases h
  · obtain ⟨_, -, rfl⟩ := map_eq_ok.mp h
    rfl

theorem isSome_of_guarded {m m' : MemorySystem} (h : m.Guarded m') (base : BitVec 32) :
    (m'.map base).isSome = (m.map base).isSome := by
  simpa only [Option.isSome_map] using congrArg Option.isSome (h.sizes base)

theorem Loads.store (hl : vm.Loads loc) (h : vm.setArg loc v = .ok vm') : vm'.Loads loc := by
  have hm := isSome_of_guarded (setArg_frame h).1.memory
  cases loc with
  | none | immediate | registerValue => exact loads_of_isPlain rfl
  | address | registerAddress =>
    obtain ⟨u, -, h⟩ := except_bind_eq_ok.mp h
    exact hl.congr (setMem_regs h) hm
  | modRMAddress | sibAddress => exact hl.congr (setMem_regs h) hm

end VM

namespace Op

open SizedValue

variable {e : Effects} {α β : Type} {c c' : Op e α} {f : α → Op e β} {loc l : ArgLocation}

/-- A computation that changes nothing. -/
class Quiet (c : Op e α) : Prop where
  state : ∀ vm, (c.run vm).2 = vm

/-- A computation that misses no section where that of an operand is there. -/
class Safe (loc : ArgLocation) (c : Op e α) : Prop where
  error {vm : VM} {x : VMError} {vm' : VM} :
    vm.Loads loc → c.run vm = (.err x, vm') → ¬x.Unloaded

class Steady (loc : ArgLocation) (c : Op e α) : Prop where
  loads {vm : VM} : vm.Loads loc → (c.run vm).2.Loads loc

/-- A computation that has changed nothing when it misses a section. -/
class Restarts (loc : ArgLocation) (c : Op e α) : Prop where
  state {vm : VM} {x : VMError} {vm' : VM} :
    vm.Loads loc → c.run vm = (.err x, vm') → x.Unloaded → vm' = vm

section Sequences

theorem Quiet.of_run (h : Quiet c) {vm vm' : VM} {o : Outcome VMError α}
    (hr : c.run vm = (o, vm')) : vm' = vm := by
  have hs := h.state vm
  rwa [hr] at hs

theorem Steady.of_run (h : Steady loc c) {vm vm' : VM} {o : Outcome VMError α}
    (hl : vm.Loads loc) (hr : c.run vm = (o, vm')) : vm'.Loads loc := by
  have hs := h.loads hl
  rwa [hr] at hs

instance steady_none : Steady .none c := ⟨fun _ ↦ VM.loads_of_isPlain rfl⟩

instance steady_quiet [h : Quiet c] : Steady loc c where
  loads {vm} hl := by
    rw [h.state vm]
    exact hl

instance safe_of_none [h : Safe .none c] : Safe loc c :=
  ⟨fun _ hr ↦ h.error (VM.loads_of_isPlain rfl) hr⟩

instance restarts_safe [h : Safe loc c] : Restarts loc c :=
  ⟨fun hl hr hu ↦ absurd hu (h.error hl hr)⟩

instance restarts_quiet [h : Quiet c] : Restarts loc c := ⟨fun _ hr _ ↦ h.of_run hr⟩

instance quiet_bind [hc : Quiet c] [hf : ∀ a, Quiet (f a)] : Quiet (c >>= f) where
  state vm := by
    have hs := hc.state vm
    rw [run_bind]
    rcases hr : c.run vm with ⟨a | x | _, vm₁⟩ <;> rw [hr] at hs <;> cases hs
    · exact (hf a).state _
    · rfl
    · rfl

instance steady_bind [hc : Steady loc c] [hf : ∀ a, Steady loc (f a)] : Steady loc (c >>= f) where
  loads {vm} hl := by
    have hs := hc.loads hl
    rw [run_bind]
    rcases hr : c.run vm with ⟨a | x | _, vm₁⟩ <;> rw [hr] at hs
    · exact (hf a).loads hs
    · exact hs
    · exact hs

instance safe_bind [hc : Safe loc c] [hk : Steady loc c] [hf : ∀ a, Safe loc (f a)] :
    Safe loc (c >>= f) where
  error hl hr := by
    obtain hr | ⟨a, vm₁, hr₁, hr⟩ := Operations.run_bind_err hr
    · exact hc.error hl hr
    · exact (hf a).error (hk.of_run hl hr₁) hr

/-- What comes before the first change may miss a section. -/
instance restarts_bind [hc : Quiet c] [hf : ∀ a, Restarts loc (f a)] :
    Restarts loc (c >>= f) where
  state hl h hu := by
    obtain hr | ⟨a, vm₁, hr₁, hr⟩ := Operations.run_bind_err h
    · exact hc.of_run hr
    · cases hc.of_run hr₁
      exact (hf a).state hl hr hu

/-- What comes after it may not. -/
instance restarts_bind_safe [hc : Restarts loc c] [hf : ∀ a, Safe .none (f a)] :
    Restarts loc (c >>= f) where
  state hl hr hu := by
    obtain hr | ⟨a, vm₁, -, hr⟩ := Operations.run_bind_err hr
    · exact hc.state hl hr hu
    · exact absurd hu ((hf a).error (VM.loads_of_isPlain rfl) hr)

theorem Safe.seq (hc : Safe .none c) (hf : ∀ a, Safe .none (f a)) : Safe .none (c >>= f) :=
  safe_bind

variable {b : Prop} {_ : Decidable b}

instance quiet_ite [h : Quiet c] [h' : Quiet c'] : Quiet (if b then c else c') := by
  split
  · exact h
  · exact h'

instance steady_ite [h : Steady loc c] [h' : Steady loc c'] :
    Steady loc (if b then c else c') := by
  split
  · exact h
  · exact h'

instance safe_ite [h : Safe loc c] [h' : Safe loc c'] : Safe loc (if b then c else c') := by
  split
  · exact h
  · exact h'

instance restarts_ite [h : Restarts loc c] [h' : Restarts loc c'] :
    Restarts loc (if b then c else c') := by
  split
  · exact h
  · exact h'

end Sequences

section Steps

variable {conv : SizedValue → Except VMError α} (r : Register) (s : ValueSize)

theorem safe_ok (h : ∀ vm, ∃ a, (c.run vm).1 = .ok a) : Safe loc c where
  error {vm _ _} _ hr := by
    obtain ⟨a, ha⟩ := h vm
    rw [hr] at ha
    cases ha

instance quiet_pure (a : α) : Quiet (pure a : Op e α) := ⟨fun _ ↦ rfl⟩

instance safe_pure (a : α) : Safe loc (pure a : Op e α) := safe_ok fun _ ↦ ⟨a, rfl⟩

instance quiet_throw (x : VMError) : Quiet (throw x : Op e α) := ⟨fun _ ↦ rfl⟩

instance quiet_read (g : VM → Except VMError α) (hg) : Quiet (read g hg : Op e α) := ⟨fun _ ↦ rfl⟩

instance quiet_ofExcept (x : Except VMError α) : Quiet (ofExcept x : Op e α) := ⟨fun _ ↦ rfl⟩

instance safe_convert [h : Converts conv] (v : SizedValue) :
    Safe loc (ofExcept (conv v) : Op e α) where
  error _ hr := VMError.not_unloaded_of_isWidth
    (h.error v _ (Outcome.ofExcept_eq_err.mp (Prod.mk.inj hr).1))

instance quiet_getArg : Quiet (getArg l : Op e _) := ⟨fun _ ↦ rfl⟩

instance quiet_getArgAs : Quiet (getArgAs conv l : Op e α) := ⟨fun _ ↦ rfl⟩

instance quiet_getArgLea : Quiet (getArgLea l : Op e _) := ⟨fun _ ↦ rfl⟩

instance quiet_getMemAs (a : BitVec 32) : Quiet (getMemAs conv a s : Op e α) := ⟨fun _ ↦ rfl⟩

instance quiet_getReg : Quiet (getReg r s : Op e _) := ⟨fun _ ↦ rfl⟩

instance safe_getReg : Safe loc (getReg r s : Op e _) := safe_ok fun _ ↦ ⟨_, rfl⟩

instance quiet_reg8 : Quiet (reg8 r : Op e _) := ⟨fun _ ↦ rfl⟩

instance safe_reg8 : Safe loc (reg8 r : Op e _) := safe_ok fun _ ↦ ⟨_, rfl⟩

instance quiet_reg16 : Quiet (reg16 r : Op e _) := ⟨fun _ ↦ rfl⟩

instance safe_reg16 : Safe loc (reg16 r : Op e _) := safe_ok fun _ ↦ ⟨_, rfl⟩

instance quiet_reg32 : Quiet (reg32 r : Op e _) := ⟨fun _ ↦ rfl⟩

instance safe_reg32 : Safe loc (reg32 r : Op e _) := safe_ok fun _ ↦ ⟨_, rfl⟩

instance quiet_flags : Quiet (flags : Op e _) := ⟨fun _ ↦ rfl⟩

instance safe_flags : Safe loc (flags : Op e _) := safe_ok fun _ ↦ ⟨_, rfl⟩

instance quiet_eipValue : Quiet (eipValue : Op e _) := ⟨fun _ ↦ rfl⟩

instance safe_setReg (v : SizedValue) : Safe loc (setReg r v : Op e Unit) :=
  safe_ok fun _ ↦ ⟨(), rfl⟩

instance safe_setReg32 (v : BitVec 32) : Safe loc (setReg32 r v : Op e Unit) :=
  safe_ok fun _ ↦ ⟨(), rfl⟩

instance safe_setEip (a : BitVec 32) : Safe loc (setEip a) := safe_ok fun _ ↦ ⟨(), rfl⟩

instance safe_modifyFlags (g : X86Flags → X86Flags) : Safe loc (modifyFlags g : Op e Unit) :=
  safe_ok fun _ ↦ ⟨(), rfl⟩

instance steady_modifyFlags (g : X86Flags → X86Flags) :
    Steady loc (modifyFlags g : Op e Unit) :=
  ⟨fun hl ↦ hl.congr rfl fun _ ↦ rfl⟩

instance quiet_unwindIf (b : Bool) : Quiet (unwindIf b) := ⟨fun _ ↦ rfl⟩

end Steps

section Operands

variable {conv : SizedValue → Except VMError α} {a : BitVec 32} {s : ValueSize} (v : SizedValue)

class Plain (l : ArgLocation) : Prop where
  isPlain : l.isPlain = true

theorem not_unloaded_of_getArgAs [h : Converts conv] {vm : VM} {x : VMError} (hl : vm.Loads l)
    (hx : (vm.getArg l >>= conv) = .error x) : ¬x.Unloaded := by
  obtain hx | ⟨u, -, hx⟩ := except_bind_eq_error.mp hx
  · exact hl.getArg hx
  · exact VMError.not_unloaded_of_isWidth (h.error u x hx)

instance safe_getArgAs [Converts conv] : Safe l (getArgAs conv l : Op e α) where
  error hl hr := not_unloaded_of_getArgAs hl (Outcome.ofExcept_eq_err.mp (Prod.mk.inj hr).1)

instance safe_getArgAs_plain [Converts conv] [h : Plain l] :
    Safe loc (getArgAs conv l : Op e α) where
  error _ hr := not_unloaded_of_getArgAs (VM.loads_of_isPlain h.isPlain)
    (Outcome.ofExcept_eq_err.mp (Prod.mk.inj hr).1)

theorem storeResult_err {vm vm' : VM} {r : Except VMError VM} {x : VMError}
    (h : storeResult vm r = (.err x, vm')) : r = .error x ∧ vm' = vm := by
  cases r <;> cases h
  exact ⟨rfl, rfl⟩

instance safe_setArg : Safe l (setArg l v : Op e Unit) where
  error hl hr := hl.setArg (storeResult_err hr).1

instance safe_setArg_plain [h : Plain l] : Safe loc (setArg l v : Op e Unit) where
  error _ hr := (VM.loads_of_isPlain h.isPlain).setArg (storeResult_err hr).1

instance restarts_setArg : Restarts loc (setArg l v : Op e Unit) where
  state _ hr _ := (storeResult_err hr).2

instance steady_setArg : Steady l (setArg l v : Op e Unit) where
  loads {vm} hl := by
    rw [run_setArg]
    cases h : vm.setArg l v with
    | ok vm' => exact hl.store h
    | error x => exact hl

instance restarts_setMem : Restarts loc (setMem a v : Op e Unit) where
  state _ hr _ := (storeResult_err hr).2

instance safe_setMem : Safe (.address a .qword) (setMem a v : Op e Unit) where
  error hl hr := VM.setMem_not_unloaded (fun _ ↦ hl a rfl nofun) (storeResult_err hr).1

instance restarts_getArgAs {f : α → Op e β} [hf : ∀ a, Restarts l (f a)] :
    Restarts loc (getArgAs conv l >>= f) where
  state hl hr hu := by
    obtain hr | ⟨u, vm₁, hr₁, hr⟩ := Operations.run_bind_err hr
    · exact (quiet_getArgAs (e := e)).of_run hr
    · cases (quiet_getArgAs (e := e)).of_run hr₁
      obtain ⟨v, hv, -⟩ := except_bind_eq_ok.mp
        (Outcome.ofExcept_eq_ok.mp (congrArg Prod.fst hr₁))
      exact (hf u).state (VM.loads_of_getArg hv) hr hu

instance restarts_getArg {f : SizedValue → Op e β} [hf : ∀ a, Restarts l (f a)] :
    Restarts loc (getArg l >>= f) where
  state hl hr hu := by
    obtain hr | ⟨u, vm₁, hr₁, hr⟩ := Operations.run_bind_err hr
    · exact (quiet_getArg (e := e)).of_run hr
    · cases (quiet_getArg (e := e)).of_run hr₁
      have hv := VM.loads_of_getArg (Outcome.ofExcept_eq_ok.mp (congrArg Prod.fst hr₁))
      exact (hf u).state hv hr hu

instance restarts_getMemAs {f : α → Op e β} [hf : ∀ u, Restarts (.address a s) (f u)] :
    Restarts loc (getMemAs conv a s >>= f) :=
  restarts_getArgAs (l := .address a s)

end Operands

section Families

open Operations

variable {loc : ArgLocation} {p : Pipeline}

theorem restarts_jmpRel : Restarts loc (jmpRel p) := by
  dsimp only [jmpRel, jumpTo]
  infer_instance

theorem restarts_jmpAbs : Restarts loc (jmpAbs p) := by
  dsimp only [jmpAbs, jumpTo]
  infer_instance

theorem restarts_jcc : Restarts loc (jcc p) := by
  dsimp only [jcc, jmpRel, jumpTo]
  infer_instance

theorem restarts_jmpConditionalEcxIsZero : Restarts loc (jmpConditionalEcxIsZero p) := by
  dsimp only [jmpConditionalEcxIsZero, jmpRel, jumpTo]
  infer_instance

theorem restarts_idiv8bit : Restarts loc (idiv8bit p) := by
  dsimp only [idiv8bit]
  infer_instance

theorem restarts_idivNativeWord : Restarts loc (idivNativeWord p) := by
  dsimp only [idivNativeWord, idiv16bit, idiv32bit]
  infer_instance

instance restarts_bitScan {bit : {w : ℕ} → BitVec w → BitVec 8 → Bool}
    {index : {w : ℕ} → BitVec w → BitVec w} {w : OperandWidth} [Plain (p.args 1).location] :
    Restarts loc (bitScan bit index w p : Op e Unit) := by
  refine @restarts_bind _ _ _ _ _ _ inferInstance fun source ↦ ?_
  split
  · infer_instance
  · infer_instance

section Strings

variable {w : OperandWidth} [w.Converts] (n : BitVec 32)

instance safe_elementStep : Safe loc (elementStep n : Op e _) := safe_ok fun _ ↦ ⟨_, rfl⟩

instance safe_advanceIndex (r : Register) (d : BitVec 32) :
    Safe loc (advanceIndex r d : Op e Unit) := safe_ok fun _ ↦ ⟨_, rfl⟩

instance restarts_movs : Restarts loc (movs w n : Op e Unit) := by
  dsimp only [movs]
  infer_instance

instance restarts_cmps : Restarts loc (cmps w n : Op e Unit) := by
  dsimp only [cmps]
  infer_instance

instance restarts_storeString : Restarts loc (storeString w n : Op e Unit) := by
  dsimp only [storeString]
  infer_instance

instance restarts_loadString : Restarts loc (loadString w n : Op e Unit) := by
  dsimp only [loadString]
  infer_instance

instance restarts_scanString : Restarts loc (scanString w n : Op e Unit) := by
  dsimp only [scanString]
  infer_instance

end Strings

end Families

end Op

namespace LogicFn

open Operations Op

/-- The functions that have changed nothing when they miss a section: all but those that move
the stack pointer first, or store an operand before they have accessed every other one. -/
def restartable (f : LogicFn) (p : Pipeline) : Bool :=
  match f with
  | push | pop | pusha | popa | pushf | popf | enter | leave | ret | callRel | callAbs => false
  | adc8bit | adcNativeWord | sbb8bit | sbbNativeWord | xchg | bitScanForward
  | bitScanReverse => (p.args 1).location.isPlain
  | xadd8bit | xaddNativeWord => (p.args 0).location.isPlain && (p.args 1).location.isPlain
  | imul3NativeWord => (p.args 0).location.isPlain
  | _ => true

theorem restarts {f : LogicFn} {p : Pipeline} (h : f.restartable p = true) :
    Restarts .none (f.logic p) := by
  cases f with
  | push | pop | pusha | popa | pushf | popf | enter | leave | ret | callRel | callAbs => cases h
  | adc8bit | adcNativeWord | sbb8bit | sbbNativeWord =>
    have : Plain (p.args 1).location := ⟨h⟩
    dsimp only [logic, Operations.adc8bit, Operations.adcNativeWord, Operations.sbb8bit,
      Operations.sbbNativeWord, nativeWord, adc, sbb, add, sub]
    infer_instance
  | xchg =>
    have : Plain (p.args 1).location := ⟨h⟩
    dsimp only [logic, Operations.xchg]
    infer_instance
  | bitScanForward | bitScanReverse =>
    have : Plain (p.args 1).location := ⟨h⟩
    dsimp only [logic, Operations.bitScanForward, Operations.bitScanReverse, nativeWord]
    infer_instance
  | xadd8bit | xaddNativeWord =>
    have : Plain (p.args 0).location := ⟨(Bool.and_eq_true_iff.mp h).1⟩
    have : Plain (p.args 1).location := ⟨(Bool.and_eq_true_iff.mp h).2⟩
    dsimp only [logic, Operations.xadd8bit, Operations.xaddNativeWord, nativeWord, xadd,
      Operations.xchg, add]
    infer_instance
  | imul3NativeWord =>
    have : Plain (p.args 0).location := ⟨h⟩
    dsimp only [logic, Operations.imul3NativeWord, imul3_16bit, imul3_32bit, keepProduct16,
      keepProduct32, setProductFlags]
    infer_instance
  | nop | opUndefined | mov | bswap | lahf | sahf | stc | clc | cmc | xlatb | cbwCwde | cdqCwd
  | setDirection | clearDirection | hlt | lea | setcc8bit | cmovccNative | movzx8bit | movzx16bit
  | movsx8bit | movsx16bit =>
    dsimp only [logic, Operations.mov, Operations.bswap, Operations.lahf, Operations.sahf,
      Operations.stc, Operations.clc, Operations.cmc, Operations.xlatb, Operations.cbwCwde,
      Operations.cdqCwd, Operations.setDirection, Operations.clearDirection, Operations.hlt,
      Operations.lea, Operations.setcc8bit, Operations.cmovccNative, Operations.movzx8bit,
      Operations.movzx16bit, Operations.movsx8bit, Operations.movsx16bit, movx16, movx32]
    infer_instance
  | jmpRel => exact restarts_jmpRel
  | jmpAbs => exact restarts_jmpAbs
  | jcc => exact restarts_jcc
  | jmpConditionalEcxIsZero => exact restarts_jmpConditionalEcxIsZero
  | idiv8bit => exact restarts_idiv8bit
  | idivNativeWord => exact restarts_idivNativeWord
  | div8bit | divNativeWord | mul8bit | mulNativeWord | imul1_8bit
  | imul1NativeWord | imul2NativeWord | aaa | aas | aad | aam =>
    dsimp only [logic, Operations.div8bit, Operations.divNativeWord, div16bit, div32bit,
      Operations.mul8bit,
      Operations.mulNativeWord, mul16bit, mul32bit, Operations.imul1_8bit,
      Operations.imul1NativeWord, imul1_16bit, imul1_32bit, Operations.imul2NativeWord,
      imul2_16bit, imul2_32bit, storeProduct16, storeProduct32, keepProduct16, keepProduct32,
      setProductFlags, Operations.aaa, Operations.aas, asciiAdjust, Operations.aad,
      Operations.aam, setResultFlags]
    infer_instance
  | daa | das =>
    dsimp only [logic, Operations.daa, Operations.das, setResultFlags]
    refine @restarts_safe _ _ _ _ ?_
    repeat refine Safe.seq inferInstance fun _ ↦ ?_
    split
    all_goals
      repeat refine Safe.seq inferInstance fun _ ↦ ?_
      infer_instance
  | bitTest | bitTestSet | bitTestReset | bitTestComplement | rol8bit | rolNativeWord | rcl8bit
  | rclNativeWord | rcr8bit | rcrNativeWord | ror8bit | rorNativeWord | sar8bit | sarNativeWord
  | shl8bit | shlNativeWord | shr8bit | shrNativeWord =>
    dsimp only [logic, Operations.bitTest, Operations.bitTestSet, Operations.bitTestReset,
      Operations.bitTestComplement, bitTestWith, Operations.rol8bit, Operations.rolNativeWord,
      rol, Operations.rcl8bit, Operations.rclNativeWord, rcl, rcl32bit, Operations.rcr8bit,
      Operations.rcrNativeWord, rcr, Operations.ror8bit, Operations.rorNativeWord, ror,
      Operations.sar8bit, Operations.sarNativeWord, sar, Operations.shl8bit,
      Operations.shlNativeWord, shl16bit, shl32bit, Operations.shr8bit,
      Operations.shrNativeWord, shr16bit, shr32bit, storeShift, nativeWord]
    infer_instance
  | add8bit | addNativeWord | sub8bit | subNativeWord | increment8bit | incrementNativeWord
  | decrement8bit | decrementNativeWord | cmpxchg8bit | cmpxchgNativeWord | cmpxchg8b | cmp8bit
  | cmpNativeWord | test8bit | testNativeWord | and8bit | andNativeWord | or8bit | orNativeWord
  | xor8bit | xorNativeWord | not8bit | notNativeWord | neg8bit | negNativeWord =>
    dsimp only [logic, Operations.add8bit, Operations.addNativeWord, add, Operations.sub8bit,
      Operations.subNativeWord, sub, Operations.increment8bit, Operations.incrementNativeWord,
      increment, Operations.decrement8bit, Operations.decrementNativeWord, decrement,
      Operations.step, Operations.cmpxchg8bit, Operations.cmpxchgNativeWord, cmpxchg,
      Operations.cmpxchg8b, Operations.cmp8bit, Operations.cmpNativeWord, Operations.cmp,
      Operations.test8bit, Operations.testNativeWord, Operations.and8bit,
      Operations.andNativeWord, Operations.or8bit, Operations.orNativeWord, Operations.xor8bit,
      Operations.xorNativeWord, bitwise, Operations.not8bit, Operations.notNativeWord, invert,
      Operations.neg8bit, Operations.negNativeWord, negate, nativeWord]
    infer_instance
  | movsNativeWord | movsb | cmpsNativeWord | cmpsb | storeStringByte | loadStringByte
  | scanStringByte | storeStringNativeWord | loadStringNativeWord | scanStringNativeWord =>
    dsimp only [logic, Operations.movsNativeWord, Operations.movsb, Operations.cmpsNativeWord,
      Operations.cmpsb, Operations.storeStringByte, Operations.storeStringNativeWord,
      Operations.loadStringByte, Operations.loadStringNativeWord, Operations.scanStringByte,
      Operations.scanStringNativeWord, stringNativeWord]
    infer_instance

end LogicFn

end Qx86
