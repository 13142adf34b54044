import Qx86.Machine.Commands

namespace Qx86

open Foundation

namespace Op

open SizedValue

variable {e : Effects} {α β : Type} {P : VMError → Prop} {c c' : Op e α}

namespace Composed

theorem total (c : Op e α) (g : Processor → α × Processor)
    (hc : ∀ vm, c.run vm = (.ok (g vm.processor).1, vm.withProcessor (g vm.processor).2)) :
    Composed P c :=
  .processor c (fun q ↦ (.ok (g q).1, (g q).2)) hc fun _ _ h ↦ by cases h

theorem inspect (c : Op e α) (g : Processor → α)
    (hc : ∀ vm, c.run vm = (.ok (g vm.processor), vm)) : Composed P c :=
  .total c (fun q ↦ (g q, q)) hc

theorem fail (c : Op e α) (x : VMError) (hc : ∀ vm, c.run vm = (.err x, vm)) (hx : P x) :
    Composed P c :=
  .processor c (fun q ↦ (.err x, q)) hc fun _ y hy ↦ by
    cases hy
    exact hx

theorem seq {c : Op e α} {f : α → Op e β} {d : Op e β} (hc : Composed P c)
    (hf : ∀ a, Composed P (f a)) (hd : ∀ vm, d.run vm = (c >>= f).run vm) : Composed P d := by
  rw [ext_run hd]
  exact .bind c f hc hf

end Composed

section Steps

variable (r : Register) (s : ValueSize)

instance composed_pure (a : α) : Composed P (pure a : Op e α) :=
  .inspect _ (fun _ ↦ a) fun _ ↦ rfl

instance composed_bind {f : α → Op e β} [hc : Composed P c]
    [hf : ∀ a, Composed P (f a)] : Composed P (c >>= f) := .bind c f hc hf

instance composed_ite {b : Prop} {_ : Decidable b} [h : Composed P c] [h' : Composed P c'] :
    Composed P (if b then c else c') := by
  split
  · exact h
  · exact h'

theorem composed_throw {x : VMError} (hx : P x) : Composed P (throw x : Op e α) :=
  .fail _ x (fun _ ↦ rfl) hx

instance composed_reg8 : Composed P (reg8 r : Op e _) :=
  .inspect _ (fun q ↦ if r &&& 4 = 0 then (q.regs r &&& 0xFF).setWidth 8
    else ((q.regs (r &&& 3) &&& 0xFF00) >>> 8).setWidth 8) fun _ ↦ rfl

instance composed_reg16 : Composed P (reg16 r : Op e _) :=
  .inspect _ (fun q ↦ (q.regs r &&& 0xFFFF).setWidth 16) fun _ ↦ rfl

instance composed_reg32 : Composed P (reg32 r : Op e _) :=
  .inspect _ (·.regs r) fun _ ↦ rfl

instance composed_flags : Composed P (flags : Op e _) :=
  .inspect _ (·.flags) fun _ ↦ rfl

instance composed_eipValue : Composed P (eipValue : Op e _) :=
  .inspect _ (·.eip) fun _ ↦ rfl

instance composed_getReg : Composed P (getReg r s : Op e _) := by
  cases s with
  | none | qword => exact .inspect _ (fun _ ↦ .none) fun _ ↦ rfl
  | byte => exact .seq (composed_reg8 r) (fun v ↦ composed_pure (.byte v)) fun _ ↦ rfl
  | word => exact .seq (composed_reg16 r) (fun v ↦ composed_pure (.word v)) fun _ ↦ rfl
  | dword => exact .seq (composed_reg32 r) (fun v ↦ composed_pure (.dword v)) fun _ ↦ rfl

instance composed_modifyFlags (g : X86Flags → X86Flags) :
    Composed P (modifyFlags g : Op e Unit) :=
  .total _ (fun q ↦ ((), { q with flags := g q.flags })) fun _ ↦ rfl

instance composed_setEip (a : BitVec 32) : Composed P (setEip a) :=
  .total _ (fun q ↦ ((), { q with eip := a })) fun _ ↦ rfl

instance composed_unwindIf (b : Bool) : Composed P (unwindIf b) :=
  .processor _ (fun q ↦ (if b then .panic else .ok (), q)) (fun _ ↦ rfl) fun q x h ↦ by
    cases b <;> cases h

theorem setReg_withProcessor (v : SizedValue) :
    ∃ regs : (Register → BitVec 32) → Register → BitVec 32,
      ∀ vm : VM, vm.setReg r v = vm.withProcessor { vm.processor with regs := regs vm.regs } := by
  cases v with
  | none | qword => exact ⟨id, fun _ ↦ rfl⟩
  | byte v =>
    by_cases hr : r &&& 4 = 0
    · refine ⟨fun regs ↦ Function.update regs r ((regs r &&& 0xFFFFFF00) ||| v.setWidth 32), ?_⟩
      intro vm
      simp only [VM.setReg, if_pos hr]
      rfl
    · refine ⟨fun regs ↦ Function.update regs (r &&& 3)
        ((regs (r &&& 3) &&& 0xFFFF00FF) ||| (v.setWidth 32 <<< 8)), ?_⟩
      intro vm
      simp only [VM.setReg, if_neg hr]
      rfl
  | word v =>
    exact ⟨fun regs ↦ Function.update regs r ((regs r &&& 0xFFFF0000) ||| v.setWidth 32),
      fun _ ↦ rfl⟩
  | dword v => exact ⟨fun regs ↦ Function.update regs r v, fun _ ↦ rfl⟩

instance composed_setReg (v : SizedValue) : Composed P (setReg r v : Op e Unit) := by
  obtain ⟨regs, h⟩ := setReg_withProcessor r v
  exact .total _ (fun q ↦ ((), { q with regs := regs q.regs })) fun vm ↦
    congrArg (Prod.mk _) (h vm)

instance composed_setReg32 (v : BitVec 32) : Composed P (setReg32 r v : Op e Unit) :=
  composed_setReg r (.dword v)

end Steps

/-- The errors that a computation may raise are allowed. -/
class Admits (P : VMError → Prop) : Prop where
  raised : ∀ x : VMError, x.isRaised = true → P x

/-- A store to an argument is allowed to fail if the argument is an immediate value. -/
class Writes (P : VMError → Prop) (loc : ArgLocation) : Prop where
  immediate : ∀ v, loc = .immediate v → P .wroteUnwriteableArgument

section Operands

variable {conv : SizedValue → Except VMError α}

theorem Admits.width [Admits P] {x : VMError} (h : x.isWidth = true) : P x :=
  raised x (by cases x <;> first | rfl | cases h)

instance composed_getMem (a : BitVec 32) (s : ValueSize) (h) :
    Composed P (read (·.getMem a s) h : Op e SizedValue) :=
  .load _ a s fun _ ↦ rfl

instance composed_setMem (a : BitVec 32) (v : SizedValue) :
    Composed P (setMem a v : Op e Unit) :=
  .store _ a v fun _ ↦ rfl

theorem run_read_bind (f : VM → Except VMError SizedValue) (hf) (hf') (vm : VM) :
    (read (fun vm ↦ f vm >>= conv) hf' : Op e α).run vm =
      ((read f hf : Op e SizedValue) >>= fun v ↦ ofExcept (conv v)).run vm := by
  rw [run_bind, run_read, run_read]
  cases f vm <;> rfl

def modrmAddress (offset : Option (BitVec 32)) (reg : Option Register) : Op e (BitVec 32) :=
  read (fun vm ↦ .ok (vm.calculateModrmAddress offset reg)) fun _ _ ↦ rfl

def sibAddress (offset : BitVec 32) (base : Option Register) (scale : BitVec 8)
    (index : Option Register) : Op e (BitVec 32) :=
  read (fun vm ↦ .ok (vm.calculateSibAddress offset base scale index)) fun _ _ ↦ rfl

instance composed_modrmAddress (offset : Option (BitVec 32)) (reg : Option Register) :
    Composed P (modrmAddress offset reg : Op e _) :=
  .inspect _ (fun q ↦ offset.getD 0 + (reg.map q.regs).getD 0) fun _ ↦ rfl

instance composed_sibAddress (offset : BitVec 32) (base : Option Register)
    (scale : BitVec 8) (index : Option Register) :
    Composed P (sibAddress offset base scale index : Op e _) :=
  .inspect _ (fun q ↦
    (base.map q.regs).getD 0 + (index.map q.regs).getD 0 * scale.setWidth 32 + offset) fun _ ↦ rfl

instance composed_getArg (loc : ArgLocation) : Composed P (getArg loc : Op e _) := by
  have hload : ∀ (s : ValueSize) (a : BitVec 32),
      Composed P (read (·.getMem a s) fun _ _ ↦ VM.getMem_setGas .. : Op e SizedValue) :=
    fun s a ↦ composed_getMem a s _
  cases loc with
  | none => exact composed_pure SizedValue.none
  | immediate v => exact composed_pure v
  | address a s => exact hload s a
  | registerValue r s => exact composed_getReg r s
  | registerAddress r s => exact .seq (composed_reg32 r) (hload s) fun _ ↦ rfl
  | modRMAddress offset reg s =>
    exact .seq (composed_modrmAddress offset reg) (hload s) fun _ ↦ rfl
  | sibAddress offset base scale index s =>
    exact .seq (composed_sibAddress offset base scale index) (hload s) fun _ ↦ rfl

variable [Admits P]

instance composed_convert [Converts conv] (v : SizedValue) :
    Composed P (ofExcept (conv v) : Op e α) := by
  cases h : conv v with
  | ok a => exact composed_pure a
  | error x => exact .fail _ x (fun _ ↦ rfl) (Admits.width (Converts.error v x h))

instance composed_getMemAs [Converts conv] (a : BitVec 32) (s : ValueSize) :
    Composed P (getMemAs conv a s : Op e α) :=
  .seq (composed_getMem a s fun _ _ ↦ VM.getMem_setGas ..) composed_convert
    fun vm ↦ run_read_bind _ _ _ vm

instance composed_getArgAs [Converts conv] (loc : ArgLocation) :
    Composed P (getArgAs conv loc : Op e α) :=
  .seq (composed_getArg loc) composed_convert fun vm ↦ run_read_bind _ _ _ vm

instance composed_getArgLea (loc : ArgLocation) : Composed P (getArgLea loc : Op e _) := by
  cases loc with
  | none | immediate | registerValue => exact .fail _ _ (fun _ ↦ rfl) (Admits.raised _ rfl)
  | address a s => exact composed_pure a
  | registerAddress r s => exact composed_reg32 r
  | modRMAddress offset reg s => exact composed_modrmAddress offset reg
  | sibAddress offset base scale index s => exact composed_sibAddress offset base scale index

instance composed_setArg {loc : ArgLocation} [hw : Writes P loc] (v : SizedValue) :
    Composed P (setArg loc v : Op e Unit) := by
  have hconv : ∀ s, Composed P (ofExcept (v.convertSizeZx s) : Op e SizedValue) := by
    intro s
    have : Converts fun v : SizedValue ↦ v.convertSizeZx s := inferInstance
    cases h : v.convertSizeZx s with
    | ok a => exact composed_pure a
    | error x => exact .fail _ x (fun _ ↦ rfl) (Admits.width (this.error v x h))
  cases loc with
  | none => exact composed_pure ()
  | immediate u => exact .fail _ _ (fun _ ↦ rfl) (Writes.immediate u rfl)
  | address a s =>
    refine .seq (hconv s) (fun u ↦ composed_setMem a u) fun vm ↦ ?_
    simp only [run_bind, run_ofExcept, run_setArg, VM.setArg]
    cases v.convertSizeZx s <;> rfl
  | registerValue r s =>
    refine .seq (hconv s) (fun u ↦ composed_setReg r u) fun vm ↦ ?_
    simp only [run_bind, run_ofExcept, run_setArg, VM.setArg]
    cases v.convertSizeZx s <;> rfl
  | registerAddress r s =>
    refine .seq (hconv s) (fun u ↦ .bind _ _ (composed_reg32 r) fun a ↦ composed_setMem a u)
      fun vm ↦ ?_
    simp only [run_bind, run_ofExcept, run_setArg, VM.setArg]
    cases v.convertSizeZx s <;> rfl
  | modRMAddress offset reg s =>
    exact .seq (composed_modrmAddress offset reg)
      (fun a ↦ composed_setMem a (v.convertSizeTrunc s)) fun _ ↦ rfl
  | sibAddress offset base scale index s =>
    exact .seq (composed_sibAddress offset base scale index)
      (fun a ↦ composed_setMem a (v.convertSizeTrunc s)) fun _ ↦ rfl

end Operands

section Families

open Operations

variable {w : OperandWidth} {p : Pipeline}

instance composed_setResultFlags (v : BitVec 8) : Composed P (setResultFlags v : Op e Unit) := by
  dsimp only [setResultFlags]
  infer_instance

instance composed_setProductFlags (b : Bool) : Composed P (setProductFlags b : Op e Unit) := by
  dsimp only [setProductFlags]
  infer_instance

instance composed_storeProduct16 (v : BitVec 32) : Composed P (storeProduct16 v : Op e Unit) := by
  dsimp only [storeProduct16]
  infer_instance

instance composed_storeProduct32 (v : BitVec 64) : Composed P (storeProduct32 v : Op e Unit) := by
  dsimp only [storeProduct32]
  infer_instance

instance composed_advanceIndex (r : Register) (d : BitVec 32) :
    Composed P (advanceIndex r d : Op e Unit) := by
  dsimp only [advanceIndex]
  infer_instance

instance composed_elementStep (n : BitVec 32) : Composed P (elementStep n : Op e _) := by
  dsimp only [elementStep]
  infer_instance

instance composed_advanceEip (n : BitVec 32) : Composed P (advanceEip n) := by
  dsimp only [advanceEip]
  infer_instance

instance composed_jumpTo (a : BitVec 32) : Composed P (jumpTo a p) := by
  dsimp only [jumpTo]
  infer_instance

instance composed_pop16 : Composed P (pop16 : Op e _) := by
  dsimp only [pop16]
  infer_instance

instance composed_pop32 : Composed P (pop32 : Op e _) := by
  dsimp only [pop32]
  infer_instance

instance composed_times (n : ℕ) {c : Op e Unit} [hc : Composed P c] :
    Composed P (times n c) := by
  induction n with
  | zero => exact composed_pure ()
  | succ n ih => exact composed_bind

instance composed_lahf : Composed P (lahf p : Op e Unit) := by
  dsimp only [lahf]
  infer_instance

instance composed_sahf : Composed P (sahf p : Op e Unit) := by
  dsimp only [sahf]
  infer_instance

instance composed_stc : Composed P (stc p : Op e Unit) := by
  dsimp only [stc]
  infer_instance

instance composed_clc : Composed P (clc p : Op e Unit) := by
  dsimp only [clc]
  infer_instance

instance composed_cmc : Composed P (cmc p : Op e Unit) := by
  dsimp only [cmc]
  infer_instance

instance composed_setDirection : Composed P (setDirection p : Op e Unit) := by
  dsimp only [setDirection]
  infer_instance

instance composed_clearDirection : Composed P (clearDirection p : Op e Unit) := by
  dsimp only [clearDirection]
  infer_instance

instance composed_cbwCwde : Composed P (cbwCwde p : Op e Unit) := by
  dsimp only [cbwCwde]
  infer_instance

instance composed_cdqCwd : Composed P (cdqCwd p : Op e Unit) := by
  dsimp only [cdqCwd]
  infer_instance

instance composed_leave : Composed P (leave p : Op e Unit) := by
  dsimp only [leave]
  infer_instance

instance composed_daa : Composed P (daa p : Op e Unit) := by
  dsimp only [daa]
  repeat refine .bind _ _ inferInstance fun _ ↦ ?_
  split
  all_goals
    repeat refine .bind _ _ inferInstance fun _ ↦ ?_
    infer_instance

instance composed_das : Composed P (das p : Op e Unit) := by
  dsimp only [das]
  repeat refine .bind _ _ inferInstance fun _ ↦ ?_
  split
  all_goals
    repeat refine .bind _ _ inferInstance fun _ ↦ ?_
    infer_instance

instance composed_asciiAdjust (low high : BitVec 8 → BitVec 8) :
    Composed P (asciiAdjust low high : Op e Unit) := by
  dsimp only [asciiAdjust]
  infer_instance

instance composed_popAll (pop : Op e SizedValue) [Composed P pop] :
    Composed P (popAll pop : Op e Unit) := by
  dsimp only [popAll]
  repeat refine .bind _ _ inferInstance fun _ ↦ ?_
  infer_instance

instance composed_popa : Composed P (popa p : Op e Unit) := by
  dsimp only [popa]
  infer_instance

section Reads

variable [Admits P]

instance composed_pushStack (v : SizedValue) : Composed P (pushStack v p : Op e Unit) := by
  dsimp only [pushStack]
  infer_instance

instance composed_pushRegister (r : Register) (s : ValueSize) :
    Composed P (pushRegister r s p : Op e Unit) := by
  dsimp only [pushRegister]
  infer_instance

instance composed_pushAll (s : ValueSize) : Composed P (pushAll s p : Op e Unit) := by
  dsimp only [pushAll]
  repeat refine .bind _ _ inferInstance fun _ ↦ ?_
  infer_instance

instance composed_pusha : Composed P (pusha p : Op e Unit) := by
  dsimp only [pusha]
  infer_instance

instance composed_pushNesting (nesting : BitVec 8) (ebp temp : BitVec 32) :
    Composed P (pushNesting nesting ebp temp p : Op e Unit) := by
  dsimp only [pushNesting]
  infer_instance

instance composed_enter : Composed P (enter p) := by
  dsimp only [enter]
  repeat refine .bind _ _ inferInstance fun _ ↦ ?_
  infer_instance

instance composed_push : Composed P (push p : Op e Unit) := by
  dsimp only [push]
  infer_instance

instance composed_pushf : Composed P (pushf p : Op e Unit) := by
  dsimp only [pushf]
  infer_instance

instance composed_popf : Composed P (popf p : Op e Unit) := by
  dsimp only [popf]
  infer_instance

instance composed_xlatb : Composed P (xlatb p : Op e Unit) := by
  dsimp only [xlatb]
  infer_instance

instance composed_popEip : Composed P (popEip p) := by
  dsimp only [popEip]
  infer_instance

instance composed_ret : Composed P (ret p) := by
  dsimp only [ret]
  infer_instance

instance composed_jmpRel : Composed P (jmpRel p) := by
  dsimp only [jmpRel]
  infer_instance

instance composed_jmpAbs : Composed P (jmpAbs p) := by
  dsimp only [jmpAbs]
  infer_instance

instance composed_jmpConditionalEcxIsZero : Composed P (jmpConditionalEcxIsZero p) := by
  dsimp only [jmpConditionalEcxIsZero]
  infer_instance

instance composed_jcc : Composed P (jcc p) := by
  dsimp only [jcc]
  infer_instance

instance composed_throw_divideByZero : Composed P (throw .divideByZero : Op e α) :=
  composed_throw (Admits.raised _ rfl)

instance composed_hlt : Composed P (hlt p : Op e Unit) :=
  composed_throw (Admits.raised _ rfl)

instance composed_aad : Composed P (aad p : Op e Unit) := by
  dsimp only [aad]
  infer_instance

instance composed_aam : Composed P (aam p : Op e Unit) := by
  dsimp only [aam]
  infer_instance

instance composed_div8bit : Composed P (div8bit p : Op e Unit) := by
  dsimp only [div8bit]
  infer_instance

instance composed_div16bit : Composed P (div16bit p : Op e Unit) := by
  dsimp only [div16bit]
  infer_instance

instance composed_div32bit : Composed P (div32bit p : Op e Unit) := by
  dsimp only [div32bit]
  infer_instance

instance composed_divNativeWord : Composed P (divNativeWord p : Op e Unit) := by
  dsimp only [divNativeWord]
  infer_instance

instance composed_mul8bit : Composed P (mul8bit p : Op e Unit) := by
  dsimp only [mul8bit]
  infer_instance

instance composed_mul16bit : Composed P (mul16bit p : Op e Unit) := by
  dsimp only [mul16bit]
  infer_instance

instance composed_mul32bit : Composed P (mul32bit p : Op e Unit) := by
  dsimp only [mul32bit]
  infer_instance

instance composed_mulNativeWord : Composed P (mulNativeWord p : Op e Unit) := by
  dsimp only [mulNativeWord]
  infer_instance

instance composed_imul1_8bit : Composed P (imul1_8bit p : Op e Unit) := by
  dsimp only [imul1_8bit]
  infer_instance

instance composed_imul1_16bit : Composed P (imul1_16bit p : Op e Unit) := by
  dsimp only [imul1_16bit]
  infer_instance

instance composed_imul1_32bit : Composed P (imul1_32bit p : Op e Unit) := by
  dsimp only [imul1_32bit]
  infer_instance

instance composed_imul1NativeWord : Composed P (imul1NativeWord p : Op e Unit) := by
  dsimp only [imul1NativeWord]
  infer_instance

instance composed_idiv8bit : Composed P (idiv8bit p) := by
  dsimp only [idiv8bit]
  infer_instance

instance composed_idiv16bit : Composed P (idiv16bit p) := by
  dsimp only [idiv16bit]
  infer_instance

instance composed_idiv32bit : Composed P (idiv32bit p) := by
  dsimp only [idiv32bit]
  infer_instance

instance composed_idivNativeWord : Composed P (idivNativeWord p) := by
  dsimp only [idivNativeWord]
  infer_instance

section Strings

variable [w.Converts] (n : BitVec 32)

instance composed_movs : Composed P (movs w n : Op e Unit) := by
  dsimp only [movs]
  infer_instance

instance composed_cmps : Composed P (cmps w n : Op e Unit) := by
  dsimp only [cmps]
  infer_instance

instance composed_storeString : Composed P (storeString w n : Op e Unit) := by
  dsimp only [storeString]
  infer_instance

instance composed_loadString : Composed P (loadString w n : Op e Unit) := by
  dsimp only [loadString]
  infer_instance

instance composed_scanString : Composed P (scanString w n : Op e Unit) := by
  dsimp only [scanString]
  infer_instance

end Strings

instance composed_cmp [w.Converts] : Composed P (Operations.cmp w p : Op e Unit) := by
  dsimp only [Operations.cmp]
  infer_instance

end Reads

section Stores

variable [Admits P] [Writes P (p.args 0).location]

instance composed_mov : Composed P (mov p : Op e Unit) := by
  dsimp only [mov]
  infer_instance

instance composed_pop : Composed P (pop p : Op e Unit) := by
  dsimp only [pop]
  infer_instance

instance composed_bswap : Composed P (bswap p : Op e Unit) := by
  dsimp only [bswap]
  infer_instance

instance composed_setcc8bit : Composed P (setcc8bit p : Op e Unit) := by
  dsimp only [setcc8bit]
  infer_instance

instance composed_cmovccNative : Composed P (cmovccNative p : Op e Unit) := by
  dsimp only [cmovccNative]
  infer_instance

instance composed_lea : Composed P (lea p : Op e Unit) := by
  dsimp only [lea]
  infer_instance

instance composed_cmpxchg8b : Composed P (cmpxchg8b p : Op e Unit) := by
  dsimp only [cmpxchg8b]
  infer_instance

instance composed_movx16 (to16 : SizedValue → Except VMError (BitVec 16)) [Converts to16] :
    Composed P (movx16 to16 p : Op e Unit) := by
  dsimp only [movx16]
  infer_instance

instance composed_movx32 (to32 : SizedValue → Except VMError (BitVec 32)) [Converts to32] :
    Composed P (movx32 to32 p : Op e Unit) := by
  dsimp only [movx32]
  infer_instance

instance composed_movzx8bit : Composed P (movzx8bit p : Op e Unit) := by
  dsimp only [movzx8bit]
  infer_instance

instance composed_movsx8bit : Composed P (movsx8bit p : Op e Unit) := by
  dsimp only [movsx8bit]
  infer_instance

instance composed_keepProduct16 (v : BitVec 32) : Composed P (keepProduct16 v p : Op e Unit) := by
  dsimp only [keepProduct16]
  infer_instance

instance composed_keepProduct32 (v : BitVec 64) : Composed P (keepProduct32 v p : Op e Unit) := by
  dsimp only [keepProduct32]
  infer_instance

instance composed_imul2_16bit : Composed P (imul2_16bit p : Op e Unit) := by
  dsimp only [imul2_16bit]
  infer_instance

instance composed_imul2_32bit : Composed P (imul2_32bit p : Op e Unit) := by
  dsimp only [imul2_32bit]
  infer_instance

instance composed_imul2NativeWord : Composed P (imul2NativeWord p : Op e Unit) := by
  dsimp only [imul2NativeWord]
  infer_instance

instance composed_imul3_16bit : Composed P (imul3_16bit p : Op e Unit) := by
  dsimp only [imul3_16bit]
  infer_instance

instance composed_imul3_32bit : Composed P (imul3_32bit p : Op e Unit) := by
  dsimp only [imul3_32bit]
  infer_instance

instance composed_imul3NativeWord : Composed P (imul3NativeWord p : Op e Unit) := by
  dsimp only [imul3NativeWord]
  infer_instance

theorem composed_storeShift (zero parity : BitVec 32) (v : BitVec w.bits) :
    Composed P (storeShift w zero parity v p : Op e Unit) := by
  dsimp only [storeShift]
  infer_instance

instance composed_storeShift8 (zero parity : BitVec 32) (v : BitVec 8) :
    Composed P (storeShift width8 zero parity v p : Op e Unit) :=
  @composed_storeShift _ P width8 p _ _ zero parity v

instance composed_storeShift16 (zero parity : BitVec 32) (v : BitVec 16) :
    Composed P (storeShift width16 zero parity v p : Op e Unit) :=
  @composed_storeShift _ P width16 p _ _ zero parity v

instance composed_storeShift32 (zero parity : BitVec 32) (v : BitVec 32) :
    Composed P (storeShift width32 zero parity v p : Op e Unit) :=
  @composed_storeShift _ P width32 p _ _ zero parity v

instance composed_shl8bit : Composed P (shl8bit p : Op e Unit) := by
  dsimp only [shl8bit]
  infer_instance

instance composed_shl16bit : Composed P (shl16bit p : Op e Unit) := by
  dsimp only [shl16bit]
  infer_instance

instance composed_shl32bit : Composed P (shl32bit p : Op e Unit) := by
  dsimp only [shl32bit]
  infer_instance

instance composed_shlNativeWord : Composed P (shlNativeWord p : Op e Unit) := by
  dsimp only [shlNativeWord]
  infer_instance

instance composed_shr8bit : Composed P (shr8bit p : Op e Unit) := by
  dsimp only [shr8bit]
  infer_instance

instance composed_shr16bit : Composed P (shr16bit p : Op e Unit) := by
  dsimp only [shr16bit]
  infer_instance

instance composed_shr32bit : Composed P (shr32bit p : Op e Unit) := by
  dsimp only [shr32bit]
  infer_instance

instance composed_shrNativeWord : Composed P (shrNativeWord p : Op e Unit) := by
  dsimp only [shrNativeWord]
  infer_instance

instance composed_rcl32bit : Composed P (rcl32bit p : Op e Unit) := by
  dsimp only [rcl32bit]
  infer_instance

section Width

variable [w.Converts]

instance composed_add : Composed P (add w p : Op e Unit) := by
  dsimp only [add]
  infer_instance

instance composed_sub : Composed P (sub w p : Op e Unit) := by
  dsimp only [sub]
  infer_instance

instance composed_adc : Composed P (adc w p : Op e Unit) := by
  dsimp only [adc]
  infer_instance

instance composed_sbb : Composed P (sbb w p : Op e Unit) := by
  dsimp only [sbb]
  infer_instance

instance composed_invert : Composed P (invert w p : Op e Unit) := by
  dsimp only [invert]
  infer_instance

instance composed_negate : Composed P (negate w p : Op e Unit) := by
  dsimp only [negate]
  infer_instance

instance composed_cmpxchg : Composed P (cmpxchg w p : Op e Unit) := by
  dsimp only [cmpxchg]
  infer_instance

instance composed_sar : Composed P (sar w p : Op e Unit) := by
  dsimp only [sar]
  infer_instance

instance composed_bitwise (op : BitVec w.bits → BitVec w.bits → BitVec w.bits) (stores : Bool) :
    Composed P (bitwise w op stores p : Op e Unit) := by
  dsimp only [bitwise]
  infer_instance

instance composed_step (result : BitVec w.bits → BitVec w.bits)
    (overflow adjust : BitVec w.bits → Bool) :
    Composed P (step w result overflow adjust p : Op e Unit) := by
  unfold Operations.step
  infer_instance

instance composed_increment : Composed P (increment w p : Op e Unit) := by
  dsimp only [increment]
  infer_instance

instance composed_decrement : Composed P (decrement w p : Op e Unit) := by
  dsimp only [decrement]
  infer_instance

instance composed_rol (reduce : BitVec w.bits → BitVec w.bits) :
    Composed P (rol w reduce p : Op e Unit) := by
  dsimp only [rol]
  infer_instance

instance composed_rcl (reduce : BitVec w.bits → BitVec w.bits) :
    Composed P (rcl w reduce p : Op e Unit) := by
  dsimp only [rcl]
  infer_instance

instance composed_rcr (reduce : BitVec w.bits → BitVec w.bits) :
    Composed P (rcr w reduce p : Op e Unit) := by
  dsimp only [rcr]
  infer_instance

instance composed_ror (reduce : BitVec w.bits → BitVec w.bits) (second : BitVec w.bits) :
    Composed P (ror w reduce second p : Op e Unit) := by
  dsimp only [ror]
  infer_instance

instance composed_bitTestWith (conv : SizedValue → Except VMError (BitVec w.bits)) [Converts conv]
    (value : Option (Bool → Bool)) : Composed P (bitTestWith w conv value p : Op e Unit) := by
  dsimp only [bitTestWith]
  cases value with
  | none => infer_instance
  | some value => infer_instance

end Width

end Stores

section Second

variable [Admits P] [Writes P (p.args 1).location]

instance composed_call {jump : Pipeline → Op .jump Unit} [Composed P (jump p)] :
    Composed P (call jump p) := by
  dsimp only [call]
  infer_instance

instance composed_bitScan {bit : {w : ℕ} → BitVec w → BitVec 8 → Bool}
    {index : {w : ℕ} → BitVec w → BitVec w} [w.Converts] :
    Composed P (bitScan bit index w p : Op e Unit) := by
  refine .bind _ _ inferInstance fun source ↦ ?_
  split
  · infer_instance
  · infer_instance

section Both

variable [Writes P (p.args 0).location]

instance composed_xchg : Composed P (xchg p : Op e Unit) := by
  dsimp only [xchg]
  infer_instance

instance composed_xadd [w.Converts] : Composed P (xadd w p : Op e Unit) := by
  dsimp only [xadd]
  infer_instance

end Both

end Second

instance composed_bitwise_flags [Admits P] [w.Converts]
    (op : BitVec w.bits → BitVec w.bits → BitVec w.bits) :
    Composed P (bitwise w op false p : Op e Unit) := by
  simp only [bitwise, Bool.false_eq_true, if_false]
  infer_instance

instance composed_bitTestWith_none [Admits P] [w.Converts]
    (conv : SizedValue → Except VMError (BitVec w.bits)) [Converts conv] :
    Composed P (bitTestWith w conv none p : Op e Unit) := by
  dsimp only [bitTestWith]
  infer_instance

instance composed_nativeWord {f : OperandWidth → Pipeline → Op e Unit}
    [Composed P (f width16 p)] [Composed P (f width32 p)] :
    Composed P (nativeWord f p) := composed_ite

instance composed_stringNativeWord {f : OperandWidth → BitVec 32 → Op e Unit}
    [Composed P (f width16 2)] [Composed P (f width32 4)] :
    Composed P (stringNativeWord f p) := composed_ite

end Families

end Op

namespace LogicFn

open Operations Op

/-- The arguments that a function may store to. -/
def written : LogicFn → List (Fin 3)
  | mov | pop | bswap | bitTestSet | bitTestReset | bitTestComplement | imul2NativeWord
  | imul3NativeWord | rol8bit | rolNativeWord | rcl8bit | rclNativeWord | rcr8bit
  | rcrNativeWord | ror8bit | rorNativeWord | sar8bit | sarNativeWord | shl8bit | shlNativeWord
  | shr8bit | shrNativeWord | adc8bit | adcNativeWord | sbb8bit | sbbNativeWord | add8bit
  | addNativeWord | increment8bit | incrementNativeWord | sub8bit | subNativeWord
  | decrement8bit | decrementNativeWord | cmpxchg8bit | cmpxchgNativeWord | testNativeWord
  | and8bit | andNativeWord | or8bit | orNativeWord | xor8bit | xorNativeWord | not8bit
  | notNativeWord | neg8bit | negNativeWord | setcc8bit | cmovccNative | lea | movzx8bit
  | movzx16bit | movsx8bit | movsx16bit => [0]
  | bitScanForward | bitScanReverse | callRel | callAbs => [1]
  | xchg | xadd8bit | xaddNativeWord => [0, 1]
  | _ => []

variable {P : VMError → Prop} [Admits P]

/-- Every logic function is made of steps of the processor, loads and stores. -/
theorem composed (f : LogicFn) (p : Pipeline)
    (hw : ∀ n ∈ f.written, Writes P (p.args n).location) : Composed P (f.logic p) := by
  cases f with
  | nop => exact composed_pure ()
  | opUndefined =>
    exact .bind _ _ inferInstance fun _ ↦ .bind _ _ inferInstance fun _ ↦
      composed_throw (Admits.raised _ rfl)
  | enter => exact composed_enter
  | ret => exact composed_ret
  | jmpRel => exact composed_jmpRel
  | jmpAbs => exact composed_jmpAbs
  | jmpConditionalEcxIsZero => exact composed_jmpConditionalEcxIsZero
  | jcc => exact composed_jcc
  | idiv8bit => exact composed_idiv8bit
  | idivNativeWord => exact composed_idivNativeWord
  | pusha | popa | leave | push | pushf | popf | lahf | sahf | stc | clc | cmc | xlatb | cbwCwde
  | cdqCwd | bitTest | div8bit | divNativeWord | mul8bit | mulNativeWord | imul1_8bit
  | imul1NativeWord | aaa | aas | daa | das | aad | aam | hlt | cmpxchg8b | cmp8bit
  | cmpNativeWord | test8bit | movsNativeWord | movsb | setDirection | clearDirection
  | cmpsNativeWord | cmpsb | storeStringByte | loadStringByte | scanStringByte
  | storeStringNativeWord | loadStringNativeWord | scanStringNativeWord =>
    dsimp only [logic, Operations.bitTest, Operations.aaa, Operations.aas, Operations.cmp8bit,
      Operations.cmpNativeWord, Operations.test8bit, Operations.movsNativeWord,
      Operations.movsb, Operations.cmpsNativeWord, Operations.cmpsb, Operations.storeStringByte,
      Operations.loadStringByte, Operations.scanStringByte, Operations.storeStringNativeWord,
      Operations.loadStringNativeWord, Operations.scanStringNativeWord]
    infer_instance
  | ror8bit =>
    have := hw 0 (by decide)
    exact @composed_ror .straight P width8 p _ _ _ (BitVec.umod · 8) (BitVec.ofNat 8 0x40)
  | rorNativeWord =>
    have := hw 0 (by decide)
    exact @composed_ite _ _ P _ _ _ _ (@composed_ror _ P width16 p _ _ _ _ _)
      (@composed_ror _ P width32 p _ _ _ _ _)
  | callRel =>
    have := hw 1 (by decide)
    exact composed_call
  | callAbs =>
    have := hw 1 (by decide)
    exact composed_call
  | mov | pop | bswap | bitTestSet | bitTestReset | bitTestComplement | imul2NativeWord
  | imul3NativeWord | rol8bit | rolNativeWord | rcl8bit | rclNativeWord | rcr8bit
  | rcrNativeWord | sar8bit | sarNativeWord | shl8bit | shlNativeWord | shr8bit | shrNativeWord
  | adc8bit | adcNativeWord | sbb8bit | sbbNativeWord | add8bit | addNativeWord | increment8bit
  | incrementNativeWord | sub8bit | subNativeWord | decrement8bit | decrementNativeWord
  | cmpxchg8bit | cmpxchgNativeWord | testNativeWord | and8bit | andNativeWord | or8bit
  | orNativeWord | xor8bit | xorNativeWord | not8bit | notNativeWord | neg8bit | negNativeWord
  | setcc8bit | cmovccNative | lea | movzx8bit | movzx16bit | movsx8bit | movsx16bit =>
    have := hw 0 (by decide)
    dsimp only [logic, Operations.bitTestSet, Operations.bitTestReset,
      Operations.bitTestComplement, Operations.rol8bit, Operations.rolNativeWord,
      Operations.rcl8bit, Operations.rclNativeWord, Operations.rcr8bit,
      Operations.rcrNativeWord, Operations.sar8bit, Operations.sarNativeWord,
      Operations.adc8bit, Operations.adcNativeWord, Operations.sbb8bit,
      Operations.sbbNativeWord, Operations.add8bit, Operations.addNativeWord,
      Operations.increment8bit, Operations.incrementNativeWord, Operations.sub8bit,
      Operations.subNativeWord, Operations.decrement8bit, Operations.decrementNativeWord,
      Operations.cmpxchg8bit, Operations.cmpxchgNativeWord, Operations.testNativeWord,
      Operations.and8bit, Operations.andNativeWord, Operations.or8bit, Operations.orNativeWord,
      Operations.xor8bit, Operations.xorNativeWord, Operations.not8bit,
      Operations.notNativeWord, Operations.neg8bit, Operations.negNativeWord,
      Operations.movzx16bit, Operations.movsx16bit]
    infer_instance
  | bitScanForward | bitScanReverse =>
    have := hw 1 (by decide)
    dsimp only [logic, Operations.bitScanForward, Operations.bitScanReverse]
    infer_instance
  | xchg | xadd8bit | xaddNativeWord =>
    have := hw 0 (by decide)
    have := hw 1 (by decide)
    dsimp only [logic, Operations.xadd8bit, Operations.xaddNativeWord]
    infer_instance

end LogicFn

end Qx86
