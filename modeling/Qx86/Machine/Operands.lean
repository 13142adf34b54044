import Qx86.Machine.WidthSafe

namespace Qx86

open Foundation

/-- Functions that read nothing of a slot but its operands and its size. -/
def LogicFn.operandsOnly : LogicFn → Bool
  | nop | opUndefined | mov | push | pop | xchg | imul3NativeWord | incrementNativeWord
  | decrementNativeWord | test8bit | testNativeWord | add8bit | addNativeWord | or8bit
  | orNativeWord | adc8bit | adcNativeWord | sbb8bit | sbbNativeWord | and8bit | andNativeWord
  | sub8bit | subNativeWord | xor8bit | xorNativeWord | cmp8bit | cmpNativeWord | rol8bit
  | rolNativeWord | ror8bit | rorNativeWord | rcl8bit | rclNativeWord | rcr8bit | rcrNativeWord
  | shl8bit | shlNativeWord | shr8bit | shrNativeWord | sar8bit | sarNativeWord => true
  | _ => false

def operandSlot (sizeOverride : Bool) (locations : Fin 3 → ArgLocation) : Pipeline :=
  { (default : Pipeline) with
    args := fun n ↦ ⟨locations n, false⟩
    sizeOverride := sizeOverride }

theorem LogicFn.logic_operands {f : LogicFn} (h : f.operandsOnly = true) (p : Pipeline) :
    f.logic p = f.logic (operandSlot p.sizeOverride fun n ↦ (p.args n).location) := by
  cases f with
  | nop | opUndefined | mov | push | pop | xchg | imul3NativeWord | incrementNativeWord
  | decrementNativeWord | test8bit | testNativeWord | add8bit | addNativeWord | or8bit
  | orNativeWord | adc8bit | adcNativeWord | sbb8bit | sbbNativeWord | and8bit | andNativeWord
  | sub8bit | subNativeWord | xor8bit | xorNativeWord | cmp8bit | cmpNativeWord | rol8bit
  | rolNativeWord | ror8bit | rorNativeWord | rcl8bit | rclNativeWord | rcr8bit | rcrNativeWord
  | shl8bit | shlNativeWord | shr8bit | shrNativeWord | sar8bit | sarNativeWord => rfl
  | _ => cases h

/-- Two steps with the same result and the same effect on registers, flags and memory. -/
structure SameEffect (r r' : Outcome VMError Unit × VM) : Prop where
  result : r.1 = r'.1
  regs : r.2.regs = r'.2.regs
  flags : r.2.flags = r'.2.flags
  memory : r.2.memory = r'.2.memory

theorem SameEffect.of_eq {r r' : Outcome VMError Unit × VM} (h : r = r') : SameEffect r r' := by
  subst h
  exact ⟨rfl, rfl, rfl, rfl⟩

def VM.stackSlot (vm : VM) (so : Bool) : BitVec 32 := vm.regs .esp - if so then 2 else 4

def VM.StackWriteable (vm : VM) (so : Bool) : Prop :=
  ∃ t, vm.setMem (vm.stackSlot so) ((nativeWidth so).sized 0) = .ok t

namespace Operations

open Op Register SizedValue

variable {e : Effects} {α β γ : Type} {so : Bool} {l₀ l₁ l₁' l₂ : ArgLocation}

section Read

theorem getArgAs_congr {conv : SizedValue → Except VMError α} {l l' : ArgLocation}
    (h : ∀ vm : VM, vm.getArg l >>= conv = vm.getArg l' >>= conv) :
    (getArgAs conv l : Op e α) = getArgAs conv l' := by
  simp only [getArgAs, h]

theorem getArgAs_immediate {conv : SizedValue → Except VMError α} {v v' : SizedValue}
    (h : conv v = conv v') :
    (getArgAs conv (.immediate v) : Op e α) = getArgAs conv (.immediate v') :=
  getArgAs_congr fun _ ↦ h

theorem run_second {c₀ : SizedValue → Except VMError α} {c₁ : SizedValue → Except VMError β}
    {k : α → β → Op e γ} {vm : VM} (h : vm.getArg l₁ = vm.getArg l₁') :
    (getArgAs c₀ l₀ >>= fun a ↦ getArgAs c₁ l₁ >>= k a).run vm =
      (getArgAs c₀ l₀ >>= fun a ↦ getArgAs c₁ l₁' >>= k a).run vm := by
  rw [run_bind, run_bind, run_getArgAs]
  cases vm.getArg l₀ >>= c₀ with
  | ok a =>
    change (getArgAs c₁ l₁ >>= k a).run vm = (getArgAs c₁ l₁' >>= k a).run vm
    rw [run_bind, run_bind, run_getArgAs, run_getArgAs, h]
  | error x => rfl

end Read

section Alu

def alu : Fin 8 → OperandWidth → Pipeline → Op e Unit :=
  ![add, fun w ↦ bitwise w (· ||| ·) true, adc, sbb, fun w ↦ bitwise w (· &&& ·) true, sub,
    fun w ↦ bitwise w (· ^^^ ·) true, cmp]

/-- They read their second operand as an extended one only. -/
theorem alu_congr (k : Fin 8) {w : OperandWidth} {p q : Pipeline}
    (h₀ : (p.args 0).location = (q.args 0).location)
    (h₁ : (getArgAs w.extended (p.args 1).location : Op e _) =
      getArgAs w.extended (q.args 1).location) : (alu k w p : Op e Unit) = alu k w q := by
  have hadd : (add w p : Op e Unit) = add w q := by simp only [add, h₀, h₁]
  have hsub : (sub w p : Op e Unit) = sub w q := by simp only [sub, h₀, h₁]
  have hadc : (adc w p : Op e Unit) = adc w q := by simp only [adc, hadd, h₀]
  have hsbb : (sbb w p : Op e Unit) = sbb w q := by simp only [sbb, hsub, h₀]
  have hcmp : (cmp w p : Op e Unit) = cmp w q := by simp only [cmp, h₀, h₁]
  have hbitwise : ∀ op, (bitwise w op true p : Op e Unit) = bitwise w op true q := by
    intro op
    simp only [bitwise, h₀, h₁]
  rcases k with ⟨_ | _ | _ | _ | _ | _ | _ | _ | k, hk⟩
  exacts [hadd, hbitwise _, hadc, hsbb, hbitwise _, hsub, hbitwise _, hcmp,
    absurd hk (Nat.not_lt_of_ge (Nat.le_add_left 8 k))]

def alu8bit : Fin 8 → LogicFn :=
  ![.add8bit, .or8bit, .adc8bit, .sbb8bit, .and8bit, .sub8bit, .xor8bit, .cmp8bit]

def aluNativeWord : Fin 8 → LogicFn :=
  ![.addNativeWord, .orNativeWord, .adcNativeWord, .sbbNativeWord, .andNativeWord,
    .subNativeWord, .xorNativeWord, .cmpNativeWord]

theorem aluNativeWord_run (k : Fin 8) (p : Pipeline) (vm : VM) :
    ((aluNativeWord k).logic p).run vm =
      (alu k (nativeWidth p.sizeOverride) p : Op .straight Unit).run vm := by
  cases hso : p.sizeOverride with
  | true =>
    match k with
    | 0 | 1 | 2 | 3 | 4 | 5 | 6 | 7 => exact congrArg (Op.run · vm) (if_pos hso)
  | false =>
    have hn : ¬p.sizeOverride = true := by simp [hso]
    match k with
    | 0 | 1 | 2 | 3 | 4 | 5 | 6 | 7 => exact congrArg (Op.run · vm) (if_neg hn)

theorem aluNativeWord_congr (k : Fin 8) {v v' : SizedValue}
    (h : (nativeWidth so).extended v = (nativeWidth so).extended v') (vm : VM) :
    ((aluNativeWord k).logic (operandSlot so ![l₀, .immediate v, .none])).run vm =
      ((aluNativeWord k).logic (operandSlot so ![l₀, .immediate v', .none])).run vm := by
  rw [aluNativeWord_run, aluNativeWord_run]
  exact congrArg (Op.run · vm) (alu_congr k rfl (getArgAs_immediate h))

theorem extended_byte (so : Bool) (b : BitVec 8) :
    (nativeWidth so).extended (.byte b) = (nativeWidth so).extended
      ((nativeWidth so).sized (b.signExtend _)) := by
  cases so <;> rfl

end Alu

section Shifts

variable {vm : VM}

def shift8bit : Fin 8 → LogicFn :=
  ![.rol8bit, .ror8bit, .rcl8bit, .rcr8bit, .shl8bit, .shr8bit, .opUndefined, .sar8bit]

def shiftNativeWord : Fin 8 → LogicFn :=
  ![.rolNativeWord, .rorNativeWord, .rclNativeWord, .rcrNativeWord, .shlNativeWord,
    .shrNativeWord, .opUndefined, .sarNativeWord]

theorem shift8bit_congr (k : Fin 8) (h : vm.getArg l₁ = vm.getArg l₁') :
    ((shift8bit k).logic (operandSlot so ![l₀, l₁, .none])).run vm =
      ((shift8bit k).logic (operandSlot so ![l₀, l₁', .none])).run vm := by
  match k with
  | 6 => rfl
  | 0 | 1 | 2 | 3 | 4 | 5 | 7 => exact run_second h

theorem shiftNativeWord_congr (k : Fin 8) (h : vm.getArg l₁ = vm.getArg l₁') :
    ((shiftNativeWord k).logic (operandSlot so ![l₀, l₁, .none])).run vm =
      ((shiftNativeWord k).logic (operandSlot so ![l₀, l₁', .none])).run vm := by
  cases so with
  | true =>
    match k with
    | 6 => rfl
    | 0 | 1 | 2 | 3 | 4 | 5 | 7 => exact run_second h
  | false =>
    match k with
    | 6 => rfl
    | 0 | 1 | 2 | 3 | 4 | 5 | 7 => exact run_second h

end Shifts

section Product

/-- A product takes its immediate as a dword, whatever the size of the other factor. -/
theorem imul3NativeWord_congr {v v' : SizedValue} (h : v.u32Sx = v'.u32Sx) :
    (imul3NativeWord (operandSlot so ![l₀, l₁, .immediate v]) : Op e Unit) =
      imul3NativeWord (operandSlot so ![l₀, l₁, .immediate v']) := by
  have himm : (getArgAs u32Sx (.immediate v) : Op e _) = getArgAs u32Sx (.immediate v') :=
    getArgAs_immediate h
  have h₁₆ : (imul3_16bit (operandSlot so ![l₀, l₁, .immediate v]) : Op e Unit) =
      imul3_16bit (operandSlot so ![l₀, l₁, .immediate v']) := by
    change (getArgAs u32Sx l₁ >>= fun _ ↦ getArgAs u32Sx (.immediate v) >>= _) = _
    rw [himm]
    rfl
  have h₃₂ : (imul3_32bit (operandSlot so ![l₀, l₁, .immediate v]) : Op e Unit) =
      imul3_32bit (operandSlot so ![l₀, l₁, .immediate v']) := by
    change (getArgAs u32Sx l₁ >>= fun _ ↦ getArgAs u32Sx (.immediate v) >>= _) = _
    rw [himm]
    rfl
  cases so with
  | true => exact h₁₆
  | false => exact h₃₂

theorem u32Sx_byte (so : Bool) (b : BitVec 8) :
    (SizedValue.byte b).u32Sx = ((nativeWidth so).sized (b.signExtend _)).u32Sx := by
  cases so with
  | true =>
    refine congrArg Except.ok (BitVec.eq_of_toInt_eq ?_)
    change (b.signExtend 32).toInt = ((b.signExtend 16).signExtend 32).toInt
    rw [BitVec.toInt_signExtend_of_le (by decide), BitVec.toInt_signExtend_of_le (by decide),
      BitVec.toInt_signExtend_of_le (by decide)]
  | false => rfl

end Product

section Exchange

variable {vm : VM} {r r' : Register}

theorem setReg32_regs (r : Register) : vm.setReg32 r (vm.regs r) = vm := by
  rw [VM.setReg32, Function.update_eq_self]

theorem setReg32_comm (h : r ≠ r') (v v' : BitVec 32) :
    (vm.setReg32 r v).setReg32 r' v' = (vm.setReg32 r' v').setReg32 r v := by
  simp only [VM.setReg32]
  rw [Function.update_comm h]

theorem merge_low (x : BitVec 32) :
    (x &&& 0xFFFF0000) ||| ((x &&& 0xFFFF).setWidth 16).setWidth 32 = x := by
  apply BitVec.eq_of_getLsbD_eq
  intro i hi
  simp only [BitVec.getLsbD_or, BitVec.getLsbD_and, BitVec.getLsbD_setWidth]
  have hmask : (0xFFFF0000 : BitVec 32).getLsbD i = decide (16 ≤ i) ∧
      (0xFFFF : BitVec 32).getLsbD i = decide (i < 16) := by
    have hall : ∀ i : Fin 32, (0xFFFF0000 : BitVec 32).getLsbD i = decide (16 ≤ i.val) ∧
        (0xFFFF : BitVec 32).getLsbD i = decide (i.val < 16) := by
      decide
    exact hall ⟨i, hi⟩
  rw [hmask.1, hmask.2]
  by_cases h : i < 16
  · simp [h, hi, Nat.not_le.mpr h]
  · simp [h, Nat.not_lt.mp h]

def nativeStore (so : Bool) (old new : BitVec 32) : BitVec 32 :=
  if so then (old &&& 0xFFFF0000) ||| ((new &&& 0xFFFF).setWidth 16).setWidth 32 else new

theorem setReg_getReg (so : Bool) (vm vm' : VM) (r r' : Register) :
    vm.setReg r (vm'.getReg r' (nativeSize so)) =
      vm.setReg32 r (nativeStore so (vm.regs r) (vm'.regs r')) := by
  cases so <;> rfl

theorem xchg_run (so : Bool) (vm : VM) (r r' : Register) :
    (xchg (operandSlot so ![.registerValue r (nativeSize so), .registerValue r' (nativeSize so),
      .none]) : Op e Unit).run vm =
      (.ok (), (vm.setReg r (vm.getReg r' (nativeSize so))).setReg r'
        (vm.getReg r (nativeSize so))) := by
  cases so <;> rfl

theorem xchg_comm (so : Bool) (vm : VM) (r r' : Register) :
    (xchg (operandSlot so ![.registerValue r (nativeSize so), .registerValue r' (nativeSize so),
      .none]) : Op e Unit).run vm =
      (xchg (operandSlot so ![.registerValue r' (nativeSize so), .registerValue r (nativeSize so),
        .none]) : Op e Unit).run vm := by
  by_cases h : r = r'
  · rw [h]
  · have hne : r' ≠ r := Ne.symm h
    rw [xchg_run, xchg_run]
    simp only [setReg_getReg]
    rw [setReg32_comm h]
    simp only [VM.setReg32, Function.update_of_ne h, Function.update_of_ne hne]

theorem xchg_self (so : Bool) (vm : VM) (r : Register) :
    (xchg (operandSlot so ![.registerValue r (nativeSize so), .registerValue r (nativeSize so),
      .none]) : Op e Unit).run vm = (.ok (), vm) := by
  have hstore : nativeStore so (vm.regs r) (vm.regs r) = vm.regs r := by
    cases so with
    | true => exact merge_low _
    | false => rfl
  rw [xchg_run]
  simp only [setReg_getReg]
  rw [hstore, setReg32_regs, hstore, setReg32_regs]

end Exchange

section Push

theorem overwrite_injective {l d d' : List (BitVec 8)} {i : ℕ} (hl : d.length = d'.length)
    (h : i + d.length ≤ l.length)
    (he : Bytes.overwrite l i d = Bytes.overwrite l i d') : d = d' := by
  apply List.ext_getElem?
  intro j
  by_cases hj : j < d.length
  · have hget := congrArg (·[i + j]?) he
    have hin : i ≤ i + j ∧ i + j < i + d.length := by omega
    simp only [Bytes.overwrite_getElem? l i d h,
      Bytes.overwrite_getElem? l i d' (hl ▸ h)] at hget
    rw [if_pos hin, if_pos (hl ▸ hin), Nat.add_sub_cancel_left] at hget
    exact hget
  · rw [List.getElem?_eq_none (by omega), List.getElem?_eq_none (by omega)]

theorem setBytes_eq_iff {m : MemorySystem} {a size : BitVec 32} {d d' : List (BitVec 8)}
    (hd : d.length = size.toNat) (hd' : d'.length = size.toNat) :
    m.setBytes a size d = m.setBytes a size d' ↔
      d = d' ∨ ¬∃ m', m.setBytes a size d = .ok m' := by
  cases hs : m.getMutSizedMemory a size with
  | error e => simp [MemorySystem.setBytes, hs, bind, Except.bind]
  | ok s =>
    obtain ⟨b, start⟩ := s
    obtain ⟨-, hstart, hn⟩ := MemorySystem.getMutSizedMemory_section hs
    simp only [MemorySystem.setBytes, hs, bind, Except.bind, Except.ok.injEq, exists_eq',
      not_true_eq_false, or_false]
    constructor
    · intro he
      have hmap := congrArg (fun m : MemorySystem ↦ m.map (MemorySystem.page a)) he
      simp only [MemorySystem.insert, if_true, Option.some.injEq] at hmap
      apply overwrite_injective (hd.trans hd'.symm) _ (congrArg BufferMemory.memory hmap)
      rw [hd, hstart]
      exact hn
    · rintro rfl
      rfl

theorem setBytes_ok_iff {m : MemorySystem} {a size : BitVec 32} (d d' : List (BitVec 8)) :
    (∃ m', m.setBytes a size d = .ok m') ↔ ∃ m', m.setBytes a size d' = .ok m' := by
  simp only [MemorySystem.setBytes]
  cases m.getMutSizedMemory a size with
  | error e => exact iff_of_false nofun nofun
  | ok s => exact iff_of_true ⟨_, rfl⟩ ⟨_, rfl⟩

theorem leBytes_injective {w n : ℕ} (hw : w = 8 * n) {x y : BitVec w} :
    Bytes.leBytes n x = Bytes.leBytes n y ↔ x = y := by
  constructor
  · intro h
    rw [← Bytes.fromLeBytes_leBytes n x hw, h, Bytes.fromLeBytes_leBytes n y hw]
  · rintro rfl
    rfl

theorem setSized_native_iff {m : MemorySystem} {a : BitVec 32} (so : Bool)
    (x y : BitVec (nativeWidth so).bits) :
    m.setSized a ((nativeWidth so).sized x) = m.setSized a ((nativeWidth so).sized y) ↔
      x = y ∨ ¬∃ m', m.setSized a ((nativeWidth so).sized 0) = .ok m' := by
  cases so with
  | true =>
    refine (setBytes_eq_iff (Bytes.leBytes_length 2 _) (Bytes.leBytes_length 2 _)).trans ?_
    exact or_congr (leBytes_injective rfl) (not_congr (setBytes_ok_iff _ _))
  | false =>
    refine (setBytes_eq_iff (Bytes.leBytes_length 4 _) (Bytes.leBytes_length 4 _)).trans ?_
    exact or_congr (leBytes_injective rfl) (not_congr (setBytes_ok_iff _ _))

theorem setMem_readOnly {vm : VM} {a : BitVec 32} (h : a &&& 0x80000000 = 0) (v : SizedValue) :
    vm.setMem a v = .error (.wroteReadOnlyMemory a) := if_pos h

theorem setMem_writeable {vm : VM} {a : BitVec 32} (h : ¬a &&& 0x80000000 = 0)
    (v : SizedValue) :
    vm.setMem a v = (fun m ↦ { vm with memory := m }) <$> vm.memory.setSized a v := if_neg h

theorem setMem_ok_iff {vm : VM} {a : BitVec 32} (h : ¬a &&& 0x80000000 = 0) {v : SizedValue} :
    (∃ t, vm.setMem a v = .ok t) ↔ ∃ m, vm.memory.setSized a v = .ok m := by
  rw [setMem_writeable h]
  cases vm.memory.setSized a v with
  | error x =>
    constructor
    · rintro ⟨t, ht⟩
      cases ht
    · rintro ⟨m, hm⟩
      cases hm
  | ok m => exact iff_of_true ⟨_, rfl⟩ ⟨m, rfl⟩

theorem setMem_eq_iff {vm : VM} {a : BitVec 32} (h : ¬a &&& 0x80000000 = 0)
    {v v' : SizedValue} :
    vm.setMem a v = vm.setMem a v' ↔ vm.memory.setSized a v = vm.memory.setSized a v' := by
  rw [setMem_writeable h, setMem_writeable h]
  cases vm.memory.setSized a v <;> cases vm.memory.setSized a v' <;> simp

theorem setMem_native_iff {vm : VM} {a : BitVec 32} (so : Bool)
    (x y : BitVec (nativeWidth so).bits) :
    vm.setMem a ((nativeWidth so).sized x) = vm.setMem a ((nativeWidth so).sized y) ↔
      x = y ∨ ¬∃ t, vm.setMem a ((nativeWidth so).sized 0) = .ok t := by
  by_cases h : a &&& 0x80000000 = 0
  · rw [setMem_readOnly h, setMem_readOnly h, setMem_readOnly h]
    refine iff_of_true rfl (.inr ?_)
    rintro ⟨t, ht⟩
    cases ht
  · rw [setMem_eq_iff h, setMem_ok_iff h]
    exact setSized_native_iff so x y

theorem storeResult_sameEffect_iff {vm : VM} {a : BitVec 32} {v v' : SizedValue} :
    SameEffect (storeResult vm (vm.setMem a v)) (storeResult vm (vm.setMem a v')) ↔
      vm.setMem a v = vm.setMem a v' := by
  constructor
  · intro h
    have hresult := h.result
    have hmemory := h.memory
    by_cases ha : a &&& 0x80000000 = 0
    · rw [setMem_readOnly ha, setMem_readOnly ha]
    · rw [setMem_writeable ha, setMem_writeable ha] at hresult hmemory ⊢
      cases hv : vm.memory.setSized a v with
      | error x =>
        cases hv' : vm.memory.setSized a v' with
        | error x' =>
          rw [hv, hv'] at hresult
          cases hresult
          rfl
        | ok m' =>
          rw [hv, hv'] at hresult
          cases hresult
      | ok m =>
        cases hv' : vm.memory.setSized a v' with
        | error x' =>
          rw [hv, hv'] at hresult
          cases hresult
        | ok m' =>
          rw [hv, hv'] at hmemory
          change m = m' at hmemory
          rw [hmemory]
  · intro h
    rw [h]
    exact .of_eq rfl

def pushed (so : Bool) (x : BitVec (nativeWidth so).bits) (vm : VM) :
    Outcome VMError Unit × VM :=
  storeResult (vm.setReg32 esp (vm.stackSlot so))
    ((vm.setReg32 esp (vm.stackSlot so)).setMem (vm.stackSlot so) ((nativeWidth so).sized x))

theorem push_byte (so : Bool) (b : BitVec 8) (vm : VM) :
    (push (operandSlot so ![.immediate (.byte b), .none, .none]) : Op e Unit).run vm =
      pushed so (b.setWidth _) vm := by
  cases so <;> rfl

theorem push_native (so : Bool) (x : BitVec (nativeWidth so).bits) (vm : VM) :
    (push (operandSlot so ![.immediate ((nativeWidth so).sized x), .none, .none]) :
      Op e Unit).run vm = pushed so x vm := by
  cases so <;> rfl

theorem pushed_sameEffect_iff {so : Bool} {x y : BitVec (nativeWidth so).bits} {vm : VM} :
    SameEffect (pushed so x vm) (pushed so y vm) ↔ x = y ∨ ¬vm.StackWriteable so := by
  refine storeResult_sameEffect_iff.trans ((setMem_native_iff so x y).trans ?_)
  refine or_congr_right (not_congr ?_)
  by_cases h : vm.stackSlot so &&& 0x80000000 = 0
  · rw [VM.StackWriteable, setMem_readOnly h, setMem_readOnly h]
  · rw [VM.StackWriteable, setMem_ok_iff h, setMem_ok_iff h]
    rfl

theorem setWidth_eq_signExtend (so : Bool) (b : BitVec 8) :
    b.setWidth (nativeWidth so).bits = b.signExtend (nativeWidth so).bits ↔ ¬b.msb = true := by
  cases so <;> revert b <;> decide +kernel

end Push

end Operations

end Qx86
