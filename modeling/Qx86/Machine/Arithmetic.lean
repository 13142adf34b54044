import Qx86.Machine.Places
import Qx86.Machine.Status

namespace Qx86

open Foundation Op Operations

def ElementWidth.select (w : ElementWidth) (byte native : LogicFn) : LogicFn :=
  match w with
  | .byte => byte
  | .word | .dword => native

/-- The operands of a slot have a width: a native function takes it from the prefix. -/
def Pipeline.HasWidth (p : Pipeline) : ElementWidth → Prop
  | .byte => True
  | .word => p.sizeOverride = true
  | .dword => p.sizeOverride = false

def ElementWidth.native (so : Bool) : ElementWidth := if so then .word else .dword

theorem ElementWidth.native_size (so : Bool) :
    (ElementWidth.native so).operand.size = nativeSize so := by
  cases so <;> rfl

/-- A source operand of some width, or a byte that is sign-extended to it. -/
def VM.SourceReads (vm : VM) (w : ElementWidth) (l : ArgLocation) (b : BitVec w.operand.bits) :
    Prop :=
  vm.getArg l = .ok (w.operand.sized b) ∨
    ∃ v : BitVec 8, vm.getArg l = .ok (.byte v) ∧ b = v.signExtend w.operand.bits

def VM.stored (vm : VM) (f : X86Flags) (l : ArgLocation) (v : SizedValue) :
    Outcome VMError Unit × VM :=
  storeResult { vm with flags := f } (VM.setArg { vm with flags := f } l v)

variable {e : Effects} {w : ElementWidth} {p : Pipeline} {vm t : VM} {a b : BitVec w.operand.bits}
  {l : ArgLocation}

theorem size_of_getArg {l : ArgLocation} (h : vm.getArg l = .ok (w.operand.sized a)) :
    l.size = w.operand.size := by
  cases l with
  | none => cases w <;> cases h
  | immediate v =>
    cases h
    exact w.size_sized a
  | registerValue r s =>
    have hv : vm.getReg r s = w.operand.sized a := Except.ok.inj h
    cases s <;> cases w <;> cases hv <;> rfl
  | address | registerAddress | modRMAddress | sibAddress =>
    exact (VM.getMem_size h).symm.trans (w.size_sized a)

theorem extended_sized (w : ElementWidth) (b : BitVec w.operand.bits) :
    w.operand.extended (w.operand.sized b) = .ok b := by
  cases w <;> rfl

theorem extended_byte_signExtend (w : ElementWidth) (v : BitVec 8) :
    w.operand.extended (.byte v) = .ok (v.signExtend w.operand.bits) := by
  cases w with
  | byte => exact congrArg Except.ok (BitVec.signExtend_eq v).symm
  | word | dword => rfl

theorem VM.SourceReads.extended (h : vm.SourceReads w l b) :
    vm.getArg l >>= w.operand.extended = .ok b := by
  obtain h | ⟨v, h, rfl⟩ := h
  · rw [h]
    exact extended_sized w b
  · rw [h]
    exact extended_byte_signExtend w v

theorem exact_destination (h : vm.getArg l = .ok (w.operand.sized a)) :
    vm.getArg l >>= w.operand.exact = .ok a := by
  rw [h]
  exact exact_sized w a

theorem stored_eq (vm : VM) (f : X86Flags) (l : ArgLocation) (v : SizedValue) :
    vm.stored f l v =
      storeResult { vm with flags := f } ((fun t ↦ { t with flags := f }) <$> vm.setArg l v) := by
  rw [VM.stored, VM.setArg_flags]

theorem stored_ok {f : X86Flags} {v : SizedValue} (h : vm.setArg l v = .ok t) :
    vm.stored f l v = (.ok (), { t with flags := f }) := by
  rw [stored_eq, h]
  rfl

theorem stored_cases (vm : VM) (f : X86Flags) (l : ArgLocation) (v : SizedValue) :
    (∃ x, vm.setArg l v = .error x ∧ vm.stored f l v = (.err x, { vm with flags := f })) ∨
      ∃ t, vm.setArg l v = .ok t ∧ vm.stored f l v = (.ok (), { t with flags := f }) := by
  cases h : vm.setArg l v with
  | error x =>
    refine .inl ⟨x, rfl, ?_⟩
    rw [stored_eq, h]
    rfl
  | ok t => exact .inr ⟨t, rfl, stored_ok h⟩

theorem stored_flags (vm : VM) (f : X86Flags) (l : ArgLocation) (v : SizedValue) :
    (vm.stored f l v).2.flags = f := by
  obtain ⟨x, -, h⟩ | ⟨t, -, h⟩ := stored_cases vm f l v
  · rw [h]
  · rw [h]

theorem VM.SourceReads.readable (h : vm.SourceReads w l b) : ∃ v, vm.getArg l = .ok v := by
  obtain h | ⟨v, h, -⟩ := h
  · exact ⟨_, h⟩
  · exact ⟨_, h⟩

section Select

variable {byte native : LogicFn} {F : OperandWidth → Pipeline → Op .straight Unit}

theorem Pipeline.HasWidth.not_override (hw : p.HasWidth .dword) : ¬p.sizeOverride = true := by
  rw [show p.sizeOverride = false from hw]
  decide

theorem Pipeline.HasWidth.nativeSize_eq (hw : p.HasWidth w) (hbyte : w ≠ .byte) :
    nativeSize p.sizeOverride = w.operand.size := by
  cases w with
  | byte => exact absurd rfl hbyte
  | word | dword =>
    rw [nativeSize, hw]
    rfl

theorem nativeWord_run (hw : p.HasWidth w) (hbyte : w ≠ .byte)
    (F : OperandWidth → Pipeline → Op e Unit) (vm : VM) :
    (nativeWord F p).run vm = (F w.operand p).run vm := by
  cases w with
  | byte => exact absurd rfl hbyte
  | word => exact congrArg (Op.run · vm) (if_pos hw)
  | dword =>
    exact congrArg (Op.run · vm) (if_neg (Pipeline.HasWidth.not_override hw))

theorem select_run (hbyte : ∀ vm, (byte.logic p).run vm = (F width8 p).run vm)
    (hnative : ∀ vm, (native.logic p).run vm = (nativeWord F p).run vm) (hw : p.HasWidth w)
    (vm : VM) : ((w.select byte native).logic p).run vm = (F w.operand p).run vm := by
  cases w with
  | byte => exact hbyte vm
  | word | dword => exact (hnative vm).trans (nativeWord_run hw nofun F vm)

end Select

section Run

variable (ha : vm.getArg (p.args 0).location = .ok (w.operand.sized a))
  (hb : vm.SourceReads w (p.args 1).location b)

include ha hb

theorem add_run : (add w.operand p : Op e Unit).run vm =
    vm.stored (vm.flags.ofSum a b) (p.args 0).location (w.operand.sized (a + b)) := by
  simp only [add, run_bind, run_getArgAs, exact_destination ha, hb.extended, Outcome.ofExcept_ok,
    runBind_ok, run_modifyFlags, run_setArg, X86Flags.getFlags_sum]
  rfl

theorem sub_run : (sub w.operand p : Op e Unit).run vm =
    vm.stored (vm.flags.ofDifference a b) (p.args 0).location (w.operand.sized (a - b)) := by
  simp only [sub, run_bind, run_getArgAs, exact_destination ha, hb.extended, Outcome.ofExcept_ok,
    runBind_ok, run_modifyFlags, run_setArg, X86Flags.getFlags_difference]
  rfl

theorem cmp_run : (Operations.cmp w.operand p : Op e Unit).run vm =
    (.ok (), { vm with flags := vm.flags.ofDifference a b }) := by
  simp only [Operations.cmp, run_bind, run_getArgAs, exact_destination ha, hb.extended,
    Outcome.ofExcept_ok,
    runBind_ok, run_modifyFlags, X86Flags.getFlags_difference]

end Run

section CarryIn

def X86Flags.carryIn (f : X86Flags) (w : ElementWidth) : BitVec w.operand.bits :=
  BitVec.ofNat _ f.carry.toNat

theorem ite_carry (f : X86Flags) (w : ElementWidth) :
    (if f.carry then 1 else 0 : BitVec w.operand.bits) = f.carryIn w := by
  cases h : f.carry with
  | true | false =>
    rw [X86Flags.carryIn, h]
    rfl

variable (ha : vm.getArg (p.args 0).location = .ok (w.operand.sized a))

include ha

/-- ADC first adds the carry to its first operand, and then adds as ADD does. -/
theorem adc_run
    (ht : vm.setArg (p.args 0).location (w.operand.sized (a + vm.flags.carryIn w)) = .ok t) :
    (adc w.operand p : Op e Unit).run vm = (add w.operand p : Op e Unit).run t := by
  simp only [adc, run_bind, run_flags, runBind_ok, run_getArgAs, exact_destination ha,
    Outcome.ofExcept_ok, run_setArg, ite_carry, ht, storeResult]

theorem sbb_run
    (ht : vm.setArg (p.args 0).location (w.operand.sized (a - vm.flags.carryIn w)) = .ok t) :
    (sbb w.operand p : Op e Unit).run vm = (sub w.operand p : Op e Unit).run t := by
  simp only [sbb, run_bind, run_flags, runBind_ok, run_getArgAs, exact_destination ha,
    Outcome.ofExcept_ok, run_setArg, ite_carry, ht, storeResult]

end CarryIn

section Bitwise

def X86Flags.ofBitwise {n : ℕ} (f : X86Flags) (r : BitVec n) : X86Flags :=
  { f.ofResult r with overflow := false, carry := false }

variable {op : BitVec w.operand.bits → BitVec w.operand.bits → BitVec w.operand.bits}
  (ha : vm.getArg (p.args 0).location = .ok (w.operand.sized a))
  (hb : vm.SourceReads w (p.args 1).location b)

include ha hb

theorem bitwise_run : (bitwise w.operand op true p : Op e Unit).run vm =
    vm.stored (vm.flags.ofBitwise (op a b)) (p.args 0).location (w.operand.sized (op a b)) := by
  simp only [bitwise, run_bind, run_getArgAs, exact_destination ha, hb.extended,
    Outcome.ofExcept_ok, runBind_ok, run_modifyFlags, X86Flags.getFlags_bitwise]
  rfl

theorem bitwise_run_flags : (bitwise w.operand op false p : Op e Unit).run vm =
    (.ok (), { vm with flags := vm.flags.ofBitwise (op a b) }) := by
  simp only [bitwise, run_bind, run_getArgAs, exact_destination ha, hb.extended,
    Outcome.ofExcept_ok, runBind_ok, run_modifyFlags, X86Flags.getFlags_bitwise]
  rfl

end Bitwise

section Operands

variable {α β γ : Type} {c₀ : SizedValue → Except VMError α} {c₁ : SizedValue → Except VMError β}
  {k : α → β → Op e γ} {l₀ l₁ : ArgLocation}

theorem run_unreadable {x : VMError}
    (h : vm.getArg l₀ = .error x ∨ (∃ c, vm.getArg l₀ >>= c₀ = .ok c) ∧ vm.getArg l₁ = .error x) :
    (getArgAs c₀ l₀ >>= fun c ↦ getArgAs c₁ l₁ >>= k c).run vm = (.err x, vm) := by
  rw [run_bind, run_getArgAs]
  obtain h | ⟨⟨c, hc⟩, h⟩ := h
  · rw [h]
    rfl
  · rw [hc, Outcome.ofExcept_ok, runBind_ok, run_bind, run_getArgAs, h]
    rfl

theorem run_readable {a : α} {b : β} (ha : vm.getArg l₀ >>= c₀ = .ok a)
    (hb : vm.getArg l₁ >>= c₁ = .ok b) :
    (getArgAs c₀ l₀ >>= fun c ↦ getArgAs c₁ l₁ >>= k c).run vm = (k a b).run vm := by
  rw [run_bind, run_getArgAs, ha, Outcome.ofExcept_ok, runBind_ok, run_bind, run_getArgAs, hb,
    Outcome.ofExcept_ok, runBind_ok]

theorem destination_cases (hl : l.size = w.operand.size) (vm : VM) :
    (∃ x, vm.getArg l = .error x) ∨ ∃ a, vm.getArg l = .ok (w.operand.sized a) := by
  cases h : vm.getArg l with
  | error x => exact .inl ⟨x, rfl⟩
  | ok v =>
    have hne : l.size ≠ .qword := by
      rw [hl]
      exact w.size_ne_qword
    obtain ⟨a, rfl⟩ := ElementWidth.sized_of_size ((VM.getArg_size hne h).trans hl)
    exact .inr ⟨a, rfl⟩

theorem source_cases (hl : l.size = w.operand.size ∨ l.size = .byte) (vm : VM) :
    (∃ x, vm.getArg l = .error x) ∨ ∃ b, vm.SourceReads w l b := by
  obtain hl | hl := hl
  · obtain hx | ⟨b, hb⟩ := destination_cases hl vm
    · exact .inl hx
    · exact .inr ⟨b, .inl hb⟩
  · obtain hx | ⟨b, hb⟩ := destination_cases (w := .byte) hl vm
    · exact .inl hx
    · exact .inr ⟨_, .inr ⟨b, hb, rfl⟩⟩

theorem VM.SourceReads.unique {b' : BitVec w.operand.bits} (h : vm.SourceReads w l b)
    (h' : vm.SourceReads w l b') : b = b' :=
  Except.ok.inj (h.extended.symm.trans h'.extended)

end Operands

section Step

theorem signExtend_eq_zero (r : BitVec w.operand.bits) : r.signExtend 32 = 0 ↔ r = 0 := by
  have hle : w.operand.bits ≤ 32 := by cases w <;> decide
  rw [← BitVec.toInt_inj, ← BitVec.toInt_inj, BitVec.toInt_signExtend_of_le hle]
  simp

theorem signExtend_setWidth (r : BitVec w.operand.bits) :
    (r.signExtend 32).setWidth w.operand.bits = r := by
  apply BitVec.eq_of_getLsbD_eq
  intro i hi
  have hle : w.operand.bits ≤ 32 := by cases w <;> decide
  have hlt : i < 32 := by omega
  rw [BitVec.getLsbD_setWidth, BitVec.getLsbD_signExtend, decide_eq_true hi, decide_eq_true hlt,
    if_pos hi, Bool.true_and, Bool.true_and]

theorem one_nibble (w : ElementWidth) : (1 : BitVec w.operand.bits).toNat % 16 = 1 := by
  cases w <;> rfl

theorem step_flags (f : X86Flags) (r : BitVec w.operand.bits) (overflow adjust : Bool) :
    (let f := { f with overflow := overflow }
      let f := f.calculateZero (r.signExtend 32)
      let f := f.calculateParity (r.signExtend 32)
      let f := f.calculateSign (r.signExtend 32) w.operand.sign
      { f with adjust := adjust }) =
      { f.ofResult r with overflow := overflow, adjust := adjust } := by
  have h := X86Flags.calculateResult_eq { f with overflow := overflow } w
    (signExtend_setWidth r) (signExtend_eq_zero r)
  exact congrArg (fun f : X86Flags ↦ { f with adjust := adjust }) h

variable (ha : vm.getArg (p.args 0).location = .ok (w.operand.sized a))

include ha

theorem increment_run : (increment w.operand p : Op e Unit).run vm =
    vm.stored { vm.flags.ofSum a 1 with carry := vm.flags.carry } (p.args 0).location
      (w.operand.sized (a + 1)) := by
  have hn : decide (15 < (a &&& 0x0F) + (1 &&& 0x0F)) =
      decide (16 ≤ a.toNat % 16 + (1 : BitVec w.operand.bits).toNat % 16) :=
    nibble_sum (by cases w <;> decide) a 1
  simp only [increment, step, run_bind, run_getArgAs, exact_destination ha, Outcome.ofExcept_ok,
    runBind_ok, run_modifyFlags, run_setArg, step_flags, hn, saddOverflow_eq]
  rfl

theorem decrement_run : (decrement w.operand p : Op e Unit).run vm =
    vm.stored { vm.flags.ofDifference a 1 with carry := vm.flags.carry } (p.args 0).location
      (w.operand.sized (a - 1)) := by
  have hn : ((a.setWidth 32 &&& 0x0F) - ((1 : BitVec 32) &&& 0x0F)).slt 0 =
      decide (a.toNat % 16 < (1 : BitVec w.operand.bits).toNat % 16) := by
    rw [nibble_difference, X86Flags.setWidth_mod_nibble, one_nibble]
    rfl
  simp only [decrement, step, run_bind, run_getArgAs, exact_destination ha, Outcome.ofExcept_ok,
    runBind_ok, run_modifyFlags, run_setArg, step_flags, hn, ssubOverflow_eq]
  rfl

end Step

end Qx86
