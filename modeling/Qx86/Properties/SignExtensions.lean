import Qx86.Machine.Accumulator
import Qx86.Properties.RegisterViews
import Qx86.Properties.StackOrder

namespace Qx86

open Foundation Halves Views Op Operations Register

variable {e : Effects} {p q : Pipeline} {vm t : VM}

/-- The sign-extending instructions; a move has the register it goes to and the number that its
source operand holds. -/
inductive SignExtension where
  | cbw
  | cwde
  | cwd
  | cdq
  | movsx8 (r : Register) (v : BitVec 8)
  | movsx16 (r : Register) (v : BitVec 16)

namespace SignExtension

def function : SignExtension → LogicFn
  | cbw | cwde => .cbwCwde
  | cwd | cdq => .cdqCwd
  | movsx8 _ _ => .movsx8bit
  | movsx16 _ _ => .movsx16bit

def Slots (p : Pipeline) (vm : VM) : SignExtension → Prop
  | cbw | cwd => p.sizeOverride = true
  | cwde | cdq => p.sizeOverride = false
  | movsx8 r v => (p.args 0).location = .registerValue r p.native.operand.size ∧
      vm.getArg (p.args 1).location = .ok (.byte v)
  | movsx16 r v => (p.args 0).location = .registerValue r .dword ∧
      vm.getArg (p.args 1).location = .ok (.word v)

def source (vm : VM) : SignExtension → ℤ
  | cbw => (vm.reg8 al).toInt
  | cwde | cwd => (vm.reg16 eax).toInt
  | cdq => (vm.reg32 eax).toInt
  | movsx8 _ v => v.toInt
  | movsx16 _ v => v.toInt

def destination (p : Pipeline) (t : VM) : SignExtension → ℤ
  | cbw => (t.reg16 eax).toInt
  | cwde => (t.reg32 eax).toInt
  | cwd => (paired (t.reg16 edx) (t.reg16 eax)).toInt
  | cdq => (paired (t.reg32 edx) (t.reg32 eax)).toInt
  | movsx8 r _ => ((r.view p.native).read t.regs).toInt
  | movsx16 r _ => (t.reg32 r).toInt

def Has (p : Pipeline) (r : Register) (i : ℕ) : SignExtension → Prop
  | cbw => (eax.view .word).Has r i
  | cwde => (eax.view .dword).Has r i
  | cwd => (edx.view .word).Has r i ∨ (eax.view .word).Has r i
  | cdq => (edx.view .dword).Has r i ∨ (eax.view .dword).Has r i
  | movsx8 s _ => (s.view p.native).Has r i
  | movsx16 s _ => (s.view .dword).Has r i

/-- The destination is the source as a signed number, and nothing else is changed. -/
structure Extends (p : Pipeline) (vm t : VM) (x : SignExtension) : Prop where
  value : x.destination p t = x.source vm
  kept : ∀ r i, i < 32 → ¬x.Has p r i → (t.regs r).getLsbD i = (vm.regs r).getLsbD i
  rest : t = { vm with regs := t.regs }

end SignExtension

section Fill

variable {w : ElementWidth}

def signFill {n : ℕ} (x : BitVec n) : BitVec n := if x.msb then BitVec.allOnes n else 0

theorem setReg_kept (vm : VM) (w : ElementWidth) (r : Register) (v : BitVec w.operand.bits)
    {q : Register} {i : ℕ} (hi : i < 32) (h : ¬(r.view w).Has q i) :
    ((vm.setReg r (w.operand.sized v)).regs q).getLsbD i = (vm.regs q).getLsbD i := by
  rw [VM.setReg_view]
  exact (View.write_getLsbD _ _ _ _ hi).trans (if_neg h)

theorem setReg_rest (vm : VM) (w : ElementWidth) (r : Register) (v : BitVec w.operand.bits) :
    vm.setReg r (w.operand.sized v) =
      { vm with regs := (vm.setReg r (w.operand.sized v)).regs } := by
  rw [VM.setReg_view]

theorem lt_sign_iff {n : ℕ} {x c : BitVec n} (hc : 2 * c.toNat = 2 ^ n) :
    x < c ↔ x.msb = false := by
  rw [BitVec.lt_def, BitVec.msb_eq_false_iff_two_mul_lt]
  omega

theorem fill_run {n : ℕ} {x c v₀ v₁ : BitVec n} {s : BitVec n → SizedValue}
    (hc : 2 * c.toNat = 2 ^ n) (h₀ : v₀ = 0) (h₁ : v₁ = BitVec.allOnes n) (r : Register) :
    (if x < c then setReg r (s v₀) else setReg r (s v₁) : Op e Unit).run vm =
      (.ok (), vm.setReg r (s (signFill x))) := by
  subst h₀ h₁
  simp only [lt_sign_iff hc, signFill]
  cases x.msb <;> rfl

theorem cbw_run (hp : p.sizeOverride = true) :
    (LogicFn.cbwCwde.logic p).run vm = (.ok (), vm.setReg ah (.byte (signFill (vm.reg8 al)))) := by
  simp only [LogicFn.logic, cbwCwde, hp, if_true, run_bind, run_reg8, runBind_ok]
  exact fill_run (s := .byte) (by decide) rfl rfl ah

theorem cwd_run (hp : p.sizeOverride = true) :
    (LogicFn.cdqCwd.logic p).run vm =
      (.ok (), vm.setReg edx (.word (signFill (vm.reg16 eax)))) := by
  simp only [LogicFn.logic, cdqCwd, hp, if_true, run_bind, run_reg16, runBind_ok]
  exact fill_run (s := .word) (by decide) rfl rfl edx

theorem cdq_run (hp : p.sizeOverride = false) :
    (LogicFn.cdqCwd.logic p).run vm =
      (.ok (), vm.setReg edx (.dword (signFill (vm.reg32 eax)))) := by
  simp only [LogicFn.logic, cdqCwd, hp, Bool.false_eq_true, if_false, run_bind, run_reg32,
    runBind_ok]
  exact fill_run (s := .dword) (by decide) rfl rfl edx

theorem accumulatorPair_signFill (w : ElementWidth) (vm : VM) :
    ((vm.setReg w.upper (w.operand.sized (signFill (vm.accumulator w)))).accumulatorPair w).toInt =
      (vm.accumulator w).toInt := by
  obtain ⟨t, ht⟩ : ∃ t, t = vm.setReg w.upper (w.operand.sized (signFill (vm.accumulator w))) :=
    ⟨_, rfl⟩
  have hhigh : t.extension w = signFill (vm.accumulator w) := by
    apply ElementWidth.sized_injective
    rw [← VM.extension_eq, ht, VM.getReg_setReg]
  have hlow : t.accumulator w = vm.accumulator w := by
    apply ElementWidth.sized_injective
    rw [← accumulator_eq, ← accumulator_eq, ht,
      VM.getReg_setReg_of_ne _ (VM.upper_ne_eax w).symm]
  rw [← ht, VM.accumulatorPair, hhigh, hlow, signFill, paired_signFill,
    BitVec.toInt_signExtend_of_le (by omega)]

end Fill

section Cwde

def cwdeDword (x : BitVec 16) : BitVec 32 :=
  if 0x8000 < x then 0xFFFF0000 + x.setWidth 32 else x.setWidth 32

theorem cwdeDword_eq_iff (x : BitVec 16) : cwdeDword x = x.signExtend 32 ↔ x ≠ 0x8000 := by
  have hlt := x.isLt
  have hsign : (x.signExtend 32).toNat = _ := BitVec.toNat_signExtend x
  rw [BitVec.msb_eq_decide] at hsign
  unfold cwdeDword
  constructor
  · rintro h rfl
    exact absurd h (by decide)
  · intro hne
    have hnat : x.toNat ≠ 0x8000 := fun h ↦ hne (BitVec.eq_of_toNat_eq h)
    apply BitVec.eq_of_toNat_eq
    rw [hsign]
    by_cases h : 0x8000 < x
    · have h' : 0x8000 < x.toNat := h
      rw [if_pos h, if_pos (by simpa using h'.le)]
      simp
      omega
    · have h' : ¬0x8000 < x.toNat := h
      rw [if_neg h, if_neg (by simp; omega)]
      simp

theorem cwde_run (hp : p.sizeOverride = false) :
    (LogicFn.cbwCwde.logic p).run vm =
      (.ok (), vm.setReg eax (.dword (cwdeDword (vm.reg16 eax)))) := by
  simp only [LogicFn.logic, cbwCwde, hp, Bool.false_eq_true, if_false, run_bind, run_reg16,
    runBind_ok, cwdeDword]
  split <;> rfl

end Cwde

section Moves

variable {r : Register}

theorem movsx8_run {v : BitVec 8}
    (hd : (p.args 0).location = .registerValue r p.native.operand.size)
    (hs : vm.getArg (p.args 1).location = .ok (.byte v)) :
    (LogicFn.movsx8bit.logic p).run vm =
      (.ok (), vm.setReg r (p.native.operand.sized (v.signExtend p.native.operand.bits))) := by
  unfold Pipeline.native at hd ⊢
  simp only [LogicFn.logic, movsx8bit]
  cases hp : p.sizeOverride with
  | true =>
    simp only [hp] at hd
    simp only [if_true, movx16, run_bind, run_getArgAs, hs, hd]
    rfl
  | false =>
    simp only [hp] at hd
    simp only [Bool.false_eq_true, if_false, movx32, run_bind, run_getArgAs, hs, hd]
    rfl

theorem movsx16_run {v : BitVec 16} (hd : (p.args 0).location = .registerValue r .dword)
    (hs : vm.getArg (p.args 1).location = .ok (.word v)) :
    (LogicFn.movsx16bit.logic p).run vm = (.ok (), vm.setReg r (.dword (v.signExtend 32))) := by
  simp only [LogicFn.logic, movsx16bit, movx32, run_bind, run_getArgAs, hs, hd]
  rfl

end Moves

namespace SignExtension

variable {x : SignExtension}

def result (p : Pipeline) (vm : VM) : SignExtension → VM
  | cbw => vm.setReg ah (.byte (signFill (vm.reg8 al)))
  | cwde => vm.setReg eax (.dword (cwdeDword (vm.reg16 eax)))
  | cwd => vm.setReg edx (.word (signFill (vm.reg16 eax)))
  | cdq => vm.setReg edx (.dword (signFill (vm.reg32 eax)))
  | movsx8 r v => vm.setReg r (p.native.operand.sized (v.signExtend p.native.operand.bits))
  | movsx16 r v => vm.setReg r (.dword (v.signExtend 32))

theorem run (h : x.Slots p vm) : (x.function.logic p).run vm = (.ok (), x.result p vm) := by
  cases x with
  | cbw => exact cbw_run h
  | cwde => exact cwde_run h
  | cwd => exact cwd_run h
  | cdq => exact cdq_run h
  | movsx8 r v => exact movsx8_run h.1 h.2
  | movsx16 r v => exact movsx16_run h.1 h.2

theorem result_rest : x.result p vm = { vm with regs := (x.result p vm).regs } := by
  cases x with
  | cbw => exact setReg_rest vm .byte ah _
  | cwd => exact setReg_rest vm .word edx _
  | cwde | cdq => exact setReg_rest vm .dword _ _
  | movsx8 r v => exact setReg_rest vm p.native r _
  | movsx16 r v => exact setReg_rest vm .dword r _

theorem result_kept {r : Register} {i : ℕ} (hi : i < 32) (h : ¬x.Has p r i) :
    ((x.result p vm).regs r).getLsbD i = (vm.regs r).getLsbD i := by
  cases x with
  | cbw =>
    refine setReg_kept vm .byte ah _ hi fun hah ↦ h ⟨hah.1, ?_, ?_⟩
    · exact Nat.zero_le _
    · exact hah.2.2
  | cwd => exact setReg_kept vm .word edx _ hi fun hdx ↦ h (.inl hdx)
  | cdq => exact setReg_kept vm .dword edx _ hi fun hedx ↦ h (.inl hedx)
  | cwde => exact setReg_kept vm .dword eax _ hi h
  | movsx8 r v => exact setReg_kept vm p.native r _ hi h
  | movsx16 r v => exact setReg_kept vm .dword r _ hi h

theorem result_value :
    x.destination p (x.result p vm) = x.source vm ↔ x ≠ .cwde ∨ vm.reg16 eax ≠ 0x8000 := by
  cases x with
  | cwde =>
    have hread : ((vm.setReg eax (.dword (cwdeDword (vm.reg16 eax)))).reg32 eax) =
        cwdeDword (vm.reg16 eax) :=
      SizedValue.dword.inj (VM.getReg_setReg (w := .dword) vm eax (cwdeDword (vm.reg16 eax)))
    have hsource : (vm.reg16 eax).toInt = ((vm.reg16 eax).signExtend 32).toInt :=
      (BitVec.toInt_signExtend_of_le (by decide)).symm
    simp only [destination, source, result, hread, hsource, BitVec.toInt_inj, cwdeDword_eq_iff,
      ne_eq, not_true_eq_false, false_or]
  | cbw =>
    refine iff_of_true ?_ (.inl (by simp))
    simp only [destination, source, result, VM.reg16_eax]
    exact accumulatorPair_signFill .byte vm
  | cwd => exact iff_of_true (accumulatorPair_signFill .word vm) (.inl (by simp))
  | cdq => exact iff_of_true (accumulatorPair_signFill .dword vm) (.inl (by simp))
  | movsx8 r v =>
    refine iff_of_true ?_ (.inl (by simp))
    simp only [destination, source, result, VM.setReg_view, View.read_write]
    refine BitVec.toInt_signExtend_of_le ?_
    cases p.native <;> decide
  | movsx16 r v =>
    refine iff_of_true ?_ (.inl (by simp))
    have hread : (vm.setReg r (.dword (v.signExtend 32))).reg32 r = v.signExtend 32 :=
      SizedValue.dword.inj (VM.getReg_setReg (w := .dword) vm r (v.signExtend 32))
    simp only [destination, source, result, hread]
    exact BitVec.toInt_signExtend_of_le (by decide)

end SignExtension

/-- The destination of a sign extension is its source as a signed number, and nothing else is
changed, but for CWDE of 0x8000; for every other word CWDE is MOVSX EAX, AX. -/
theorem sign_extensions (x : SignExtension) (p : Pipeline) (vm : VM) (hx : x.Slots p vm) :
    ((∃ t, (x.function.logic p).run vm = (.ok (), t) ∧ x.Extends p vm t) ↔
      x ≠ .cwde ∨ vm.reg16 eax ≠ 0x8000) ∧
    ∀ p q : Pipeline, p.sizeOverride = false → (q.args 0).location = .registerValue eax .dword →
      (q.args 1).location = .registerValue eax .word →
      ((LogicFn.cbwCwde.logic p).run vm = (LogicFn.movsx16bit.logic q).run vm ↔
        vm.reg16 eax ≠ 0x8000) := by
  constructor
  · rw [SignExtension.run hx, ← SignExtension.result_value (p := p)]
    constructor
    · rintro ⟨t, ht, hextends⟩
      cases ht
      exact hextends.value
    · intro hvalue
      exact ⟨_, rfl, hvalue, fun _ _ ↦ SignExtension.result_kept, SignExtension.result_rest⟩
  · intro p q hp hd hs
    have hsource : vm.getArg (q.args 1).location = .ok (.word (vm.reg16 eax)) := by
      rw [hs]
      rfl
    rw [cwde_run hp, movsx16_run hd hsource, ← cwdeDword_eq_iff]
    constructor
    · intro h
      have hregs := congrArg (fun t ↦ t.2.reg32 eax) h
      simpa [VM.setReg, VM.reg32, VM.setReg32] using hregs
    · intro h
      rw [h]

def noOperands : Pipeline := operandSlot false ![.none, .none, .none]

theorem sign_extensions_cwde :
    ∃ t, (LogicFn.cbwCwde.logic noOperands).run (twoRegisters 0x8888 0) = (.ok (), t) ∧
      SignExtension.cwde.Extends noOperands (twoRegisters 0x8888 0) t :=
  (sign_extensions .cwde noOperands (twoRegisters 0x8888 0) rfl).1.mpr (.inr (by decide))

/-- CWDE of 0x8000, which is negative, clears the upper half of EAX. -/
theorem cwde_sign_bit :
    ¬∀ (x : SignExtension) (p : Pipeline) (vm : VM), x.Slots p vm →
      ∃ t, (x.function.logic p).run vm = (.ok (), t) ∧ x.Extends p vm t := by
  intro h
  have hslots : SignExtension.cwde.Slots noOperands (twoRegisters 0x8000 0) := rfl
  obtain ⟨t, ht, hextends⟩ := h .cwde noOperands (twoRegisters 0x8000 0) hslots
  rw [SignExtension.run hslots] at ht
  cases ht
  exact absurd hextends.value (by decide)

end Qx86
