import Qx86.Foundation.Halves
import Qx86.Machine.Arithmetic
import Qx86.Machine.Division

namespace Qx86

open Foundation Words Halves Op Operations Register

def ElementWidth.upper : ElementWidth → Register
  | .byte => ah
  | .word | .dword => edx

def X86Flags.ofProduct {n : ℕ} (f : X86Flags) (x : BitVec (2 * n)) : X86Flags :=
  { f with carry := decide (highHalf x ≠ 0), overflow := decide (highHalf x ≠ 0) }

namespace VM

variable {w : ElementWidth} {vm : VM} {low high : BitVec w.operand.bits} {r : Register}

/-- The high half of a double-width number; the low one is in the accumulator. -/
def extension (w : ElementWidth) (vm : VM) : BitVec w.operand.bits :=
  match w with
  | .byte => vm.reg8 ah
  | .word => vm.reg16 edx
  | .dword => vm.reg32 edx

def setPair (w : ElementWidth) (vm : VM) (high low : BitVec w.operand.bits) : VM :=
  (vm.setReg eax (w.operand.sized low)).setReg w.upper (w.operand.sized high)

def withProduct (w : ElementWidth) (vm : VM) (x : BitVec (2 * w.operand.bits)) : VM :=
  { setPair w vm (highHalf x) (lowHalf x) with flags := vm.flags.ofProduct x }

theorem extension_eq : vm.getReg w.upper w.operand.size = w.operand.sized (vm.extension w) := by
  cases w <;> rfl

theorem upper_ne_eax (w : ElementWidth) : w.upper ≠ eax := by
  cases w <;> decide

@[simp] theorem accumulator_setPair : (setPair w vm high low).accumulator w = low := by
  apply ElementWidth.sized_injective
  rw [← accumulator_eq, setPair, getReg_setReg_of_ne _ (upper_ne_eax w).symm, getReg_setReg]

@[simp] theorem extension_setPair : (setPair w vm high low).extension w = high := by
  apply ElementWidth.sized_injective
  rw [← extension_eq, setPair, getReg_setReg]

theorem getReg_setPair (hlow : r ≠ eax) (hhigh : r ≠ w.upper) :
    (setPair w vm high low).getReg r w.operand.size = vm.getReg r w.operand.size := by
  rw [setPair, getReg_setReg_of_ne _ hhigh, getReg_setReg_of_ne _ hlow]

theorem setReg_word (vm : VM) (x : BitVec 16) :
    vm.setReg eax (.word x) = setPair .byte vm (highHalf (n := 8) x) (lowHalf (n := 8) x) := by
  have hword : vm.setReg eax (.word x) = vm.setReg32 eax (splice (vm.regs eax) 0 x) :=
    setReg_eq vm .word eax x
  have hlow : vm.setReg al (.byte (lowHalf (n := 8) x)) =
      vm.setReg32 eax (splice (vm.regs eax) 0 (lowHalf (n := 8) x)) :=
    setReg_eq vm .byte al (lowHalf (n := 8) x)
  have hhigh : ∀ t : VM, t.setReg ah (.byte (highHalf (n := 8) x)) =
      t.setReg32 eax (splice (t.regs eax) 8 (highHalf (n := 8) x)) :=
    fun t ↦ setReg_eq t .byte ah (highHalf (n := 8) x)
  have hparts := splice_parts (n := 8) (k := 8) (vm.regs eax) 0 x
  change _ = (vm.setReg al (.byte (lowHalf (n := 8) x))).setReg ah (.byte (highHalf (n := 8) x))
  rw [hword, hlow, hhigh, setReg32_self, ← hparts]
  simp only [setReg32, Function.update_idem]
  rfl

def accumulatorPair (w : ElementWidth) (vm : VM) : BitVec (2 * w.operand.bits) :=
  paired (vm.extension w) (vm.accumulator w)

theorem reg16_eax (vm : VM) : vm.reg16 eax = vm.accumulatorPair .byte := by
  have hword : vm.reg16 eax = (vm.regs eax).extractLsb' 0 16 :=
    SizedValue.word.inj (getReg_eq vm .word eax)
  have hlow : vm.reg8 al = (vm.regs eax).extractLsb' 0 8 :=
    SizedValue.byte.inj (getReg_eq vm .byte al)
  have hhigh : vm.reg8 ah = (vm.regs eax).extractLsb' 8 8 :=
    SizedValue.byte.inj (getReg_eq vm .byte ah)
  have hlowHalf : lowHalf (n := 8) (vm.reg16 eax) = vm.reg8 al := by
    rw [hword, hlow]
    exact BitVec.extractLsb'_extractLsb'_of_le (by decide)
  have hhighHalf : highHalf (n := 8) (vm.reg16 eax) = vm.reg8 ah := by
    rw [hword, hhigh]
    exact BitVec.extractLsb'_extractLsb'_of_le (by decide)
  have hparts := paired_halves (n := 8) (vm.reg16 eax)
  rw [hlowHalf, hhighHalf] at hparts
  exact hparts.symm

end VM

namespace Operations

variable {e : Effects} {vm : VM}

theorem highHalf_used {m n : ℕ} {x mask : BitVec m} (lo : ℕ) (hn : lo + n ≤ m)
    (hm : ∀ i : Fin m, mask.getLsbD i = decide (lo ≤ i.val ∧ i.val < lo + n)) :
    decide (0 < x &&& mask) = decide (x.extractLsb' lo n ≠ 0) := by
  rw [decide_eq_decide, zero_lt_iff_ne_zero, ne_eq, ne_eq, and_mask_eq_zero_iff lo n hn hm]

theorem storeProduct8_run (x : BitVec 16) :
    (do
      setProductFlags (decide (0 < x &&& 0xFF00))
      setReg eax (.word x) : Op e Unit).run vm = (.ok (), vm.withProduct .byte x) := by
  have hused : decide (0 < x &&& 0xFF00) = decide (highHalf (n := 8) x ≠ 0) :=
    highHalf_used 8 (by decide) (by decide)
  simp only [run_bind, setProductFlags, run_modifyFlags, runBind_ok, run_setReg, hused,
    VM.setReg_word]
  rfl

theorem storeProduct16_run (x : BitVec 32) :
    (storeProduct16 x : Op e Unit).run vm = (.ok (), vm.withProduct .word x) := by
  have hlow : (x &&& 0x0000FFFF).setWidth 16 = lowHalf (n := 16) x :=
    and_mask_extract 0 16 (by decide) (by decide)
  have hhigh : ((x &&& 0xFFFF0000) >>> 16).setWidth 16 = highHalf (n := 16) x :=
    and_mask_extract 16 16 (by decide) (by decide)
  have hdx : ((vm.setReg eax (.word (lowHalf (n := 16) x))).setReg edx
      (.word (highHalf (n := 16) x))).reg16 edx = highHalf (n := 16) x :=
    VM.extension_setPair (w := .word)
  have hused : decide (0 < highHalf (n := 16) x) = decide (highHalf (n := 16) x ≠ 0) :=
    decide_eq_decide.mpr (zero_lt_iff_ne_zero _)
  simp only [storeProduct16, run_bind, run_setReg, runBind_ok, run_reg16, setProductFlags,
    run_modifyFlags, hlow, hhigh, hdx, hused]
  rfl

theorem storeProduct32_run (x : BitVec 64) :
    (storeProduct32 x : Op e Unit).run vm = (.ok (), vm.withProduct .dword x) := by
  have hlow : (x &&& 0x00000000FFFFFFFF).setWidth 32 = lowHalf (n := 32) x :=
    and_mask_extract 0 32 (by decide) (by decide)
  have hhigh : ((x &&& 0xFFFFFFFF00000000) >>> 32).setWidth 32 = highHalf (n := 32) x :=
    and_mask_extract 32 32 (by decide) (by decide)
  have hedx : ((vm.setReg eax (.dword (lowHalf (n := 32) x))).setReg edx
      (.dword (highHalf (n := 32) x))).reg32 edx = highHalf (n := 32) x :=
    VM.extension_setPair (w := .dword)
  have hused : decide (0 < highHalf (n := 32) x) = decide (highHalf (n := 32) x ≠ 0) :=
    decide_eq_decide.mpr (zero_lt_iff_ne_zero _)
  simp only [storeProduct32, run_bind, run_setReg, runBind_ok, run_reg32, setProductFlags,
    run_modifyFlags, hlow, hhigh, hedx, hused]
  rfl

section Unsigned

variable {w : ElementWidth} {p : Pipeline} {d : BitVec w.operand.bits}

theorem mul_run (hw : p.HasWidth w) (hd : vm.getArg (p.args 0).location = .ok (w.operand.sized d)) :
    ((w.select .mul8bit .mulNativeWord).logic p).run vm =
      (.ok (), vm.withProduct w (product (vm.accumulator w) d)) := by
  cases w with
  | byte =>
    change (mul8bit p : Op .straight Unit).run vm = _
    simp only [mul8bit, run_bind, run_reg8, runBind_ok, run_getArgAs, hd]
    exact storeProduct8_run _
  | word =>
    have hn : mulNativeWord p = (mul16bit p : Op .straight Unit) := if_pos hw
    change (mulNativeWord p : Op .straight Unit).run vm = _
    simp only [hn, mul16bit, run_bind, run_reg16, runBind_ok, run_getArgAs, hd]
    exact storeProduct16_run _
  | dword =>
    have hn : mulNativeWord p = (mul32bit p : Op .straight Unit) := if_neg (by rw [hw]; decide)
    change (mulNativeWord p : Op .straight Unit).run vm = _
    simp only [hn, mul32bit, run_bind, run_reg32, runBind_ok, run_getArgAs, hd]
    exact storeProduct32_run _

theorem setWidth_eq_ofNat {m n k : ℕ} {x : BitVec m} (hx : x.toNat = k) :
    x.setWidth n = BitVec.ofNat n k := by
  apply BitVec.eq_of_toNat_eq
  rw [BitVec.toNat_setWidth, BitVec.toNat_ofNat, hx]

theorem divide_run {m : ℕ} {x y bound : BitVec m} (hy : y.toNat = d.toNat)
    (hbound : bound.toNat + 1 = 2 ^ w.operand.bits) :
    (if y = 0 ∨ bound < x / y then throw .divideByZero
      else do
        setReg eax (w.operand.sized ((x / y).setWidth w.operand.bits))
        setReg w.upper (w.operand.sized ((x % y).setWidth w.operand.bits)) : Op e Unit).run vm =
      if d = 0 ∨ 2 ^ w.operand.bits ≤ x.toNat / d.toNat then (.err .divideByZero, vm)
      else (.ok (), vm.setPair w (BitVec.ofNat _ (x.toNat % d.toNat))
        (BitVec.ofNat _ (x.toNat / d.toNat))) := by
  have hzero : y = 0 ↔ d = 0 := by
    rw [eq_zero_iff_toNat, eq_zero_iff_toNat, hy]
  have hfit : bound < x / y ↔ 2 ^ w.operand.bits ≤ x.toNat / d.toNat := by
    rw [BitVec.lt_def, BitVec.toNat_udiv, hy]
    omega
  have hquotient : (x / y).setWidth w.operand.bits = BitVec.ofNat _ (x.toNat / d.toNat) :=
    setWidth_eq_ofNat (by rw [BitVec.toNat_udiv, hy])
  have hremainder : (x % y).setWidth w.operand.bits = BitVec.ofNat _ (x.toNat % d.toNat) :=
    setWidth_eq_ofNat (by rw [BitVec.toNat_umod, hy])
  rw [run_ite]
  simp only [hzero, hfit, hquotient, hremainder, run_throw, run_bind, run_setReg, runBind_ok]
  rfl

/-- Unsigned division refuses a quotient that is too large. -/
theorem div_run (hw : p.HasWidth w) (hd : vm.getArg (p.args 0).location = .ok (w.operand.sized d)) :
    ((w.select .div8bit .divNativeWord).logic p).run vm =
      if d = 0 ∨ 2 ^ w.operand.bits ≤ (vm.accumulatorPair w).toNat / d.toNat then
        (.err .divideByZero, vm)
      else (.ok (), vm.setPair w (BitVec.ofNat _ ((vm.accumulatorPair w).toNat % d.toNat))
        (BitVec.ofNat _ ((vm.accumulatorPair w).toNat / d.toNat))) := by
  cases w with
  | byte =>
    have hpair : (vm.accumulatorPair .byte).toNat = (vm.reg16 eax).toNat :=
      congrArg BitVec.toNat (VM.reg16_eax vm).symm
    rw [hpair]
    change (div8bit p : Op .straight Unit).run vm = _
    simp only [div8bit, run_bind, run_reg16, runBind_ok, run_getArgAs, hd]
    exact divide_run (w := .byte) (d := d)
      (BitVec.toNat_setWidth_of_le (show 8 ≤ 16 by decide)) rfl
  | word =>
    have hn : divNativeWord p = (div16bit p : Op .straight Unit) := if_pos hw
    change (divNativeWord p : Op .straight Unit).run vm = _
    simp only [hn, div16bit, run_bind, run_reg16, runBind_ok, run_getArgAs, hd]
    exact divide_run (w := .word) (d := d)
      (BitVec.toNat_setWidth_of_le (show 16 ≤ 32 by decide)) rfl
  | dword =>
    have hn : divNativeWord p = (div32bit p : Op .straight Unit) := if_neg (by rw [hw]; decide)
    change (divNativeWord p : Op .straight Unit).run vm = _
    simp only [hn, div32bit, run_bind, run_reg32, runBind_ok, run_getArgAs, hd]
    exact divide_run (w := .dword) (d := d)
      (BitVec.toNat_setWidth_of_le (show 32 ≤ 64 by decide)) rfl

end Unsigned

section Signed

variable {w : ElementWidth} {p : Pipeline} {a b d : BitVec w.operand.bits}

/-- What the one-operand signed product computes: its byte case takes AL without a sign. -/
def accumulatorProduct : (w : ElementWidth) → BitVec w.operand.bits → BitVec w.operand.bits →
    BitVec (2 * w.operand.bits)
  | .byte, a, d => a.setWidth (2 * 8) * d.signExtend (2 * 8)
  | .word, a, d | .dword, a, d => signedProduct a d

theorem imul1_run (hw : p.HasWidth w)
    (hd : vm.getArg (p.args 0).location = .ok (w.operand.sized d)) :
    ((w.select .imul1_8bit .imul1NativeWord).logic p).run vm =
      (.ok (), vm.withProduct w (accumulatorProduct w (vm.accumulator w) d)) := by
  cases w with
  | byte =>
    change (imul1_8bit p : Op .straight Unit).run vm = _
    simp only [imul1_8bit, run_bind, run_reg8, runBind_ok, run_getArgAs, hd]
    exact storeProduct8_run _
  | word =>
    have hn : imul1NativeWord p = (imul1_16bit p : Op .straight Unit) := if_pos hw
    change (imul1NativeWord p : Op .straight Unit).run vm = _
    simp only [hn, imul1_16bit, run_bind, run_reg16, runBind_ok, run_getArgAs, hd]
    exact storeProduct16_run _
  | dword =>
    have hn : imul1NativeWord p = (imul1_32bit p : Op .straight Unit) := if_neg (by rw [hw]; decide)
    change (imul1NativeWord p : Op .straight Unit).run vm = _
    simp only [hn, imul1_32bit, run_bind, run_reg32, runBind_ok, run_getArgAs, hd]
    exact storeProduct32_run _

theorem keepProduct16_run (x : BitVec 32) : (keepProduct16 x p : Op e Unit).run vm =
    vm.stored (vm.flags.ofProduct (n := 16) x) (p.args 0).location
      (.word (lowHalf (n := 16) x)) := by
  have hlow : (x &&& 0x0000FFFF).setWidth 16 = lowHalf (n := 16) x :=
    and_mask_extract 0 16 (by decide) (by decide)
  have hused : decide (0 < (x &&& 0xFFFF0000) >>> 16) = decide (highHalf (n := 16) x ≠ 0) := by
    refine decide_eq_decide.mpr ((zero_lt_iff_ne_zero _).trans (not_congr ?_))
    exact shift_and_mask_eq_zero_iff 16 16 (by decide) (by decide) (by decide)
  simp only [keepProduct16, setProductFlags, run_bind, run_modifyFlags, runBind_ok, run_setArg,
    hlow, hused]
  rfl

theorem keepProduct32_run (x : BitVec 64) : (keepProduct32 x p : Op e Unit).run vm =
    vm.stored (vm.flags.ofProduct (n := 32) x) (p.args 0).location
      (.dword (lowHalf (n := 32) x)) := by
  have hlow : (x &&& 0x00000000FFFFFFFF).setWidth 32 = lowHalf (n := 32) x :=
    and_mask_extract 0 32 (by decide) (by decide)
  have hused : decide (0 < (x &&& 0xFFFFFFFF00000000) >>> 16) =
      decide (highHalf (n := 32) x ≠ 0) := by
    refine decide_eq_decide.mpr ((zero_lt_iff_ne_zero _).trans (not_congr ?_))
    exact shift_and_mask_eq_zero_iff 32 32 (by decide) (by decide) (by decide)
  simp only [keepProduct32, setProductFlags, run_bind, run_modifyFlags, runBind_ok, run_setArg,
    hlow, hused]
  rfl

def keptProduct (p : Pipeline) (vm : VM) (a b : BitVec w.operand.bits) :
    Outcome VMError Unit × VM :=
  vm.stored (vm.flags.ofProduct (signedProduct a b)) (p.args 0).location
    (w.operand.sized (lowHalf (signedProduct a b)))

theorem imul2_run (hw : p.HasWidth w) (hne : w ≠ .byte)
    (ha : vm.SourceReads w (p.args 0).location a) (hb : vm.SourceReads w (p.args 1).location b) :
    (LogicFn.imul2NativeWord.logic p).run vm = keptProduct p vm a b := by
  cases w with
  | byte => exact absurd rfl hne
  | word =>
    have hn : imul2NativeWord p = (imul2_16bit p : Op .straight Unit) := if_pos hw
    change (imul2NativeWord p : Op .straight Unit).run vm = _
    rw [hn]
    exact (run_readable ha.extended hb.extended).trans (keepProduct16_run _)
  | dword =>
    have hn : imul2NativeWord p = (imul2_32bit p : Op .straight Unit) := if_neg (by rw [hw]; decide)
    change (imul2NativeWord p : Op .straight Unit).run vm = _
    rw [hn]
    exact (run_readable ha.extended hb.extended).trans (keepProduct32_run _)

/-- The three-operand form reads words as dwords. -/
theorem extended_word {v : BitVec 16} {l : ArgLocation} (h : vm.SourceReads .word l v) :
    vm.getArg l >>= SizedValue.u32Sx = .ok (v.signExtend 32) := by
  obtain h | ⟨u, h, rfl⟩ := h
  · rw [h]
    rfl
  · rw [h]
    exact congrArg Except.ok (signExtend_signExtend u (by decide) (by decide)).symm

theorem imul3_run (hw : p.HasWidth w) (hne : w ≠ .byte)
    (ha : vm.SourceReads w (p.args 1).location a) (hb : vm.SourceReads w (p.args 2).location b) :
    (LogicFn.imul3NativeWord.logic p).run vm = keptProduct p vm a b := by
  cases w with
  | byte => exact absurd rfl hne
  | word =>
    have hn : imul3NativeWord p = (imul3_16bit p : Op .straight Unit) := if_pos hw
    have hproduct : ((BitVec.signExtend 32 a).signExtend 64 *
        (BitVec.signExtend 32 b).signExtend 64).setWidth 32 = signedProduct a b := by
      rw [BitVec.setWidth_mul _ _ (by decide), setWidth_signExtend _ (by decide),
        setWidth_signExtend _ (by decide), BitVec.signExtend_eq, BitVec.signExtend_eq]
      rfl
    change (imul3NativeWord p : Op .straight Unit).run vm = _
    rw [hn, keptProduct, ← hproduct]
    exact (run_readable (extended_word ha) (extended_word hb)).trans (keepProduct16_run _)
  | dword =>
    have hn : imul3NativeWord p = (imul3_32bit p : Op .straight Unit) := if_neg (by rw [hw]; decide)
    change (imul3NativeWord p : Op .straight Unit).run vm = _
    rw [hn]
    exact (run_readable ha.extended hb.extended).trans (keepProduct32_run _)

end Signed

section Division

variable {w : ElementWidth} {p : Pipeline} {d : BitVec w.operand.bits}

/-- The dividend of the signed divisions. -/
def takenDividend : (w : ElementWidth) → BitVec w.operand.bits → BitVec w.operand.bits → ℤ
  | .byte, high, low | .word, high, low => joinedInt high low
  | .dword, high, low => if 0 ≤ low.toInt then joinedInt high low else low.toInt

/-- The divisor of the signed divisions: the narrow ones take it without its sign. -/
def takenDivisor : (w : ElementWidth) → BitVec w.operand.bits → ℤ
  | .byte, d | .word, d => d.toNat
  | .dword, d => d.toInt

/-- A signed division of the taken numbers. -/
def signedQuotient (w : ElementWidth) (vm : VM) (x y : ℤ) : Outcome VMError Unit × VM :=
  if y = 0 then (.err .divideByZero, vm)
  else if x = -2 ^ (2 * w.operand.bits - 1) ∧ y = -1 then (.panic, vm)
  else if 2 ^ w.operand.bits ≤ x.tdiv y then (.err .divideByZero, vm)
  else (.ok (), vm.setPair w (BitVec.ofInt _ (x.tmod y)) (BitVec.ofInt _ (x.tdiv y)))

theorem setWidth_eq_ofInt {m n : ℕ} (hn : n ≤ m) {x : BitVec m} {k : ℤ} (hx : x.toInt = k) :
    x.setWidth n = BitVec.ofInt n k := by
  apply BitVec.eq_of_toInt_eq
  rw [BitVec.toInt_setWidth, BitVec.toInt_ofInt, ← hx, BitVec.toInt_eq_toNat_bmod,
    Int.bmod_bmod_of_dvd (Nat.pow_dvd_pow 2 hn)]

theorem sdivOverflows_iff {m : ℕ} (hm : 0 < m) (x y : BitVec m) :
    sdivOverflows x y = true ↔ x.toInt = -2 ^ (m - 1) ∧ y.toInt = -1 := by
  have hmin := BitVec.toInt_intMin_of_pos hm
  have hones : (BitVec.allOnes m).toInt = -1 := by
    rw [BitVec.toInt_allOnes, if_pos hm]
  rw [sdivOverflows_eq_true, ← BitVec.toInt_inj, ← BitVec.toInt_inj, hmin, hones]

theorem signedDivide_run {m : ℕ} {x y bound : BitVec m} (hm : m = 2 * w.operand.bits)
    (hbound : bound.toInt + 1 = 2 ^ w.operand.bits) :
    (if y = 0 then throw .divideByZero
      else do
        unwindIf (sdivOverflows x y)
        if bound.slt (x.sdiv y) then throw .divideByZero
        else
          setReg eax (w.operand.sized ((x.sdiv y).setWidth w.operand.bits))
          setReg w.upper (w.operand.sized ((x.srem y).setWidth w.operand.bits)) :
      Op .division Unit).run vm = signedQuotient w vm x.toInt y.toInt := by
  have hbits : 0 < w.operand.bits := w.bits_pos
  have hzero : y = 0 ↔ y.toInt = 0 := by
    rw [← BitVec.toInt_inj]
    exact iff_of_eq (congrArg (y.toInt = ·) BitVec.toInt_zero)
  have hpanic := sdivOverflows_iff (by omega) x y
  rw [signedQuotient, run_ite, ← hm]
  by_cases h₀ : y = 0
  · rw [if_pos h₀, if_pos (hzero.mp h₀)]
    rfl
  · rw [if_neg h₀, if_neg (mt hzero.mpr h₀), run_bind]
    by_cases hover : x.toInt = -2 ^ (m - 1) ∧ y.toInt = -1
    · rw [if_pos hover, unwindIf, hpanic.mpr hover]
      rfl
    · have hfalse := Bool.eq_false_of_not_eq_true (mt hpanic.mp hover)
      have hquotient : (x.sdiv y).toInt = x.toInt.tdiv y.toInt := by
        apply BitVec.toInt_sdiv_of_ne_or_ne
        rw [← not_and_or]
        intro h
        exact hover (hpanic.mp (sdivOverflows_eq_true.mpr (BitVec.neg_one_eq_allOnes ▸ h)))
      have hslt : bound.slt (x.sdiv y) = true ↔ 2 ^ w.operand.bits ≤ x.toInt.tdiv y.toInt := by
        rw [BitVec.slt_iff_toInt_lt, hquotient]
        omega
      rw [if_neg hover, unwindIf, hfalse]
      change (if bound.slt (x.sdiv y) = true then _ else _ : Op .division Unit).run vm = _
      rw [run_ite]
      by_cases hlarge : 2 ^ w.operand.bits ≤ x.toInt.tdiv y.toInt
      · rw [if_pos (hslt.mpr hlarge), if_pos hlarge]
        rfl
      · have hle : w.operand.bits ≤ m := by omega
        rw [if_neg (mt hslt.mp hlarge), if_neg hlarge, setWidth_eq_ofInt hle hquotient,
          setWidth_eq_ofInt hle (BitVec.toInt_srem x y)]
        rfl

theorem idiv_run (hw : p.HasWidth w)
    (hd : vm.getArg (p.args 0).location = .ok (w.operand.sized d)) :
    ((w.select .idiv8bit .idivNativeWord).logic p).run vm = signedQuotient w vm
      (takenDividend w (vm.extension w) (vm.accumulator w)) (takenDivisor w d) := by
  cases w with
  | byte =>
    have hx : (vm.reg16 eax).toInt = joinedInt (vm.extension .byte) (vm.accumulator .byte) :=
      (congrArg BitVec.toInt (VM.reg16_eax vm)).trans (paired_toInt _ _)
    have hy : (d.setWidth 16).toInt = d.toNat := toInt_setWidth_of_lt (show 8 < 16 by decide) d
    change (idiv8bit p).run vm = signedQuotient .byte vm _ _
    simp only [idiv8bit, run_bind, run_reg16, runBind_ok, run_getArgAs, hd]
    rw [takenDividend, takenDivisor, ← hx, ← hy]
    exact signedDivide_run (w := .byte) rfl rfl
  | word =>
    have hn : idivNativeWord p = idiv16bit p := if_pos hw
    have hx : ((BitVec.signExtend 32 (vm.reg16 edx) <<< 16) ||| (vm.reg16 eax).setWidth 32).toInt =
        joinedInt (vm.extension .word) (vm.accumulator .word) := by
      rw [signExtend_shiftLeft (n := 16)]
      exact paired_toInt _ _
    have hy : (d.setWidth 32).toInt = d.toNat := toInt_setWidth_of_lt (show 16 < 32 by decide) d
    change (idivNativeWord p).run vm = signedQuotient .word vm _ _
    simp only [hn, idiv16bit, run_bind, run_reg16, runBind_ok, run_getArgAs, hd]
    rw [takenDividend, takenDivisor, ← hx, ← hy]
    exact signedDivide_run (w := .word) rfl rfl
  | dword =>
    have hn : idivNativeWord p = idiv32bit p := if_neg (by rw [hw]; decide)
    have hx : ((BitVec.signExtend 64 (vm.reg32 edx) <<< 32) |||
        BitVec.signExtend 64 (vm.reg32 eax)).toInt =
          takenDividend .dword (vm.extension .dword) (vm.accumulator .dword) :=
      signedPair_toInt (n := 32) _ _
    have hy : (BitVec.signExtend 64 d).toInt = takenDivisor .dword d :=
      BitVec.toInt_signExtend_of_le (by decide)
    change (idivNativeWord p).run vm = signedQuotient .dword vm _ _
    simp only [hn, idiv32bit, run_bind, run_reg32, runBind_ok, run_getArgAs, hd]
    rw [← hx, ← hy]
    exact signedDivide_run (w := .dword) rfl rfl

end Division

end Operations

end Qx86
