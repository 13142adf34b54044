import Qx86.Foundation.Quotients
import Qx86.Properties.SignedProducts

namespace Qx86

open Foundation Halves Quotients Op Operations Register

variable {w : ElementWidth} {p : Pipeline} {vm : VM} {d : BitVec w.operand.bits} {x y : ℤ}

def VM.signedPair (w : ElementWidth) (vm : VM) : ℤ := joinedInt (vm.extension w) (vm.accumulator w)

structure DividesSigned (w : ElementWidth) (vm : VM) (d : BitVec w.operand.bits)
    (o : Outcome VMError Unit × VM) : Prop where
  returns : o.1 ≠ .panic
  fails_iff : o.1 = .err .divideByZero ↔
    d = 0 ∨ ¬SignedFits w.operand.bits ((vm.signedPair w).tdiv d.toInt)
  unchanged : o.1 = .err .divideByZero → o.2 = vm
  quotient : o.1 ≠ .err .divideByZero → ∃ q r : BitVec w.operand.bits,
    o = (.ok (), vm.setPair w r q) ∧ Truncates (vm.signedPair w) d.toInt q.toInt r.toInt

/-- Where a divisor that is taken without its sign gives the right result. -/
def NarrowRight (n : ℕ) (a d : ℤ) : Prop :=
  d = 0 ∨ (0 < d ∧ (QuotientFits (2 ^ (n - 1)) a d ∨ QuotientExceeds (2 ^ n) a d)) ∨
    (d < 0 ∧ (|a| < |d| ∨ (d = -2 ^ (n - 1) ∧ 2 ^ (n - 1) * 2 ^ (n - 1) ≤ a ∧
      a < 2 ^ (n - 1) * 2 ^ (n - 1) + 2 ^ (n - 1))))

/-- Where a dividend whose low half is taken with a sign gives the right result. -/
def WideRight (n : ℕ) (high low d : BitVec n) : Prop :=
  d.toInt = 0 ∨
    ((0 ≤ low.toInt ∨ high.toInt = -1) ∧
      (QuotientFits (2 ^ (n - 1)) (joinedInt high low) d.toInt ∨
        (QuotientExceeds (2 ^ n) (joinedInt high low) d.toInt ∧
          ¬(joinedInt high low = -2 ^ (2 * n - 1) ∧ d.toInt = -1)))) ∨
    (joinedInt high low = 2 ^ (n - 1) ∧ d.toInt = -1)

/-- The numbers that the signed divisions divide right. -/
def DividesRight : (w : ElementWidth) → BitVec w.operand.bits → BitVec w.operand.bits →
    BitVec w.operand.bits → Prop
  | .byte, high, low, d => NarrowRight 8 (joinedInt high low) d.toInt
  | .word, high, low, d => NarrowRight 16 (joinedInt high low) d.toInt
  | .dword, high, low, d => WideRight 32 high low d

theorem two_pow_bits (w : ElementWidth) :
    (2 : ℤ) ^ w.operand.bits = 2 * 2 ^ (w.operand.bits - 1) := by
  rw [← pow_succ', Nat.sub_add_cancel w.bits_pos]

theorem ofInt_wraps (w : ElementWidth) (x : ℤ) :
    Wraps (2 ^ (w.operand.bits - 1)) x (BitVec.ofInt w.operand.bits x).toInt := by
  refine ⟨BitVec.le_toInt _, BitVec.toInt_lt, ?_⟩
  rw [← two_pow_bits w, BitVec.toInt_ofInt, Int.bmod_eq_self_sub_mul_bdiv, sub_sub_cancel]
  push_cast
  exact dvd_mul_right _ _

theorem divideByZero_divides : DividesSigned w vm d (.err .divideByZero, vm) ↔
    d = 0 ∨ ¬SignedFits w.operand.bits ((vm.signedPair w).tdiv d.toInt) := by
  constructor
  · intro h
    exact h.fails_iff.mp rfl
  · intro h
    exact ⟨nofun, iff_of_true rfl h, fun _ ↦ rfl, fun hne ↦ absurd rfl hne⟩

theorem setPair_divides (q r : BitVec w.operand.bits) :
    DividesSigned w vm d (.ok (), vm.setPair w r q) ↔
      Truncates (vm.signedPair w) d.toInt q.toInt r.toInt := by
  constructor
  · intro h
    obtain ⟨q', r', hrun, t⟩ := h.quotient nofun
    have hstate : vm.setPair w r q = vm.setPair w r' q' := congrArg Prod.snd hrun
    have hq : q = q' := by
      have hlow := congrArg (VM.accumulator w) hstate
      rwa [VM.accumulator_setPair, VM.accumulator_setPair] at hlow
    have hr : r = r' := by
      have hhigh := congrArg (VM.extension w) hstate
      rwa [VM.extension_setPair, VM.extension_setPair] at hhigh
    rw [hq, hr]
    exact t
  · intro t
    obtain ⟨hne, hq, -⟩ := truncates_iff.mp t
    refine ⟨nofun, iff_of_false nofun ?_, nofun, fun _ ↦ ⟨q, r, rfl, t⟩⟩
    rintro (hzero | hfits)
    · exact hne (toInt_eq_zero_iff.mpr hzero)
    · rw [← hq] at hfits
      exact hfits ⟨BitVec.le_toInt _, BitVec.toInt_lt⟩

theorem panic_divides : ¬DividesSigned w vm d (.panic, vm) :=
  fun h ↦ h.returns rfl

/-- A signed division of the numbers themselves goes wrong only between the two ranges. -/
theorem signedQuotient_divides :
    DividesSigned w vm d (signedQuotient w vm (vm.signedPair w) d.toInt) ↔
      d.toInt = 0 ∨ QuotientFits (2 ^ (w.operand.bits - 1)) (vm.signedPair w) d.toInt ∨
        (QuotientExceeds (2 ^ w.operand.bits) (vm.signedPair w) d.toInt ∧
          ¬(vm.signedPair w = -2 ^ (2 * w.operand.bits - 1) ∧ d.toInt = -1)) := by
  have hhalf : (0 : ℤ) < 2 ^ (w.operand.bits - 1) := by positivity
  have hpow := two_pow_bits w
  rw [signedQuotient]
  by_cases hd : d.toInt = 0
  · rw [if_pos hd, divideByZero_divides]
    exact iff_of_true (.inl (toInt_eq_zero_iff.mp hd)) (.inl hd)
  · have hfits := quotientFits_iff (a := vm.signedPair w) hd hhalf
    have hexceeds := quotientExceeds_iff (a := vm.signedPair w) (k := 2 ^ w.operand.bits) hd
      (by omega)
    rw [if_neg hd, hfits, hexceeds]
    by_cases hover : vm.signedPair w = -2 ^ (2 * w.operand.bits - 1) ∧ d.toInt = -1
    · rw [if_pos hover]
      refine iff_of_false panic_divides ?_
      have hquotient : (vm.signedPair w).tdiv d.toInt = 2 ^ (2 * w.operand.bits - 1) := by
        rw [hover.1, hover.2, Int.neg_tdiv_neg, Int.tdiv_one]
      have hle : (2 : ℤ) ^ (w.operand.bits - 1) ≤ 2 ^ (2 * w.operand.bits - 1) :=
        pow_le_pow_right₀ (by decide) (by omega)
      rintro (hzero | hin | ⟨-, hne⟩)
      · exact hd hzero
      · omega
      · exact hne hover
    · rw [if_neg hover]
      by_cases hlarge : 2 ^ w.operand.bits ≤ (vm.signedPair w).tdiv d.toInt
      · rw [if_pos hlarge, divideByZero_divides]
        refine iff_of_true (.inr fun hin ↦ ?_) (.inr (.inr ⟨hlarge, hover⟩))
        have hlt := hin.2
        omega
      · have habs := abs_le.mpr ⟨BitVec.le_toInt d, BitVec.toInt_lt.le⟩
        rw [if_neg hlarge, setPair_divides,
          truncates_stored_iff hd habs (ofInt_wraps w _) (ofInt_wraps w _)]
        constructor
        · intro hin
          exact .inr (.inl hin)
        · rintro (hzero | hin | ⟨hin, -⟩)
          · exact absurd hzero hd
          · exact hin
          · exact absurd hin hlarge

theorem signedPair_bounds (w : ElementWidth) (vm : VM) :
    -(2 * 2 ^ (w.operand.bits - 1) * 2 ^ (w.operand.bits - 1)) ≤ vm.signedPair w ∧
      vm.signedPair w < 2 * 2 ^ (w.operand.bits - 1) * 2 ^ (w.operand.bits - 1) := by
  have hpow := two_pow_bits w
  have hlow : ((vm.accumulator w).toNat : ℤ) < 2 ^ w.operand.bits := by
    exact_mod_cast (vm.accumulator w).isLt
  have hlo := BitVec.le_toInt (vm.extension w)
  have hhi := BitVec.toInt_lt (x := vm.extension w)
  rw [VM.signedPair, joinedInt, hpow]
  rw [hpow] at hlow
  constructor <;> nlinarith

theorem signedQuotient_unsigned (hd : d.toInt < 0) (hy : y = d.toInt + 2 ^ w.operand.bits) :
    DividesSigned w vm d (signedQuotient w vm (vm.signedPair w) y) ↔
      |vm.signedPair w| < |d.toInt| ∨ (d.toInt = -2 ^ (w.operand.bits - 1) ∧
        2 ^ (w.operand.bits - 1) * 2 ^ (w.operand.bits - 1) ≤ vm.signedPair w ∧
        vm.signedPair w <
          2 ^ (w.operand.bits - 1) * 2 ^ (w.operand.bits - 1) + 2 ^ (w.operand.bits - 1)) := by
  have hhalf : (0 : ℤ) < 2 ^ (w.operand.bits - 1) := by positivity
  have hlo := BitVec.le_toInt d
  have hbounds := signedPair_bounds w vm
  rw [two_pow_bits w] at hy
  have hypos : 0 < y := by omega
  have hsmall : ¬2 ^ w.operand.bits ≤ (vm.signedPair w).tdiv y := by
    rw [← quotientExceeds_iff hypos.ne' (by positivity), two_pow_bits w]
    rintro ⟨hpos, hle⟩
    have hapos : 0 < vm.signedPair w := pos_of_mul_pos_left hpos hypos.le
    rw [abs_of_pos hapos, abs_of_pos hypos] at hle
    nlinarith
  rw [signedQuotient, if_neg hypos.ne', if_neg (by omega), if_neg hsmall, setPair_divides]
  have t := truncates_tdiv (a := vm.signedPair w) hypos.ne'
  rw [hy] at t ⊢
  constructor
  · exact unsigned_of_truncates hd hlo t (ofInt_wraps w _)
  · exact truncates_of_unsigned hd hlo t (ofInt_wraps w _) (ofInt_wraps w _)

theorem signedQuotient_lost (hd : d.toInt ≠ 0) (hx : -2 ^ (w.operand.bits - 1) ≤ x) (hx0 : x < 0)
    (hlost : 2 * 2 ^ (w.operand.bits - 1) ∣ vm.signedPair w - x) (hne : vm.signedPair w ≠ x) :
    DividesSigned w vm d (signedQuotient w vm x d.toInt) ↔
      vm.signedPair w = 2 ^ (w.operand.bits - 1) ∧ d.toInt = -1 := by
  have hhalf : (0 : ℤ) < 2 ^ (w.operand.bits - 1) := by positivity
  have habs := abs_le.mpr ⟨BitVec.le_toInt d, BitVec.toInt_lt.le⟩
  have hwide : (2 : ℤ) ^ (w.operand.bits - 1) < 2 ^ (2 * w.operand.bits - 1) := by
    have hbits := w.bits_pos
    exact pow_lt_pow_right₀ (by decide) (by omega)
  have hsmall : ¬2 ^ w.operand.bits ≤ x.tdiv d.toInt := by
    have hle := Int.natAbs_tdiv_le_natAbs x d.toInt
    rw [two_pow_bits w]
    omega
  have t := truncates_tdiv (a := x) hd
  rw [signedQuotient, if_neg hd, if_neg (by omega), if_neg hsmall, setPair_divides]
  constructor
  · exact lost_of_truncates hx hx0 habs t hne (ofInt_wraps w _) (ofInt_wraps w _)
  · rintro ⟨ha, hd1⟩
    exact truncates_of_lost hx hx0 habs t hlost (ofInt_wraps w _) (ofInt_wraps w _) ha hd1

theorem toNat_eq_of_nonneg (hd : 0 ≤ d.toInt) : (d.toNat : ℤ) = d.toInt := by
  have hlt := d.isLt
  have hcond := BitVec.toInt_eq_toNat_cond d
  split at hcond <;> omega

theorem toNat_eq_of_neg (hd : d.toInt < 0) : (d.toNat : ℤ) = d.toInt + 2 ^ w.operand.bits := by
  have hcast : ((2 ^ w.operand.bits : ℕ) : ℤ) = 2 ^ w.operand.bits := by push_cast; rfl
  have hcond := BitVec.toInt_eq_toNat_cond d
  split at hcond <;> omega

theorem narrow_divides : DividesSigned w vm d (signedQuotient w vm (vm.signedPair w) d.toNat) ↔
    NarrowRight w.operand.bits (vm.signedPair w) d.toInt := by
  obtain hneg | hzero | hpos := lt_trichotomy d.toInt 0
  · rw [signedQuotient_unsigned hneg (toNat_eq_of_neg hneg)]
    constructor
    · intro h
      exact .inr (.inr ⟨hneg, h⟩)
    · rintro (h | ⟨h, -⟩ | ⟨-, h⟩)
      · omega
      · omega
      · exact h
  · rw [toNat_eq_of_nonneg hzero.ge, signedQuotient_divides]
    exact iff_of_true (.inl hzero) (.inl hzero)
  · rw [toNat_eq_of_nonneg hpos.le, signedQuotient_divides]
    constructor
    · rintro (h | h | ⟨h, -⟩)
      · exact .inl h
      · exact .inr (.inl ⟨hpos, .inl h⟩)
      · exact .inr (.inl ⟨hpos, .inr h⟩)
    · rintro (h | ⟨-, h | h⟩ | ⟨h, -⟩)
      · exact .inl h
      · exact .inr (.inl h)
      · exact .inr (.inr ⟨h, by omega⟩)
      · omega

theorem wide_divides :
    DividesSigned w vm d (signedQuotient w vm
      (if 0 ≤ (vm.accumulator w).toInt then vm.signedPair w else (vm.accumulator w).toInt)
      d.toInt) ↔ WideRight w.operand.bits (vm.extension w) (vm.accumulator w) d := by
  have hhalf : (0 : ℤ) < 2 ^ (w.operand.bits - 1) := by positivity
  have hpair : joinedInt (vm.extension w) (vm.accumulator w) = vm.signedPair w := rfl
  rw [WideRight, hpair]
  by_cases hsame : 0 ≤ (vm.accumulator w).toInt ∨ (vm.extension w).toInt = -1
  · have hdividend : (if 0 ≤ (vm.accumulator w).toInt then vm.signedPair w
        else (vm.accumulator w).toInt) = vm.signedPair w := by
      by_cases hlow : 0 ≤ (vm.accumulator w).toInt
      · rw [if_pos hlow]
      · have hhigh := hsame.resolve_left hlow
        rw [if_neg hlow, VM.signedPair, joinedInt, hhigh, toNat_eq_of_neg (by omega)]
        ring
    rw [hdividend, signedQuotient_divides]
    constructor
    · rintro (h | h)
      · exact .inl h
      · exact .inr (.inl ⟨hsame, h⟩)
    · rintro (h | ⟨-, h⟩ | ⟨ha, hd⟩)
      · exact .inl h
      · exact .inr h
      · refine .inr (.inl (.inr ⟨?_, ?_⟩))
        · rw [ha, hd]
          omega
        · rw [ha, hd, abs_of_pos hhalf, abs_neg, abs_one]
          omega
  · obtain ⟨hlow, hhigh⟩ := not_or.mp hsame
    have hnat := toNat_eq_of_neg (d := vm.accumulator w) (by omega)
    have hdiff : vm.signedPair w - (vm.accumulator w).toInt =
        2 * 2 ^ (w.operand.bits - 1) * ((vm.extension w).toInt + 1) := by
      rw [VM.signedPair, joinedInt, hnat, two_pow_bits w]
      ring
    have hne : vm.signedPair w ≠ (vm.accumulator w).toInt := by
      intro heq
      rw [heq, sub_self] at hdiff
      have hzero := (mul_eq_zero.mp hdiff.symm).resolve_left (by omega)
      omega
    rw [if_neg hlow]
    by_cases hd : d.toInt = 0
    · rw [hd, signedQuotient, if_pos rfl, divideByZero_divides]
      exact iff_of_true (.inl (toInt_eq_zero_iff.mp hd)) (.inl rfl)
    · rw [signedQuotient_lost hd (BitVec.le_toInt _) (by omega)
        (hdiff ▸ dvd_mul_right _ _) hne]
      constructor
      · intro h
        exact .inr (.inr h)
      · rintro (h | ⟨h, -⟩ | h)
        · exact absurd h hd
        · exact absurd h hsame
        · exact h

/-- The signed divisions are exact on the numbers that they divide right, and on no others. -/
theorem idiv_exact_iff (p : Pipeline) (w : ElementWidth) (hw : p.HasWidth w) (vm : VM)
    (d : BitVec w.operand.bits) (hd : vm.getArg (p.args 0).location = .ok (w.operand.sized d)) :
    DividesSigned w vm d (((w.select .idiv8bit .idivNativeWord).logic p).run vm) ↔
      DividesRight w (vm.extension w) (vm.accumulator w) d := by
  rw [idiv_run hw hd]
  cases w with
  | byte => exact narrow_divides (w := .byte)
  | word => exact narrow_divides (w := .word)
  | dword => exact wide_divides (w := .dword)

theorem idiv_exact_iff_byEbx :
    DividesSigned .dword (twoRegisters 7 0xFFFFFFFE) (0xFFFFFFFE : BitVec 32)
      ((LogicFn.idivNativeWord.logic byEbx).run (twoRegisters 7 0xFFFFFFFE)) := by
  have hiff := idiv_exact_iff byEbx .dword rfl (twoRegisters 7 0xFFFFFFFE)
    (0xFFFFFFFE : BitVec 32) rfl
  have hfits : QuotientFits (2 ^ 31) (joinedInt (0 : BitVec 32) 7) (0xFFFFFFFE : BitVec 32).toInt :=
    .inl (by decide)
  exact hiff.mpr (.inr (.inl ⟨.inl (by decide), .inl hfits⟩))

/-- Dividing 2 ^ 31 by 1 gives -2 ^ 31 instead of an error. -/
theorem idiv_wraps : ¬∀ (p : Pipeline) (w : ElementWidth) (vm : VM) (d : BitVec w.operand.bits),
    p.HasWidth w → vm.getArg (p.args 0).location = .ok (w.operand.sized d) →
      DividesSigned w vm d (((w.select .idiv8bit .idivNativeWord).logic p).run vm) := by
  intro h
  have hdivides := h byEbx .dword (twoRegisters 0x80000000 1) (1 : BitVec 32) rfl rfl
  have hlarge : ¬SignedFits 32
      (((twoRegisters 0x80000000 1).signedPair .dword).tdiv (1 : BitVec 32).toInt) := by
    rintro ⟨-, hlt⟩
    revert hlt
    decide
  have herr := hdivides.fails_iff.mpr (.inr hlarge)
  have hok : ((LogicFn.idivNativeWord.logic byEbx).run (twoRegisters 0x80000000 1)).1 = .ok () := by
    decide
  exact nomatch hok.symm.trans herr

end Qx86
