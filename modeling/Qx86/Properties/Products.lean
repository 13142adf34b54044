import Qx86.Machine.Accumulator
import Qx86.Properties.Arithmetic

namespace Qx86

open Foundation Halves Op Operations Register

variable {w : ElementWidth} {p q : Pipeline} {vm : VM} {d : BitVec w.operand.bits}

/-- A step that leaves a full product in the accumulator pair, and in the flags whether its high
half is used. -/
structure Multiplies (w : ElementWidth) (vm : VM) (d : BitVec w.operand.bits)
    (o : Outcome VMError Unit × VM) : Prop where
  ok : o.1 = .ok ()
  product : joined (o.2.extension w) (o.2.accumulator w) = (vm.accumulator w).toNat * d.toNat
  carry : o.2.flags.carry = true ↔ o.2.extension w ≠ 0
  overflow : o.2.flags.overflow = true ↔ o.2.extension w ≠ 0

structure Divides (w : ElementWidth) (vm : VM) (d : BitVec w.operand.bits)
    (o : Outcome VMError Unit × VM) : Prop where
  fails_iff : o.1 = .err .divideByZero ↔
    d = 0 ∨ 2 ^ w.operand.bits ≤ joined (vm.extension w) (vm.accumulator w) / d.toNat
  unchanged : o.1 = .err .divideByZero → o.2 = vm
  quotient : o.1 ≠ .err .divideByZero → ∃ a b : BitVec w.operand.bits,
    o = (.ok (), vm.setPair w b a) ∧
      joined (vm.extension w) (vm.accumulator w) = a.toNat * d.toNat + b.toNat ∧
      b.toNat < d.toNat

theorem withProduct_multiplies (x : BitVec (2 * w.operand.bits))
    (hx : x.toNat = (vm.accumulator w).toNat * d.toNat) :
    Multiplies w vm d (.ok (), vm.withProduct w x) := by
  have hlow : (vm.withProduct w x).accumulator w = lowHalf x := VM.accumulator_setPair
  have hhigh : (vm.withProduct w x).extension w = highHalf x := VM.extension_setPair
  refine ⟨rfl, ?_, ?_, ?_⟩
  · rw [hlow, hhigh, joined_halves, hx]
  · rw [hhigh]
    exact decide_eq_true_iff
  · rw [hhigh]
    exact decide_eq_true_iff

theorem mul_multiplies (hw : p.HasWidth w)
    (hd : vm.getArg (p.args 0).location = .ok (w.operand.sized d)) :
    Multiplies w vm d (((w.select .mul8bit .mulNativeWord).logic p).run vm) := by
  rw [mul_run hw hd]
  exact withProduct_multiplies _ (product_toNat _ _)

theorem div_divides (hw : p.HasWidth w)
    (hd : vm.getArg (p.args 0).location = .ok (w.operand.sized d)) :
    Divides w vm d (((w.select .div8bit .divNativeWord).logic p).run vm) := by
  have hpair : (vm.accumulatorPair w).toNat = joined (vm.extension w) (vm.accumulator w) :=
    paired_toNat _ _
  rw [div_run hw hd, hpair]
  by_cases h : d = 0 ∨ 2 ^ w.operand.bits ≤ joined (vm.extension w) (vm.accumulator w) / d.toNat
  · rw [if_pos h]
    exact ⟨iff_of_true rfl h, fun _ ↦ rfl, fun hne ↦ absurd rfl hne⟩
  · rw [if_neg h]
    obtain ⟨hne, hfit⟩ := not_or.mp h
    have hpos : 0 < d.toNat := Nat.pos_of_ne_zero (mt (Words.eq_zero_iff_toNat d).mpr hne)
    have hmod := Nat.mod_lt (joined (vm.extension w) (vm.accumulator w)) hpos
    refine ⟨iff_of_false nofun h, nofun, fun _ ↦ ⟨_, _, rfl, ?_, ?_⟩⟩
    · rw [BitVec.toNat_ofNat, BitVec.toNat_ofNat, Nat.mod_eq_of_lt (Nat.lt_of_not_le hfit),
        Nat.mod_eq_of_lt (hmod.trans d.isLt)]
      exact (Nat.div_add_mod' _ _).symm
    · rw [BitVec.toNat_ofNat, Nat.mod_eq_of_lt (hmod.trans d.isLt)]
      exact hmod

theorem getReg_withProduct {r : Register} (x : BitVec (2 * w.operand.bits)) (hlow : r ≠ eax)
    (hhigh : r ≠ w.upper) :
    (vm.withProduct w x).getReg r w.operand.size = vm.getReg r w.operand.size := by
  have hpair : (vm.withProduct w x).getReg r w.operand.size =
      (vm.setPair w (highHalf x) (lowHalf x)).getReg r w.operand.size := by
    cases w <;> rfl
  rw [hpair]
  exact VM.getReg_setPair hlow hhigh

theorem quotient_of_product {o : Outcome VMError Unit × VM} {t : VM}
    (ht : joined (t.extension w) (t.accumulator w) = (vm.accumulator w).toNat * d.toNat)
    (hne : d ≠ 0) (ho : Divides w t d o) : o = (.ok (), t.setPair w 0 (vm.accumulator w)) := by
  have hpos : 0 < d.toNat := Nat.pos_of_ne_zero (mt (Words.eq_zero_iff_toNat d).mpr hne)
  have hdiv : joined (t.extension w) (t.accumulator w) / d.toNat = (vm.accumulator w).toNat := by
    rw [ht, Nat.mul_div_cancel _ hpos]
  have hfit : o.1 ≠ .err .divideByZero := by
    intro h
    obtain hzero | hlarge := ho.fails_iff.mp h
    · exact hne hzero
    · rw [hdiv] at hlarge
      exact absurd (vm.accumulator w).isLt (Nat.not_lt.mpr hlarge)
  obtain ⟨a, b, hrun, hsum, hlt⟩ := ho.quotient hfit
  have ha : a = vm.accumulator w := by
    apply BitVec.eq_of_toNat_eq
    rw [← hdiv, hsum, Nat.mul_comm, Nat.mul_add_div hpos, Nat.div_eq_of_lt hlt, Nat.add_zero]
  have hb : b = 0 := by
    rw [Words.eq_zero_iff_toNat]
    rw [ht, ha] at hsum
    omega
  rw [hrun, ha, hb]

/-- MUL and DIV are exact, and a division by the factor of a product undoes it. -/
theorem mul_div_exact (p : Pipeline) (w : ElementWidth) (hp : p.HasWidth w) (vm : VM)
    (d : BitVec w.operand.bits) (hd : vm.getArg (p.args 0).location = .ok (w.operand.sized d)) :
    Multiplies w vm d (((w.select .mul8bit .mulNativeWord).logic p).run vm) ∧
      Divides w vm d (((w.select .div8bit .divNativeWord).logic p).run vm) ∧
      ∀ (q : Pipeline) (r : Register), q.HasWidth w →
        (p.args 0).location = .registerValue r w.operand.size →
        (q.args 0).location = .registerValue r w.operand.size → r ≠ eax → r ≠ w.upper → d ≠ 0 →
          ∃ t t', ((w.select .mul8bit .mulNativeWord).logic p).run vm = (.ok (), t) ∧
            ((w.select .div8bit .divNativeWord).logic q).run t = (.ok (), t') ∧
            t'.accumulator w = vm.accumulator w ∧ t'.extension w = 0 := by
  refine ⟨mul_multiplies hp hd, div_divides hp hd, ?_⟩
  intro q r hq hpr hqr hlow hhigh hne
  have hkept : (vm.withProduct w (product (vm.accumulator w) d)).getArg (q.args 0).location =
      .ok (w.operand.sized d) := by
    rw [← hd, hqr, hpr]
    exact congrArg Except.ok (getReg_withProduct _ hlow hhigh)
  have hrun := mul_run hp hd
  have hmul := mul_multiplies hp hd
  rw [hrun] at hmul
  have hdiv := quotient_of_product hmul.product hne (div_divides hq hkept)
  exact ⟨_, _, hrun, hdiv, VM.accumulator_setPair, VM.extension_setPair⟩

def byEbx : Pipeline := operandSlot false ![.registerValue ebx .dword, .none, .none]

theorem mul_div_exact_byEbx : ∃ t t',
    (LogicFn.mulNativeWord.logic byEbx).run (twoRegisters 7 0xFFFFFFFF) = (.ok (), t) ∧
      (LogicFn.divNativeWord.logic byEbx).run t = (.ok (), t') ∧
      t'.accumulator .dword = (twoRegisters 7 0xFFFFFFFF).accumulator .dword ∧
      t'.extension .dword = 0 :=
  (mul_div_exact byEbx .dword rfl (twoRegisters 7 0xFFFFFFFF) 0xFFFFFFFF rfl).2.2 byEbx ebx
    rfl rfl rfl (by decide) (by decide) (by decide)

end Qx86
