import Qx86.Properties.Products

namespace Qx86

open Foundation Halves Op Operations Register

variable {w : ElementWidth} {p : Pipeline} {vm : VM} {a b d : BitVec w.operand.bits}

/-- A step that leaves a full signed product in the accumulator pair, and in the flags whether
it does not fit in one half. -/
structure MultipliesSigned (w : ElementWidth) (vm : VM) (d : BitVec w.operand.bits)
    (o : Outcome VMError Unit × VM) : Prop where
  ok : o.1 = .ok ()
  product : joinedInt (o.2.extension w) (o.2.accumulator w) =
    (vm.accumulator w).toInt * d.toInt
  carry : o.2.flags.carry = true ↔
    ¬SignedFits w.operand.bits ((vm.accumulator w).toInt * d.toInt)
  overflow : o.2.flags.overflow = true ↔
    ¬SignedFits w.operand.bits ((vm.accumulator w).toInt * d.toInt)

/-- A step that stores the low half of a signed product in its first operand, and in the flags
whether that is not all of it. -/
structure StoresProduct (p : Pipeline) (vm : VM) (a b : BitVec w.operand.bits)
    (o : Outcome VMError Unit × VM) : Prop where
  step : o = vm.stored o.2.flags (p.args 0).location
    (w.operand.sized (BitVec.ofInt _ (a.toInt * b.toInt)))
  value : o.1 = .ok () → o.2.getArg (p.args 0).location =
    .ok (w.operand.sized (BitVec.ofInt _ (a.toInt * b.toInt)))
  carry : o.2.flags.carry = true ↔ ¬SignedFits w.operand.bits (a.toInt * b.toInt)
  overflow : o.2.flags.overflow = true ↔ ¬SignedFits w.operand.bits (a.toInt * b.toInt)

theorem withProduct_signed (x : BitVec (2 * w.operand.bits)) :
    MultipliesSigned w vm d (.ok (), vm.withProduct w x) ↔
      x.toInt = (vm.accumulator w).toInt * d.toInt ∧
        HalfTells w.operand.bits ((vm.accumulator w).toInt * d.toInt) := by
  have hproduct : joinedInt ((vm.withProduct w x).extension w)
      ((vm.withProduct w x).accumulator w) = x.toInt := by
    have hlow : (vm.withProduct w x).accumulator w = lowHalf x := VM.accumulator_setPair
    have hhigh : (vm.withProduct w x).extension w = highHalf x := VM.extension_setPair
    rw [hlow, hhigh, joinedInt_halves]
  have hcarry : (vm.withProduct w x).flags.carry = true ↔ highHalf x ≠ 0 := decide_eq_true_iff
  have htells := halfTells_iff w.bits_pos x
  constructor
  · intro h
    have hx := hproduct.symm.trans h.product
    rw [hx] at htells
    exact ⟨hx, htells.mp (hcarry.symm.trans h.carry)⟩
  · rintro ⟨hx, h⟩
    rw [hx] at htells
    exact ⟨rfl, hproduct.trans hx, hcarry.trans (htells.mpr h), hcarry.trans (htells.mpr h)⟩

theorem keptProduct_stores (hl : (p.args 0).location.size = w.operand.size) :
    StoresProduct p vm a b (keptProduct p vm a b) ↔
      HalfTells w.operand.bits (a.toInt * b.toInt) := by
  have hwrites : Writes p w vm (lowHalf (signedProduct a b)) _ (keptProduct p vm a b) :=
    stored_writes hl _
  have hcarry : (keptProduct p vm a b).2.flags.carry = true ↔ highHalf (signedProduct a b) ≠ 0 := by
    rw [hwrites.flags]
    exact decide_eq_true_iff
  have hoverflow : (keptProduct p vm a b).2.flags.overflow = true ↔
      highHalf (signedProduct a b) ≠ 0 := by
    rw [hwrites.flags]
    exact decide_eq_true_iff
  have htells := halfTells_iff w.bits_pos (signedProduct a b)
  rw [signedProduct_toInt] at htells
  constructor
  · intro h
    exact htells.mp (hcarry.symm.trans h.carry)
  · intro h
    refine ⟨?_, ?_, hcarry.trans (htells.mpr h), hoverflow.trans (htells.mpr h)⟩
    · rw [← lowHalf_signedProduct, hwrites.flags]
      exact hwrites.step
    · rw [← lowHalf_signedProduct]
      exact hwrites.value

theorem toInt_eq_zero_iff : d.toInt = 0 ↔ d = 0 := by
  rw [← BitVec.toInt_inj]
  exact iff_of_eq (congrArg (d.toInt = ·) BitVec.toInt_zero.symm)

theorem accumulatorProduct_toInt (a d : BitVec w.operand.bits) :
    (accumulatorProduct w a d).toInt = a.toInt * d.toInt ↔
      (w = .byte → 0 ≤ a.toInt ∨ d = 0) := by
  cases w with
  | byte =>
    have hmixed : (accumulatorProduct .byte a d).toInt = a.toNat * d.toInt :=
      mixedProduct_toInt (n := 8) (by decide) a d
    have hsign : (a.toNat : ℤ) = a.toInt ↔ 0 ≤ a.toInt := by
      have hlt := a.isLt
      have hcond := BitVec.toInt_eq_toNat_cond a
      split at hcond <;> omega
    have hzero : d.toInt = 0 ↔ d = 0 := toInt_eq_zero_iff
    rw [hmixed, mul_eq_mul_right_iff, hsign, hzero]
    exact ⟨fun h _ ↦ h, fun h ↦ h rfl⟩
  | word | dword => exact iff_of_true (signedProduct_toInt a d) nofun

/-- The signed products are exact where the high half tells whether they fit, and in the byte
form where AL is not negative or multiplied by zero. -/
theorem imul_exact_iff (p : Pipeline) (w : ElementWidth) (hw : p.HasWidth w) (vm : VM) :
    (∀ d, vm.getArg (p.args 0).location = .ok (w.operand.sized d) →
      (MultipliesSigned w vm d (((w.select .imul1_8bit .imul1NativeWord).logic p).run vm) ↔
        (w = .byte → 0 ≤ (vm.accumulator w).toInt ∨ d = 0) ∧
          HalfTells w.operand.bits ((vm.accumulator w).toInt * d.toInt))) ∧
    (w ≠ .byte → ∀ a b, vm.getArg (p.args 0).location = .ok (w.operand.sized a) →
      vm.SourceReads w (p.args 1).location b →
        (StoresProduct p vm a b ((LogicFn.imul2NativeWord.logic p).run vm) ↔
          HalfTells w.operand.bits (a.toInt * b.toInt))) ∧
    (w ≠ .byte → ∀ a b, (p.args 0).location.size = w.operand.size →
      vm.SourceReads w (p.args 1).location a → vm.SourceReads w (p.args 2).location b →
        (StoresProduct p vm a b ((LogicFn.imul3NativeWord.logic p).run vm) ↔
          HalfTells w.operand.bits (a.toInt * b.toInt))) := by
  refine ⟨?_, ?_, ?_⟩
  · intro d hd
    rw [imul1_run hw hd, withProduct_signed, accumulatorProduct_toInt]
  · intro hne a b ha hb
    rw [imul2_run hw hne (.inl ha) hb, keptProduct_stores (size_of_getArg ha)]
  · intro hne a b hl ha hb
    rw [imul3_run hw hne ha hb, keptProduct_stores hl]

theorem imul_exact_iff_byEbx :
    MultipliesSigned .dword (twoRegisters 6 7) 7
      ((LogicFn.imul1NativeWord.logic byEbx).run (twoRegisters 6 7)) := by
  have hiff := (imul_exact_iff byEbx .dword rfl (twoRegisters 6 7)).1 (7 : BitVec 32) rfl
  have htells : HalfTells 32 (((twoRegisters 6 7).accumulator .dword).toInt *
      (7 : BitVec 32).toInt) := ⟨by decide, by decide⟩
  exact hiff.mpr ⟨nofun, htells⟩

/-- The product of -1 and 1 fits, but sets the carry flag. -/
theorem imul_negative : ¬∀ (p : Pipeline) (w : ElementWidth) (vm : VM) (d : BitVec w.operand.bits),
    p.HasWidth w → vm.getArg (p.args 0).location = .ok (w.operand.sized d) →
      MultipliesSigned w vm d (((w.select .imul1_8bit .imul1NativeWord).logic p).run vm) := by
  intro h
  have hcarry := (h byEbx .dword (twoRegisters 0xFFFFFFFF 1) (1 : BitVec 32) rfl rfl).carry
  have hfits : SignedFits 32 (((twoRegisters 0xFFFFFFFF 1).accumulator .dword).toInt *
      (1 : BitVec 32).toInt) := ⟨by decide, by decide⟩
  exact hcarry.mp rfl hfits

end Qx86
