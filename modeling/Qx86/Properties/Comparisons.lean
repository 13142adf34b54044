import Qx86.Properties.Arithmetic

namespace Qx86

open Foundation Op Operations Register

/-- The comparisons that a condition code can ask for after CMP: of equality, of unsigned
numbers and of signed numbers. -/
inductive Comparison where
  | equal | notEqual
  | below | aboveOrEqual | belowOrEqual | above
  | less | greaterOrEqual | lessOrEqual | greater
  deriving DecidableEq

namespace Comparison

def code : Comparison → BitVec 8
  | equal => 0x4
  | notEqual => 0x5
  | below => 0x2
  | aboveOrEqual => 0x3
  | belowOrEqual => 0x6
  | above => 0x7
  | less => 0xC
  | greaterOrEqual => 0xD
  | lessOrEqual => 0xE
  | greater => 0xF

def Holds {n : ℕ} (c : Comparison) (a b : BitVec n) : Prop :=
  match c with
  | equal => a = b
  | notEqual => a ≠ b
  | below => a.toNat < b.toNat
  | aboveOrEqual => b.toNat ≤ a.toNat
  | belowOrEqual => a.toNat ≤ b.toNat
  | above => b.toNat < a.toNat
  | less => a.toInt < b.toInt
  | greaterOrEqual => b.toInt ≤ a.toInt
  | lessOrEqual => a.toInt ≤ b.toInt
  | greater => b.toInt < a.toInt

instance {n : ℕ} (c : Comparison) (a b : BitVec n) : Decidable (c.Holds a b) := by
  cases c <;> unfold Holds <;> infer_instance

end Comparison

section Flags

variable {n : ℕ} (f : X86Flags) (a b : BitVec n)

theorem ofDifference_zero : (f.ofDifference a b).zero = decide (a = b) := by
  refine decide_eq_decide.mpr ?_
  constructor
  · intro h
    have hsum := congrArg (· + b) h
    simpa using hsum
  · rintro rfl
    exact BitVec.sub_self a

theorem ofDifference_carry : (f.ofDifference a b).carry = decide (a.toNat < b.toNat) := rfl

/-- The sign of a difference is wrong exactly if it overflows. -/
theorem ofDifference_less :
    ((f.ofDifference a b).sign != (f.ofDifference a b).overflow) = decide (a.toInt < b.toInt) := by
  have hmsb := BitVec.msb_eq_toInt (x := a - b)
  have ha := BitVec.msb_eq_toInt (x := a)
  have hb := BitVec.msb_eq_toInt (x := b)
  change (decide ((a - b).toInt < 0) != decide ((a - b).toInt ≠ a.toInt - b.toInt)) = _
  rw [← ssubOverflow_eq]
  cases ho : a.ssubOverflow b with
  | false =>
    have hd := BitVec.toInt_sub_of_not_ssubOverflow (x := a) (y := b) (by simp [ho])
    rw [Bool.bne_false, hd]
    refine decide_eq_decide.mpr ?_
    omega
  | true =>
    rw [BitVec.ssubOverflow_eq, hmsb, ha, hb] at ho
    rw [Bool.bne_true, ← decide_not]
    refine decide_eq_decide.mpr ?_
    simp only [Bool.or_eq_true, Bool.and_eq_true, Bool.not_eq_true', decide_eq_true_eq,
      decide_eq_false_iff_not] at ho
    omega

theorem ccMatches_ofDifference (c : Comparison) {opcode : BitVec 8}
    (hc : 0x0F &&& opcode = c.code) :
    ccMatches opcode (f.ofDifference a b) = decide (c.Holds a b) := by
  have hz := ofDifference_zero f a b
  have hcarry := ofDifference_carry f a b
  have hless := ofDifference_less f a b
  have hle : ((f.ofDifference a b).sign == (f.ofDifference a b).overflow) =
      decide (b.toInt ≤ a.toInt) := by
    rw [← Bool.not_not (_ == _)]
    change (!(_ != _)) = _
    rw [hless, ← decide_not]
    exact decide_eq_decide.mpr Int.not_lt
  have hnat : a = b ↔ a.toNat = b.toNat := BitVec.toNat_inj.symm
  have hint : a = b ↔ a.toInt = b.toInt := BitVec.toInt_inj.symm
  unfold ccMatches
  rw [hc]
  cases c with
  | equal => exact hz
  | notEqual =>
    change (!_) = _
    rw [hz, ← decide_not]
    rfl
  | below => exact hcarry
  | aboveOrEqual =>
    change (!_) = _
    rw [hcarry, ← decide_not]
    exact decide_eq_decide.mpr Nat.not_lt
  | belowOrEqual =>
    change (_ || _) = _
    rw [hcarry, hz, ← Bool.decide_or]
    refine decide_eq_decide.mpr ?_
    change _ ↔ a.toNat ≤ b.toNat
    rw [hnat]
    omega
  | above =>
    change (!_ && !_) = _
    rw [hcarry, hz, ← decide_not, ← decide_not, ← Bool.decide_and]
    refine decide_eq_decide.mpr ?_
    change _ ↔ b.toNat < a.toNat
    rw [hnat]
    omega
  | less => exact hless
  | greaterOrEqual => exact hle
  | lessOrEqual =>
    change ((_ != _) || _) = _
    rw [hless, hz, ← Bool.decide_or]
    refine decide_eq_decide.mpr ?_
    change _ ↔ a.toInt ≤ b.toInt
    rw [hint]
    omega
  | greater =>
    change ((_ == _) && !_) = _
    rw [hle, hz, ← decide_not, ← Bool.decide_and]
    refine decide_eq_decide.mpr ?_
    change _ ↔ b.toInt < a.toInt
    rw [hint]
    omega

end Flags

section Conditional

variable {q : Pipeline} {vm : VM} {P : Prop} [Decidable P]
  (h : ccMatches q.opcode vm.flags = decide P)

include h

theorem jcc_run : (LogicFn.jcc.logic q).run vm =
    if P then (LogicFn.jmpRel.logic q).run vm else (.ok (), vm) := by
  change (jcc q).run vm = _
  rw [jcc, run_bind, run_flags, runBind_ok, h, run_ite]
  simp only [decide_eq_true_eq]
  rfl

theorem setcc8bit_run : (LogicFn.setcc8bit.logic q).run vm =
    storeResult vm (vm.setArg (q.args 0).location (.byte (if P then 1 else 0))) := by
  change (setcc8bit q : Op .straight Unit).run vm = _
  rw [setcc8bit, run_bind, run_flags, runBind_ok, h, run_ite]
  by_cases hP : P
  · simp only [decide_eq_true hP, if_pos hP]
    rfl
  · simp only [decide_eq_false hP, if_neg hP]
    rfl

theorem cmovccNative_run : (LogicFn.cmovccNative.logic q).run vm =
    if P then (LogicFn.mov.logic q).run vm else (.ok (), vm) := by
  change (cmovccNative q : Op .straight Unit).run vm = _
  rw [cmovccNative, run_bind, run_flags, runBind_ok, h, run_ite]
  simp only [decide_eq_true_eq]
  rfl

end Conditional

/-- The conditional instructions after a comparison decide what their code asks for. -/
theorem comparison_decides (p : Pipeline) (w : ElementWidth) (hw : p.HasWidth w) (vm : VM)
    (a b : BitVec w.operand.bits) (ha : vm.getArg (p.args 0).location = .ok (w.operand.sized a))
    (hb : vm.SourceReads w (p.args 1).location b) (c : Comparison) (q : Pipeline)
    (hc : 0x0F &&& q.opcode = c.code) :
    ∃ t, ((w.select .cmp8bit .cmpNativeWord).logic p).run vm = (.ok (), t) ∧
      (ccMatches q.opcode t.flags = true ↔ c.Holds a b) ∧
      (LogicFn.jcc.logic q).run t =
        (if c.Holds a b then (LogicFn.jmpRel.logic q).run t else (.ok (), t)) ∧
      (LogicFn.setcc8bit.logic q).run t =
        storeResult t (t.setArg (q.args 0).location (.byte (if c.Holds a b then 1 else 0))) ∧
      (LogicFn.cmovccNative.logic q).run t =
        (if c.Holds a b then (LogicFn.mov.logic q).run t else (.ok (), t)) := by
  have hcmp : ((w.select .cmp8bit .cmpNativeWord).logic p).run vm =
      (.ok (), { vm with flags := vm.flags.ofDifference a b }) := by
    rw [select_run (F := Operations.cmp) (fun _ ↦ rfl) (fun _ ↦ rfl) hw, cmp_run ha hb]
  have hmatch := ccMatches_ofDifference vm.flags a b c hc
  refine ⟨_, hcmp, ?_, ?_, ?_, ?_⟩
  · rw [hmatch, decide_eq_true_eq]
  · exact jcc_run hmatch
  · exact setcc8bit_run hmatch
  · exact cmovccNative_run hmatch

def compareMinusOne : Pipeline :=
  operandSlot false ![.registerValue eax .dword, .immediate (.byte 0xFF), .none]

def jumpIfLess : Pipeline :=
  { operandSlot false ![.immediate (.byte 4), .none, .none] with opcode := 0x7C, eipSize := 2 }

theorem comparison_decides_jumpIfLess : ∃ t,
    (LogicFn.cmpNativeWord.logic compareMinusOne).run (twoRegisters 0x80000000 0) = (.ok (), t) ∧
      (ccMatches jumpIfLess.opcode t.flags = true ↔
        Comparison.less.Holds (0x80000000 : BitVec 32) (-1)) ∧
      (LogicFn.jcc.logic jumpIfLess).run t =
        (if Comparison.less.Holds (0x80000000 : BitVec 32) (-1) then
          (LogicFn.jmpRel.logic jumpIfLess).run t else (.ok (), t)) ∧
      (LogicFn.setcc8bit.logic jumpIfLess).run t = storeResult t (t.setArg
        (jumpIfLess.args 0).location
        (.byte (if Comparison.less.Holds (0x80000000 : BitVec 32) (-1) then 1 else 0))) ∧
      (LogicFn.cmovccNative.logic jumpIfLess).run t =
        (if Comparison.less.Holds (0x80000000 : BitVec 32) (-1) then
          (LogicFn.mov.logic jumpIfLess).run t else (.ok (), t)) :=
  comparison_decides compareMinusOne .dword rfl (twoRegisters 0x80000000 0) 0x80000000
    (-1 : BitVec 32) rfl (.inr ⟨0xFF, rfl, rfl⟩) .less jumpIfLess rfl

end Qx86
