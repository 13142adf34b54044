import Mathlib.Tactic.Positivity
import Qx86.Properties.Arithmetic

namespace Qx86

open Foundation Words Op Operations Register

variable {e : Effects} {w : ElementWidth} {p q : Pipeline} {vm u : VM}
  {a : BitVec w.operand.bits}

def negFunction (w : ElementWidth) : LogicFn := w.select .neg8bit .negNativeWord

def subFunction (w : ElementWidth) : LogicFn := w.select .sub8bit .subNativeWord

def X86Flags.ofNegation {n : ℕ} (f : X86Flags) (a : BitVec n) : X86Flags :=
  { f with
    carry := a != 0
    zero := decide (0 - a = 0)
    overflow := a.negOverflow }

/-- Flags that NEG leaves alone, and that are those of the negation already. -/
structure NegationFlags {n : ℕ} (f : X86Flags) (a : BitVec n) : Prop where
  sign : f.sign = decide (0 < a.toInt ∨ a = .intMin n)
  parity : f.parity = X86Flags.evenParity (a - 1)
  adjust : f.adjust = decide (0 < a.toNat % 16)

section Words

variable {n : ℕ}

theorem negOverflow_eq (a : BitVec n) :
    a.negOverflow = decide ((0 - a).toInt ≠ (0 : BitVec n).toInt - a.toInt) := by
  have hzero : (0 : BitVec n).toInt = 0 := BitVec.toInt_zero
  have hlo := BitVec.le_toInt a
  have hhi := BitVec.toInt_lt (x := a)
  rw [← ssubOverflow_eq, BitVec.negOverflow, BitVec.ssubOverflow, hzero, Bool.eq_iff_iff]
  simp only [beq_iff_eq, Bool.or_eq_true, decide_eq_true_eq]
  omega

theorem zero_sub_neg_iff (hn : 0 < n) (a : BitVec n) :
    (0 - a).toInt < 0 ↔ 0 < a.toInt ∨ a = .intMin n := by
  have hpow : (0 : ℤ) < 2 ^ (n - 1) := by positivity
  by_cases h : a = .intMin n
  · have hsub : 0 - a = .intMin n := by
      rw [h]
      exact (BitVec.zero_sub _).trans BitVec.neg_intMin
    rw [hsub, BitVec.toInt_intMin_of_pos hn]
    exact iff_of_true (by omega) (.inr h)
  · have hsub : (0 - a).toInt = -a.toInt :=
      (congrArg BitVec.toInt (BitVec.zero_sub a)).trans (BitVec.toInt_neg_of_ne_intMin h)
    rw [hsub, or_iff_left h]
    omega

theorem evenParity_not (hn : 8 ≤ n) (a : BitVec n) :
    X86Flags.evenParity (~~~a) = X86Flags.evenParity a := by
  have hbits : ∀ i ∈ List.range 8, (~~~a).getLsbD i = true ↔ ¬a.getLsbD i = true := by
    intro i hi
    have hmem := List.mem_range.mp hi
    have hlt : i < n := by omega
    simp [hlt]
  have hlength := List.length_eq_countP_add_countP a.getLsbD (l := List.range 8)
  rw [List.length_range] at hlength
  refine decide_eq_decide.mpr ?_
  rw [Nat.even_iff, Nat.even_iff, List.countP_congr (q := fun i ↦ decide ¬a.getLsbD i = true)
    fun i hi ↦ (hbits i hi).trans decide_eq_true_iff.symm]
  omega

theorem evenParity_zero_sub (hn : 8 ≤ n) (a : BitVec n) :
    X86Flags.evenParity (0 - a) = X86Flags.evenParity (a - 1) := by
  have hnot : 0 - a = ~~~(a - 1) := by
    refine Eq.trans ?_ (BitVec.not_eq_neg_add (a - 1)).symm
    rw [neg_sub, zero_sub]
    exact (sub_sub_cancel_left 1 a).symm
  rw [hnot, evenParity_not hn]

end Words

theorem ofNegation_iff (w : ElementWidth) (f : X86Flags) (a : BitVec w.operand.bits) :
    f.ofNegation a = f.ofDifference 0 a ↔ NegationFlags f a := by
  have hbits : 8 ≤ w.operand.bits := by cases w <;> decide
  have hcarry : (a != 0) = decide ((0 : BitVec w.operand.bits).toNat < a.toNat) := by
    rw [Bool.eq_iff_iff, bne_iff_ne, decide_eq_true_iff, ne_eq, eq_zero_iff_toNat]
    exact Nat.pos_iff_ne_zero.symm
  have hsign : decide ((0 - a).toInt < 0) = decide (0 < a.toInt ∨ a = .intMin _) :=
    decide_eq_decide.mpr (zero_sub_neg_iff (by omega) a)
  have hparity := evenParity_zero_sub hbits a
  constructor
  · intro h
    refine ⟨?_, ?_, ?_⟩
    · exact (congrArg X86Flags.sign h).trans hsign
    · exact (congrArg X86Flags.parity h).trans hparity
    · exact congrArg X86Flags.adjust h
  · rintro ⟨hs, hp, ha⟩
    rw [← hsign] at hs
    rw [← hparity] at hp
    rw [X86Flags.ofNegation, hcarry, negOverflow_eq, X86Flags.ofDifference, X86Flags.ofResult,
      ← hs, ← hp]
    exact congrArg (fun b ↦ X86Flags.mk _ _ b _ _ _ _ _ _) ha

theorem negate_run (ha : vm.getArg (p.args 0).location = .ok (w.operand.sized a)) :
    (negate w.operand p : Op e Unit).run vm =
      vm.stored (vm.flags.ofNegation a) (p.args 0).location (w.operand.sized (0 - a)) := by
  have hsub : -a = 0 - a := (zero_sub a).symm
  have hzero : ((0 - a).signExtend 32 == 0) = decide (0 - a = 0) := by
    rw [beq_eq_decide]
    exact decide_eq_decide.mpr (signExtend_eq_zero (0 - a))
  simp only [negate, run_bind, run_getArgAs, exact_destination ha, Outcome.ofExcept_ok,
    runBind_ok, run_modifyFlags, run_setArg, X86Flags.calculateZero, hsub, hzero]
  rfl

/-- When NEG is a subtraction from zero, with the flags of a SUB of the same operand. -/
theorem neg_exact_iff (p : Pipeline) (w : ElementWidth) (hp : p.HasWidth w) (vm : VM)
    (a : BitVec w.operand.bits) (ha : vm.getArg (p.args 0).location = .ok (w.operand.sized a))
    (q : Pipeline) (hq : q.HasWidth w) (u : VM) (hu : u.flags = vm.flags)
    (hzero : u.getArg (q.args 0).location = .ok (w.operand.sized 0))
    (hsub : u.SourceReads w (q.args 1).location a) :
    Writes p w vm (0 - a) (((subFunction w).logic q).run u).2.flags
        (((negFunction w).logic p).run vm) ↔
      NegationFlags vm.flags a := by
  have hl := size_of_getArg ha
  rw [negFunction, subFunction, select_run (F := negate) (fun _ ↦ rfl) (fun _ ↦ rfl) hp,
    select_run (F := sub) (fun _ ↦ rfl) (fun _ ↦ rfl) hq, negate_run ha, sub_run hzero hsub,
    stored_flags, hu, ← ofNegation_iff]
  constructor
  · intro h
    rw [← h.flags, stored_flags]
  · intro h
    rw [← h]
    exact stored_writes hl _

def negateEax : Pipeline := operandSlot false ![.registerValue eax .dword, .none, .none]

def subtractEax : Pipeline :=
  operandSlot false ![.registerValue ebx .dword, .registerValue eax .dword, .none]

theorem neg_exact_iff_negateEax :
    Writes negateEax .dword (twoRegisters (-16) 0) (0 - -16 : BitVec 32)
      ((LogicFn.subNativeWord.logic subtractEax).run (twoRegisters (-16) 0)).2.flags
      ((LogicFn.negNativeWord.logic negateEax).run (twoRegisters (-16) 0)) := by
  refine (neg_exact_iff negateEax .dword rfl (twoRegisters (-16) 0) (-16 : BitVec 32) rfl
    subtractEax rfl (twoRegisters (-16) 0) rfl rfl (.inl rfl)).mpr ⟨?_, ?_, ?_⟩
  · decide
  · decide
  · decide

/-- The negation of 1 is negative, but the sign flag stays clear. -/
theorem neg_sign : ¬∀ (p : Pipeline) (w : ElementWidth) (vm : VM) (a : BitVec w.operand.bits)
    (q : Pipeline) (u : VM), p.HasWidth w → q.HasWidth w → u.flags = vm.flags →
      vm.getArg (p.args 0).location = .ok (w.operand.sized a) →
        u.getArg (q.args 0).location = .ok (w.operand.sized 0) →
          u.SourceReads w (q.args 1).location a →
            Writes p w vm (0 - a) (((subFunction w).logic q).run u).2.flags
              (((negFunction w).logic p).run vm) := by
  intro h
  have hwrites := h negateEax .dword (twoRegisters 1 0) (1 : BitVec 32) subtractEax
    (twoRegisters 1 0) rfl rfl rfl rfl rfl (.inl rfl)
  have hneg : (((negFunction .dword).logic negateEax).run (twoRegisters 1 0)).2.flags.sign =
      false := rfl
  have hsub : (((subFunction .dword).logic subtractEax).run (twoRegisters 1 0)).2.flags.sign =
      true := rfl
  rw [hwrites.flags, hsub] at hneg
  cases hneg

end Qx86
