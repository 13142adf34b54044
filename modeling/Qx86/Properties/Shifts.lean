import Qx86.Execute.Image
import Qx86.Foundation.Shifts
import Qx86.Machine.Operands
import Qx86.Machine.Shifts
import Qx86.Properties.Arithmetic

namespace Qx86

open Foundation Shifts Op Operations Register

variable {κ : ShiftKind} {w : ElementWidth} {p : Pipeline} {vm : VM} {a v : BitVec w.operand.bits}
  {c : BitVec 8} {cf zf overflow : Bool} {o : Outcome VMError Unit × VM}

def shiftFunction (κ : ShiftKind) (w : ElementWidth) : LogicFn :=
  match κ with
  | .left => w.select .shl8bit .shlNativeWord
  | .right => w.select .shr8bit .shrNativeWord
  | .arithmetic => w.select .sar8bit .sarNativeWord

/-- A step that stores a word with the flags that it has, and with the bit that was moved out
last in the carry flag. -/
structure StoresShift (p : Pipeline) (s : BitVec w.operand.bits × Bool)
    (o : Outcome VMError Unit × VM) : Prop where
  ok : o.1 = .ok ()
  value : o.2.getArg (p.args 0).location = .ok (w.operand.sized s.1)
  carry : o.2.flags.carry = s.2
  zero : o.2.flags.zero = decide (s.1 = 0)
  sign : o.2.flags.sign = decide (s.1.toInt < 0)
  parity : o.2.flags.parity = X86Flags.evenParity s.1

/-- A step that does what that many shifts by one do: nothing at all for none, and a store where
the destination can be stored into. -/
structure ShiftsBy (κ : ShiftKind) (p : Pipeline) (vm : VM) (a : BitVec w.operand.bits)
    (count : ℕ) (o : Outcome VMError Unit × VM) : Prop where
  none : count = 0 → o = (.ok (), vm)
  some : count ≠ 0 → vm.Writeable w (p.args 0).location →
    StoresShift p (κ.shiftOne^[count] (a, vm.flags.carry)) o
  overflow : count = 1 → vm.Writeable w (p.args 0).location →
    o.2.flags.overflow = κ.oneOverflow a

/-- The operands and counts for which the right word, carry and zero flag are stored. -/
def CountRight : ShiftKind → (w : ElementWidth) → BitVec w.operand.bits → ℕ → Prop
  | .left, .byte, a, c => c % 32 < 16 ∨ 2 ^ 9 ∣ a.toNat * 2 ^ (c % 16)
  | .left, .word, a, c =>
    (a.toNat * 2 ^ (c % 32)).testBit 12 = (a.toNat * 2 ^ (c % 32)).testBit 16 ∧
      (2 ^ 16 ∣ a.toNat * 2 ^ (c % 32) → 2 ^ 32 ∣ a.toNat * 2 ^ (c % 32))
  | .left, .dword, a, c => c % 64 < 32 ∨ 2 ^ 33 ∣ a.toNat * 2 ^ (c % 32)
  | .right, .byte, a, c => c % 32 < 8 ∨ a.toNat < 2 ^ (c % 8 - 1)
  | .right, .word, _, _ => True
  | .right, .dword, a, c => c % 64 < 32 ∨ a.toNat < 2 ^ (c % 32)
  | .arithmetic, .byte, a, c =>
    c % 32 < 8 ∨ (-2 ^ (c % 8 - 1) ≤ a.toInt ∧ a.toInt < 2 ^ (c % 8 - 1))
  | .arithmetic, .word, a, c =>
    c % 32 < 16 ∨ (-2 ^ (c % 16 - 1) ≤ a.toInt ∧ a.toInt < 2 ^ (c % 16 - 1))
  | .arithmetic, .dword, _, _ => True

/-- The carry flag that is set for a count of zero. -/
def idleCarry : ShiftKind → (w : ElementWidth) → BitVec w.operand.bits → Bool
  | .left, .word, a => a.getLsbD 12
  | .right, .byte, a | .right, .dword, a => a.msb
  | _, _, _ => false

/-- The states that a shift by a multiple of 32 leaves as they are. All but SAR store what they
read, with the flags of it. -/
def IdleRight (κ : ShiftKind) (w : ElementWidth) (p : Pipeline) (vm : VM)
    (a : BitVec w.operand.bits) (c : ℕ) : Prop :=
  κ = .arithmetic ∨ (vm.Writeable w (p.args 0).location ∧
    vm.flags = { vm.flags.ofResult a with carry := idleCarry κ w a } ∧
      (w = .dword → c % 64 = 0 ∨ a = 0))

section Outcome

variable {j : ℕ}

theorem stored_shifts (hl : (p.args 0).location.size = w.operand.size)
    (hwrite : vm.Writeable w (p.args 0).location) :
    ShiftsBy κ p vm a (j + 1) (shiftedTo p vm c v cf zf overflow) ↔
      κ.AfterShifts a j v cf zf ∧
        (j = 0 → (if c = 1 then overflow else vm.flags.overflow) = κ.oneOverflow a) := by
  obtain ⟨t, ht⟩ := hwrite.store hl v
  have hvalue := VM.getArg_setArg hl ht
  have hstep := stored_ok (f := { vm.flags.ofResult v with
      carry := cf
      zero := zf
      overflow := if c = 1 then overflow else vm.flags.overflow }) ht
  rw [shiftedTo, hstep]
  constructor
  · intro h
    have hsome := h.some (by omega) hwrite
    rw [ShiftKind.shiftOne_iterate] at hsome
    have hv := hsome.value
    rw [VM.getArg_flags, hvalue] at hv
    refine ⟨⟨ElementWidth.sized_injective (Except.ok.inj hv), hsome.carry, hsome.zero⟩, ?_⟩
    intro hj
    exact h.overflow (by omega) hwrite
  · rintro ⟨⟨hv, hcf, hzf⟩, hoverflow⟩
    refine ⟨fun hzero ↦ absurd hzero (Nat.succ_ne_zero j), ?_, ?_⟩
    · intro _ _
      rw [ShiftKind.shiftOne_iterate, ← hv]
      refine ⟨rfl, ?_, hcf, hzf.trans ?_, rfl, rfl⟩
      · rw [VM.getArg_flags, hvalue]
      · rw [hv]
    · intro hj _
      exact hoverflow (by omega)

theorem stored_idle (ha : vm.getArg (p.args 0).location = .ok (w.operand.sized a)) (hc : c ≠ 1) :
    shiftedTo p vm c v cf zf overflow = (.ok (), vm) ↔
      vm.Writeable w (p.args 0).location ∧
        v = a ∧ vm.flags = { vm.flags.ofResult v with carry := cf, zero := zf } := by
  have hl := size_of_getArg ha
  rw [shiftedTo, if_neg hc]
  constructor
  · intro h
    obtain ⟨x, -, hx⟩ | ⟨t, ht, hstep⟩ := stored_cases vm _ (p.args 0).location
      (w.operand.sized v)
    · cases hx.symm.trans h
    rw [hstep] at h
    have hflags := congrArg (·.2.flags) h
    have hget := congrArg (·.2.getArg (p.args 0).location) h
    refine ⟨VM.setArg_writeable hl (.refl _) rfl ht, ?_, hflags.symm⟩
    rw [VM.getArg_flags, VM.getArg_setArg hl ht, ha] at hget
    exact ElementWidth.sized_injective (Except.ok.inj hget)
  · rintro ⟨hwrite, rfl, hflags⟩
    obtain ⟨t, ht⟩ := hwrite
    rw [stored_ok (VM.setArg_self hl ha ht)]
    exact congrArg (fun f ↦ (Outcome.ok (), { vm with flags := f })) hflags.symm

end Outcome

section Values

/-- A word, a carry, a zero and an overflow flag that are right where the count is. -/
structure ShiftValues (κ : ShiftKind) (w : ElementWidth) (a : BitVec w.operand.bits) (c : BitVec 8)
    (v : BitVec w.operand.bits) (cf zf overflow : Bool) : Prop where
  right : ∀ j, c.toNat % 32 = j + 1 → (κ.AfterShifts a j v cf zf ↔ CountRight κ w a c.toNat)
  overflow : c = 1 → overflow = κ.oneOverflow a

/-- A word, a carry and a zero flag that a count of zero leads to. -/
structure IdleValues (κ : ShiftKind) (w : ElementWidth) (a : BitVec w.operand.bits) (c : BitVec 8)
    (v : BitVec w.operand.bits) (cf zf : Bool) : Prop where
  word : v = a ↔ (w = .dword → c.toNat % 64 = 0 ∨ a = 0)
  carry : v = a → cf = idleCarry κ w a
  zero : v = a → zf = decide (a = 0)

theorem left_right {j : ℕ} (hj : c.toNat % 32 = j + 1) :
    ShiftKind.left.AfterShifts a j (a <<< (c.toNat % (2 * w.operand.bits)))
      ((wideShift w a c).getLsbD (carryBit w)) (leftZero w a c) ↔
      CountRight .left w a c.toNat := by
  cases w with
  | byte =>
    by_cases hlt : c.toNat % 32 < 16
    · have hcount : c.toNat % 16 = j + 1 := by omega
      have hafter := left_after (n := 8) a (j := j) (by decide)
      rw [← hcount] at hafter
      exact iff_of_true hafter (.inl hlt)
    · have hiff := left_after_iff_of_lt (n := 8) a (c.toNat % 16) (j := j) (by decide) (by omega)
      exact hiff.trans (or_iff_right hlt).symm
  | word =>
    have hiff := left_after_iff_of_wide (n := 16) (m := 12) a (j := j) (by decide) (by decide)
    rw [← hj] at hiff
    exact hiff
  | dword =>
    by_cases hlt : c.toNat % 64 < 32
    · have hcount : c.toNat % 64 = j + 1 := by omega
      have hafter := left_after (n := 32) a (j := j) (by decide)
      rw [← hcount] at hafter
      exact iff_of_true hafter (.inl hlt)
    · have hiff := left_after_iff_of_gt (n := 32) a (c.toNat % 64) (j := j) (by decide) (by omega)
      rw [← hj] at hiff
      exact hiff.trans (or_iff_right hlt).symm

theorem right_right {j : ℕ} (hj : c.toNat % 32 = j + 1) :
    ShiftKind.right.AfterShifts a j (a >>> (c.toNat % rightModulus w)) (a.getLsbD (carryIndex w c))
      (a >>> (c.toNat % rightModulus w) == 0) ↔ CountRight .right w a c.toNat := by
  cases w with
  | byte =>
    have hindex : (c.toNat + 7) % 8 = j % 8 := by omega
    have hcount : c.toNat % 8 = (j + 1) % 8 := by omega
    change ShiftKind.right.AfterShifts a j (a >>> (c.toNat % 8)) (a.getLsbD ((c.toNat + 7) % 8))
      (a >>> (c.toNat % 8) == 0) ↔ c.toNat % 32 < 8 ∨ a.toNat < 2 ^ (c.toNat % 8 - 1)
    rw [hindex, hcount, hj]
    exact right_after_iff (n := 8) a (by decide)
  | word =>
    have hindex : (c.toNat + 31) % 32 = j := by omega
    change ShiftKind.right.AfterShifts a j (a >>> (c.toNat % 32)) (a.getLsbD ((c.toNat + 31) % 32))
      (a >>> (c.toNat % 32) == 0) ↔ True
    rw [hindex, hj]
    exact iff_of_true (right_after (n := 16) a) trivial
  | dword =>
    have hindex : (c.toNat + 31) % 32 = j := by omega
    change ShiftKind.right.AfterShifts a j (a >>> (c.toNat % 64)) (a.getLsbD ((c.toNat + 31) % 32))
      (a >>> (c.toNat % 64) == 0) ↔ c.toNat % 64 < 32 ∨ a.toNat < 2 ^ (c.toNat % 32)
    rw [hindex, hj]
    by_cases hlt : c.toNat % 64 < 32
    · have hcount : c.toNat % 64 = j + 1 := by omega
      rw [hcount]
      exact iff_of_true (right_after (n := 32) a) (.inl (by omega))
    · have hiff := right_after_iff_of_gt (n := 32) a (c.toNat % 64) (j := j) (by omega)
      exact hiff.trans (or_iff_right hlt).symm

theorem arithmetic_right {j : ℕ} (hj : c.toNat % 32 = j + 1) :
    ShiftKind.arithmetic.AfterShifts a j (a.sshiftRight (c.toNat % 32 % w.operand.bits))
      (a.getLsbD ((c.toNat % 32 - 1) % w.operand.bits))
      (a.sshiftRight (c.toNat % 32 % w.operand.bits) == 0) ↔
      CountRight .arithmetic w a c.toNat := by
  have hpred : c.toNat % 32 - 1 = j := by omega
  rw [hpred, hj]
  cases w with
  | byte =>
    have hcount : c.toNat % 8 = (j + 1) % 8 := by omega
    change _ ↔ c.toNat % 32 < 8 ∨
      (-2 ^ (c.toNat % 8 - 1) ≤ a.toInt ∧ a.toInt < 2 ^ (c.toNat % 8 - 1))
    rw [hcount, hj]
    exact arithmetic_after_iff (n := 8) a (by decide)
  | word =>
    have hcount : c.toNat % 16 = (j + 1) % 16 := by omega
    change _ ↔ c.toNat % 32 < 16 ∨
      (-2 ^ (c.toNat % 16 - 1) ≤ a.toInt ∧ a.toInt < 2 ^ (c.toNat % 16 - 1))
    rw [hcount, hj]
    exact arithmetic_after_iff (n := 16) a (by decide)
  | dword =>
    have hiff := arithmetic_after_iff (n := 32) a (j := j) (by decide)
    exact iff_of_true (hiff.mpr (.inl (by omega))) trivial

theorem idle_nothing {a v : BitVec 32} (hz : c.toNat % 64 ≠ 0) (hv : v = 0)
    (hcarry : v = a → cf = idleCarry κ .dword a) :
    IdleValues κ .dword a c v cf (decide (v = 0)) := by
  refine ⟨?_, hcarry, ?_⟩
  · rw [hv]
    constructor
    · intro h _
      exact .inr h.symm
    · intro h
      exact ((h rfl).resolve_left hz).symm
  · intro h
    exact decide_eq_decide.mpr (iff_of_eq (congrArg (· = 0) h))

theorem left_idle (hc : c.toNat % 32 = 0) :
    IdleValues .left w a c (a <<< (c.toNat % (2 * w.operand.bits)))
      ((wideShift w a c).getLsbD (carryBit w)) (leftZero w a c) := by
  have hwide : ∀ i, i < 2 * w.operand.bits → c.toNat % (2 * w.operand.bits) = 0 →
      (wideShift w a c).getLsbD i = a.getLsbD i := by
    intro i hi hz
    have hbit := wide_getLsbD a (c.toNat % (2 * w.operand.bits)) hi
    rw [hz, pow_zero, mul_one, ← hz] at hbit
    exact hbit
  cases w with
  | byte =>
    have hz : c.toNat % 16 = 0 := by omega
    have hbit := hwide 8 (by decide) hz
    change IdleValues .left .byte a c (a <<< (c.toNat % 16)) ((wideShift .byte a c).getLsbD 8)
      (a <<< (c.toNat % 16) == 0)
    rw [hbit, hz, BitVec.shiftLeft_zero, beq_eq_decide]
    exact ⟨iff_of_true rfl nofun, fun _ ↦ BitVec.getLsbD_of_ge a 8 le_rfl, fun _ ↦ rfl⟩
  | word =>
    have hbit := hwide 12 (by decide) hc
    have hzero : wideShift .word a c = 0 ↔ a = 0 := by
      have hshift : wideShift .word a c = a.setWidth 32 :=
        (congrArg (a.setWidth 32 <<< ·) hc).trans (BitVec.shiftLeft_zero _)
      rw [hshift]
      exact X86Flags.setWidth_eq_zero .word a
    change IdleValues .left .word a c (a <<< (c.toNat % 32)) ((wideShift .word a c).getLsbD 12)
      (wideShift .word a c == 0)
    rw [hbit, hc, BitVec.shiftLeft_zero, beq_eq_decide]
    exact ⟨iff_of_true rfl nofun, fun _ ↦ rfl, fun _ ↦ decide_eq_decide.mpr hzero⟩
  | dword =>
    change IdleValues .left .dword a c (a <<< (c.toNat % 64)) ((wideShift .dword a c).getLsbD 32)
      (a <<< (c.toNat % 64) == 0)
    rw [beq_eq_decide]
    by_cases hz : c.toNat % 64 = 0
    · have hbit := hwide 32 (by decide) hz
      rw [hbit, hz, BitVec.shiftLeft_zero]
      exact ⟨iff_of_true rfl fun _ ↦ .inl hz, fun _ ↦ BitVec.getLsbD_of_ge a 32 le_rfl,
        fun _ ↦ rfl⟩
    · have hcount : c.toNat % 64 = 32 := by omega
      have hnothing : a <<< (c.toNat % 64) = 0 := by
        rw [hcount]
        exact (left_eq_zero_iff (n := 32) a 32).mpr (dvd_mul_left _ _)
      apply idle_nothing hz hnothing
      intro h
      have ha : a = 0 := h.symm.trans hnothing
      have hbit := wide_getLsbD (n := 32) a (c.toNat % 64) (i := 32) (by decide)
      refine hbit.trans ?_
      rw [ha]
      exact (congrArg (Nat.testBit · 32) (Nat.zero_mul _)).trans (Nat.zero_testBit 32)

theorem right_idle (hc : c.toNat % 32 = 0) :
    IdleValues .right w a c (a >>> (c.toNat % rightModulus w)) (a.getLsbD (carryIndex w c))
      (a >>> (c.toNat % rightModulus w) == 0) := by
  cases w with
  | byte =>
    have hz : c.toNat % 8 = 0 := by omega
    have hindex : (c.toNat + 7) % 8 = 7 := by omega
    change IdleValues .right .byte a c (a >>> (c.toNat % 8)) (a.getLsbD ((c.toNat + 7) % 8))
      (a >>> (c.toNat % 8) == 0)
    rw [hz, hindex, BitVec.ushiftRight_zero, beq_eq_decide]
    exact ⟨iff_of_true rfl nofun, fun _ ↦ (BitVec.msb_eq_getLsbD_last a).symm, fun _ ↦ rfl⟩
  | word =>
    have hindex : (c.toNat + 31) % 32 = 31 := by omega
    change IdleValues .right .word a c (a >>> (c.toNat % 32)) (a.getLsbD ((c.toNat + 31) % 32))
      (a >>> (c.toNat % 32) == 0)
    rw [hc, hindex, BitVec.ushiftRight_zero, beq_eq_decide]
    exact ⟨iff_of_true rfl nofun, fun _ ↦ BitVec.getLsbD_of_ge a 31 (by decide), fun _ ↦ rfl⟩
  | dword =>
    have hindex : (c.toNat + 31) % 32 = 31 := by omega
    change IdleValues .right .dword a c (a >>> (c.toNat % 64)) (a.getLsbD ((c.toNat + 31) % 32))
      (a >>> (c.toNat % 64) == 0)
    rw [hindex, beq_eq_decide]
    have hmsb := (BitVec.msb_eq_getLsbD_last a).symm
    by_cases hz : c.toNat % 64 = 0
    · rw [hz, BitVec.ushiftRight_zero]
      exact ⟨iff_of_true rfl fun _ ↦ .inl hz, fun _ ↦ hmsb, fun _ ↦ rfl⟩
    · have hnothing : a >>> (c.toNat % 64) = 0 := by
        have hlt : a.toNat < 2 ^ 32 := a.isLt
        have hcount : c.toNat % 64 = 32 := by omega
        rw [hcount]
        exact (right_eq_zero_iff (n := 32) a 32).mpr hlt
      exact idle_nothing hz hnothing fun _ ↦ hmsb

end Values

section Exact

def byBl (sizeOverride : Bool) : Pipeline :=
  operandSlot sizeOverride
    ![.registerValue eax (nativeSize sizeOverride), .registerValue ebx .byte, .none]

theorem count_shifts {j : ℕ} (hl : (p.args 0).location.size = w.operand.size)
    (hvalues : ShiftValues κ w a c v cf zf overflow) (hj : c.toNat % 32 = j + 1) :
    ShiftsBy κ p vm a (j + 1) (shiftedTo p vm c v cf zf overflow) ↔
      (vm.Writeable w (p.args 0).location → CountRight κ w a c.toNat ∧
        (j + 1 = 1 → c = 1 ∨ vm.flags.overflow = κ.oneOverflow a)) := by
  by_cases hwrite : vm.Writeable w (p.args 0).location
  · have hoverflow : (if c = 1 then overflow else vm.flags.overflow) = κ.oneOverflow a ↔
        c = 1 ∨ vm.flags.overflow = κ.oneOverflow a := by
      by_cases hone : c = 1
      · rw [if_pos hone]
        exact iff_of_true (hvalues.overflow hone) (.inl hone)
      · rw [if_neg hone]
        exact (or_iff_right hone).symm
    have hzero : j = 0 ↔ j + 1 = 1 := by omega
    rw [stored_shifts hl hwrite, hvalues.right j hj, hoverflow, hzero]
    exact (imp_iff_right hwrite).symm
  · exact iff_of_true ⟨fun hzero ↦ absurd hzero (Nat.succ_ne_zero j),
      fun _ h ↦ absurd h hwrite, fun _ h ↦ absurd h hwrite⟩ fun h ↦ absurd h hwrite

theorem idle_shifts (ha : vm.getArg (p.args 0).location = .ok (w.operand.sized a))
    (hidle : IdleValues κ w a c v cf zf) (hκ : κ ≠ .arithmetic) (hc : c.toNat % 32 = 0) :
    ShiftsBy κ p vm a 0 (shiftedTo p vm c v cf zf overflow) ↔ IdleRight κ w p vm a c.toNat := by
  have hone : c ≠ 1 := by
    rintro rfl
    cases hc
  have hfields : ShiftsBy κ p vm a 0 (shiftedTo p vm c v cf zf overflow) ↔
      shiftedTo p vm c v cf zf overflow = (.ok (), vm) := by
    constructor
    · intro h
      exact h.none rfl
    · intro h
      exact ⟨fun _ ↦ h, fun hne ↦ absurd rfl hne, nofun⟩
  rw [hfields, stored_idle ha hone, IdleRight, or_iff_right hκ, ← hidle.word]
  apply and_congr_right'
  constructor
  · rintro ⟨hv, hflags⟩
    refine ⟨?_, hv⟩
    rw [hidle.carry hv, hidle.zero hv, hv] at hflags
    exact hflags
  · rintro ⟨hflags, hv⟩
    refine ⟨hv, ?_⟩
    rw [hidle.carry hv, hidle.zero hv, hv]
    exact hflags

theorem shifted_exact (ha : vm.getArg (p.args 0).location = .ok (w.operand.sized a))
    (hvalues : ShiftValues κ w a c v cf zf overflow) (hκ : κ ≠ .arithmetic)
    (hidle : c.toNat % 32 = 0 → IdleValues κ w a c v cf zf) :
    ShiftsBy κ p vm a (c.toNat % 32) (shiftedTo p vm c v cf zf overflow) ↔
      if c.toNat % 32 = 0 then IdleRight κ w p vm a c.toNat
      else vm.Writeable w (p.args 0).location → CountRight κ w a c.toNat ∧
        (c.toNat % 32 = 1 → c = 1 ∨ vm.flags.overflow = κ.oneOverflow a) := by
  cases hk : c.toNat % 32 with
  | zero =>
    rw [if_pos rfl]
    exact idle_shifts ha (hidle hk) hκ hk
  | succ j =>
    rw [if_neg (by omega)]
    exact count_shifts (size_of_getArg ha) hvalues hk

/-- When the code shifts as often as the count says. -/
theorem shift_exact_iff (κ : ShiftKind) (p : Pipeline) (w : ElementWidth) (hw : p.HasWidth w)
    (vm : VM) (a : BitVec w.operand.bits) (c : BitVec 8)
    (ha : vm.getArg (p.args 0).location = .ok (w.operand.sized a))
    (hc : vm.getArg (p.args 1).location = .ok (.byte c)) :
    ShiftsBy κ p vm a (c.toNat % 32) (((shiftFunction κ w).logic p).run vm) ↔
      if c.toNat % 32 = 0 then IdleRight κ w p vm a c.toNat
      else vm.Writeable w (p.args 0).location → CountRight κ w a c.toNat ∧
        (c.toNat % 32 = 1 → c = 1 ∨ vm.flags.overflow = κ.oneOverflow a) := by
  cases κ with
  | left =>
    have hrun : ((shiftFunction .left w).logic p).run vm = _ := shl_run hw ha hc
    rw [hrun]
    refine shifted_exact ha ⟨fun j ↦ left_right, ?_⟩ nofun left_idle
    rintro rfl
    cases w <;> rfl
  | right =>
    have hrun : ((shiftFunction .right w).logic p).run vm = _ := shr_run hw ha hc
    rw [hrun]
    refine shifted_exact ha ⟨fun j ↦ right_right, ?_⟩ nofun right_idle
    rintro rfl
    have hmsb : (a >>> (1 % rightModulus w)).msb = false := by
      have hone : 1 % rightModulus w = 1 := by cases w <;> rfl
      rw [hone, BitVec.msb_ushiftRight]
      rfl
    change (a.msb != (a >>> (1 % rightModulus w)).msb) = a.msb
    rw [hmsb, Bool.bne_false]
  | arithmetic =>
    have hrun : ((shiftFunction .arithmetic w).logic p).run vm = _ := sar_run hw ha hc
    have hvalues : ShiftValues .arithmetic w a c (a.sshiftRight (c.toNat % 32 % w.operand.bits))
        (a.getLsbD ((c.toNat % 32 - 1) % w.operand.bits))
        (a.sshiftRight (c.toNat % 32 % w.operand.bits) == 0) false :=
      ⟨fun j ↦ arithmetic_right, fun _ ↦ rfl⟩
    rw [hrun]
    by_cases hk : c.toNat % 32 = 0
    · rw [if_pos hk, if_pos hk, hk]
      exact iff_of_true ⟨fun _ ↦ rfl, fun hne ↦ absurd rfl hne, nofun⟩ (.inl rfl)
    · obtain ⟨j, hj⟩ := Nat.exists_eq_succ_of_ne_zero hk
      have hcount : ShiftsBy .arithmetic p vm a (j + 1) _ ↔ _ :=
        count_shifts (size_of_getArg ha) hvalues hj
      rw [if_neg hk, if_neg hk]
      rw [← Nat.succ_eq_add_one, ← hj] at hcount
      exact hcount

theorem shift_exact_iff_byBl :
    ShiftsBy (w := .dword) .left (byBl false) (twoRegisters 3 4) 3 4
      ((LogicFn.shlNativeWord.logic (byBl false)).run (twoRegisters 3 4)) := by
  refine (shift_exact_iff .left (byBl false) .dword rfl (twoRegisters 3 4) (3 : BitVec 32) 4 rfl
    rfl).mpr fun _ ↦ ?_
  exact ⟨.inl (by decide), nofun⟩

/-- Shifting AX left by 4 moves bit 12 out last, but the carry flag is taken from bit 8. -/
theorem shl_carry : ¬∀ (κ : ShiftKind) (p : Pipeline) (w : ElementWidth) (vm : VM)
    (a : BitVec w.operand.bits) (c : BitVec 8), p.HasWidth w →
      vm.getArg (p.args 0).location = .ok (w.operand.sized a) →
        vm.getArg (p.args 1).location = .ok (.byte c) →
          ShiftsBy κ p vm a (c.toNat % 32) (((shiftFunction κ w).logic p).run vm) := by
  intro h
  have hshift := h .left (byBl true) .word (twoRegisters 0x1000 4) (0x1000 : BitVec 16) 4 rfl rfl
    rfl
  have hcarry := (hshift.some (by decide) ⟨_, rfl⟩).carry
  have hlast : ShiftKind.left.shiftOne^[4] ((0x1000 : BitVec 16), false) = (0, true) := by decide
  cases hcarry.trans (congrArg Prod.snd hlast)

end Exact

end Qx86
