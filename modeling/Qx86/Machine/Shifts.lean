import Qx86.Machine.Bits

namespace Qx86

open Foundation Words BitManipulation Op Operations

variable {e : Effects} {w : ElementWidth} {p : Pipeline} {vm : VM} {a : BitVec w.operand.bits}
  {c : BitVec 8}

def shiftedTo (p : Pipeline) (vm : VM) (c : BitVec 8) (v : BitVec w.operand.bits)
    (carry zero overflow : Bool) : Outcome VMError Unit × VM :=
  vm.stored { vm.flags.ofResult v with
      carry := carry
      zero := zero
      overflow := if c = 1 then overflow else vm.flags.overflow }
    (p.args 0).location (w.operand.sized v)

theorem shiftedTo_congr {v v' : BitVec w.operand.bits} {cf cf' zf zf' overflow overflow' : Bool}
    (hv : v = v') (hcf : cf = cf') (hzf : zf = zf') (hoverflow : overflow = overflow') :
    shiftedTo p vm c v cf zf overflow = shiftedTo p vm c v' cf' zf' overflow' := by
  rw [hv, hcf, hzf, hoverflow]

section Bits

variable {n : ℕ}

theorem and_twoPow_bne (x y : BitVec n) {i : ℕ} (hi : i < n) :
    (x &&& BitVec.twoPow n i != y &&& BitVec.twoPow n i) = (x.getLsbD i != y.getLsbD i) := by
  have hne : BitVec.twoPow n i ≠ 0 := by
    intro h
    have hbit := congrArg (BitVec.getLsbD · i) h
    simp [hi] at hbit
  rw [BitVec.and_twoPow, BitVec.and_twoPow]
  cases x.getLsbD i with
  | true =>
    cases y.getLsbD i with
    | true => simp
    | false => simpa using hne
  | false =>
    cases y.getLsbD i with
    | true => simpa using hne.symm
    | false => simp

theorem evenParity_setWidth {m : ℕ} (hn : 8 ≤ n) (x : BitVec m) :
    X86Flags.evenParity (x.setWidth n) = X86Flags.evenParity x := by
  have hbits : ∀ i ∈ List.range 8, (x.setWidth n).getLsbD i = true ↔ x.getLsbD i = true := by
    intro i hi
    have hlt : i < n := by
      have hmem := List.mem_range.mp hi
      omega
    rw [BitVec.getLsbD_setWidth, decide_eq_true hlt, Bool.true_and]
  rw [X86Flags.evenParity, X86Flags.evenParity, List.countP_congr hbits]

theorem setWidth_beq_zero (w : ElementWidth) (v : BitVec w.operand.bits) :
    (v.setWidth 32 == 0) = (v == 0) := by
  rw [beq_eq_decide, beq_eq_decide]
  exact decide_eq_decide.mpr (X86Flags.setWidth_eq_zero w v)

end Bits

section Tail

theorem shiftTail_run {b : Prop} [Decidable b] (overflow carry : Bool) (zero parity : BitVec 32)
    {v : BitVec w.operand.bits} (hb : b ↔ c = 1)
    (hparity : X86Flags.evenParity parity = X86Flags.evenParity v) :
    ((if b then do
        let __r ← modifyFlags ({ · with overflow := overflow })
        modifyFlags ({ · with carry := carry })
        storeShift w.operand zero parity v p
      else do
        modifyFlags ({ · with carry := carry })
        storeShift w.operand zero parity v p) : Op e Unit).run vm =
      shiftedTo p vm c v carry (zero == 0) overflow := by
  have hsign : ∀ f : X86Flags, f.calculateSign (v.setWidth 32) w.operand.sign =
      { f with sign := decide (v.toInt < 0) } := by
    intro f
    rw [X86Flags.calculateSign_eq, X86Flags.setWidth_dword]
  rw [run_ite]
  by_cases h : b
  · rw [if_pos h]
    simp only [storeShift, run_bind, run_modifyFlags, runBind_ok, run_setArg,
      X86Flags.calculateZero, X86Flags.calculateParity_eq, hsign, hparity]
    rw [shiftedTo, if_pos (hb.mp h)]
    rfl
  · rw [if_neg h]
    simp only [storeShift, run_bind, run_modifyFlags, runBind_ok, run_setArg,
      X86Flags.calculateZero, X86Flags.calculateParity_eq, hsign, hparity]
    rw [shiftedTo, if_neg (mt hb.mpr h)]
    rfl

end Tail

section Count

theorem count_mod : ∀ c : BitVec 8, (c.signExtend 16).toNat % 32 = c.toNat % 32 ∧
    (c.signExtend 32).toNat % 64 = c.toNat % 64 := by
  decide

theorem count_pred : ∀ c : BitVec 8, (c - 1).toNat % 8 = (c.toNat + 7) % 8 ∧
    (c.signExtend 16 - 1).toNat % 32 = (c.toNat + 31) % 32 ∧
    (c.signExtend 32 - 1).toNat % 32 = (c.toNat + 31) % 32 := by
  decide

theorem count_one : ∀ c : BitVec 8, (c.signExtend 16 = 1 ↔ c = 1) ∧
    (c.signExtend 32 = 1 ↔ c = 1) := by
  decide

end Count

theorem readsCount (hc : vm.getArg (p.args 1).location = .ok (.byte c)) :
    vm.SourceReads w (p.args 1).location (c.signExtend w.operand.bits) :=
  .inr ⟨c, hc, rfl⟩

section Left

def wideShift (w : ElementWidth) (a : BitVec w.operand.bits) (c : BitVec 8) :
    BitVec (2 * w.operand.bits) :=
  a.setWidth (2 * w.operand.bits) <<< (c.toNat % (2 * w.operand.bits))

def carryBit : ElementWidth → ℕ
  | .byte => 8
  | .word => 12
  | .dword => 32

/-- The zero flag of a left shift, which the middle width takes from all of the wide word. -/
def leftZero : (w : ElementWidth) → BitVec w.operand.bits → BitVec 8 → Bool
  | .word, a, c => wideShift .word a c == 0
  | .byte, a, c => a <<< (c.toNat % 16) == 0
  | .dword, a, c => a <<< (c.toNat % 64) == 0

theorem wideShift_low (w : ElementWidth) (a : BitVec w.operand.bits) (c : BitVec 8) :
    (wideShift w a c).setWidth w.operand.bits = a <<< (c.toNat % (2 * w.operand.bits)) := by
  apply BitVec.eq_of_getLsbD_eq
  intro i hi
  have hwide : i < 2 * w.operand.bits := by omega
  have hlow : i - c.toNat % (2 * w.operand.bits) < 2 * w.operand.bits := by omega
  rw [wideShift, BitVec.getLsbD_setWidth, BitVec.getLsbD_shiftLeft, BitVec.getLsbD_setWidth,
    BitVec.getLsbD_shiftLeft, decide_eq_true hi, decide_eq_true hwide, decide_eq_true hlow]
  simp

theorem wideShift_msb (w : ElementWidth) (a : BitVec w.operand.bits) (c : BitVec 8) :
    ((a.setWidth (2 * w.operand.bits)).getLsbD (w.operand.bits - 1) !=
      (wideShift w a c).getLsbD (w.operand.bits - 1)) =
      (a.msb != (a <<< (c.toNat % (2 * w.operand.bits))).msb) := by
  have hlast : w.operand.bits - 1 < w.operand.bits := by cases w <;> decide
  have hwide : w.operand.bits - 1 < 2 * w.operand.bits := by omega
  rw [← wideShift_low, BitVec.msb_eq_getLsbD_last, BitVec.msb_eq_getLsbD_last,
    BitVec.getLsbD_setWidth, BitVec.getLsbD_setWidth, decide_eq_true hlast, decide_eq_true hwide,
    Bool.true_and, Bool.true_and]

theorem shl8bit_run {a : BitVec 8}
    (ha : vm.getArg (p.args 0).location = .ok (.byte a))
    (hc : vm.getArg (p.args 1).location = .ok (.byte c)) :
    (shl8bit p : Op .straight Unit).run vm =
      shiftedTo (w := .byte) p vm c (a <<< (c.toNat % 16))
        ((wideShift .byte a c).getLsbD (carryBit .byte)) (leftZero .byte a c)
        (a.msb != (a <<< (c.toNat % 16)).msb) := by
  have hlow : (wideShift .byte a c).setWidth 8 = a <<< (c.toNat % 16) :=
    wideShift_low .byte a c
  refine (run_readable (exact_destination (w := .byte) ha)
    (exact_destination (w := .byte) hc)).trans ?_
  refine (shiftTail_run (w := .byte) (c := c) _ _ _ _ Iff.rfl ?_).trans
    (shiftedTo_congr hlow ?_ ?_ ?_)
  · exact (evenParity_setWidth (by decide) _).trans (evenParity_setWidth (by decide) _).symm
  · exact and_twoPow_ne_zero (i := 8) (wideShift .byte a c) (by decide)
  · exact (setWidth_beq_zero .byte _).trans (congrArg (· == 0) hlow)
  · rw [← hlow, BitVec.msb_eq_getLsbD_last, BitVec.msb_eq_getLsbD_last]
    exact and_twoPow_bne (i := 7) a ((wideShift .byte a c).setWidth 8) (by decide)

theorem shl16bit_run {a : BitVec 16}
    (ha : vm.getArg (p.args 0).location = .ok (.word a))
    (hc : vm.getArg (p.args 1).location = .ok (.byte c)) :
    (shl16bit p : Op .straight Unit).run vm =
      shiftedTo (w := .word) p vm c (a <<< (c.toNat % 32))
        ((wideShift .word a c).getLsbD (carryBit .word)) (leftZero .word a c)
        (a.msb != (a <<< (c.toNat % 32)).msb) := by
  have hlow : (wideShift .word a c).setWidth 16 = a <<< (c.toNat % 32) :=
    wideShift_low .word a c
  have hwide : wrappingShl (a.setWidth 32) (c.signExtend 16).toNat = wideShift .word a c :=
    congrArg (a.setWidth 32 <<< ·) (count_mod c).1
  refine (run_readable (exact_destination (w := .word) ha)
    (readsCount (w := .word) hc).extended).trans ?_
  refine (shiftTail_run (w := .word) (c := c) _ _ _ _ (count_one c).1 ?_).trans
    (shiftedTo_congr ((congrArg (BitVec.setWidth 16) hwide).trans hlow) ?_ ?_ ?_)
  · exact (evenParity_setWidth (by decide) _).symm
  · refine (congrArg (· &&& 0x1000 != 0) hwide).trans ?_
    exact and_twoPow_ne_zero (i := 12) (wideShift .word a c) (by decide)
  · exact congrArg (· == 0) hwide
  · refine Eq.trans ?_ (wideShift_msb .word a c)
    refine (congrArg (BitVec.setWidth 32 a &&& 0x8000 != · &&& 0x8000) hwide).trans ?_
    exact and_twoPow_bne (i := 15) (a.setWidth 32) (wideShift .word a c) (by decide)

theorem shl32bit_run {a : BitVec 32}
    (ha : vm.getArg (p.args 0).location = .ok (.dword a))
    (hc : vm.getArg (p.args 1).location = .ok (.byte c)) :
    (shl32bit p : Op .straight Unit).run vm =
      shiftedTo (w := .dword) p vm c (a <<< (c.toNat % 64))
        ((wideShift .dword a c).getLsbD (carryBit .dword)) (leftZero .dword a c)
        (a.msb != (a <<< (c.toNat % 64)).msb) := by
  have hlow : (wideShift .dword a c).setWidth 32 = a <<< (c.toNat % 64) :=
    wideShift_low .dword a c
  have hwide : wrappingShl (a.setWidth 64) (c.signExtend 32).toNat = wideShift .dword a c :=
    congrArg (a.setWidth 64 <<< ·) (count_mod c).2
  refine (run_readable (exact_destination (w := .dword) ha)
    (readsCount (w := .dword) hc).extended).trans ?_
  have hv := (congrArg (BitVec.setWidth 32) hwide).trans hlow
  refine (shiftTail_run (w := .dword) (c := c) _ _ _ _ (count_one c).2 rfl).trans
    (shiftedTo_congr hv ?_ ?_ ?_)
  · refine (congrArg (· &&& 0x100000000 != 0) hwide).trans ?_
    exact and_twoPow_ne_zero (i := 32) (wideShift .dword a c) (by decide)
  · exact congrArg (· == 0) hv
  · refine Eq.trans ?_ (wideShift_msb .dword a c)
    refine (congrArg (BitVec.setWidth 64 a &&& 0x80000000 != · &&& 0x80000000) hwide).trans ?_
    exact and_twoPow_bne (i := 31) (a.setWidth 64) (wideShift .dword a c) (by decide)

theorem shl_run (hw : p.HasWidth w)
    (ha : vm.getArg (p.args 0).location = .ok (w.operand.sized a))
    (hc : vm.getArg (p.args 1).location = .ok (.byte c)) :
    ((w.select .shl8bit .shlNativeWord).logic p).run vm =
      shiftedTo p vm c (a <<< (c.toNat % (2 * w.operand.bits)))
        ((wideShift w a c).getLsbD (carryBit w)) (leftZero w a c)
        (a.msb != (a <<< (c.toNat % (2 * w.operand.bits))).msb) := by
  cases w with
  | byte => exact shl8bit_run ha hc
  | word =>
    have hn : shlNativeWord p = (shl16bit p : Op .straight Unit) := if_pos hw
    exact (congrArg (Op.run · vm) hn).trans (shl16bit_run ha hc)
  | dword =>
    have hn : shlNativeWord p = (shl32bit p : Op .straight Unit) := if_neg (by rw [hw]; decide)
    exact (congrArg (Op.run · vm) hn).trans (shl32bit_run ha hc)

end Left

section Right

def rightModulus : ElementWidth → ℕ
  | .byte => 8
  | .word => 32
  | .dword => 64

/-- The bit of the operand that the carry flag of a right shift is taken from. -/
def carryIndex (w : ElementWidth) (c : BitVec 8) : ℕ :=
  match w with
  | .byte => (c.toNat + 7) % 8
  | .word | .dword => (c.toNat + 31) % 32

section Wide

variable {n m : ℕ} (hn : n ≤ m) (x : BitVec n) (k : ℕ)

include hn

theorem setWidth_ushiftRight : x.setWidth m >>> k = (x >>> k).setWidth m := by
  apply BitVec.eq_of_getLsbD_eq
  intro i hi
  rw [BitVec.getLsbD_ushiftRight, BitVec.getLsbD_setWidth, BitVec.getLsbD_setWidth,
    BitVec.getLsbD_ushiftRight, decide_eq_true hi, Bool.true_and]
  by_cases h : k + i < n
  · rw [decide_eq_true (by omega), Bool.true_and]
  · rw [BitVec.getLsbD_of_ge x _ (by omega), Bool.and_false]

end Wide

theorem ushiftRight_lowBit {n : ℕ} (x : BitVec n) (k : ℕ) (hn : 0 < n) :
    (x >>> k &&& 1 != 0) = x.getLsbD k := by
  have hone : (1 : BitVec n) = BitVec.twoPow n 0 := by
    rw [BitVec.twoPow_zero]
    rfl
  rw [hone, and_twoPow_ne_zero _ hn, BitVec.getLsbD_ushiftRight, Nat.add_zero]

theorem shr8bit_run {a : BitVec 8}
    (ha : vm.getArg (p.args 0).location = .ok (.byte a))
    (hc : vm.getArg (p.args 1).location = .ok (.byte c)) :
    (shr8bit p : Op .straight Unit).run vm =
      shiftedTo (w := .byte) p vm c (a >>> (c.toNat % 8)) (a.getLsbD (carryIndex .byte c))
        (a >>> (c.toNat % 8) == 0) (a.msb != (a >>> (c.toNat % 8)).msb) := by
  refine (run_readable (exact_destination (w := .byte) ha)
    (exact_destination (w := .byte) hc)).trans ?_
  refine (shiftTail_run (w := .byte) (c := c) _ _ _ _ Iff.rfl ?_).trans
    (shiftedTo_congr rfl ?_ ?_ ?_)
  · exact evenParity_setWidth (by decide) _
  · refine (ushiftRight_lowBit a _ (by decide)).trans ?_
    exact congrArg a.getLsbD (count_pred c).1
  · exact setWidth_beq_zero .byte _
  · rw [BitVec.msb_eq_getLsbD_last, BitVec.msb_eq_getLsbD_last]
    exact and_twoPow_bne (i := 7) a (a >>> (c.toNat % 8)) (by decide)

theorem shr16bit_run {a : BitVec 16}
    (ha : vm.getArg (p.args 0).location = .ok (.word a))
    (hc : vm.getArg (p.args 1).location = .ok (.byte c)) :
    (shr16bit p : Op .straight Unit).run vm =
      shiftedTo (w := .word) p vm c (a >>> (c.toNat % 32)) (a.getLsbD (carryIndex .word c))
        (a >>> (c.toNat % 32) == 0) (a.msb != (a >>> (c.toNat % 32)).msb) := by
  have hwide : wrappingShr (a.setWidth 32) (c.signExtend 16).toNat =
      (a >>> (c.toNat % 32)).setWidth 32 :=
    (congrArg (a.setWidth 32 >>> ·) (count_mod c).1).trans
      (setWidth_ushiftRight (show 16 ≤ 32 by decide) a _)
  have hv := (congrArg (BitVec.setWidth 16) hwide).trans
    (X86Flags.setWidth_dword .word (a >>> (c.toNat % 32)))
  refine (run_readable (exact_destination (w := .word) ha)
    (readsCount (w := .word) hc).extended).trans ?_
  refine (shiftTail_run (w := .word) (c := c) _ _ _ _ (count_one c).1 ?_).trans
    (shiftedTo_congr hv ?_ ?_ ?_)
  · exact (evenParity_setWidth (by decide) _).symm
  · refine (ushiftRight_lowBit (a.setWidth 32) _ (by decide)).trans ?_
    refine (congrArg (a.setWidth 32).getLsbD (count_pred c).2.1).trans ?_
    have hlt : (c.toNat + 31) % 32 < 32 := Nat.mod_lt _ (by decide)
    rw [BitVec.getLsbD_setWidth, decide_eq_true hlt, Bool.true_and]
    rfl
  · exact (congrArg (· == 0) hwide).trans (setWidth_beq_zero .word _)
  · refine (congrArg (BitVec.setWidth 32 a &&& 0x8000 != · &&& 0x8000) hwide).trans ?_
    rw [BitVec.msb_eq_getLsbD_last, BitVec.msb_eq_getLsbD_last]
    refine (and_twoPow_bne (i := 15) (a.setWidth 32) _ (by decide)).trans ?_
    rw [BitVec.getLsbD_setWidth, BitVec.getLsbD_setWidth]
    rfl

theorem shr32bit_run {a : BitVec 32}
    (ha : vm.getArg (p.args 0).location = .ok (.dword a))
    (hc : vm.getArg (p.args 1).location = .ok (.byte c)) :
    (shr32bit p : Op .straight Unit).run vm =
      shiftedTo (w := .dword) p vm c (a >>> (c.toNat % 64)) (a.getLsbD (carryIndex .dword c))
        (a >>> (c.toNat % 64) == 0) (a.msb != (a >>> (c.toNat % 64)).msb) := by
  have hwide : wrappingShr (a.setWidth 64) (c.signExtend 32).toNat =
      (a >>> (c.toNat % 64)).setWidth 64 :=
    (congrArg (a.setWidth 64 >>> ·) (count_mod c).2).trans
      (setWidth_ushiftRight (show 32 ≤ 64 by decide) a _)
  have hv : (wrappingShr (a.setWidth 64) (c.signExtend 32).toNat).setWidth 32 =
      a >>> (c.toNat % 64) := by
    rw [hwide, BitVec.setWidth_setWidth_of_le _ (by decide)]
    exact BitVec.setWidth_eq _
  refine (run_readable (exact_destination (w := .dword) ha)
    (readsCount (w := .dword) hc).extended).trans ?_
  refine (shiftTail_run (w := .dword) (c := c) _ _ _ _ (count_one c).2 rfl).trans
    (shiftedTo_congr hv ?_ (congrArg (· == 0) hv) ?_)
  · refine (ushiftRight_lowBit a _ (by decide)).trans ?_
    exact congrArg a.getLsbD (count_pred c).2.2
  · refine (congrArg (BitVec.setWidth 64 a &&& 0x80000000 != · &&& 0x80000000) hwide).trans ?_
    rw [BitVec.msb_eq_getLsbD_last, BitVec.msb_eq_getLsbD_last]
    refine (and_twoPow_bne (i := 31) (a.setWidth 64) _ (by decide)).trans ?_
    rw [BitVec.getLsbD_setWidth, BitVec.getLsbD_setWidth]
    rfl

theorem shr_run (hw : p.HasWidth w)
    (ha : vm.getArg (p.args 0).location = .ok (w.operand.sized a))
    (hc : vm.getArg (p.args 1).location = .ok (.byte c)) :
    ((w.select .shr8bit .shrNativeWord).logic p).run vm =
      shiftedTo p vm c (a >>> (c.toNat % rightModulus w)) (a.getLsbD (carryIndex w c))
        (a >>> (c.toNat % rightModulus w) == 0)
        (a.msb != (a >>> (c.toNat % rightModulus w)).msb) := by
  cases w with
  | byte => exact shr8bit_run ha hc
  | word =>
    have hn : shrNativeWord p = (shr16bit p : Op .straight Unit) := if_pos hw
    exact (congrArg (Op.run · vm) hn).trans (shr16bit_run ha hc)
  | dword =>
    have hn : shrNativeWord p = (shr32bit p : Op .straight Unit) := if_neg (by rw [hw]; decide)
    exact (congrArg (Op.run · vm) hn).trans (shr32bit_run ha hc)

end Right

section Arithmetic

theorem sshiftRight_eq {n : ℕ} (x : BitVec n) (k : ℕ) :
    (if x.msb then x >>> k ||| ~~~(BitVec.allOnes n >>> k) else x >>> k) = x.sshiftRight k := by
  apply BitVec.eq_of_getLsbD_eq
  intro i hi
  rw [BitVec.getLsbD_sshiftRight]
  cases h : x.msb with
  | false =>
    rw [if_neg (by decide), BitVec.getLsbD_ushiftRight]
    by_cases hin : k + i < n
    · simp [hin, hi]
    · simp [hin, BitVec.getLsbD_of_ge x (k + i) (by omega)]
  | true =>
    rw [if_pos rfl, BitVec.getLsbD_or, BitVec.getLsbD_not, BitVec.getLsbD_ushiftRight,
      BitVec.getLsbD_ushiftRight, BitVec.getLsbD_allOnes]
    by_cases hin : k + i < n
    · simp [hin, hi]
    · simp [hin, hi]

theorem sarMasked_run (m v : BitVec w.operand.bits) :
    ((if m = 0 then pure ()
      else do
        modifyFlags ({ · with carry := decide (0 < wrappingShr a (m - 1).toNat &&& 1) })
        modifyFlags fun f ↦ ((f.calculateParity (v.setWidth 32)).calculateSign (v.setWidth 32)
          w.operand.sign).calculateZero (v.setWidth 32)
        setArg (p.args 0).location (w.operand.sized v)) : Op e Unit).run vm =
      if m.toNat = 0 then (.ok (), vm)
      else vm.stored { vm.flags.ofResult v with
          carry := a.getLsbD ((m.toNat - 1) % w.operand.bits)
          zero := v == 0 }
        (p.args 0).location (w.operand.sized v) := by
  rw [run_ite]
  by_cases h : m = 0
  · rw [if_pos h, if_pos ((eq_zero_iff_toNat m).mp h)]
    rfl
  · have hne := mt (eq_zero_iff_toNat m).mpr h
    have hone : (1 : BitVec w.operand.bits).toNat = 1 := by
      cases w <;> rfl
    have hpred : (m - 1).toNat = m.toNat - 1 := by
      rw [BitVec.toNat_sub_of_le, hone]
      rw [BitVec.le_def, hone]
      exact Nat.pos_of_ne_zero hne
    have hcarry : decide (0 < wrappingShr a (m - 1).toNat &&& 1) =
        a.getLsbD ((m.toNat - 1) % w.operand.bits) := by
      have hbits : 0 < w.operand.bits := by cases w <;> decide
      rw [← ushiftRight_lowBit a _ hbits, wrappingShr, hpred, Bool.eq_iff_iff, decide_eq_true_iff,
        bne_iff_ne]
      exact zero_lt_iff_ne_zero _
    rw [if_neg h, if_neg hne]
    simp only [run_bind, run_modifyFlags, runBind_ok, run_setArg, X86Flags.calculateZero,
      X86Flags.calculateParity_eq, X86Flags.calculateSign_eq, X86Flags.setWidth_dword, hcarry,
      setWidth_beq_zero, evenParity_setWidth (show 8 ≤ 32 by decide)]
    rfl

theorem count_and : ∀ c : BitVec 8, (c.signExtend 8 &&& 0x1F).toNat = c.toNat % 32 ∧
    (c.signExtend 16 &&& 0x1F).toNat = c.toNat % 32 ∧
    (c.signExtend 32 &&& 0x1F).toNat = c.toNat % 32 := by
  decide

theorem sar_run (hw : p.HasWidth w)
    (ha : vm.getArg (p.args 0).location = .ok (w.operand.sized a))
    (hc : vm.getArg (p.args 1).location = .ok (.byte c)) :
    ((w.select .sar8bit .sarNativeWord).logic p).run vm =
      if c.toNat % 32 = 0 then (.ok (), vm)
      else shiftedTo p vm c (a.sshiftRight (c.toNat % 32 % w.operand.bits))
        (a.getLsbD ((c.toNat % 32 - 1) % w.operand.bits))
        (a.sshiftRight (c.toNat % 32 % w.operand.bits) == 0) false := by
  have hbits : 0 < w.operand.bits := by cases w <;> decide
  have hbits' : w.operand.bits ≤ 256 := by cases w <;> decide
  have hcount : (c.signExtend w.operand.bits &&& 0x1F).toNat = c.toNat % 32 := by
    cases w with
    | byte => exact (count_and c).1
    | word => exact (count_and c).2.1
    | dword => exact (count_and c).2.2
  have hone : c.signExtend w.operand.bits = 1 ↔ c = 1 := by
    cases w with
    | byte => exact iff_of_eq (congrArg (· = 1) (BitVec.signExtend_eq c))
    | word => exact (count_one c).1
    | dword => exact (count_one c).2
  have hvalue := sshiftRight_eq a (c.toNat % 32 % w.operand.bits)
  rw [← getBitBigEndian_top _ hbits hbits'] at hvalue
  rw [select_run (F := sar) (fun _ ↦ rfl) (fun _ ↦ rfl) hw]
  refine (run_readable (exact_destination ha) (readsCount hc).extended).trans ?_
  dsimp only
  rw [run_ite]
  by_cases h : c = 1
  · have hk : ¬c.toNat % 32 = 0 := by
      rw [h]
      decide
    rw [if_pos (hone.mpr h), run_bind, run_modifyFlags, runBind_ok]
    refine (sarMasked_run _ _).trans ?_
    rw [wrappingShr, wrappingShr, hcount, hvalue, if_neg hk, if_neg hk, shiftedTo, if_pos h]
    rfl
  · rw [if_neg (mt hone.mp h)]
    refine (sarMasked_run _ _).trans ?_
    rw [wrappingShr, wrappingShr, hcount, hvalue, shiftedTo, if_neg h]
    rfl

end Arithmetic

end Qx86
