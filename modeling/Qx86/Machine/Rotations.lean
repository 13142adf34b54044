import Qx86.Foundation.Rotations
import Qx86.Machine.Shifts

namespace Qx86

open Foundation Words Rotations BitManipulation Op Operations

variable {e : Effects} {w : ElementWidth} {p : Pipeline} {vm : VM} {a b : BitVec w.operand.bits}
  {c : BitVec 8} {j : ℕ}

def rotatedTo (p : Pipeline) (vm : VM) (j : ℕ) (overflow : Bool)
    (s : BitVec w.operand.bits × Bool) : Outcome VMError Unit × VM :=
  vm.stored { vm.flags with
      carry := s.2
      overflow := if j = 1 then overflow else vm.flags.overflow }
    (p.args 0).location (w.operand.sized s.1)

theorem one_toNat (w : ElementWidth) : (1 : BitVec w.operand.bits).toNat = 1 := by
  cases w <;> rfl

theorem eq_one_iff_toNat (m : BitVec w.operand.bits) : m = 1 ↔ m.toNat = 1 := by
  rw [← BitVec.toNat_inj, one_toNat]

theorem rest_toNat {m : BitVec w.operand.bits} {k : ℕ} (hk : k ≤ w.operand.bits + 1)
    (hm : m.toNat ≤ k) : (BitVec.ofNat w.operand.bits k - m).toNat = k - m.toNat := by
  have hlt : k < 2 ^ w.operand.bits := by
    cases w with
    | byte | word | dword =>
      refine lt_of_le_of_lt hk ?_
      decide
  rw [BitVec.toNat_sub_of_le, BitVec.toNat_ofNat, Nat.mod_eq_of_lt hlt]
  rw [BitVec.le_def, BitVec.toNat_ofNat, Nat.mod_eq_of_lt hlt]
  exact hm

section Words

variable {n : ℕ} (x : BitVec n)

theorem rotateLeft_eq (hj : j ≠ 0) (hn : j < n) :
    wrappingShl x j ||| wrappingShr x (n - j) = x.rotateLeft j := by
  rw [wrappingShl, wrappingShr, Nat.mod_eq_of_lt (show n - j < n by omega), BitVec.rotateLeft_def,
    Nat.mod_eq_of_lt hn]

theorem rotateRight_eq (hj : j ≠ 0) (hn : j < n) :
    wrappingShr x j ||| wrappingShl x (n - j) = x.rotateRight j := by
  rw [wrappingShl, wrappingShr, Nat.mod_eq_of_lt (show n - j < n by omega), BitVec.rotateRight_def,
    Nat.mod_eq_of_lt hn]

theorem decide_and_twoPow {i : ℕ} (hi : i < n) :
    decide (0 < x &&& BitVec.twoPow n i) = x.getLsbD i := by
  rw [← and_twoPow_ne_zero x hi, Bool.eq_iff_iff, decide_eq_true_iff, bne_iff_ne]
  exact zero_lt_iff_ne_zero _

end Words

section Rings

variable {n : ℕ}

theorem widened_getLsbD {m : ℕ} (hm : n ≤ m) (y : BitVec n) (i : ℕ) :
    (y.setWidth m).getLsbD i = y.getLsbD i := by
  rw [BitVec.getLsbD_setWidth]
  by_cases hi : i < m
  · rw [decide_eq_true hi, Bool.true_and]
  · rw [BitVec.getLsbD_of_ge y i (by omega), Bool.and_false]

theorem widened_left (s : BitVec n × Bool) (hn : 0 < n) :
    wrappingShl (s.1.setWidth (2 * n)) 1 ||| (BitVec.ofBool s.2).setWidth (2 * n) =
      (Direction.left.ring s).setWidth (2 * n) := by
  apply BitVec.eq_of_getLsbD_eq
  intro i hi
  have hone : 1 % (2 * n) = 1 := Nat.mod_eq_of_lt (by omega)
  rw [wrappingShl, hone, BitVec.getLsbD_or, BitVec.getLsbD_shiftLeft, widened_getLsbD (by omega),
    widened_getLsbD (by omega), widened_getLsbD (by omega), Direction.getLsbD_ring_left,
    BitVec.getLsbD_ofBool]
  cases i with
  | zero => simp
  | succ i => simp [hi]

theorem widened_right (s : BitVec n × Bool) (hn : 0 < n) :
    s.1.setWidth (2 * n) ||| wrappingShl ((BitVec.ofBool s.2).setWidth (2 * n)) n =
      (Direction.right.ring s).setWidth (2 * n) := by
  apply BitVec.eq_of_getLsbD_eq
  intro i hi
  have hmod : n % (2 * n) = n := Nat.mod_eq_of_lt (by omega)
  rw [wrappingShl, hmod, BitVec.getLsbD_or, BitVec.getLsbD_shiftLeft, widened_getLsbD (by omega),
    widened_getLsbD (by omega), widened_getLsbD (by omega), Direction.getLsbD_ring_right,
    BitVec.getLsbD_ofBool]
  by_cases h : i = n
  · rw [if_pos h, BitVec.getLsbD_of_ge s.1 i (by omega)]
    have hlt : n < 2 * n := by omega
    simp [h, hlt]
  · rw [if_neg h]
    by_cases hlt : i < n
    · simp [hlt]
    · have hne : i - n ≠ 0 := by omega
      simp [hne]

/-- The wide word of a left rotation holds the rotated ring, and its carry once more above it. -/
theorem wideLeft_getLsbD (y : BitVec (n + 1)) (hj : j ≠ 0) (hn : j < n) (i : ℕ) (hi : i ≤ n) :
    (wrappingShl (y.setWidth (2 * n)) j |||
      wrappingShr (y.setWidth (2 * n)) (n + 1 - j)).getLsbD i = (y.rotateLeft j).getLsbD i := by
  rw [wrappingShl, wrappingShr, Nat.mod_eq_of_lt (show j < 2 * n by omega),
    Nat.mod_eq_of_lt (show n + 1 - j < 2 * n by omega), BitVec.getLsbD_or,
    BitVec.getLsbD_shiftLeft, BitVec.getLsbD_ushiftRight, widened_getLsbD (by omega),
    widened_getLsbD (by omega), BitVec.getLsbD_rotateLeft_of_le (by omega),
    decide_eq_true (show i < 2 * n by omega)]
  by_cases h : i < j
  · simp [h]
  · rw [BitVec.getLsbD_of_ge y (n + 1 - j + i) (by omega)]
    simp [h, Nat.lt_succ_of_le hi]

theorem wideLeft_carry (y : BitVec (n + 1)) (hj : j ≠ 0) (hn : j < n) :
    (wrappingShl (y.setWidth (2 * n)) j |||
      wrappingShr (y.setWidth (2 * n)) (n + 1 - j)).getLsbD (n + 1) =
        (y.rotateLeft j).getLsbD 0 := by
  rw [wrappingShl, wrappingShr, Nat.mod_eq_of_lt (show j < 2 * n by omega),
    Nat.mod_eq_of_lt (show n + 1 - j < 2 * n by omega), BitVec.getLsbD_or,
    BitVec.getLsbD_shiftLeft, BitVec.getLsbD_ushiftRight, widened_getLsbD (by omega),
    widened_getLsbD (by omega), BitVec.getLsbD_rotateLeft_of_le (by omega),
    decide_eq_true (show n + 1 < 2 * n by omega),
    BitVec.getLsbD_of_ge y (n + 1 - j + (n + 1)) (by omega)]
  simp [Nat.pos_of_ne_zero hj, show ¬n + 1 < j by omega]

theorem wideRight_getLsbD (y : BitVec (n + 1)) (hj : j ≠ 0) (hn : j < n) (i : ℕ) (hi : i ≤ n) :
    (wrappingShr (y.setWidth (2 * n)) j |||
      wrappingShl (y.setWidth (2 * n)) (n + 1 - j)).getLsbD i = (y.rotateRight j).getLsbD i := by
  rw [wrappingShl, wrappingShr, Nat.mod_eq_of_lt (show j < 2 * n by omega),
    Nat.mod_eq_of_lt (show n + 1 - j < 2 * n by omega), BitVec.getLsbD_or,
    BitVec.getLsbD_shiftLeft, BitVec.getLsbD_ushiftRight, widened_getLsbD (by omega),
    widened_getLsbD (by omega), BitVec.getLsbD_rotateRight_of_lt (by omega),
    decide_eq_true (show i < 2 * n by omega)]
  by_cases h : i < n + 1 - j
  · simp [h]
  · rw [BitVec.getLsbD_of_ge y (j + i) (by omega)]
    simp [h, Nat.lt_succ_of_le hi]

theorem setWidth_wrappingShr_one {x : BitVec (2 * n)} {y : BitVec (n + 1)} (hn : 1 < n)
    (hx : ∀ i ≤ n, x.getLsbD i = y.getLsbD i) :
    (wrappingShr x 1).setWidth n = y.extractLsb' 1 n := by
  apply BitVec.eq_of_getLsbD_eq
  intro i hi
  rw [wrappingShr, Nat.mod_eq_of_lt (show 1 < 2 * n by omega), BitVec.getLsbD_setWidth,
    BitVec.getLsbD_ushiftRight, BitVec.getLsbD_extractLsb', hx _ (by omega)]

theorem setWidth_wide {x : BitVec (2 * n)} {y : BitVec (n + 1)}
    (hx : ∀ i ≤ n, x.getLsbD i = y.getLsbD i) : x.setWidth n = y.setWidth n := by
  apply BitVec.eq_of_getLsbD_eq
  intro i hi
  rw [BitVec.getLsbD_setWidth, BitVec.getLsbD_setWidth, hx i (by omega)]

theorem decide_and_wrappingShl (x : BitVec n) {i : ℕ} (hi : i < n) :
    decide (0 < x &&& wrappingShl 1 i) = x.getLsbD i := by
  rw [wrappingShl_one hi, decide_and_twoPow x hi]

theorem getBit_ofNat (x : BitVec n) {i : ℕ} (hi : i < n) (hi' : i < 256) :
    getBit x (BitVec.ofNat 8 i) = x.getLsbD i := by
  have hindex : (BitVec.ofNat 8 i).toNat = i := Nat.mod_eq_of_lt hi'
  have hbit := getBit_eq x (i := BitVec.ofNat 8 i) (by omega)
  rwa [hindex] at hbit

theorem carryOne_left (s : BitVec n × Bool) (hn : 0 < n) (k : ℕ) :
    Direction.left.carryOne^[k] s = (((Direction.left.ring s).rotateLeft k).extractLsb' 1 n,
      ((Direction.left.ring s).rotateLeft k).getLsbD 0) := Direction.left.carryOne_iterate k s hn

theorem carryOne_right (s : BitVec n × Bool) (hn : 0 < n) (k : ℕ) :
    Direction.right.carryOne^[k] s = (((Direction.right.ring s).rotateRight k).setWidth n,
      ((Direction.right.ring s).rotateRight k).getLsbD n) := Direction.right.carryOne_iterate k s hn

end Rings

section Tail

theorem reduced_eq_zero_iff {x : BitVec n} (hx : x.toNat = j) : x = 0 ↔ j = 0 := by
  rw [eq_zero_iff_toNat, hx]

theorem rotationTail_run {m : BitVec w.operand.bits} (hm : m.toNat = j) (carry overflow : Bool)
    (v : BitVec w.operand.bits) :
    ((do
      modifyFlags ({ · with carry := carry })
      if m = 1 then do
        modifyFlags ({ · with overflow := overflow })
        setArg (p.args 0).location (w.operand.sized v)
      else setArg (p.args 0).location (w.operand.sized v)) : Op e Unit).run vm =
      rotatedTo p vm j overflow (v, carry) := by
  rw [run_bind, run_modifyFlags, runBind_ok, run_ite, rotatedTo]
  by_cases h : m = 1
  · have hj := hm.symm.trans ((eq_one_iff_toNat m).mp h)
    rw [if_pos h, if_pos hj, run_bind, run_modifyFlags, runBind_ok, run_setArg]
    rfl
  · have hj : ¬j = 1 := fun hj ↦ h ((eq_one_iff_toNat m).mpr (hm.trans hj))
    rw [if_neg h, if_neg hj, run_setArg]
    rfl

end Tail

section Plain

variable (reduce : BitVec w.operand.bits → BitVec w.operand.bits)
  (ha : vm.getArg (p.args 0).location = .ok (w.operand.sized a))
  (hb : vm.SourceReads w (p.args 1).location b) (hm : (reduce (b &&& 0x1F)).toNat = j)
  (hj : j < w.operand.bits)

include ha hb hm hj

theorem rolWith_run : (rol w.operand reduce p : Op e Unit).run vm =
    if j = 0 then (.ok (), vm)
    else rotatedTo p vm j ((a.rotateLeft j).msb ^^ (a.rotateLeft j).getLsbD 0)
      (a.rotateLeft j, (a.rotateLeft j).getLsbD 0) := by
  have hbits : 0 < w.operand.bits := by omega
  have hbits' : w.operand.bits ≤ 256 := by cases w <;> decide
  refine (run_readable (exact_destination ha) hb.extended).trans ?_
  dsimp only
  rw [run_ite]
  have hzero := reduced_eq_zero_iff hm
  by_cases h : j = 0
  · rw [if_pos h, if_pos (hzero.mpr h)]
    rfl
  · have hrest := rest_toNat (w := w) (m := reduce (b &&& 0x1F)) (Nat.le_succ _) (by omega)
    have hcarry : (a.rotateLeft j &&& 0x1 != 0) = (a.rotateLeft j).getLsbD 0 := by
      have hlow := ushiftRight_lowBit (a.rotateLeft j) 0 hbits
      rwa [BitVec.ushiftRight_zero] at hlow
    rw [if_neg h, if_neg (hzero.not.mpr h), hrest, hm, rotateLeft_eq a h hj, hcarry,
      getBitBigEndian_top _ hbits hbits']
    exact rotationTail_run hm _ _ _

theorem rorWith_run {second : BitVec w.operand.bits}
    (hsecond : second = BitVec.twoPow w.operand.bits (w.operand.bits - 2)) :
    (ror w.operand reduce second p : Op e Unit).run vm =
      if j = 0 then (.ok (), vm)
      else rotatedTo p vm j
        ((a.rotateRight j).msb ^^ (a.rotateRight j).getLsbD (w.operand.bits - 2))
        (a.rotateRight j, (a.rotateRight j).msb) := by
  have hbits : 0 < w.operand.bits := by omega
  have hbits' : w.operand.bits ≤ 256 := by cases w <;> decide
  refine (run_readable (exact_destination ha) hb.extended).trans ?_
  dsimp only
  rw [run_ite]
  have hzero := reduced_eq_zero_iff hm
  by_cases h : j = 0
  · rw [if_pos h, if_pos (hzero.mpr h)]
    rfl
  · have hrest := rest_toNat (w := w) (m := reduce (b &&& 0x1F)) (Nat.le_succ _) (by omega)
    rw [if_neg h, if_neg (hzero.not.mpr h), hrest, hm, rotateRight_eq a h hj, hsecond,
      decide_and_twoPow _ (by omega), getBitBigEndian_top _ hbits hbits']
    exact rotationTail_run hm _ _ _

end Plain

section Carry

variable (reduce : BitVec w.operand.bits → BitVec w.operand.bits) {s : BitVec w.operand.bits × Bool}
  (ha : vm.getArg (p.args 0).location = .ok (w.operand.sized a))
  (hb : vm.SourceReads w (p.args 1).location b) (hm : (reduce (b &&& 0x1F)).toNat = j)
  (hj : j < w.operand.bits)

include ha hb hm hj

theorem rclWith_run (hs : Direction.left.carryOne^[j] (a, vm.flags.carry) = s) :
    (rcl w.operand reduce p : Op e Unit).run vm =
      if j = 0 then (.ok (), vm)
      else rotatedTo p vm j (s.1.getLsbD (w.operand.bits - 2) ^^ s.2) s := by
  have hbits : 0 < w.operand.bits := by omega
  have hbits' : w.operand.bits ≤ 128 := by cases w <;> decide
  refine (run_readable (exact_destination ha) hb.extended).trans ?_
  dsimp only
  rw [run_ite]
  have hzero := reduced_eq_zero_iff hm
  by_cases h : j = 0
  · rw [if_pos h, if_pos (hzero.mpr h)]
    rfl
  · have hrest := rest_toNat (w := w) (m := reduce (b &&& 0x1F)) le_rfl (by omega)
    rw [if_neg h, if_neg (hzero.not.mpr h), hrest, hm, run_bind, run_flags, runBind_ok,
      widened_left (a, vm.flags.carry) hbits, ← hs, carryOne_left _ hbits]
    have hlow := wideLeft_getLsbD (Direction.left.ring (a, vm.flags.carry)) h hj
    refine (rotationTail_run hm _ _ _).trans ?_
    rw [decide_and_wrappingShl _ (by omega), wideLeft_carry _ h hj,
      setWidth_wrappingShr_one (by omega) hlow, getBit_ofNat _ (by omega) (by omega),
      hlow _ (by omega), BitVec.getLsbD_extractLsb', decide_eq_true (by omega), Bool.true_and,
      show 1 + (w.operand.bits - 2) = w.operand.bits - 1 by omega]

theorem rcrWith_run (hs : Direction.right.carryOne^[j] (a, vm.flags.carry) = s) :
    (rcr w.operand reduce p : Op e Unit).run vm =
      if j = 0 then (.ok (), vm)
      else rotatedTo p vm j (s.1.msb ^^ s.1.getLsbD (w.operand.bits - 2)) s := by
  have hbits : 0 < w.operand.bits := by omega
  have hbits' : w.operand.bits ≤ 128 := by cases w <;> decide
  refine (run_readable (exact_destination ha) hb.extended).trans ?_
  dsimp only
  rw [run_ite]
  have hzero := reduced_eq_zero_iff hm
  by_cases h : j = 0
  · rw [if_pos h, if_pos (hzero.mpr h)]
    rfl
  · have hrest := rest_toNat (w := w) (m := reduce (b &&& 0x1F)) le_rfl (by omega)
    have hlow := wideRight_getLsbD (Direction.right.ring (a, vm.flags.carry)) h hj
    rw [if_neg h, if_neg (hzero.not.mpr h), hrest, hm, run_bind, run_flags, runBind_ok,
      widened_right (a, vm.flags.carry) hbits, ← hs, carryOne_right _ hbits]
    refine (rotationTail_run hm _ _ _).trans ?_
    rw [setWidth_wide hlow, getBit_ofNat _ (by omega) (by omega),
      decide_and_wrappingShl _ (by omega), decide_and_wrappingShl _ (by omega), hlow _ le_rfl,
      BitVec.msb_eq_getLsbD_last]

end Carry

section Wide

theorem setWidth_and_low (x : BitVec 64) : (x &&& 0xFFFFFFFF).setWidth 32 = x.setWidth 32 := by
  have hones : (0xFFFFFFFF : BitVec 64).setWidth 32 = BitVec.allOnes 32 := rfl
  rw [BitVec.setWidth_and, hones, BitVec.and_allOnes]

theorem getBit_and_low (x : BitVec 64) : getBit (x &&& 0xFFFFFFFF) 31 = (x.setWidth 32).msb := by
  have hbit := getBit_ofNat (x &&& 0xFFFFFFFF) (i := 31) (by decide) (by decide)
  refine hbit.trans ?_
  rw [← setWidth_and_low, BitVec.msb_eq_getLsbD_last, BitVec.getLsbD_setWidth]
  rfl

variable {a : BitVec 32} {s : BitVec 32 × Bool}

theorem rcl32_run (ha : vm.getArg (p.args 0).location = .ok (.dword a))
    (hc : vm.getArg (p.args 1).location = .ok (.byte c))
    (hs : Direction.left.carryOne^[c.toNat % 32] (a, vm.flags.carry) = s) :
    (rcl32bit p : Op e Unit).run vm =
      if c.toNat % 32 = 0 then (.ok (), vm)
      else rotatedTo (w := .dword) p vm (c.toNat % 32) (s.1.msb ^^ s.2) s := by
  have hdestination : vm.getArg (p.args 0).location >>= SizedValue.u32Exact = .ok a :=
    exact_destination (w := .dword) ha
  have hcount : vm.getArg (p.args 1).location >>= SizedValue.u32Sx = .ok (c.signExtend 32) :=
    (readsCount (w := .dword) hc).extended
  obtain ⟨m, hm⟩ : ∃ m, m = c.signExtend 32 &&& 0x1F := ⟨_, rfl⟩
  obtain ⟨k, hk⟩ : ∃ k, k = c.toNat % 32 := ⟨_, rfl⟩
  have hmk : m.toNat = k := by
    rw [hm, hk]
    exact (count_and c).2.2
  have hlt : k < 32 := hk ▸ Nat.mod_lt _ (by decide)
  refine (run_readable hdestination hcount).trans ?_
  dsimp only
  rw [run_ite, ← hm, ← hk]
  by_cases h : k = 0
  · rw [if_pos h, if_pos ((eq_zero_iff_toNat _).mpr (hmk.trans h))]
    rfl
  · have hne : ¬m = 0 := fun hz ↦ h (hmk.symm.trans ((eq_zero_iff_toNat _).mp hz))
    have hrest : (33 - m).toNat = 33 - k := by
      have hrest := rest_toNat (w := .dword) (m := m) (k := 33) le_rfl (hmk.le.trans (by omega))
      exact hrest.trans (congrArg (33 - ·) hmk)
    obtain ⟨y, hy⟩ : ∃ y, y = Direction.left.ring (a, vm.flags.carry) := ⟨_, rfl⟩
    have hring : wrappingShl (a.setWidth 64) 1 ||| (BitVec.ofBool vm.flags.carry).setWidth 64 =
        y.setWidth 64 := by
      rw [hy]
      exact widened_left (a, vm.flags.carry) (by decide)
    have hword : (wrappingShr (wrappingShl (y.setWidth 64) k |||
        wrappingShr (y.setWidth 64) (33 - k)) 1).setWidth 32 = (y.rotateLeft k).extractLsb' 1 32 :=
      setWidth_wrappingShr_one (n := 32) (by decide) (wideLeft_getLsbD y h hlt)
    have hcarry : (wrappingShl (y.setWidth 64) k ||| wrappingShr (y.setWidth 64) (33 - k)).getLsbD
        33 = (y.rotateLeft k).getLsbD 0 := wideLeft_carry y h hlt
    have hsplit := carryOne_left (a, vm.flags.carry) (by decide) k
    rw [← hy, hk, hs, ← hk] at hsplit
    rw [if_neg h, if_neg hne, run_bind, run_flags, runBind_ok, hrest, hmk, hring]
    refine (rotationTail_run (w := .dword) hmk _ _ _).trans ?_
    rw [getBit_and_low, setWidth_and_low, decide_and_wrappingShl _ (by decide), hcarry, hword,
      hsplit]
    rfl

end Wide

section Select

variable (hw : p.HasWidth w) (ha : vm.getArg (p.args 0).location = .ok (w.operand.sized a))
  (hc : vm.getArg (p.args 1).location = .ok (.byte c))

def rotations (w : ElementWidth) (c : BitVec 8) : ℕ := c.toNat % 32 % w.operand.bits

/-- The bit of a result that RCL takes for its top bit, below it in the narrower words. -/
def rclTopBit : (w : ElementWidth) → BitVec w.operand.bits → Bool
  | .byte, x => x.getLsbD 6
  | .word, x => x.getLsbD 14
  | .dword, x => x.msb

theorem rotations_lt (w : ElementWidth) (c : BitVec 8) : rotations w c < w.operand.bits :=
  Nat.mod_lt _ (by cases w <;> decide)

theorem reduced_toNat (c : BitVec 8) :
    ((c.signExtend 8 &&& 0x1F).umod 8).toNat = rotations .byte c ∧
      ((c.signExtend 16 &&& 0x1F).umod 16).toNat = rotations .word c ∧
      ((c.signExtend 32 &&& 0x1F).umod 32).toNat = rotations .dword c ∧
      (c.signExtend 32 &&& 0x1F).toNat = rotations .dword c := by
  obtain ⟨hbyte, hword, hdword⟩ := count_and c
  refine ⟨?_, ?_, ?_, ?_⟩
  · exact (BitVec.toNat_umod ..).trans (congrArg (· % 8) hbyte)
  · exact (BitVec.toNat_umod ..).trans (congrArg (· % 16) hword)
  · exact (BitVec.toNat_umod ..).trans (congrArg (· % 32) hdword)
  · exact hdword.trans (Nat.mod_mod ..).symm

include hw ha hc

theorem rol_run : ((w.select .rol8bit .rolNativeWord).logic p).run vm =
    if rotations w c = 0 then (.ok (), vm)
    else rotatedTo p vm (rotations w c)
      ((a.rotateLeft (rotations w c)).msb ^^ (a.rotateLeft (rotations w c)).getLsbD 0)
      (a.rotateLeft (rotations w c), (a.rotateLeft (rotations w c)).getLsbD 0) := by
  obtain ⟨hbyte, hword, hdword, -⟩ := reduced_toNat c
  cases w with
  | byte =>
    exact rolWith_run (w := .byte) (BitVec.umod · 8) ha (readsCount hc) hbyte (rotations_lt .byte c)
  | word =>
    refine (congrArg (Op.run · vm) (if_pos hw)).trans ?_
    exact rolWith_run (w := .word) (BitVec.umod · 16) ha (readsCount hc) hword
      (rotations_lt .word c)
  | dword =>
    refine (congrArg (Op.run · vm) (if_neg hw.not_override)).trans ?_
    exact rolWith_run (w := .dword) (BitVec.umod · 32) ha (readsCount hc) hdword
      (rotations_lt .dword c)

theorem ror_run : ((w.select .ror8bit .rorNativeWord).logic p).run vm =
    if rotations w c = 0 then (.ok (), vm)
    else rotatedTo p vm (rotations w c)
      ((a.rotateRight (rotations w c)).msb ^^
        (a.rotateRight (rotations w c)).getLsbD (w.operand.bits - 2))
      (a.rotateRight (rotations w c), (a.rotateRight (rotations w c)).msb) := by
  obtain ⟨hbyte, hword, -, hdword⟩ := reduced_toNat c
  cases w with
  | byte =>
    exact rorWith_run (w := .byte) (BitVec.umod · 8) ha (readsCount hc) hbyte
      (rotations_lt .byte c) rfl
  | word =>
    refine (congrArg (Op.run · vm) (if_pos hw)).trans ?_
    exact rorWith_run (w := .word) (BitVec.umod · 16) ha (readsCount hc) hword
      (rotations_lt .word c) rfl
  | dword =>
    refine (congrArg (Op.run · vm) (if_neg hw.not_override)).trans ?_
    exact rorWith_run (w := .dword) id ha (readsCount hc) hdword (rotations_lt .dword c) rfl

theorem rcl_run {s : BitVec w.operand.bits × Bool}
    (hs : Direction.left.carryOne^[rotations w c] (a, vm.flags.carry) = s) :
    ((w.select .rcl8bit .rclNativeWord).logic p).run vm =
      if rotations w c = 0 then (.ok (), vm)
      else rotatedTo p vm (rotations w c) (rclTopBit w s.1 ^^ s.2) s := by
  obtain ⟨hbyte, hword, -, -⟩ := reduced_toNat c
  cases w with
  | byte =>
    exact rclWith_run (w := .byte) (BitVec.umod · 8) ha (readsCount hc) hbyte
      (rotations_lt .byte c) hs
  | word =>
    refine (congrArg (Op.run · vm) (if_pos hw)).trans ?_
    exact rclWith_run (w := .word) (BitVec.umod · 16) ha (readsCount hc) hword
      (rotations_lt .word c) hs
  | dword =>
    have hmod : rotations .dword c = c.toNat % 32 := Nat.mod_mod ..
    rw [hmod] at hs ⊢
    refine (congrArg (Op.run · vm) (if_neg hw.not_override)).trans ?_
    exact rcl32_run ha hc hs

theorem rcr_run {s : BitVec w.operand.bits × Bool}
    (hs : Direction.right.carryOne^[rotations w c] (a, vm.flags.carry) = s) :
    ((w.select .rcr8bit .rcrNativeWord).logic p).run vm =
      if rotations w c = 0 then (.ok (), vm)
      else rotatedTo p vm (rotations w c) (s.1.msb ^^ s.1.getLsbD (w.operand.bits - 2)) s := by
  obtain ⟨hbyte, hword, -, hdword⟩ := reduced_toNat c
  cases w with
  | byte =>
    exact rcrWith_run (w := .byte) (BitVec.umod · 8) ha (readsCount hc) hbyte
      (rotations_lt .byte c) hs
  | word =>
    refine (congrArg (Op.run · vm) (if_pos hw)).trans ?_
    exact rcrWith_run (w := .word) (BitVec.umod · 16) ha (readsCount hc) hword
      (rotations_lt .word c) hs
  | dword =>
    refine (congrArg (Op.run · vm) (if_neg hw.not_override)).trans ?_
    exact rcrWith_run (w := .dword) id ha (readsCount hc) hdword (rotations_lt .dword c) hs

end Select

end Qx86
