import Qx86.Foundation.Bits
import Qx86.Machine.Arithmetic

namespace Qx86

open Foundation Words Bits BitManipulation Op Operations

variable {e : Effects} {w : ElementWidth} {p : Pipeline} {vm : VM} {a : BitVec w.operand.bits}

section Words

variable {n : ℕ} (x : BitVec n) {i : BitVec 8}

theorem getBit_eq (hi : i.toNat < n) : getBit x i = x.getLsbD i.toNat := by
  have hbit := and_twoPow_ne_zero x hi
  rw [getBit, wrappingShl_one hi, ← hbit, Bool.eq_iff_iff, decide_eq_true_iff, bne_iff_ne]
  exact zero_lt_iff_ne_zero _

theorem getBitBigEndian_eq (hn : n ≤ 256) {k : ℕ} (hk : k < n) :
    getBitBigEndian x (BitVec.ofNat 8 k) = x.getLsbD (n - 1 - k) := by
  have hindex : (BitVec.ofNat 8 (n - 1) - BitVec.ofNat 8 k).toNat = n - 1 - k := by
    rw [BitVec.toNat_sub_of_le, BitVec.toNat_ofNat, BitVec.toNat_ofNat,
      Nat.mod_eq_of_lt (by omega), Nat.mod_eq_of_lt (by omega)]
    rw [BitVec.le_def, BitVec.toNat_ofNat, BitVec.toNat_ofNat, Nat.mod_eq_of_lt (by omega),
      Nat.mod_eq_of_lt (by omega)]
    omega
  have hbit := and_twoPow_ne_zero x (i := n - 1 - k) (by omega)
  rw [getBitBigEndian, hindex, wrappingShl_one (by omega), ← hbit, Bool.eq_iff_iff,
    decide_eq_true_iff, bne_iff_ne]
  exact zero_lt_iff_ne_zero _

theorem getBitBigEndian_top (hn : 0 < n) (hn' : n ≤ 256) : getBitBigEndian x 0 = x.msb := by
  rw [BitVec.msb_eq_getLsbD_last]
  exact getBitBigEndian_eq x hn' hn

theorem setBit_eq (hi : i.toNat < n) (b : Bool) : setBit x i b = withBit x i.toNat b := by
  rw [setBit, withBit, wrappingShl_one hi, BitVec.allOnes_xor]

end Words

section Tests

theorem place_toNat (w : ElementWidth) (i : BitVec w.operand.bits) :
    ((i % BitVec.ofNat w.operand.bits w.operand.bits).setWidth 8).toNat =
      i.toNat % w.operand.bits := by
  have hbits : w.operand.bits < 256 := by cases w <;> decide
  have hself : w.operand.bits < 2 ^ w.operand.bits := Nat.lt_two_pow_self
  have hlt : i.toNat % w.operand.bits < w.operand.bits :=
    Nat.mod_lt _ (by cases w <;> decide)
  rw [BitVec.toNat_setWidth, BitVec.toNat_umod, BitVec.toNat_ofNat, Nat.mod_eq_of_lt hself]
  exact Nat.mod_eq_of_lt (by omega)

theorem bitTestWith_run {conv : SizedValue → Except VMError (BitVec w.operand.bits)}
    {i : BitVec w.operand.bits} (ha : vm.getArg (p.args 0).location = .ok (w.operand.sized a))
    (hi : vm.getArg (p.args 1).location >>= conv = .ok i) (f : Option (Bool → Bool)) :
    (bitTestWith w.operand conv f p : Op e Unit).run vm =
      match f with
      | none => (.ok (), { vm with flags :=
          { vm.flags with carry := a.getLsbD (i.toNat % w.operand.bits) } })
      | some f => vm.stored { vm.flags with carry := a.getLsbD (i.toNat % w.operand.bits) }
          (p.args 0).location (w.operand.sized (withBit a (i.toNat % w.operand.bits)
            (f (a.getLsbD (i.toNat % w.operand.bits))))) := by
  have hplace := place_toNat w i
  have hlt : ((i % BitVec.ofNat w.operand.bits w.operand.bits).setWidth 8).toNat <
      w.operand.bits := by
    rw [hplace]
    exact Nat.mod_lt _ (by cases w <;> decide)
  refine (run_readable (exact_destination ha) hi).trans ?_
  dsimp only
  rw [getBit_eq a hlt, hplace]
  cases f with
  | none => rfl
  | some f =>
    dsimp only
    rw [setBit_eq a hlt, hplace]
    rfl

end Tests

section Scans

variable (ha : vm.getArg (p.args 0).location = .ok (w.operand.sized a))

include ha

theorem bitScan_run (bit : {w : ℕ} → BitVec w → BitVec 8 → Bool)
    (index : {w : ℕ} → BitVec w → BitVec w) :
    (bitScan bit index w.operand p : Op e Unit).run vm =
      match (List.range w.operand.bits).find? fun i ↦ bit a (BitVec.ofNat 8 i) with
      | none => (.ok (), { vm with flags := { vm.flags with zero := true } })
      | some i => vm.stored { vm.flags with zero := false } (p.args 1).location
          (w.operand.sized (index (BitVec.ofNat w.operand.bits i))) := by
  rw [bitScan, run_bind, run_getArgAs, exact_destination ha, Outcome.ofExcept_ok, runBind_ok]
  cases (List.range w.operand.bits).find? fun i ↦ bit a (BitVec.ofNat 8 i) with
  | none => rfl
  | some i => rfl

theorem bitScanForward_run : (bitScan getBit id w.operand p : Op e Unit).run vm =
    (.ok (), { vm with flags := { vm.flags with zero := true } }) ∧ a = 0 ∨
      ∃ k < w.operand.bits, IsLeast (ones a) k ∧
        (bitScan getBit id w.operand p : Op e Unit).run vm =
          vm.stored { vm.flags with zero := false } (p.args 1).location
            (w.operand.sized (BitVec.ofNat w.operand.bits k)) := by
  have hbits : w.operand.bits < 256 := by cases w <;> decide
  have hbit : ∀ i < w.operand.bits, getBit a (BitVec.ofNat 8 i) = a.getLsbD i := by
    intro i hi
    have hindex : (BitVec.ofNat 8 i).toNat = i := Nat.mod_eq_of_lt (by omega)
    rw [getBit_eq a (by omega), hindex]
  rw [bitScan_run ha]
  cases h : (List.range w.operand.bits).find? fun i ↦ getBit a (BitVec.ofNat 8 i) with
  | none => exact .inl ⟨rfl, (find_none_iff id hbit fun j hj ↦ ⟨hj, rfl⟩).mp h⟩
  | some i =>
    obtain ⟨hlt, hleast⟩ := isLeast_of_find hbit h
    exact .inr ⟨i, hlt, hleast, rfl⟩

theorem bitScanReverse_run :
    (bitScan getBitBigEndian (fun {w} i ↦ BitVec.ofNat w (w - 1) - i) w.operand p :
        Op e Unit).run vm = (.ok (), { vm with flags := { vm.flags with zero := true } }) ∧
      a = 0 ∨ ∃ k < w.operand.bits, IsGreatest (ones a) k ∧
        (bitScan getBitBigEndian (fun {w} i ↦ BitVec.ofNat w (w - 1) - i) w.operand p :
            Op e Unit).run vm =
          vm.stored { vm.flags with zero := false } (p.args 1).location
            (w.operand.sized (BitVec.ofNat w.operand.bits k)) := by
  have hbits : w.operand.bits ≤ 256 := by cases w <;> decide
  have hbit : ∀ i < w.operand.bits, getBitBigEndian a (BitVec.ofNat 8 i) =
      a.getLsbD (w.operand.bits - 1 - i) := fun i hi ↦ getBitBigEndian_eq a hbits hi
  rw [bitScan_run ha]
  cases h : (List.range w.operand.bits).find? fun i ↦ getBitBigEndian a (BitVec.ofNat 8 i) with
  | none =>
    refine .inl ⟨rfl, (find_none_iff (w.operand.bits - 1 - ·) hbit ?_).mp h⟩
    intro j hj
    omega
  | some i =>
    obtain ⟨hlt, hgreatest⟩ := isGreatest_of_find hbit h
    refine .inr ⟨_, by omega, hgreatest, ?_⟩
    have hmirror : BitVec.ofNat w.operand.bits (w.operand.bits - 1) - BitVec.ofNat _ i =
        BitVec.ofNat _ (w.operand.bits - 1 - i) := by
      have hself : w.operand.bits < 2 ^ w.operand.bits := Nat.lt_two_pow_self
      exact BitVec.ofNat_sub_ofNat_of_le _ _ (by omega) (by omega)
    exact congrArg (fun v ↦ vm.stored _ _ (w.operand.sized v)) hmirror

end Scans

end Qx86
