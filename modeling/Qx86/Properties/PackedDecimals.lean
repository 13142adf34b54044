import Qx86.Foundation.Decimal
import Qx86.Properties.Arithmetic

namespace Qx86

open Foundation Limbs Decimal Op Operations Register

variable {e : Effects} {p q : Pipeline} {vm t : VM} {f : X86Flags} {x y : BitVec 8}

def VM.withAl (vm : VM) (x : BitVec 8) (f : X86Flags) : VM :=
  { vm.setReg al (.byte x) with flags := f }

/-- An operand that is a byte whatever is in AL and in the flags. -/
def VM.Keeps (vm : VM) (l : ArgLocation) (y : BitVec 8) : Prop :=
  ∀ x f, (vm.withAl x f).getArg l = .ok (.byte y)

/-- One place of an addition: a byte of the first number, one of the second number, and the slot of
the instruction that adds it to AL. -/
structure DecimalPlace where
  augend : Packed
  addend : Packed
  slot : Pipeline

structure DecimalPlace.Ready (vm : VM) (d : DecimalPlace) : Prop where
  first : (d.slot.args 0).location = .registerValue al .byte
  second : vm.Keeps (d.slot.args 1).location d.addend.byte

/-- The bytes of the first number loaded into AL one after the other, added to, adjusted, and taken
from there. -/
def decimalSum (first rest : LogicFn) (q : Pipeline) :
    List DecimalPlace → VM → Outcome VMError (List (BitVec 8)) × VM
  | [], vm => (.ok [], vm)
  | d :: ds, vm =>
    runBind ((first.logic d.slot).run (vm.setReg al (.byte d.augend.byte))) fun _ t ↦
      runBind ((LogicFn.daa.logic q).run t) fun _ u ↦
        runBind (decimalSum rest rest q ds u) fun bs v ↦ (.ok (u.reg8 al :: bs), v)

namespace VM

theorem setReg_withAl (vm : VM) (x : BitVec 8) (f : X86Flags) (x' : BitVec 8) :
    (vm.withAl x f).setReg al (.byte x') = vm.withAl x' f := by
  have h := setReg_setReg (w := .byte) vm al x x'
  rw [withAl, setReg_flags]
  exact congrArg (fun t ↦ { t with flags := f }) h

theorem withAl_withAl (vm : VM) (x : BitVec 8) (f : X86Flags) (x' : BitVec 8) (f' : X86Flags) :
    (vm.withAl x f).withAl x' f' = vm.withAl x' f' := by
  rw [withAl, setReg_withAl]
  rfl

theorem getArg_withAl (vm : VM) (x : BitVec 8) (f : X86Flags) :
    (vm.withAl x f).getArg (.registerValue al .byte) = .ok (.byte x) := by
  have h := getReg_setReg (w := .byte) vm al x
  exact (getArg_flags ..).trans (congrArg Except.ok h)

theorem reg8_withAl (vm : VM) (x : BitVec 8) (f : X86Flags) : (vm.withAl x f).reg8 al = x :=
  SizedValue.byte.inj (Except.ok.inj (getArg_withAl vm x f))

theorem setArg_withAl (vm : VM) (x : BitVec 8) (f : X86Flags) (x' : BitVec 8) :
    (vm.withAl x f).setArg (.registerValue al .byte) (.byte x') = .ok (vm.withAl x' f) :=
  congrArg Except.ok (setReg_withAl vm x f x')

end VM

section Step

theorem daa_run (q : Pipeline) (vm : VM) :
    ∃ g, (LogicFn.daa.logic q).run vm =
        (.ok (), vm.withAl (adjusted (vm.reg8 al) vm.flags.adjust vm.flags.carry).1 g) ∧
      g.carry = (adjusted (vm.reg8 al) vm.flags.adjust vm.flags.carry).2 := by
  by_cases hlow : 9 < vm.reg8 al &&& 0x0F ∨ vm.flags.adjust = true <;>
    by_cases hhigh : 0x99 < vm.reg8 al ∨ vm.flags.carry = true
  all_goals
    simp only [LogicFn.logic, daa, adjusted, hlow, hhigh, reduceIte, run_bind, run_reg8,
      run_flags, runBind_ok, setResultFlags, run_modifyFlags, run_pure, run_setReg, VM.setReg_flags]
    exact ⟨_, rfl, rfl⟩

variable {d : DecimalPlace}

theorem addByte_run (hfirst : (p.args 0).location = .registerValue al .byte)
    (hsecond : vm.Keeps (p.args 1).location y) (x : BitVec 8) (f : X86Flags) :
    (add width8 p : Op e Unit).run (vm.withAl x f) =
      (.ok (), vm.withAl (x + y) (f.ofSum x y)) := by
  have hx := vm.getArg_withAl x f
  have hset := vm.setArg_withAl x f (x + y)
  rw [← hfirst] at hx hset
  exact (add_run (w := .byte) hx (.inl (hsecond x f))).trans
    (stored_ok (t := vm.withAl (x + y) f) hset)

theorem adcByte_run (hfirst : (p.args 0).location = .registerValue al .byte)
    (hsecond : vm.Keeps (p.args 1).location y) (x : BitVec 8) (f : X86Flags) :
    (adc width8 p : Op e Unit).run (vm.withAl x f) =
      (.ok (), vm.withAl (x + BitVec.ofNat 8 f.carry.toNat + y)
        (f.ofSum (x + BitVec.ofNat 8 f.carry.toNat) y)) := by
  have hx := vm.getArg_withAl x f
  have hset := vm.setArg_withAl x f (x + BitVec.ofNat 8 f.carry.toNat)
  rw [← hfirst] at hx hset
  exact (adc_run (w := .byte) hx hset).trans (addByte_run hfirst hsecond _ f)

/-- The adjustment after a binary sum of packed digits leaves the decimal one. -/
theorem daa_sum (q : Pipeline) (vm : VM) (f : X86Flags) (c : Bool) (x y : Packed) :
    ∃ g, (LogicFn.daa.logic q).run (vm.withAl (x.byte + BitVec.ofNat 8 c.toNat + y.byte)
        (f.ofSum (x.byte + BitVec.ofNat 8 c.toNat) y.byte)) =
          (.ok (), vm.withAl (digitStep c (x, y)).1.byte g) ∧
      g.carry = (digitStep c (x, y)).2 := by
  have hsum := adjusted_sum c x y
  obtain ⟨g, hrun, hcarry⟩ := daa_run q
    (vm.withAl (x.byte + BitVec.ofNat 8 c.toNat + y.byte)
      (f.ofSum (x.byte + BitVec.ofNat 8 c.toNat) y.byte))
  rw [VM.reg8_withAl, VM.withAl_withAl] at hrun
  rw [VM.reg8_withAl] at hcarry
  refine ⟨g, hrun.trans ?_, hcarry.trans ?_⟩
  · exact congrArg (fun r ↦ (Outcome.ok (), vm.withAl r g)) (congrArg Prod.fst hsum)
  · exact congrArg Prod.snd hsum

end Step

section Run

variable {d : DecimalPlace} {ds : List DecimalPlace}

def DecimalPlace.digits (d : DecimalPlace) : Packed × Packed := (d.augend, d.addend)

theorem place_run (first : LogicFn) {c : Bool} (ds : List DecimalPlace) (q : Pipeline)
    (x : BitVec 8) (h : (first.logic d.slot).run (vm.withAl d.augend.byte f) =
      (.ok (), vm.withAl (d.augend.byte + BitVec.ofNat 8 c.toNat + d.addend.byte)
        (f.ofSum (d.augend.byte + BitVec.ofNat 8 c.toNat) d.addend.byte))) (rest : LogicFn) :
    ∃ g, decimalSum first rest q (d :: ds) (vm.withAl x f) =
        runBind (decimalSum rest rest q ds (vm.withAl (digitStep c d.digits).1.byte g))
          (fun bs v ↦ (.ok ((digitStep c d.digits).1.byte :: bs), v)) ∧
      g.carry = (digitStep c d.digits).2 := by
  obtain ⟨g, hrun, hcarry⟩ := daa_sum q vm f c d.augend d.addend
  refine ⟨g, ?_, hcarry⟩
  rw [decimalSum, VM.setReg_withAl, h, runBind_ok, hrun, runBind_ok, VM.reg8_withAl]
  rfl

theorem decimalSum_load (first rest : LogicFn) (vm : VM) (x : BitVec 8) :
    decimalSum first rest q (d :: ds) (vm.withAl x vm.flags) =
      decimalSum first rest q (d :: ds) vm := by
  rw [decimalSum, VM.setReg_withAl]
  rfl

theorem decimalSum_rest (hds : ∀ d ∈ ds, d.Ready vm) (x : BitVec 8) (f : X86Flags) :
    ∃ x' f', decimalSum .adc8bit .adc8bit q ds (vm.withAl x f) =
        (.ok ((ripple digitStep f.carry (ds.map DecimalPlace.digits)).1.map Packed.byte),
          vm.withAl x' f') ∧
      f'.carry = (ripple digitStep f.carry (ds.map DecimalPlace.digits)).2 := by
  induction ds generalizing x f with
  | nil => exact ⟨x, f, rfl, rfl⟩
  | cons d ds ih =>
    obtain ⟨hd, hds⟩ := List.forall_mem_cons.mp hds
    have hadc := adcByte_run (e := .straight) hd.first hd.second d.augend.byte f
    obtain ⟨g, hrun, hcarry⟩ := place_run .adc8bit ds q x hadc .adc8bit
    obtain ⟨x', f', hrest, hlast⟩ := ih hds (digitStep f.carry d.digits).1.byte g
    rw [hcarry] at hrest hlast
    refine ⟨x', f', ?_, hlast⟩
    rw [hrun, hrest]
    rfl

/-- Packed digits added byte by byte, ADD first and ADC then, each with DAA after it, are added as
numbers. -/
theorem decimalSum_exact (hne : ds ≠ []) (hds : ∀ d ∈ ds, d.Ready vm) (q : Pipeline) :
    ∃ zs x f, decimalSum .add8bit .adc8bit q ds vm =
        (.ok (zs.map Packed.byte), vm.withAl x f) ∧
      zs.length = ds.length ∧
      decimal zs = (decimal (ds.map DecimalPlace.augend) + decimal (ds.map DecimalPlace.addend)) %
        100 ^ ds.length ∧
      f.carry = decide (100 ^ ds.length ≤
        decimal (ds.map DecimalPlace.augend) + decimal (ds.map DecimalPlace.addend)) := by
  obtain ⟨d, ds, rfl⟩ := List.exists_cons_of_ne_nil hne
  obtain ⟨hd, hds⟩ := List.forall_mem_cons.mp hds
  have hadd : (add width8 d.slot : Op .straight Unit).run (vm.withAl d.augend.byte vm.flags) =
      (.ok (), vm.withAl (d.augend.byte + BitVec.ofNat 8 false.toNat + d.addend.byte)
        (vm.flags.ofSum (d.augend.byte + BitVec.ofNat 8 false.toNat) d.addend.byte)) := by
    have hzero : d.augend.byte + BitVec.ofNat 8 false.toNat = d.augend.byte := BitVec.add_zero _
    rw [hzero]
    exact addByte_run hd.first hd.second d.augend.byte vm.flags
  have hlist : ∀ ls : List DecimalPlace, ls.map DecimalPlace.augend =
      (ls.map DecimalPlace.digits).map Prod.fst ∧ ls.map DecimalPlace.addend =
        (ls.map DecimalPlace.digits).map Prod.snd := fun ls ↦ by simp [DecimalPlace.digits]
  obtain ⟨g, hrun, hcarry⟩ := place_run .add8bit ds q d.augend.byte hadd .adc8bit
  obtain ⟨x, f, hrest, hlast⟩ := decimalSum_rest (q := q) hds (digitStep false d.digits).1.byte g
  obtain ⟨hsum, hfinal⟩ := decimal_ripple ((d :: ds).map DecimalPlace.digits)
  rw [hcarry] at hrest hlast
  rw [hrest, decimalSum_load] at hrun
  rw [(hlist _).1, (hlist _).2]
  rw [List.length_map] at hsum hfinal
  refine ⟨(ripple digitStep false ((d :: ds).map DecimalPlace.digits)).1, x, f, ?_, ?_, hsum,
    hlast.trans hfinal⟩
  · exact hrun
  · rw [ripple_length, List.length_map]

def immediatePlace (x y : ℕ) : DecimalPlace where
  augend := .ofNat x
  addend := .ofNat y
  slot := operandSlot false
    ![.registerValue al .byte, .immediate (.byte (Packed.ofNat y).byte), .none]

theorem immediatePlace_ready (x y : ℕ) : (immediatePlace x y).Ready vm :=
  ⟨rfl, fun _ _ ↦ rfl⟩

/-- The last four digits of 4795 + 6578 are 1373, and there is a carry. -/
theorem decimalSum_exact_immediates :
    ∃ zs x f, decimalSum .add8bit .adc8bit default [immediatePlace 95 78, immediatePlace 47 65]
        (twoRegisters 0 0) = (.ok (zs.map Packed.byte), (twoRegisters 0 0).withAl x f) ∧
      zs.length = 2 ∧ decimal zs = 1373 ∧ f.carry = true := by
  have hready : ∀ d ∈ [immediatePlace 95 78, immediatePlace 47 65], d.Ready (twoRegisters 0 0) :=
    List.forall_mem_cons.mpr ⟨immediatePlace_ready 95 78,
      List.forall_mem_singleton.mpr (immediatePlace_ready 47 65)⟩
  obtain ⟨zs, x, f, hrun, hlength, hsum, hcarry⟩ :=
    decimalSum_exact (List.cons_ne_nil _ _) hready default
  refine ⟨zs, x, f, hrun, hlength, hsum.trans ?_, hcarry.trans ?_⟩
  · decide
  · decide

end Run

end Qx86
