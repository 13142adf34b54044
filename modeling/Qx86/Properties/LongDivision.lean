import Qx86.Foundation.Limbs
import Qx86.Machine.Variables
import Qx86.Properties.Products

namespace Qx86

open Foundation Halves Limbs Op Operations Register

/-- The operands of a division by a limb: the accumulator pair, the divisor, and the limbs. -/
inductive DivisionPlace (κ : Type) where
  | accumulator
  | extension
  | divisor
  | limb (i : κ)
  deriving DecidableEq

variable {κ : Type} {w : ElementWidth}

/-- The three instructions that divide a limb in its place. -/
structure LimbDivision (w : ElementWidth) (l : DivisionPlace κ → ArgLocation) (i : κ) where
  load : Pipeline
  divide : Pipeline
  store : Pipeline
  loadTo : (load.args 0).location = l .accumulator
  loadFrom : (load.args 1).location = l (.limb i)
  width : divide.HasWidth w
  divideBy : (divide.args 0).location = l .divisor
  storeTo : (store.args 0).location = l (.limb i)
  storeFrom : (store.args 1).location = l .accumulator

variable {l : DivisionPlace κ → ArgLocation} {i : κ} {vm : VM}
  {x : DivisionPlace κ → BitVec w.operand.bits}

def LimbDivision.run (q : LimbDivision w l i) (vm : VM) : Outcome VMError Unit × VM :=
  runBind ((LogicFn.mov.logic q.load).run vm) fun _ t ↦
    runBind (((w.select .div8bit .divNativeWord).logic q.divide).run t) fun _ u ↦
      (LogicFn.mov.logic q.store).run u

def longDivision (q : (i : κ) → LimbDivision w l i) : List κ → VM → Outcome VMError Unit × VM
  | [], vm => (.ok (), vm)
  | i :: is, vm => runBind ((q i).run vm) fun _ ↦ longDivision q is

section Step

variable [DecidableEq κ] (hl : PairAt w l .accumulator .extension)

include hl

/-- DIV fails unless the high half is less than the divisor. -/
theorem PairAt.divide (h : Variables w l x vm) {p : Pipeline} (hw : p.HasWidth w)
    (hp : (p.args 0).location = l .divisor) :
    ((x .extension).toNat < (x .divisor).toNat → ∃ a b : BitVec w.operand.bits,
      Sets w l vm (Function.update (Function.update x .accumulator a) .extension b)
        (((w.select .div8bit .divNativeWord).logic p).run vm) ∧
      a.toNat * (x .divisor).toNat + b.toNat =
        (x .extension).toNat * 2 ^ w.operand.bits + (x .accumulator).toNat ∧
      b.toNat < (x .divisor).toNat) ∧
    ((x .divisor).toNat ≤ (x .extension).toNat →
      ((w.select .div8bit .divNativeWord).logic p).run vm = (.err .divideByZero, vm)) := by
  have hdivisor : vm.getArg (p.args 0).location = .ok (w.operand.sized (x .divisor)) := by
    rw [hp]
    exact h.value _
  have hdiv := div_divides hw hdivisor
  have hjoined : joined (vm.extension w) (vm.accumulator w) =
      (x .extension).toNat * 2 ^ w.operand.bits + (x .accumulator).toNat := by
    rw [hl.extension_value h, hl.accumulator_value h]
    rfl
  have hfails : (((w.select .div8bit .divNativeWord).logic p).run vm).1 = .err .divideByZero ↔
      (x .divisor).toNat ≤ (x .extension).toNat := by
    rw [hdiv.fails_iff, hjoined, Words.eq_zero_iff_toNat]
    exact quotient_overflows_iff (x .accumulator).isLt
  constructor
  · intro hlt
    obtain ⟨a, b, hrun, hsum, hb⟩ := hdiv.quotient (mt hfails.mp (Nat.not_le.mpr hlt))
    rw [hrun]
    exact ⟨a, b, hl.setPair h a b _, hsum.symm.trans hjoined, hb⟩
  · intro hle
    have herr := hfails.mpr hle
    exact Prod.ext herr (hdiv.unchanged herr)

structure Divided (i : κ) (x y : DivisionPlace κ → BitVec w.operand.bits) : Prop where
  divisor : y .divisor = x .divisor
  other : ∀ j, j ≠ i → y (.limb j) = x (.limb j)
  quotient : (y (.limb i)).toNat * (x .divisor).toNat + (y .extension).toNat =
    (x .extension).toNat * 2 ^ w.operand.bits + (x (.limb i)).toNat
  remainder : (y .extension).toNat < (x .divisor).toNat

theorem LimbDivision.run_ok (q : LimbDivision w l i) (h : Variables w l x vm)
    (hwrite : vm.Writeable w (l (.limb i))) (hlt : (x .extension).toNat < (x .divisor).toNat) :
    ∃ y, Sets w l vm y (q.run vm) ∧ Divided i x y := by
  refine (Sets.mov h q.loadTo q.loadFrom (hl.writeable_low vm)).bind fun t ht hkeep ↦ ?_
  obtain ⟨a, b, hdiv, hsum, hb⟩ := (hl.divide ht q.width q.divideBy).1 (by simpa using hlt)
  refine hdiv.bind fun u hu hkeep' ↦ ?_
  have hwrite' := hkeep' _ (hkeep _ hwrite)
  refine ⟨_, Sets.mov hu q.storeTo q.storeFrom hwrite', ?_, ?_, ?_, ?_⟩
  · simp
  · intro j hj
    simp [hj]
  · simpa using hsum
  · simpa using hb

theorem LimbDivision.run_err (q : LimbDivision w l i) (h : Variables w l x vm)
    (hle : (x .divisor).toNat ≤ (x .extension).toNat) : (q.run vm).1 = .err .divideByZero := by
  obtain ⟨t, hrun, ht, -⟩ := Sets.mov h q.loadTo q.loadFrom (hl.writeable_low vm)
  have hdiv := (hl.divide ht q.width q.divideBy).2 (by simpa using hle)
  rw [LimbDivision.run, hrun, runBind_ok, hdiv, runBind_err]

end Step

theorem longDivision_divides [DecidableEq κ] (hl : PairAt w l .accumulator .extension)
    (q : (i : κ) → LimbDivision w l i) {is : List κ} (his : is.Nodup) (h : Variables w l x vm)
    (hwrite : ∀ i ∈ is, vm.Writeable w (l (.limb i)))
    (hlt : (x .extension).toNat < (x .divisor).toNat) :
    ∃ y, Sets w l vm y (longDivision q is vm) ∧ y .divisor = x .divisor ∧
      (∀ j, j ∉ is → y (.limb j) = x (.limb j)) ∧
      value (is.map fun i ↦ y (.limb i)).reverse * (x .divisor).toNat + (y .extension).toNat =
        (x .extension).toNat * 2 ^ (w.operand.bits * is.length) +
          value (is.map fun i ↦ x (.limb i)).reverse ∧
      (y .extension).toNat < (x .divisor).toNat := by
  induction is generalizing vm x with
  | nil => exact ⟨x, ⟨vm, rfl, h, fun _ hk ↦ hk⟩, rfl, fun _ _ ↦ rfl, by simp, hlt⟩
  | cons i is ih =>
    obtain ⟨hi, his⟩ := List.nodup_cons.mp his
    obtain ⟨z, hrun, hz⟩ := (q i).run_ok hl h (hwrite i List.mem_cons_self) hlt
    refine hrun.bind fun u hu hkeep ↦ ?_
    have hlt' : (z .extension).toNat < (z .divisor).toNat := by
      rw [hz.divisor]
      exact hz.remainder
    obtain ⟨y, hy, hdivisor, hother, hquotient, hremainder⟩ := ih his hu
      (fun j hj ↦ hkeep _ (hwrite j (List.mem_cons_of_mem i hj))) hlt'
    rw [hz.divisor] at hdivisor hquotient hremainder
    have hsame : (is.map fun j ↦ z (.limb j)) = is.map fun j ↦ x (.limb j) := by
      refine List.map_congr_left fun j hj ↦ hz.other j ?_
      rintro rfl
      exact hi hj
    rw [hsame] at hquotient
    refine ⟨y, hy, hdivisor, ?_, ?_, hremainder⟩
    · intro j hj
      rw [List.mem_cons, not_or] at hj
      obtain ⟨hji, hjs⟩ := hj
      exact (hother j hjs).trans (hz.other j hji)
    · rw [List.map_cons, List.map_cons, List.reverse_cons, List.reverse_cons, value_append,
        value_append, hother i hi]
      have hstep := longDivision_step (is.map fun j ↦ y (.limb j)).reverse
        (is.map fun j ↦ x (.limb j)).reverse (by simp) hz.quotient (by simpa using hquotient)
      simpa using hstep

/-- Division of a number of any length by a limb, in its place and from the top. -/
theorem longDivision_exact [DecidableEq κ] (w : ElementWidth) (l : DivisionPlace κ → ArgLocation)
    (hl : PairAt w l .accumulator .extension) (q : (i : κ) → LimbDivision w l i) (is : List κ)
    (his : is.Nodup) (vm : VM) (x : DivisionPlace κ → BitVec w.operand.bits)
    (h : Variables w l x vm)
    (hwrite : ∀ i ∈ is, vm.Writeable w (l (.limb i))) (hne : is ≠ []) :
    ((x .extension).toNat < (x .divisor).toNat → ∃ t y,
      longDivision q is.reverse vm = (.ok (), t) ∧ Variables w l y t ∧
      y .divisor = x .divisor ∧ (∀ j, j ∉ is → y (.limb j) = x (.limb j)) ∧
      value (is.map fun i ↦ y (.limb i)) =
        ((x .extension).toNat * 2 ^ (w.operand.bits * is.length) +
          value (is.map fun i ↦ x (.limb i))) / (x .divisor).toNat ∧
      (y .extension).toNat = ((x .extension).toNat * 2 ^ (w.operand.bits * is.length) +
          value (is.map fun i ↦ x (.limb i))) % (x .divisor).toNat) ∧
    ((x .divisor).toNat ≤ (x .extension).toNat →
      (longDivision q is.reverse vm).1 = .err .divideByZero) := by
  constructor
  · intro hlt
    obtain ⟨y, ⟨t, ht, hy, -⟩, hdivisor, hother, hquotient, hremainder⟩ :=
      longDivision_divides hl q (List.nodup_reverse.mpr his) h
        (fun i hi ↦ hwrite i (List.mem_reverse.mp hi)) hlt
    rw [List.map_reverse, List.map_reverse, List.reverse_reverse, List.reverse_reverse,
      List.length_reverse] at hquotient
    rw [Nat.add_comm, Nat.mul_comm] at hquotient
    obtain ⟨hdiv, hmod⟩ :=
      (Nat.div_mod_unique (Nat.zero_lt_of_lt hlt)).mpr ⟨hquotient, hremainder⟩
    refine ⟨t, y, ht, hy, hdivisor, fun j hj ↦ hother j (mt List.mem_reverse.mp hj), ?_, ?_⟩
    · exact hdiv.symm
    · exact hmod.symm
  · intro hle
    obtain ⟨i, is', hi⟩ := List.exists_cons_of_ne_nil (mt List.reverse_eq_nil_iff.mp hne)
    have herr := (q i).run_err hl h hle
    rw [hi, longDivision]
    rcases hr : (q i).run vm with ⟨o, t⟩
    rw [hr] at herr
    cases herr
    rfl

def divisionRegister : DivisionPlace Bool → Register
  | .accumulator => eax
  | .extension => edx
  | .divisor => ecx
  | .limb false => ebx
  | .limb true => esi

def divideByEcx : Pipeline := operandSlot false ![.registerValue ecx .dword, .none, .none]

def registerDivision (i : Bool) :
    LimbDivision .dword (fun k ↦ .registerValue (divisionRegister k) .dword) i where
  load := operandSlot false
    ![.registerValue eax .dword, .registerValue (divisionRegister (.limb i)) .dword, .none]
  divide := divideByEcx
  store := operandSlot false
    ![.registerValue (divisionRegister (.limb i)) .dword, .registerValue eax .dword, .none]
  loadTo := rfl
  loadFrom := rfl
  width := rfl
  divideBy := rfl
  storeTo := rfl
  storeFrom := rfl

def dividendMachine : VM :=
  { createVm ⟨List.replicate 16 0, zeros_nonempty⟩ with
    regs := fun r ↦ if r = ecx then 10 else if r = ebx then 5 else if r = esi then 7 else 0 }

theorem longDivision_exact_byTen : ∃ t,
    longDivision registerDivision [true, false] dividendMachine = (.ok (), t) ∧
      t.reg32 ebx = 3006477107 ∧ t.reg32 esi = 0 ∧ t.reg32 edx = 7 := by
  have hr : Function.Injective divisionRegister := by
    intro i j h
    revert h
    rcases i with _ | _ | _ | _ | _ <;> rcases j with _ | _ | _ | _ | _ <;> decide
  have h : Variables .dword (fun k ↦ .registerValue (divisionRegister k) .dword)
      (fun k ↦ dividendMachine.reg32 (divisionRegister k)) dividendMachine :=
    .registers hr fun _ ↦ rfl
  obtain ⟨t, y, ht, hy, -, -, hquotient, hremainder⟩ := (longDivision_exact .dword _ ⟨rfl, rfl⟩
    registerDivision [false, true] (by decide) dividendMachine _ h (fun _ _ ↦ ⟨_, rfl⟩)
    (by decide)).1 (by decide)
  have hread : ∀ k, t.reg32 (divisionRegister k) = y k := fun k ↦
    SizedValue.dword.inj (Except.ok.inj (hy.value k))
  have hlimbs : [y (.limb false), y (.limb true)] = [3006477107#32, 0#32] :=
    value_injective rfl (hquotient.trans (by decide))
  obtain ⟨hlow, hhigh⟩ := List.cons.inj hlimbs
  refine ⟨t, ht, (hread (.limb false)).trans hlow, ?_, ?_⟩
  · exact (hread (.limb true)).trans (List.cons.inj hhigh).1
  · exact (hread .extension).trans (BitVec.eq_of_toNat_eq hremainder)

end Qx86
