import Qx86.Foundation.Limbs
import Qx86.Machine.Variables
import Qx86.Properties.Arithmetic

namespace Qx86

open Foundation Halves Limbs Op Operations Register

/-- The operands of a multiplication by a limb: the accumulator pair, the factor, what is carried
from limb to limb, and the limbs. -/
inductive ProductPlace (κ : Type) where
  | accumulator
  | extension
  | factor
  | carry
  | limb (i : κ)
  deriving DecidableEq

variable {κ : Type} {w : ElementWidth}

/-- The six instructions that multiply a limb in its place and add what is carried. -/
structure LimbProduct (w : ElementWidth) (l : ProductPlace κ → ArgLocation) (i : κ) where
  load : Pipeline
  multiply : Pipeline
  add : Pipeline
  adc : Pipeline
  store : Pipeline
  carry : Pipeline
  loadTo : (load.args 0).location = l .accumulator
  loadFrom : (load.args 1).location = l (.limb i)
  multiplyWidth : multiply.HasWidth w
  multiplyBy : (multiply.args 0).location = l .factor
  addWidth : add.HasWidth w
  addTo : (add.args 0).location = l .accumulator
  addFrom : (add.args 1).location = l .carry
  adcWidth : adc.HasWidth w
  adcTo : (adc.args 0).location = l .extension
  adcZero : (adc.args 1).location = .immediate (.byte 0)
  storeTo : (store.args 0).location = l (.limb i)
  storeFrom : (store.args 1).location = l .accumulator
  carryTo : (carry.args 0).location = l .carry
  carryFrom : (carry.args 1).location = l .extension

variable {l : ProductPlace κ → ArgLocation} {i : κ} {vm : VM}
  {x : ProductPlace κ → BitVec w.operand.bits}

def LimbProduct.run (q : LimbProduct w l i) (vm : VM) : Outcome VMError Unit × VM :=
  runBind ((LogicFn.mov.logic q.load).run vm) fun _ t ↦
    runBind (((w.select .mul8bit .mulNativeWord).logic q.multiply).run t) fun _ t ↦
      runBind (runBind (((w.select .add8bit .addNativeWord).logic q.add).run t) fun _ ↦
          ((w.select .adc8bit .adcNativeWord).logic q.adc).run) fun _ t ↦
        runBind ((LogicFn.mov.logic q.store).run t) fun _ ↦ (LogicFn.mov.logic q.carry).run

def longProduct (q : (i : κ) → LimbProduct w l i) : List κ → VM → Outcome VMError Unit × VM
  | [], vm => (.ok (), vm)
  | i :: is, vm => runBind ((q i).run vm) fun _ ↦ longProduct q is

section Step

variable [DecidableEq κ] (hl : PairAt w l .accumulator .extension)

include hl

theorem PairAt.multiply (h : Variables w l x vm) {p : Pipeline} (hw : p.HasWidth w)
    (hp : (p.args 0).location = l .factor) :
    ∃ a b : BitVec w.operand.bits,
      Sets w l vm (Function.update (Function.update x .accumulator a) .extension b)
        (((w.select .mul8bit .mulNativeWord).logic p).run vm) ∧
      b.toNat * 2 ^ w.operand.bits + a.toNat = (x .accumulator).toNat * (x .factor).toNat := by
  have hfactor : vm.getArg (p.args 0).location = .ok (w.operand.sized (x .factor)) := by
    rw [hp]
    exact h.value _
  rw [mul_run hw hfactor, hl.accumulator_value h]
  refine ⟨_, _, hl.setPair h _ _ _, ?_⟩
  rw [← product_toNat]
  exact joined_halves _

/-- ADD and then ADC of zero add to a number of two limbs. -/
theorem LimbProduct.run_carry (q : LimbProduct w l i) (h : Variables w l x vm) :
    Sets w l vm (Function.update (Function.update x .accumulator (x .accumulator + x .carry))
        .extension (x .extension + BitVec.ofNat _ (decide (2 ^ w.operand.bits ≤
          (x .accumulator).toNat + (x .carry).toNat)).toNat))
      (runBind (((w.select .add8bit .addNativeWord).logic q.add).run vm) fun _ ↦
        ((w.select .adc8bit .adcNativeWord).logic q.adc).run) := by
  have hfirst : vm.getArg (q.add.args 0).location = .ok (w.operand.sized (x .accumulator)) := by
    rw [q.addTo]
    exact h.value _
  have hsecond : vm.SourceReads w (q.add.args 1).location (x .carry) := by
    rw [q.addFrom]
    exact .inl (h.value _)
  obtain ⟨t, ht, hsum⟩ := Sets.store (v := x .accumulator + x .carry) h (hl.writeable_low vm)
    (vm.flags.ofSum (x .accumulator) (x .carry))
  rw [← q.addTo] at ht
  rw [select_run (F := Operations.add) (fun _ ↦ rfl) (fun _ ↦ rfl) q.addWidth,
    add_run hfirst hsecond, stored_ok ht, runBind_ok]
  obtain ⟨u, hu, hvars, hkeep⟩ := hsum
  obtain rfl := (Prod.mk.inj hu).2
  -- ADC stores its first operand with the carry, and then again with what it adds.
  have hextension := hvars.value .extension
  rw [Function.update_of_ne (by simp), ← q.adcTo] at hextension
  obtain ⟨t₁, ht₁⟩ := (hl.writeable_high _).store (hvars.size _)
    (x .extension + (vm.flags.ofSum (x .accumulator) (x .carry)).carryIn w)
  have hvars₁ := hvars.store ht₁
  have hfirst₁ := hvars₁.value .extension
  rw [Function.update_self, ← q.adcTo] at hfirst₁
  have hzero : t₁.SourceReads w (q.adc.args 1).location 0 := by
    rw [q.adcZero]
    refine .inr ⟨0, rfl, ?_⟩
    cases w <;> rfl
  obtain ⟨t₂, ht₂, hset⟩ := Sets.store
    (v := x .extension + (vm.flags.ofSum (x .accumulator) (x .carry)).carryIn w + 0) hvars₁
    (hl.writeable_high t₁) (t₁.flags.ofSum
      (x .extension + (vm.flags.ofSum (x .accumulator) (x .carry)).carryIn w) 0)
  have hkeep₁ := fun k hk ↦ hvars.writeable ht₁ (hkeep k hk)
  rw [← q.adcTo] at ht₁ ht₂
  rw [select_run (F := Operations.adc) (fun _ ↦ rfl) (fun _ ↦ rfl) q.adcWidth,
    adc_run hextension ht₁, add_run hfirst₁ hzero, stored_ok ht₂]
  obtain ⟨u, hu, hvars₂, hkeep₂⟩ := hset
  refine ⟨u, hu, ?_, fun k hk ↦ hkeep₂ k (hkeep₁ k hk)⟩
  rw [Function.update_idem, add_zero] at hvars₂
  exact hvars₂

structure Multiplied (i : κ) (x y : ProductPlace κ → BitVec w.operand.bits) : Prop where
  factor : y .factor = x .factor
  other : ∀ j, j ≠ i → y (.limb j) = x (.limb j)
  product : (y (.limb i)).toNat + 2 ^ w.operand.bits * (y .carry).toNat =
    (x (.limb i)).toNat * (x .factor).toNat + (x .carry).toNat

theorem LimbProduct.run_ok (q : LimbProduct w l i) (h : Variables w l x vm)
    (hwrite : vm.Writeable w (l (.limb i))) (hcarry : vm.Writeable w (l .carry)) :
    ∃ y, Sets w l vm y (q.run vm) ∧ Multiplied i x y := by
  refine (Sets.mov h q.loadTo q.loadFrom (hl.writeable_low vm)).bind fun t ht hload ↦ ?_
  obtain ⟨a, b, hset, hproduct⟩ := hl.multiply ht q.multiplyWidth q.multiplyBy
  refine hset.bind fun t ht hmul ↦ ?_
  refine (q.run_carry hl ht).bind fun t ht hadd ↦ ?_
  have hlimb := hadd _ (hmul _ (hload _ hwrite))
  have hnext := hadd _ (hmul _ (hload _ hcarry))
  refine (Sets.mov ht q.storeTo q.storeFrom hlimb).bind fun t ht hstore ↦ ?_
  refine ⟨_, Sets.mov ht q.carryTo q.carryFrom (hstore _ hnext), ?_, ?_, ?_⟩
  · simp
  · intro j hj
    simp [hj]
  · have hroom := product_carry_lt (x (.limb i)).isLt (x .factor).isLt (x .carry).isLt
    have htwo : b.toNat * 2 ^ w.operand.bits + a.toNat =
        (x (.limb i)).toNat * (x .factor).toNat := by simpa using hproduct
    rw [← htwo] at hroom ⊢
    simpa using add_limb_toNat hroom

end Step

theorem longProduct_multiplies [DecidableEq κ] (hl : PairAt w l .accumulator .extension)
    (q : (i : κ) → LimbProduct w l i) {is : List κ} (his : is.Nodup) (h : Variables w l x vm)
    (hwrite : ∀ i ∈ is, vm.Writeable w (l (.limb i))) (hcarry : vm.Writeable w (l .carry)) :
    ∃ y, Sets w l vm y (longProduct q is vm) ∧ y .factor = x .factor ∧
      (∀ j, j ∉ is → y (.limb j) = x (.limb j)) ∧
      value (is.map fun i ↦ y (.limb i)) +
          2 ^ (w.operand.bits * is.length) * (y .carry).toNat =
        value (is.map fun i ↦ x (.limb i)) * (x .factor).toNat + (x .carry).toNat := by
  induction is generalizing vm x with
  | nil => exact ⟨x, ⟨vm, rfl, h, fun _ hk ↦ hk⟩, rfl, fun _ _ ↦ rfl, by simp⟩
  | cons i is ih =>
    obtain ⟨hi, his⟩ := List.nodup_cons.mp his
    obtain ⟨z, hrun, hz⟩ := (q i).run_ok hl h (hwrite i List.mem_cons_self) hcarry
    refine hrun.bind fun u hu hkeep ↦ ?_
    obtain ⟨y, hy, hfactor, hother, hproduct⟩ := ih his hu
      (fun j hj ↦ hkeep _ (hwrite j (List.mem_cons_of_mem i hj))) (hkeep _ hcarry)
    have hsame : (is.map fun j ↦ z (.limb j)) = is.map fun j ↦ x (.limb j) := by
      refine List.map_congr_left fun j hj ↦ hz.other j ?_
      rintro rfl
      exact hi hj
    rw [hsame, hz.factor] at hproduct
    refine ⟨y, hy, hfactor.trans hz.factor, ?_, ?_⟩
    · intro j hj
      rw [List.mem_cons, not_or] at hj
      obtain ⟨hji, hjs⟩ := hj
      exact (hother j hjs).trans (hz.other j hji)
    · rw [List.map_cons, List.map_cons, value_cons, value_cons, hother i hi]
      have hstep := longProduct_step (is.map fun j ↦ y (.limb j)) (is.map fun j ↦ x (.limb j))
        (by simp) hz.product (by simpa using hproduct)
      simpa using hstep

/-- Multiplication of a number of any length by a limb, in its place, is exact: the ADC never adds
its carry to a limb that is all ones. -/
theorem longProduct_exact [DecidableEq κ] (w : ElementWidth) (l : ProductPlace κ → ArgLocation)
    (hl : PairAt w l .accumulator .extension) (q : (i : κ) → LimbProduct w l i) (is : List κ)
    (his : is.Nodup) (vm : VM) (x : ProductPlace κ → BitVec w.operand.bits)
    (h : Variables w l x vm) (hwrite : ∀ i ∈ is, vm.Writeable w (l (.limb i)))
    (hcarry : vm.Writeable w (l .carry)) :
    ∃ t y, longProduct q is vm = (.ok (), t) ∧ Variables w l y t ∧ y .factor = x .factor ∧
      (∀ j, j ∉ is → y (.limb j) = x (.limb j)) ∧
      value (is.map fun i ↦ y (.limb i)) =
        (value (is.map fun i ↦ x (.limb i)) * (x .factor).toNat + (x .carry).toNat) %
          2 ^ (w.operand.bits * is.length) ∧
      (y .carry).toNat =
        (value (is.map fun i ↦ x (.limb i)) * (x .factor).toNat + (x .carry).toNat) /
          2 ^ (w.operand.bits * is.length) := by
  obtain ⟨y, ⟨t, ht, hy, -⟩, hfactor, hother, hproduct⟩ :=
    longProduct_multiplies hl q his h hwrite hcarry
  have hlt := value_lt (is.map fun i ↦ y (.limb i))
  rw [List.length_map] at hlt
  obtain ⟨hdiv, hmod⟩ := (Nat.div_mod_unique (Nat.two_pow_pos _)).mpr ⟨hproduct, hlt⟩
  exact ⟨t, y, ht, hy, hfactor, hother, hmod.symm, hdiv.symm⟩

def productRegister : ProductPlace Bool → Register
  | .accumulator => eax
  | .extension => edx
  | .factor => ecx
  | .carry => edi
  | .limb false => ebx
  | .limb true => esi

def registerProduct (i : Bool) :
    LimbProduct .dword (fun k ↦ .registerValue (productRegister k) .dword) i where
  load := operandSlot false
    ![.registerValue eax .dword, .registerValue (productRegister (.limb i)) .dword, .none]
  multiply := operandSlot false ![.registerValue ecx .dword, .none, .none]
  add := operandSlot false ![.registerValue eax .dword, .registerValue edi .dword, .none]
  adc := operandSlot false ![.registerValue edx .dword, .immediate (.byte 0), .none]
  store := operandSlot false
    ![.registerValue (productRegister (.limb i)) .dword, .registerValue eax .dword, .none]
  carry := operandSlot false ![.registerValue edi .dword, .registerValue edx .dword, .none]
  loadTo := rfl
  loadFrom := rfl
  multiplyWidth := rfl
  multiplyBy := rfl
  addWidth := rfl
  addTo := rfl
  addFrom := rfl
  adcWidth := rfl
  adcTo := rfl
  adcZero := rfl
  storeTo := rfl
  storeFrom := rfl
  carryTo := rfl
  carryFrom := rfl

def productMachine : VM :=
  { createVm ⟨List.replicate 16 0, zeros_nonempty⟩ with
    regs := fun r ↦ if r = edi then 7 else if r = eax then 0 else if r = edx then 0
      else 0xFFFFFFFF }

theorem longProduct_exact_allOnes : ∃ t,
    longProduct registerProduct [false, true] productMachine = (.ok (), t) ∧
      t.reg32 ebx = 8 ∧ t.reg32 esi = 0xFFFFFFFF ∧ t.reg32 edi = 0xFFFFFFFE := by
  have hr : Function.Injective productRegister := by
    intro i j h
    revert h
    rcases i with _ | _ | _ | _ | _ | _ <;> rcases j with _ | _ | _ | _ | _ | _ <;> decide
  have h : Variables .dword (fun k ↦ .registerValue (productRegister k) .dword)
      (fun k ↦ productMachine.reg32 (productRegister k)) productMachine :=
    .registers hr fun _ ↦ rfl
  obtain ⟨t, y, ht, hy, -, -, hproduct, hcarry⟩ := longProduct_exact .dword _ ⟨rfl, rfl⟩
    registerProduct [false, true] (by decide) productMachine _ h (fun _ _ ↦ ⟨_, rfl⟩) ⟨_, rfl⟩
  have hread : ∀ k, t.reg32 (productRegister k) = y k := fun k ↦
    SizedValue.dword.inj (Except.ok.inj (hy.value k))
  have hlimbs : [y (.limb false), y (.limb true)] = [8#32, 0xFFFFFFFF#32] :=
    value_injective rfl (hproduct.trans (by decide))
  obtain ⟨hlow, hhigh⟩ := List.cons.inj hlimbs
  refine ⟨t, ht, (hread (.limb false)).trans hlow, ?_, ?_⟩
  · exact (hread (.limb true)).trans (List.cons.inj hhigh).1
  · exact (hread .carry).trans (BitVec.eq_of_toNat_eq hcarry)

end Qx86
