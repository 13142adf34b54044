import Qx86.Foundation.Limbs
import Qx86.Properties.Arithmetic

namespace Qx86

open Foundation Op Operations Register Limbs

variable {w : ElementWidth} {p : Pipeline} {ps : List Pipeline} {vm t u : VM}
  {l : BitVec w.operand.bits × BitVec w.operand.bits}
  {ls : List (BitVec w.operand.bits × BitVec w.operand.bits)}

/-- A source operand that holds a limb: one of the width, or a byte that is sign-extended. -/
def VM.HoldsLimb (vm : VM) (w : ElementWidth) (l : ArgLocation) (y : BitVec w.operand.bits) :
    Prop :=
  vm.getArg l = .ok (w.operand.sized y) ∨
    ∃ v : BitVec 8, l = .immediate (.byte v) ∧ y = v.signExtend w.operand.bits

structure LimbSlot (vm : VM) (w : ElementWidth) (p : Pipeline)
    (l : BitVec w.operand.bits × BitVec w.operand.bits) : Prop where
  width : p.HasWidth w
  first : vm.getArg (p.args 0).location = .ok (w.operand.sized l.1)
  writeable : vm.Writeable w (p.args 0).location
  second : vm.HoldsLimb w (p.args 1).location l.2

/-- Two numbers, limb by limb, in operands that have nothing in common. -/
structure LimbSlots (vm : VM) (w : ElementWidth) (ps : List Pipeline)
    (ls : List (BitVec w.operand.bits × BitVec w.operand.bits)) : Prop where
  slots : List.Forall₂ (LimbSlot vm w) ps ls
  sources : ∀ p ∈ ps, ∀ q ∈ ps, vm.Separate w (p.args 0).location w (q.args 1).location
  destinations : ps.Pairwise fun p q ↦
    vm.Separate w (p.args 0).location w (q.args 0).location ∧
      vm.Separate w (q.args 0).location w (p.args 0).location

def carryChain (first rest : LogicFn) : List Pipeline → VM → Outcome VMError Unit × VM
  | [], vm => (.ok (), vm)
  | p :: ps, vm => runBind ((first.logic p).run vm) fun _ ↦ carryChain rest rest ps

def LeavesLimb (p : Pipeline) (w : ElementWidth) (vm : VM) (r : BitVec w.operand.bits × Bool)
    (o : Outcome VMError Unit × VM) : Prop :=
  ∃ t f, vm.setArg (p.args 0).location (w.operand.sized r.1) = .ok t ∧
    o = (.ok (), { t with flags := f }) ∧ f.carry = r.2

section Step

theorem VM.HoldsLimb.reads {k : ArgLocation} {y : BitVec w.operand.bits}
    (h : vm.HoldsLimb w k y) : vm.SourceReads w k y := by
  obtain h | ⟨v, rfl, rfl⟩ := h
  · exact .inl h
  · exact .inr ⟨v, rfl, rfl⟩

theorem VM.HoldsLimb.store {k k' : ArgLocation} {v y : BitVec w.operand.bits}
    (h : vm.HoldsLimb w k y) (hk' : k'.size = w.operand.size) (hs : vm.Separate w k' w k)
    (ht : vm.setArg k' (w.operand.sized v) = .ok t) : t.HoldsLimb w k y := by
  obtain h | h := h
  · refine .inl ?_
    rw [hs.getArg hk' (size_of_getArg h) ht]
    exact h
  · exact .inr h

variable (h : LimbSlot vm w p l)
  (hs : vm.Separate w (p.args 0).location w (p.args 1).location)

include h in
theorem add_leaves : LeavesLimb p w vm (earlySumStep false l)
    (((w.select .add8bit .addNativeWord).logic p).run vm) := by
  obtain ⟨x, y⟩ := l
  have hsize := size_of_getArg h.first
  obtain ⟨t, ht⟩ := h.writeable.store hsize (x + y)
  refine ⟨t, vm.flags.ofSum x y, ?_, ?_, ?_⟩
  · simpa [earlySumStep] using ht
  · rw [select_run (F := add) (fun _ ↦ rfl) (fun _ ↦ rfl) h.width,
      add_run h.first h.second.reads, stored_ok ht]
  · simp [earlySumStep, X86Flags.ofSum]

include h in
theorem sub_leaves : LeavesLimb p w vm (earlyDifferenceStep false l)
    (((w.select .sub8bit .subNativeWord).logic p).run vm) := by
  obtain ⟨x, y⟩ := l
  have hsize := size_of_getArg h.first
  obtain ⟨t, ht⟩ := h.writeable.store hsize (x - y)
  refine ⟨t, vm.flags.ofDifference x y, ?_, ?_, ?_⟩
  · simpa [earlyDifferenceStep] using ht
  · rw [select_run (F := sub) (fun _ ↦ rfl) (fun _ ↦ rfl) h.width,
      sub_run h.first h.second.reads, stored_ok ht]
  · simp [earlyDifferenceStep, X86Flags.ofDifference]

include h hs

theorem adc_leaves : LeavesLimb p w vm (earlySumStep vm.flags.carry l)
    (((w.select .adc8bit .adcNativeWord).logic p).run vm) := by
  obtain ⟨x, y⟩ := l
  have hsize := size_of_getArg h.first
  obtain ⟨t, ht⟩ := h.writeable.store hsize (x + vm.flags.carryIn w)
  obtain ⟨u, hu⟩ := h.writeable.store hsize (x + vm.flags.carryIn w + y)
  have hfirst := VM.getArg_setArg hsize ht
  have hsecond := h.second.store hsize hs ht
  have hu' := hu
  rw [← VM.setArg_setArg hsize ht] at hu'
  refine ⟨u, t.flags.ofSum (x + vm.flags.carryIn w) y, hu, ?_, ?_⟩
  · rw [select_run (F := adc) (fun _ ↦ rfl) (fun _ ↦ rfl) h.width, adc_run h.first ht,
      add_run hfirst hsecond.reads, stored_ok hu']
  · rfl

theorem sbb_leaves : LeavesLimb p w vm (earlyDifferenceStep vm.flags.carry l)
    (((w.select .sbb8bit .sbbNativeWord).logic p).run vm) := by
  obtain ⟨x, y⟩ := l
  have hsize := size_of_getArg h.first
  obtain ⟨t, ht⟩ := h.writeable.store hsize (x - vm.flags.carryIn w)
  obtain ⟨u, hu⟩ := h.writeable.store hsize (x - vm.flags.carryIn w - y)
  have hfirst := VM.getArg_setArg hsize ht
  have hsecond := h.second.store hsize hs ht
  have hu' := hu
  rw [← VM.setArg_setArg hsize ht] at hu'
  refine ⟨u, t.flags.ofDifference (x - vm.flags.carryIn w) y, hu, ?_, ?_⟩
  · rw [select_run (F := sbb) (fun _ ↦ rfl) (fun _ ↦ rfl) h.width, sbb_run h.first ht,
      sub_run hfirst hsecond.reads, stored_ok hu']
  · rfl

end Step

section Chain

variable {r : BitVec w.operand.bits × Bool} {rs : List (BitVec w.operand.bits) × Bool}
  {o : Outcome VMError Unit × VM} {k : VM → Outcome VMError Unit × VM}

/-- Steps that store limbs in the first operands of slots, leave a carry, and keep what is
separate. -/
structure LeavesLimbs (ps : List Pipeline) (w : ElementWidth) (vm : VM)
    (rs : List (BitVec w.operand.bits) × Bool) (t : VM) : Prop where
  limbs : List.Forall₂ (fun p r ↦ t.getArg (p.args 0).location = .ok (w.operand.sized r)) ps rs.1
  carry : t.flags.carry = rs.2
  frame : ∀ k : ArgLocation, k.size = w.operand.size →
    (∀ p ∈ ps, vm.Separate w (p.args 0).location w k) → t.getArg k = vm.getArg k

theorem LimbSlots.head (h : LimbSlots vm w (p :: ps) (l :: ls)) :
    LimbSlot vm w p l ∧ vm.Separate w (p.args 0).location w (p.args 1).location := by
  obtain ⟨hslot, -⟩ := List.forall₂_cons.mp h.slots
  exact ⟨hslot, h.sources p List.mem_cons_self p List.mem_cons_self⟩

theorem LimbSlots.store {v : BitVec w.operand.bits} (h : LimbSlots vm w (p :: ps) (l :: ls))
    (ht : vm.setArg (p.args 0).location (w.operand.sized v) = .ok t) (f : X86Flags) :
    LimbSlots { t with flags := f } w ps ls := by
  obtain ⟨hslot, hslots⟩ := List.forall₂_cons.mp h.slots
  obtain ⟨hdestinations, hpairs⟩ := List.pairwise_cons.mp h.destinations
  have hsize := size_of_getArg hslot.first
  have hfirst : ∀ q ∈ ps, ∀ r ∈ (q.args 0).location.addressedBy, t.regs r = vm.regs r := by
    intro q hq
    exact (hdestinations q hq).1.regs hsize ht
  have hsecond : ∀ q ∈ ps, ∀ r ∈ (q.args 1).location.addressedBy, t.regs r = vm.regs r := by
    intro q hq
    exact (h.sources p List.mem_cons_self q (List.mem_cons_of_mem p hq)).regs hsize ht
  refine ⟨?_, ?_, ?_⟩
  · refine List.forall₂_iff_get.mpr ?_
    obtain ⟨hlength, hget⟩ := List.forall₂_iff_get.mp hslots
    refine ⟨hlength, fun i hi hi' ↦ ?_⟩
    have hq := hget i hi hi'
    have hmem : ps.get ⟨i, hi⟩ ∈ ps := List.get_mem ..
    have hseparate := (hdestinations _ hmem).1
    refine ⟨hq.width, ?_, ?_, ?_⟩
    · rw [VM.getArg_flags, hseparate.getArg hsize (size_of_getArg hq.first) ht]
      exact hq.first
    · have hw := hseparate.writeable hsize (size_of_getArg hq.first) ht hq.writeable
      exact hw.congr (size_of_getArg hq.first) (.refl _)
        (ArgLocation.getArgLea_congr fun _ _ ↦ rfl)
    · have hsource := h.sources p List.mem_cons_self _ (List.mem_cons_of_mem p hmem)
      obtain hy | hy := hq.second.store hsize hsource ht
      · exact .inl ((VM.getArg_flags ..).trans hy)
      · exact .inr hy
  · intro q hq q' hq'
    have hqq' := h.sources q (List.mem_cons_of_mem p hq) q' (List.mem_cons_of_mem p hq')
    exact hqq'.congr (hfirst q hq) (hsecond q' hq')
  · refine hpairs.imp_of_mem ?_
    intro q q' hq hq' hqq'
    exact ⟨hqq'.1.congr (hfirst q hq) (hfirst q' hq'),
      hqq'.2.congr (hfirst q' hq') (hfirst q hq)⟩

theorem LeavesLimbs.cons (h : LimbSlots vm w (p :: ps) (l :: ls)) (ho : LeavesLimb p w vm r o)
    (hk : ∀ u, LimbSlots u w ps ls → u.flags.carry = r.2 →
      ∃ t, k u = (.ok (), t) ∧ LeavesLimbs ps w u rs t) :
    ∃ t, runBind o (fun _ ↦ k) = (.ok (), t) ∧
      LeavesLimbs (p :: ps) w vm (r.1 :: rs.1, rs.2) t := by
  obtain ⟨u, f, hu, rfl, hf⟩ := ho
  have hsize := size_of_getArg h.head.1.first
  obtain ⟨t, ht, hlimbs, hcarry, hframe⟩ := hk { u with flags := f } (h.store hu f) hf
  obtain ⟨hdestinations, -⟩ := List.pairwise_cons.mp h.destinations
  have hregs : ∀ q ∈ ps, ∀ r ∈ (q.args 0).location.addressedBy, u.regs r = vm.regs r := by
    intro q hq
    exact (hdestinations q hq).1.regs hsize hu
  refine ⟨t, ht, ?_, hcarry, ?_⟩
  · refine .cons ?_ hlimbs
    rw [hframe (p.args 0).location hsize, VM.getArg_flags]
    · exact VM.getArg_setArg hsize hu
    · intro q hq
      have haddress := VM.setArg_addressedBy hsize hu
      exact (hdestinations q hq).2.congr (hregs q hq) haddress
  · intro k hk hseparate
    have hp := hseparate p List.mem_cons_self
    rw [hframe k hk, VM.getArg_flags, hp.getArg hsize hk hu]
    intro q hq
    have hregs' : ∀ r ∈ k.addressedBy, u.regs r = vm.regs r := hp.regs hsize hu
    exact (hseparate q (List.mem_cons_of_mem p hq)).congr (hregs q hq) hregs'

variable {f first rest : LogicFn} {step : Bool → BitVec w.operand.bits × BitVec w.operand.bits →
  BitVec w.operand.bits × Bool}

theorem chain_leaves (hf : ∀ vm p l, LimbSlot vm w p l →
      vm.Separate w (p.args 0).location w (p.args 1).location →
      LeavesLimb p w vm (step vm.flags.carry l) ((f.logic p).run vm))
    (h : LimbSlots vm w ps ls) :
    ∃ t, carryChain f f ps vm = (.ok (), t) ∧
      LeavesLimbs ps w vm (ripple step vm.flags.carry ls) t := by
  induction ps generalizing vm ls with
  | nil =>
    cases h.slots
    exact ⟨vm, rfl, .nil, rfl, fun _ _ _ ↦ rfl⟩
  | cons p ps ih =>
    obtain _ | ⟨l, ls⟩ := ls
    · cases h.slots
    · obtain ⟨hslot, hseparate⟩ := h.head
      refine LeavesLimbs.cons h (hf vm p l hslot hseparate) fun u hu hcarry ↦ ?_
      rw [← hcarry]
      exact ih hu

theorem carryChain_leaves (step : Bool → BitVec w.operand.bits × BitVec w.operand.bits →
      BitVec w.operand.bits × Bool) (hfirst : ∀ vm p l, LimbSlot vm w p l →
      LeavesLimb p w vm (step false l) ((first.logic p).run vm))
    (hrest : ∀ vm p l, LimbSlot vm w p l →
      vm.Separate w (p.args 0).location w (p.args 1).location →
      LeavesLimb p w vm (step vm.flags.carry l) ((rest.logic p).run vm))
    (h : LimbSlots vm w (p :: ps) (l :: ls)) :
    ∃ t, carryChain first rest (p :: ps) vm = (.ok (), t) ∧
      LeavesLimbs (p :: ps) w vm (ripple step false (l :: ls)) t := by
  refine LeavesLimbs.cons h (hfirst vm p l h.head.1) fun u hu hcarry ↦ ?_
  rw [← hcarry]
  exact chain_leaves hrest hu

end Chain

def HoldsValue (t : VM) (w : ElementWidth) (ps : List Pipeline) (n : ℕ) : Prop :=
  ∃ rs, List.Forall₂ (fun p r ↦ t.getArg (p.args 0).location = .ok (w.operand.sized r)) ps rs ∧
    value rs = n

theorem LeavesLimbs.holdsValue_iff {rs : List (BitVec w.operand.bits) × Bool} {n : ℕ}
    (h : LeavesLimbs ps w vm rs t) : HoldsValue t w ps n ↔ value rs.1 = n := by
  constructor
  · rintro ⟨rs', hrs', rfl⟩
    have heq : rs.1 = rs' := by
      refine List.ext_get (h.limbs.length_eq.symm.trans hrs'.length_eq) fun i hi hi' ↦ ?_
      have hget := (List.forall₂_iff_get.mp h.limbs).2 i (h.limbs.length_eq ▸ hi) hi
      have hget' := (List.forall₂_iff_get.mp hrs').2 i (h.limbs.length_eq ▸ hi) hi'
      exact ElementWidth.sized_injective (Except.ok.inj (hget.symm.trans hget'))
    rw [heq]
  · intro hn
    exact ⟨rs.1, h.limbs, hn⟩

/-- Sums and differences of numbers of any length are exact, exactly if no carry goes into a
limb of the first number that is all ones, or no borrow into one that is zero. -/
theorem carryChain_exact_iff (w : ElementWidth) (p : Pipeline) (ps : List Pipeline) (vm : VM)
    (l : BitVec w.operand.bits × BitVec w.operand.bits)
    (ls : List (BitVec w.operand.bits × BitVec w.operand.bits))
    (h : LimbSlots vm w (p :: ps) (l :: ls)) :
    ((∃ t, carryChain (w.select .add8bit .addNativeWord) (w.select .adc8bit .adcNativeWord)
          (p :: ps) vm = (.ok (), t) ∧
        HoldsValue t w (p :: ps) ((Limbs.first (l :: ls) + Limbs.second (l :: ls)) %
          2 ^ (w.operand.bits * (l :: ls).length)) ∧
        t.flags.carry = decide (2 ^ (w.operand.bits * (l :: ls).length) ≤
          Limbs.first (l :: ls) + Limbs.second (l :: ls))) ↔
      ∀ i x, (l :: ls)[i]? = some x → x.1 = BitVec.allOnes _ →
        Limbs.first ((l :: ls).take i) + Limbs.second ((l :: ls).take i) <
          2 ^ (w.operand.bits * i)) ∧
    ((∃ t, carryChain (w.select .sub8bit .subNativeWord) (w.select .sbb8bit .sbbNativeWord)
          (p :: ps) vm = (.ok (), t) ∧
        (∃ n : ℕ, HoldsValue t w (p :: ps) n ∧
          (n : ℤ) = ((Limbs.first (l :: ls) : ℤ) - Limbs.second (l :: ls)) %
            2 ^ (w.operand.bits * (l :: ls).length)) ∧
        t.flags.carry = decide (Limbs.first (l :: ls) < Limbs.second (l :: ls))) ↔
      ∀ i x, (l :: ls)[i]? = some x → x.1 = 0#_ →
        Limbs.second ((l :: ls).take i) ≤ Limbs.first ((l :: ls).take i)) := by
  have hw : 0 < w.operand.bits := w.bits_pos
  constructor
  · rw [← earlySum_exact_iff hw]
    obtain ⟨t, ht, hleaves⟩ := carryChain_leaves earlySumStep
      (fun _ _ _ hslot ↦ add_leaves hslot) (fun _ _ _ hslot ↦ adc_leaves hslot) h
    constructor
    · rintro ⟨t', ht', hvalue, hcarry⟩
      rw [ht] at ht'
      cases ht'
      exact ⟨hleaves.holdsValue_iff.mp hvalue, hleaves.carry.symm.trans hcarry⟩
    · rintro ⟨hvalue, hcarry⟩
      exact ⟨t, ht, hleaves.holdsValue_iff.mpr hvalue, hleaves.carry.trans hcarry⟩
  · rw [← earlyDifference_exact_iff hw]
    obtain ⟨t, ht, hleaves⟩ := carryChain_leaves earlyDifferenceStep
      (fun _ _ _ hslot ↦ sub_leaves hslot) (fun _ _ _ hslot ↦ sbb_leaves hslot) h
    constructor
    · rintro ⟨t', ht', ⟨n, hvalue, hn⟩, hcarry⟩
      rw [ht] at ht'
      cases ht'
      rw [hleaves.holdsValue_iff.mp hvalue]
      exact ⟨hn, hleaves.carry.symm.trans hcarry⟩
    · rintro ⟨hvalue, hcarry⟩
      exact ⟨t, ht, ⟨_, hleaves.holdsValue_iff.mpr rfl, hvalue⟩, hleaves.carry.trans hcarry⟩

def twoLimbs (x : BitVec 32) : VM :=
  { createVm ⟨List.replicate 16 0, zeros_nonempty⟩ with
    regs := fun r ↦
      if r = eax then 0xFFFFFFFF else if r = ecx then x else if r = edx then 1 else 0 }

def lowLimb : Pipeline :=
  operandSlot false ![.registerValue eax .dword, .registerValue edx .dword, .none]

def highLimb : Pipeline :=
  operandSlot false ![.registerValue ecx .dword, .registerValue ebx .dword, .none]

theorem limbSlots_twoLimbs (x : BitVec 32) :
    LimbSlots (twoLimbs x) .dword [lowLimb, highLimb] [(0xFFFFFFFF, 1), (x, 0)] := by
  refine ⟨?_, ?_, ?_⟩
  · refine .cons ⟨rfl, rfl, ⟨_, rfl⟩, .inl rfl⟩ (.cons ⟨rfl, rfl, ⟨_, rfl⟩, .inl rfl⟩ .nil)
  · intro p hp q hq
    simp only [List.mem_cons, List.not_mem_nil, or_false] at hp hq
    obtain rfl | rfl := hp <;> obtain rfl | rfl := hq <;>
      exact ⟨.inl (by decide), fun _ h ↦ absurd h (List.not_mem_nil)⟩
  · refine .cons ?_ (List.pairwise_singleton ..)
    intro q hq
    cases List.mem_singleton.mp hq
    exact ⟨⟨.inl (by decide), fun _ h ↦ absurd h List.not_mem_nil⟩,
      ⟨.inl (by decide), fun _ h ↦ absurd h List.not_mem_nil⟩⟩

theorem carryChain_exact_iff_twoLimbs :
    ∃ t, carryChain .addNativeWord .adcNativeWord [lowLimb, highLimb] (twoLimbs 1) =
        (.ok (), t) ∧
      HoldsValue t .dword [lowLimb, highLimb] 0x200000000 ∧ t.flags.carry = false := by
  refine (carryChain_exact_iff .dword lowLimb [highLimb] (twoLimbs 1) (0xFFFFFFFF, 1) [(1, 0)]
    (limbSlots_twoLimbs 1)).1.mpr ?_
  intro i x hx hall
  match i with
  | 0 => decide
  | 1 =>
    cases hx
    cases hall
  | i + 2 => cases hx

/-- The carry out of 0xFFFFFFFFFFFFFFFF + 1 is lost. -/
theorem carryChain_lost :
    LimbSlots (twoLimbs 0xFFFFFFFF) .dword [lowLimb, highLimb]
        [(0xFFFFFFFF, 1), (0xFFFFFFFF, 0)] ∧
      ¬∃ t, carryChain .addNativeWord .adcNativeWord [lowLimb, highLimb] (twoLimbs 0xFFFFFFFF) =
          (.ok (), t) ∧
        HoldsValue t .dword [lowLimb, highLimb]
          ((Limbs.first [((0xFFFFFFFF : BitVec 32), 1), (0xFFFFFFFF, 0)] +
            Limbs.second [((0xFFFFFFFF : BitVec 32), 1), (0xFFFFFFFF, 0)]) % 2 ^ (32 * 2)) ∧
        t.flags.carry = decide (2 ^ (32 * 2) ≤
          Limbs.first [((0xFFFFFFFF : BitVec 32), 1), (0xFFFFFFFF, 0)] +
            Limbs.second [((0xFFFFFFFF : BitVec 32), 1), (0xFFFFFFFF, 0)]) := by
  refine ⟨limbSlots_twoLimbs _, ?_⟩
  rintro ⟨t, ht, -, hcarry⟩
  have hcode : (carryChain .addNativeWord .adcNativeWord [lowLimb, highLimb]
      (twoLimbs 0xFFFFFFFF)).2.flags.carry = false := by decide +kernel
  rw [ht] at hcode
  have hideal : decide (2 ^ (32 * 2) ≤
      Limbs.first [((0xFFFFFFFF : BitVec 32), 1), (0xFFFFFFFF, 0)] +
        Limbs.second [((0xFFFFFFFF : BitVec 32), 1), (0xFFFFFFFF, 0)]) = true := by decide
  rw [hideal, hcode] at hcarry
  cases hcarry

end Qx86
