import Qx86.Properties.Arithmetic
import Qx86.Properties.DecodedSlots

namespace Qx86

open Foundation Words Op Operations Register MemorySystem

structure VM.SameStore (t u : VM) : Prop where
  regs : t.regs = u.regs
  memory : t.memory = u.memory

def Leaves (o : Outcome VMError Unit × VM) (x : Except VMError VM) : Prop :=
  ∃ t u, o = (.ok (), t) ∧ x = .ok u ∧ t.SameStore u

/-- A store into an operand, at the address that it has in an earlier state. -/
def VM.storeAt (t vm : VM) (l : ArgLocation) (v : SizedValue) : Except VMError VM :=
  match vm.getArgLea l with
  | .ok a => t.setMem a v
  | .error _ => t.setArg l v

/-- A source operand that is the same after a store into the destination. -/
def SourceStays (vm : VM) (w : ElementWidth) (destination : ArgLocation) (v : BitVec w.operand.bits)
    (source : ArgLocation) (s : BitVec w.operand.bits) : Prop :=
  ∃ t, vm.setArg destination (w.operand.sized v) = .ok t ∧ t.SourceReads w source s

/-- A destination whose address is the same after a store into a register, or to which nothing is
added at an address that can be stored into. -/
def AddressStays (vm : VM) (w : ElementWidth) (destination : ArgLocation) (r : Register)
    (d : BitVec w.operand.bits) : Prop :=
  ∀ a a', vm.getArgLea destination = .ok a →
    (vm.setReg r (w.operand.sized d)).getArgLea destination = .ok a' →
      a' = a ∨ d = 0 ∧ ∃ t, vm.setMem a' (w.operand.sized 0) = .ok t

variable {w : ElementWidth} {p : Pipeline} {vm t : VM} {d s v : BitVec w.operand.bits}
  {o : Outcome VMError Unit × VM} {l k : ArgLocation}

section Carried

theorem VM.SameStore.getArg {u : VM} (h : t.SameStore u) (l : ArgLocation) :
    t.getArg l = u.getArg l := VM.getArg_congr h.regs h.memory l

theorem VM.SourceReads.size (h : vm.SourceReads w k s) :
    k.size = w.operand.size ∨ k.size = .byte := by
  obtain h | ⟨x, h, -⟩ := h
  · exact .inl (size_of_getArg h)
  · exact .inr (@size_of_getArg .byte vm x k h)

/-- A function that first stores in its destination, and then reads both operands again, is right
exactly if the source stays. -/
theorem carried_leaves_iff
    (op : BitVec w.operand.bits → BitVec w.operand.bits → BitVec w.operand.bits)
    (hop : ∀ b b', op v b = op v b' → b = b') (hs : vm.SourceReads w k s)
    (hl : l.size = w.operand.size) (ht : vm.setArg l (w.operand.sized v) = .ok t)
    (hread : ∀ b, t.SourceReads w k b → ∃ f, o = t.stored f l (w.operand.sized (op v b)))
    (hfail : ∀ x, t.getArg k = .error x → o = (.err x, t)) :
    Leaves o (vm.setArg l (w.operand.sized (op v s))) ↔ SourceStays vm w l v k s := by
  have hagain := VM.setArg_setArg hl ht
  have hwrite : ∀ b : BitVec w.operand.bits, ∃ u, vm.setArg l (w.operand.sized b) = .ok u := by
    intro b
    exact VM.setArg_writeable hl (.refl _) rfl ht
  constructor
  · rintro ⟨t', u, ho, hu, hsame⟩
    refine ⟨t, ht, ?_⟩
    obtain ⟨x, hx⟩ | ⟨b, hb⟩ := source_cases hs.size t
    · rw [hfail x hx] at ho
      cases ho
    · obtain ⟨f, hf⟩ := hread b hb
      obtain ⟨u', hu'⟩ := hwrite (op v b)
      rw [ho, stored_ok ((hagain _).trans hu')] at hf
      cases hf
      have hvalue := hsame.getArg l
      rw [VM.getArg_flags, VM.getArg_setArg hl hu', VM.getArg_setArg hl hu] at hvalue
      rw [← hop _ _ (ElementWidth.sized_injective (Except.ok.inj hvalue))]
      exact hb
  · rintro ⟨t', ht', hstays⟩
    rw [ht] at ht'
    cases ht'
    obtain ⟨f, hf⟩ := hread s hstays
    obtain ⟨u, hu⟩ := hwrite (op v s)
    rw [hf, stored_ok ((hagain _).trans hu), hu]
    exact ⟨_, _, rfl, rfl, rfl, rfl⟩

variable (hd : vm.getArg (p.args 0).location = .ok (w.operand.sized d))
  (hs : vm.SourceReads w (p.args 1).location s) (hw : vm.Writeable w (p.args 0).location)

include hd hs hw

theorem adc_leaves_iff : Leaves ((adc w.operand p : Op .straight Unit).run vm)
      (vm.setArg (p.args 0).location (w.operand.sized (d + (s + vm.flags.carryIn w)))) ↔
    SourceStays vm w (p.args 0).location (d + vm.flags.carryIn w) (p.args 1).location s := by
  have hl := size_of_getArg hd
  obtain ⟨t, ht⟩ := hw.store hl (d + vm.flags.carryIn w)
  have hfirst := VM.getArg_setArg hl ht
  rw [adc_run hd ht, add_comm s, ← add_assoc]
  refine carried_leaves_iff (· + ·) (fun b b' h ↦ (BitVec.add_right_inj _).mp h) hs hl ht ?_ ?_
  · intro b hb
    exact ⟨_, add_run hfirst hb⟩
  · intro x hx
    exact run_unreadable (.inr ⟨⟨_, exact_destination hfirst⟩, hx⟩)

theorem sbb_leaves_iff : Leaves ((sbb w.operand p : Op .straight Unit).run vm)
      (vm.setArg (p.args 0).location (w.operand.sized (d - (s + vm.flags.carryIn w)))) ↔
    SourceStays vm w (p.args 0).location (d - vm.flags.carryIn w) (p.args 1).location s := by
  have hl := size_of_getArg hd
  obtain ⟨t, ht⟩ := hw.store hl (d - vm.flags.carryIn w)
  have hfirst := VM.getArg_setArg hl ht
  rw [sbb_run hd ht, add_comm s, ← sub_sub]
  refine carried_leaves_iff (· - ·) (fun b b' h ↦ (BitVec.sub_right_inj _).mp h) hs hl ht ?_ ?_
  · intro b hb
    exact ⟨_, sub_run hfirst hb⟩
  · intro x hx
    exact run_unreadable (.inr ⟨⟨_, exact_destination hfirst⟩, hx⟩)

end Carried

section Exchanged

variable {r : Register}

theorem xadd_run {u : VM} (hd : vm.getArg (p.args 0).location = .ok (w.operand.sized d))
    (hr : (p.args 1).location = .registerValue r w.operand.size)
    (hs : vm.getReg r w.operand.size = w.operand.sized s)
    (hu : vm.setArg (p.args 0).location (w.operand.sized s) = .ok u) :
    (xadd w.operand p : Op .straight Unit).run vm =
      (add w.operand p : Op .straight Unit).run (u.setReg r (w.operand.sized d)) := by
  have hsource : vm.getArg (p.args 1).location = .ok (w.operand.sized s) := by
    rw [hr]
    exact congrArg Except.ok hs
  have hstore : u.setArg (p.args 1).location (w.operand.sized d) =
      .ok (u.setReg r (w.operand.sized d)) := by
    rw [hr]
    exact ArgLocation.setArg_register u r d
  simp only [xadd, xchg, run_bind, run_getArg, hd, hsource, Outcome.ofExcept_ok, runBind_ok,
    run_setArg, hu, hstore, storeResult]

theorem xadd_register {r₀ : Register} (hl : (p.args 0).location = .registerValue r₀ w.operand.size)
    (hd : vm.getReg r₀ w.operand.size = w.operand.sized d)
    (hr : (p.args 1).location = .registerValue r w.operand.size)
    (hs : vm.getReg r w.operand.size = w.operand.sized s) :
    ∃ f, (xadd w.operand p : Op .straight Unit).run vm =
      (.ok (), { (vm.setReg r (w.operand.sized d)).setReg r₀ (w.operand.sized (d + s)) with
        flags := f }) := by
  have hd' : vm.getArg (p.args 0).location = .ok (w.operand.sized d) := by
    rw [hl]
    exact congrArg Except.ok hd
  have hu : vm.setArg (p.args 0).location (w.operand.sized s) =
      .ok (vm.setReg r₀ (w.operand.sized s)) := by
    rw [hl]
    exact ArgLocation.setArg_register vm r₀ s
  have hsecond : VM.getArg ((vm.setReg r₀ (w.operand.sized s)).setReg r (w.operand.sized d))
      (p.args 1).location = .ok (w.operand.sized d) := by
    rw [hr]
    exact congrArg Except.ok (VM.getReg_setReg _ r d)
  have hfirst : VM.getArg ((vm.setReg r₀ (w.operand.sized s)).setReg r (w.operand.sized d))
      (p.args 0).location = .ok (w.operand.sized s) := by
    rw [hl]
    refine congrArg Except.ok ?_
    by_cases h : r₀ = r
    · subst h
      rw [← ElementWidth.sized_injective (hd.symm.trans hs)]
      exact VM.getReg_setReg _ r₀ d
    · rw [VM.setReg_comm vm h]
      exact VM.getReg_setReg _ r₀ s
  have hstore : VM.setArg ((vm.setReg r₀ (w.operand.sized s)).setReg r (w.operand.sized d))
      (p.args 0).location (w.operand.sized (s + d)) =
        .ok ((vm.setReg r (w.operand.sized d)).setReg r₀ (w.operand.sized (d + s))) := by
    rw [hl, ArgLocation.setArg_register, add_comm s d]
    by_cases h : r₀ = r
    · subst h
      rw [← ElementWidth.sized_injective (hd.symm.trans hs), VM.setReg_setReg]
    · rw [VM.setReg_comm vm h, VM.setReg_setReg]
  rw [xadd_run hd' hr hs hu, add_run hfirst (.inl hsecond), stored_ok hstore]
  exact ⟨_, rfl⟩

/-- An addition that finds its destination at another address than a sum that was stored. -/
theorem add_elsewhere_iff {i : VM} {a a' : BitVec 32}
    (hl : (p.args 0).location.size = w.operand.size)
    (ha' : t.getArgLea (p.args 0).location = .ok a')
    (hsecond : t.SourceReads w (p.args 1).location d)
    (hs : t.getMem a w.operand.size = .ok (w.operand.sized s))
    (hi : t.setMem a (w.operand.sized (s + d)) = .ok i) :
    Leaves ((add w.operand p : Op .straight Unit).run t) (.ok i) ↔
      a' = a ∨ d = 0 ∧ ∃ u, t.setMem a' (w.operand.sized 0) = .ok u := by
  have hread := ArgLocation.getArg_memory ha'
  rw [hl] at hread
  constructor
  · rintro ⟨t', i', ho, hi', hsame⟩
    cases hi'
    obtain ⟨x, hx⟩ | ⟨b, hb⟩ := destination_cases hl t
    · rw [add, run_unreadable (.inl hx)] at ho
      cases ho
    · rw [add_run hb hsecond] at ho
      obtain ⟨x, -, h⟩ | ⟨u, hu, h⟩ := stored_cases t (t.flags.ofSum b d) (p.args 0).location
        (w.operand.sized (b + d))
      · rw [h] at ho
        cases ho
      · rw [h] at ho
        cases ho
        rw [ArgLocation.setArg_memory ha' hl] at hu
        by_cases hzero : d = 0
        · exact .inr ⟨hzero, VM.setMem_writeable 0 (.refl _) hu⟩
        · rw [hread] at hb
          exact .inl (VM.setMem_add_injective hzero hb hs hu hi hsame.memory)
  · rintro (rfl | ⟨rfl, u, hu⟩)
    · have hwrite : t.setArg (p.args 0).location (w.operand.sized (s + d)) = .ok i := by
        rw [ArgLocation.setArg_memory ha' hl, hi]
      rw [add_run (hread.trans hs) hsecond, stored_ok hwrite]
      exact ⟨_, i, rfl, rfl, rfl, rfl⟩
    · obtain ⟨b, hb⟩ := VM.getMem_of_setMem hu
      have hwrite : t.setArg (p.args 0).location (w.operand.sized (b + 0)) = .ok t := by
        rw [ArgLocation.setArg_memory ha' hl, add_zero]
        exact VM.setMem_self hb hu
      have hkept : t = i := by
        rw [add_zero, VM.setMem_self hs hi] at hi
        exact Except.ok.inj hi
      rw [add_run (hread.trans hb) hsecond, stored_ok hwrite, ← hkept]
      exact ⟨_, t, rfl, rfl, rfl, rfl⟩

theorem xadd_memory_iff {a : BitVec 32} (ha : vm.getArgLea (p.args 0).location = .ok a)
    (hd : vm.getArg (p.args 0).location = .ok (w.operand.sized d))
    (hr : (p.args 1).location = .registerValue r w.operand.size)
    (hs : vm.getReg r w.operand.size = w.operand.sized s)
    (hw : vm.Writeable w (p.args 0).location) :
    Leaves ((xadd w.operand p : Op .straight Unit).run vm)
        ((vm.setReg r (w.operand.sized d)).setMem a (w.operand.sized (d + s))) ↔
      AddressStays vm w (p.args 0).location r d := by
  have hl := size_of_getArg hd
  obtain ⟨u, hu⟩ := hw.store hl s
  have hrun := xadd_run hd hr hs hu
  rw [ArgLocation.setArg_memory ha hl] at hu
  -- the state between the exchange and the addition
  obtain ⟨t, ht⟩ : ∃ t, t = u.setReg r (w.operand.sized d) := ⟨_, rfl⟩
  have hstore : (vm.setReg r (w.operand.sized d)).setMem a (w.operand.sized s) = .ok t := by
    rw [VM.setMem_setReg, hu, ht]
    rfl
  have hsections : SameSections vm.memory t.memory := by
    have h := VM.setMem_sameSections hstore
    rwa [VM.setReg_eq] at h
  obtain ⟨i, hi⟩ := VM.setMem_writeable (d + s) (.refl _) hstore
  have hagain : t.setMem a (w.operand.sized (s + d)) = .ok i := by
    rw [VM.setMem_setMem hstore, add_comm s d, hi]
  have hsecond : t.SourceReads w (p.args 1).location d := by
    refine .inl ?_
    rw [hr, ht]
    exact congrArg Except.ok (VM.getReg_setReg u r d)
  have haddress : t.getArgLea (p.args 0).location =
      (vm.setReg r (w.operand.sized d)).getArgLea (p.args 0).location := by
    obtain ⟨-, m, -, rfl⟩ := VM.setMem_ok hstore
    exact ArgLocation.getArgLea_congr fun _ _ ↦ rfl
  obtain ⟨a', ha'⟩ := ArgLocation.getArgLea_ok ha t
  rw [hrun, ← ht, hi, add_elsewhere_iff hl ha' hsecond (VM.getMem_setMem hstore) hagain]
  have hwriteable : (∃ u, t.setMem a' (w.operand.sized 0) = .ok u) ↔
      ∃ u, vm.setMem a' (w.operand.sized 0) = .ok u := by
    constructor
    · rintro ⟨u, hu⟩
      exact VM.setMem_writeable 0 hsections.symm hu
    · rintro ⟨u, hu⟩
      exact VM.setMem_writeable 0 hsections hu
  rw [hwriteable]
  constructor
  · intro h a₁ a₂ ha₁ ha₂
    cases ha.symm.trans ha₁
    rw [← haddress] at ha₂
    cases ha'.symm.trans ha₂
    exact h
  · intro hstays
    exact hstays a a' ha (haddress.symm.trans ha')

theorem xadd_leaves_iff (hd : vm.getArg (p.args 0).location = .ok (w.operand.sized d))
    (hr : (p.args 1).location = .registerValue r w.operand.size)
    (hs : vm.getReg r w.operand.size = w.operand.sized s)
    (hw : vm.Writeable w (p.args 0).location) :
    Leaves ((xadd w.operand p : Op .straight Unit).run vm)
        (VM.storeAt (vm.setReg r (w.operand.sized d)) vm (p.args 0).location
          (w.operand.sized (d + s))) ↔
      AddressStays vm w (p.args 0).location r d := by
  obtain ⟨x, hl⟩ | ⟨r₀, hl⟩ | ⟨a, ha⟩ := ArgLocation.kinds (size_of_getArg hd) vm
  · obtain ⟨t, ht⟩ := hw
    rw [hl] at ht
    cases ht
  · have hd' := hd
    rw [hl] at hd'
    obtain ⟨f, hf⟩ := xadd_register hl (Except.ok.inj hd') hr hs
    refine iff_of_true ?_ ?_
    · rw [hf, hl]
      exact ⟨_, _, rfl, ArgLocation.setArg_register _ r₀ (d + s), rfl, rfl⟩
    · intro a a' ha
      rw [hl] at ha
      cases ha
  · rw [VM.storeAt, ha]
    exact xadd_memory_iff ha hd hr hs hw

end Exchanged

section Stays

theorem not_sourceStays_self (hl : l.size = w.operand.size) (hv : v ≠ s) :
    ¬SourceStays vm w l v l s := by
  rintro ⟨t, ht, hs⟩
  exact hv (hs.unique (.inl (VM.getArg_setArg hl ht))).symm

theorem sourceStays_of_separate (hl : l.size = w.operand.size) (hw : vm.Writeable w l)
    (hs : vm.getArg k = .ok (w.operand.sized s)) (hseparate : vm.Separate w l w k) :
    SourceStays vm w l v k s := by
  obtain ⟨t, ht⟩ := hw.store hl v
  refine ⟨t, ht, .inl ?_⟩
  rw [hseparate.getArg hl (size_of_getArg hs) ht]
  exact hs

theorem sourceStays_self (hl : l.size = w.operand.size) (hw : vm.Writeable w l)
    (hd : vm.getArg l = .ok (w.operand.sized d)) (hs : vm.SourceReads w k s) :
    SourceStays vm w l d k s := by
  obtain ⟨t, ht⟩ := hw.store hl d
  exact ⟨vm, VM.setArg_self hl hd ht, hs⟩

theorem carryIn_false (h : vm.flags.carry = false) : vm.flags.carryIn w = 0 := by
  rw [X86Flags.carryIn, h]
  rfl

theorem carryIn_true (h : vm.flags.carry = true) : vm.flags.carryIn w = 1 := by
  rw [X86Flags.carryIn, h]
  rfl

end Stays

/-- XADD, ADC and SBB use the operands and addresses from before, exactly if the destination of
XADD keeps its address when the source register takes its old value, and the source of ADC and SBB
keeps its value when the carry goes into the destination. -/
theorem readModifyWrite_iff (p : Pipeline) (w : ElementWidth) (hp : p.HasWidth w) (vm : VM)
    (d : BitVec w.operand.bits) (hd : vm.getArg (p.args 0).location = .ok (w.operand.sized d))
    (hw : vm.Writeable w (p.args 0).location) :
    (∀ r s, (p.args 1).location = .registerValue r w.operand.size →
      vm.getReg r w.operand.size = w.operand.sized s →
      (Leaves (((w.select .xadd8bit .xaddNativeWord).logic p).run vm)
          (VM.storeAt (vm.setReg r (w.operand.sized d)) vm (p.args 0).location
            (w.operand.sized (d + s))) ↔
        AddressStays vm w (p.args 0).location r d)) ∧
    ∀ s, vm.SourceReads w (p.args 1).location s →
      (Leaves (((w.select .adc8bit .adcNativeWord).logic p).run vm)
          (vm.setArg (p.args 0).location (w.operand.sized (d + (s + vm.flags.carryIn w)))) ↔
        (vm.flags.carry = true →
          SourceStays vm w (p.args 0).location (d + 1) (p.args 1).location s)) ∧
      (Leaves (((w.select .sbb8bit .sbbNativeWord).logic p).run vm)
          (vm.setArg (p.args 0).location (w.operand.sized (d - (s + vm.flags.carryIn w)))) ↔
        (vm.flags.carry = true →
          SourceStays vm w (p.args 0).location (d - 1) (p.args 1).location s)) := by
  have hl := size_of_getArg hd
  refine ⟨?_, ?_⟩
  · intro r s hr hs
    rw [select_run (F := xadd) (fun _ ↦ rfl) (fun _ ↦ rfl) hp]
    exact xadd_leaves_iff hd hr hs hw
  · intro s hs
    refine ⟨?_, ?_⟩
    · rw [select_run (F := adc) (fun _ ↦ rfl) (fun _ ↦ rfl) hp, adc_leaves_iff hd hs hw]
      cases hc : vm.flags.carry with
      | false =>
        rw [carryIn_false hc, add_zero]
        exact iff_of_true (sourceStays_self hl hw hd hs) fun h ↦ absurd h Bool.false_ne_true
      | true =>
        rw [carryIn_true hc]
        exact ⟨fun h _ ↦ h, fun h ↦ h rfl⟩
    · rw [select_run (F := sbb) (fun _ ↦ rfl) (fun _ ↦ rfl) hp, sbb_leaves_iff hd hs hw]
      cases hc : vm.flags.carry with
      | false =>
        rw [carryIn_false hc, sub_zero]
        exact iff_of_true (sourceStays_self hl hw hd hs) fun h ↦ absurd h Bool.false_ne_true
      | true =>
        rw [carryIn_true hc]
        exact ⟨fun h _ ↦ h, fun h ↦ h rfl⟩

def carriedSum : Pipeline :=
  operandSlot false ![.registerValue eax .dword, .registerValue ebx .dword, .none]

def withCarry (a b : BitVec 32) : VM := { twoRegisters a b with flags := { carry := true } }

theorem readModifyWrite_iff_carriedSum :
    Leaves ((LogicFn.adcNativeWord.logic carriedSum).run (withCarry 1 2))
      ((withCarry 1 2).setArg (.registerValue eax .dword) (.dword 4)) := by
  refine (((readModifyWrite_iff carriedSum .dword rfl (withCarry 1 2) 1 rfl ⟨_, rfl⟩).2 2
    (.inl rfl)).1).mpr fun _ ↦ ?_
  exact sourceStays_of_separate (w := .dword) rfl ⟨_, rfl⟩ rfl
    ⟨.inl (by decide), fun _ h ↦ absurd h List.not_mem_nil⟩

def carriedDouble : Pipeline :=
  operandSlot false ![.registerValue eax .dword, .registerValue eax .dword, .none]

def movedSum : Pipeline :=
  operandSlot false ![.registerAddress eax .dword, .registerValue eax .dword, .none]

/-- With the carry set and EAX 0 the first gives 2, and where EAX points to a zero the second
fails. -/
theorem readModifyWrite_reread :
    (¬∀ (p : Pipeline) (w : ElementWidth) (vm : VM) (d s : BitVec w.operand.bits), p.HasWidth w →
      vm.getArg (p.args 0).location = .ok (w.operand.sized d) →
      vm.Writeable w (p.args 0).location → vm.SourceReads w (p.args 1).location s →
      Leaves (((w.select .adc8bit .adcNativeWord).logic p).run vm)
        (vm.setArg (p.args 0).location (w.operand.sized (d + (s + vm.flags.carryIn w))))) ∧
    ¬∀ (p : Pipeline) (w : ElementWidth) (vm : VM) (d s : BitVec w.operand.bits) (r : Register),
      p.HasWidth w → vm.getArg (p.args 0).location = .ok (w.operand.sized d) →
      vm.Writeable w (p.args 0).location →
      (p.args 1).location = .registerValue r w.operand.size →
      vm.getReg r w.operand.size = w.operand.sized s →
      Leaves (((w.select .xadd8bit .xaddNativeWord).logic p).run vm)
        (VM.storeAt (vm.setReg r (w.operand.sized d)) vm (p.args 0).location
          (w.operand.sized (d + s))) := by
  constructor
  · intro h
    have hleaves := h carriedDouble .dword (withCarry 0 0) 0 0 rfl rfl ⟨_, rfl⟩ (.inl rfl)
    have hstays := (adc_leaves_iff (w := .dword) (p := carriedDouble) rfl (.inl rfl)
      ⟨_, rfl⟩).mp hleaves
    have hne : (1 : BitVec 32) ≠ 0 := by decide
    exact not_sourceStays_self (w := .dword) (v := (1 : BitVec 32)) rfl hne hstays
  · intro h
    have hleaves := h movedSum .dword (twoRegisters DATA_MEM 0) 0 DATA_MEM eax rfl rfl ⟨_, rfl⟩
      rfl rfl
    have hstays := (xadd_leaves_iff (w := .dword) (p := movedSum) rfl rfl rfl ⟨_, rfl⟩).mp hleaves
    obtain ha | ⟨-, t, ht⟩ := hstays DATA_MEM 0 rfl rfl
    · cases ha
    · cases ht

end Qx86
