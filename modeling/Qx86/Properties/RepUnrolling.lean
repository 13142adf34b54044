import Qx86.Execute.Image
import Qx86.Execute.Repetition

namespace Qx86

open Foundation Register

variable {σ : Type}

def Pipeline.unprefixed (p : Pipeline) : Pipeline :=
  { p with function := .opcode (repOpcode p.opcode).function }

/-- The unprefixed instruction, executed once and counted in all 32 bits: it is repeated
until the counter is zero or the zero flag ends the search of a CMPS or a SCAS. -/
def unrolled (hv : Hypervisor σ) (p : Pipeline) (k : StringOp) (m : Machine σ) :
    Machine σ ⊕ (Outcome VMError Unit × Machine σ) :=
  if m.vm.regs ecx = 0 then .inr (.ok (), m)
  else
    match p.unprefixed.function.call hv p.unprefixed m with
    | (.ok _, m) =>
      let counted := { m with vm := m.vm.setReg32 ecx (m.vm.regs ecx - 1) }
      if p.goesOn k m.vm.flags then .inl counted else .inr (.ok (), counted)
    | r => .inr r

variable {hv : Hypervisor σ} {p : Pipeline} {k : StringOp}

theorem unrolled_eq (h : p.Repeats k) (host : σ) (vm : VM) :
    unrolled hv p k ⟨vm, host⟩ =
      (unroll k p.elementWidth false (p.goesOn k) vm).map (⟨·, host⟩)
        (Prod.map id (⟨·, host⟩)) := by
  have hcall : p.unprefixed.function.call hv p.unprefixed ⟨vm, host⟩ =
      (((k.op p.elementWidth).run vm).1, ⟨((k.op p.elementWidth).run vm).2, host⟩) :=
    call_string (p := p.unprefixed) h.string ⟨vm, host⟩
  unfold unrolled unroll
  rw [hcall]
  change (if vm.regs ecx = 0 then _ else _) = Sum.map _ _ (if vm.regs ecx = 0 then _ else _)
  by_cases hc : vm.regs ecx = 0
  · rw [if_pos hc, if_pos hc]
    rfl
  · rw [if_neg hc, if_neg hc]
    rcases (k.op p.elementWidth).run vm with ⟨_ | e | _, vm₁⟩
    · change (if p.goesOn k vm₁.flags = true then _ else _) =
        Sum.map _ _ (if p.goesOn k vm₁.flags = true then _ else _)
      cases p.goesOn k vm₁.flags <;> rfl
    · rfl
    · rfl

section Counters

variable {w : ElementWidth} {goesOn : X86Flags → Bool}

theorem unroll_congr {vm : VM} (h : vm.readRegw ecx true ≠ 0) :
    unroll k w true goesOn vm = unroll k w false goesOn vm := by
  have hne : (vm.readRegw ecx true).toNat ≠ 0 := fun hz ↦ h (BitVec.eq_of_toNat_eq hz)
  have h₃₂ : vm.readRegw ecx false ≠ 0 := by
    intro hz
    rw [VM.readRegw_toNat] at hne
    change vm.regs ecx = 0 at hz
    rw [hz] at hne
    exact hne rfl
  unfold unroll
  rw [if_neg h, if_neg h₃₂]
  rcases hop : (k.op w).run vm with ⟨_ | e | _, vm₁⟩
  · have hread := StringOp.op_readRegw hop
    simp only [VM.decrementRegw_eq (hread true ▸ h), VM.decrementRegw_eq (hread false ▸ h₃₂)]
  · rfl
  · rfl

theorem iterate_congr {n : ℕ} {vm : VM} (h : n ≤ (vm.readRegw ecx true).toNat) :
    iterate (unroll k w true goesOn) n vm = iterate (unroll k w false goesOn) n vm := by
  induction n generalizing vm with
  | zero => rfl
  | succ n ih =>
    have hne : vm.readRegw ecx true ≠ 0 := by
      intro hz
      rw [hz] at h
      change n + 1 ≤ 0 at h
      omega
    have hs := @unroll_congr k w goesOn vm hne
    cases he : unroll k w true goesOn vm with
    | inl vm' =>
      rw [iterate_succ_inl he, iterate_succ_inl (hs ▸ he)]
      have := (unroll_inl he).2.2
      exact ih (by omega)
    | inr r => rw [iterate_succ_inr he, iterate_succ_inr (hs ▸ he)]

theorem counter_lt_of_finishes {so : Bool} {vm vm' : VM}
    (h : Finishes (unroll k w so goesOn) vm (.ok (), vm')) (hc : vm.readRegw ecx so ≠ 0) :
    (vm'.readRegw ecx so).toNat < (vm.readRegw ecx so).toNat := by
  have hpos : (vm.readRegw ecx so).toNat ≠ 0 := fun hz ↦ hc (BitVec.eq_of_toNat_eq hz)
  obtain ⟨t, ⟨n, hn⟩, ht⟩ := h.last
  obtain ⟨-, hcount⟩ := iterate_counter hn
  unfold unroll at ht
  by_cases hz : t.readRegw ecx so = 0
  · rw [if_pos hz] at ht
    cases ht
    rw [hz]
    change 0 < _
    omega
  · rw [if_neg hz] at ht
    rcases hop : (k.op w).run t with ⟨_ | e | _, vm₁⟩ <;> rw [hop] at ht
    · have hread := StringOp.op_readRegw hop so
      have hzero : (t.readRegw ecx so).toNat ≠ 0 := fun h ↦ hz (BitVec.eq_of_toNat_eq h)
      simp only at ht
      split at ht
      · cases ht
      · cases ht
        rw [VM.readRegw_decrementRegw (hread ▸ hz), hread]
        omega
    · cases ht
    · cases ht

theorem finishes_iff_of_counter {vm : VM} {r : Outcome VMError Unit × VM}
    (h : Finishes (unroll k w true goesOn) vm r) :
    Finishes (unroll k w false goesOn) vm r ↔ (vm.regs ecx).toNat < 0x10000 ∨
      ∃ r', iterate (unroll k w false goesOn) ((vm.regs ecx).toNat % 0x10000) vm = .inr r' := by
  have hcount : (vm.readRegw ecx true).toNat = (vm.regs ecx).toNat % 0x10000 :=
    VM.readRegw_toNat vm ecx true
  have heq := @iterate_congr k w goesOn _ vm hcount.ge
  cases hi : iterate (unroll k w false goesOn) ((vm.regs ecx).toNat % 0x10000) vm with
  | inr r' =>
    have hr : r = r' := h.unique ⟨_, heq.trans hi⟩
    rw [hr]
    exact ⟨fun _ ↦ .inr ⟨r', rfl⟩, fun _ ↦ ⟨_, hi⟩⟩
  | inl vm' =>
    obtain ⟨hregs, -⟩ := iterate_counter hi
    obtain ⟨-, hzero⟩ := iterate_counter (heq.trans hi)
    have hdone : vm'.readRegw ecx true = 0 := by
      apply BitVec.eq_of_toNat_eq
      change _ = 0
      omega
    have hr : r = (.ok (), vm') :=
      h.unique (.of_reaches ⟨_, heq.trans hi⟩ (.single (unroll_done hdone)))
    have hlt := (vm.regs ecx).isLt
    have hrest : (vm'.regs ecx).toNat = (vm.regs ecx).toNat / 0x10000 * 0x10000 := by
      rw [hregs, BitVec.toNat_sub, BitVec.toNat_ofNat]
      omega
    constructor
    · intro hf
      rw [hr] at hf
      have hloop : Finishes (unroll k w false goesOn) vm' (.ok (), vm') := hf.rest ⟨_, hi⟩
      by_contra hn
      rw [not_or] at hn
      have hne : vm'.readRegw ecx false ≠ 0 := by
        intro hz
        change vm'.regs ecx = 0 at hz
        rw [hz] at hrest
        change 0 = _ at hrest
        omega
      exact absurd (counter_lt_of_finishes hloop hne) (lt_irrefl _)
    · rintro (hsmall | ⟨r', hr'⟩)
      · have hz : vm'.readRegw ecx false = 0 := by
          apply BitVec.eq_of_toNat_eq
          change (vm'.regs ecx).toNat = 0
          omega
        rw [hr]
        exact .of_reaches ⟨_, hi⟩ (.single (unroll_done hz))
      · cases hr'

end Counters

/-- A REP instruction with enough gas has the effect of its unrolling. -/
def RepUnrolls (hv : Hypervisor σ) (p : Pipeline) (k : StringOp) (m : Machine σ) : Prop :=
  let r := p.function.call hv p m
  ∃ m', Finishes (unrolled hv p k) m (r.1, m') ∧ m'.vm.bare = r.2.vm.bare ∧ m'.host = r.2.host

theorem repUnrolls_iff_finishes (h : p.Repeats k) (m : Machine σ) :
    RepUnrolls hv p k m ↔ Finishes (unroll k p.elementWidth false (p.goesOn k)) m.vm.bare
      ((p.function.call hv p m).1, (p.function.call hv p m).2.vm.bare) := by
  obtain ⟨hhost, -⟩ := call_repeated h m
  have hbare := finishes_map_iff (@unroll_book k p.elementWidth false (p.goesOn k) 0 0) m.vm
  have hlift := finishes_map_iff (@unrolled_eq σ hv p k h m.host) m.vm
  constructor
  · rintro ⟨m', hf, hb, -⟩
    obtain ⟨⟨o, vm'⟩, hr, he⟩ := (hlift _).mp hf
    cases he
    refine (hbare _).mpr ⟨_, hr, ?_⟩
    rw [← hb]
    rfl
  · intro hf
    obtain ⟨⟨o, vm'⟩, hr, he⟩ := (hbare _).mp hf
    rw [Prod.map_apply, Prod.mk.injEq] at he
    refine ⟨⟨vm', m.host⟩, (hlift _).mpr ⟨_, hr, ?_⟩, he.2, hhost.symm⟩
    rw [Prod.map_apply, he.1]

theorem stops_iff (h : p.Repeats k) (n : ℕ) (m : Machine σ) :
    (∃ r, iterate (unroll k p.elementWidth false (p.goesOn k)) n m.vm.bare = .inr r) ↔
      ∃ r, iterate (unrolled hv p k) n m = .inr r := by
  have hbare := iterate_map (@unroll_book k p.elementWidth false (p.goesOn k) 0 0) n m.vm
  have hlift := iterate_map (@unrolled_eq σ hv p k h m.host) n m.vm
  cases hc : iterate (unroll k p.elementWidth false (p.goesOn k)) n m.vm with
  | inl vm' =>
    rw [hc] at hbare hlift
    constructor
    · rintro ⟨r, hr⟩
      cases hbare.symm.trans hr
    · rintro ⟨r, hr⟩
      cases hlift.symm.trans hr
  | inr r =>
    rw [hc] at hbare hlift
    exact ⟨fun _ ↦ ⟨_, hlift⟩, fun _ ↦ ⟨_, hbare⟩⟩

/-- When a REP instruction equals its unrolling. -/
theorem rep_unrolls (h : p.Repeats k) (m : Machine σ)
    (henough : (p.function.call hv p m).1 ≠ .err .outOfGas) :
    RepUnrolls hv p k m ↔ p.sizeOverride = false ∨ (m.vm.regs ecx).toNat < 0x10000 ∨
      ∃ r, iterate (unrolled hv p k) ((m.vm.regs ecx).toNat % 0x10000) m = .inr r := by
  obtain ⟨-, hrep⟩ := @call_repeated σ hv p k h m
  have hf := hrep.finishes henough
  rw [repUnrolls_iff_finishes h]
  unfold Pipeline.pass at hf
  cases hso : p.sizeOverride with
  | false =>
    rw [hso] at hf
    exact ⟨fun _ ↦ .inl rfl, fun _ ↦ hf⟩
  | true =>
    rw [hso] at hf
    rw [finishes_iff_of_counter hf, stops_iff h]
    constructor
    · exact .inr
    · rintro (hfalse | h)
      · cases hfalse
      · exact h

def stosbSlot : Pipeline :=
  { (default : Pipeline) with
    function := .repe
    gasCost := 10
    eipSize := 3
    sizeOverride := true
    opcode := 0xAA }

theorem stosbSlot_repeats : stosbSlot.Repeats .storeString := ⟨rfl, .inl rfl⟩

def stosbMachine (counter : BitVec 32) : Machine (List (BitVec 8)) where
  vm := { createVm ⟨[0x66, 0xF3, 0xAA] ++ List.replicate 16 0, by decide⟩ with
    regs := fun r ↦ if r = ecx then counter else if r = edi then DATA_MEM else 0 }
  host := []

theorem rep_unrolls_stosb :
    RepUnrolls testHypervisor stosbSlot .storeString (stosbMachine 2) :=
  (rep_unrolls stosbSlot_repeats (stosbMachine 2) (by decide +kernel)).mpr
    (.inr (.inl (by decide)))

/-- With a counter of 0x10000 nothing is stored. -/
theorem rep_unrolls_not_stosb :
    ¬∀ (p : Pipeline) (k : StringOp) (m : Machine (List (BitVec 8))), p.Repeats k →
      (p.function.call testHypervisor p m).1 ≠ .err .outOfGas →
        RepUnrolls testHypervisor p k m := by
  intro h
  have hcall : stosbSlot.function.call testHypervisor stosbSlot (stosbMachine 0x10000) =
      (.ok (), stosbMachine 0x10000) := rfl
  have hu := h stosbSlot .storeString (stosbMachine 0x10000) stosbSlot_repeats (by
    rw [hcall]
    nofun)
  rw [repUnrolls_iff_finishes stosbSlot_repeats, hcall] at hu
  exact absurd (counter_lt_of_finishes hu (by decide)) (lt_irrefl _)

end Qx86
