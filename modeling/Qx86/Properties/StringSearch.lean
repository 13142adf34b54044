import Qx86.Execute.Image
import Qx86.Execute.Walk

namespace Qx86

open Foundation Register

variable {σ : Type} {hv : Hypervisor σ} {p : Pipeline} {k : StringOp} {w : ElementWidth} {n : ℕ}

section Comparisons

namespace VM

def pair (vm : VM) (k : StringOp) (w : ElementWidth) (src dst : BitVec 32) :
    Except VMError (BitVec w.operand.bits × BitVec w.operand.bits) :=
  match k with
  | .scanString => (vm.accumulator w, ·) <$> vm.element w dst
  | _ => do
    let a ← vm.element w src
    let b ← vm.element w dst
    .ok (a, b)

def pairAt (vm : VM) (k : StringOp) (w : ElementWidth) (i : ℕ) :
    Except VMError (BitVec w.operand.bits × BitVec w.operand.bits) :=
  vm.pair k w (vm.elementAddress w esi i) (vm.elementAddress w edi i)

end VM

variable {vm : VM} {a b : BitVec w.operand.bits}

theorem compare_run (hk : k.compares = true)
    (h : vm.pair k w (vm.regs esi) (vm.regs edi) = .ok (a, b)) :
    (k.op w).run vm = (.ok (), (vm.compared w a b).advance (vm.stride w) k.indices) := by
  cases k with
  | cmps =>
    obtain ⟨a', ha, h⟩ := except_bind_eq_ok.mp h
    obtain ⟨b', hb, h⟩ := except_bind_eq_ok.mp h
    cases h
    rw [cmps_run, ha, hb]
    rfl
  | scanString =>
    obtain ⟨b', hb, h⟩ := map_eq_ok.mp h
    cases h
    rw [scanString_run, hb]
    rfl
  | movs | storeString | loadString => cases hk

/-- The flags of a comparison depend on the compared values only, apart from the flags that
no comparison sets. -/
theorem subtractFlags_idem (a b a' b' : BitVec w.operand.bits) (f : X86Flags) :
    Operations.subtractFlags w.operand a b (Operations.subtractFlags w.operand a' b' f) =
      Operations.subtractFlags w.operand a b f := by
  cases w <;> rfl

theorem subtractFlags_zero (a b : BitVec w.operand.bits) (f : X86Flags) :
    (Operations.subtractFlags w.operand a b f).zero = decide (a = b) := by
  have hsub : ∀ {n : ℕ} (a b : BitVec n), n ≤ 32 →
      ((a - b).setWidth 32 == (0 : BitVec 32)) = decide (a = b) := by
    intro n a b hn
    rw [Bool.eq_iff_iff, beq_iff_eq, decide_eq_true_eq]
    constructor
    · intro h
      have hz := congrArg BitVec.toNat h
      have hlt : (a - b).toNat < 2 ^ 32 :=
        Nat.lt_of_lt_of_le (a - b).isLt (Nat.pow_le_pow_right (by decide) hn)
      rw [BitVec.toNat_setWidth, Nat.mod_eq_of_lt hlt] at hz
      exact sub_eq_zero.mp (BitVec.eq_of_toNat_eq hz)
    · rintro rfl
      rw [BitVec.sub_self, BitVec.setWidth_zero]
      rfl
  cases w with
  | byte => exact hsub a b (by decide)
  | word => exact hsub a b (by decide)
  | dword => exact hsub a b (by decide)

theorem subtractFlags_carry (a b : BitVec w.operand.bits) (f : X86Flags) :
    (Operations.subtractFlags w.operand a b f).carry = decide (a < b) := by
  cases w <;> rfl

theorem subtractFlags_direction (a b : BitVec w.operand.bits) (f : X86Flags) :
    (Operations.subtractFlags w.operand a b f).direction = f.direction := by
  cases w <;> rfl

end Comparisons

/-- Whether a pair ends a search: it differs under REPE and is equal under REPNE. -/
def Pipeline.Decides (p : Pipeline) {n : ℕ} (a b : BitVec n) : Prop :=
  if p.function = .repe then a ≠ b else a = b

theorem goesOn_compared (hk : k.compares = true) (a b : BitVec w.operand.bits) (f : X86Flags) :
    p.goesOn k (Operations.subtractFlags w.operand a b f) = true ↔ ¬p.Decides a b := by
  rw [Pipeline.goesOn, hk, subtractFlags_zero, Pipeline.Decides]
  by_cases hf : p.function = .repe
  · rw [if_pos hf, hf]
    simp
  · have hne : (p.function == .repe) = false := beq_eq_false_iff_ne.mpr hf
    rw [if_neg hf, hne]
    simp

structure Compared (k : StringOp) (w : ElementWidth) (a b : ℕ → BitVec w.operand.bits) (i : ℕ)
    (vm t : VM) : Prop where
  walked : Walked k w i vm t
  memory : t.memory = vm.memory
  flags : ∀ j, i = j + 1 → t.flags = Operations.subtractFlags w.operand (a j) (b j) vm.flags
  fresh : i = 0 → t.flags = vm.flags

namespace Compared

variable {vm t : VM} {a b : ℕ → BitVec w.operand.bits} {i : ℕ}

theorem zero (a b : ℕ → BitVec w.operand.bits) (vm : VM) : Compared k w a b 0 vm vm where
  walked := .zero vm
  memory := rfl
  flags := nofun
  fresh _ := rfl

theorem flags_next (h : Compared k w a b i vm t) :
    Operations.subtractFlags w.operand (a i) (b i) t.flags =
      Operations.subtractFlags w.operand (a i) (b i) vm.flags := by
  cases i with
  | zero => rw [h.fresh rfl]
  | succ j => rw [h.flags j rfl, subtractFlags_idem]

theorem pair_eq (hk : k.compares = true) (h : Compared k w a b i vm t) :
    t.pair k w (t.regs esi) (t.regs edi) = vm.pairAt k w i := by
  have helement : ∀ x, t.element w x = vm.element w x := by
    intro x
    have hmem := h.memory
    cases w <;> simp only [VM.element, VM.getMem, ElementWidth.operand, hmem]
  cases k with
  | cmps =>
    have hsrc : t.regs esi = vm.elementAddress w esi i := h.walked.index esi (by decide)
    have hdst : t.regs edi = vm.elementAddress w edi i := h.walked.index edi (by decide)
    simp only [VM.pairAt, VM.pair, helement, hsrc, hdst]
  | scanString =>
    have hdst : t.regs edi = vm.elementAddress w edi i := h.walked.index edi (by decide)
    have hacc : t.accumulator w = vm.accumulator w :=
      VM.accumulator_congr (h.walked.other eax (by decide))
    simp only [VM.pairAt, VM.pair, helement, hdst, hacc]
  | movs | storeString | loadString => cases hk

theorem next (hk : k.compares = true) (h : Compared k w a b i vm t)
    (hpair : vm.pairAt k w i = .ok (a i, b i)) :
    ∃ t', (k.op w).run t = (.ok (), t') ∧
      t'.flags = Operations.subtractFlags w.operand (a i) (b i) vm.flags ∧
      Compared k w a b (i + 1) vm (t'.setReg32 ecx (t.regs ecx - 1)) := by
  have hrun := compare_run hk ((h.pair_eq hk).trans hpair)
  rw [h.walked.stride] at hrun
  have hflags : ((t.compared w (a i) (b i)).advance (vm.stride w) k.indices).flags =
      Operations.subtractFlags w.operand (a i) (b i) vm.flags :=
    VM.advance_flags.trans h.flags_next
  refine ⟨_, hrun, hflags, ?_, ?_, ?_, nofun⟩
  · exact h.walked.next rfl (subtractFlags_direction ..) rfl
  · exact VM.advance_memory.trans h.memory
  · rintro j he
    cases he
    exact hflags

end Compared

section Search

variable {vm : VM} {a b : ℕ → BitVec p.elementWidth.operand.bits}

theorem search_goes_on (hk : k.compares = true)
    (hn : n ≤ (vm.readRegw ecx p.sizeOverride).toNat)
    (hpairs : ∀ i, i < n → vm.pairAt k p.elementWidth i = .ok (a i, b i))
    (hgo : ∀ i, i < n → ¬p.Decides (a i) (b i)) :
    ∃ t, iterate (p.pass k) n vm = .inl t ∧ Compared k p.elementWidth a b n vm t := by
  refine iterate_unroll (J := fun i t ↦ Compared k p.elementWidth a b i vm t) (.zero a b vm) hn ?_
  intro i t hi h
  obtain ⟨t', hrun, hflags, hnext⟩ := h.next hk (hpairs i hi)
  refine ⟨t', hrun, ?_, hnext⟩
  rw [hflags, goesOn_compared hk]
  exact hgo i hi

theorem search_stops (hk : k.compares = true)
    (hn : n < (vm.readRegw ecx p.sizeOverride).toNat)
    (hpairs : ∀ i, i ≤ n → vm.pairAt k p.elementWidth i = .ok (a i, b i))
    (hgo : ∀ i, i < n → ¬p.Decides (a i) (b i)) (hstop : p.Decides (a n) (b n)) :
    ∃ t, iterate (p.pass k) (n + 1) vm = .inr (.ok (), t) ∧
      Compared k p.elementWidth a b (n + 1) vm t := by
  obtain ⟨t, hi, h⟩ := search_goes_on hk hn.le (fun i hi ↦ hpairs i hi.le) hgo
  obtain ⟨t', hrun, hflags, hnext⟩ := h.next hk (hpairs n le_rfl)
  obtain ⟨-, hcount⟩ := iterate_counter hi
  have hc : t.readRegw ecx p.sizeOverride ≠ 0 := by
    intro hz
    rw [hz] at hcount
    change 0 + n = _ at hcount
    omega
  have hends : ¬p.goesOn k t'.flags = true := by
    rw [hflags, goesOn_compared hk]
    exact not_not_intro hstop
  refine ⟨_, ?_, hnext⟩
  rw [iterate_add_inl hi 1]
  apply iterate_succ_inr
  rw [Pipeline.pass, unroll_run hc hrun, if_neg hends]

end Search

/-- What a repeated comparison leaves after some passes of which `x` and `y` were the last
pair. -/
structure Searched (p : Pipeline) (k : StringOp) (passes : ℕ)
    (x y : BitVec p.elementWidth.operand.bits) (m m' : Machine σ) : Prop where
  index : ∀ r ∈ k.indices,
    m'.vm.regs r = m.vm.regs r + BitVec.ofNat 32 passes * m.vm.stride p.elementWidth
  counter : (m'.vm.readRegw ecx p.sizeOverride).toNat + passes =
    (m.vm.readRegw ecx p.sizeOverride).toNat
  counted : m'.vm.regs ecx = m.vm.regs ecx - BitVec.ofNat 32 passes
  other : ∀ r, r ∉ ecx :: k.indices → m'.vm.regs r = m.vm.regs r
  flags : m'.vm.flags = Operations.subtractFlags p.elementWidth.operand x y m.vm.flags
  zero : m'.vm.flags.zero = decide (x = y)
  carry : m'.vm.flags.carry = decide (x < y)
  memory : m'.vm.memory = m.vm.memory
  eip : m'.vm.eip = m.vm.eip + p.eipSize.setWidth 32
  host : m'.host = m.host

theorem runSlot_searched (h : p.Repeats k) {m : Machine σ} {t : VM} {j : ℕ}
    {a b : ℕ → BitVec p.elementWidth.operand.bits} (hgas : p.PaidFor (j + 1) m.vm)
    (hle : j + 1 ≤ (m.vm.readRegw ecx p.sizeOverride).toNat)
    (hpass : p.Passed k (j + 1) m.vm.bare t)
    (ht : Compared k p.elementWidth a b (j + 1) m.vm.bare t) :
    ∃ m', runSlot hv p m = .inl m' ∧ Searched p k (j + 1) (a j) (b j) m m' := by
  obtain ⟨m', hslot, hhost, hbare⟩ := runSlot_passed h hpass hgas
  have hregs : m'.vm.regs = t.regs := (congrArg VM.regs hbare :)
  have hflags : m'.vm.flags =
      Operations.subtractFlags p.elementWidth.operand (a j) (b j) m.vm.flags :=
    (congrArg VM.flags hbare :).trans (ht.flags j rfl)
  have hcounted : m'.vm.regs ecx = m.vm.regs ecx - BitVec.ofNat 32 (j + 1) := by
    rw [hregs, ht.walked.counter]
    rfl
  refine ⟨m', hslot, ?_⟩
  constructor
  · intro r hr
    rw [hregs, ht.walked.index r hr]
    rfl
  · have hlt := (m.vm.regs ecx).isLt
    rw [VM.readRegw_toNat] at hle
    rw [VM.readRegw_toNat, VM.readRegw_toNat, hcounted, BitVec.toNat_sub, BitVec.toNat_ofNat]
    cases hso : p.sizeOverride with
    | false =>
      simp only [hso, Bool.false_eq_true, if_false] at hle ⊢
      omega
    | true =>
      simp only [hso, if_true] at hle ⊢
      omega
  · exact hcounted
  · intro r hr
    rw [hregs, ht.walked.other r hr]
    rfl
  · exact hflags
  · rw [hflags, subtractFlags_zero]
  · rw [hflags, subtractFlags_carry]
  · exact (congrArg VM.memory hbare :).trans ht.memory
  · refine (congrArg VM.eip hbare :).trans ?_
    change t.eip + _ = _
    rw [ht.walked.eip]
    rfl
  · exact hhost

theorem Pipeline.PaidFor.mono {i : ℕ} {vm : VM} (h : p.PaidFor n vm) (hi : i ≤ n) :
    p.PaidFor i vm := ⟨h.slot, fun j hj ↦ h.passes j (by omega)⟩

/-- REPE and REPNE search for the first pair that differs and for the first one that is
equal. -/
theorem rep_search (h : p.Repeats k) (hk : k.compares = true) (m : Machine σ)
    {a b : ℕ → BitVec p.elementWidth.operand.bits}
    (hn : (m.vm.readRegw ecx p.sizeOverride).toNat = n) (hgas : p.PaidFor n m.vm)
    (hpairs : ∀ i, i < n → m.vm.pairAt k p.elementWidth i = .ok (a i, b i)) :
    (∀ j, j < n → p.Decides (a j) (b j) → (∀ i, i < j → ¬p.Decides (a i) (b i)) →
      ∃ m', runSlot hv p m = .inl m' ∧ Searched p k (j + 1) (a j) (b j) m m') ∧
    (∀ j, n = j + 1 → (∀ i, i < n → ¬p.Decides (a i) (b i)) →
      ∃ m', runSlot hv p m = .inl m' ∧ Searched p k n (a j) (b j) m m') ∧
    (n = 0 → runSlot hv p m = .inl ((m.charge p.gasCost).advance p.eipSize)) := by
  refine ⟨?_, ?_, ?_⟩
  · intro j hj hstop hgo
    obtain ⟨t, hi, ht⟩ := @search_stops p k j m.vm.bare a b hk (hn ▸ hj)
      (fun i hi ↦ hpairs i (by omega)) hgo hstop
    exact runSlot_searched h (hgas.mono hj) (hn ▸ hj) (.stopped hi) ht
  · rintro j rfl hgo
    obtain ⟨t, hi, ht⟩ := @search_goes_on p k (j + 1) m.vm.bare a b hk hn.ge hpairs hgo
    have hzero : t.readRegw ecx p.sizeOverride = 0 := by
      obtain ⟨-, hcount⟩ := iterate_counter hi
      apply BitVec.eq_of_toNat_eq
      change (m.vm.bare.readRegw ecx p.sizeOverride).toNat = j + 1 at hn
      change _ = 0
      omega
    exact runSlot_searched h hgas hn.ge (.counted hi hzero) ht
  · rintro rfl
    have hc : m.vm.readRegw ecx p.sizeOverride = 0 := BitVec.eq_of_toNat_eq hn
    have hg : ¬m.vm.gasRemaining < p.gasCost := by
      rw [BitVec.lt_def]
      have := hgas.slot
      omega
    rw [runSlot_call hg, call_repeats h]
    have hdone : (m.charge p.gasCost).vm.readRegw ecx p.sizeOverride = 0 := hc
    rw [hdone]
    rfl

/-- REPE CMPSB on two strings of three bytes. -/
def cmpsbSlot : Pipeline :=
  { (default : Pipeline) with function := .repe, gasCost := 10, eipSize := 2, opcode := 0xA6 }

def cmpsbMachine : Machine (List (BitVec 8)) where
  vm := { createVm zeroSection with
    regs := fun r ↦ if r = ecx then 3 else if r = esi then DATA_MEM else 0x80000003
    memory := codeMemory zeroSection ⟨[5, 6, 7, 5, 9, 7], by decide⟩ }
  host := []

/-- The second bytes differ, and the first string is the smaller one. -/
theorem rep_search_cmpsb :
    ∃ m', runSlot testHypervisor cmpsbSlot cmpsbMachine = .inl m' ∧
      m'.vm.regs ecx = 1 ∧ m'.vm.flags.zero = false ∧ m'.vm.flags.carry = true := by
  have hpairs : ∀ i, i < 3 → cmpsbMachine.vm.pairAt .cmps .byte i =
      .ok ([5, 6, 7].getD i 0, [5, 9, 7].getD i 0) := by
    intro i hi
    match i with
    | 0 | 1 | 2 => rfl
  have hrepe : cmpsbSlot.function = .repe := rfl
  have hstop : cmpsbSlot.Decides (6 : BitVec 8) 9 := by
    rw [Pipeline.Decides, if_pos hrepe]
    decide
  have hgo : ∀ i, i < 1 → ¬cmpsbSlot.Decides ([5, 6, 7].getD i (0 : BitVec 8))
      ([5, 9, 7].getD i 0) := by
    intro i hi
    obtain rfl : i = 0 := by omega
    rw [Pipeline.Decides, if_pos hrepe]
    exact not_not_intro rfl
  obtain ⟨m', hslot, hs⟩ := (@rep_search _ testHypervisor cmpsbSlot .cmps 3 ⟨rfl, .inl rfl⟩ rfl
    cmpsbMachine _ _ rfl ⟨by decide, by decide⟩ hpairs).1 1 (by decide) hstop hgo
  exact ⟨m', hslot, hs.counted, hs.zero, hs.carry⟩

end Qx86
