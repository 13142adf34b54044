import Qx86.Execute.Metering
import Qx86.Machine.StringOps

namespace Qx86

open Foundation Outcome Register

section Opcodes

namespace StringOp

def ofOpcode (opcode : BitVec 8) : Option StringOp :=
  if opcode ∈ [0xA4#8, 0xA5#8] then some movs
  else if opcode ∈ [0xA6#8, 0xA7#8] then some cmps
  else if opcode ∈ [0xAA#8, 0xAB#8] then some storeString
  else if opcode ∈ [0xAC#8, 0xAD#8] then some loadString
  else if opcode ∈ [0xAE#8, 0xAF#8] then some scanString
  else none

def logicFn : StringOp → (native : Bool) → LogicFn
  | movs, false => .movsb
  | movs, true => .movsNativeWord
  | cmps, false => .cmpsb
  | cmps, true => .cmpsNativeWord
  | storeString, false => .storeStringByte
  | storeString, true => .storeStringNativeWord
  | loadString, false => .loadStringByte
  | loadString, true => .loadStringNativeWord
  | scanString, false => .scanStringByte
  | scanString, true => .scanStringNativeWord

end StringOp

def isNativeWord (opcode : BitVec 8) : Bool := opcode &&& 1 != 0

def Pipeline.elementWidth (p : Pipeline) : ElementWidth :=
  if isNativeWord p.opcode then if p.sizeOverride then .word else .dword else .byte

theorem StringOp.logicFn_isString (k : StringOp) (native : Bool) :
    (k.logicFn native).isString = true := by
  cases k <;> cases native <;> rfl

theorem StringOp.logicFn_run (k : StringOp) (p : Pipeline) (vm : VM) :
    ((k.logicFn (isNativeWord p.opcode)).logic p).run vm = (k.op p.elementWidth).run vm := by
  unfold Pipeline.elementWidth
  cases isNativeWord p.opcode with
  | false => cases k <;> rfl
  | true =>
    have hnative : ∀ f : OperandWidth → BitVec 32 → Op .straight Unit,
        (Operations.stringNativeWord f p).run vm =
          if p.sizeOverride then (f width16 2).run vm else (f width32 4).run vm := by
      intro f
      unfold Operations.stringNativeWord
      split <;> rfl
    cases k
    all_goals
      refine (hnative _).trans ?_
      cases p.sizeOverride <;> rfl

theorem StringOp.ofOpcode_spec {opcode : BitVec 8} {k : StringOp}
    (h : StringOp.ofOpcode opcode = some k) :
    (repOpcode opcode).function = .logic (k.logicFn (isNativeWord opcode)) ∧
      repFlagOpcodes opcode = k.compares ∧ repNoFlagOpcodes opcode = !k.compares := by
  have hall : ∀ n < 256, ∀ k ∈ StringOp.ofOpcode (BitVec.ofNat 8 n),
      (repOpcode (BitVec.ofNat 8 n)).function =
          .logic (k.logicFn (isNativeWord (BitVec.ofNat 8 n))) ∧
        repFlagOpcodes (BitVec.ofNat 8 n) = k.compares ∧
        repNoFlagOpcodes (BitVec.ofNat 8 n) = !k.compares := by
    decide +kernel
  have hbyte := hall opcode.toNat opcode.isLt
  rw [BitVec.ofNat_toNat, BitVec.setWidth_eq] at hbyte
  exact hbyte k h

theorem StringOp.ofOpcode_isSome (opcode : BitVec 8) :
    (StringOp.ofOpcode opcode).isSome = (repFlagOpcodes opcode || repNoFlagOpcodes opcode) := by
  have hall : ∀ n < 256, (StringOp.ofOpcode (BitVec.ofNat 8 n)).isSome =
      (repFlagOpcodes (BitVec.ofNat 8 n) || repNoFlagOpcodes (BitVec.ofNat 8 n)) := by
    decide +kernel
  have h := hall opcode.toNat opcode.isLt
  rwa [BitVec.ofNat_toNat, BitVec.setWidth_eq] at h

end Opcodes

section Unrolling

namespace VM

/-- The machine without gas and without an error, as far as these are concerned. -/
def bare (vm : VM) : VM := vm.book 0 0

@[simp] theorem book_book (vm : VM) (g g' : BitVec 64) (e e' : BitVec 32) :
    (vm.book g e).book g' e' = vm.book g' e' := rfl

@[simp] theorem book_bare (vm : VM) (g : BitVec 64) (e : BitVec 32) :
    (vm.book g e).bare = vm.bare := rfl

theorem decrementRegw_book (vm : VM) (r : Register) (so : Bool) (g : BitVec 64) (e : BitVec 32) :
    (vm.book g e).decrementRegw r so = (vm.decrementRegw r so).book g e := by
  unfold decrementRegw
  split <;> rfl

theorem decrementRegw_eq {vm : VM} {r : Register} {so : Bool} (h : vm.readRegw r so ≠ 0) :
    vm.decrementRegw r so = vm.setReg32 r (vm.regs r - 1) := by
  cases so with
  | false => rfl
  | true =>
    have hlow : (vm.regs r &&& 0xFFFF).toNat = (vm.regs r).toNat % 0x10000 :=
      MemorySystem.offset_eq (vm.regs r)
    have hhigh : (vm.regs r &&& 0xFFFF0000).toNat = (vm.regs r).toNat / 0x10000 * 0x10000 :=
      MemorySystem.page_toNat (vm.regs r)
    have hne : (vm.regs r).toNat % 0x10000 ≠ 0 := by
      intro hz
      apply h
      apply BitVec.eq_of_toNat_eq
      change (vm.regs r &&& 0xFFFF).toNat = 0
      rw [hlow, hz]
    have hcount : ((((vm.regs r &&& 0xFFFF).setWidth 16 - 1 : BitVec 16)).setWidth 32 :
        BitVec 32).toNat = (vm.regs r).toNat % 0x10000 - 1 := by
      rw [BitVec.toNat_setWidth, BitVec.toNat_sub, BitVec.toNat_setWidth, hlow]
      change (2 ^ 16 - 1 + _) % 2 ^ 16 % 2 ^ 32 = _
      omega
    refine congrArg (vm.setReg32 r) (BitVec.eq_of_toNat_eq ?_)
    rw [BitVec.toNat_or, hhigh, hcount, BitVec.toNat_sub, Nat.mul_comm,
      ← Nat.two_pow_add_eq_or_of_lt (i := 16) (by omega)]
    change _ = (2 ^ 32 - 1 + _) % 2 ^ 32
    omega

theorem readRegw_toNat (vm : VM) (r : Register) (so : Bool) :
    (vm.readRegw r so).toNat =
      if so then (vm.regs r).toNat % 0x10000 else (vm.regs r).toNat := by
  cases so with
  | false => rfl
  | true => exact MemorySystem.offset_eq (vm.regs r)

theorem readRegw_decrementRegw {vm : VM} {r : Register} {so : Bool} (h : vm.readRegw r so ≠ 0) :
    ((vm.decrementRegw r so).readRegw r so).toNat = (vm.readRegw r so).toNat - 1 := by
  have hne : (vm.readRegw r so).toNat ≠ 0 := fun hz ↦ h (BitVec.eq_of_toNat_eq hz)
  rw [decrementRegw_eq h, readRegw_toNat]
  rw [readRegw_toNat] at hne ⊢
  have hreg : (vm.setReg32 r (vm.regs r - 1)).regs r = vm.regs r - 1 := Function.update_self ..
  have hlt := (vm.regs r).isLt
  rw [hreg, BitVec.toNat_sub]
  change (if so then (2 ^ 32 - 1 + _) % 2 ^ 32 % 0x10000 else (2 ^ 32 - 1 + _) % 2 ^ 32) = _
  cases so with
  | false =>
    simp only [Bool.false_eq_true, if_false] at hne ⊢
    omega
  | true =>
    simp only [if_true] at hne ⊢
    omega

end VM

variable (k : StringOp) (w : ElementWidth) (so : Bool) (goesOn : X86Flags → Bool)

/-- One execution of a string function, counted, without gas: a REP prefix is to repeat
it until the counter is zero or the flags stop it. -/
def unroll (vm : VM) : VM ⊕ (Outcome VMError Unit × VM) :=
  if vm.readRegw .ecx so = 0 then .inr (.ok (), vm)
  else
    match (k.op w).run vm with
    | (.ok _, vm) =>
      if goesOn vm.flags then .inl (vm.decrementRegw .ecx so)
      else .inr (.ok (), vm.decrementRegw .ecx so)
    | r => .inr r

variable {k w so goesOn}

theorem unroll_done {vm : VM} (h : vm.readRegw .ecx so = 0) :
    unroll k w so goesOn vm = .inr (.ok (), vm) := if_pos h

theorem unroll_book (g : BitVec 64) (e : BitVec 32) (vm : VM) :
    unroll k w so goesOn (vm.book g e) =
      (unroll k w so goesOn vm).map (·.book g e) (Prod.map id (·.book g e)) := by
  have hread : (vm.book g e).readRegw .ecx so = vm.readRegw .ecx so := rfl
  unfold unroll
  rw [hread]
  by_cases hc : vm.readRegw .ecx so = 0
  · rw [if_pos hc, if_pos hc]
    rfl
  · rw [if_neg hc, if_neg hc, StringOp.op_book]
    rcases (k.op w).run vm with ⟨_ | x | _, vm'⟩
    · change (if goesOn vm'.flags then _ else _) = _
      simp only [VM.decrementRegw_book]
      cases goesOn vm'.flags <;> rfl
    · rfl
    · rfl

theorem StringOp.op_readRegw {vm vm' : VM} (h : (k.op w).run vm = (.ok (), vm')) (so : Bool) :
    vm'.readRegw ecx so = vm.readRegw ecx so := by
  simp only [VM.readRegw, StringOp.op_ecx h]

theorem unroll_run {so : Bool} {vm vm' : VM} (hc : vm.readRegw ecx so ≠ 0)
    (h : (k.op w).run vm = (.ok (), vm')) :
    unroll k w so goesOn vm =
      if goesOn vm'.flags then .inl (vm'.setReg32 ecx (vm.regs ecx - 1))
      else .inr (.ok (), vm'.setReg32 ecx (vm.regs ecx - 1)) := by
  have hecx : vm'.regs ecx = vm.regs ecx := StringOp.op_ecx h
  have hread := StringOp.op_readRegw h so
  rw [unroll, if_neg hc, h]
  simp only [VM.decrementRegw_eq (hread ▸ hc), hecx]

theorem unroll_inl {so : Bool} {vm vm' : VM} (h : unroll k w so goesOn vm = .inl vm') :
    vm.readRegw ecx so ≠ 0 ∧ vm'.regs ecx = vm.regs ecx - 1 ∧
      (vm'.readRegw ecx so).toNat = (vm.readRegw ecx so).toNat - 1 := by
  unfold unroll at h
  by_cases hc : vm.readRegw ecx so = 0
  · rw [if_pos hc] at h
    cases h
  · rw [if_neg hc] at h
    rcases hop : (k.op w).run vm with ⟨_ | e | _, vm₁⟩ <;> rw [hop] at h
    · have hecx : vm₁.regs ecx = vm.regs ecx := StringOp.op_ecx hop
      have hread := StringOp.op_readRegw hop so
      simp only at h
      split at h
      · cases h
        refine ⟨hc, ?_, ?_⟩
        · rw [VM.decrementRegw_eq (hread ▸ hc), ← hecx, VM.setReg32_self]
        · rw [VM.readRegw_decrementRegw (hread ▸ hc), hread]
      · cases h
    · cases h
    · cases h

theorem iterate_counter {so : Bool} {n : ℕ} {vm vm' : VM}
    (h : iterate (unroll k w so goesOn) n vm = .inl vm') :
    vm'.regs ecx = vm.regs ecx - BitVec.ofNat 32 n ∧
      (vm'.readRegw ecx so).toNat + n = (vm.readRegw ecx so).toNat := by
  induction n generalizing vm with
  | zero =>
    cases h
    simp
  | succ n ih =>
    cases hs : unroll k w so goesOn vm with
    | inl vm₁ =>
      rw [iterate_succ_inl hs] at h
      obtain ⟨hne, hregs, hread⟩ := unroll_inl hs
      obtain ⟨hregs', hread'⟩ := ih h
      have hpos : (vm.readRegw ecx so).toNat ≠ 0 := fun hz ↦ hne (BitVec.eq_of_toNat_eq hz)
      refine ⟨?_, by omega⟩
      rw [hregs', hregs, BitVec.sub_sub, Nat.add_comm n 1, BitVec.ofNat_add]
      rfl
    | inr r =>
      rw [iterate_succ_inr hs] at h
      cases h

theorem iterate_unroll {J : ℕ → VM → Prop} {so : Bool} {n : ℕ} {vm : VM} (h₀ : J 0 vm)
    (hn : n ≤ (vm.readRegw ecx so).toNat)
    (hstep : ∀ i t, i < n → J i t → ∃ t', (k.op w).run t = (.ok (), t') ∧
      goesOn t'.flags = true ∧ J (i + 1) (t'.setReg32 ecx (t.regs ecx - 1))) :
    ∃ t, iterate (unroll k w so goesOn) n vm = .inl t ∧ J n t := by
  induction n with
  | zero => exact ⟨vm, rfl, h₀⟩
  | succ n ih =>
    obtain ⟨t, hi, hJ⟩ := ih (by omega) fun i t hi ↦ hstep i t (by omega)
    obtain ⟨t', hrun, hgo, hJ'⟩ := hstep n t (by omega) hJ
    obtain ⟨-, hcount⟩ := iterate_counter hi
    have hc : t.readRegw ecx so ≠ 0 := by
      intro hz
      rw [hz] at hcount
      change 0 + n = _ at hcount
      omega
    refine ⟨_, ?_, hJ'⟩
    rw [iterate_add_inl hi 1]
    apply iterate_succ_inl
    rw [unroll_run hc hrun, if_pos hgo]

end Unrolling

section Loop

variable {σ : Type} {hv : Hypervisor σ}

structure Pipeline.Repeats (p : Pipeline) (k : StringOp) : Prop where
  string : StringOp.ofOpcode p.opcode = some k
  legal : p.function = .repe ∨ p.function = .repne ∧ k.compares = true

def Pipeline.goesOn (p : Pipeline) (k : StringOp) (f : X86Flags) : Bool :=
  !k.compares || f.zero == (p.function == .repe)

def Pipeline.pass (p : Pipeline) (k : StringOp) : VM → VM ⊕ (Outcome VMError Unit × VM) :=
  unroll k p.elementWidth p.sizeOverride (p.goesOn k)

/-- Gas for every pass that a REP slot comes to. -/
def Pipeline.Affords (p : Pipeline) (k : StringOp) (cost : ℕ) (vm : VM) (gas : ℕ) : Prop :=
  ∀ i vm', iterate (p.pass k) i vm.bare = .inl vm' → vm'.readRegw .ecx p.sizeOverride ≠ 0 →
    i * cost < gas

/-- How a REP loop ends: it runs out of gas before a pass, or as its unrolling does. -/
inductive Repeated (p : Pipeline) (k : StringOp) (cost : ℕ) (m : Machine σ) :
    Outcome VMError Unit → Machine σ → Prop
  | broke (m' : Machine σ) (i : ℕ) (hi : iterate (p.pass k) i m.vm.bare = .inl m'.vm.bare)
      (hc : m'.vm.readRegw .ecx p.sizeOverride ≠ 0) (hg : m.vm.gasRemaining.toNat ≤ i * cost) :
      Repeated p k cost m (.err .outOfGas) m'
  | done (o : Outcome VMError Unit) (m' : Machine σ) (ho : o ≠ .err .outOfGas)
      (hf : Finishes (p.pass k) m.vm.bare (o, m'.vm.bare))
      (hg : p.Affords k cost m.vm m.vm.gasRemaining.toNat) : Repeated p k cost m o m'

variable {p : Pipeline} {k : StringOp}

theorem call_string (h : StringOp.ofOpcode p.opcode = some k) (m : Machine σ) :
    (repOpcode p.opcode).function.call hv p m =
      (((k.op p.elementWidth).run m.vm).1, ⟨((k.op p.elementWidth).run m.vm).2, m.host⟩) := by
  obtain ⟨hf, -, -⟩ := StringOp.ofOpcode_spec h
  rw [hf, OpcodeFn.call_logic, k.logicFn_run]

theorem op_isMemory (p : Pipeline) {k : StringOp} {vm : VM} {e : VMError}
    (he : ((k.op p.elementWidth).run vm).1 = .err e) : e.isMemory = true := by
  rw [← k.logicFn_run p vm] at he
  exact (k.logicFn _).logic_memorySafe (k.logicFn_isString _) p vm e he

theorem call_repeats (h : p.Repeats k) (m : Machine σ) :
    p.function.call hv p m = repLoop hv p (m.vm.charger.cost (repOpcode p.opcode).gasCost)
      (fun vm ↦ .ok (p.goesOn k vm.flags)) (m.vm.readRegw .ecx p.sizeOverride).toNat m := by
  obtain ⟨-, hflag, hno⟩ := StringOp.ofOpcode_spec h.string
  obtain hf | ⟨hf, hk⟩ := h.legal
  · rw [hf]
    change repLoop .. = _
    congr 1
    funext vm
    rw [repeVerdict, hflag, hno, Pipeline.goesOn, hf]
    cases k.compares <;> cases vm.flags.zero <;> rfl
  · rw [hf]
    change repne hv p m = _
    rw [repne, if_pos (by rw [hflag, hk])]
    congr 1
    funext vm
    rw [repneVerdict, Pipeline.goesOn, hf, hk]
    cases vm.flags.zero <;> rfl

theorem pass_bare (vm : VM) :
    p.pass k vm.bare = (p.pass k vm).map VM.bare (Prod.map id VM.bare) := unroll_book 0 0 vm

theorem repeated_of_done {cost : ℕ} {m : Machine σ}
    (h : m.vm.readRegw .ecx p.sizeOverride = 0) : Repeated p k cost m (.ok ()) m := by
  have hs : p.pass k m.vm.bare = .inr (.ok (), m.vm.bare) := unroll_done h
  refine .done _ m nofun (.single hs) ?_
  intro i vm' hi hc
  cases i with
  | zero =>
    cases hi
    exact absurd h hc
  | succ i =>
    rw [iterate_succ_inr hs] at hi
    cases hi

theorem repeated_of_inr {cost : ℕ} {m m' : Machine σ} {o : Outcome VMError Unit}
    (hg : m.vm.gasRemaining ≠ 0) (ho : o ≠ .err .outOfGas)
    (hs : p.pass k m.vm.bare = .inr (o, m'.vm.bare)) : Repeated p k cost m o m' := by
  refine .done o m' ho (.single hs) ?_
  intro i vm' hi _
  cases i with
  | zero =>
    have hpos : m.vm.gasRemaining.toNat ≠ 0 := fun hz ↦ hg (BitVec.eq_of_toNat_eq hz)
    omega
  | succ i =>
    rw [iterate_succ_inr hs] at hi
    cases hi

theorem Repeated.head {cost : ℕ} {m m₁ m' : Machine σ} {o : Outcome VMError Unit}
    (hg : m.vm.gasRemaining ≠ 0) (hs : p.pass k m.vm.bare = .inl m₁.vm.bare)
    (hcost : m₁.vm.gasRemaining.toNat = m.vm.gasRemaining.toNat - cost)
    (h : Repeated p k cost m₁ o m') : Repeated p k cost m o m' := by
  have hpos : m.vm.gasRemaining.toNat ≠ 0 := fun hz ↦ hg (BitVec.eq_of_toNat_eq hz)
  cases h with
  | broke _ i hi hc hle =>
    refine .broke m' (i + 1) ((iterate_succ_inl hs i).trans hi) hc ?_
    rw [Nat.succ_mul]
    omega
  | done _ _ ho hf hafford =>
    refine .done o m' ho (.of_reaches (.single hs) hf) ?_
    intro i vm' hi hc
    cases i with
    | zero => omega
    | succ i =>
      rw [iterate_succ_inl hs] at hi
      have := hafford i vm' hi hc
      rw [Nat.succ_mul]
      omega

theorem pass_ok (cost : BitVec 64) {m : Machine σ} {vm₁ : VM}
    (hc : m.vm.readRegw .ecx p.sizeOverride ≠ 0)
    (hop : (k.op p.elementWidth).run m.vm = (.ok (), vm₁)) :
    let m₁ : Machine σ := Machine.charge ⟨vm₁.decrementRegw .ecx p.sizeOverride, m.host⟩ cost
    p.pass k m.vm.bare =
        (if p.goesOn k vm₁.flags then .inl m₁.vm.bare else .inr (.ok (), m₁.vm.bare)) ∧
      (m₁.vm.readRegw .ecx p.sizeOverride).toNat + 1 =
        (m.vm.readRegw .ecx p.sizeOverride).toNat ∧
      m₁.vm.gasRemaining.toNat = m.vm.gasRemaining.toNat - cost.toNat := by
  intro m₁
  have hpos : (m.vm.readRegw .ecx p.sizeOverride).toNat ≠ 0 :=
    fun hz ↦ hc (BitVec.eq_of_toNat_eq hz)
  refine ⟨?_, ?_, ?_⟩
  · have hpass : p.pass k m.vm = _ := if_neg hc
    rw [hop] at hpass
    rw [pass_bare, hpass]
    cases hgo : p.goesOn k vm₁.flags <;> simp only [hgo] <;> rfl
  · have hread := StringOp.op_readRegw hop p.sizeOverride
    have hdec := VM.readRegw_decrementRegw (hread ▸ hc)
    change ((vm₁.decrementRegw .ecx p.sizeOverride).readRegw .ecx _).toNat + 1 = _
    rw [hdec, hread]
    omega
  · have hframe := (k.op p.elementWidth).frame m.vm
    rw [hop] at hframe
    have hsame := (hframe.trans (vm₁.decrementRegw_frame .ecx p.sizeOverride)).gas
    refine (charge_gas _ cost).trans ?_
    rw [← hsame]

/-- A REP loop follows its unrolling as long as the gas lasts. -/
theorem repLoop_repeated (h : p.Repeats k) (cost : BitVec 64) (n : ℕ) {m : Machine σ}
    (hn : (m.vm.readRegw .ecx p.sizeOverride).toNat ≤ n) :
    let r := repLoop hv p cost (fun vm ↦ .ok (p.goesOn k vm.flags)) n m
    r.2.host = m.host ∧ Repeated p k cost.toNat m r.1 r.2 := by
  induction n generalizing m with
  | zero =>
    have hc : m.vm.readRegw .ecx p.sizeOverride = 0 :=
      BitVec.eq_of_toNat_eq (Nat.le_zero.mp hn)
    exact ⟨rfl, repeated_of_done hc⟩
  | succ n ih =>
    intro r
    by_cases hc : m.vm.readRegw .ecx p.sizeOverride = 0
    · have hr : r = (.ok (), m) := repLoop_done hc
      rw [hr]
      exact ⟨rfl, repeated_of_done hc⟩
    by_cases hg : m.vm.gasRemaining = 0
    · have hr : r = (.err .outOfGas, m) := repLoop_broke hc hg
      rw [hr]
      refine ⟨rfl, .broke m 0 rfl hc ?_⟩
      rw [hg]
      exact Nat.zero_le _
    have hr : r = _ := repLoop_pass hc hg
    rw [repPass, call_string h.string] at hr
    rcases hop : (k.op p.elementWidth).run m.vm with ⟨_ | e | _, vm₁⟩ <;> rw [hop] at hr
    · obtain ⟨hpass, hcount, hgas⟩ := pass_ok cost hc hop
      have hr : r = repAfter hv p cost (fun vm ↦ .ok (p.goesOn k vm.flags)) n (.ok (),
        Machine.charge ⟨vm₁.decrementRegw .ecx p.sizeOverride, m.host⟩ cost) := hr
      have hflags : (Machine.charge ⟨vm₁.decrementRegw .ecx p.sizeOverride, m.host⟩ cost).vm.flags =
          vm₁.flags := vm₁.decrementRegw_flags .ecx p.sizeOverride
      simp only [repAfter, hflags] at hr
      cases hgo : p.goesOn k vm₁.flags with
      | true =>
        rw [hgo, if_pos rfl] at hpass
        simp only [hgo] at hr
        obtain ⟨hhost, hrep⟩ := ih (Nat.le_of_succ_le_succ (hcount.trans_le hn))
        rw [hr]
        exact ⟨hhost, .head hg hpass hgas hrep⟩
      | false =>
        rw [hgo, if_neg Bool.false_ne_true] at hpass
        simp only [hgo] at hr
        rw [hr]
        exact ⟨rfl, repeated_of_inr hg (by simp) hpass⟩
    · have he : e.isMemory = true := op_isMemory p (congrArg Prod.fst hop)
      have hr : r = (.err e, ⟨vm₁, m.host⟩) := hr
      have hpass : p.pass k m.vm = _ := if_neg hc
      rw [hop] at hpass
      have hpass' : p.pass k m.vm.bare = .inr (.err e, vm₁.bare) := by
        rw [pass_bare, hpass]
        rfl
      rw [hr]
      refine ⟨rfl, repeated_of_inr hg ?_ hpass'⟩
      intro hx
      cases hx
      cases he
    · exact absurd (congrArg Prod.fst hop) StringOp.op_ne_panic

theorem call_repeated (h : p.Repeats k) (m : Machine σ) :
    let r := p.function.call hv p m
    r.2.host = m.host ∧
      Repeated p k (m.vm.charger.cost (repOpcode p.opcode).gasCost).toNat m r.1 r.2 := by
  intro r
  have hr : r = _ := call_repeats h m
  rw [hr]
  exact repLoop_repeated h _ _ le_rfl

theorem Repeated.ne_outOfGas {cost : ℕ} {m m' : Machine σ} {o : Outcome VMError Unit}
    (h : Repeated p k cost m o m') (hg : p.Affords k cost m.vm m.vm.gasRemaining.toNat) :
    o ≠ .err .outOfGas := by
  cases h with
  | broke _ i hi hc hle =>
    have := hg i m'.vm.bare hi hc
    omega
  | done _ _ ho => exact ho

theorem Repeated.finishes {cost : ℕ} {m m' : Machine σ} {o : Outcome VMError Unit}
    (h : Repeated p k cost m o m') (ho : o ≠ .err .outOfGas) :
    Finishes (p.pass k) m.vm.bare (o, m'.vm.bare) := by
  cases h with
  | broke => exact absurd rfl ho
  | done _ _ _ hf => exact hf

end Loop

end Qx86
