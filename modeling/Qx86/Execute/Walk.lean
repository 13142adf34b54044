import Qx86.Execute.Repetition
import Qx86.Machine.Elements

namespace Qx86

open Foundation Register

namespace VM

variable {vm : VM} {d : BitVec 32} {rs : List Register}

theorem advance_flags : (vm.advance d rs).flags = vm.flags := by
  induction rs generalizing vm with
  | nil => rfl
  | cons r rs ih => exact @ih (vm.setReg32 r (vm.regs r + d))

theorem advance_eip : (vm.advance d rs).eip = vm.eip := by
  induction rs generalizing vm with
  | nil => rfl
  | cons r rs ih => exact @ih (vm.setReg32 r (vm.regs r + d))

theorem advance_memory : (vm.advance d rs).memory = vm.memory := by
  induction rs generalizing vm with
  | nil => rfl
  | cons r rs ih => exact @ih (vm.setReg32 r (vm.regs r + d))

end VM

def StringOp.indices : StringOp → List Register
  | movs | cmps => [edi, esi]
  | storeString | scanString => [edi]
  | loadString => [esi]

theorem StringOp.indices_spec (k : StringOp) : k.indices.Nodup ∧ ecx ∉ k.indices := by
  cases k <;> decide

structure Walked (k : StringOp) (w : ElementWidth) (i : ℕ) (vm vm' : VM) : Prop where
  index : ∀ r ∈ k.indices, vm'.regs r = vm.elementAddress w r i
  counter : vm'.regs ecx = vm.regs ecx - BitVec.ofNat 32 i
  other : ∀ r, r ∉ ecx :: k.indices → vm'.regs r = vm.regs r
  direction : vm'.flags.direction = vm.flags.direction
  eip : vm'.eip = vm.eip

namespace Walked

variable {k : StringOp} {w : ElementWidth} {i : ℕ} {vm t : VM}

theorem zero (vm : VM) : Walked k w 0 vm vm where
  index r _ := by
    change vm.regs r = vm.regs r + 0 * vm.stride w
    rw [zero_mul, add_zero]
  counter := (sub_zero _).symm
  other _ _ := rfl
  direction := rfl
  eip := rfl

theorem stride (h : Walked k w i vm t) : t.stride w = vm.stride w := by
  rw [VM.stride, VM.stride, h.direction]

theorem next (h : Walked k w i vm t) {t' : VM} (hregs : t'.regs = t.regs)
    (hd : t'.flags.direction = t.flags.direction) (he : t'.eip = t.eip) :
    Walked k w (i + 1) vm
      ((t'.advance (vm.stride w) k.indices).setReg32 ecx (t.regs ecx - 1)) := by
  obtain ⟨hnodup, hecx⟩ := k.indices_spec
  constructor
  · intro r hr
    have hne : r ≠ ecx := by
      rintro rfl
      exact hecx hr
    rw [VM.setReg32_of_ne hne, VM.advance_of_mem hr hnodup, hregs, h.index r hr,
      VM.elementAddress_succ]
  · rw [VM.setReg32_self, h.counter, BitVec.ofNat_add]
    exact sub_sub ..
  · intro r hr
    have hr' := h.other r hr
    rw [List.mem_cons, not_or] at hr
    rw [VM.setReg32_of_ne hr.1, VM.advance_of_notMem _ hr.2, hregs, hr']
  · exact (congrArg _ VM.advance_flags).trans (hd.trans h.direction)
  · exact VM.advance_eip.trans (he.trans h.eip)

end Walked

section Slots

variable {σ : Type} {hv : Hypervisor σ} {p : Pipeline} {k : StringOp}

/-- Gas for the charge of a REP slot and for some passes. -/
structure Pipeline.PaidFor (p : Pipeline) (n : ℕ) (vm : VM) : Prop where
  slot : p.gasCost.toNat ≤ vm.gasRemaining.toNat
  passes : ∀ i, i < n → i * (vm.charger.cost (repOpcode p.opcode).gasCost).toNat <
    vm.gasRemaining.toNat - p.gasCost.toNat

/-- A repetition that comes to its end with some passes. -/
inductive Pipeline.Passed (p : Pipeline) (k : StringOp) (n : ℕ) (vm t : VM) : Prop
  | counted (hi : iterate (p.pass k) n vm = .inl t) (hc : t.readRegw ecx p.sizeOverride = 0)
  | stopped (hi : iterate (p.pass k) n vm = .inr (.ok (), t))

theorem Pipeline.Passed.finishes {n : ℕ} {vm t : VM} (h : p.Passed k n vm t) :
    Finishes (p.pass k) vm (.ok (), t) := by
  cases h with
  | counted hi hc => exact .of_reaches ⟨n, hi⟩ (.single (unroll_done hc))
  | stopped hi => exact ⟨n, hi⟩

theorem Pipeline.Passed.lt {n i : ℕ} {vm t t' : VM} (h : p.Passed k n vm t)
    (hi : iterate (p.pass k) i vm = .inl t') (hc : t'.readRegw ecx p.sizeOverride ≠ 0) :
    i < n := by
  by_contra hle
  obtain ⟨j, rfl⟩ := Nat.exists_eq_add_of_le (not_lt.mp hle)
  cases h with
  | counted hn hz =>
    rw [iterate_add_inl hn] at hi
    cases j with
    | zero =>
      cases hi
      exact hc hz
    | succ j =>
      have hs : p.pass k t = .inr (.ok (), t) := unroll_done hz
      rw [iterate_succ_inr hs] at hi
      cases hi
  | stopped hn =>
    rw [iterate_add_inr hn] at hi
    cases hi

/-- A REP slot with enough gas does all the passes of its unrolling. -/
theorem runSlot_passed (h : p.Repeats k) {n : ℕ} {m : Machine σ} {t : VM}
    (hpass : p.Passed k n m.vm.bare t) (hgas : p.PaidFor n m.vm) :
    ∃ m', runSlot hv p m = .inl m' ∧ m'.host = m.host ∧
      m'.vm.bare = { t with eip := t.eip + p.eipSize.setWidth 32 }.bare := by
  have hg : ¬m.vm.gasRemaining < p.gasCost := by
    rw [BitVec.lt_def]
    have := hgas.slot
    omega
  obtain ⟨hhost, hrep⟩ := @call_repeated σ hv p k h (m.charge p.gasCost)
  have hleft := charge_gas m p.gasCost
  have hafford : p.Affords k (m.vm.charger.cost (repOpcode p.opcode).gasCost).toNat
      (m.charge p.gasCost).vm (m.charge p.gasCost).vm.gasRemaining.toNat := by
    intro i t' hi hc
    rw [hleft]
    exact hgas.passes i (hpass.lt hi hc)
  have hf := hrep.finishes (hrep.ne_outOfGas hafford)
  have heq := hf.unique hpass.finishes
  rw [runSlot_call hg]
  rcases hcall : p.function.call hv p (m.charge p.gasCost) with ⟨o, m'⟩
  rw [hcall] at heq hhost
  rw [Prod.mk.injEq] at heq
  obtain ⟨ho, ht⟩ := heq
  change o = .ok () at ho
  change m'.vm.bare = t at ht
  subst ho
  refine ⟨m'.advance p.eipSize, rfl, hhost, ?_⟩
  rw [← ht]
  rfl

end Slots

end Qx86
