import Qx86.Execute.Image
import Qx86.Execute.Walk
import Qx86.Properties.RepUnrolling

namespace Qx86

open Foundation Bytes MemorySystem Register

variable {σ : Type} {hv : Hypervisor σ} {p : Pipeline} {k : StringOp} {w : ElementWidth} {n : ℕ}

namespace VM

structure Destination (vm : VM) (w : ElementWidth) (n : ℕ) : Prop where
  fits : vm.NonWrapping w edi n
  inside : ∀ i, i < n → vm.memory.Inside (vm.elementAddress w edi i) w.bytes
  writeable : ∀ i, i < n → ¬vm.elementAddress w edi i < WRITEABLE_MEMORY

structure Source (vm : VM) (w : ElementWidth) (n : ℕ) : Prop where
  fits : vm.NonWrapping w esi n
  inside : ∀ i, i < n → vm.memory.Inside (vm.elementAddress w esi i) w.bytes

/-- The two rows have no byte in common, or copying runs away from the overlap. -/
def Copyable (vm : VM) (w : ElementWidth) (n : ℕ) : Prop :=
  let src := vm.lowest w esi n
  let dst := vm.lowest w edi n
  src + n * w.bytes ≤ dst ∨ dst + n * w.bytes ≤ src ∨
    if vm.flags.direction then src ≤ dst else dst ≤ src

def storedFrom (vm : VM) (n i : ℕ) : ℕ := if vm.flags.direction then n - i else 0

def storedTo (vm : VM) (n i : ℕ) : ℕ := if vm.flags.direction then n else i

end VM

/-- A machine that has stored some elements of a row whose content is to be `g`. -/
structure Stored (k : StringOp) (w : ElementWidth) (g : Store (BitVec 8)) (n i : ℕ)
    (vm t : VM) : Prop where
  walked : Walked k w i vm t
  flags : t.flags = vm.flags
  sections : SameSections vm.memory t.memory
  memory : t.memory.byteAt = overlay vm.memory.byteAt g (vm.lowest w edi n)
    (vm.storedFrom n i * w.bytes) (vm.storedTo n i * w.bytes)

namespace Stored

variable {g : Store (BitVec 8)} {i : ℕ} {vm t : VM}

theorem zero (k : StringOp) (w : ElementWidth) (g : Store (BitVec 8)) (n : ℕ) (vm : VM) :
    Stored k w g n 0 vm vm where
  walked := .zero vm
  flags := rfl
  sections := .refl _
  memory := by
    refine (overlay_empty (Nat.mul_le_mul_right _ ?_)).symm
    unfold VM.storedFrom VM.storedTo
    split <;> omega

theorem next (hk : edi ∈ k.indices) (hm : vm.memory.Sectioned) (hdst : vm.Destination w n)
    (hi : i < n) (h : Stored k w g n i vm t) {v : BitVec w.operand.bits}
    (hv : view g (vm.place n i * w.bytes) w.bytes = (leBytes w.bytes v).map some) :
    ∃ t', t.setElement w (t.regs edi) v = .ok t' ∧ t'.flags = vm.flags ∧
      Stored k w g n (i + 1) vm
        ((t'.advance (t'.stride w) k.indices).setReg32 ecx (t.regs ecx - 1)) := by
  have hedi : t.regs edi = vm.elementAddress w edi i := h.walked.index edi hk
  have hin : t.memory.Inside (t.regs edi) w.bytes := by
    rw [hedi, h.sections.inside_iff]
    exact hdst.inside i hi
  have hwr : ¬t.regs edi < WRITEABLE_MEMORY := by
    rw [hedi]
    exact hdst.writeable i hi
  obtain ⟨m', hset, hbytes, hsame⟩ := VM.setElement_ok (h.sections.sectioned hm) hin hwr v
  have hstride : VM.stride w { t with memory := m' } = vm.stride w := h.walked.stride
  have hmem : (VM.advance { t with memory := m' } (VM.stride w { t with memory := m' })
      k.indices).memory = m' := VM.advance_memory
  refine ⟨_, hset, h.flags, ?_, ?_, ?_, ?_⟩
  · rw [hstride]
    exact h.walked.next rfl rfl rfl
  · exact VM.advance_flags.trans h.flags
  · change SameSections vm.memory (VM.advance _ _ _).memory
    rw [hmem]
    exact h.sections.trans hsame
  · refine (congrArg _ hmem).trans ?_
    rw [hbytes, hedi, VM.elementAddress_toNat hdst.fits hi, h.memory]
    refine patch_overlay ?_ ?_
    · rw [leBytes_length]
      exact hv
    · rw [leBytes_length]
      intro j
      unfold VM.storedFrom VM.storedTo VM.place
      cases vm.flags.direction with
      | false =>
        simp only [Bool.false_eq_true, if_false, Nat.add_mul]
        omega
      | true =>
        simp only [if_true]
        have hsplit : (n - i) * w.bytes = (n - 1 - i) * w.bytes + w.bytes := by
          rw [← Nat.succ_mul]
          congr 1
          omega
        have hle : (n - i) * w.bytes ≤ n * w.bytes := Nat.mul_le_mul_right _ (by omega)
        have hnext : n - (i + 1) = n - 1 - i := by omega
        rw [hnext]
        omega

theorem done (hn : i = n) (h : Stored k w g n i vm t) :
    t.memory.byteAt = overlay vm.memory.byteAt g (vm.lowest w edi n) 0 (n * w.bytes) := by
  subst hn
  rw [h.memory]
  unfold VM.storedFrom VM.storedTo
  split
  · rw [Nat.sub_self, Nat.zero_mul]
  · rw [Nat.zero_mul]

theorem run (hk : edi ∈ k.indices) (hm : vm.memory.Sectioned) (hdst : vm.Destination w n)
    {so : Bool} (hn : (vm.readRegw ecx so).toNat = n)
    (hstep : ∀ i t, i < n → Stored k w g n i vm t → ∃ v : BitVec w.operand.bits,
      view g (vm.place n i * w.bytes) w.bytes = (leBytes w.bytes v).map some ∧
      ∀ t', t.setElement w (t.regs edi) v = .ok t' →
        (k.op w).run t = (.ok (), t'.advance (t'.stride w) k.indices)) :
    ∃ t, iterate (unroll k w so fun _ ↦ true) n vm = .inl t ∧ Stored k w g n n vm t := by
  refine iterate_unroll (J := fun i t ↦ Stored k w g n i vm t) (zero k w g n vm) hn.ge ?_
  intro i t hi h
  obtain ⟨v, hv, hrun⟩ := hstep i t hi h
  obtain ⟨t', hset, -, hnext⟩ := h.next hk hm hdst hi hv
  exact ⟨_, hrun t' hset, rfl, hnext⟩

end Stored

section Move

variable {vm : VM}

theorem Stored.unread {g : Store (BitVec 8)} {i : ℕ} {t : VM} (hcopy : vm.Copyable w n)
    (hi : i < n) (h : Stored k w g n i vm t) :
    view t.memory.byteAt (vm.lowest w esi n + vm.place n i * w.bytes) w.bytes =
      view vm.memory.byteAt (vm.lowest w esi n + vm.place n i * w.bytes) w.bytes := by
  apply view_congr
  intro j hj
  rw [h.memory]
  apply overlay_outside
  unfold VM.Copyable at hcopy
  unfold VM.place VM.storedFrom VM.storedTo
  have hmul : ∀ a b, a ≤ b → a * w.bytes ≤ b * w.bytes := fun _ _ ↦ Nat.mul_le_mul_right _
  cases hd : vm.flags.direction with
  | false =>
    simp only [hd, Bool.false_eq_true, if_false] at hcopy ⊢
    have hlast := hmul (i + 1) n hi
    rw [Nat.succ_mul] at hlast
    omega
  | true =>
    simp only [hd, if_true] at hcopy ⊢
    have hsplit : (n - i) * w.bytes = (n - 1 - i) * w.bytes + w.bytes := by
      rw [← Nat.succ_mul]
      congr 1
      omega
    have hle := hmul (n - i) n (by omega)
    omega

theorem movs_stored (hm : vm.memory.Sectioned) (hsrc : vm.Source w n)
    (hdst : vm.Destination w n) (hcopy : vm.Copyable w n) {so : Bool}
    (hn : (vm.readRegw ecx so).toNat = n) :
    ∃ t, iterate (unroll .movs w so fun _ ↦ true) n vm = .inl t ∧
      Stored .movs w (fun j ↦ vm.memory.byteAt (vm.lowest w esi n + j)) n n vm t := by
  refine Stored.run (by decide) hm hdst hn ?_
  intro i t hi h
  have hesi : t.regs esi = vm.elementAddress w esi i := h.walked.index esi (by decide)
  have hin : t.memory.Inside (t.regs esi) w.bytes := by
    rw [hesi, h.sections.inside_iff]
    exact hsrc.inside i hi
  obtain ⟨v, hv, hview⟩ := VM.element_ok (h.sections.sectioned hm) hin
  refine ⟨v, ?_, ?_⟩
  · rw [hesi, VM.elementAddress_toNat hsrc.fits hi, h.unread hcopy hi] at hview
    rw [← hview]
    apply view_congr
    intro j _
    rw [Nat.add_assoc]
  · intro t' hset
    have hboth : t.element w (t.regs esi) >>= t.setElement w (t.regs edi) = .ok t' := by
      rw [hv]
      exact hset
    rw [movs_run, hboth]
    rfl

end Move

section Fill

variable {vm : VM}

theorem storeString_stored (hm : vm.memory.Sectioned) (hdst : vm.Destination w n) {so : Bool}
    (hn : (vm.readRegw ecx so).toNat = n) :
    ∃ t, iterate (unroll .storeString w so fun _ ↦ true) n vm = .inl t ∧
      Stored .storeString w (fun j ↦ (leBytes w.bytes (vm.accumulator w))[j % w.bytes]?) n n
        vm t := by
  refine Stored.run (by decide) hm hdst hn ?_
  intro i t hi h
  refine ⟨vm.accumulator w, ?_, ?_⟩
  · rw [view_eq_iff (by rw [List.length_map, leBytes_length])]
    intro j hj
    have hmod : (vm.place n i * w.bytes + j) % w.bytes = j := by
      rw [Nat.mul_comm, Nat.mul_add_mod, Nat.mod_eq_of_lt hj]
    have hlt : j < (leBytes w.bytes (vm.accumulator w)).length := by
      rw [leBytes_length]
      exact hj
    rw [hmod, List.getElem?_map, List.getElem?_eq_getElem hlt, Option.map_some]
  · intro t' hset
    have heax : t.regs eax = vm.regs eax := h.walked.other eax (by decide)
    rw [storeString_run, VM.accumulator_congr heax, hset]
    rfl

end Fill

/-- What REP MOVS and REP STOS leave, apart from the content of the row that they store. -/
structure RowStored (p : Pipeline) (k : StringOp) (n : ℕ) (m m' : Machine σ) : Prop where
  index : ∀ r ∈ k.indices,
    m'.vm.regs r = m.vm.regs r + BitVec.ofNat 32 n * m.vm.stride p.elementWidth
  counter : m'.vm.readRegw ecx p.sizeOverride = 0
  counted : m'.vm.regs ecx = m.vm.regs ecx - BitVec.ofNat 32 n
  other : ∀ r, r ∉ ecx :: k.indices → m'.vm.regs r = m.vm.regs r
  flags : m'.vm.flags = m.vm.flags
  eip : m'.vm.eip = m.vm.eip + p.eipSize.setWidth 32
  host : m'.host = m.host
  sections : SameSections m.vm.memory m'.vm.memory
  frame : ∀ x, x < m.vm.lowest p.elementWidth edi n ∨
    m.vm.lowest p.elementWidth edi n + n * p.elementWidth.bytes ≤ x →
      m'.vm.memory.byteAt x = m.vm.memory.byteAt x

theorem runSlot_stored (h : p.Repeats k) {m : Machine σ} {g : Store (BitVec 8)}
    (hn : (m.vm.readRegw ecx p.sizeOverride).toNat = n) (hgas : p.PaidFor n m.vm) {t : VM}
    (hrun : iterate (p.pass k) n m.vm.bare = .inl t)
    (ht : Stored k p.elementWidth g n n m.vm.bare t) :
    ∃ m', runSlot hv p m = .inl m' ∧ RowStored p k n m m' ∧ m'.vm.memory.byteAt =
      overlay m.vm.memory.byteAt g (m.vm.lowest p.elementWidth edi n) 0
        (n * p.elementWidth.bytes) := by
  obtain ⟨-, hcount⟩ := iterate_counter hrun
  have hzero : t.readRegw ecx p.sizeOverride = 0 := by
    apply BitVec.eq_of_toNat_eq
    change (m.vm.bare.readRegw ecx p.sizeOverride).toNat = n at hn
    change _ = 0
    omega
  obtain ⟨m', hslot, hhost, hbare⟩ := runSlot_passed h (.counted hrun hzero) hgas
  have hregs : m'.vm.regs = t.regs := (congrArg VM.regs hbare :)
  have hmem : m'.vm.memory = t.memory := (congrArg VM.memory hbare :)
  have hbytes := ht.done rfl
  refine ⟨m', hslot, ?_, ?_⟩
  · constructor
    · intro r hr
      rw [hregs, ht.walked.index r hr]
      rfl
    · rw [← hzero, VM.readRegw, VM.readRegw, hregs]
    · rw [hregs, ht.walked.counter]
      rfl
    · intro r hr
      rw [hregs, ht.walked.other r hr]
      rfl
    · exact (congrArg VM.flags hbare).trans ht.flags
    · refine (congrArg VM.eip hbare).trans ?_
      change t.eip + _ = _
      rw [ht.walked.eip]
      rfl
    · exact hhost
    · rw [hmem]
      exact ht.sections
    · intro x hx
      rw [hmem, hbytes]
      exact overlay_outside hx
  · rw [hmem, hbytes]
    rfl

/-- REP MOVS is `memmove` and REP STOS is `memset`. -/
theorem rep_movs_stos (m : Machine σ) (hm : m.vm.memory.Sectioned)
    (hn : (m.vm.readRegw ecx p.sizeOverride).toNat = n) (hgas : p.PaidFor n m.vm)
    (hdst : m.vm.Destination p.elementWidth n) :
    (p.Repeats .movs → m.vm.Source p.elementWidth n → m.vm.Copyable p.elementWidth n →
      ∃ m', runSlot hv p m = .inl m' ∧ RowStored p .movs n m m' ∧
        view m'.vm.memory.byteAt (m.vm.lowest p.elementWidth edi n) (n * p.elementWidth.bytes) =
          view m.vm.memory.byteAt (m.vm.lowest p.elementWidth esi n)
            (n * p.elementWidth.bytes)) ∧
    (p.Repeats .storeString →
      ∃ m', runSlot hv p m = .inl m' ∧ RowStored p .storeString n m m' ∧ ∀ i, i < n →
        view m'.vm.memory.byteAt
            (m.vm.lowest p.elementWidth edi n + i * p.elementWidth.bytes) p.elementWidth.bytes =
          (leBytes p.elementWidth.bytes (m.vm.accumulator p.elementWidth)).map some) := by
  have hdst' : m.vm.bare.Destination p.elementWidth n := ⟨hdst.fits, hdst.inside, hdst.writeable⟩
  constructor
  · intro h hsrc hcopy
    obtain ⟨t, hrun, ht⟩ := @movs_stored p.elementWidth n m.vm.bare hm ⟨hsrc.fits, hsrc.inside⟩
      hdst' hcopy p.sizeOverride hn
    obtain ⟨m', hslot, hrow, hbytes⟩ := @runSlot_stored σ hv p _ n h m _ hn hgas t hrun ht
    refine ⟨m', hslot, hrow, ?_⟩
    rw [hbytes]
    apply view_congr
    intro i hi
    rw [overlay_inside (by omega) (by omega), Nat.add_sub_cancel_left]
    rfl
  · intro h
    obtain ⟨t, hrun, ht⟩ :=
      @storeString_stored p.elementWidth n m.vm.bare hm hdst' p.sizeOverride hn
    obtain ⟨m', hslot, hrow, hbytes⟩ := @runSlot_stored σ hv p _ n h m _ hn hgas t hrun ht
    refine ⟨m', hslot, hrow, ?_⟩
    intro i hi
    rw [hbytes, view_eq_iff (by rw [List.length_map, leBytes_length])]
    intro j hj
    have hle : (i + 1) * p.elementWidth.bytes ≤ n * p.elementWidth.bytes :=
      Nat.mul_le_mul_right _ hi
    rw [Nat.succ_mul] at hle
    rw [overlay_inside (by omega) (by omega), List.getElem?_map]
    have hoffset : (m.vm.lowest p.elementWidth edi n + i * p.elementWidth.bytes + j -
        m.vm.lowest p.elementWidth edi n) % p.elementWidth.bytes = j := by
      rw [Nat.add_assoc, Nat.add_sub_cancel_left, Nat.mul_comm, Nat.mul_add_mod,
        Nat.mod_eq_of_lt hj]
    have hlt : j < (leBytes p.elementWidth.bytes (m.vm.accumulator p.elementWidth)).length := by
      rw [leBytes_length]
      exact hj
    rw [hoffset, List.getElem?_eq_getElem hlt, Option.map_some]
    exact congrArg some (List.getElem?_eq_getElem hlt).symm

/-- A machine about to repeat a string instruction on the two bytes that end at `src` and at
`dst`. -/
def rowMachine (src dst : BitVec 32) : Machine (List (BitVec 8)) where
  vm := { createVm zeroSection with
    regs := fun r ↦ if r = ecx then 2 else if r = esi then src else if r = edi then dst
      else 0x5A
    flags := { direction := true }
    memory := codeMemory zeroSection ⟨[1, 2, 3, 4], by decide⟩ }
  host := []

theorem codeMemory_sectioned {code data : BufferMemory} (hc : code.memory.length ≤ 0x10000)
    (hd : data.memory.length ≤ 0x10000) : (codeMemory code data).Sectioned := by
  have hempty : Sectioned (default : MemorySystem) := ⟨nofun, nofun⟩
  exact (hempty.insert rfl hc).insert rfl hd

theorem rowMachine_destination :
    (rowMachine 0x80000001 0x80000002).vm.Destination .byte 2 where
  fits := by
    unfold VM.NonWrapping
    decide
  inside i hi := by
    refine ⟨DATA_MEM, _, rfl, ?_⟩
    revert i
    decide +kernel
  writeable := by decide +kernel

theorem rowMachine_source : (rowMachine 0x80000001 0x80000002).vm.Source .byte 2 where
  fits := by
    unfold VM.NonWrapping
    decide
  inside i hi := by
    refine ⟨DATA_MEM, _, rfl, ?_⟩
    revert i
    decide +kernel

/-- Two overlapping bytes copied downwards, and the same two bytes filled. -/
theorem rep_movs_stos_overlap :
    (∃ m', runSlot testHypervisor { stosbSlot with opcode := 0xA4 }
        (rowMachine 0x80000001 0x80000002) = .inl m' ∧
      view m'.vm.memory.byteAt 0x80000001 2 = [some 1, some 2]) ∧
    ∃ m', runSlot testHypervisor stosbSlot (rowMachine 0x80000001 0x80000002) = .inl m' ∧
      ∀ i, i < 2 → view m'.vm.memory.byteAt (0x80000001 + i * 1) 1 = [some 0x5A] := by
  have hm : (rowMachine 0x80000001 0x80000002).vm.memory.Sectioned :=
    codeMemory_sectioned (by decide) (by decide)
  constructor
  · obtain ⟨m', hslot, -, hrow⟩ := (@rep_movs_stos _ testHypervisor
      { stosbSlot with opcode := 0xA4 } 2 (rowMachine 0x80000001 0x80000002) hm (by decide)
      ⟨by decide, by decide⟩ rowMachine_destination).1 ⟨rfl, .inl rfl⟩ rowMachine_source
      (.inr (.inr (by decide)))
    exact ⟨m', hslot, hrow.trans (by decide +kernel)⟩
  · obtain ⟨m', hslot, -, hrow⟩ := (@rep_movs_stos _ testHypervisor stosbSlot 2
      (rowMachine 0x80000001 0x80000002) hm (by decide) ⟨by decide, by decide⟩
      rowMachine_destination).2 ⟨rfl, .inl rfl⟩
    exact ⟨m', hslot, fun i hi ↦ (hrow i hi).trans (by decide +kernel)⟩

end Qx86
