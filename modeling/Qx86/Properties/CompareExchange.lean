import Qx86.Machine.Accumulator
import Qx86.Properties.Comparisons
import Qx86.Properties.DecodedSlots

namespace Qx86

open Foundation Words Bytes Halves Op Operations Register MemorySystem

variable {e : Effects} {w : ElementWidth} {p q : Pipeline} {op : Opcode} {vm : VM}
  {c d s : BitVec w.operand.bits} {l : ArgLocation}

def cmpxchgFunction (w : ElementWidth) : LogicFn := w.select .cmpxchg8bit .cmpxchgNativeWord

def cmpFunction (w : ElementWidth) : LogicFn := w.select .cmp8bit .cmpNativeWord

/-- An operand whose address is the same whatever is in the accumulator. -/
def VM.AddressKeeps (vm : VM) (w : ElementWidth) (l : ArgLocation) : Prop :=
  ∀ v : BitVec w.operand.bits,
    (vm.setReg eax (w.operand.sized v)).getArgLea l = vm.getArgLea l

/-- A compare-and-exchange of a destination with a source, by the accumulator. -/
structure CompareExchanges (w : ElementWidth) (p : Pipeline) (vm : VM)
    (c d s : BitVec w.operand.bits) (f : X86Flags) (o : Outcome VMError Unit × VM) : Prop where
  equal : d = c → ∃ t, vm.setArg (p.args 0).location (w.operand.sized s) = .ok t ∧
    o = (.ok (), { t with flags := f })
  unequal : d ≠ c → o = (.ok (), { vm.setReg eax (w.operand.sized d) with flags := f })
  zero : f.zero = decide (d = c)
  accumulator : d = c → (p.args 0).location ≠ .registerValue eax w.operand.size →
    o.2.getReg eax w.operand.size = w.operand.sized c
  destination : d ≠ c → o.2.memory = vm.memory ∧ ∀ r,
    (p.args 0).location = .registerValue r w.operand.size →
      o.2.getReg r w.operand.size = w.operand.sized d
  retry : d ≠ c → vm.AddressKeeps w (p.args 0).location →
    ∃ t, (((cmpxchgFunction w).logic p).run o.2) = (.ok (), t) ∧ t.flags.zero = true

def VM.edxEax (vm : VM) : BitVec 64 := vm.accumulatorPair .dword

def VM.ecxEbx (vm : VM) : BitVec 64 := (paired (vm.regs ecx) (vm.regs ebx) : BitVec (2 * 32))

def VM.setEdxEax (vm : VM) (d : BitVec 64) : VM :=
  setPair .dword vm (highHalf (n := 32) d) (lowHalf (n := 32) d)

def VM.AddressKeepsPair (vm : VM) (l : ArgLocation) : Prop :=
  ∀ d, (vm.setEdxEax d).getArgLea l = vm.getArgLea l

structure CompareExchanges8 (p : Pipeline) (vm : VM) (a : BitVec 32) (d : BitVec 64)
    (o : Outcome VMError Unit × VM) : Prop where
  equal : d = vm.edxEax → ∃ t,
    vm.setMem a (.qword vm.ecxEbx) = .ok t ∧ t.regs = vm.regs ∧
      o = (.ok (), { t with flags := { vm.flags with zero := true } })
  unequal : d ≠ vm.edxEax →
    o = (.ok (), { vm.setEdxEax d with flags := { vm.flags with zero := false } })
  accumulator : d ≠ vm.edxEax → o.2.edxEax = d
  destination : d ≠ vm.edxEax → o.2.memory = vm.memory
  retry : d ≠ vm.edxEax → vm.AddressKeepsPair (p.args 0).location →
    ∃ t, (LogicFn.cmpxchg8b.logic p).run o.2 = (.ok (), t) ∧ t.flags.zero = true

theorem zero_ofDifference (f : X86Flags) (c d : BitVec w.operand.bits) :
    (f.ofDifference c d).zero = decide (d = c) :=
  (ofDifference_zero f c d).trans (decide_eq_decide.mpr eq_comm)

section Run

variable (hc : vm.getReg eax w.operand.size = w.operand.sized c)
  (hd : vm.getArg (p.args 0).location = .ok (w.operand.sized d))
  (hs : vm.getArg (p.args 1).location = .ok (w.operand.sized s))

include hc hd hs

theorem cmpxchg_run : (cmpxchg w.operand p : Op e Unit).run vm =
    if d = c then vm.stored (vm.flags.ofDifference c d) (p.args 0).location (w.operand.sized s)
    else (.ok (), { vm.setReg eax (w.operand.sized d) with
      flags := vm.flags.ofDifference c d }) := by
  have hzero : (vm.flags.ofDifference c d).zero = true ↔ d = c := by
    rw [zero_ofDifference, decide_eq_true_iff]
  have hread : (cmpxchg w.operand p : Op e Unit).run vm =
      (if (vm.flags.ofDifference c d).zero then
          setArg (p.args 0).location (w.operand.sized s)
        else setReg eax (w.operand.sized d) : Op e Unit).run
          { vm with flags := vm.flags.ofDifference c d } := by
    simp only [cmpxchg, run_bind, run_getReg, hc, runBind_ok, run_ofExcept, exact_sized,
      Outcome.ofExcept_ok, run_getArgAs, exact_destination hd, run_getArg, hs, run_modifyFlags,
      X86Flags.getFlags_difference, run_flags]
  rw [hread, run_ite]
  by_cases h : d = c
  · rw [if_pos h, if_pos (hzero.mpr h)]
    rfl
  · rw [if_neg h, if_neg (mt hzero.mp h), run_setReg, VM.setReg_flags]

end Run

section Retry

theorem memory_setReg (vm : VM) (r : Register) (v : BitVec w.operand.bits) :
    (vm.setReg r (w.operand.sized v)).memory = vm.memory := by
  rw [VM.setReg_eq]
  rfl

theorem getReg_setArg_of_ne {r : Register} {t : VM} (hl : l.size = w.operand.size)
    (hne : l ≠ .registerValue r w.operand.size) (ht : vm.setArg l (w.operand.sized s) = .ok t) :
    t.getReg r w.operand.size = vm.getReg r w.operand.size := by
  obtain ⟨x, rfl⟩ | ⟨r', rfl⟩ | ⟨a, ha⟩ := ArgLocation.kinds hl vm
  · cases ht
  · have hr : r ≠ r' := by
      rintro rfl
      exact hne rfl
    rw [ArgLocation.setArg_register] at ht
    cases ht
    exact VM.getReg_setReg_of_ne vm hr s
  · rw [ArgLocation.setArg_memory ha hl] at ht
    obtain ⟨-, m, -, rfl⟩ := VM.setMem_ok ht
    rfl

theorem getArg_loaded {r : Register} (hd : vm.getArg l = .ok (w.operand.sized d))
    (hl : ∀ r', l = .registerValue r' w.operand.size → r' ≠ r) (v : BitVec w.operand.bits)
    (ha : (vm.setReg r (w.operand.sized v)).getArgLea l = vm.getArgLea l) :
    (vm.setReg r (w.operand.sized v)).getArg l = .ok (w.operand.sized d) := by
  have hsize := size_of_getArg hd
  obtain ⟨x, rfl⟩ | ⟨r', rfl⟩ | ⟨a, hlea⟩ := ArgLocation.kinds hsize vm
  · exact hd
  · have hne := hl r' rfl
    exact (congrArg Except.ok (VM.getReg_setReg_of_ne vm hne v)).trans hd
  · have hmemory : (vm.setReg r (w.operand.sized v)).memory = vm.memory := by
      rw [VM.setReg_eq]
      rfl
    rw [ArgLocation.getArg_memory (ha.trans hlea), VM.getMem_congr hmemory,
      ← ArgLocation.getArg_memory hlea, hd]

theorem cmpxchg_retry {r : Register} (f : X86Flags)
    (hr : (p.args 1).location = .registerValue r w.operand.size)
    (hd : vm.getArg (p.args 0).location = .ok (w.operand.sized d))
    (hne : ∀ r', (p.args 0).location = .registerValue r' w.operand.size → r' ≠ eax)
    (hw : vm.Writeable w (p.args 0).location)
    (ha : (vm.setReg eax (w.operand.sized d)).getArgLea (p.args 0).location =
      vm.getArgLea (p.args 0).location) :
    ∃ t, (cmpxchg w.operand p : Op e Unit).run
        { vm.setReg eax (w.operand.sized d) with flags := f } = (.ok (), t) ∧
      t.flags.zero = true := by
  have hl := size_of_getArg hd
  have hloaded := getArg_loaded hd hne d ha
  have hsame : SameSections vm.memory (vm.setReg eax (w.operand.sized d)).memory := by
    rw [memory_setReg]
    exact .refl _
  have hacc := VM.getReg_setReg vm eax d
  have hwriteable := hw.congr hl hsame ha
  obtain ⟨u, hu⟩ : ∃ u, u = (vm.setReg eax (w.operand.sized d) : VM) := ⟨_, rfl⟩
  rw [← hu] at hloaded hacc hwriteable ⊢
  obtain ⟨s, hs⟩ : ∃ s, u.getReg r w.operand.size = w.operand.sized s :=
    ⟨_, VM.getReg_eq u w r⟩
  have hsource : u.getArg (p.args 1).location = .ok (w.operand.sized s) := by
    rw [hr]
    exact congrArg Except.ok hs
  obtain ⟨t, ht⟩ := hwriteable.store hl s
  obtain ⟨v, hv⟩ : ∃ v, v = { u with flags := f } := ⟨_, rfl⟩
  have hacc' : v.getReg eax w.operand.size = w.operand.sized d := hv ▸ hacc
  have hloaded' : v.getArg (p.args 0).location = .ok (w.operand.sized d) :=
    hv ▸ (VM.getArg_flags u f _).trans hloaded
  have hsource' : v.getArg (p.args 1).location = .ok (w.operand.sized s) :=
    hv ▸ (VM.getArg_flags u f _).trans hsource
  have hagain := cmpxchg_run (e := e) hacc' hloaded' hsource'
  rw [if_pos rfl, VM.stored, hv, VM.setArg_flags, VM.setArg_flags, ht] at hagain
  exact ⟨_, hagain, (zero_ofDifference _ d d).trans (decide_eq_true rfl)⟩

theorem cmpDestination_flags (hq : q.HasWidth w)
    (hq₀ : (q.args 0).location = .registerValue eax w.operand.size)
    (hq₁ : (q.args 1).location = (p.args 0).location)
    (hc : vm.getReg eax w.operand.size = w.operand.sized c)
    (hd : vm.getArg (p.args 0).location = .ok (w.operand.sized d)) :
    (((cmpFunction w).logic q).run vm).2.flags = vm.flags.ofDifference c d := by
  have hacc : vm.getArg (q.args 0).location = .ok (w.operand.sized c) := by
    rw [hq₀]
    exact congrArg Except.ok hc
  have hdest : vm.SourceReads w (q.args 1).location d := by
    rw [hq₁]
    exact .inl hd
  rw [cmpFunction, select_run (F := Operations.cmp) (fun _ ↦ rfl) (fun _ ↦ rfl) hq,
    cmp_run hacc hdest]

end Retry

theorem cmpxchg_exact (hp : p.Decoded op)
    (hf : p.function = .opcode (.logic (cmpxchgFunction w))) (hpw : p.HasWidth w)
    (hq : q.HasWidth w) (hq₀ : (q.args 0).location = .registerValue eax w.operand.size)
    (hq₁ : (q.args 1).location = (p.args 0).location)
    (hc : vm.getReg eax w.operand.size = w.operand.sized c)
    (hd : vm.getArg (p.args 0).location = .ok (w.operand.sized d))
    (hw : vm.Writeable w (p.args 0).location)
    (hs : vm.getArg (p.args 1).location = .ok (w.operand.sized s)) :
    CompareExchanges w p vm c d s (((cmpFunction w).logic q).run vm).2.flags
      (((cmpxchgFunction w).logic p).run vm) := by
  have hl := size_of_getArg hd
  have hrun : ∀ t, ((cmpxchgFunction w).logic p).run t =
      (cmpxchg w.operand p : Op .straight Unit).run t :=
    select_run (F := cmpxchg) (fun _ ↦ rfl) (fun _ ↦ rfl) hpw
  obtain ⟨r, size, hr⟩ := hp.modrm_register hf (by cases w <;> rfl)
  have hsize : size = w.operand.size := by
    have hs' := size_of_getArg hs
    rw [hr] at hs'
    exact hs'
  rw [hsize] at hr
  rw [cmpDestination_flags hq hq₀ hq₁ hc hd, hrun, cmpxchg_run hc hd hs]
  by_cases h : d = c
  · obtain ⟨t, ht⟩ := hw.store hl s
    rw [if_pos h, stored_ok ht]
    refine ⟨fun _ ↦ ⟨t, ht, rfl⟩, fun hne ↦ absurd h hne, zero_ofDifference _ c d, ?_,
      fun hne ↦ absurd h hne, fun hne ↦ absurd h hne⟩
    intro _ hne
    exact (getReg_setArg_of_ne hl hne ht).trans hc
  · have hregister : ∀ r', (p.args 0).location = .registerValue r' w.operand.size → r' ≠ eax := by
      rintro _ hr' rfl
      rw [hr'] at hd
      exact h (ElementWidth.sized_injective ((Except.ok.inj hd).symm.trans hc))
    rw [if_neg h]
    refine ⟨fun heq ↦ absurd heq h, fun _ ↦ rfl, zero_ofDifference _ c d, fun heq ↦ absurd heq h,
      ?_, ?_⟩
    · intro _
      refine ⟨memory_setReg vm eax d, ?_⟩
      intro r' hr'
      rw [hr'] at hd
      exact (VM.getReg_setReg_of_ne vm (hregister r' hr') d).trans (Except.ok.inj hd)
    · intro _ hkeeps
      obtain ⟨t, ht, hzero⟩ := cmpxchg_retry _ hr hd hregister hw (hkeeps d)
      exact ⟨t, (hrun _).trans ht, hzero⟩

section Memory

variable {a : BitVec 32} {d : BitVec 64} {t : VM}

theorem setMem_qword_writeable {u : VM} {x : BitVec 64} (x' : BitVec 64)
    (hm : u.memory = vm.memory) (h : vm.setMem a (.qword x) = .ok t) :
    ∃ t', u.setMem a (.qword x') = .ok t' := by
  obtain ⟨ha, m, hset, rfl⟩ := VM.setMem_ok h
  obtain ⟨m', hm'⟩ := setBytes_sections (leBytes 8 x') (.refl _) ⟨m, hset⟩
  rw [WRITEABLE_MEMORY, ← topBit_eq_zero] at ha
  refine ⟨{ u with memory := m' }, ?_⟩
  rw [VM.setMem, if_neg ha, hm]
  exact congrArg ((fun m ↦ { u with memory := m }) <$> ·) hm'

theorem paired_add (x y : BitVec 32) :
    (x.setWidth 64 <<< 32) + y.setWidth 64 = (paired x y : BitVec (2 * 32)) := by
  have hx := x.isLt
  have hy := y.isLt
  apply BitVec.eq_of_toNat_eq
  refine Eq.trans ?_ (paired_toNat x y).symm
  rw [BitVec.toNat_add, BitVec.toNat_shiftLeft, BitVec.toNat_setWidth_of_le (by decide),
    BitVec.toNat_setWidth_of_le (by decide), Nat.shiftLeft_eq, joined]
  omega

theorem cmpxchg8b_run (ha : vm.getArgLea (p.args 0).location = .ok a)
    (hd : vm.getMem a .qword = .ok (.qword d)) (ht : vm.setMem a (.qword vm.ecxEbx) = .ok t) :
    (cmpxchg8b p : Op e Unit).run vm =
      if d = vm.edxEax then
        (.ok (), { t with flags := { vm.flags with zero := true } })
      else (.ok (), { vm.setEdxEax d with flags := { vm.flags with zero := false } }) := by
  have hlow : (d &&& 0xFFFFFFFF).setWidth 32 = lowHalf (n := 32) d :=
    and_mask_extract 0 32 (by decide) (by decide)
  have hhigh : ((d &&& 0xFFFFFFFF00000000) >>> 32).setWidth 32 = highHalf (n := 32) d :=
    and_mask_extract 32 32 (by decide) (by decide)
  have hread : vm.getMem a .qword >>= SizedValue.u64Exact = .ok d := by
    rw [hd]
    rfl
  have hpair : (vm.reg32 edx).setWidth 64 <<< 32 + (vm.reg32 eax).setWidth 64 = vm.edxEax :=
    paired_add _ _
  have hsource : (vm.reg32 ecx).setWidth 64 <<< 32 + (vm.reg32 ebx).setWidth 64 = vm.ecxEbx :=
    paired_add _ _
  simp only [cmpxchg8b, run_bind, run_reg32, runBind_ok, run_getArgLea, ha, Outcome.ofExcept_ok,
    run_getMemAs, hread, hlow, hhigh]
  rw [hpair, hsource, run_ite]
  by_cases h : vm.edxEax = d
  · rw [if_pos h, if_pos h.symm, run_bind, run_modifyFlags, runBind_ok, run_setMem, VM.setMem_flags,
      ht]
    rfl
  · rw [if_neg h, if_neg fun heq ↦ h heq.symm]
    rfl

theorem edxEax_setEdxEax (vm : VM) (d : BitVec 64) : (vm.setEdxEax d).edxEax = d := by
  have hhigh : (vm.setEdxEax d).extension .dword = highHalf (n := 32) d := VM.extension_setPair
  have hlow : (vm.setEdxEax d).accumulator .dword = lowHalf (n := 32) d := VM.accumulator_setPair
  rw [VM.edxEax, VM.accumulatorPair, hhigh, hlow]
  exact paired_halves (n := 32) d

theorem memory_setEdxEax (vm : VM) (d : BitVec 64) : (vm.setEdxEax d).memory = vm.memory :=
  (memory_setReg (w := .dword) _ _ _).trans (memory_setReg (w := .dword) _ _ _)

theorem cmpxchg8b_exact (ha : vm.getArgLea (p.args 0).location = .ok a)
    (hd : vm.getMem a .qword = .ok (.qword d)) (hw : ∃ x t, vm.setMem a (.qword x) = .ok t) :
    CompareExchanges8 p vm a d ((LogicFn.cmpxchg8b.logic p).run vm) := by
  obtain ⟨x, u, hu⟩ := hw
  obtain ⟨t, ht⟩ := setMem_qword_writeable vm.ecxEbx rfl hu
  have hrun : (LogicFn.cmpxchg8b.logic p).run vm = _ := cmpxchg8b_run ha hd ht
  rw [hrun]
  by_cases h : d = vm.edxEax
  · have hregs : t.regs = vm.regs := by
      obtain ⟨-, m, -, rfl⟩ := VM.setMem_ok ht
      rfl
    rw [if_pos h]
    exact ⟨fun _ ↦ ⟨t, ht, hregs, rfl⟩, fun hne ↦ absurd h hne, fun hne ↦ absurd h hne,
      fun hne ↦ absurd h hne, fun hne ↦ absurd h hne⟩
  · rw [if_neg h]
    refine ⟨fun heq ↦ absurd heq h, fun _ ↦ rfl, fun _ ↦ edxEax_setEdxEax vm d,
      fun _ ↦ memory_setEdxEax vm d, ?_⟩
    intro _ hkeeps
    have hmemory := memory_setEdxEax vm d
    obtain ⟨v, hv⟩ : ∃ v : VM,
        v = { vm.setEdxEax d with flags := { vm.flags with zero := false } } := ⟨_, rfl⟩
    have hpair : d = v.edxEax := by
      rw [hv]
      exact (edxEax_setEdxEax vm d).symm
    have hsame : v.memory = vm.memory := by
      rw [hv]
      exact hmemory
    have hlea : v.getArgLea (p.args 0).location = .ok a := by
      rw [hv]
      exact (hkeeps d).trans ha
    obtain ⟨t', ht'⟩ := setMem_qword_writeable v.ecxEbx hsame hu
    have hagain := cmpxchg8b_run (e := .straight) hlea ((VM.getMem_congr hsame a .qword).trans hd)
      ht'
    rw [if_pos hpair] at hagain
    rw [← hv]
    exact ⟨_, hagain, rfl⟩

end Memory

/-- The compare-and-exchange functions replace the destination exactly if it is what the
accumulator says, which is loaded with it otherwise. -/
theorem compareExchange_exact :
    (∀ (w : ElementWidth) (p q : Pipeline) (op : Opcode) (vm : VM)
      (c d s : BitVec w.operand.bits), p.Decoded op →
        p.function = .opcode (.logic (cmpxchgFunction w)) → p.HasWidth w → q.HasWidth w →
          (q.args 0).location = .registerValue eax w.operand.size →
            (q.args 1).location = (p.args 0).location →
              vm.getReg eax w.operand.size = w.operand.sized c →
                vm.getArg (p.args 0).location = .ok (w.operand.sized d) →
                  vm.Writeable w (p.args 0).location →
                    vm.getArg (p.args 1).location = .ok (w.operand.sized s) →
                      CompareExchanges w p vm c d s (((cmpFunction w).logic q).run vm).2.flags
                        (((cmpxchgFunction w).logic p).run vm)) ∧
    ∀ (p : Pipeline) (vm : VM) (a : BitVec 32) (d : BitVec 64),
      vm.getArgLea (p.args 0).location = .ok a → vm.getMem a .qword = .ok (.qword d) →
        (∃ x t, vm.setMem a (.qword x) = .ok t) →
          CompareExchanges8 p vm a d ((LogicFn.cmpxchg8b.logic p).run vm) := by
  refine ⟨?_, ?_⟩
  · intro w p q op vm c d s hp hf hpw hqw hq₀ hq₁ hc hd hw hs
    exact cmpxchg_exact hp hf hpw hqw hq₀ hq₁ hc hd hw hs
  · intro p vm a d ha hd hw
    exact cmpxchg8b_exact ha hd hw

section Witness

def exchangeEbx (r : Register) : Pipeline :=
  { operandSlot false ![.registerValue r .dword, .registerValue ebx .dword, .none] with
    function := .opcode (.logic .cmpxchgNativeWord) }

theorem exchangeEbx_decoded (r : Register) :
    (exchangeEbx r).Decoded ((entryOf true 0xB1).opcodes 0) := by
  have hrow : ((entryOf true 0xB1).opcodes 0).IsRow .cmpxchgNativeWord
      [(.modRM, .nativeWord), (.modRMReg, .nativeWord)] := by
    decide +kernel
  refine .of_row (by decide) hrow rfl ?_
  intro n
  match n with
  | 0 | 1 | 2 => exact ⟨{ modrm := ⟨r, ebx, 3⟩ }, 0, [], 0, rfl⟩

def compareEax (r : Register) : Pipeline :=
  operandSlot false ![.registerValue eax .dword, .registerValue r .dword, .none]

def exchangeData : Pipeline := operandSlot false ![.address DATA_MEM .dword, .none, .none]

theorem compareExchange_exact_data :
    CompareExchanges (w := .dword) (exchangeEbx ecx) (twoRegisters 1 2) 1 0 2
        ((LogicFn.cmpNativeWord.logic (compareEax ecx)).run (twoRegisters 1 2)).2.flags
        ((LogicFn.cmpxchgNativeWord.logic (exchangeEbx ecx)).run (twoRegisters 1 2)) ∧
      CompareExchanges8 exchangeData (twoRegisters 1 2) DATA_MEM 0
        ((LogicFn.cmpxchg8b.logic exchangeData).run (twoRegisters 1 2)) :=
  ⟨compareExchange_exact.1 .dword (exchangeEbx ecx) (compareEax ecx) _ (twoRegisters 1 2)
    (1 : BitVec 32) (0 : BitVec 32) (2 : BitVec 32) (exchangeEbx_decoded ecx) rfl rfl rfl rfl rfl
    rfl rfl ⟨_, rfl⟩ rfl, compareExchange_exact.2 exchangeData (twoRegisters 1 2) DATA_MEM 0 rfl rfl
    ⟨0, _, rfl⟩⟩

/-- An accumulator that is the destination itself is replaced. -/
theorem cmpxchg_accumulator : ¬∀ (w : ElementWidth) (p : Pipeline) (op : Opcode) (vm : VM)
    (c d : BitVec w.operand.bits), p.Decoded op →
      p.function = .opcode (.logic (cmpxchgFunction w)) → p.HasWidth w →
        vm.getReg eax w.operand.size = w.operand.sized c →
          vm.getArg (p.args 0).location = .ok (w.operand.sized d) →
            vm.Writeable w (p.args 0).location → d = c →
              (((cmpxchgFunction w).logic p).run vm).2.getReg eax w.operand.size =
                w.operand.sized c := by
  intro h
  have heax := h .dword (exchangeEbx eax) _ (twoRegisters 1 2) (1 : BitVec 32) (1 : BitVec 32)
    (exchangeEbx_decoded eax) rfl rfl rfl rfl ⟨_, rfl⟩ rfl
  have hreplaced : (((cmpxchgFunction .dword).logic (exchangeEbx eax)).run
      (twoRegisters 1 2)).2.getReg eax .dword = .dword 2 := rfl
  cases hreplaced.symm.trans heax

end Witness

end Qx86
