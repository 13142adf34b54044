import Qx86.Properties.OperandWidths
import Qx86.Properties.StackOrder

namespace Qx86

open Foundation Op Operations Register

variable {e : Effects} {p q : Pipeline} {vm t u : VM} {n : BitVec 16} {level : BitVec 8}

def stackDword (x : BitVec 32) : StackValue := ⟨.dword, x⟩

/-- What `enter` pushes: the old frame pointer, the copies of it that its loop makes, and the
new frame pointer. -/
def framePushes (vm : VM) (level : ℕ) : List StackValue :=
  stackDword (vm.regs ebp) :: (List.replicate (level - 2) (stackDword (vm.regs ebp)) ++
    if level = 0 then [] else [stackDword (vm.regs esp - 4)])

structure Pipeline.EntersFrame (p : Pipeline) (n : BitVec 16) (level : BitVec 8) : Prop where
  size : p.sizeOverride = false
  locals : (p.args 0).location = .immediate (.word n)
  nesting : (p.args 1).location = .immediate (.byte level)

structure EnterLeaves (n : BitVec 16) (vm t u : VM) : Prop where
  memory : u.memory = t.memory
  framePointer : u.regs ebp = vm.regs esp - 4
  stackPointer : u.regs esp = vm.regs esp - 4 - n.setWidth 32

/-- The frame of the architecture: the old frame pointer, the enclosing frame pointers, the new
frame pointer, and then the local area. -/
structure ArchitecturalFrame (n : BitVec 16) (level : ℕ) (vm u : VM) : Prop where
  saved : u.getMem (vm.regs esp - 4) .dword = .ok (.dword (vm.regs ebp))
  display : ∀ i, 0 < i → i < level →
    u.getMem (vm.regs esp - 4 - BitVec.ofNat 32 (4 * i)) .dword =
      vm.getMem (vm.regs ebp - BitVec.ofNat 32 (4 * i)) .dword
  pointer : 0 < level →
    u.getMem (vm.regs esp - 4 - BitVec.ofNat 32 (4 * level)) .dword =
      .ok (.dword (vm.regs esp - 4))
  framePointer : u.regs ebp = vm.regs esp - 4
  stackPointer : u.regs esp = vm.regs esp - 4 - BitVec.ofNat 32 (4 * level) - n.setWidth 32
  apart : ∀ i < 4 * level, ∀ j < n.toNat,
    u.regs ebp - BitVec.ofNat 32 (i + 1) ≠ u.regs esp + BitVec.ofNat 32 j

section Enter

theorem Pipeline.EntersFrame.run_locals (hp : p.EntersFrame n level) (vm : VM) :
    (getArgAs SizedValue.u16Exact (p.args 0).location : Op e (BitVec 16)).run vm = (.ok n, vm) := by
  rw [hp.locals]
  rfl

theorem Pipeline.EntersFrame.run_nesting (hp : p.EntersFrame n level) (vm : VM) :
    (getArgAs SizedValue.u8Exact (p.args 1).location : Op e (BitVec 8)).run vm =
      (.ok level, vm) := by
  rw [hp.nesting]
  rfl

theorem pushDword_ok (hp : p.sizeOverride = false) {x : BitVec 32} :
    (pushStack (.dword x) p : Op e Unit).run vm = (.ok (), t) ↔ vm.push .dword x = .ok t := by
  have hw : p.HasWidth .dword := hp
  exact pushStack_ok hw nofun

theorem times_run {c : Op e Unit} {x : BitVec 32}
    (hc : ∀ vm t : VM, vm.push .dword x = .ok t → ∃ u, c.run vm = (.ok (), u) ∧ t.SameStack u)
    (k : ℕ) (h : vm.pushList (List.replicate k (stackDword x)) = .ok t) :
    ∃ u, (times k c).run vm = (.ok (), u) ∧ t.SameStack u := by
  induction k generalizing vm t with
  | zero =>
    cases h
    exact ⟨vm, rfl, .refl vm⟩
  | succ k ih =>
    obtain ⟨s, hs, ht⟩ := VM.pushList_cons h
    obtain ⟨s', hrun, hsame⟩ := hc vm s hs
    obtain ⟨t', ht', hsame'⟩ := hsame.pushList ht
    obtain ⟨u, hu, hlast⟩ := ih ht'
    exact ⟨u, run_bind_ok.mpr ⟨(), s', hrun, hu⟩, hsame'.trans hlast⟩

theorem nesting_toNat (level : BitVec 8) : (level % 32).toNat = level.toNat % 32 := by
  rw [BitVec.toNat_umod]
  rfl

def nestingStep (ebp : BitVec 32) (p : Pipeline) : Op e Unit := do
  if p.sizeOverride then setReg32 Register.ebp (ebp - 2)
  else setReg32 Register.ebp (ebp - 4)
  pushStack (.dword ebp) p

theorem nestingStep_run (hp : p.sizeOverride = false) {b : BitVec 32}
    (h : vm.push .dword b = .ok t) :
    ∃ u, (nestingStep b p : Op e Unit).run vm = (.ok (), u) ∧ t.SameStack u := by
  have hsame : VM.SameStack vm (vm.setReg32 Register.ebp (b - 4)) :=
    ⟨VM.setReg32_of_ne (by decide) .., rfl⟩
  obtain ⟨t', ht', hlast⟩ := hsame.push h
  refine ⟨t', ?_, hlast⟩
  rw [nestingStep, if_neg (by rw [hp]; nofun)]
  exact run_bind_ok.mpr ⟨(), _, rfl, (pushDword_ok hp).mpr ht'⟩

theorem pushNesting_run (hp : p.sizeOverride = false) {b temp : BitVec 32} {k : BitVec 8}
    (h : vm.pushList (List.replicate (k.toNat - 2) (stackDword b) ++
      if k.toNat = 0 then [] else [stackDword temp]) = .ok t) :
    ∃ u, (pushNesting k b temp p : Op e Unit).run vm = (.ok (), u) ∧ t.SameStack u := by
  by_cases hk : k.toNat = 0
  · rw [if_pos hk, hk] at h
    cases h
    have hzero : ¬0 < k := by
      rw [BitVec.lt_def, hk]
      exact Nat.lt_irrefl 0
    rw [pushNesting, if_neg hzero]
    exact ⟨vm, rfl, .refl vm⟩
  · rw [if_neg hk, VM.pushList_append] at h
    obtain ⟨s, hs, ht⟩ := except_bind_eq_ok.mp h
    have hpos : 0 < k := by
      rw [BitVec.lt_def]
      exact Nat.pos_of_ne_zero hk
    rw [pushNesting, if_pos hpos]
    obtain ⟨s', hs', hsame⟩ := times_run (c := nestingStep b p)
      (fun _ _ ↦ nestingStep_run (e := e) hp) _ hs
    obtain ⟨t', ht', hsame'⟩ := hsame.pushList ht
    obtain ⟨t'', ht'', hlast⟩ := VM.pushList_cons ht'
    cases hlast
    exact ⟨t', run_bind_ok.mpr ⟨(), s', hs', (pushDword_ok hp).mpr ht''⟩, hsame'⟩

theorem enter_run (hp : p.EntersFrame n level)
    (h : vm.pushList (framePushes vm (level.toNat % 32)) = .ok t) :
    ∃ u, (enter p).run vm = (.ok (), u) ∧ EnterLeaves n vm t u := by
  obtain ⟨s, hs, ht⟩ := VM.pushList_cons h
  let vm' : VM := { vm with eip := vm.eip + 2 + 1 }
  have hmoved : VM.SameStack vm vm' := ⟨rfl, rfl⟩
  obtain ⟨s', hs', hsame⟩ := hmoved.push hs
  have htemp : s'.regs esp = vm.regs esp - 4 := hsame.esp.trans (VM.push_esp hs)
  obtain ⟨t', ht', hsame'⟩ := hsame.pushList ht
  have hlevel := nesting_toNat level
  rw [← hlevel] at ht'
  obtain ⟨u, hu, hlast⟩ := pushNesting_run (e := .jump) hp.size ht'
  have hrun : (enter p).run vm = (.ok (), (u.setReg32 Register.ebp (vm.regs esp - 4)).setReg32
      Register.esp (vm.regs esp - 4 - n.setWidth 32)) := by
    refine run_bind_ok.mpr ⟨n, vm, hp.run_locals vm, ?_⟩
    refine run_bind_ok.mpr ⟨(), { vm with eip := vm.eip + 2 }, rfl, ?_⟩
    refine run_bind_ok.mpr ⟨level, _, hp.run_nesting _, ?_⟩
    refine run_bind_ok.mpr ⟨(), vm', rfl, ?_⟩
    refine run_bind_ok.mpr ⟨vm.regs ebp, vm', rfl, ?_⟩
    refine run_bind_ok.mpr ⟨(), s', (pushDword_ok hp.size).mpr hs', ?_⟩
    refine run_bind_ok.mpr ⟨s'.regs esp, s', rfl, ?_⟩
    rw [htemp]
    exact run_bind_ok.mpr ⟨(), u, hu, rfl⟩
  refine ⟨_, hrun, (hsame'.trans hlast).memory, ?_, VM.setReg32_self ..⟩
  exact (VM.setReg32_of_ne (by decide) ..).trans (VM.setReg32_self ..)

section Converse

theorem times_ok {c : Op e Unit} {x : BitVec 32}
    (hc : ∀ vm u : VM, c.run vm = (.ok (), u) → ∃ t, vm.push .dword x = .ok t ∧ t.SameStack u)
    (k : ℕ) (h : (times k c).run vm = (.ok (), u)) :
    ∃ t, vm.pushList (List.replicate k (stackDword x)) = .ok t ∧ t.SameStack u := by
  induction k generalizing vm with
  | zero =>
    cases h
    exact ⟨_, rfl, .refl _⟩
  | succ k ih =>
    obtain ⟨⟨⟩, s', hrun, hu⟩ := run_bind_ok.mp h
    obtain ⟨s, hs, hsame⟩ := hc vm s' hrun
    obtain ⟨t', ht', hlast⟩ := ih hu
    obtain ⟨t, ht, hsame'⟩ := hsame.symm.pushList ht'
    exact ⟨t, except_bind_eq_ok.mpr ⟨s, hs, ht⟩, hsame'.symm.trans hlast⟩

theorem nestingStep_ok (hp : p.sizeOverride = false) {b : BitVec 32}
    (h : (nestingStep b p : Op e Unit).run vm = (.ok (), u)) :
    ∃ t, vm.push .dword b = .ok t ∧ t.SameStack u := by
  have hsame : VM.SameStack vm (vm.setReg32 Register.ebp (b - 4)) :=
    ⟨VM.setReg32_of_ne (by decide) .., rfl⟩
  rw [nestingStep, if_neg (by rw [hp]; nofun)] at h
  obtain ⟨⟨⟩, s, hs, hpush⟩ := run_bind_ok.mp h
  cases hs
  obtain ⟨t, ht, hlast⟩ := hsame.symm.push ((pushDword_ok hp).mp hpush)
  exact ⟨t, ht, hlast.symm⟩

theorem pushNesting_ok (hp : p.sizeOverride = false) {b temp : BitVec 32} {k : BitVec 8}
    (h : (pushNesting k b temp p : Op e Unit).run vm = (.ok (), u)) :
    ∃ t, vm.pushList (List.replicate (k.toNat - 2) (stackDword b) ++
      if k.toNat = 0 then [] else [stackDword temp]) = .ok t := by
  by_cases hk : k.toNat = 0
  · rw [if_pos hk, hk]
    exact ⟨vm, rfl⟩
  · have hpos : 0 < k := by
      rw [BitVec.lt_def]
      exact Nat.pos_of_ne_zero hk
    rw [pushNesting, if_pos hpos] at h
    obtain ⟨⟨⟩, s', hs', hlast⟩ := run_bind_ok.mp h
    obtain ⟨s, hs, hsame⟩ := times_ok (c := nestingStep b p)
      (fun _ _ ↦ nestingStep_ok (e := e) hp) _ hs'
    obtain ⟨t, ht, -⟩ := hsame.symm.push ((pushDword_ok hp).mp hlast)
    rw [if_neg hk, VM.pushList_append]
    exact ⟨t, except_bind_eq_ok.mpr ⟨s, hs, except_bind_eq_ok.mpr ⟨t, ht, rfl⟩⟩⟩

end Converse

theorem enter_succeeds_iff (hp : p.EntersFrame n level) :
    ((enter p).run vm).1 = .ok () ↔
      ∃ t, vm.pushList (framePushes vm (level.toNat % 32)) = .ok t := by
  constructor
  · intro h
    obtain ⟨u, hu⟩ : ∃ u, (enter p).run vm = (.ok (), u) := ⟨_, Prod.ext h rfl⟩
    obtain ⟨_, _, hread, hu⟩ := run_bind_ok.mp hu
    cases (hp.run_locals vm).symm.trans hread
    obtain ⟨⟨⟩, _, hmove, hu⟩ := run_bind_ok.mp hu
    cases hmove
    obtain ⟨l, _, hread, hu⟩ := run_bind_ok.mp hu
    cases (hp.run_nesting _).symm.trans hread
    obtain ⟨⟨⟩, _, hmove, hu⟩ := run_bind_ok.mp hu
    cases hmove
    obtain ⟨_, _, hreg, hu⟩ := run_bind_ok.mp hu
    cases hreg
    obtain ⟨⟨⟩, s', hs', hu⟩ := run_bind_ok.mp hu
    obtain ⟨_, _, hreg, hu⟩ := run_bind_ok.mp hu
    cases hreg
    obtain ⟨⟨⟩, u', hu', -⟩ := run_bind_ok.mp hu
    have hpush := (pushDword_ok hp.size).mp hs'
    have hesp : s'.reg32 esp = vm.regs esp - 4 := VM.push_esp hpush
    obtain ⟨t', ht'⟩ := pushNesting_ok hp.size hu'
    rw [hesp, nesting_toNat] at ht'
    have hmoved : VM.SameStack { vm with eip := vm.eip + 2 + 1 } vm := ⟨rfl, rfl⟩
    have hlist : VM.pushList { vm with eip := vm.eip + 2 + 1 }
        (framePushes vm (level.toNat % 32)) = .ok t' := except_bind_eq_ok.mpr ⟨s', hpush, ht'⟩
    obtain ⟨t, ht, -⟩ := hmoved.pushList hlist
    exact ⟨t, ht⟩
  · rintro ⟨t, ht⟩
    obtain ⟨u, hu, -⟩ := enter_run hp ht
    rw [hu]

end Enter

section Frame

variable {k : ℕ}

theorem framePushes_width (vm : VM) (k : ℕ) : (framePushes vm k).map Sigma.fst =
    List.replicate (framePushes vm k).length .dword := by
  rw [List.map_eq_replicate_iff]
  intro v hv
  obtain rfl | hv := List.mem_cons.mp hv
  · rfl
  · obtain hv | hv := List.mem_append.mp hv
    · rw [List.eq_of_mem_replicate hv]
      rfl
    · split at hv
      · cases hv
      · rw [List.mem_singleton.mp hv]
        rfl

theorem framePushes_length (vm : VM) (k : ℕ) : (framePushes vm k).length ≤ 1 + k := by
  rw [framePushes, List.length_cons, List.length_append, List.length_replicate]
  split
  · rw [List.length_nil]
    omega
  · rw [List.length_singleton]
    omega

theorem framePushes_room (h : vm.HasRoom (List.replicate (1 + k) .dword)) :
    ∃ t, vm.pushList (framePushes vm k) = .ok t := by
  refine VM.HasRoom.pushList ?_ (framePushes_width vm k)
  have hle := framePushes_length vm k
  rw [← Nat.add_sub_of_le hle, List.replicate_add] at h
  exact h.left

theorem enter_saved (h : vm.pushList (framePushes vm k) = .ok t) :
    t.getMem (vm.regs esp - 4) .dword = .ok (.dword (vm.regs ebp)) := VM.pushList_first h

/-- The display of the new frame is not counted in the stack pointer. -/
theorem stackPointer_iff {a b : BitVec 32} (hk : k < 32) :
    a - b = a - BitVec.ofNat 32 (4 * k) - b ↔ k = 0 := by
  constructor
  · intro h
    have hzero : BitVec.ofNat 32 (4 * k) = 0 := by
      rw [sub_right_comm] at h
      exact (sub_eq_self.mp h.symm)
    have hnat : (BitVec.ofNat 32 (4 * k)).toNat = 0 := by
      rw [hzero]
      rfl
    rw [BitVec.toNat_ofNat, Nat.mod_eq_of_lt (by omega)] at hnat
    omega
  · rintro rfl
    rw [Nat.mul_zero, BitVec.sub_zero]

/-- `enter` builds the frame of the architecture at level zero only. -/
theorem enter_exact_iff (p : Pipeline) (vm : VM) (n : BitVec 16) (level : BitVec 8)
    (hp : p.EntersFrame n level)
    (hroom : vm.HasRoom (List.replicate (1 + level.toNat % 32) .dword)) :
    (∃ u, (LogicFn.enter.logic p).run vm = (.ok (), u) ∧
      ArchitecturalFrame n (level.toNat % 32) vm u) ↔ level.toNat % 32 = 0 := by
  obtain ⟨t, ht⟩ := framePushes_room hroom
  obtain ⟨u, hu, hleaves⟩ := enter_run hp ht
  have hlt : level.toNat % 32 < 32 := Nat.mod_lt _ (by decide)
  constructor
  · rintro ⟨u', hu', hframe⟩
    obtain rfl : u = u' := congrArg Prod.snd (hu.symm.trans hu')
    exact (stackPointer_iff hlt).mp (hleaves.stackPointer.symm.trans hframe.stackPointer)
  · intro hzero
    refine ⟨u, hu, ⟨?_, ?_, ?_, hleaves.framePointer, ?_, ?_⟩⟩
    · exact (VM.getMem_congr hleaves.memory ..).trans (enter_saved ht)
    · intro i _ hi
      omega
    · intro hpos
      omega
    · exact hleaves.stackPointer.trans ((stackPointer_iff hlt).mpr hzero)
    · intro i hi
      omega

def enterSlot (n : BitVec 16) (level : BitVec 8) : Pipeline :=
  operandSlot false ![.immediate (.word n), .immediate (.byte level), .none]

theorem dataStack_room : dataStack.HasRoom (List.replicate 3 .dword) := ⟨_, rfl⟩

theorem enter_exact_iff_levels :
    (∃ u, (LogicFn.enter.logic (enterSlot 8 0)).run dataStack = (.ok (), u) ∧
      ArchitecturalFrame 8 0 dataStack u) ∧
    ¬∃ u, (LogicFn.enter.logic (enterSlot 8 2)).run dataStack = (.ok (), u) ∧
      ArchitecturalFrame 8 2 dataStack u :=
  ⟨(enter_exact_iff (enterSlot 8 0) dataStack 8 0 ⟨rfl, rfl, rfl⟩
      ⟨_, rfl⟩).mpr rfl,
    fun h ↦ absurd ((enter_exact_iff (enterSlot 8 2) dataStack 8 2 ⟨rfl, rfl, rfl⟩
      dataStack_room).mp h) (by decide)⟩

/-- At level two the stack pointer is left above the display. -/
theorem enter_display : ¬∀ (p : Pipeline) (vm : VM) (n : BitVec 16) (level : BitVec 8),
    p.EntersFrame n level → vm.HasRoom (List.replicate (1 + level.toNat % 32) .dword) →
      ∃ u, (LogicFn.enter.logic p).run vm = (.ok (), u) ∧
        ArchitecturalFrame n (level.toNat % 32) vm u := by
  intro h
  obtain ⟨u, hu, hframe⟩ := h (enterSlot 8 2) dataStack 8 2 ⟨rfl, rfl, rfl⟩ dataStack_room
  have hesp : u.regs esp = dataStack.regs esp - 4 - 8 :=
    congrArg (fun r ↦ r.2.regs esp) hu.symm
  exact absurd (hesp.symm.trans hframe.stackPointer) (by decide)

end Frame


end Qx86
