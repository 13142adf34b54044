import Qx86.Machine.Bits
import Qx86.Properties.StackFrames

namespace Qx86

open Foundation Bits BitManipulation Op Operations Register

variable {e : Effects} {w : ElementWidth} {p q : Pipeline} {vm t u : VM}

inductive SavePair where
  | registers
  | flags
  | lowFlags
  | frame (n : BitVec 16) (level : BitVec 8)

namespace SavePair

def save : SavePair → LogicFn
  | registers => .pusha
  | flags => .pushf
  | lowFlags => .lahf
  | frame _ _ => .enter

def restore : SavePair → LogicFn
  | registers => .popa
  | flags => .popf
  | lowFlags => .sahf
  | frame _ _ => .leave

def Slots (p : Pipeline) : SavePair → Prop
  | frame n level => p.EntersFrame n level
  | _ => True

def pushes (w : ElementWidth) : SavePair → List ElementWidth
  | registers => List.replicate 8 w
  | flags => [w]
  | lowFlags => []
  | frame _ level => List.replicate (1 + level.toNat % 32) w

/-- What happens between the two: the saved registers or the flags change at will, with all else
but the stack. -/
def Between (t t' : VM) : SavePair → Prop
  | registers | flags => t.SameStack t'
  | lowFlags | frame _ _ => t' = t

def Restored (w : ElementWidth) (vm u : VM) : SavePair → Prop
  | registers => (∀ r, u.getReg r w.operand.size = vm.getReg r w.operand.size) ∧
      u.regs esp = vm.regs esp
  | flags => u.flags = vm.flags ∧ u.regs esp = vm.regs esp
  | lowFlags => u.flags = vm.flags
  | frame _ _ => u.regs esp = vm.regs esp ∧ u.regs ebp = vm.regs ebp

/-- The second function of a pair brings back what the first one has saved. -/
def Inverse (s : SavePair) (p q : Pipeline) (vm : VM) : Prop :=
  ∃ t, (s.save.logic p).run vm = (.ok (), t) ∧
    ∀ t', s.Between t t' → ∃ u, (s.restore.logic q).run t' = (.ok (), u) ∧
      s.Restored p.native vm u

/-- Flags are pushed without the operand-size prefix only, and SAHF clears the flags that AH has
no place for. -/
def Saves (p : Pipeline) (vm : VM) : SavePair → Prop
  | registers | frame _ _ => True
  | flags => p.sizeOverride = false
  | lowFlags => vm.flags.overflow = false ∧ vm.flags.direction = false ∧
      vm.flags.interrupt = false ∧ vm.flags.trap = false

end SavePair

section Flags

def X86Flags.imageBit (f : X86Flags) (i : ℕ) : Bool :=
  if i = 11 then f.overflow
  else if i = 10 then f.direction
  else if i = 9 then f.interrupt
  else if i = 8 then f.trap
  else if i = 7 then f.sign
  else if i = 6 then f.zero
  else if i = 4 then f.adjust
  else if i = 2 then f.parity
  else if i = 1 then true
  else if i = 0 then f.carry
  else false

theorem getLsbD_setBit {n : ℕ} (x : BitVec n) {i : BitVec 8} (b : Bool) (j : ℕ)
    (hi : i.toNat < n) :
    (setBit x i b).getLsbD j = if j = i.toNat then b else x.getLsbD j := by
  rw [setBit_eq x hi, getLsbD_withBit x b hi]

theorem getLsbD_serialize (f : X86Flags) (i : ℕ) :
    f.serializeFlagStorage.getLsbD i = f.imageBit i := by
  have hzero : (0 : BitVec 32).getLsbD i = false := BitVec.getLsbD_zero
  rw [X86Flags.serializeFlagStorage, getLsbD_setBit, getLsbD_setBit, getLsbD_setBit,
    getLsbD_setBit, getLsbD_setBit, getLsbD_setBit, getLsbD_setBit, getLsbD_setBit,
    getLsbD_setBit, getLsbD_setBit, hzero]
  · rfl
  all_goals decide

theorem deserialize_eq (f g : X86Flags) (x : BitVec 32)
    (h : ∀ i < 12, x.getLsbD i = g.imageBit i) : f.deserializeFlagStorage x = g := by
  have hbit (i : BitVec 8) (hi : i.toNat < 12) : getBit x i = g.imageBit i.toNat :=
    (getBit_eq x (by omega)).trans (h _ hi)
  simp (disch := decide) only [X86Flags.deserializeFlagStorage, hbit]
  rfl

theorem deserialize_serialize (f g : X86Flags) :
    f.deserializeFlagStorage g.serializeFlagStorage = g :=
  deserialize_eq f g _ fun i _ ↦ getLsbD_serialize g i

end Flags

section Registers

def VM.register (vm : VM) (w : ElementWidth) (r : Register) : BitVec w.operand.bits :=
  (vm.regs (r.host w)).extractLsb' (r.lowBit w) w.operand.bits

def VM.SameRegisters (w : ElementWidth) (vm u : VM) : Prop :=
  ∀ r, r ≠ esp → u.register w r = vm.register w r

def savedRegisters (vm : VM) (w : ElementWidth) (rs : List Register) : List StackValue :=
  rs.map fun r ↦ ⟨w, vm.register w r⟩

def pushEach (s : ValueSize) (p : Pipeline) (k : Op e Unit) : List Register → Op e Unit
  | [] => k
  | r :: rs => do
    pushRegister r s p
    pushEach s p k rs

theorem pushAll_eq (s : ValueSize) (p : Pipeline) : (pushAll s p : Op e Unit) = (do
    let sp ← getReg esp s
    pushEach s p (do
      pushStack sp p
      pushEach s p (pushRegister edi s p) [ebp, esi]) [eax, ecx, edx, ebx]) := rfl

theorem push_sameRegisters (hbyte : w ≠ .byte) {x : BitVec w.operand.bits}
    (h : vm.push w x = .ok t) : vm.SameRegisters w t := by
  intro r hr
  rw [VM.register, VM.register, host_self hbyte, VM.push_eq h, VM.withStack_of_ne _ _ _ hr]

theorem pushRegister_ok (hw : p.HasWidth w) (hbyte : w ≠ .byte) (r : Register) :
    (pushRegister r w.operand.size p : Op e Unit).run vm = (.ok (), t) ↔
      vm.push w (vm.register w r) = .ok t := by
  rw [pushRegister, run_bind, run_getReg, runBind_ok, VM.getReg_eq]
  exact pushStack_ok hw hbyte

variable {vm₀ : VM}

theorem pushEach_run (hw : p.HasWidth w) (hbyte : w ≠ .byte) (hsame : vm₀.SameRegisters w vm)
    (rs : List Register) (vs : List StackValue) (hrs : ∀ r ∈ rs, r ≠ esp) (k : Op e Unit)
    (h : vm.pushList (savedRegisters vm₀ w rs ++ vs) = .ok t) :
    ∃ u, (pushEach w.operand.size p k rs).run vm = k.run u ∧ u.pushList vs = .ok t ∧
      vm₀.SameRegisters w u := by
  induction rs generalizing vm with
  | nil => exact ⟨vm, rfl, h, hsame⟩
  | cons r rs ih =>
    obtain ⟨hr, hrs⟩ := List.forall_mem_cons.mp hrs
    obtain ⟨s, hs, hrest⟩ := VM.pushList_cons h
    have hpush : vm.push w (vm₀.register w r) = .ok s := hs
    rw [← hsame r hr] at hpush
    have hnext : vm₀.SameRegisters w s := by
      intro r' hr'
      rw [push_sameRegisters hbyte hpush r' hr', hsame r' hr']
    obtain ⟨u, hu, hlast, hsame'⟩ := ih hnext hrs hrest
    refine ⟨u, ?_, hlast, hsame'⟩
    rw [pushEach, run_bind, (pushRegister_ok hw hbyte r).mpr hpush]
    exact hu

def allRegisters : List Register := [eax, ecx, edx, ebx, esp, ebp, esi, edi]

theorem pushAll_run (hw : p.HasWidth w) (hbyte : w ≠ .byte)
    (h : vm.pushList (savedRegisters vm w allRegisters) = .ok t) :
    (pushAll w.operand.size p : Op e Unit).run vm = (.ok (), t) := by
  have hstart : vm.SameRegisters w vm := fun _ _ ↦ rfl
  obtain ⟨s, hs, hrest, hsame⟩ := pushEach_run hw hbyte hstart [eax, ecx, edx, ebx]
    (savedRegisters vm w [esp, ebp, esi, edi]) (by decide) (do
      pushStack (w.operand.sized (vm.register w esp)) p
      pushEach w.operand.size p (pushRegister edi w.operand.size p) [ebp, esi] : Op e Unit) h
  obtain ⟨s', hs', hrest'⟩ := VM.pushList_cons hrest
  have hsame' : vm.SameRegisters w s' := by
    intro r hr
    rw [push_sameRegisters hbyte hs' r hr, hsame r hr]
  obtain ⟨u, hu, hlast, hsame''⟩ := pushEach_run hw hbyte hsame' [ebp, esi]
    (savedRegisters vm w [edi]) (by decide) (pushRegister edi w.operand.size p : Op e Unit) hrest'
  obtain ⟨t', ht', hend⟩ := VM.pushList_cons hlast
  cases hend
  have hpush : u.push w (vm.register w edi) = .ok t := ht'
  rw [← hsame'' edi (by decide)] at hpush
  rw [pushAll_eq, run_bind, run_getReg, runBind_ok, VM.getReg_eq]
  refine hs.trans ?_
  have hesp : (pushStack (w.operand.sized (vm.register w esp)) p : Op e Unit).run s =
      (.ok (), s') := (pushStack_ok hw hbyte).mpr hs'
  rw [run_bind, hesp]
  exact hu.trans ((pushRegister_ok hw hbyte edi).mpr hpush)

def popEach (pop : Op e SizedValue) (k : List SizedValue → Op e Unit) : ℕ → Op e Unit
  | 0 => k []
  | n + 1 => do
    let v ← pop
    popEach pop (fun vs ↦ k (v :: vs)) n

def storeAll : List SizedValue → Op e Unit
  | [di, si, bp, _, bx, dx, cx, ax] => do
    setReg edi di
    setReg esi si
    setReg ebp bp
    setReg ebx bx
    setReg edx dx
    setReg ecx cx
    setReg eax ax
  | _ => pure ()

theorem popAll_eq (pop : Op e SizedValue) : popAll pop = popEach pop storeAll 8 := rfl

theorem popEach_run (hbyte : w ≠ .byte) (rs : List Register) (k : List SizedValue → Op e Unit)
    (h : vm.Holds (vm.regs esp) (savedRegisters vm₀ w rs)) :
    (popEach (popSized w) k rs.length).run vm =
      (k (rs.map fun r ↦ w.operand.sized (vm₀.register w r))).run (vm.withStack
        (vm.regs esp + BitVec.ofNat 32 (stackSize (savedRegisters vm₀ w rs))) vm.memory) := by
  induction rs generalizing vm k with
  | nil =>
    have hself : vm.regs esp + BitVec.ofNat 32 (stackSize (savedRegisters vm₀ w [])) =
        vm.regs esp := BitVec.add_zero _
    rw [hself, VM.withStack_self]
    rfl
  | cons r rs ih =>
    obtain ⟨hr, hrest⟩ := h
    have hpop := popSized_run (e := e) hbyte hr
    have hesp := VM.withStack_esp vm (vm.regs esp + w.step) vm.memory
    have hmemory : (vm.withStack (vm.regs esp + w.step) vm.memory).memory = vm.memory := rfl
    have hnext := ih (fun vs ↦ k (w.operand.sized (vm₀.register w r) :: vs)) (by
      rw [hesp]
      exact (VM.holds_congr hmemory ..).mpr hrest)
    have hsize : vm.regs esp + w.step + BitVec.ofNat 32 (stackSize (savedRegisters vm₀ w rs)) =
        vm.regs esp + BitVec.ofNat 32 (stackSize (savedRegisters vm₀ w (r :: rs))) := by
      rw [BitVec.add_assoc, savedRegisters, savedRegisters, List.map_cons, stackSize_cons,
        BitVec.ofNat_add]
      rfl
    rw [hesp, hsize, VM.withStack_withStack] at hnext
    rw [List.length_cons, popEach, run_bind, hpop]
    exact hnext

def VM.restoreEach (vm₀ : VM) (w : ElementWidth) : List Register → VM → VM
  | [], vm => vm
  | r :: rs, vm => restoreEach vm₀ w rs (vm.setReg r (w.operand.sized (vm₀.register w r)))

theorem restoreEach_register (rs : List Register) {r : Register}
    (h : r ∈ rs ∨ vm.getReg r w.operand.size = vm₀.getReg r w.operand.size) :
    (vm₀.restoreEach w rs vm).getReg r w.operand.size = vm₀.getReg r w.operand.size := by
  induction rs generalizing vm with
  | nil =>
    obtain h | h := h
    · cases h
    · exact h
  | cons r' rs ih =>
    refine ih ?_
    by_cases heq : r = r'
    · subst heq
      right
      rw [VM.getReg_setReg]
      exact (VM.getReg_eq vm₀ w r).symm
    · obtain h | h := h
      · exact .inl ((List.mem_cons.mp h).resolve_left heq)
      · right
        rw [VM.getReg_setReg_of_ne _ heq, h]

theorem restoreEach_esp (hbyte : w ≠ .byte) (rs : List Register) (hrs : ∀ r ∈ rs, r ≠ esp) :
    (vm₀.restoreEach w rs vm).regs esp = vm.regs esp := by
  induction rs generalizing vm with
  | nil => rfl
  | cons r rs ih =>
    obtain ⟨hr, hrs⟩ := List.forall_mem_cons.mp hrs
    exact (ih hrs).trans (setReg_stack hbyte hr ..).1

theorem pusha_run (p : Pipeline)
    (h : vm.pushList (savedRegisters vm p.native allRegisters) = .ok t) :
    (pusha p : Op e Unit).run vm = (.ok (), t) := by
  have hall : (pusha p : Op e Unit) = pushAll p.native.operand.size p := by
    rw [pusha, Pipeline.native]
    cases p.sizeOverride <;> rfl
  rw [hall]
  exact pushAll_run (native_hasWidth p) (native_ne_byte p) h

theorem popa_run (q : Pipeline)
    (h : vm.Holds (vm.regs esp) (savedRegisters vm₀ q.native allRegisters.reverse)) :
    ∃ u, (popa q : Op e Unit).run vm = (.ok (), u) ∧
      (∀ r, r ≠ esp → u.getReg r q.native.operand.size = vm₀.getReg r q.native.operand.size) ∧
      u.regs esp = vm.regs esp + BitVec.ofNat 32
        (stackSize (savedRegisters vm₀ q.native allRegisters.reverse)) := by
  have hall : (popa q : Op e Unit) = popAll (popSized q.native) := by
    rw [popa, Pipeline.native]
    cases q.sizeOverride <;> rfl
  have hbyte := native_ne_byte q
  have hrun := popEach_run (e := e) hbyte allRegisters.reverse storeAll h
  have hesp := VM.withStack_esp vm (vm.regs esp + BitVec.ofNat 32
    (stackSize (savedRegisters vm₀ q.native allRegisters.reverse))) vm.memory
  obtain ⟨s, hs⟩ : ∃ s, s = vm.withStack (vm.regs esp + BitVec.ofNat 32
    (stackSize (savedRegisters vm₀ q.native allRegisters.reverse))) vm.memory := ⟨_, rfl⟩
  rw [← hs] at hrun hesp
  refine ⟨vm₀.restoreEach q.native [edi, esi, ebp, ebx, edx, ecx, eax] s, ?_, ?_, ?_⟩
  · rw [hall, popAll_eq]
    exact hrun
  · intro r hr
    refine restoreEach_register _ (.inl ?_)
    revert r
    decide
  · exact (restoreEach_esp hbyte _ (by decide)).trans hesp

end Registers

section Pairs

theorem registers_inverse (hq : q.sizeOverride = p.sizeOverride)
    (hroom : vm.HasRoom (List.replicate 8 p.native)) : SavePair.registers.Inverse p q vm := by
  have hwidths : (savedRegisters vm p.native allRegisters).map Sigma.fst =
      List.replicate 8 p.native := rfl
  have hnative : q.native = p.native := congrArg ElementWidth.native hq
  have hbyte := native_ne_byte p
  obtain ⟨t, ht⟩ := hroom.pushList hwidths
  refine ⟨t, pusha_run p ht, ?_⟩
  intro t' hsame
  have hreverse : (savedRegisters vm p.native allRegisters).reverse =
      savedRegisters vm q.native allRegisters.reverse := by
    rw [hnative]
    rfl
  have hholds := VM.pushList_holds ht
  rw [hreverse, ← VM.holds_congr hsame.memory, ← hsame.esp] at hholds
  obtain ⟨u, hu, hregisters, hstack⟩ := popa_run q hholds
  have hesp : u.regs esp = vm.regs esp := by
    rw [hstack, hsame.esp, VM.pushList_esp ht, ← hreverse, stackSize_reverse,
      BitVec.sub_add_cancel]
  refine ⟨u, hu, ?_, hesp⟩
  intro r
  rw [hnative] at hregisters
  by_cases hr : r = esp
  · rw [hr, VM.getReg_eq, VM.getReg_eq, host_self hbyte, hesp]
  · exact hregisters r hr

theorem popf_run {x : BitVec 32} (h : vm.getMem (vm.regs esp) .dword = .ok (.dword x)) :
    ∃ u, (popf q : Op e Unit).run vm = (.ok (), u) ∧
      u.flags = vm.flags.deserializeFlagStorage x ∧ u.regs esp = vm.regs esp + 4 := by
  have hpop : (pop32 : Op e SizedValue).run vm =
      (.ok (.dword x), vm.withStack (vm.regs esp + 4) vm.memory) :=
    popSized_run (w := .dword) nofun h
  have hesp := VM.withStack_esp vm (vm.regs esp + 4) vm.memory
  rw [popf, run_bind, hpop, runBind_ok]
  exact ⟨_, rfl, rfl, hesp⟩

theorem pushf_ok (hp : p.sizeOverride = false) : (pushf p : Op e Unit).run vm = (.ok (), t) ↔
    vm.push .dword vm.flags.serializeFlagStorage = .ok t := by
  rw [pushf, run_bind, run_flags, runBind_ok]
  exact pushDword_ok hp

theorem flags_inverse (hp : p.sizeOverride = false) (hroom : vm.HasRoom [p.native]) :
    SavePair.flags.Inverse p q vm := by
  have hnative : p.native = .dword := congrArg ElementWidth.native hp
  rw [hnative] at hroom
  have hwidths : [stackDword vm.flags.serializeFlagStorage].map Sigma.fst = [.dword] := rfl
  obtain ⟨t, ht⟩ := hroom.pushList hwidths
  obtain ⟨s, hs, hend⟩ := VM.pushList_cons ht
  cases hend
  refine ⟨t, (pushf_ok hp).mpr hs, ?_⟩
  intro t' hsame
  have htop := VM.push_top hs
  rw [← hsame.esp, ← VM.getMem_congr hsame.memory] at htop
  obtain ⟨u, hu, hflags, hesp⟩ := popf_run (e := .straight) (q := q) htop
  refine ⟨u, hu, hflags.trans (deserialize_serialize ..), ?_⟩
  rw [hesp, hsame.esp, VM.push_esp hs]
  exact BitVec.sub_add_cancel ..

theorem flags_override (hp : p.sizeOverride = true) : ¬SavePair.flags.Inverse p q vm := by
  rintro ⟨t, ht, -⟩
  have herr := pushf_override (e := .straight) hp vm
  cases herr.symm.trans (congrArg Prod.fst ht)

theorem ahFlags_iff (f g : X86Flags) :
    f.deserializeFlagStorage ((g.serializeFlagStorage.setWidth 8).setWidth 32) = g ↔
      g.overflow = false ∧ g.direction = false ∧ g.interrupt = false ∧ g.trap = false := by
  have hbit (i : ℕ) : ((g.serializeFlagStorage.setWidth 8).setWidth 32).getLsbD i =
      (decide (i < 32) && (decide (i < 8) && g.imageBit i)) := by
    rw [BitVec.getLsbD_setWidth, BitVec.getLsbD_setWidth, getLsbD_serialize]
  have hread (i : BitVec 8) (hi : i.toNat < 32) :
      getBit ((g.serializeFlagStorage.setWidth 8).setWidth 32) i =
        (decide (i.toNat < 8) && g.imageBit i.toNat) := by
    rw [getBit_eq _ hi, hbit, decide_eq_true hi, Bool.true_and]
  constructor
  · intro h
    have hoverflow := congrArg X86Flags.overflow h
    have hdirection := congrArg X86Flags.direction h
    have hinterrupt := congrArg X86Flags.interrupt h
    have htrap := congrArg X86Flags.trap h
    refine ⟨hoverflow.symm.trans (hread 11 ?_), hdirection.symm.trans (hread 10 ?_),
      hinterrupt.symm.trans (hread 9 ?_), htrap.symm.trans (hread 8 ?_)⟩
    all_goals decide
  · rintro ⟨hoverflow, hdirection, hinterrupt, htrap⟩
    refine deserialize_eq f g _ ?_
    intro i hi
    rw [hbit, decide_eq_true (by omega : i < 32), Bool.true_and]
    by_cases hlow : i < 8
    · rw [decide_eq_true hlow, Bool.true_and]
    · rw [decide_eq_false hlow, Bool.false_and]
      obtain rfl | rfl | rfl | rfl : i = 8 ∨ i = 9 ∨ i = 10 ∨ i = 11 := by omega
      · exact htrap.symm
      · exact hinterrupt.symm
      · exact hdirection.symm
      · exact hoverflow.symm

theorem lowFlags_iff (p q : Pipeline) (vm : VM) : SavePair.lowFlags.Inverse p q vm ↔
    vm.flags.overflow = false ∧ vm.flags.direction = false ∧ vm.flags.interrupt = false ∧
      vm.flags.trap = false := by
  have hah : (vm.setReg ah (.byte (vm.flags.serializeFlagStorage.setWidth 8))).reg8 ah =
      vm.flags.serializeFlagStorage.setWidth 8 := by
    have hget := VM.getReg_setReg (w := .byte) vm ah (vm.flags.serializeFlagStorage.setWidth 8)
    exact SizedValue.byte.inj hget
  obtain ⟨t, ht⟩ : ∃ t, t = vm.setReg ah (.byte (vm.flags.serializeFlagStorage.setWidth 8)) :=
    ⟨_, rfl⟩
  have hsave : (LogicFn.lahf.logic p).run vm = (.ok (), t) := ht ▸ rfl
  obtain ⟨f, hf⟩ : ∃ f, f = t.flags.deserializeFlagStorage ((t.reg8 ah).setWidth 32) := ⟨_, rfl⟩
  have hrestore : (LogicFn.sahf.logic q).run t = (.ok (), { t with flags := f }) := hf ▸ rfl
  rw [← ht] at hah
  rw [← ahFlags_iff t.flags, ← hah, ← hf]
  constructor
  · rintro ⟨t', ht', hnext⟩
    obtain rfl : t = t' := congrArg Prod.snd (hsave.symm.trans ht')
    obtain ⟨u, hu, hsame⟩ := hnext t rfl
    have hflags : f = u.flags := congrArg (fun r ↦ r.2.flags) (hrestore.symm.trans hu)
    exact hflags.trans hsame
  · intro h
    refine ⟨t, hsave, ?_⟩
    rintro t' rfl
    exact ⟨_, hrestore, h⟩

theorem leave_run {b : BitVec 32} (h : vm.getMem (vm.regs ebp) .dword = .ok (.dword b)) :
    ∃ u, (leave q : Op e Unit).run vm = (.ok (), u) ∧ u.regs esp = vm.regs ebp + 4 ∧
      u.regs ebp = b := by
  obtain ⟨t, ht⟩ : ∃ t, t = vm.setReg32 esp (vm.regs ebp) := ⟨_, rfl⟩
  have hesp : t.regs esp = vm.regs ebp := ht ▸ VM.setReg32_self ..
  have hpop : (pop32 : Op e SizedValue).run t =
      (.ok (.dword b), t.withStack (t.regs esp + 4) t.memory) := by
    refine popSized_run (w := .dword) nofun ?_
    rw [hesp, ht, getMem_setReg32]
    exact h
  have hrun : (leave q : Op e Unit).run vm =
      (.ok (), (t.withStack (t.regs esp + 4) t.memory).setReg32 ebp b) := by
    refine run_bind_ok.mpr ⟨.dword (vm.regs ebp), vm, rfl, ?_⟩
    refine run_bind_ok.mpr ⟨(), t, ht ▸ rfl, ?_⟩
    exact run_bind_ok.mpr ⟨.dword b, _, hpop, rfl⟩
  refine ⟨_, hrun, ?_, VM.setReg32_self ..⟩
  rw [VM.setReg32_of_ne (by decide), VM.withStack_esp, hesp]

theorem frame_inverse {n : BitVec 16} {level : BitVec 8} (hp : p.EntersFrame n level)
    (hroom : vm.HasRoom (List.replicate (1 + level.toNat % 32) p.native)) :
    (SavePair.frame n level).Inverse p q vm := by
  have hnative : p.native = .dword := congrArg ElementWidth.native hp.size
  rw [hnative] at hroom
  obtain ⟨s, hs⟩ := framePushes_room hroom
  obtain ⟨t, ht, hleaves⟩ := enter_run hp hs
  refine ⟨t, ht, ?_⟩
  rintro t' rfl
  have hsaved := enter_saved hs
  rw [← VM.getMem_congr hleaves.memory, ← hleaves.framePointer] at hsaved
  obtain ⟨u, hu, hesp, hebp⟩ := leave_run (e := .straight) (q := q) hsaved
  refine ⟨u, hu, ?_, hebp⟩
  rw [hesp, hleaves.framePointer]
  exact BitVec.sub_add_cancel ..

/-- Every pair brings back what it saves, but PUSHF and POPF under the operand-size prefix, and
LAHF and SAHF where a flag is set that is not in AH. -/
theorem savePair_exact_iff (s : SavePair) (p q : Pipeline) (vm : VM)
    (hq : q.sizeOverride = p.sizeOverride) (hp : s.Slots p)
    (hroom : vm.HasRoom (s.pushes p.native)) : s.Inverse p q vm ↔ s.Saves p vm := by
  cases s with
  | registers => exact iff_of_true (registers_inverse hq hroom) trivial
  | flags =>
    cases ho : p.sizeOverride with
    | false => exact iff_of_true (flags_inverse ho hroom) ho
    | true =>
      refine iff_of_false (flags_override ho) ?_
      intro h
      cases ho.symm.trans h
  | lowFlags => exact lowFlags_iff p q vm
  | frame n level => exact iff_of_true (frame_inverse hp hroom) trivial

theorem savePair_exact_iff_dataStack :
    SavePair.registers.Inverse (operandSlot true fun _ ↦ .none) (operandSlot true fun _ ↦ .none)
        dataStack ∧
      ¬SavePair.flags.Inverse (operandSlot true fun _ ↦ .none) (operandSlot true fun _ ↦ .none)
        dataStack ∧
      (SavePair.frame 8 2).Inverse (enterSlot 8 2) (enterSlot 8 2) dataStack :=
  ⟨(savePair_exact_iff .registers _ _ dataStack rfl trivial ⟨_, rfl⟩).mpr trivial,
    fun h ↦ Bool.noConfusion
      ((savePair_exact_iff .flags _ _ dataStack rfl trivial ⟨_, rfl⟩).mp h),
    (savePair_exact_iff (.frame 8 2) _ _ dataStack rfl ⟨rfl, rfl, rfl⟩ ⟨_, rfl⟩).mpr trivial⟩

def overflowed : VM := { dataStack with flags := { overflow := true } }

/-- SAHF clears the overflow flag. -/
theorem sahf_overflow : ¬∀ (s : SavePair) (p q : Pipeline) (vm : VM),
    q.sizeOverride = p.sizeOverride → s.Slots p → vm.HasRoom (s.pushes p.native) →
      s.Inverse p q vm := by
  intro h
  have hinverse := h .lowFlags (enterSlot 0 0) (enterSlot 0 0) overflowed rfl trivial ⟨_, rfl⟩
  obtain ⟨hoverflow, -⟩ := (lowFlags_iff ..).mp hinverse
  cases hoverflow

end Pairs

end Qx86
