import Qx86.Execute.Image
import Qx86.Execute.InLine
import Qx86.Execute.Prediction

namespace Qx86

open Foundation Outcome Operations PrefixesActivated

variable {σ : Type} {hv : Hypervisor σ}

section Length

/-- How many bytes the instruction at an address takes, its prefixes included. -/
def VM.lengthAt (vm : VM) (eip : BitVec 32) : Outcome VMError ℕ := do
  let buffer ← ofExcept (vm.memory.getSizedMemory eip 16)
  let (pre, prefixSize) ← getPrefixes {} buffer 0
  let buffer ← slice buffer prefixSize
  if pre.repMode ≠ .none then pure (prefixSize + 1)
  else
    let (opcode, modrm) ← selectOpcode OPCODES pre.twoBytes buffer
    let (_, size) ← decodeArgsWithModrm opcode buffer pre.sizeOverride modrm
    pure (prefixSize + size)

/-- The eight bits of `eip_size` are enough. -/
theorem fillSlot_lengthAt {vm : VM} {writeable : Bool} {eip : BitVec 32} {p : Pipeline}
    {f : Filled} (h : fillSlot vm OPCODES writeable eip p = .ok f) :
    vm.lengthAt eip = .ok f.slot.eipSize.toNat := by
  obtain ⟨window, pre, n, hw, hp, hn, hf⟩ := fillSlot_eq_ok h
  have hs : slice window n = (.ok (window.drop n) : Outcome VMError _) := slice_of_le hn
  have hl : window.length = 16 := MemorySystem.getSizedMemory_length hw
  rw [VM.lengthAt, hw, ofExcept_ok, ok_bind, hp, ok_bind]
  dsimp only
  rw [hs, ok_bind]
  cases hf with
  | rep slot hr hd he =>
    obtain ⟨b, hb, hd⟩ := bind_eq_ok.mp hd
    cases hd
    rw [if_pos hr, he, surcharge_eipSize, pure_def, ok.injEq, BitVec.toNat_add,
      BitVec.toNat_ofNat]
    change _ = (n % 2 ^ 8 + 1) % 2 ^ 8
    omega
  | opcode opcode slot next stop hr hd _ he =>
    obtain ⟨modrm, size, hsel, hargs, heip, -⟩ := hd.argsOf
    have hle := (decodeArgsWithModrm_eq_ok hargs).size_le
    rw [List.length_drop] at hle
    rw [if_neg (not_not.mpr hr), hsel, ok_bind]
    dsimp only
    rw [hargs, ok_bind, he, surcharge_eipSize, heip, pure_def, ok.injEq, BitVec.toNat_add,
      BitVec.toNat_ofNat, BitVec.toNat_ofNat]
    omega

end Length

section Target

/-- Where a logic function goes when it does not fall through: the target of a relative
jump that is taken, the operand of an absolute one, the value popped by a return. -/
def LogicFn.target (f : LogicFn) (p : Pipeline) (vm : VM) (length : ℕ) :
    Option (BitVec 32) :=
  let relative := (vm.getArg (p.args 0).location >>= SizedValue.u32Sx).toOption.map
    (vm.eip + BitVec.ofNat 32 length + ·)
  match f with
  | .jmpRel | .callRel => relative
  | .jcc => if ccMatches p.opcode vm.flags then relative else none
  | .jmpConditionalEcxIsZero => if vm.reg32 .ecx = 0 then relative else none
  | .jmpAbs => (vm.getArg (p.args 0).location >>= SizedValue.u32Zx).toOption
  | .ret => (popped p vm).toOption
  | _ => none

def SlotFn.target : SlotFn → Pipeline → VM → ℕ → Option (BitVec 32)
  | .opcode (.logic f) => f.target
  | _ => fun _ _ _ ↦ none

/-- The architectural successor of an instruction of a given length: the next one, or
its target, cut to sixteen bits under the operand-size prefix. -/
def VM.successor (vm : VM) (p : Pipeline) (length : ℕ) : BitVec 32 :=
  match p.function.target p vm length with
  | some target => masked p target
  | none => vm.eip + BitVec.ofNat 32 length

/-- Where `eip` goes astray: after `enter`, and in a jump with the operand-size prefix
to one of the first addresses, fewer than the instruction has bytes. -/
def VM.Strays (vm : VM) (p : Pipeline) (length : ℕ) : Prop :=
  p.function = .opcode (.logic .enter) ∨
    p.sizeOverride = true ∧
      ∃ target, p.function.target p vm length = some target ∧ (target &&& 0xFFFF).toNat < length

theorem LogicFn.target_setGas (f : LogicFn) (p : Pipeline) (vm : VM) (length : ℕ)
    (g : BitVec 64) : f.target p (vm.setGas g) length = f.target p vm length := by
  cases f <;> simp only [target, VM.getArg_setGas, VM.setGas_eip, VM.setGas_flags, popped,
    VM.getMem_setGas] <;> rfl

theorem LogicFn.target_eq_none {f : LogicFn} (h : f.effects.jumps = false) (p : Pipeline)
    (vm : VM) (length : ℕ) : f.target p vm length = none := by
  cases f <;> first | rfl | cases h

theorem relative_eip {p : Pipeline} {vm vm₁ vm' : VM} (h : (jmpRel p).run vm₁ = (.ok (), vm'))
    (he : vm₁.eip = vm.eip)
    (ha : vm₁.getArg (p.args 0).location = vm.getArg (p.args 0).location) :
    ∃ target, (vm.getArg (p.args 0).location >>= SizedValue.u32Sx).toOption.map
        (vm.eip + BitVec.ofNat 32 p.eipSize.toNat + ·) = some target ∧
      vm'.eip = masked p (target - p.eipSize.setWidth 32) := by
  obtain ⟨rel, hrel, rfl⟩ := jmpRel_ok h
  rw [ha] at hrel
  exact ⟨_, by rw [hrel]; rfl, by rw [BitVec.ofNat_toNat, relative, he]⟩

theorem LogicFn.eq_of_jumps {f : LogicFn} (h : f.effects.jumps = true) :
    f = .enter ∨ f = .callAbs ∨ f = .callRel ∨ f = .jmpRel ∨ f = .jcc ∨
      f = .jmpConditionalEcxIsZero ∨ f = .jmpAbs ∨ f = .ret := by
  cases f <;> first | (cases h; done) | simp

/-- A logic function that succeeds leaves `eip` at its target, less the size that the
cycle adds, or where it was. -/
theorem LogicFn.run_eip {f : LogicFn} {p : Pipeline} {vm vm' : VM}
    (h : (f.logic p).run vm = (.ok (), vm')) (he : f ≠ .enter) (hc : f ≠ .callAbs)
    (hr : f = .callRel → ∃ v, (p.args 0).location = .immediate v) :
    vm'.eip = match f.target p vm p.eipSize.toNat with
      | some target => masked p (target - p.eipSize.setWidth 32)
      | none => vm.eip := by
  cases hj : f.effects.jumps with
  | false =>
    have heip := (f.logic p).eip hj vm
    rw [h] at heip
    rw [target_eq_none hj]
    exact heip
  | true =>
    obtain rfl | rfl | rfl | rfl | rfl | rfl | rfl | rfl := eq_of_jumps hj
    · exact absurd rfl he
    · exact absurd rfl hc
    · obtain ⟨v, hv⟩ := hr rfl
      obtain ⟨vm₁, he₁, h₁⟩ := call_ok h
      obtain ⟨target, ht, heip⟩ := relative_eip h₁ he₁ (by rw [hv]; rfl)
      simp only [LogicFn.target, ht, heip]
    · obtain ⟨target, ht, heip⟩ := relative_eip h rfl rfl
      simp only [LogicFn.target, ht, heip]
    · have h := jcc_ok h
      simp only [LogicFn.target]
      split at h
      · next hcc =>
        obtain ⟨target, ht, heip⟩ := relative_eip h rfl rfl
        simp only [if_pos hcc, ht, heip]
      · next hcc =>
        rw [if_neg hcc, h]
    · have h := jmpConditionalEcxIsZero_ok h
      simp only [LogicFn.target]
      split at h
      · next hcx =>
        obtain ⟨target, ht, heip⟩ := relative_eip h rfl rfl
        simp only [if_pos hcx, ht, heip]
      · next hcx =>
        rw [if_neg hcx, h]
    · obtain ⟨target, ht, rfl⟩ := jmpAbs_ok h
      simp only [LogicFn.target, ht]
      rfl
    · obtain ⟨target, ht, heip⟩ := ret_ok h
      simp only [LogicFn.target, ht, heip]
      rfl

end Target

section Rep

theorem repLoop_of_verdict_err {p : Pipeline} {cost : BitVec 64}
    {verdict : VM → Outcome VMError Bool} {e : VMError} (hv' : ∀ vm, verdict vm = .err e) (n : ℕ)
    {m m' : Machine σ} (h : repLoop hv p cost verdict n m = (.ok (), m')) : m' = m := by
  cases n with
  | zero => cases h; rfl
  | succ n =>
    simp only [repLoop, hv'] at h
    split at h
    · cases h
      rfl
    · split at h
      · cases h
      · split at h
        · cases h
        · next hne => exact absurd h (hne _ _)

theorem repCall_eip {f : SlotFn} (hf : f.isRep = true) {p : Pipeline} {m m' : Machine σ}
    (h : f.call hv p m = (.ok (), m')) : m'.vm.eip = m.vm.eip := by
  cases f with
  | opcode f => cases hf
  | repe =>
    change repe hv p m = _ at h
    by_cases hs : repFlagOpcodes p.opcode = true ∨ repNoFlagOpcodes p.opcode = true
    · have heip : (repe hv p m).2.vm.eip = m.vm.eip :=
        repLoop_eip hv (staysInLine_of_string hs) _ _ _ m
      rwa [h] at heip
    · rw [not_or] at hs
      rw [repLoop_of_verdict_err (fun _ ↦ by rw [repeVerdict, if_neg hs.1, if_neg hs.2]) _ h]
  | repne =>
    change repne hv p m = _ at h
    unfold repne at h
    split at h
    · next hs =>
      have heip := congrArg (·.2.vm.eip) h
      exact heip.symm.trans (repLoop_eip hv (staysInLine_of_string (.inl hs)) _ _ _ m)
    · cases h

end Rep

theorem cut_add {e t : ℕ} (he : e ≤ 16) :
    ((2 ^ 32 - e + t) % 2 ^ 32 % 0x10000 + e) % 2 ^ 32 = t % 0x10000 ↔ ¬t % 0x10000 < e := by
  have hcut : (2 ^ 32 - e + t) % 2 ^ 32 % 0x10000 = (0x10000 - e + t % 0x10000) % 0x10000 := by
    omega
  rw [hcut]
  omega

theorem masked_add {p : Pipeline} {target : BitVec 32} (hl : p.eipSize.toNat ≤ 16) :
    masked p (target - p.eipSize.setWidth 32) + p.eipSize.setWidth 32 = masked p target ↔
      ¬(p.sizeOverride = true ∧ (target &&& 0xFFFF).toNat < p.eipSize.toNat) := by
  have hmask : ∀ a : BitVec 32, (a &&& 0xFFFF).toNat = a.toNat % 0x10000 := fun a ↦ by
    rw [BitVec.toNat_and]
    exact Nat.and_two_pow_sub_one_eq_mod a.toNat 16
  unfold masked
  cases ho : p.sizeOverride with
  | false => simp
  | true =>
    have he : p.eipSize.toNat % 2 ^ 32 = p.eipSize.toNat := Nat.mod_eq_of_lt (by omega)
    rw [if_pos rfl, if_pos rfl, ← BitVec.toNat_inj, BitVec.toNat_add, hmask, hmask,
      BitVec.toNat_sub, BitVec.toNat_setWidth, he, cut_add hl]
    simp

theorem SlotFn.target_setGas (f : SlotFn) (p : Pipeline) (vm : VM) (length : ℕ)
    (g : BitVec 64) : f.target p (vm.setGas g) length = f.target p vm length := by
  obtain (f | _) | _ | _ := f
  · exact f.target_setGas p vm length g
  all_goals rfl

theorem successor_of_none (vm : VM) (p : Pipeline) (length : ℕ)
    (ht : p.function.target p vm length = none) (he : p.function ≠ .opcode (.logic .enter)) :
    vm.successor p length = vm.eip + BitVec.ofNat 32 length ∧ ¬vm.Strays p length := by
  simp [VM.successor, VM.Strays, ht, he]

theorem logic_successor_iff {f : LogicFn} {p : Pipeline} {vm vm' : VM}
    (hf : p.function = .opcode (.logic f)) (hl : p.eipSize.toNat ≤ 16) (hc : f ≠ .callAbs)
    (hr : f = .callRel → ∃ v, (p.args 0).location = .immediate v)
    (h : (f.logic p).run vm = (.ok (), vm')) :
    vm'.eip + p.eipSize.setWidth 32 = vm.successor p p.eipSize.toNat ↔
      ¬vm.Strays p p.eipSize.toNat := by
  by_cases he : f = .enter
  · subst he
    have hne : vm'.eip + p.eipSize.setWidth 32 ≠ vm.successor p p.eipSize.toNat := by
      rw [enter_ok h]
      simp only [VM.successor, hf, SlotFn.target, LogicFn.target, BitVec.ofNat_toNat]
      rw [ne_eq, BitVec.add_assoc, BitVec.add_right_inj, BitVec.add_comm]
      intro h3
      simp at h3
    simp [VM.Strays, hf, hne]
  · have heip := f.run_eip h he hc hr
    cases ht : f.target p vm p.eipSize.toNat with
    | none =>
      obtain ⟨hs, hn⟩ := successor_of_none vm p p.eipSize.toNat (by rw [hf]; exact ht)
        (by rw [hf]; simpa using he)
      rw [ht] at heip
      simp [hs, hn, heip]
    | some target =>
      rw [ht] at heip
      have hs : vm.successor p p.eipSize.toNat = masked p target := by
        simp only [VM.successor, hf, SlotFn.target, ht]
      rw [hs, heip, masked_add hl]
      simp [VM.Strays, hf, SlotFn.target, ht, he]

theorem eip_followed {vm : VM} {writeable : Bool} {p : Pipeline} {f : Filled}
    {m m' : Machine σ} (hd : fillSlot vm OPCODES writeable m.vm.eip p = .ok f)
    (hs : f.stop = false) (he : f.slot.function ≠ .opcode (.logic .enter))
    (h : runSlot hv f.slot m = .inl m') : m'.vm.eip = f.next := by
  rw [fillSlot_keepArgs] at hd
  obtain ⟨g, hg, hd⟩ := bind_eq_ok.mp hd
  cases hd
  rw [Filled.keepArgs_stop] at hs
  have hkeep : g.keepArgs p.args = g := if_neg (by simp [(not_isRep_of_not_stop hg hs).1])
  rw [hkeep] at he h ⊢
  exact (runSlot_next hg hs he h).1

/-- An instruction that is neither an interrupt nor an indirect call leaves `eip` at its
architectural successor, except where it goes astray. Where filling goes on past an
instruction, this is the address where it does. -/
theorem eip_successor_iff {vm : VM} {writeable : Bool} {p : Pipeline} {f : Filled}
    {m m' : Machine σ} (hd : fillSlot vm OPCODES writeable m.vm.eip p = .ok f)
    (hi : f.slot.function ≠ .opcode .interrupt)
    (hc : f.slot.function ≠ .opcode (.logic .callAbs))
    (h : runSlot hv f.slot m = .inl m') :
    ∃ length, vm.lengthAt m.vm.eip = .ok length ∧
      (m'.vm.eip = m.vm.successor f.slot length ↔ ¬m.vm.Strays f.slot length) ∧
      (f.stop = false → ¬m.vm.Strays f.slot length → m'.vm.eip = f.next) := by
  refine ⟨f.slot.eipSize.toNat, fillSlot_lengthAt hd, ?_, fun hs hn ↦
    eip_followed hd hs (fun he ↦ hn (.inl he)) h⟩
  have hl := (fillSlot_eipSize hd).2
  simp only [runSlot] at h
  split at h
  · cases h
  rcases hcall : f.slot.function.call hv f.slot (m.charge f.slot.gasCost) with ⟨_ | _ | _, m₁⟩ <;>
    rw [hcall] at h <;> cases h
  change m₁.vm.eip + f.slot.eipSize.setWidth 32 = _ ↔ _
  obtain ⟨window, pre, n, -, -, -, hf⟩ := fillSlot_eq_ok hd
  cases hfn : f.slot.function with
  | repe | repne =>
    rw [hfn] at hcall
    have heip : m₁.vm.eip = (m.charge f.slot.gasCost).vm.eip := repCall_eip rfl hcall
    obtain ⟨hs, hn⟩ := successor_of_none m.vm f.slot f.slot.eipSize.toNat
      (by rw [hfn]; rfl) (by rw [hfn]; simp)
    rw [heip, hs, BitVec.ofNat_toNat]
    exact iff_of_true rfl hn
  | opcode g =>
    cases g with
    | interrupt => exact absurd hfn hi
    | logic g =>
      rw [hfn, SlotFn.call, OpcodeFn.call_logic, Prod.mk.injEq] at hcall
      obtain ⟨hr, rfl⟩ := hcall
      have hcall : g = .callRel → ∃ v, (f.slot.args 0).location = .immediate v := by
        rintro rfl
        cases hf with
        | rep slot _ hs he =>
          obtain ⟨b, -, hs⟩ := bind_eq_ok.mp hs
          cases hs
          rw [he, surcharge_function] at hfn
          dsimp only at hfn
          split at hfn <;> cases hfn
        | opcode opcode slot _ _ _ hd' _ he =>
          rw [he, surcharge_function, hd'.function, SlotFn.opcode.injEq] at hfn
          rw [he, surcharge_args]
          exact (hd'.jump_args (hd'.relativeJump_of_callRel hfn)).1
      have hiff := logic_successor_iff hfn hl (fun h ↦ hc (by rw [hfn, h])) hcall
        (Prod.ext hr rfl)
      simp only [Machine.charge, Machine.setGas_vm, VM.successor, VM.Strays,
        SlotFn.target_setGas] at hiff
      exact hiff

def jumpOver : Machine (List (BitVec 8)) :=
  createMachine ⟨[0xEB, 0x01, 0x90, 0xF4] ++ List.replicate 16 0, by decide⟩

def jumpOverSlot : Filled where
  slot := { (default : Pipeline) with
    function := .opcode (.logic .jmpRel)
    args := ![⟨.immediate (.byte 0x01), false⟩, {}, {}]
    gasCost := 4
    eipSize := 2
    opcode := 0xEB }
  next := 0x10003
  stop := false

theorem eip_successor_iff_jumpOver : ∃ m',
    runSlot testHypervisor jumpOverSlot.slot jumpOver = .inl m' ∧ m'.vm.eip = 0x10003 := by
  have hd : jumpOver.vm.decodeAt false jumpOver.vm.eip = .ok jumpOverSlot := by decide +kernel
  have hleft : (runSlot testHypervisor jumpOverSlot.slot jumpOver).isLeft = true := by
    decide +kernel
  obtain ⟨m', hrun⟩ := Sum.isLeft_iff.mp hleft
  obtain ⟨length, hl, hiff, -⟩ := @eip_successor_iff _ testHypervisor jumpOver.vm false default
    jumpOverSlot jumpOver m' hd (by decide) (by decide) hrun
  have hl' : jumpOver.vm.lengthAt jumpOver.vm.eip = .ok 2 := by decide +kernel
  obtain rfl : 2 = length := Outcome.ok.inj (hl'.symm.trans hl)
  refine ⟨m', hrun, (hiff.mpr ?_).trans (by decide +kernel)⟩
  simp [VM.Strays, jumpOverSlot]

def enterLocals : Machine (List (BitVec 8)) where
  vm := { createVm ⟨[0xC8, 0x10, 0x00, 0x00] ++ List.replicate 16 0, by decide⟩ with
    regs := fun r ↦ if r = Register.esp then 0x80000020 else 0 }
  host := []

def enterLocalsSlot : Filled where
  slot := { (default : Pipeline) with
    function := .opcode (.logic .enter)
    args := ![⟨.immediate (.word 0x10), false⟩, ⟨.immediate (.byte 0), false⟩, {}]
    gasCost := 4
    eipSize := 4
    opcode := 0xC8 }
  next := 0x10004
  stop := false

/-- After `enter` three more bytes are skipped. -/
theorem eip_strays_enterLocals :
    ¬∀ (m m' : Machine (List (BitVec 8))) (f : Filled) (length : ℕ),
      m.vm.decodeAt (writeableAt m.vm.eip) m.vm.eip = .ok f →
      f.slot.function ≠ .opcode .interrupt → f.slot.function ≠ .opcode (.logic .callAbs) →
      m.vm.lengthAt m.vm.eip = .ok length → runSlot testHypervisor f.slot m = .inl m' →
      m'.vm.eip = m.vm.successor f.slot length := by
  intro h
  have hd : enterLocals.vm.decodeAt (writeableAt enterLocals.vm.eip) enterLocals.vm.eip =
      .ok enterLocalsSlot := by
    decide +kernel
  have hl : enterLocals.vm.lengthAt enterLocals.vm.eip = .ok 4 := by decide +kernel
  have heip : ((runSlot testHypervisor enterLocalsSlot.slot enterLocals).getLeft?.map
      (·.vm.eip)) = some 0x10007 := by
    decide +kernel
  cases hrun : runSlot testHypervisor enterLocalsSlot.slot enterLocals with
  | inr r => simp [hrun] at heip
  | inl m' =>
    have hs := h enterLocals m' enterLocalsSlot 4 hd (by decide) (by decide) hl hrun
    rw [hrun] at heip
    have heip : m'.vm.eip = 0x10007 := Option.some.inj heip
    rw [heip] at hs
    exact absurd hs (by decide +kernel)

end Qx86
