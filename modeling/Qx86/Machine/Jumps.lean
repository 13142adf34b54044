import Qx86.Machine.Logic

namespace Qx86.Operations

open Foundation Op

variable {e : Effects} {p : Pipeline} {vm vm' : VM}

theorem pushStack_eip (v : SizedValue) (p : Pipeline) (vm : VM) :
    ((pushStack v p : Op e Unit).run vm).2.eip = vm.eip := by
  rcases p with ⟨f, a, g, s, _ | _, o⟩
  · exact (pushStack v ⟨f, a, g, s, false, o⟩ : Op .straight Unit).eip rfl vm
  · exact (pushStack v ⟨f, a, g, s, true, o⟩ : Op .straight Unit).eip rfl vm

theorem setArg_eip (loc : ArgLocation) (v : SizedValue) (vm : VM) :
    ((setArg loc v : Op e Unit).run vm).2.eip = vm.eip :=
  (setArg loc v : Op .straight Unit).eip rfl vm

theorem getArgAs_ok {α : Type} {conv : SizedValue → Except VMError α} {loc : ArgLocation}
    {a : α} (h : (getArgAs conv loc : Op e α).run vm = (.ok a, vm')) :
    vm' = vm ∧ vm.getArg loc >>= conv = .ok a := by
  rw [run_getArgAs, Prod.mk.injEq, Outcome.ofExcept_eq_ok] at h
  exact ⟨h.2.symm, h.1⟩

def masked (p : Pipeline) (a : BitVec 32) : BitVec 32 :=
  if p.sizeOverride then a &&& 0xFFFF else a

def relative (p : Pipeline) (eip rel : BitVec 32) : BitVec 32 :=
  masked p (eip + p.eipSize.setWidth 32 + rel - p.eipSize.setWidth 32)

theorem jumpTo_ok {a : BitVec 32} (h : (jumpTo a p).run vm = (.ok (), vm')) :
    vm' = { vm with eip := masked p a } := by
  unfold jumpTo at h
  unfold masked
  split at h <;> simp_all

theorem jmpRel_ok (h : (jmpRel p).run vm = (.ok (), vm')) :
    ∃ rel, vm.getArg (p.args 0).location >>= SizedValue.u32Sx = .ok rel ∧
      vm' = { vm with eip := relative p vm.eip rel } := by
  obtain ⟨eip, vm₁, h₁, h₂⟩ := run_bind_ok.mp h
  cases h₁
  obtain ⟨rel, vm₂, h₃, h₄⟩ := run_bind_ok.mp h₂
  obtain ⟨rfl, hr⟩ := getArgAs_ok h₃
  exact ⟨rel, hr, jumpTo_ok h₄⟩

theorem jmpAbs_ok (h : (jmpAbs p).run vm = (.ok (), vm')) :
    ∃ target, vm.getArg (p.args 0).location >>= SizedValue.u32Zx = .ok target ∧
      vm' = { vm with eip := masked p (target - p.eipSize.setWidth 32) } := by
  obtain ⟨target, vm₁, h₁, h₂⟩ := run_bind_ok.mp h
  obtain ⟨rfl, hr⟩ := getArgAs_ok h₁
  exact ⟨target, hr, jumpTo_ok h₂⟩

theorem call_ok {jump : Pipeline → Op .jump Unit}
    (h : (call jump p).run vm = (.ok (), vm')) :
    ∃ vm₁, vm₁.eip = vm.eip ∧ (jump p).run vm₁ = (.ok (), vm') := by
  obtain ⟨branchTo, vm₁, h₁, h₂⟩ := run_bind_ok.mp h
  obtain ⟨rfl, -⟩ := getArgAs_ok h₁
  obtain ⟨eip, vm₂, h₃, h₄⟩ := run_bind_ok.mp h₂
  cases h₃
  obtain ⟨_, vm₃, h₅, h₆⟩ := run_bind_ok.mp h₄
  obtain ⟨_, vm₄, h₇, h₈⟩ := run_bind_ok.mp h₆
  have hp := pushStack_eip (e := .jump) (.dword (vm₁.eip + p.eipSize.setWidth 32)) p vm₁
  have ha := setArg_eip (e := .jump) (p.args 1).location (.dword branchTo) vm₃
  rw [h₅] at hp
  rw [h₇] at ha
  exact ⟨vm₄, ha.trans hp, h₈⟩

theorem jcc_ok (h : (jcc p).run vm = (.ok (), vm')) :
    if ccMatches p.opcode vm.flags then (jmpRel p).run vm = (.ok (), vm') else vm' = vm := by
  obtain ⟨f, vm₁, h₁, h₂⟩ := run_bind_ok.mp h
  cases h₁
  split <;> simp_all

theorem jmpConditionalEcxIsZero_ok
    (h : (jmpConditionalEcxIsZero p).run vm = (.ok (), vm')) :
    if vm.reg32 .ecx = 0 then (jmpRel p).run vm = (.ok (), vm') else vm' = vm := by
  obtain ⟨f, vm₁, h₁, h₂⟩ := run_bind_ok.mp h
  cases h₁
  split <;> simp_all

section Return

theorem pop16_ok {v : SizedValue} (h : (pop16 : Op e SizedValue).run vm = (.ok v, vm')) :
    vm.getMem (vm.reg32 .esp) .word = .ok v ∧ vm'.eip = vm.eip := by
  obtain ⟨esp, vm₁, h₁, h₂⟩ := run_bind_ok.mp h
  cases h₁
  obtain ⟨_, vm₂, h₃, h₄⟩ := run_bind_ok.mp h₂
  cases h₃
  rw [run_read, Prod.mk.injEq, Outcome.ofExcept_eq_ok] at h₄
  exact ⟨h₄.1, by rw [← h₄.2]; rfl⟩

theorem pop32_ok {v : SizedValue} (h : (pop32 : Op e SizedValue).run vm = (.ok v, vm')) :
    vm.getMem (vm.reg32 .esp) .dword = .ok v ∧ vm'.eip = vm.eip := by
  obtain ⟨esp, vm₁, h₁, h₂⟩ := run_bind_ok.mp h
  cases h₁
  obtain ⟨_, vm₂, h₃, h₄⟩ := run_bind_ok.mp h₂
  cases h₃
  rw [run_read, Prod.mk.injEq, Outcome.ofExcept_eq_ok] at h₄
  exact ⟨h₄.1, by rw [← h₄.2]; rfl⟩

def popped (p : Pipeline) (vm : VM) : Except VMError (BitVec 32) :=
  vm.getMem (vm.reg32 .esp) (if p.sizeOverride then .word else .dword) >>= SizedValue.u32Zx

theorem popEip_ok (h : (popEip p).run vm = (.ok (), vm')) :
    ∃ target, popped p vm = .ok target ∧
      vm'.eip = masked p (target - p.eipSize.setWidth 32) := by
  unfold popEip at h
  unfold popped masked
  split at h
  · next ho =>
    obtain ⟨word, vm₁, h₁, h₂⟩ := run_bind_ok.mp h
    obtain ⟨target, vm₂, h₃, h₄⟩ := run_bind_ok.mp h₂
    rw [run_ofExcept, Prod.mk.injEq, Outcome.ofExcept_eq_ok] at h₃
    cases h₄
    exact ⟨target, by rw [if_pos ho, (pop16_ok h₁).1]; exact h₃.1, by rw [if_pos ho]⟩
  · next ho =>
    obtain ⟨dword, vm₁, h₁, h₂⟩ := run_bind_ok.mp h
    obtain ⟨target, vm₂, h₃, h₄⟩ := run_bind_ok.mp h₂
    rw [run_ofExcept, Prod.mk.injEq, Outcome.ofExcept_eq_ok] at h₃
    cases h₄
    exact ⟨target, by rw [if_neg ho, (pop32_ok h₁).1]; exact h₃.1, by rw [if_neg ho]⟩

theorem ret_ok (h : (ret p).run vm = (.ok (), vm')) :
    ∃ target, popped p vm = .ok target ∧
      vm'.eip = masked p (target - p.eipSize.setWidth 32) := by
  obtain ⟨stackClear, vm₁, h₁, h₂⟩ := run_bind_ok.mp h
  obtain ⟨rfl, -⟩ := getArgAs_ok h₁
  obtain ⟨_, vm₂, h₃, h₄⟩ := run_bind_ok.mp h₂
  obtain ⟨target, ht, he⟩ := popEip_ok h₃
  refine ⟨target, ht, Eq.trans ?_ he⟩
  split at h₄
  · cases h₄
    rfl
  · cases h₄
    rfl

end Return

section Enter

def KeepsEip {α : Type} (c : Op e α) : Prop := ∀ vm : VM, (c.run vm).2.eip = vm.eip

theorem KeepsEip.ok {α : Type} {c : Op e α} {r : Outcome VMError α} (hc : KeepsEip c)
    (h : c.run vm = (r, vm')) : vm'.eip = vm.eip := by
  have he := hc vm
  rwa [h] at he

theorem KeepsEip.bind {α β : Type} {c : Op e α} {f : α → Op e β} (hc : KeepsEip c)
    (hf : ∀ a, KeepsEip (f a)) : KeepsEip (c >>= f) := by
  intro vm
  have h := hc vm
  rw [run_bind]
  rcases hr : c.run vm with ⟨a | _ | _, vm₁⟩ <;> rw [hr] at h
  · exact (hf a vm₁).trans h
  · exact h
  · exact h

theorem KeepsEip.times {c : Op e Unit} (hc : KeepsEip c) (n : ℕ) : KeepsEip (times n c) := by
  induction n with
  | zero => exact fun _ ↦ rfl
  | succ n ih => exact hc.bind fun _ ↦ ih

theorem keepsEip_pushStack (v : SizedValue) : KeepsEip (pushStack v p : Op e Unit) :=
  pushStack_eip v p

theorem keepsEip_pushNesting (nesting : BitVec 8) (ebp temp : BitVec 32) :
    KeepsEip (pushNesting nesting ebp temp p : Op e Unit) := by
  unfold pushNesting
  split
  · refine KeepsEip.bind (KeepsEip.times ?_ _) fun _ ↦ keepsEip_pushStack _
    split <;> exact KeepsEip.bind (fun _ ↦ rfl) fun _ ↦ keepsEip_pushStack _
  · exact fun _ ↦ rfl

/-- `enter` moves `eip` past its literals, which its size already counts. -/
theorem enter_ok (h : (enter p).run vm = (.ok (), vm')) : vm'.eip = vm.eip + 3 := by
  obtain ⟨locals, vm₁, h₁, h₂⟩ := run_bind_ok.mp h
  obtain ⟨rfl, -⟩ := getArgAs_ok h₁
  obtain ⟨_, vm₂, h₃, h₄⟩ := run_bind_ok.mp h₂
  cases h₃
  obtain ⟨nesting, vm₃, h₅, h₆⟩ := run_bind_ok.mp h₄
  obtain ⟨rfl, -⟩ := getArgAs_ok h₅
  obtain ⟨_, vm₄, h₇, h₈⟩ := run_bind_ok.mp h₆
  cases h₇
  have he : vm'.eip = vm₁.eip + 2 + 1 := KeepsEip.ok
    (KeepsEip.bind (fun _ ↦ rfl) fun _ ↦ KeepsEip.bind (keepsEip_pushStack _) fun _ ↦
      KeepsEip.bind (fun _ ↦ rfl) fun _ ↦ KeepsEip.bind (keepsEip_pushNesting _ _ _) fun _ ↦
        KeepsEip.bind (fun _ ↦ rfl) fun _ _ ↦ rfl) h₈
  rw [he, BitVec.add_assoc]
  rfl

end Enter

end Qx86.Operations
