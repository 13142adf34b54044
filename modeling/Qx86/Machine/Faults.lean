import Qx86.Machine.Jumps

namespace Qx86

open Foundation

namespace Operations

open Op

variable {e : Effects} {α β : Type} {p : Pipeline}

/-- A step that leaves `eip` where it is if it fails. -/
def FailsInPlace (c : Op e α) : Prop :=
  ∀ vm x vm', c.run vm = (.err x, vm') → vm'.eip = vm.eip

def NeverFails (c : Op e α) : Prop := ∀ vm x vm', c.run vm ≠ (.err x, vm')

theorem KeepsEip.failsInPlace {c : Op e α} (h : KeepsEip c) : FailsInPlace c :=
  fun _ _ _ hr ↦ h.ok hr

theorem NeverFails.failsInPlace {c : Op e α} (h : NeverFails c) : FailsInPlace c :=
  fun vm x vm' hr ↦ absurd hr (h vm x vm')

theorem run_bind_err {c : Op e α} {f : α → Op e β} {vm vm' : VM} {x : VMError}
    (h : (c >>= f).run vm = (.err x, vm')) :
    c.run vm = (.err x, vm') ∨
      ∃ a vm₁, c.run vm = (.ok a, vm₁) ∧ (f a).run vm₁ = (.err x, vm') := by
  rw [run_bind] at h
  rcases hc : c.run vm with ⟨a | y | _, vm₁⟩ <;> rw [hc] at h
  · exact .inr ⟨a, vm₁, rfl, h⟩
  · cases h
    exact .inl rfl
  · cases h

theorem FailsInPlace.bind {c : Op e α} {f : α → Op e β} (hc : KeepsEip c)
    (hf : ∀ a, FailsInPlace (f a)) : FailsInPlace (c >>= f) := by
  intro vm x vm' h
  obtain h | ⟨a, vm₁, hr, h⟩ := run_bind_err h
  · exact hc.ok h
  · exact (hf a vm₁ x vm' h).trans (hc.ok hr)

theorem FailsInPlace.bind_neverFails {c : Op e α} {f : α → Op e β} (hc : FailsInPlace c)
    (hf : ∀ a, NeverFails (f a)) : FailsInPlace (c >>= f) := by
  intro vm x vm' h
  obtain h | ⟨a, vm₁, -, h⟩ := run_bind_err h
  · exact hc vm x vm' h
  · exact absurd h (hf a vm₁ x vm')

section Jumps

theorem keepsEip_getArgAs {conv : SizedValue → Except VMError α} {loc : ArgLocation} :
    KeepsEip (getArgAs conv loc : Op e α) := fun _ ↦ rfl

theorem jumpTo_neverFails (a : BitVec 32) (p : Pipeline) : NeverFails (jumpTo a p) := by
  intro vm x vm'
  unfold jumpTo
  split <;> nofun

theorem jmpRel_failsInPlace (p : Pipeline) : FailsInPlace (jmpRel p) := by
  apply FailsInPlace.bind (fun _ ↦ rfl)
  intro eip
  apply FailsInPlace.bind keepsEip_getArgAs
  intro rel
  exact (jumpTo_neverFails _ p).failsInPlace

theorem jmpAbs_failsInPlace (p : Pipeline) : FailsInPlace (jmpAbs p) := by
  apply FailsInPlace.bind keepsEip_getArgAs
  intro target
  exact (jumpTo_neverFails _ p).failsInPlace

theorem call_failsInPlace {jump : Pipeline → Op .jump Unit} (h : FailsInPlace (jump p)) :
    FailsInPlace (call jump p) := by
  apply FailsInPlace.bind keepsEip_getArgAs
  intro branchTo
  apply FailsInPlace.bind (fun _ ↦ rfl)
  intro eip
  apply FailsInPlace.bind (keepsEip_pushStack _)
  intro _
  apply FailsInPlace.bind (setArg_eip _ _)
  intro _
  exact h

theorem jcc_failsInPlace (p : Pipeline) : FailsInPlace (jcc p) := by
  apply FailsInPlace.bind (fun _ ↦ rfl)
  intro f
  split
  · exact jmpRel_failsInPlace p
  · exact NeverFails.failsInPlace fun _ _ _ ↦ nofun

theorem jmpConditionalEcxIsZero_failsInPlace (p : Pipeline) :
    FailsInPlace (jmpConditionalEcxIsZero p) := by
  apply FailsInPlace.bind (fun _ ↦ rfl)
  intro count
  split
  · exact jmpRel_failsInPlace p
  · exact NeverFails.failsInPlace fun _ _ _ ↦ nofun

theorem popEip_failsInPlace (p : Pipeline) : FailsInPlace (popEip p) := by
  have hpop : ∀ {pop : Op .jump SizedValue} {a : BitVec 32 → BitVec 32}, KeepsEip pop →
      FailsInPlace (do
        let v ← pop
        let target ← ofExcept v.u32Zx
        setEip (a target)) := by
    intro pop a h
    apply FailsInPlace.bind h
    intro v
    apply FailsInPlace.bind (fun _ ↦ rfl)
    intro target
    exact NeverFails.failsInPlace fun _ _ _ ↦ nofun
  have h₁₆ : KeepsEip (pop16 : Op .jump SizedValue) := (pop16 : Op .straight SizedValue).eip rfl
  have h₃₂ : KeepsEip (pop32 : Op .jump SizedValue) := (pop32 : Op .straight SizedValue).eip rfl
  unfold popEip
  split
  · exact hpop h₁₆
  · exact hpop h₃₂

theorem ret_failsInPlace (p : Pipeline) : FailsInPlace (ret p) := by
  apply FailsInPlace.bind keepsEip_getArgAs
  intro stackClear
  apply FailsInPlace.bind_neverFails (popEip_failsInPlace p)
  intro _ vm x vm'
  split <;> nofun

end Jumps

end Operations

open Operations

theorem LogicFn.keepsEip {f : LogicFn} (h : f.effects.jumps = false) (p : Pipeline) :
    KeepsEip (f.logic p) := (f.logic p).eip h

/-- Only `enter` moves `eip` before it fails. -/
theorem LogicFn.failsInPlace {f : LogicFn} (h : f ≠ .enter) (p : Pipeline) :
    FailsInPlace (f.logic p) := by
  cases hj : f.effects.jumps with
  | false => exact (f.keepsEip hj p).failsInPlace
  | true =>
    cases f with
    | enter => exact absurd rfl h
    | ret => exact ret_failsInPlace p
    | callRel => exact call_failsInPlace (jmpRel_failsInPlace p)
    | callAbs => exact call_failsInPlace (jmpAbs_failsInPlace p)
    | jmpRel => exact jmpRel_failsInPlace p
    | jmpAbs => exact jmpAbs_failsInPlace p
    | jmpConditionalEcxIsZero => exact jmpConditionalEcxIsZero_failsInPlace p
    | jcc => exact jcc_failsInPlace p
    | _ => cases hj

end Qx86
