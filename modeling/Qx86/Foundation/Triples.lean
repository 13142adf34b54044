import Qx86.Foundation.Iteration

namespace Qx86.Foundation

variable {S R : Type*} {step : S → S ⊕ R} {I : S → Prop} {s t u : S} {P P' Q Q' : S → Prop}

/-- A run that keeps to the states of `I` until it comes to its last state. -/
inductive Within (step : S → S ⊕ R) (I : S → Prop) : S → S → Prop
  | refl (s : S) : Within step I s s
  | head {s t u : S} (hI : I s) (hs : step s = .inl t) (h : Within step I t u) : Within step I s u

namespace Within

theorem single (hI : I s) (hs : step s = .inl t) : Within step I s t := .head hI hs (.refl t)

theorem trans (h : Within step I s t) (h' : Within step I t u) : Within step I s u := by
  induction h with
  | refl => exact h'
  | head hI hs _ ih => exact .head hI hs (ih h')

theorem reaches (h : Within step I s t) : Reaches step s t := by
  induction h with
  | refl s => exact .refl step s
  | head _ hs _ ih => exact .head hs ih

theorem forall_reaches {r : R} (h : Within step I s t) (hI : I t) (ht : step t = .inr r)
    (hu : Reaches step s u) : I u := by
  induction h with
  | refl s =>
    rw [hu.eq_of_inr ht]
    exact hI
  | @head s v t hs hv _ ih =>
    obtain ⟨n, hn⟩ := hu
    cases n with
    | zero =>
      cases hn
      exact hs
    | succ n =>
      rw [iterate_succ_inl hv] at hn
      exact ih hI ht ⟨n, hn⟩

end Within

/-- From every state with the precondition the system comes to one with the postcondition. -/
def Leads (step : S → S ⊕ R) (I : S → Prop) (P Q : S → Prop) : Prop :=
  ∀ s, P s → ∃ t, Within step I s t ∧ Q t

/-- From every state with the precondition the system finishes with such a result, and
keeps to the states of `I`. -/
def Ends (step : S → S ⊕ R) (I : S → Prop) (P : S → Prop) (E : R → Prop) : Prop :=
  ∀ s, P s → (∃ r, Finishes step s r ∧ E r) ∧ ∀ t, Reaches step s t → I t

namespace Leads

theorem of_imp (h : ∀ s, P s → Q s) : Leads step I P Q := fun s hs ↦ ⟨s, .refl s, h s hs⟩

theorem of_step (h : ∀ s, P s → I s ∧ ∃ t, step s = .inl t ∧ Q t) : Leads step I P Q :=
  fun s hs ↦
    let ⟨hI, t, ht, hQ⟩ := h s hs
    ⟨t, .single hI ht, hQ⟩

theorem trans {T : S → Prop} (h : Leads step I P Q) (h' : Leads step I Q T) :
    Leads step I P T := by
  intro s hs
  obtain ⟨t, ht, hQ⟩ := h s hs
  obtain ⟨u, hu, hT⟩ := h' t hQ
  exact ⟨u, ht.trans hu, hT⟩

theorem weaken (hP : ∀ s, P s → P' s) (h : Leads step I P' Q') (hQ : ∀ s, Q' s → Q s) :
    Leads step I P Q :=
  (of_imp hP).trans (h.trans (of_imp hQ))

/-- The rule for a loop whose passes lower a variant until it is left. -/
theorem loop {J : ℕ → S → Prop}
    (h : ∀ k, Leads step I (J k) fun s ↦ Q s ∨ ∃ j < k, J j s) (k : ℕ) : Leads step I (J k) Q := by
  induction k using Nat.strong_induction_on with
  | _ k ih =>
    intro s hs
    obtain ⟨t, ht, hQ | ⟨j, hj, hJ⟩⟩ := h k s hs
    · exact ⟨t, ht, hQ⟩
    · obtain ⟨u, hu, hQ⟩ := ih j hj t hJ
      exact ⟨u, ht.trans hu, hQ⟩

theorem ends {E : R → Prop} (h : Leads step I P Q)
    (hQ : ∀ s, Q s → I s ∧ ∃ r, step s = .inr r ∧ E r) : Ends step I P E := by
  intro s hs
  obtain ⟨t, ht, hq⟩ := h s hs
  obtain ⟨hI, r, hr, hE⟩ := hQ t hq
  exact ⟨⟨r, .of_reaches ht.reaches (.single hr), hE⟩, fun u hu ↦ ht.forall_reaches hI hr hu⟩

end Leads

end Qx86.Foundation
