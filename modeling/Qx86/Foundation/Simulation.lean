import Mathlib.Data.Sum.Basic
import Qx86.Foundation.Iteration
import Qx86.Foundation.Outcome

namespace Qx86.Foundation

section Agreement

variable {ε α β S T : Type}

/-- Two computations agree if they have the same outcome in related states, unless the
first fails in a way that is excused. -/
def Agrees (R : S → T → Prop) (excused : ε → Prop) (x : Outcome ε α × S)
    (y : Outcome ε α × T) : Prop :=
  (∃ e, x.1 = .err e ∧ excused e) ∨ x.1 = y.1 ∧ R x.2 y.2

variable {R : S → T → Prop} {excused : ε → Prop} {y : Outcome ε α × T}

namespace Agrees

theorem same {o : Outcome ε α} {s : S} {t : T} (h : R s t) :
    Agrees R excused (o, s) (o, t) := .inr ⟨rfl, h⟩

theorem excuse {e : ε} {s : S} (h : excused e) : Agrees R excused (.err e, s) y :=
  .inl ⟨e, rfl, h⟩

end Agrees

end Agreement

namespace Outcome

variable {ε α β γ δ : Type}

/-- Two outcomes of one kind, whose values are related. -/
inductive Both (R : α → β → Prop) : Outcome ε α → Outcome ε β → Prop
  | ok {a : α} {b : β} (h : R a b) : Both R (.ok a) (.ok b)
  | err (e : ε) : Both R (.err e) (.err e)
  | panic : Both R .panic .panic

theorem Both.refl (x : Outcome ε α) : Both Eq x x := by
  cases x with
  | ok a => exact .ok rfl
  | err e => exact .err e
  | panic => exact .panic

theorem Both.bind {R : α → β → Prop} {T : γ → δ → Prop} {x : Outcome ε α} {y : Outcome ε β}
    {f : α → Outcome ε γ} {g : β → Outcome ε δ} (h : Both R x y)
    (hf : ∀ a b, R a b → Both T (f a) (g b)) : Both T (x >>= f) (y >>= g) := by
  cases h with
  | ok h => exact hf _ _ h
  | err e => exact .err e
  | panic => exact .panic

theorem Both.same {T : γ → δ → Prop} {x : Outcome ε α} {f : α → Outcome ε γ}
    {g : α → Outcome ε δ} (hf : ∀ a, Both T (f a) (g a)) : Both T (x >>= f) (x >>= g) :=
  (refl x).bind fun a _ h ↦ h ▸ hf a

end Outcome

section Lockstep

variable {S T Q Q' : Type*} {R : S → T → Prop} {E : Q → Q' → Prop} {excused : Q → Prop}
  {f : S → S ⊕ Q} {g : T → T ⊕ Q'} {s : S} {t : T}

/-- Two steps match if both go on to related states or both finish with related results,
unless the first finishes with a result that is excused. -/
def Matches (R : S → T → Prop) (E : Q → Q' → Prop) (excused : Q → Prop) (x : S ⊕ Q)
    (y : T ⊕ Q') : Prop :=
  (∃ q, x = .inr q ∧ excused q) ∨ Sum.LiftRel R E x y

/-- Systems whose steps match, wherever a run of the first comes to, have runs that match. -/
theorem Matches.iterate
    (h : ∀ u v, Reaches f s u → R u v → Matches R E excused (f u) (g v)) (n : ℕ) (hst : R s t) :
    Matches R E excused (iterate f n s) (iterate g n t) := by
  induction n generalizing s t with
  | zero => exact .inr (.inl hst)
  | succ n ih =>
    obtain ⟨q, hf, hq⟩ | hstep := h s t (.refl ..) hst
    · exact .inl ⟨q, iterate_succ_inr hf n, hq⟩
    · cases hf : f s with
      | inl s' =>
        cases hg : g t with
        | inl t' =>
          rw [hf, hg, Sum.liftRel_inl_inl] at hstep
          rw [iterate_succ_inl hf, iterate_succ_inl hg]
          exact ih (fun u v hu ↦ h u v (.head hf hu)) hstep
        | inr q' => simp [hf, hg] at hstep
      | inr q =>
        cases hg : g t with
        | inl t' => simp [hf, hg] at hstep
        | inr q' =>
          rw [hf, hg] at hstep
          rw [iterate_succ_inr hf, iterate_succ_inr hg]
          exact .inr hstep

theorem Finishes.of_matches
    (h : ∀ u v, Reaches f s u → R u v → Matches R E excused (f u) (g v)) (hst : R s t) {q : Q}
    (hf : Finishes f s q) (hq : ¬excused q) : ∃ q', Finishes g t q' ∧ E q q' := by
  obtain ⟨n, hn⟩ := hf
  have hrun := Matches.iterate h n hst
  rw [hn] at hrun
  obtain ⟨_, he, hexc⟩ | hrun := hrun
  · cases he
    exact absurd hexc hq
  · cases hg : iterate g n t with
    | inl t' => simp [hg] at hrun
    | inr q' =>
      rw [hg, Sum.liftRel_inr_inr] at hrun
      exact ⟨q', ⟨n, hg⟩, hrun⟩

theorem Finishes.of_matches_right
    (h : ∀ u v, Reaches f s u → R u v → Matches R E excused (f u) (g v)) (hst : R s t) {q' : Q'}
    (hg : Finishes g t q') :
    ∃ q, Finishes f s q ∧ (excused q ∨ E q q') := by
  obtain ⟨n, hn⟩ := hg
  have hrun := Matches.iterate h n hst
  rw [hn] at hrun
  obtain ⟨q, hf, hexc⟩ | hrun := hrun
  · exact ⟨q, ⟨n, hf⟩, .inl hexc⟩
  · cases hf : iterate f n s with
    | inl s' => simp [hf] at hrun
    | inr q =>
      rw [hf, Sum.liftRel_inr_inr] at hrun
      exact ⟨q, ⟨n, hf⟩, .inr hrun⟩

end Lockstep

section Coarse

variable {S T Q Q' : Type*} {f : S → S ⊕ Q} {g : T → T ⊕ Q'} {π : S → T} {ρ : Q → Q'}
  {stopped : Q → Prop} {rest : Q → T} {s s' : S}

/-- A step of one system is a run of another and its next step, or breaks such a run off. -/
def Covers (f : S → S ⊕ Q) (g : T → T ⊕ Q') (π : S → T) (ρ : Q → Q') (stopped : Q → Prop)
    (rest : Q → T) (s : S) : Prop :=
  (∃ q, f s = .inr q ∧ stopped q ∧ Reaches g (π s) (rest q)) ∨
    ∃ t, Reaches g (π s) t ∧ g t = (f s).map π ρ

variable {P : T → Prop} (h : ∀ s, P (π s) → Covers f g π ρ stopped rest s)
  (hP : ∀ t, Reaches g (π s) t → P t)

include h hP

theorem Reaches.covers (hr : Reaches f s s') : Reaches g (π s) (π s') := by
  obtain ⟨n, hn⟩ := hr
  induction n generalizing s with
  | zero =>
    cases hn
    exact .refl ..
  | succ n ih =>
    cases hs : f s with
    | inr q =>
      rw [iterate_succ_inr hs] at hn
      cases hn
    | inl u =>
      rw [iterate_succ_inl hs] at hn
      obtain ⟨q, hq, -⟩ | ⟨t, ht, hg⟩ := h s (hP _ (.refl ..))
      · cases hs.symm.trans hq
      · rw [hs] at hg
        have hu : Reaches g (π s) (π u) := ht.trans (.single hg)
        exact hu.trans (ih (fun t ht ↦ hP t (hu.trans ht)) hn)

theorem Finishes.covers {q : Q} (hf : Finishes f s q) :
    (stopped q ∧ Reaches g (π s) (rest q)) ∨ Finishes g (π s) (ρ q) := by
  obtain ⟨u, hu, hq⟩ := hf.last
  have hg := hu.covers h hP
  obtain ⟨q', hq', hstop, hrest⟩ | ⟨t, ht, hlast⟩ := h u (hP _ hg)
  · cases hq.symm.trans hq'
    exact .inl ⟨hstop, hg.trans hrest⟩
  · rw [hq] at hlast
    exact .inr (.of_reaches (hg.trans ht) (.single hlast))

/-- A system whose steps cover one or more of another finishes if that one does. -/
theorem Finishes.of_covers {q' : Q'} (hg : Finishes g (π s) q') :
    ∃ q, Finishes f s q ∧ (stopped q ∨ ρ q = q') := by
  have hex : ∃ q, Finishes f s q := by
    obtain ⟨n, hn⟩ := hg
    induction n using Nat.strong_induction_on generalizing s with
    | _ n ih =>
      cases hs : f s with
      | inr q => exact ⟨q, .single hs⟩
      | inl u =>
        obtain ⟨q, hq, -⟩ | ⟨t, ⟨k, hk⟩, hlast⟩ := h s (hP _ (.refl ..))
        · cases hs.symm.trans hq
        · rw [hs] at hlast
          have hu : iterate g (k + 1) (π s) = .inl (π u) := by
            rw [iterate_add_inl hk, iterate_succ_inl hlast]
            rfl
          obtain ⟨j, hj⟩ : ∃ j, n = k + 1 + j := by
            refine Nat.exists_eq_add_of_le (Nat.le_of_not_lt fun hlt ↦ ?_)
            obtain ⟨i, hi⟩ := Nat.exists_eq_add_of_le hlt.le
            have hend := iterate_add_inr hn i
            rw [← hi, hu] at hend
            cases hend
          rw [hj, iterate_add_inl hu] at hn
          obtain ⟨q, hq⟩ := ih j (by omega)
            (fun t ht ↦ hP t (.trans ⟨k + 1, hu⟩ ht)) hn
          exact ⟨q, .of_reaches (.single hs) hq⟩
  obtain ⟨q, hq⟩ := hex
  obtain ⟨hstop, -⟩ | hr := hq.covers h hP
  · exact ⟨q, hq, .inl hstop⟩
  · exact ⟨q, hq, .inr (hr.unique hg)⟩

end Coarse

end Qx86.Foundation
