import Mathlib.Tactic.Common
import Mathlib.Order.WellFounded

namespace Qx86.Foundation

/-- Run a deterministic system that either moves on or finishes with a result. -/
def iterate {S R : Type*} (step : S → S ⊕ R) : ℕ → S → S ⊕ R
  | 0, s => .inl s
  | n + 1, s =>
    match step s with
    | .inl s' => iterate step n s'
    | .inr r => .inr r

variable {S T R : Type*} {step : S → S ⊕ R} {s s' s'' : S} {r r' : R}

def Reaches (step : S → S ⊕ R) (s s' : S) : Prop := ∃ n, iterate step n s = .inl s'

def Finishes (step : S → S ⊕ R) (s : S) (r : R) : Prop := ∃ n, iterate step n s = .inr r

theorem iterate_succ_inl (h : step s = .inl s') (n : ℕ) :
    iterate step (n + 1) s = iterate step n s' := by
  simp only [iterate, h]

theorem iterate_succ_inr (h : step s = .inr r) (n : ℕ) :
    iterate step (n + 1) s = .inr r := by
  simp only [iterate, h]

theorem iterate_add_inl {m : ℕ} (h : iterate step m s = .inl s') (n : ℕ) :
    iterate step (m + n) s = iterate step n s' := by
  induction m generalizing s with
  | zero => simp_all [iterate]
  | succ m ih =>
    rw [Nat.add_right_comm]
    cases hs : step s with
    | inl t =>
      rw [iterate_succ_inl hs] at h ⊢
      exact ih h
    | inr r => simp [iterate_succ_inr hs] at h

theorem iterate_add_inr {m : ℕ} (h : iterate step m s = .inr r) (n : ℕ) :
    iterate step (m + n) s = .inr r := by
  induction m generalizing s with
  | zero => simp [iterate] at h
  | succ m ih =>
    rw [Nat.add_right_comm]
    cases hs : step s with
    | inl t =>
      rw [iterate_succ_inl hs] at h ⊢
      exact ih h
    | inr r' => simpa [iterate_succ_inr hs] using h

section Map

variable {Q : Type*} {step' : T → T ⊕ Q} {f : S → T} {g : R → Q}
  (h : ∀ s, step' (f s) = (step s).map f g)

include h

theorem iterate_map (n : ℕ) (s : S) : iterate step' n (f s) = (iterate step n s).map f g := by
  induction n generalizing s with
  | zero => rfl
  | succ n ih =>
    have hs := h s
    cases he : step s with
    | inl t =>
      rw [he] at hs
      rw [iterate_succ_inl hs, iterate_succ_inl he, ih]
    | inr r =>
      rw [he] at hs
      rw [iterate_succ_inr hs, iterate_succ_inr he]
      rfl

theorem finishes_map_iff (s : S) (q : Q) :
    Finishes step' (f s) q ↔ ∃ r, Finishes step s r ∧ g r = q := by
  constructor
  · rintro ⟨n, hn⟩
    rw [iterate_map h] at hn
    cases hi : iterate step n s with
    | inl t =>
      rw [hi] at hn
      cases hn
    | inr r =>
      rw [hi] at hn
      cases hn
      exact ⟨r, ⟨n, hi⟩, rfl⟩
  · rintro ⟨r, ⟨n, hn⟩, rfl⟩
    refine ⟨n, ?_⟩
    rw [iterate_map h, hn]
    rfl

end Map

namespace Reaches

theorem refl (step : S → S ⊕ R) (s : S) : Reaches step s s := ⟨0, rfl⟩

theorem single (h : step s = .inl s') : Reaches step s s' := ⟨1, by simp [iterate, h]⟩

theorem trans (h : Reaches step s s') (h' : Reaches step s' s'') : Reaches step s s'' := by
  obtain ⟨m, hm⟩ := h
  obtain ⟨n, hn⟩ := h'
  exact ⟨m + n, by rw [iterate_add_inl hm, hn]⟩

theorem head (h : step s = .inl s') (h' : Reaches step s' s'') : Reaches step s s'' :=
  (single h).trans h'

theorem eq_of_inr (hs : step s = .inr r) (h : Reaches step s s') : s' = s := by
  obtain ⟨n, hn⟩ := h
  cases n with
  | zero => cases hn; rfl
  | succ n => simp [iterate_succ_inr hs] at hn

theorem invariant {P : S → Prop} (hP : ∀ s s', step s = .inl s' → P s → P s') (h₀ : P s)
    (h : Reaches step s s') : P s' := by
  obtain ⟨n, hn⟩ := h
  induction n generalizing s with
  | zero => cases hn; exact h₀
  | succ n ih =>
    cases hs : step s with
    | inl t =>
      rw [iterate_succ_inl hs] at hn
      exact ih (hP s t hs h₀) hn
    | inr r => simp [iterate_succ_inr hs] at hn

theorem all_of_iterate (h : Reaches step s s') {P : S → Prop} {n : ℕ}
    (hend : (iterate step n s).isRight = true)
    (hall : ∀ k < n, ∀ t ∈ (iterate step k s).getLeft?, P t) : P s' := by
  obtain ⟨k, hk⟩ := h
  refine hall k (Nat.lt_of_not_le fun hle ↦ ?_) s' (by rw [hk]; rfl)
  obtain ⟨j, rfl⟩ := Nat.exists_eq_add_of_le hle
  obtain ⟨r, hr⟩ := Sum.isRight_iff.mp hend
  have hstop := iterate_add_inr hr j
  rw [hk] at hstop
  cases hstop

end Reaches

namespace Finishes

theorem single (h : step s = .inr r) : Finishes step s r := ⟨1, by simp [iterate, h]⟩

theorem of_reaches (h : Reaches step s s') (h' : Finishes step s' r) : Finishes step s r := by
  obtain ⟨m, hm⟩ := h
  obtain ⟨n, hn⟩ := h'
  exact ⟨m + n, by rw [iterate_add_inl hm, hn]⟩

theorem of_getRight {α : Type*} {g : R → α} {a : α} {n : ℕ}
    (h : (iterate step n s).getRight?.map g = some a) : ∃ r, Finishes step s r ∧ g r = a := by
  cases hn : iterate step n s with
  | inl t => simp [hn] at h
  | inr r => exact ⟨r, ⟨n, hn⟩, by simpa [hn] using h⟩

theorem unique (h : Finishes step s r) (h' : Finishes step s r') : r = r' := by
  obtain ⟨m, hm⟩ := h
  obtain ⟨n, hn⟩ := h'
  have h₁ := iterate_add_inr hm n
  have h₂ := iterate_add_inr hn m
  rw [Nat.add_comm, h₂] at h₁
  exact (Sum.inr.inj h₁).symm

theorem last (h : Finishes step s r) : ∃ t, Reaches step s t ∧ step t = .inr r := by
  obtain ⟨n, hn⟩ := h
  induction n generalizing s with
  | zero => cases hn
  | succ n ih =>
    cases hs : step s with
    | inl t =>
      rw [iterate_succ_inl hs] at hn
      obtain ⟨u, hu, hr⟩ := ih hn
      exact ⟨u, .head hs hu, hr⟩
    | inr r' =>
      rw [iterate_succ_inr hs] at hn
      cases hn
      exact ⟨s, .refl .., hs⟩

theorem tail (h : step s = .inl s') (hr : Finishes step s r) : Finishes step s' r := by
  obtain ⟨n, hn⟩ := hr
  cases n with
  | zero => cases hn
  | succ n => exact ⟨n, (iterate_succ_inl h n).symm.trans hn⟩

theorem rest (h : Reaches step s s') (hr : Finishes step s r) : Finishes step s' r := by
  obtain ⟨n, hn⟩ := h
  induction n generalizing s with
  | zero =>
    cases hn
    exact hr
  | succ n ih =>
    cases hs : step s with
    | inl t =>
      rw [iterate_succ_inl hs] at hn
      exact ih (hr.tail hs) hn
    | inr r' =>
      rw [iterate_succ_inr hs] at hn
      cases hn

theorem not_of_fixed (h : step s = .inl s) : ¬Finishes step s r := by
  rintro ⟨n, hn⟩
  induction n with
  | zero => cases hn
  | succ n ih => exact ih ((iterate_succ_inl h n).symm.trans hn)

/-- A run whose steps all lower a measure finishes. -/
theorem of_measure {α : Type*} [Preorder α] [WellFoundedLT α] (μ : S → α) {P : S → Prop}
    (hP : ∀ s s', step s = .inl s' → P s → P s' ∧ μ s' < μ s) (h₀ : P s) :
    ∃ r, Finishes step s r := by
  induction hm : μ s using WellFoundedLT.induction generalizing s with
  | ind a ih =>
    cases hs : step s with
    | inl t =>
      obtain ⟨ht, hlt⟩ := hP s t hs h₀
      obtain ⟨r, hr⟩ := ih (μ t) (hm ▸ hlt) ht rfl
      exact ⟨r, of_reaches (.single hs) hr⟩
    | inr r => exact ⟨r, .single hs⟩

end Finishes

/-- A step of one system that is one or more steps of another, up to a projection. -/
def MacroStep (big : S → S ⊕ R) (small : T → T ⊕ R) (proj : S → T) (s : S) : Prop :=
  ∃ k, iterate small (k + 1) (proj s) = (big s).map proj id

/-- A system whose reachable steps are all macro steps of another has its results. -/
theorem finishes_iff_of_macroStep {big : S → S ⊕ R} {small : T → T ⊕ R} {proj : S → T}
    (h : ∀ t, Reaches big s t → MacroStep big small proj t) (r : R) :
    Finishes big s r ↔ Finishes small (proj s) r := by
  constructor
  · rintro ⟨n, hn⟩
    induction n generalizing s with
    | zero => cases hn
    | succ n ih =>
      obtain ⟨k, hk⟩ := h s (.refl ..)
      cases hs : big s with
      | inl t =>
        rw [iterate_succ_inl hs] at hn
        rw [hs] at hk
        exact .of_reaches ⟨k + 1, hk⟩ (ih (fun u hu ↦ h u (.head hs hu)) hn)
      | inr r' =>
        rw [iterate_succ_inr hs] at hn
        cases hn
        exact ⟨k + 1, by rw [hk, hs]; rfl⟩
  · rintro ⟨n, hn⟩
    induction n using Nat.strong_induction_on generalizing s with
    | _ n ih =>
      obtain ⟨k, hk⟩ := h s (.refl ..)
      cases hs : big s with
      | inr r' =>
        rw [hs] at hk
        have hr : Finishes small (proj s) r' := ⟨k + 1, hk⟩
        rw [Finishes.unique ⟨n, hn⟩ hr]
        exact .single hs
      | inl t =>
        rw [hs] at hk
        by_cases hlt : n ≤ k + 1
        · obtain ⟨j, hj⟩ := Nat.le.dest hlt
          have := iterate_add_inr hn j
          rw [hj, hk] at this
          cases this
        · obtain ⟨j, rfl⟩ : ∃ j, n = (k + 1) + j := ⟨n - (k + 1), by omega⟩
          rw [iterate_add_inl hk] at hn
          exact .of_reaches (.single hs) (ih j (by omega) (fun u hu ↦ h u (.head hs hu)) hn)

end Qx86.Foundation
