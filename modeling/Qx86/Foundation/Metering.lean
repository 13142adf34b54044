import Mathlib.Tactic.Common
import Qx86.Foundation.Iteration

namespace Qx86.Foundation

/-- How a budget is put into the values of a type, and which of them say that it
ran out. -/
structure Purse (α : Type*) where
  fund : ℕ → α → α
  broke : α → Prop

namespace Purse

variable {S O O' R : Type*}

def sum (P : Purse S) (Q : Purse R) : Purse (S ⊕ R) where
  fund g := Sum.map (P.fund g) (Q.fund g)
  broke := Sum.elim P.broke Q.broke

variable (P : Purse S) (Q : Purse O)

/-- From a budget, a function does what it does anyway and pays for it. -/
def Paid (f : S → O) (s : S) (cost g : ℕ) : Prop := f (P.fund g s) = Q.fund (g - cost) (f s)

def Fails (f : S → O) (s : S) (g : ℕ) : Prop := Q.broke (f (P.fund g s))

/-- A function with a cost on some state. It may go through on a budget that falls short
of the cost, or fail on one that just covers it, unless it is exact. -/
structure Metered (limit : ℕ) (f : S → O) (s : S) (cost : ℕ) (exact : Prop) : Prop where
  either : ∀ g < limit, P.Paid Q f s cost g ∨ P.Fails Q f s g
  paid : ∀ g < limit, cost < g → P.Paid Q f s cost g
  exact : exact → ∀ g < limit,
    (cost ≤ g → P.Paid Q f s cost g) ∧ (g < cost → P.Fails Q f s g)

variable {P : Purse S} {Q : Purse O} {T : Purse O'} {limit cost : ℕ} {f : S → O} {s : S}
  {exact : Prop}

theorem Metered.free (h : ∀ g < limit, P.Paid Q f s 0 g) : P.Metered Q limit f s 0 exact where
  either g hg := .inl (h g hg)
  paid g hg _ := h g hg
  exact _ g hg := ⟨fun _ ↦ h g hg, fun hlt ↦ absurd hlt (Nat.not_lt_zero g)⟩

theorem Metered.congr {h : S → O} {exact' : Prop} (hm : P.Metered Q limit f s cost exact)
    (hself : h s = f s) (hfund : ∀ g, h (P.fund g s) = f (P.fund g s)) (he : exact' → exact) :
    P.Metered Q limit h s cost exact' := by
  have hpaid : ∀ g, P.Paid Q f s cost g → P.Paid Q h s cost g := fun g hp ↦ by
    rw [Paid, hfund, hself]
    exact hp
  have hfails : ∀ g, P.Fails Q f s g → P.Fails Q h s g := fun g hp ↦ by rwa [Fails, hfund]
  exact
    { either := fun g hg ↦ (hm.either g hg).imp (hpaid g) (hfails g)
      paid := fun g hg hlt ↦ hpaid g (hm.paid g hg hlt)
      exact := fun he' g hg ↦ ⟨fun hle ↦ hpaid g ((hm.exact (he he') g hg).1 hle),
        fun hlt ↦ hfails g ((hm.exact (he he') g hg).2 hlt)⟩ }

theorem Metered.map {φ : O → O'} (hm : P.Metered Q limit f s cost exact)
    (hfund : ∀ g o, φ (Q.fund g o) = T.fund g (φ o)) (hbroke : ∀ o, Q.broke o → T.broke (φ o)) :
    P.Metered T limit (φ ∘ f) s cost exact := by
  have hpaid : ∀ g, P.Paid Q f s cost g → P.Paid T (φ ∘ f) s cost g := fun g h ↦
    (congrArg φ h).trans (hfund _ _)
  exact
    { either := fun g hg ↦ (hm.either g hg).imp (hpaid g) (hbroke _)
      paid := fun g hg hlt ↦ hpaid g (hm.paid g hg hlt)
      exact := fun he g hg ↦ ⟨fun hle ↦ hpaid g ((hm.exact he g hg).1 hle),
        fun hlt ↦ hbroke _ ((hm.exact he g hg).2 hlt)⟩ }

theorem Metered.charge {h : S → O} {t : S} {price : ℕ} (hm : P.Metered Q limit f t cost exact)
    (hself : h s = f t)
    (hpay : ∀ g < limit, price ≤ g → h (P.fund g s) = f (P.fund (g - price) t))
    (hfail : ∀ g < limit, g < price → P.Fails Q h s g) :
    P.Metered Q limit h s (price + cost) exact := by
  have hpaid : ∀ g < limit, price ≤ g → P.Paid Q f t cost (g - price) →
      P.Paid Q h s (price + cost) g := fun g hg hle hp ↦ by
    rw [Paid, hpay g hg hle, hp, hself, Nat.sub_sub]
  have hfails : ∀ g < limit, price ≤ g → P.Fails Q f t (g - price) → P.Fails Q h s g :=
    fun g hg hle hp ↦ by rwa [Fails, hpay g hg hle]
  have hsub : ∀ g < limit, g - price < limit := fun g hg ↦ lt_of_le_of_lt (Nat.sub_le ..) hg
  constructor
  · intro g hg
    by_cases hle : price ≤ g
    · exact (hm.either _ (hsub g hg)).imp (hpaid g hg hle) (hfails g hg hle)
    · exact .inr (hfail g hg (by omega))
  · intro g hg hlt
    exact hpaid g hg (by omega) (hm.paid _ (hsub g hg) (by omega))
  · intro he g hg
    refine ⟨fun hle ↦ ?_, fun hlt ↦ ?_⟩
    · exact hpaid g hg (by omega) ((hm.exact he _ (hsub g hg)).1 (by omega))
    · by_cases hle : price ≤ g
      · exact hfails g hg hle ((hm.exact he _ (hsub g hg)).2 (by omega))
      · exact hfail g hg (by omega)

theorem Metered.owe {h : S → O} {t : S} {price : ℕ} {exact' : Prop}
    (hm : P.Metered Q limit f t cost exact) (hself : h s = f t)
    (hpay : ∀ g < limit, 0 < g → h (P.fund g s) = f (P.fund (g - price) t))
    (hfail : P.Fails Q h s 0) (he : exact' → price = 1 ∧ exact) :
    P.Metered Q limit h s (price + cost) exact' := by
  have hpaid : ∀ g < limit, 0 < g → P.Paid Q f t cost (g - price) →
      P.Paid Q h s (price + cost) g := fun g hg hlt hp ↦ by
    rw [Paid, hpay g hg hlt, hp, hself, Nat.sub_sub]
  have hfails : ∀ g < limit, 0 < g → P.Fails Q f t (g - price) → P.Fails Q h s g :=
    fun g hg hlt hp ↦ by rwa [Fails, hpay g hg hlt]
  have hsub : ∀ g < limit, g - price < limit := fun g hg ↦ lt_of_le_of_lt (Nat.sub_le ..) hg
  constructor
  · intro g hg
    obtain rfl | hlt := Nat.eq_zero_or_pos g
    · exact .inr hfail
    · exact (hm.either _ (hsub g hg)).imp (hpaid g hg hlt) (hfails g hg hlt)
  · intro g hg hlt
    exact hpaid g hg (by omega) (hm.paid _ (hsub g hg) (by omega))
  · intro he' g hg
    obtain ⟨hone, he⟩ := he he'
    refine ⟨fun hle ↦ ?_, fun hlt ↦ ?_⟩
    · exact hpaid g hg (by omega) ((hm.exact he _ (hsub g hg)).1 (by omega))
    · obtain rfl | hpos := Nat.eq_zero_or_pos g
      · exact hfail
      · exact hfails g hg hpos ((hm.exact he _ (hsub g hg)).2 (by omega))

section Ledger

variable {Q : Purse R} {f : S → S ⊕ R} {s s' : S} {r : R} {g total : ℕ}

theorem Paid.inl (hp : P.Paid (P.sum Q) f s cost g) (hs : f s = .inl s') :
    f (P.fund g s) = .inl (P.fund (g - cost) s') := by
  rw [hp, hs]
  rfl

theorem Paid.inr (hp : P.Paid (P.sum Q) f s cost g) (hs : f s = .inr r) :
    f (P.fund g s) = .inr (Q.fund (g - cost) r) := by
  rw [hp, hs]
  rfl

theorem Fails.finishes (hP : ∀ s, ¬P.broke s) (h : P.Fails (P.sum Q) f s g) :
    ∃ r', Finishes f (P.fund g s) r' ∧ Q.broke r' := by
  rw [Fails] at h
  cases hs : f (P.fund g s) with
  | inl t => rw [hs] at h; exact absurd h (hP t)
  | inr r' => rw [hs] at h; exact ⟨r', .single hs, h⟩

variable (P Q limit) in
/-- A run whose steps are metered, with its total cost. A step that is not exact is
followed by others that cost something. -/
inductive Ledger (f : S → S ⊕ R) : S → ℕ → R → Prop
  | last (s : S) (r : R) (cost : ℕ) (exact : Prop) (hs : f s = .inr r)
      (hm : P.Metered (P.sum Q) limit f s cost exact) (he : exact) : Ledger f s cost r
  | next (s s' : S) (r : R) (cost rest : ℕ) (exact : Prop) (hs : f s = .inl s')
      (hm : P.Metered (P.sum Q) limit f s cost exact) (he : exact ∨ 0 < rest)
      (h : Ledger f s' rest r) : Ledger f s (cost + rest) r

/-- Such a run needs its cost exactly. -/
theorem Ledger.spends (hP : ∀ s, ¬P.broke s) (hl : P.Ledger limit Q f s total r)
    (hg : g < limit) :
    (total ≤ g → Finishes f (P.fund g s) (Q.fund (g - total) r)) ∧
      (g < total → ∃ r', Finishes f (P.fund g s) r' ∧ Q.broke r') := by
  induction hl generalizing g with
  | last s r cost exact hs hm he =>
    obtain ⟨hpaid, hfails⟩ := hm.exact he g hg
    exact ⟨fun hle ↦ .single ((hpaid hle).inr hs), fun hlt ↦ (hfails hlt).finishes hP⟩
  | next s s' r cost rest exact hs hm he _ ih =>
    obtain ⟨hle, hlt⟩ := ih (lt_of_le_of_lt (Nat.sub_le g cost) hg)
    constructor
    · intro htotal
      have hpaid : P.Paid (P.sum Q) f s cost g := by
        obtain he | hrest := he
        · exact (hm.exact he g hg).1 (by omega)
        · exact hm.paid g hg (by omega)
      rw [← Nat.sub_sub]
      exact .of_reaches (.single (hpaid.inl hs)) (hle (by omega))
    · intro htotal
      obtain hpaid | hfails := hm.either g hg
      · by_cases hcost : g < cost ∧ rest = 0
        · exact ((hm.exact (he.resolve_right (by omega)) g hg).2 hcost.1).finishes hP
        · obtain ⟨r', hr, hb⟩ := hlt (by omega)
          exact ⟨r', .of_reaches (.single (hpaid.inl hs)) hr, hb⟩
      · exact hfails.finishes hP

end Ledger

end Purse

end Qx86.Foundation
