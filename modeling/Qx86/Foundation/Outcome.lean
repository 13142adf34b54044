import Mathlib.Tactic.Common

namespace Qx86.Foundation

/-- How a computation of the host program ends: with a value, with an error
that the caller receives, or by unwinding the host. -/
inductive Outcome (ε α : Type) where
  | ok (value : α)
  | err (error : ε)
  | panic
  deriving DecidableEq

section Except

variable {ε α β : Type}

theorem map_eq_ok {x : Except ε α} {f : α → β} {b : β} :
    f <$> x = .ok b ↔ ∃ a, x = .ok a ∧ f a = b := by
  cases x <;> simp [Functor.map, Except.map]

theorem map_eq_error {x : Except ε α} {f : α → β} {e : ε} :
    f <$> x = .error e ↔ x = .error e := by
  cases x <;> simp [Functor.map, Except.map]

theorem except_bind_eq_ok {x : Except ε α} {f : α → Except ε β} {b : β} :
    x >>= f = .ok b ↔ ∃ a, x = .ok a ∧ f a = .ok b := by
  cases x <;> simp [bind, Except.bind]

theorem except_bind_eq_error {x : Except ε α} {f : α → Except ε β} {e : ε} :
    x >>= f = .error e ↔ x = .error e ∨ ∃ a, x = .ok a ∧ f a = .error e := by
  cases x <;> simp [bind, Except.bind]

end Except

namespace Outcome

variable {ε α β γ : Type}

protected def bind (x : Outcome ε α) (f : α → Outcome ε β) : Outcome ε β :=
  match x with
  | .ok a => f a
  | .err e => .err e
  | .panic => .panic

instance : Monad (Outcome ε) where
  pure := .ok
  bind := Outcome.bind

@[simp] theorem pure_def (a : α) : (pure a : Outcome ε α) = .ok a := rfl

@[simp] theorem ok_bind (a : α) (f : α → Outcome ε β) : (Outcome.ok a >>= f) = f a := rfl

@[simp] theorem err_bind (e : ε) (f : α → Outcome ε β) :
    (Outcome.err e >>= f) = .err e := rfl

@[simp] theorem panic_bind (f : α → Outcome ε β) :
    ((Outcome.panic : Outcome ε α) >>= f) = .panic := rfl

theorem bind_eq_ok {x : Outcome ε α} {f : α → Outcome ε β} {b : β} :
    (x >>= f) = .ok b ↔ ∃ a, x = .ok a ∧ f a = .ok b := by
  cases x <;> simp

theorem bind_eq_err {x : Outcome ε α} {f : α → Outcome ε β} {e : ε} :
    (x >>= f) = .err e ↔ x = .err e ∨ ∃ a, x = .ok a ∧ f a = .err e := by
  cases x <;> simp

theorem bind_eq_panic {x : Outcome ε α} {f : α → Outcome ε β} :
    (x >>= f) = .panic ↔ x = .panic ∨ ∃ a, x = .ok a ∧ f a = .panic := by
  cases x <;> simp

/-- A fallible read of the source, seen as an outcome that never unwinds. -/
def ofExcept : Except ε α → Outcome ε α
  | .ok a => .ok a
  | .error e => .err e

@[simp] theorem ofExcept_ok (a : α) : ofExcept (.ok a : Except ε α) = .ok a := rfl

@[simp] theorem ofExcept_error (e : ε) : ofExcept (.error e : Except ε α) = .err e := rfl

theorem ofExcept_ne_panic (x : Except ε α) : ofExcept x ≠ .panic := by
  cases x <;> simp

theorem ofExcept_eq_ok {x : Except ε α} {a : α} : ofExcept x = .ok a ↔ x = .ok a := by
  cases x <;> simp

theorem ofExcept_eq_err {x : Except ε α} {e : ε} : ofExcept x = .err e ↔ x = .error e := by
  cases x <;> simp

def any (p : α → Bool) : Outcome ε α → Bool
  | .ok a => p a
  | _ => false

theorem any_eq_true {x : Outcome ε α} {p : α → Bool} :
    x.any p = true ↔ ∃ a, x = .ok a ∧ p a = true := by
  cases x <;> simp [any]

def index (l : List α) (i : ℕ) : Outcome ε α :=
  match l[i]? with
  | some a => .ok a
  | none => .panic

def slice (l : List α) (i : ℕ) : Outcome ε (List α) :=
  if i ≤ l.length then .ok (l.drop i) else .panic

@[simp] theorem index_cons_zero (a : α) (l : List α) :
    (index (a :: l) 0 : Outcome ε α) = .ok a := rfl

@[simp] theorem index_nil (i : ℕ) : (index [] i : Outcome ε α) = .panic := rfl

theorem index_eq_ok {l : List α} {i : ℕ} {a : α} :
    (index l i : Outcome ε α) = .ok a ↔ l[i]? = some a := by
  unfold index
  cases l[i]? <;> simp

theorem slice_eq_ok {l l' : List α} {i : ℕ} :
    (slice l i : Outcome ε (List α)) = .ok l' ↔ i ≤ l.length ∧ l.drop i = l' := by
  unfold slice
  split
  · next h => simp [h]
  · next h => simp [h]

theorem slice_of_le {l : List α} {i : ℕ} (h : i ≤ l.length) :
    (slice l i : Outcome ε (List α)) = .ok (l.drop i) := if_pos h

end Outcome

end Qx86.Foundation
