import Mathlib.Tactic.Common

namespace Qx86.Foundation

variable {α : Type}

/-- A store that maps every position to what is there, if anything is. -/
abbrev Store (α : Type) := ℕ → Option α

def patch (f : Store α) (a : ℕ) (ds : List α) : Store α := fun x ↦
  if a ≤ x ∧ x < a + ds.length then ds[x - a]? else f x

def view (f : Store α) (a n : ℕ) : List (Option α) := (List.range n).map fun i ↦ f (a + i)

section Patch

variable {f : Store α} {a x : ℕ} {ds : List α}

theorem patch_inside (hl : a ≤ x) (hr : x < a + ds.length) : patch f a ds x = ds[x - a]? :=
  if_pos ⟨hl, hr⟩

theorem patch_outside (h : x < a ∨ a + ds.length ≤ x) : patch f a ds x = f x :=
  if_neg fun hc ↦ by omega

@[simp] theorem view_length (n : ℕ) : (view f a n).length = n := by
  rw [view, List.length_map, List.length_range]

theorem view_getElem? {i n : ℕ} (h : i < n) : (view f a n)[i]? = some (f (a + i)) := by
  rw [view, List.getElem?_map, List.getElem?_range h, Option.map_some]

theorem view_eq_iff {n : ℕ} {l : List (Option α)} (hl : l.length = n) :
    view f a n = l ↔ ∀ i, i < n → l[i]? = some (f (a + i)) := by
  constructor
  · rintro rfl i h
    exact view_getElem? h
  · intro h
    apply List.ext_getElem?
    intro i
    by_cases hi : i < n
    · rw [view_getElem? hi, h i hi]
    · rw [List.getElem?_eq_none (by rw [view_length]; omega),
        List.getElem?_eq_none (by omega)]

theorem view_congr {g : Store α} {b n : ℕ} (h : ∀ i, i < n → f (a + i) = g (b + i)) :
    view f a n = view g b n := by
  apply List.map_congr_left
  intro i hi
  exact h i (List.mem_range.mp hi)

end Patch

section Overlay

/-- A store with the entries of another at some offsets from a position. -/
def overlay (f g : Store α) (a lo hi : ℕ) : Store α := fun x ↦
  if a + lo ≤ x ∧ x < a + hi then g (x - a) else f x

variable {f g : Store α} {a lo hi x : ℕ}

theorem overlay_inside (hl : a + lo ≤ x) (hr : x < a + hi) : overlay f g a lo hi x = g (x - a) :=
  if_pos ⟨hl, hr⟩

theorem overlay_outside (h : x < a + lo ∨ a + hi ≤ x) : overlay f g a lo hi x = f x :=
  if_neg fun hc ↦ by omega

theorem overlay_empty (h : hi ≤ lo) : overlay f g a lo hi = f :=
  funext fun x ↦ overlay_outside (by omega)

theorem patch_overlay {lo' hi' t : ℕ} {ds : List α} (hd : view g t ds.length = ds.map some)
    (join : ∀ i, lo' ≤ i ∧ i < hi' ↔ (lo ≤ i ∧ i < hi) ∨ (t ≤ i ∧ i < t + ds.length)) :
    patch (overlay f g a lo hi) (a + t) ds = overlay f g a lo' hi' := by
  rw [view_eq_iff (List.length_map ..)] at hd
  funext x
  have hj := join (x - a)
  by_cases hin : a + t ≤ x ∧ x < a + t + ds.length
  · rw [patch_inside hin.1 hin.2, overlay_inside (by omega) (by omega)]
    have hi : x - (a + t) < ds.length := by omega
    have hx := hd _ hi
    rw [List.getElem?_map, List.getElem?_eq_getElem hi, Option.map_some, Option.some_inj] at hx
    rw [List.getElem?_eq_getElem hi, hx]
    congr 1
    omega
  · rw [patch_outside (by omega)]
    by_cases hold : a + lo ≤ x ∧ x < a + hi
    · rw [overlay_inside hold.1 hold.2, overlay_inside (by omega) (by omega)]
    · have hout : ¬(a + lo' ≤ x ∧ x < a + hi') := by omega
      rw [overlay_outside (by omega), overlay_outside (by omega)]

end Overlay

section History

/-- A position and what was put there. -/
abbrev Entry (α : Type) := ℕ × List α

def Entry.covers (e : Entry α) (x : ℕ) : Bool := decide (e.1 ≤ x ∧ x < e.1 + e.2.length)

/-- What was put last at a position, or what was there at first. The entries stand with
the latest first. -/
def lastEntry (f : Store α) (history : List (Entry α)) (x : ℕ) : Option α :=
  match history.find? (Entry.covers · x) with
  | some e => e.2[x - e.1]?
  | none => f x

theorem lastEntry_nil (f : Store α) : lastEntry f [] = f := rfl

/-- A store after some entries holds at every position the one put there last. -/
theorem lastEntry_cons (f : Store α) (e : Entry α) (history : List (Entry α)) :
    lastEntry f (e :: history) = patch (lastEntry f history) e.1 e.2 := by
  funext x
  by_cases h : e.1 ≤ x ∧ x < e.1 + e.2.length
  · rw [patch_inside h.1 h.2, lastEntry, List.find?_cons, show e.covers x = true from
      decide_eq_true h]
  · rw [patch_outside (by omega), lastEntry, List.find?_cons, show e.covers x = false from
      decide_eq_false h]
    rfl

theorem lastEntry_append (f : Store α) (later earlier : List (Entry α)) :
    lastEntry f (later ++ earlier) = lastEntry (lastEntry f earlier) later := by
  induction later with
  | nil => rfl
  | cons e later ih => rw [List.cons_append, lastEntry_cons, lastEntry_cons, ih]

end History

end Qx86.Foundation
