import Mathlib.Data.List.Basic

/-!
# Readers that are pulled

A reader yields an item, its end or an error, and is smaller after every item. Its `items`
are what it yields until it stops, and what stopped it.

* `items_cons`, `items_end`, `items_error` — one pull;
* `items_embed` — a reader inside another yields its items there.
-/

/-- A reader: what the next pull gives in each of its states, and a size that an item
shrinks. -/
structure PullReader (σ α ε : Type*) where
  next : σ → Except ε (Option α) × σ
  size : σ → Nat
  next_lt : ∀ {s a}, (next s).1 = .ok (some a) → size (next s).2 < size s

namespace PullReader

variable {σ τ α β ε : Type*} (R : PullReader σ α ε)

/-- Everything that is yielded from a state on, and the error that ends it, if one does. -/
@[grind =] def items (s : σ) : List α × Option ε :=
  match _h : (R.next s).1 with
  | .error e => ([], some e)
  | .ok none => ([], none)
  | .ok (some a) => (a :: (items (R.next s).2).1, (items (R.next s).2).2)
termination_by R.size s
decreasing_by all_goals exact R.next_lt _h

variable {R} {s : σ}

theorem items_error {e : ε} (h : (R.next s).1 = .error e) : R.items s = ([], some e) := by
  rw [items]
  split
  · next e' he => rw [Except.error.inj (he.symm.trans h)]
  · next he => cases he.symm.trans h
  · next a he => cases he.symm.trans h

theorem items_end (h : (R.next s).1 = .ok none) : R.items s = ([], none) := by
  rw [items]
  split
  · next e he => cases he.symm.trans h
  · rfl
  · next a he => cases he.symm.trans h

theorem items_cons {a : α} (h : (R.next s).1 = .ok (some a)) :
    R.items s = (a :: (R.items (R.next s).2).1, (R.items (R.next s).2).2) := by
  rw [items]
  split
  · next e he => cases he.symm.trans h
  · next he => cases he.symm.trans h
  · next b he =>
    have hab : b = a := Option.some.inj (Except.ok.inj (he.symm.trans h))
    rw [hab]

/-- A reader that pulls another one and passes on what it makes of each item yields what it
makes of all of them. -/
theorem items_embed {Q : PullReader τ β ε} (place : σ → τ) (f : α → β)
    (herror : ∀ s e, (R.next s).1 = .error e → (Q.next (place s)).1 = .error e)
    (hend : ∀ s, (R.next s).1 = .ok none → (Q.next (place s)).1 = .ok none)
    (hitem : ∀ s a, (R.next s).1 = .ok (some a) →
      Q.next (place s) = (.ok (some (f a)), place (R.next s).2)) (s : σ) :
    Q.items (place s) = ((R.items s).1.map f, (R.items s).2) := by
  induction s using items.induct R with
  | case1 s e h => rw [items_error h, items_error (herror s e h), List.map_nil]
  | case2 s h => rw [items_end h, items_end (hend s h), List.map_nil]
  | case3 s a h ih =>
    have hnext := hitem s a h
    rw [items_cons h, items_cons (congrArg Prod.fst hnext), hnext, ih, List.map_cons]

end PullReader
