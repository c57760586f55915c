import Mathlib.Data.List.Forall2

/-!
# LIKE patterns

A pattern of `LIKE`: one symbol stands for any text, one for any character, and one takes the symbol
behind it as itself. Two symbols that the collation holds for the same match each other.

* `like_contains` — the escaped term between two wildcards matches what contains the term.
-/

namespace LikePattern

/-- The three symbols of a pattern. -/
structure Symbols (α : Type*) where
  any : α
  one : α
  escape : α
  any_one : any ≠ one
  any_escape : any ≠ escape
  one_escape : one ≠ escape

variable {α : Type*} (S : Symbols α) (same : α → α → Prop) (character : List α → Prop)

/-- The text matches the pattern. -/
inductive Like : List α → List α → Prop
  | nil : Like [] []
  | any (u : List α) {p t : List α} : Like p t → Like (S.any :: p) (u ++ t)
  | one {u p t : List α} : character u → Like p t → Like (S.one :: p) (u ++ t)
  | escaped {c a : α} {p t : List α} : same c a → Like p t → Like (S.escape :: c :: p) (a :: t)
  | plain {c a : α} {p t : List α} : c ≠ S.any → c ≠ S.one → c ≠ S.escape → same c a → Like p t →
      Like (c :: p) (a :: t)

/-- A symbol of the pattern's language is taken as itself behind an escape. -/
def escaped [DecidableEq α] (term : List α) : List α :=
  term.flatMap fun c => if c = S.escape ∨ c = S.any ∨ c = S.one then [S.escape, c] else [c]

variable {S same character}

theorem like_any {p t : List α} :
    Like S same character (S.any :: p) t ↔ ∃ u v, t = u ++ v ∧ Like S same character p v := by
  constructor
  · intro h
    generalize hq : S.any :: p = q at h
    cases h with
    | nil => cases hq
    | any u h =>
      obtain ⟨-, rfl⟩ := List.cons.inj hq
      exact ⟨u, _, rfl, h⟩
    | one hc h => exact absurd (List.cons.inj hq).1 S.any_one
    | escaped hs h => exact absurd (List.cons.inj hq).1 S.any_escape
    | plain hany _ _ _ _ => exact absurd (List.cons.inj hq).1.symm hany
  · rintro ⟨u, v, rfl, h⟩
    exact Like.any u h

/-- One symbol of the term, escaped where it has to be. -/
theorem like_escaped_cons [DecidableEq α] {c : α} {p t : List α} :
    Like S same character ((if c = S.escape ∨ c = S.any ∨ c = S.one then [S.escape, c] else [c]) ++ p) t ↔
      ∃ a t', t = a :: t' ∧ same c a ∧ Like S same character p t' := by
  split
  · constructor
    · intro h
      generalize hq : [S.escape, c] ++ p = q at h
      cases h with
      | nil => cases hq
      | any u h => exact absurd (List.cons.inj hq).1.symm S.any_escape
      | one hc h => exact absurd (List.cons.inj hq).1.symm S.one_escape
      | escaped hs h =>
        obtain ⟨rfl, rfl⟩ := List.cons.inj (List.cons.inj hq).2
        exact ⟨_, _, rfl, hs, h⟩
      | plain _ _ hesc _ _ => exact absurd (List.cons.inj hq).1.symm hesc
    · rintro ⟨a, t', rfl, hs, h⟩
      exact Like.escaped hs h
  · rename_i hplain
    have hplain : c ≠ S.escape ∧ c ≠ S.any ∧ c ≠ S.one := by simpa using hplain
    constructor
    · intro h
      generalize hq : [c] ++ p = q at h
      cases h with
      | nil => cases hq
      | any u h => exact absurd (List.cons.inj hq).1 hplain.2.1
      | one hc h => exact absurd (List.cons.inj hq).1 hplain.2.2
      | escaped hs h => exact absurd (List.cons.inj hq).1 hplain.1
      | plain _ _ _ hs h =>
        obtain ⟨rfl, rfl⟩ := List.cons.inj hq
        exact ⟨_, _, rfl, hs, h⟩
    · rintro ⟨a, t', rfl, hs, h⟩
      exact Like.plain hplain.2.1 hplain.2.2 hplain.1 hs h

theorem like_escaped [DecidableEq α] {term p t : List α} :
    Like S same character (escaped S term ++ p) t ↔
      ∃ w v, t = w ++ v ∧ List.Forall₂ same term w ∧ Like S same character p v := by
  induction term generalizing t with
  | nil =>
    refine ⟨fun h => ⟨[], t, rfl, List.Forall₂.nil, h⟩, ?_⟩
    rintro ⟨w, v, rfl, hw, h⟩
    cases hw
    exact h
  | cons c term ih =>
    unfold escaped at ih ⊢
    rw [List.flatMap_cons, List.append_assoc, like_escaped_cons]
    constructor
    · rintro ⟨a, t', rfl, hs, h⟩
      obtain ⟨w, v, rfl, hw, hv⟩ := ih.mp h
      exact ⟨a :: w, v, rfl, List.Forall₂.cons hs hw, hv⟩
    · rintro ⟨w, v, rfl, hw, hv⟩
      obtain ⟨a, w', hs, hw', rfl⟩ := List.forall₂_cons_left_iff.mp hw
      exact ⟨a, w' ++ v, rfl, hs, ih.mpr ⟨w', v, rfl, hw', hv⟩⟩

/-- **A contains pattern** matches exactly the texts with the term in them. -/
theorem like_contains [DecidableEq α] {term t : List α} :
    Like S same character (S.any :: escaped S term ++ [S.any]) t ↔
      ∃ u w v, t = u ++ w ++ v ∧ List.Forall₂ same term w := by
  rw [List.cons_append, like_any]
  constructor
  · rintro ⟨u, t', rfl, h⟩
    obtain ⟨w, v, rfl, hw, -⟩ := like_escaped.mp h
    exact ⟨u, w, v, (List.append_assoc _ _ _).symm, hw⟩
  · rintro ⟨u, w, v, rfl, hw⟩
    have htail : Like S same character [S.any] v := like_any.mpr ⟨v, [], (List.append_nil v).symm, Like.nil⟩
    exact ⟨u, w ++ v, List.append_assoc _ _ _, like_escaped.mpr ⟨w, v, rfl, hw, htail⟩⟩

end LikePattern
