import Mathlib.Data.List.Sort

/-!
# Sorted by keys, listed depth first

A stable sort orders two things by their keys first and by their places in the list second. Things of
a tree, each with the path that leads to it, are listed depth first if between two of a subtree there
is nothing of another.

* `before_sortBy` — what stands in front of what in a sorted list.
-/

namespace KeyOrder

variable {α β κ : Type*} {l : List α} {a b : α}

/-- `a` stands in front of `b` in the list. -/
def Before (l : List α) (a b : α) : Prop := [a, b].Sublist l

theorem Before.mem (h : Before l a b) : a ∈ l ∧ b ∈ l :=
  ⟨h.subset List.mem_cons_self, h.subset (List.mem_cons_of_mem _ List.mem_cons_self)⟩

theorem before_cons {c : α} : Before (c :: l) a b ↔ Before l a b ∨ a = c ∧ b ∈ l := by
  constructor
  · intro h
    cases h with
    | cons _ h => exact Or.inl h
    | cons_cons _ h => exact Or.inr ⟨rfl, List.singleton_sublist.mp h⟩
  · rintro (h | ⟨rfl, hb⟩)
    · exact List.Sublist.cons _ h
    · exact List.Sublist.cons_cons _ (List.singleton_sublist.mpr hb)

theorem before_total (ha : a ∈ l) (hb : b ∈ l) (hne : a ≠ b) : Before l a b ∨ Before l b a := by
  induction l with
  | nil => cases ha
  | cons c l ih =>
    rw [before_cons, before_cons]
    rcases List.mem_cons.mp ha with rfl | hin
    · exact Or.inl (Or.inr ⟨rfl, (List.mem_cons.mp hb).resolve_left (Ne.symm hne)⟩)
    · rcases List.mem_cons.mp hb with rfl | hin'
      · exact Or.inr (Or.inr ⟨rfl, hin⟩)
      · exact (ih hin hin').imp Or.inl Or.inl

theorem Before.asymm (hl : l.Nodup) (h : Before l a b) : ¬ Before l b a := by
  induction l with
  | nil => cases h
  | cons c l ih =>
    obtain ⟨hc, hl⟩ := List.nodup_cons.mp hl
    intro h'
    rcases before_cons.mp h with hin | ⟨rfl, hb⟩
    · rcases before_cons.mp h' with hin' | ⟨rfl, -⟩
      · exact ih hl hin hin'
      · exact hc hin.mem.2
    · rcases before_cons.mp h' with hin' | ⟨rfl, -⟩
      · exact hc hin'.mem.2
      · exact hc hb

theorem Before.ne (hl : l.Nodup) (h : Before l a b) : a ≠ b := by
  rintro rfl
  exact h.asymm hl h

theorem before_filter {p : α → Bool} (ha : p a = true) (hb : p b = true) :
    Before (l.filter p) a b ↔ Before l a b := by
  refine ⟨fun h => h.trans List.filter_sublist, fun h => ?_⟩
  have hkeep := h.filter p
  rwa [List.filter_cons_of_pos ha, List.filter_cons_of_pos hb, List.filter_nil] at hkeep

/-- Between two things of a subtree there is nothing of another. -/
def DepthFirst (path : α → List β) (l : List α) : Prop :=
  ∀ a b c, Before l a b → Before l b c → ∀ p, p <+: path a → p <+: path c → p <+: path b

variable [LinearOrder κ] {key : α → κ}

/-- A stable sort by keys. -/
def sortBy (key : α → κ) (l : List α) : List α := l.insertionSort fun a b => key a ≤ key b

theorem sortBy_perm (key : α → κ) (l : List α) : (sortBy key l).Perm l := List.perm_insertionSort _ l

theorem mem_sortBy : a ∈ sortBy key l ↔ a ∈ l := (sortBy_perm key l).mem_iff

theorem Before.key_le (h : Before (sortBy key l) a b) : key a ≤ key b := by
  have htotal : Std.Total fun a b : α => key a ≤ key b := ⟨fun _ _ => le_total _ _⟩
  have htrans : IsTrans α fun a b : α => key a ≤ key b := ⟨fun _ _ _ => le_trans⟩
  have hsorted := List.pairwise_insertionSort (fun a b : α => key a ≤ key b) l
  have hpair := List.pairwise_pair.mp (hsorted.sublist h)
  exact hpair

/-- **What stands in front of what**: by the keys, and by the places where these are equal. -/
theorem before_sortBy (hl : l.Nodup) :
    Before (sortBy key l) a b ↔ (a ∈ l ∧ b ∈ l) ∧ (key a < key b ∨ key a = key b ∧ Before l a b) := by
  have hsorted := (sortBy_perm key l).nodup_iff.mpr hl
  have hstable : ∀ {a b : α}, key a ≤ key b → Before l a b → Before (sortBy key l) a b :=
    fun hle h => List.pair_sublist_insertionSort hle h
  constructor
  · intro h
    obtain ⟨ha, hb⟩ := h.mem
    rw [mem_sortBy] at ha hb
    refine ⟨⟨ha, hb⟩, ?_⟩
    rcases lt_or_eq_of_le h.key_le with hlt | heq
    · exact Or.inl hlt
    · refine Or.inr ⟨heq, (before_total ha hb (h.ne hsorted)).resolve_right fun hback => ?_⟩
      exact h.asymm hsorted (hstable (le_of_eq heq.symm) hback)
  · rintro ⟨⟨ha, hb⟩, hlt | ⟨heq, h⟩⟩
    · have hne : a ≠ b := by
        rintro rfl
        exact lt_irrefl _ hlt
      refine (before_total (mem_sortBy.mpr ha) (mem_sortBy.mpr hb) hne).resolve_right fun hback => ?_
      exact not_lt_of_ge hback.key_le hlt
    · exact hstable (le_of_eq heq) h

end KeyOrder
