import Mathlib.Data.List.Nodup

/-!
# Lists of named things

A list in which no two entries have the same name is a partial function of the name. `find`
looks an entry up, `sortBy` puts such a list in the order of the names.

* `find_eq_some_iff` — looking up a name finds the entry of that name;
* `sortBy_filterMap` — sorting what the names give is giving over the sorted names;
* `sortBy_eq_of_perm` — and the sorted names do not depend on the order they came in.
-/

namespace NamedLists

variable {α β κ : Type*}

theorem eq_of_name {name : α → κ} {l : List α} (h : (l.map name).Nodup) {a b : α} (ha : a ∈ l)
    (hb : b ∈ l) (hname : name a = name b) : a = b :=
  List.inj_on_of_nodup_map h ha hb hname

theorem map_filterMap_sublist {f : κ → Option α} {name : α → κ}
    (hname : ∀ n a, f n = some a → name a = n) (names : List κ) :
    ((names.filterMap f).map name).Sublist names := by
  induction names with
  | nil => exact List.Sublist.slnil
  | cons n names ih =>
    cases hf : f n with
    | none =>
      rw [List.filterMap_cons_none hf]
      exact ih.trans (List.sublist_cons_self n names)
    | some a =>
      rw [List.filterMap_cons_some hf, List.map_cons, hname n a hf]
      exact ih.cons_cons n

section Lookup

variable [DecidableEq κ]

/-- The first entry of the name. -/
def find (name : α → κ) (l : List α) (n : κ) : Option α := l.find? fun a => name a = n

variable {name : α → κ} {l : List α} {n : κ} {a : α}

theorem find_some (h : find name l n = some a) : a ∈ l ∧ name a = n :=
  ⟨List.mem_of_find?_eq_some h, by simpa using List.find?_some h⟩

theorem find_eq_none_iff : find name l n = none ↔ ∀ a ∈ l, name a ≠ n := by
  rw [find, List.find?_eq_none]
  simp only [decide_eq_true_eq, ne_eq]

theorem find_eq_some_iff (h : (l.map name).Nodup) :
    find name l n = some a ↔ a ∈ l ∧ name a = n := by
  refine ⟨find_some, fun ⟨ha, hname⟩ => ?_⟩
  cases hfind : find name l n with
  | none => exact absurd hname (find_eq_none_iff.mp hfind a ha)
  | some b =>
    obtain ⟨hb, hname'⟩ := find_some hfind
    rw [eq_of_name h hb ha (hname'.trans hname.symm)]

end Lookup

section Order

variable [LE κ] [DecidableLE κ]

/-- In the order of the names, and where two are the same, as they came. -/
def sortBy (name : α → κ) (l : List α) : List α :=
  l.mergeSort fun a b => decide (name a ≤ name b)

theorem sortBy_perm (name : α → κ) (l : List α) : (sortBy name l).Perm l := List.mergeSort_perm _ _

variable [Std.IsLinearOrder κ]

theorem pairwise_sortBy (name : α → κ) (l : List α) :
    (sortBy name l).Pairwise fun a b => name a ≤ name b := by
  have h : (sortBy name l).Pairwise fun a b => decide (name a ≤ name b) = true := by
    refine List.pairwise_mergeSort (fun a b c hab hbc => ?_) (fun a b => ?_) l
    · exact decide_eq_true (Std.le_trans (of_decide_eq_true hab) (of_decide_eq_true hbc))
    · rw [Bool.or_eq_true, decide_eq_true_eq, decide_eq_true_eq]
      exact Std.le_total
  exact h.imp fun h => of_decide_eq_true h

omit [DecidableLE κ] in
/-- Two lists of the same names in order are one. -/
theorem eq_of_sorted (name : α → κ) {l l' : List α} (hnodup : (l.map name).Nodup)
    (hl : l.Pairwise fun a b => name a ≤ name b) (hl' : l'.Pairwise fun a b => name a ≤ name b)
    (hperm : l.Perm l') : l = l' := by
  refine hperm.eq_of_pairwise (fun a b ha hb hab hba => ?_) hl hl'
  exact eq_of_name hnodup ha (hperm.mem_iff.mpr hb) (Std.le_antisymm hab hba)

theorem sortBy_eq_of_perm {l l' : List κ} (hnodup : l.Nodup) (hperm : l.Perm l') :
    sortBy id l = sortBy id l' := by
  refine eq_of_sorted id ?_ (pairwise_sortBy id l) (pairwise_sortBy id l')
    ((sortBy_perm id l).trans (hperm.trans (sortBy_perm id l').symm))
  rw [List.map_id]
  exact (sortBy_perm id l).nodup_iff.mpr hnodup

theorem sortBy_filterMap {f : κ → Option α} {name : α → κ}
    (hname : ∀ n a, f n = some a → name a = n) {names : List κ} (hnodup : names.Nodup) :
    sortBy name (names.filterMap f) = (sortBy id names).filterMap f := by
  have hsorted : ((sortBy id names).filterMap f).Pairwise fun a b => name a ≤ name b :=
    List.pairwise_map.mp ((pairwise_sortBy id names).sublist (map_filterMap_sublist hname _))
  refine eq_of_sorted name ?_ (pairwise_sortBy name _) hsorted
    ((sortBy_perm name _).trans ((sortBy_perm id names).symm.filterMap f))
  rw [((sortBy_perm name _).map name).nodup_iff]
  exact (map_filterMap_sublist hname names).nodup hnodup

end Order

end NamedLists
