import Mathlib.Data.List.Nodup
import Mathlib.Logic.Relation
import Mathlib.Order.WellFoundedSet

/-!
# Putting items out behind their parents

Items are put out one by one. An item goes out when its parents are out; when no item that is left
can, the first of those left goes. `Released` holds of what such a run has put out so far.

* `Released.precedes_iff` — whether a parent is out before its child is decided by `Settles`, a
  statement about the items and their parents alone;
* `settles_of_acyclic` — without a cycle every parent settles.
-/

namespace Release

variable {κ : Type*} (items : List κ) (parent : κ → κ → Prop) {done out : List κ} {c k p x : κ}

/-- `x` is listed before `y`. -/
def Before (l : List κ) (x y : κ) : Prop := ∃ u v, l = u ++ y :: v ∧ x ∈ u

/-- The next item to go out. -/
inductive Emits (done : List κ) (k : κ) : Prop
  | ready (hmem : k ∈ items) (hnew : k ∉ done) (hparents : ∀ p, parent k p → p ∈ done)
  | stuck (hmem : k ∈ items) (hnew : k ∉ done) (hfirst : ∀ x, Before items x k → x ∈ done)
      (hstuck : ∀ x ∈ items, x ∉ done → ∃ p, parent x p ∧ p ∉ done)

inductive Released : List κ → Prop
  | nil : Released []
  | snoc {done : List κ} {k : κ} (h : Released done) (hk : Emits items parent done k) :
      Released (done ++ [k])

/-- An item is out before `c` without a cycle being cut for it: it is listed before `c`, or all its
parents are. -/
inductive Settles (c : κ) : κ → Prop
  | listed {x : κ} (h : Before items x c) : Settles c x
  | parents {x : κ} (hx : x ∈ items) (h : ∀ p, parent x p → Settles c p) : Settles c x

variable {items parent}

theorem Emits.mem (h : Emits items parent done k) : k ∈ items := by
  cases h with
  | ready hmem | stuck hmem => exact hmem

theorem Emits.fresh (h : Emits items parent done k) : k ∉ done := by
  cases h with
  | ready _ hnew | stuck _ hnew => exact hnew

theorem Released.nodup (h : Released items parent done) : done.Nodup := by
  induction h with
  | nil => exact List.nodup_nil
  | snoc _ hk ih => exact ih.append (List.nodup_singleton _) (List.disjoint_singleton.mpr hk.fresh)

theorem Released.subset (h : Released items parent done) : done ⊆ items := by
  induction h with
  | nil => exact List.nil_subset _
  | snoc _ hk ih =>
    intro x hx
    rcases List.mem_append.mp hx with hx | hx
    · exact ih hx
    · rw [List.mem_singleton.mp hx]
      exact hk.mem

/-- Of two items one is listed before the other. -/
theorem before_or {l : List κ} (hx : x ∈ l) (hk : k ∈ l) (hne : x ≠ k) : Before l x k ∨ Before l k x := by
  obtain ⟨u, v, rfl⟩ := List.append_of_mem hx
  rcases List.mem_append.mp hk with hk | hk
  · exact .inr ⟨u, v, rfl, hk⟩
  · obtain ⟨s, t, rfl⟩ := List.append_of_mem ((List.mem_cons.mp hk).resolve_left (Ne.symm hne))
    refine .inl ⟨u ++ x :: s, t, ?_, List.mem_append_right _ List.mem_cons_self⟩
    rw [List.append_assoc, List.cons_append]

/-- What is out while `c` is left settled before `c`. -/
theorem Released.settles (h : Released items parent done) (hc : c ∈ items) (hnew : c ∉ done)
    (hx : x ∈ done) : Settles items parent c x := by
  induction h generalizing x with
  | nil => exact absurd hx List.not_mem_nil
  | snoc _ hk ih =>
    rw [List.mem_append, List.mem_singleton, not_or] at hnew
    obtain ⟨hleft, hne⟩ := hnew
    rcases List.mem_append.mp hx with hx | hx
    · exact ih hleft hx
    rw [List.mem_singleton.mp hx]
    cases hk with
    | ready hmem _ hparents => exact .parents hmem fun p hp => ih hleft (hparents p hp)
    | stuck hmem _ hfirst =>
      rcases before_or hmem hc (Ne.symm hne) with hlisted | hlisted
      · exact .listed hlisted
      · exact absurd (hfirst _ hlisted) hleft

/-- What settled before `c` is out when `c` goes out. -/
theorem Emits.of_settles (h : Emits items parent done c) (hp : parent c p)
    (hs : Settles items parent c p) : p ∈ done := by
  cases h with
  | ready _ _ hparents => exact hparents p hp
  | stuck _ _ hfirst hstuck =>
    clear hp
    induction hs with
    | listed h => exact hfirst _ h
    | parents hx _ ih =>
      by_contra hleft
      obtain ⟨q, hq, hout⟩ := hstuck _ hx hleft
      exact hout (ih q hq)

/-- Each item went out at some point of the run. -/
theorem Released.split (h : Released items parent out) (hc : c ∈ out) :
    ∃ u v, out = u ++ c :: v ∧ Released items parent u ∧ Emits items parent u c := by
  induction h with
  | nil => exact absurd hc List.not_mem_nil
  | @snoc done k h hk ih =>
    rcases List.mem_append.mp hc with hc | hc
    · obtain ⟨u, v, rfl, hu, hemits⟩ := ih hc
      exact ⟨u, v ++ [k], by rw [List.append_assoc, List.cons_append], hu, hemits⟩
    · obtain rfl := List.mem_singleton.mp hc
      exact ⟨done, [], rfl, h, hk⟩

/-- **A parent is out before its child exactly when it settles before the child.** -/
theorem Released.precedes_iff (h : Released items parent out) (hc : c ∈ out) (hp : parent c p) :
    Before out p c ↔ Settles items parent c p := by
  obtain ⟨u, v, rfl, hu, hemits⟩ := h.split hc
  have hv : c ∉ v := (List.nodup_cons.mp (List.nodup_append.mp h.nodup).2.1).1
  constructor
  · rintro ⟨a, b, hab, ha⟩
    obtain ⟨rfl, -⟩ := (List.append_cons_inj_of_notMem hemits.fresh hv).mp hab
    exact hu.settles hemits.mem hemits.fresh ha
  · intro hs
    exact ⟨u, v, rfl, hemits.of_settles hp hs⟩

/-- Without a cycle every item settles. -/
theorem settles_of_acyclic (hparent : ∀ c p, parent c p → p ∈ items)
    (hacyclic : ∀ x, ¬ Relation.TransGen parent x x) (hx : x ∈ items) : Settles items parent c x := by
  have hfinite : {x | x ∈ items}.Finite := items.finite_toSet
  have hwf : {x | x ∈ items}.WellFoundedOn fun p c => Relation.TransGen parent c p := by
    refine @Set.Finite.wellFoundedOn _ _ ?_ _ hfinite
    exact { irrefl := hacyclic, trans := fun _ _ _ hab hbc => hbc.trans hab }
  exact hwf.induction hx fun x hx ih => .parents hx fun p hp => ih p (hparent x p hp) (.single hp)

end Release
