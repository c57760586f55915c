import Mathlib.Data.List.Basic

/-!
# Runs of a state machine

A machine is a step function that refuses an action its state does not admit.
`run` takes a list of actions, and `Meets` says of a run that each of its steps
meets a condition on the state before it and the action.

* `run_append` — a run may be cut anywhere;
* `run_invariant` — what every step that meets the condition keeps, such a run keeps;
* `always_of_inv` — so such a run stays where the invariant does;
* `always_iff` — and where the condition is what a step needs to keep it, the runs
  that keep it throughout are the ones that meet the condition;
* `meets_iff_of_inv` — conditions that agree where the invariant holds are met by the same runs.
-/

namespace Machine

variable {σ α : Type*} (step : σ → α → Option σ)

/-- The state after the actions, if each was admitted. -/
@[grind =] def run : σ → List α → Option σ
  | s, [] => some s
  | s, a :: rest => (step s a).bind fun t => run t rest

/-- Every step of the run meets `G`. -/
def Meets (G : σ → α → Prop) : σ → List α → Prop
  | _, [] => True
  | s, a :: rest => G s a ∧ ∀ t, step s a = some t → Meets G t rest

/-- Every state the run goes through satisfies `P`. -/
def Always (P : σ → Prop) : σ → List α → Prop
  | s, [] => P s
  | s, a :: rest => P s ∧ ∀ t, step s a = some t → Always P t rest

variable {step} {G : σ → α → Prop} {s t u : σ} {a : α} {acts rest : List α}

@[simp] theorem run_nil : run step s [] = some t ↔ s = t := Option.some_inj

theorem run_cons :
    run step s (a :: acts) = some t ↔ ∃ u, step s a = some u ∧ run step u acts = some t :=
  Option.bind_eq_some_iff

theorem run_append :
    run step s (acts ++ rest) = some t ↔ ∃ u, run step s acts = some u ∧ run step u rest = some t := by
  induction acts generalizing s with
  | nil => simp
  | cons a acts ih =>
    rw [List.cons_append, run_cons]
    simp only [ih, run_cons]
    constructor
    · rintro ⟨v, hv, w, hw, hrest⟩
      exact ⟨w, ⟨v, hv, hw⟩, hrest⟩
    · rintro ⟨w, ⟨v, hv, hw⟩, hrest⟩
      exact ⟨v, hv, w, hw, hrest⟩

theorem meets_cons (hs : step s a = some t) (hg : G s a) (hrest : Meets step G t acts) :
    Meets step G s (a :: acts) := by
  refine ⟨hg, fun u hu => ?_⟩
  obtain rfl : t = u := Option.some.inj (hs.symm.trans hu)
  exact hrest

theorem meets_of_forall (h : ∀ s a, G s a) : Meets step G s acts := by
  induction acts generalizing s with
  | nil => trivial
  | cons a acts ih => exact ⟨h s a, fun t _ => ih⟩

theorem meets_append : Meets step G s (acts ++ rest) ↔
      Meets step G s acts ∧ ∀ t, run step s acts = some t → Meets step G t rest := by
  induction acts generalizing s with
  | nil => simp [Meets, run]
  | cons a acts ih =>
    rw [List.cons_append, Meets, Meets, and_assoc]
    refine and_congr_right fun _ => ?_
    simp only [ih, run_cons]
    constructor
    · intro h
      refine ⟨fun t ht => (h t ht).1, ?_⟩
      rintro u ⟨t, ht, hu⟩
      exact (h t ht).2 u hu
    · rintro ⟨hfirst, hrest⟩ t ht
      exact ⟨hfirst t ht, fun u hu => hrest u ⟨t, ht, hu⟩⟩

/-- The invariant rule. -/
theorem run_invariant {I : σ → Prop} (hstep : ∀ s a t, I s → G s a → step s a = some t → I t)
    (hinit : I s) (hmeets : Meets step G s acts) (hrun : run step s acts = some t) : I t := by
  induction acts generalizing s with
  | nil =>
    rw [run_nil] at hrun
    rwa [← hrun]
  | cons a acts ih =>
    obtain ⟨u, hu, hrun⟩ := run_cons.mp hrun
    exact ih (hstep s a u hinit hmeets.1 hu) (hmeets.2 u hu) hrun

theorem always_run {P : σ → Prop} (h : Always step P s acts) (hrun : run step s acts = some t) :
    P t := by
  induction acts generalizing s with
  | nil =>
    rw [run_nil] at hrun
    rwa [← hrun]
  | cons a acts ih =>
    obtain ⟨u, hu, hrun⟩ := run_cons.mp hrun
    exact ih (h.2 u hu) hrun

/-- The safety rule: a run that meets the condition stays where the invariant does. -/
theorem always_of_inv {I P : σ → Prop} (hstep : ∀ s a t, I s → G s a → step s a = some t → I t)
    (hsafe : ∀ s, I s → P s) (hinit : I s) (hmeets : Meets step G s acts) :
    Always step P s acts := by
  induction acts generalizing s with
  | nil => exact hsafe s hinit
  | cons a acts ih =>
    refine ⟨hsafe s hinit, fun t ht => ?_⟩
    exact ih (hstep s a t hinit hmeets.1 ht) (hmeets.2 t ht)

/-- Two conditions on a step that agree in every state the invariant holds in. -/
theorem meets_iff_of_inv {I : σ → Prop} {H : σ → α → Prop}
    (hinv : ∀ s a t, I s → step s a = some t → I t)
    (hiff : ∀ s a, I s → (G s a ↔ H s a)) (hinit : I s) :
    Meets step G s acts ↔ Meets step H s acts := by
  induction acts generalizing s with
  | nil => exact Iff.rfl
  | cons a acts ih =>
    rw [Meets, Meets, hiff s a hinit]
    exact and_congr_right fun _ => forall₂_congr fun t ht => ih (hinv s a t hinit ht)

/-- The exactness rule, with an invariant that every step keeps. -/
theorem always_iff_of_inv {I P : σ → Prop} (hinv : ∀ s a t, I s → step s a = some t → I t)
    (hstep : ∀ s a t, I s → P s → step s a = some t → (P t ↔ G s a))
    (hidle : ∀ s a, step s a = none → G s a) (hinit : I s) (hP : P s) :
    Always step P s acts ↔ Meets step G s acts := by
  induction acts generalizing s with
  | nil => exact iff_of_true hP trivial
  | cons a acts ih =>
    rw [Always, Meets, and_iff_right hP]
    cases hs : step s a with
    | none => exact iff_of_true (fun _ ht => by cases ht) ⟨hidle s a hs, fun _ ht => by cases ht⟩
    | some t =>
      have hiff := hstep s a t hinit hP hs
      have hnext := hinv s a t hinit hs
      constructor
      · intro h
        have ht : P t := by
          cases acts with
          | nil => exact h t rfl
          | cons b acts => exact (h t rfl).1
        refine ⟨hiff.mp ht, ?_⟩
        rintro u ⟨⟩
        exact (ih hnext ht).mp (h t rfl)
      · rintro ⟨hg, h⟩ u ⟨⟩
        exact (ih hnext (hiff.mpr hg)).mpr (h t rfl)

/-- The exactness rule. -/
theorem always_iff {P : σ → Prop} (hstep : ∀ s a t, P s → step s a = some t → (P t ↔ G s a))
    (hidle : ∀ s a, step s a = none → G s a) (hinit : P s) :
    Always step P s acts ↔ Meets step G s acts :=
  always_iff_of_inv (fun _ _ _ _ _ => trivial) (fun s a t _ => hstep s a t) hidle trivial hinit

end Machine
