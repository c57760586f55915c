import Mathlib.Logic.Relation

/-!
# While loops over a state

A hand-written scanner is a `while` over its state. `run` is that loop with an
explicit bound on the rounds, `Visits` the states it passes through, and the
lemmas below are the three rules such a loop is reasoned with:

* `Visits.inv` — an invariant of the body holds in every visited state;
* `run_done` — a decreasing measure makes the bound irrelevant;
* `run_eq_of_visits` — the loop ends in the same state from every state it visits.
-/

namespace WhileLoop

variable {σ : Type*} {cond : σ → Bool} {step : σ → σ} {s t : σ}

/-- `while cond(s) { s = step(s) }`, cut after `fuel` rounds. -/
@[grind =] def run (cond : σ → Bool) (step : σ → σ) : Nat → σ → σ
  | 0, s => s
  | fuel + 1, s => if cond s then run cond step fuel (step s) else s

/-- One round of the loop. -/
def Round (cond : σ → Bool) (step : σ → σ) (s t : σ) : Prop :=
  cond s = true ∧ t = step s

/-- `t` is a state the loop passes through when started in `s`. -/
abbrev Visits (cond : σ → Bool) (step : σ → σ) : σ → σ → Prop :=
  Relation.ReflTransGen (Round cond step)

theorem Visits.single (h : cond s = true) : Visits cond step s (step s) :=
  Relation.ReflTransGen.single ⟨h, rfl⟩

/-- **Invariant rule.** What one round preserves holds in every visited state. -/
theorem Visits.inv {I : σ → Prop} (hstep : ∀ s, cond s = true → I s → I (step s))
    (h : Visits cond step s t) (hs : I s) : I t := by
  induction h with
  | refl => exact hs
  | tail _ hr ih =>
    obtain ⟨hc, rfl⟩ := hr
    exact hstep _ hc ih

/-- Of two visited states one is visited from the other: the loop is
deterministic. -/
theorem Visits.total {u : σ} (ht : Visits cond step s t) (hu : Visits cond step s u) :
    Visits cond step t u ∨ Visits cond step u t := by
  refine Relation.ReflTransGen.total_of_right_unique ?_ ht hu
  rintro a b c ⟨-, rfl⟩ ⟨-, rfl⟩
  rfl

theorem run_of_done (fuel : Nat) (h : cond s = false) : run cond step fuel s = s := by
  cases fuel with
  | zero => rfl
  | succ fuel => simp [run, h]

theorem run_succ (fuel : Nat) (h : cond s = true) :
    run cond step (fuel + 1) s = run cond step fuel (step s) := by
  simp [run, h]

theorem visits_run (fuel : Nat) (s : σ) : Visits cond step s (run cond step fuel s) := by
  induction fuel generalizing s with
  | zero => exact Relation.ReflTransGen.refl
  | succ fuel ih =>
    cases h : cond s with
    | false => rw [run_of_done _ h]
    | true =>
      rw [run_succ fuel h]
      exact (Visits.single h).trans (ih (step s))

section Measure

variable {μ : σ → Nat} (hμ : ∀ s, cond s = true → μ (step s) < μ s)

include hμ

/-- With as much fuel as the measure, the loop runs to its end. -/
theorem run_done {fuel : Nat} (h : μ s ≤ fuel) : cond (run cond step fuel s) = false := by
  induction fuel generalizing s with
  | zero =>
    cases hc : cond s with
    | false => simpa [run] using hc
    | true =>
      have := hμ s hc
      omega
  | succ fuel ih =>
    cases hc : cond s with
    | false => rw [run_of_done _ hc, hc]
    | true =>
      rw [run_succ fuel hc]
      have := hμ s hc
      exact ih (by omega)

/-- The loop ends in the same state from every state it visits. -/
theorem run_eq_of_visits (h : Visits cond step s t) {fuel fuel' : Nat}
    (hs : μ s ≤ fuel) (ht : μ t ≤ fuel') : run cond step fuel s = run cond step fuel' t := by
  induction h using Relation.ReflTransGen.head_induction_on generalizing fuel with
  | refl =>
    induction fuel generalizing t fuel' with
    | zero =>
      cases hc : cond t with
      | false => rw [run_of_done _ hc, run_of_done _ hc]
      | true =>
        have := hμ t hc
        omega
    | succ fuel ih =>
      cases hc : cond t with
      | false => rw [run_of_done _ hc, run_of_done _ hc]
      | true =>
        have hlt := hμ t hc
        obtain ⟨k, rfl⟩ : ∃ k, fuel' = k + 1 := ⟨fuel' - 1, by omega⟩
        rw [run_succ _ hc, run_succ _ hc]
        exact ih (by omega) (by omega)
  | head hr _ ih =>
    obtain ⟨hc, rfl⟩ := hr
    have hlt := hμ _ hc
    obtain ⟨k, rfl⟩ : ∃ k, fuel = k + 1 := ⟨fuel - 1, by omega⟩
    rw [run_succ _ hc]
    exact ih (by omega)

end Measure

/-- **Simulation rule.** Two loops whose bodies agree through `f` visit matching
states. -/
theorem Visits.map {τ : Type*} {cond' : τ → Bool} {step' : τ → τ} {I : σ → Prop} (f : σ → τ)
    (hI : ∀ s, cond s = true → I s → I (step s))
    (hf : ∀ s, cond s = true → I s → cond' (f s) = true ∧ step' (f s) = f (step s))
    (h : Visits cond step s t) (hs : I s) : Visits cond' step' (f s) (f t) := by
  induction h with
  | refl => exact Relation.ReflTransGen.refl
  | @tail b c hb hr ih =>
    obtain ⟨hc, rfl⟩ := hr
    have hIb : I b := Visits.inv hI hb hs
    obtain ⟨hc', hs'⟩ := hf b hc hIb
    exact ih.tail ⟨hc', hs'.symm⟩

end WhileLoop
