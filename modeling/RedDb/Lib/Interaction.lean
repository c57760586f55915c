import Mathlib.Tactic.TypeStar

/-!
# Programs that talk to an environment

Driver code is a program that sends a command, waits for the reply and goes on
from it. `Prog` is the tree of these exchanges. What a program does is judged
against an environment, which says how a command may be served and which
commands may be sent at all:

* `wp` — every served run ends in the postcondition and sends only what is allowed;
* `wp_bind` — the rule of sequencing, `wp_andThen` that of an early return;
* `wp_mono` — the rule of consequence;
* `wp_reply` — what is left after one exchange, for runs that are interleaved.
-/

/-- A program that sends commands and ends with an answer. -/
inductive Prog (Cmd Reply : Type*) (α : Type*) where
  | pure (a : α)
  | call (c : Cmd) (k : Reply → Prog Cmd Reply α)

namespace Prog

variable {Cmd Reply α β ε σ : Type*}

@[grind =] def bind : Prog Cmd Reply α → (α → Prog Cmd Reply β) → Prog Cmd Reply β
  | pure a, f => f a
  | call c k, f => call c fun r => (k r).bind f

/-- The `?` operator: an error ends the program there. -/
def andThen (p : Prog Cmd Reply (Except ε α)) (f : α → Prog Cmd Reply (Except ε β)) :
    Prog Cmd Reply (Except ε β) :=
  p.bind fun
    | .ok a => f a
    | .error e => pure (.error e)

/-- How commands are served, and which may be sent in a state. -/
structure Env (Cmd Reply : Type*) (σ : Type*) where
  serve : σ → Cmd → Reply → σ → Prop
  allowed : σ → Cmd → Prop

/-- Every run from the state sends only allowed commands and ends in `Q`. -/
def wp (E : Env Cmd Reply σ) (Q : α → σ → Prop) : Prog Cmd Reply α → σ → Prop
  | pure a, s => Q a s
  | call c k, s => E.allowed s c ∧ ∀ r t, E.serve s c r t → wp E Q (k r) t

variable {E : Env Cmd Reply σ} {Q Q' : α → σ → Prop} {s t : σ}

@[simp] theorem wp_call (c : Cmd) (k : Reply → Prog Cmd Reply α) :
    wp E Q (call c k) s ↔ E.allowed s c ∧ ∀ r t, E.serve s c r t → wp E Q (k r) t := Iff.rfl

theorem wp_mono {p : Prog Cmd Reply α} (h : wp E Q p s) (hQ : ∀ a t, Q a t → Q' a t) :
    wp E Q' p s := by
  induction p generalizing s with
  | pure a => exact hQ a s h
  | call c k ih =>
    obtain ⟨hallowed, hk⟩ := h
    exact ⟨hallowed, fun r t hr => ih r (hk r t hr)⟩

theorem wp_bind {R : β → σ → Prop} {p : Prog Cmd Reply α} {f : α → Prog Cmd Reply β} :
    wp E R (p.bind f) s ↔ wp E (fun a t => wp E R (f a) t) p s := by
  induction p generalizing s with
  | pure a => exact Iff.rfl
  | call c k ih =>
    rw [bind, wp_call, wp_call]
    refine and_congr_right fun _ => ?_
    exact forall_congr' fun r => forall_congr' fun t => imp_congr_right fun _ => ih r

/-- Both ends of the `?`: the error is the answer, or the program goes on. -/
theorem wp_andThen {R : Except ε β → σ → Prop} {p : Prog Cmd Reply (Except ε α)}
    {f : α → Prog Cmd Reply (Except ε β)}
    (h : wp E (fun a t => match a with
      | .ok a => wp E R (f a) t
      | .error e => R (.error e) t) p s) :
    wp E R (p.andThen f) s := by
  refine wp_bind.mpr (wp_mono h ?_)
  intro a t ha
  cases a with
  | ok a => exact ha
  | error e => exact ha

/-- One exchange of a program that is safe to run leaves a program that is. -/
theorem wp_reply {c : Cmd} {k : Reply → Prog Cmd Reply α} {r : Reply}
    (h : wp E Q (call c k) s) (hr : E.serve s c r t) : wp E Q (k r) t := h.2 r t hr

end Prog
