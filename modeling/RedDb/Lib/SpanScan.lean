import RedDb.Lib.WhileLoop
import Mathlib.Data.List.Basic

/-!
# Scanners that mark spans

A scanner reads a text of length `n` token by token, in a mode that a token may
change, and marks a span at the end of some tokens. The simplest scanner has no
modes: at each offset it opens a span or steps over one byte (`bytewise`).

* `spans_eq_iff` — a bytewise scanner marks the spans of another exactly when it
  opens nothing in the live part of a token, and the token's span behind it.
-/

namespace SpanScan

/-- A token: live up to `live`, a span from there to `stop`. -/
structure Token (κ : Type*) where
  live : Nat
  stop : Nat
  next : κ

/-- The state between two tokens. -/
structure State (κ : Type*) where
  pos : Nat
  mode : κ
  spans : List (Nat × Nat)

variable {κ : Type*}

/-- The state without its mode. -/
def State.plain (s : State κ) : State Unit := ⟨s.pos, (), s.spans⟩

def Token.span (t : Token κ) : List (Nat × Nat) := if t.live < t.stop then [(t.live, t.stop)] else []

def step (tok : κ → Nat → Token κ) (s : State κ) : State κ :=
  ⟨(tok s.mode s.pos).stop, (tok s.mode s.pos).next, s.spans ++ (tok s.mode s.pos).span⟩

def going (n : Nat) (s : State κ) : Bool := decide (s.pos < n)

@[grind =] def run (tok : κ → Nat → Token κ) (n : Nat) (s : State κ) : State κ :=
  WhileLoop.run (going n) (step tok) n s

/-- The spans a scanner marks in a text of length `n`. -/
def spans (tok : κ → Nat → Token κ) (n : Nat) (mode : κ) : List (Nat × Nat) :=
  (run tok n ⟨0, mode, []⟩).spans

abbrev Visits (tok : κ → Nat → Token κ) (n : Nat) : State κ → State κ → Prop :=
  WhileLoop.Visits (going n) (step tok)

/-- Tokens move on, and stay in the text. -/
def Moves (tok : κ → Nat → Token κ) (n : Nat) : Prop :=
  ∀ m i, i < n → i ≤ (tok m i).live ∧ (tok m i).live ≤ (tok m i).stop ∧ i < (tok m i).stop ∧
    (tok m i).stop ≤ n

/-- The scanner that opens a span, or steps over a byte. -/
def bytewise (opens : Nat → Option Nat) : Unit → Nat → Token Unit := fun _ i =>
  match opens i with
  | some e => ⟨i, e, ()⟩
  | none => ⟨i + 1, i + 1, ()⟩

/-- A bytewise scanner reads the token at `i` as it is. -/
structure Reads (opens : Nat → Option Nat) (t : Token κ) (i : Nat) : Prop where
  live : ∀ j, i ≤ j → j < t.live → opens j = none
  span : t.live < t.stop → opens t.live = some t.stop

theorem visits_run (tok : κ → Nat → Token κ) (n : Nat) (s : State κ) :
    Visits tok n s (run tok n s) := WhileLoop.visits_run _ _

/-- Whether the offset `k` lies in a span. -/
def Covers (marked : List (Nat × Nat)) (k : Nat) : Prop := ∃ r ∈ marked, r.1 ≤ k ∧ k < r.2

instance (marked : List (Nat × Nat)) (k : Nat) : Decidable (Covers marked k) :=
  inferInstanceAs (Decidable (∃ r ∈ marked, r.1 ≤ k ∧ k < r.2))

section Scanner

variable {tok : κ → Nat → Token κ} {n : Nat} (hmoves : Moves tok n) {s t : State κ}

include hmoves

theorem measure (s : State κ) (h : going n s = true) : n - (step tok s).pos < n - s.pos := by
  have hi : s.pos < n := of_decide_eq_true h
  have := hmoves s.mode s.pos hi
  unfold step
  simp only
  omega

theorem pos_le (h : Visits tok n s t) (hs : s.pos ≤ n) : s.pos ≤ t.pos ∧ t.pos ≤ n := by
  refine WhileLoop.Visits.inv (I := fun t => s.pos ≤ t.pos ∧ t.pos ≤ n) ?_ h ⟨Nat.le_refl _, hs⟩
  rintro u hu ⟨hle, -⟩
  have hm := hmoves u.mode u.pos (of_decide_eq_true hu)
  exact ⟨Nat.le_of_lt (Nat.lt_of_le_of_lt hle hm.2.2.1), hm.2.2.2⟩

/-- Spans once marked stay, and later ones lie further on. -/
theorem spans_later (h : Visits tok n s t) :
    ∃ later, t.spans = s.spans ++ later ∧ ∀ r ∈ later, s.pos ≤ r.1 := by
  refine (WhileLoop.Visits.inv (I := fun t => s.pos ≤ t.pos ∧
    ∃ later, t.spans = s.spans ++ later ∧ ∀ r ∈ later, s.pos ≤ r.1) ?_ h
    ⟨Nat.le_refl _, [], by simp, fun r hr => absurd hr List.not_mem_nil⟩).2
  rintro u hu ⟨hle, later, hspans, hlater⟩
  have hm := hmoves u.mode u.pos (of_decide_eq_true hu)
  refine ⟨Nat.le_of_lt (Nat.lt_of_le_of_lt hle hm.2.2.1), later ++ (tok u.mode u.pos).span, ?_, ?_⟩
  · rw [← List.append_assoc, ← hspans]
    rfl
  · intro r hr
    rcases List.mem_append.mp hr with hr | hr
    · exact hlater r hr
    unfold Token.span at hr
    split at hr
    · obtain rfl := List.mem_singleton.mp hr
      exact Nat.le_trans hle hm.1
    · exact absurd hr List.not_mem_nil

theorem run_of_visits (h : Visits tok n s t) : run tok n s = run tok n t :=
  WhileLoop.run_eq_of_visits (μ := fun s : State κ => n - s.pos) (measure hmoves) h
    (Nat.sub_le _ _) (Nat.sub_le _ _)

/-- The scan ends at the end of the text. -/
theorem run_pos (hs : s.pos ≤ n) : (run tok n s).pos = n := by
  have hdone : going n (run tok n s) = false :=
    WhileLoop.run_done (μ := fun s : State κ => n - s.pos) (measure hmoves) (Nat.sub_le _ _)
  have hle := (pos_le hmoves (visits_run tok n s) hs).2
  have hge : ¬ (run tok n s).pos < n := of_decide_eq_false hdone
  omega

/-- The spans of the whole scan, from a visited state on. -/
theorem run_spans (h : Visits tok n s t) :
    ∃ later, (run tok n s).spans = t.spans ++ later ∧ ∀ r ∈ later, t.pos ≤ r.1 := by
  rw [run_of_visits hmoves h]
  exact spans_later hmoves (visits_run tok n t)

end Scanner

section Bytewise

variable {opens : Nat → Option Nat} {n : Nat}
  (hopens : ∀ i e, i < n → opens i = some e → i < e ∧ e ≤ n)

include hopens in
theorem moves_bytewise : Moves (bytewise opens) n := by
  intro m i hi
  unfold bytewise
  cases ho : opens i with
  | some e =>
    have := hopens i e hi ho
    simp only
    omega
  | none =>
    simp only
    omega

theorem bytewise_none {s : State Unit} (h : opens s.pos = none) :
    step (bytewise opens) s = ⟨s.pos + 1, (), s.spans⟩ := by
  simp [step, bytewise, h, Token.span]

theorem bytewise_some {s : State Unit} {e : Nat} (h : opens s.pos = some e) (hlt : s.pos < e) :
    step (bytewise opens) s = ⟨e, (), s.spans ++ [(s.pos, e)]⟩ := by
  simp [step, bytewise, h, Token.span, hlt]

/-- Where nothing opens the scan walks on. -/
theorem bytewise_walk {i m : Nat} (him : i ≤ m) (hm : m ≤ n) (marked : List (Nat × Nat))
    (h : ∀ j, i ≤ j → j < m → opens j = none) :
    Visits (bytewise opens) n ⟨i, (), marked⟩ ⟨m, (), marked⟩ := by
  induction m with
  | zero =>
    obtain rfl : i = 0 := by omega
    exact Relation.ReflTransGen.refl
  | succ m ih =>
    rcases Nat.eq_or_lt_of_le him with rfl | hlt
    · exact Relation.ReflTransGen.refl
    · have hwalk := ih (by omega) (by omega) fun j hj hjm => h j hj (by omega)
      refine hwalk.tail ⟨decide_eq_true (Nat.lt_of_succ_le hm), ?_⟩
      rw [bytewise_none (h m (by omega) (by omega))]

end Bytewise

section Agreement

variable {tok : κ → Nat → Token κ} {n : Nat} (hmoves : Moves tok n) {opens : Nat → Option Nat}
  (hopens : ∀ i e, i < n → opens i = some e → i < e ∧ e ≤ n)

include hmoves in
/-- The bytewise scanner follows a token it reads as it is. -/
theorem follow {s : State κ} (hi : s.pos < n) (hreads : Reads opens (tok s.mode s.pos) s.pos) :
    Visits (bytewise opens) n s.plain (step tok s).plain := by
  obtain ⟨h1, h2, h3, h4⟩ := hmoves s.mode s.pos hi
  have hwalk := bytewise_walk (n := n) h1 (Nat.le_trans h2 h4) s.spans hreads.live
  unfold State.plain step
  by_cases hspan : (tok s.mode s.pos).live < (tok s.mode s.pos).stop
  · refine hwalk.tail ⟨decide_eq_true (Nat.lt_of_lt_of_le hspan h4), ?_⟩
    rw [bytewise_some (s := ⟨_, (), s.spans⟩) (hreads.span hspan) hspan, Token.span, if_pos hspan]
  · have heq : (tok s.mode s.pos).live = (tok s.mode s.pos).stop := by omega
    rw [Token.span, if_neg hspan, List.append_nil, ← heq]
    exact hwalk

include hmoves hopens

/-- Where the two mark the same spans, the bytewise scanner reads every token as it
is. -/
theorem reads_of_spans {s : State κ} (hi : s.pos < n)
    (heq : (run (bytewise opens) n s.plain).spans = (run tok n s).spans) :
    Reads opens (tok s.mode s.pos) s.pos := by
  have hfine := moves_bytewise hopens
  obtain ⟨h1, h2, h3, h4⟩ := hmoves s.mode s.pos hi
  have hstep : Visits tok n s (step tok s) := WhileLoop.Visits.single (decide_eq_true hi)
  obtain ⟨later, hlater, hstart⟩ := run_spans hmoves hstep
  have hall : (run (bytewise opens) n s.plain).spans =
      s.spans ++ ((tok s.mode s.pos).span ++ later) := by
    rw [heq, hlater, ← List.append_assoc]
    rfl
  -- every span not yet marked starts where the live part ends, or later
  have hfar : ∀ r ∈ (tok s.mode s.pos).span ++ later, (tok s.mode s.pos).live ≤ r.1 := by
    intro r hr
    rcases List.mem_append.mp hr with hr | hr
    · unfold Token.span at hr
      split at hr
      · obtain rfl := List.mem_singleton.mp hr
        exact Nat.le_refl _
      · exact absurd hr List.not_mem_nil
    · exact Nat.le_trans h2 (hstart r hr)
  have hopened : ∀ {j e}, Visits (bytewise opens) n s.plain ⟨j, (), s.spans⟩ → j < n →
      opens j = some e → ∃ rest, (tok s.mode s.pos).span ++ later = (j, e) :: rest := by
    intro j e hv hj ho
    have hv' : Visits (bytewise opens) n s.plain ⟨e, (), s.spans ++ [(j, e)]⟩ := by
      refine hv.tail ⟨decide_eq_true hj, ?_⟩
      rw [bytewise_some (s := ⟨j, (), s.spans⟩) ho (hopens j e hj ho).1]
    obtain ⟨rest, hrest, -⟩ := run_spans hfine hv'
    rw [hall, List.append_assoc] at hrest
    exact ⟨rest, List.append_cancel_left hrest⟩
  -- induction on the offset: nothing opens before the live part ends
  have hwalk : ∀ k, s.pos + k ≤ (tok s.mode s.pos).live →
      Visits (bytewise opens) n s.plain ⟨s.pos + k, (), s.spans⟩ ∧
        ∀ j, s.pos ≤ j → j < s.pos + k → opens j = none := by
    intro k hk
    induction k with
    | zero => exact ⟨Relation.ReflTransGen.refl, fun j hj hj' => absurd hj' (by omega)⟩
    | succ k ih =>
      obtain ⟨hv, hnone⟩ := ih (by omega)
      have hk' : opens (s.pos + k) = none := by
        cases ho : opens (s.pos + k) with
        | none => rfl
        | some e =>
          obtain ⟨rest, hrest⟩ := hopened hv (by omega) ho
          have := hfar (s.pos + k, e) (by rw [hrest]; exact List.mem_cons_self ..)
          simp only at this
          omega
      refine ⟨hv.tail ⟨decide_eq_true (show s.pos + k < n by omega), ?_⟩, fun j hj hjk => ?_⟩
      · rw [bytewise_none (s := ⟨s.pos + k, (), s.spans⟩) hk', Nat.add_assoc]
      · rcases Nat.eq_or_lt_of_le (Nat.le_of_lt_succ hjk) with rfl | hjk
        · exact hk'
        · exact hnone j hj hjk
  obtain ⟨hv, hnone⟩ := hwalk ((tok s.mode s.pos).live - s.pos) (by omega)
  rw [Nat.add_sub_cancel' h1] at hv hnone
  refine ⟨hnone, fun hspan => ?_⟩
  have hhead : (tok s.mode s.pos).span ++ later =
      ((tok s.mode s.pos).live, (tok s.mode s.pos).stop) :: later := by
    rw [Token.span, if_pos hspan]
    rfl
  cases ho : opens (tok s.mode s.pos).live with
  | some e =>
    obtain ⟨rest, hrest⟩ := hopened hv (by omega) ho
    rw [hhead] at hrest
    rw [(Prod.mk.inj (List.cons.inj hrest).1).2]
  | none =>
    have hv' : Visits (bytewise opens) n s.plain
        ⟨(tok s.mode s.pos).live + 1, (), s.spans⟩ := by
      refine hv.tail ⟨decide_eq_true (Nat.lt_of_lt_of_le hspan h4), ?_⟩
      rw [bytewise_none (s := ⟨(tok s.mode s.pos).live, (), s.spans⟩) ho]
    obtain ⟨rest, hrest, hge⟩ := run_spans hfine hv'
    rw [hall, hhead] at hrest
    have := hge _ (by rw [← List.append_cancel_left hrest]; exact List.mem_cons_self ..)
    simp only at this
    omega

/-- **Same spans.** A bytewise scanner marks the spans of a scanner exactly when it
reads every token as it is. -/
theorem spans_eq_iff {mode : κ} : spans (bytewise opens) n () = spans tok n mode ↔
    ∀ s, Visits tok n ⟨0, mode, []⟩ s → s.pos < n → Reads opens (tok s.mode s.pos) s.pos := by
  have hfine := moves_bytewise hopens
  constructor
  · intro heq s hs hi
    have hreads : ∀ {u}, Visits tok n ⟨0, mode, []⟩ u → u.pos < n →
        Visits (bytewise opens) n ⟨0, (), []⟩ u.plain → Reads opens (tok u.mode u.pos) u.pos :=
      fun hu hi ht => reads_of_spans hmoves hopens hi
        (by rw [← run_of_visits hfine ht, ← run_of_visits hmoves hu]; exact heq)
    refine hreads hs hi ?_
    clear hi
    induction hs with
    | refl => exact Relation.ReflTransGen.refl
    | tail hu hr ih =>
      obtain ⟨hgo, rfl⟩ := hr
      have hi := of_decide_eq_true hgo
      exact ih.trans (follow hmoves hi (hreads hu hi ih))
  · intro hreads
    have hboth : ∀ s, Visits tok n ⟨0, mode, []⟩ s →
        Visits (bytewise opens) n ⟨0, (), []⟩ s.plain := by
      intro s hs
      induction hs with
      | refl => exact Relation.ReflTransGen.refl
      | tail hu hr ih =>
        obtain ⟨hgo, rfl⟩ := hr
        have hi := of_decide_eq_true hgo
        exact ih.trans (follow hmoves hi (hreads _ hu hi))
    have ht := hboth _ (visits_run tok n _)
    have hend : (run tok n ⟨0, mode, []⟩).pos = n := run_pos hmoves (Nat.zero_le n)
    have hdone : run (bytewise opens) n (run tok n ⟨0, mode, []⟩).plain =
        (run tok n ⟨0, mode, []⟩).plain :=
      WhileLoop.run_of_done n (by simp [going, State.plain, hend])
    unfold spans
    rw [run_of_visits hfine ht, hdone]
    rfl

end Agreement

end SpanScan
