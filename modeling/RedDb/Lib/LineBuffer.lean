import Mathlib.Data.List.Induction

/-!
# Lines out of a stream of chunks

A reader keeps what it was given in a buffer, takes every line that has ended out of it, and
leaves the rest for the next chunk.

* `drainLines_spec` — what is taken out are lines, and none is left;
* `drainLines_join` — the lines of a text that comes in two pieces;
* `foldl_feed` — how a text is cut into chunks does not show in what is made of its lines.
-/

namespace LineBuffer

variable {α σ : Type*} [DecidableEq α] {nl : α}

/-- The lines that have ended, each with its end, and the buffer without them. -/
@[grind =] def drainLines (nl : α) : List α → List (List α) × List α
  | [] => ([], [])
  | c :: rest =>
    if c = nl then ([c] :: (drainLines nl rest).1, (drainLines nl rest).2)
    else match drainLines nl rest with
      | ([], buf) => ([], c :: buf)
      | (line :: lines, buf) => ((c :: line) :: lines, buf)

/-- A chunk is put behind the buffer, and what has ended is handed on. -/
def feed (nl : α) (step : σ → List α → σ) (s : List α × σ) (chunk : List α) : List α × σ :=
  ((drainLines nl (s.1 ++ chunk)).2, (drainLines nl (s.1 ++ chunk)).1.foldl step s.2)

/-- The first line is taken out, and the same is done with what is behind it. -/
theorem drainLines_line {line : List α} (h : nl ∉ line) (rest : List α) :
    drainLines nl (line ++ nl :: rest) =
      ((line ++ [nl]) :: (drainLines nl rest).1, (drainLines nl rest).2) := by
  induction line with
  | nil => rw [List.nil_append, drainLines, if_pos rfl, List.nil_append]
  | cons c line ih =>
    obtain ⟨hc, hline⟩ := not_or.mp (List.mem_cons.not.mp h)
    rw [List.cons_append, drainLines, if_neg (Ne.symm hc), ih hline]
    rfl

/-- What is taken out are lines, and what is left has no line's end in it. -/
theorem drainLines_spec (nl : α) (buf : List α) :
    (∀ line ∈ (drainLines nl buf).1, ∃ text, nl ∉ text ∧ line = text ++ [nl]) ∧
      nl ∉ (drainLines nl buf).2 := by
  induction buf with
  | nil => exact ⟨fun _ h => absurd h List.not_mem_nil, List.not_mem_nil⟩
  | cons c rest ih =>
    obtain ⟨hlines, hbuf⟩ := ih
    rw [drainLines]
    by_cases hc : c = nl
    · rw [if_pos hc]
      refine ⟨fun line hline => ?_, hbuf⟩
      rcases List.mem_cons.mp hline with rfl | hline
      · exact ⟨[], List.not_mem_nil, congrArg (fun x => [x]) hc⟩
      · exact hlines line hline
    rw [if_neg hc]
    cases hd : drainLines nl rest with
    | mk lines buf =>
      rw [hd] at hlines hbuf
      cases lines with
      | nil =>
        exact ⟨fun _ h => absurd h List.not_mem_nil,
          List.mem_cons.not.mpr (not_or.mpr ⟨Ne.symm hc, hbuf⟩)⟩
      | cons first lines =>
        refine ⟨fun line hline => ?_, hbuf⟩
        rcases List.mem_cons.mp hline with rfl | hline
        · obtain ⟨text, htext, rfl⟩ := hlines first List.mem_cons_self
          exact ⟨c :: text, List.mem_cons.not.mpr (not_or.mpr ⟨Ne.symm hc, htext⟩), rfl⟩
        · exact hlines line (List.mem_cons_of_mem first hline)

theorem drainLines_join (a b : List α) : drainLines nl (a ++ b) =
      ((drainLines nl a).1 ++ (drainLines nl ((drainLines nl a).2 ++ b)).1,
        (drainLines nl ((drainLines nl a).2 ++ b)).2) := by
  induction a with
  | nil => rfl
  | cons c a ih =>
    rw [List.cons_append, drainLines, drainLines]
    by_cases hc : c = nl
    · rw [if_pos hc, if_pos hc, ih]
      rfl
    rw [if_neg hc, if_neg hc]
    -- The byte goes to the first line of the first piece, or waits with its rest.
    cases hd : drainLines nl a with
    | mk lines buf =>
      rw [hd] at ih
      cases lines with
      | nil =>
        rw [ih, List.cons_append, drainLines, if_neg hc]
        rfl
      | cons line lines => rw [ih]; rfl

theorem feed_feed (step : σ → List α → σ) (s : List α × σ) (a b : List α) :
    feed nl step (feed nl step s a) b = feed nl step s (a ++ b) := by
  unfold feed
  dsimp only
  rw [← List.append_assoc, drainLines_join (s.1 ++ a) b, List.foldl_append]

/-- How a text is cut into chunks does not show. -/
theorem foldl_feed (step : σ → List α → σ) (s : σ) (chunks : List (List α)) :
    chunks.foldl (feed nl step) ([], s) = feed nl step ([], s) chunks.flatten := by
  induction chunks using List.reverseRecOn with
  | nil => rfl
  | append_singleton chunks chunk ih =>
    rw [List.foldl_append, ih, List.flatten_append, List.flatten_singleton]
    exact feed_feed step ([], s) chunks.flatten chunk

end LineBuffer
