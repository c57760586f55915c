import RedDb.Lib.LineBuffer
import Mathlib.Data.List.DropRight

/-!
# Texts by lines

A text as its lines, the end of a line being a line feed with or without a carriage return in
front of it, and texts without the blanks around them.

* `lines_line` — the first line, and the lines of the rest;
* `lines_clear` — no line holds a line feed;
* `trim_ends` — a text that begins and ends with no blank is left as it is;
* `trimEnd_first` — what is left of the first line when a text is trimmed at its end.
-/

namespace TextLines

variable {α : Type*}

/-! ## Blanks around a text -/

def trimEnd (white : α → Bool) (t : List α) : List α := t.rdropWhile white

def trim (white : α → Bool) (t : List α) : List α := trimEnd white (t.dropWhile white)

variable {white : α → Bool} {t u : List α}

theorem trimEnd_append (hu : ∀ c ∈ u, white c = true) : trimEnd white (t ++ u) = trimEnd white t := by
  unfold trimEnd
  induction u using List.reverseRecOn with
  | nil => rw [List.append_nil]
  | append_singleton u c ih =>
    rw [← List.append_assoc, List.rdropWhile_concat_pos _ _ _ (hu c (by simp))]
    exact ih fun c hc => hu c (List.mem_append_left _ hc)

theorem trimEnd_last (h : ∀ c ∈ t.getLast?, white c = false) : trimEnd white t = t := by
  rcases List.eq_nil_or_concat t with rfl | ⟨t, c, rfl⟩
  · rfl
  · rw [List.concat_eq_append] at h ⊢
    exact List.rdropWhile_concat_neg _ _ _ (Bool.eq_false_iff.mp (h c List.getLast?_concat))

theorem trimEnd_spec (white : α → Bool) (t : List α) :
    ∃ u, (∀ c ∈ u, white c = true) ∧ t = trimEnd white t ++ u ∧
      ∀ c ∈ (trimEnd white t).getLast?, white c = false := by
  unfold trimEnd
  induction t using List.reverseRecOn with
  | nil => exact ⟨[], fun _ h => absurd h List.not_mem_nil, rfl, fun c h => by cases h⟩
  | append_singleton t c ih =>
    obtain ⟨u, hu, ht, hlast⟩ := ih
    by_cases hc : white c = true
    · rw [List.rdropWhile_concat_pos _ _ _ hc]
      refine ⟨u ++ [c], fun d hd => ?_, ?_, hlast⟩
      · rcases List.mem_append.mp hd with hd | hd
        · exact hu d hd
        · rw [List.mem_singleton.mp hd]
          exact hc
      · rw [← List.append_assoc, ← ht]
    · rw [List.rdropWhile_concat_neg _ _ _ hc]
      refine ⟨[], fun _ h => absurd h List.not_mem_nil, (List.append_nil _).symm, fun d hd => ?_⟩
      rw [List.getLast?_concat] at hd
      cases hd
      exact Bool.eq_false_iff.mpr hc

theorem trim_append (hu : ∀ c ∈ u, white c = true) : trim white (t ++ u) = trim white t := by
  unfold trim
  by_cases ht : ∀ c ∈ t, white c = true
  · have hall : ∀ c ∈ t ++ u, white c = true := fun c hc => (List.mem_append.mp hc).elim (ht c) (hu c)
    rw [List.dropWhile_eq_nil_iff.mpr hall, List.dropWhile_eq_nil_iff.mpr ht]
  · have hne : t.dropWhile white ≠ [] := fun h => ht (List.dropWhile_eq_nil_iff.mp h)
    rw [List.dropWhile_append, if_neg (by simpa using hne), trimEnd_append hu]

theorem trim_front (hu : ∀ c ∈ u, white c = true) : trim white (u ++ t) = trim white t := by
  unfold trim
  rw [List.dropWhile_append, List.dropWhile_eq_nil_iff.mpr hu]
  rfl

/-- A text that begins and ends with no blank is left as it is. -/
theorem trim_ends (hfirst : ∀ c ∈ t.head?, white c = false) (hlast : ∀ c ∈ t.getLast?, white c = false) :
    trim white t = t := by
  unfold trim
  cases t with
  | nil => rfl
  | cons c t =>
    rw [List.dropWhile_cons_of_neg (by rw [hfirst c rfl]; exact Bool.false_ne_true)]
    exact trimEnd_last hlast

theorem trimEnd_head {c : α} (hc : white c = false) (t : List α) :
    ∃ t', trimEnd white (c :: t) = c :: t' := by
  obtain ⟨u, hu, ht, -⟩ := trimEnd_spec white (c :: t)
  cases h : trimEnd white (c :: t) with
  | nil =>
    rw [h, List.nil_append] at ht
    rw [hu c (ht ▸ List.mem_cons_self)] at hc
    exact absurd hc (by decide)
  | cons d t' =>
    rw [h, List.cons_append] at ht
    rw [(List.cons.inj ht).1]
    exact ⟨t', rfl⟩

theorem head_trim (white : α → Bool) (t : List α) : ∀ c ∈ (trim white t).head?, white c = false := by
  intro c hc
  unfold trim at hc
  cases h : t.dropWhile white with
  | nil => rw [h] at hc; cases hc
  | cons d rest =>
    have hd : white d = false := by
      have hne : t.dropWhile white ≠ [] := by rw [h]; exact List.cons_ne_nil d rest
      have := List.head_dropWhile_not white hne
      simpa [h] using this
    obtain ⟨rest', hrest⟩ := trimEnd_head hd rest
    rw [h, hrest] at hc
    cases hc
    exact hd

theorem last_trim (white : α → Bool) (t : List α) : ∀ c ∈ (trim white t).getLast?, white c = false :=
  (trimEnd_spec white _).choose_spec.2.2

theorem trim_trim (t : List α) : trim white (trim white t) = trim white t :=
  trim_ends (head_trim white t) (last_trim white t)

theorem mem_of_mem_trim {c : α} (h : c ∈ trim white t) : c ∈ t := by
  obtain ⟨u, -, ht, -⟩ := trimEnd_spec white (t.dropWhile white)
  refine (List.dropWhile_sublist white).subset ?_
  rw [ht]
  exact List.mem_append_left u h

/-- Trimming leaves the first line in front of the rest, or what trimming leaves of that line. -/
theorem trimEnd_first (white : α → Bool) (t : List α) (nl : α) (rest : List α) :
    trimEnd white (t ++ nl :: rest) = trimEnd white t ∨
      ∃ rest', trimEnd white (t ++ nl :: rest) = t ++ nl :: rest' := by
  by_cases hrest : ∀ c ∈ nl :: rest, white c = true
  · exact .inl (trimEnd_append hrest)
  right
  obtain ⟨u, hu, hsplit, hlast⟩ := trimEnd_spec white (t ++ nl :: rest)
  -- The blanks that are taken away do not reach back to the line feed.
  rcases List.append_eq_append_iff.mp hsplit with ⟨a, ha, hb⟩ | ⟨a, ha, hb⟩
  · cases a with
    | nil =>
      rw [List.nil_append] at hb
      exact absurd (hb ▸ hu) hrest
    | cons c a =>
      rw [List.cons_append] at hb
      obtain ⟨hc, -⟩ := List.cons.inj hb
      rw [ha, ← hc]
      exact ⟨a, rfl⟩
  · rw [hb] at hu
    exact absurd (fun c hc => hu c (List.mem_append_right a hc)) hrest

/-! ## Lines -/

section Lines

variable [DecidableEq α] {nl cr : α}

/-- The text without this character at its end. -/
def stripLast (c : α) (t : List α) : List α := if t.getLast? = some c then t.dropLast else t

/-- The lines without their ends; the last need not have one. -/
def lines (nl cr : α) (t : List α) : List (List α) :=
  (LineBuffer.drainLines nl t).1.map (fun line => stripLast cr line.dropLast) ++
    if (LineBuffer.drainLines nl t).2 = [] then [] else [(LineBuffer.drainLines nl t).2]

theorem stripLast_spec (c : α) (t : List α) : stripLast c t = t ∨ t = stripLast c t ++ [c] := by
  unfold stripLast
  split
  · next h =>
    rcases List.eq_nil_or_concat t with rfl | ⟨t, d, rfl⟩
    · cases h
    · rw [List.concat_eq_append, List.getLast?_concat] at h
      cases h
      exact .inr (by rw [List.concat_eq_append, List.dropLast_concat])
  · exact .inl rfl

theorem stripLast_last {c : α} (h : t.getLast? ≠ some c) : stripLast c t = t := if_neg h

theorem trim_stripLast (hcr : white cr = true) (t : List α) :
    trim white (stripLast cr t) = trim white t := by
  rcases stripLast_spec cr t with h | h
  · rw [h]
  · conv_rhs => rw [h]
    exact (trim_append fun c hc => by rw [List.mem_singleton.mp hc]; exact hcr).symm

/-- The first line, and the lines of the rest. -/
theorem lines_line (h : nl ∉ t) (rest : List α) :
    lines nl cr (t ++ nl :: rest) = stripLast cr t :: lines nl cr rest := by
  unfold lines
  rw [LineBuffer.drainLines_line h, List.map_cons, List.dropLast_concat, List.cons_append]

/-- No line holds a line feed. -/
theorem lines_clear (nl cr : α) (t : List α) {l : List α} (h : l ∈ lines nl cr t) : nl ∉ l := by
  obtain ⟨hlines, hrest⟩ := LineBuffer.drainLines_spec nl t
  rcases List.mem_append.mp h with h | h
  · obtain ⟨line, hline, rfl⟩ := List.mem_map.mp h
    obtain ⟨text, htext, rfl⟩ := hlines line hline
    rw [List.dropLast_concat]
    intro hmem
    rcases stripLast_spec cr text with h | h
    · exact htext (h ▸ hmem)
    · exact htext (h ▸ List.mem_append_left _ hmem)
  · split at h
    · exact absurd h List.not_mem_nil
    · rw [List.mem_singleton.mp h]
      exact hrest

end Lines

end TextLines
