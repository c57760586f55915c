import Mathlib.Data.List.Basic
import Mathlib.Data.List.DropRight

/-!
# Comma-separated records

Records of fields over any alphabet with a separator, a quote and two line ends. A field
that holds one of the four is quoted, a quote inside it doubled. A reader takes the text
line by line and joins lines until the quotes it has seen are even.

* `parse_record` — a record with a field is parsed to its fields;
* `gather_record` — its line, or lines, are read as one record, whatever follows.
-/

namespace Csv

/-- The four characters of the format. -/
structure Marks (α : Type*) where
  comma : α
  quote : α
  cr : α
  lf : α
  comma_ne_quote : comma ≠ quote
  comma_ne_cr : comma ≠ cr
  comma_ne_lf : comma ≠ lf
  quote_ne_cr : quote ≠ cr
  quote_ne_lf : quote ≠ lf

variable {α : Type*} [DecidableEq α] (m : Marks α)

/-! ## Writing -/

/-- A character a field is quoted for. -/
def Marks.special (c : α) : Bool := c = m.comma || c = m.quote || c = m.lf || c = m.cr

/-- The field with its quotes doubled. -/
def doubled (field : List α) : List α :=
  field.flatMap fun c => if c = m.quote then [m.quote, m.quote] else [c]

def escape (field : List α) : List α :=
  if field.any m.special then m.quote :: doubled m field ++ [m.quote] else field

/-- The escaped fields, joined by commas. -/
@[grind =] def record : List (List α) → List α
  | [] => []
  | [field] => escape m field
  | field :: next :: rest => escape m field ++ m.comma :: record (next :: rest)

/-! ## Reading -/

/-- The fields of a record, from inside the field begun so far. -/
@[grind =] def parseFrom : List α → Bool → List α → List (List α)
  | field, _, [] => [field]
  | field, true, c :: rest =>
    if c = m.quote then
      match rest with
      | [] => [field]
      | next :: rest =>
        if next = m.quote then parseFrom (field ++ [m.quote]) true rest
        else parseFrom field false (next :: rest)
    else parseFrom (field ++ [c]) true rest
  | field, false, c :: rest =>
    if c = m.quote then parseFrom field true rest
    else if c = m.comma then field :: parseFrom [] false rest
    else parseFrom (field ++ [c]) false rest

def parse (text : List α) : List (List α) := parseFrom m [] false text

/-- The lines of a text, each with its line end. -/
@[grind =] def physicalLines : List α → List (List α)
  | [] => []
  | c :: rest =>
    if c = m.lf then [c] :: physicalLines rest
    else
      match physicalLines rest with
      | [] => [[c]]
      | line :: lines => (c :: line) :: lines

/-- The lines of one record, joined, and the lines after it, unless the text ends first. -/
@[grind =] def gather (buf : List α) : List (List α) → List α × Option (List (List α))
  | [] => (buf, none)
  | line :: lines =>
    if (buf ++ line).count m.quote % 2 = 0 then (buf ++ line, some lines)
    else gather (buf ++ line) lines

/-- The text without the line ends it ends with. -/
def trimLineEnd (text : List α) : List α := text.rdropWhile fun c => c = m.cr || c = m.lf

/-! ## A record is parsed to its fields -/

variable {m}

variable {c : α}

theorem special_false (h : m.special c = false) :
    c ≠ m.comma ∧ c ≠ m.quote ∧ c ≠ m.lf ∧ c ≠ m.cr := by
  simp only [Marks.special, Bool.or_eq_false_iff, decide_eq_false_iff_not] at h
  exact ⟨h.1.1.1, h.1.1.2, h.1.2, h.2⟩

theorem doubled_cons (c : α) (field : List α) :
    doubled m (c :: field) =
      (if c = m.quote then [m.quote, m.quote] else [c]) ++ doubled m field :=
  List.flatMap_cons

theorem parseFrom_plain {plain : List α} (h : plain.any m.special = false) (field rest : List α) :
    parseFrom m field false (plain ++ rest) = parseFrom m (field ++ plain) false rest := by
  induction plain generalizing field with
  | nil => rw [List.nil_append, List.append_nil]
  | cons c plain ih =>
    rw [List.any_cons, Bool.or_eq_false_iff] at h
    obtain ⟨hcomma, hquote, -, -⟩ := special_false h.1
    rw [List.cons_append, parseFrom, if_neg hquote, if_neg hcomma, ih h.2, List.append_assoc,
      List.singleton_append]

/-- What stands after a closing quote and does not double it. -/
def Closed (m : Marks α) (rest : List α) : Prop := rest.head? ≠ some m.quote

variable {rest : List α}

theorem parseFrom_doubled (quoted field : List α) (h : Closed m rest) :
    parseFrom m field true (doubled m quoted ++ m.quote :: rest) =
      parseFrom m (field ++ quoted) false rest := by
  induction quoted generalizing field with
  | nil =>
    show parseFrom m field true (m.quote :: rest) = _
    rw [List.append_nil]
    cases rest with
    | nil =>
      rw [parseFrom.eq_def]
      exact if_pos rfl
    | cons next rest =>
      have hnext : next ≠ m.quote := fun heq => h (by rw [heq]; rfl)
      rw [parseFrom.eq_def]
      show (if m.quote = m.quote then if next = m.quote then _ else _ else _) = _
      rw [if_pos rfl, if_neg hnext]
  | cons c quoted ih =>
    rw [doubled_cons]
    by_cases hc : c = m.quote
    · rw [if_pos hc]
      show parseFrom m field true (m.quote :: m.quote :: (doubled m quoted ++ m.quote :: rest)) = _
      rw [parseFrom.eq_def]
      show (if m.quote = m.quote then if m.quote = m.quote then _ else _ else _) = _
      rw [if_pos rfl, if_pos rfl, ih, List.append_assoc, List.singleton_append, hc]
    · rw [if_neg hc]
      show parseFrom m field true (c :: (doubled m quoted ++ m.quote :: rest)) = _
      rw [parseFrom.eq_def]
      show (if c = m.quote then _ else _) = _
      rw [if_neg hc, ih, List.append_assoc, List.singleton_append]

theorem parseFrom_escape (field : List α) (h : Closed m rest) :
    parseFrom m [] false (escape m field ++ rest) = parseFrom m field false rest := by
  unfold escape
  by_cases hspecial : field.any m.special = true
  · rw [if_pos hspecial]
    show parseFrom m [] false (m.quote :: (doubled m field ++ [m.quote] ++ rest)) = _
    rw [parseFrom, if_pos rfl, List.append_assoc, List.singleton_append, parseFrom_doubled _ _ h,
      List.nil_append]
  · rw [if_neg hspecial, parseFrom_plain (Bool.eq_false_iff.mpr hspecial), List.nil_append]

omit [DecidableEq α] in
theorem closed_nil : Closed m [] := by
  intro h
  cases h

omit [DecidableEq α] in
theorem closed_comma (rest : List α) : Closed m (m.comma :: rest) :=
  fun h => m.comma_ne_quote (Option.some.inj h)

/-- **A record with a field is parsed to its fields.** -/
theorem parse_record {fields : List (List α)} (h : fields ≠ []) :
    parse m (record m fields) = fields := by
  unfold parse
  induction fields using record.induct with
  | case1 => exact absurd rfl h
  | case2 field =>
    rw [record, ← List.append_nil (escape m field), parseFrom_escape field closed_nil]
    rfl
  | case3 field next rest ih =>
    rw [record, parseFrom_escape field (closed_comma _), parseFrom, if_neg m.comma_ne_quote,
      if_pos rfl, ih (List.cons_ne_nil _ _)]

/-! ## A record is read as one -/

/-- From a point inside a quote or outside, every line end of the text stands inside one,
and the text ends outside. -/
def Sealed (m : Marks α) : Bool → List α → Prop
  | inside, [] => inside = false
  | inside, c :: rest =>
    if c = m.quote then Sealed m (!inside) rest
    else (c = m.lf → inside = true) ∧ Sealed m inside rest

theorem sealed_quote {inside : Bool} :
    Sealed m inside (m.quote :: rest) ↔ Sealed m (!inside) rest := by
  rw [Sealed, if_pos rfl]

theorem sealed_other {inside : Bool} (hc : c ≠ m.quote) :
    Sealed m inside (c :: rest) ↔ (c = m.lf → inside = true) ∧ Sealed m inside rest := by
  rw [Sealed, if_neg hc]

theorem sealed_doubled (quoted : List α) (h : Sealed m false rest) :
    Sealed m true (doubled m quoted ++ m.quote :: rest) := by
  induction quoted with
  | nil => exact sealed_quote.mpr h
  | cons c quoted ih =>
    rw [doubled_cons]
    by_cases hc : c = m.quote
    · rw [if_pos hc]
      exact sealed_quote.mpr (sealed_quote.mpr ih)
    · rw [if_neg hc]
      exact (sealed_other hc).mpr ⟨fun _ => rfl, ih⟩

theorem sealed_plain {plain : List α} (hplain : plain.any m.special = false)
    (h : Sealed m false rest) : Sealed m false (plain ++ rest) := by
  induction plain with
  | nil => exact h
  | cons c plain ih =>
    rw [List.any_cons, Bool.or_eq_false_iff] at hplain
    obtain ⟨-, hquote, hlf, -⟩ := special_false hplain.1
    exact (sealed_other hquote).mpr ⟨fun heq => absurd heq hlf, ih hplain.2⟩

theorem sealed_escape (field : List α) (h : Sealed m false rest) :
    Sealed m false (escape m field ++ rest) := by
  unfold escape
  by_cases hspecial : field.any m.special = true
  · rw [if_pos hspecial]
    show Sealed m false (m.quote :: (doubled m field ++ [m.quote] ++ rest))
    rw [List.append_assoc]
    exact sealed_quote.mpr (sealed_doubled field h)
  · rw [if_neg hspecial]
    exact sealed_plain (Bool.eq_false_iff.mpr hspecial) h

theorem sealed_record (fields : List (List α)) : Sealed m false (record m fields) := by
  induction fields using record.induct with
  | case1 => rfl
  | case2 field =>
    rw [record, ← List.append_nil (escape m field)]
    exact sealed_escape field rfl
  | case3 field next rest ih =>
    rw [record]
    exact sealed_escape field ((sealed_other m.comma_ne_quote).mpr
      ⟨fun heq => absurd heq m.comma_ne_lf, ih⟩)

/-- The quotes seen so far leave the reader inside a quote. -/
def inside (m : Marks α) (buf : List α) : Bool := buf.count m.quote % 2 = 1

theorem inside_quote (buf : List α) : inside m (buf ++ [m.quote]) = !inside m buf := by
  unfold inside
  rw [List.count_append, List.count_singleton_self, ← decide_not, decide_eq_decide]
  omega

theorem inside_other (hc : c ≠ m.quote) (buf : List α) : inside m (buf ++ [c]) = inside m buf := by
  unfold inside
  rw [List.count_append, List.count_singleton, if_neg (by simpa using hc), Nat.add_zero]

theorem even_iff (buf : List α) : buf.count m.quote % 2 = 0 ↔ inside m buf = false := by
  unfold inside
  rw [decide_eq_false_iff_not]
  omega

theorem gather_line {buf line : List α} {lines : List (List α)} :
    gather m buf ((c :: line) :: lines) = gather m (buf ++ [c]) (line :: lines) := by
  rw [gather, gather, List.append_assoc, List.singleton_append]

variable {text : List α}

theorem physicalLines_ne (h : text ≠ []) : ∃ line lines, physicalLines m text = line :: lines := by
  cases text with
  | nil => exact absurd rfl h
  | cons c rest =>
    rw [physicalLines]
    split
    · exact ⟨_, _, rfl⟩
    · split <;> exact ⟨_, _, rfl⟩

theorem physicalLines_lf (rest : List α) :
    physicalLines m (m.lf :: rest) = [m.lf] :: physicalLines m rest := by
  rw [physicalLines, if_pos rfl]

theorem gather_other (hc : c ≠ m.lf) (h : text ≠ []) (buf : List α) :
    gather m buf (physicalLines m (c :: text)) = gather m (buf ++ [c]) (physicalLines m text) := by
  obtain ⟨line, lines, hlines⟩ := physicalLines_ne (m := m) h
  rw [physicalLines, if_neg hc, hlines]
  exact gather_line

/-- A sealed text and its line end are joined into one record. -/
theorem gather_sealed (text : List α) {buf : List α} (h : Sealed m (inside m buf) text)
    (rest : List α) : gather m buf (physicalLines m (text ++ m.lf :: rest)) =
      (buf ++ text ++ [m.lf], some (physicalLines m rest)) := by
  induction text generalizing buf with
  | nil =>
    have heven : (buf ++ [m.lf]).count m.quote % 2 = 0 := by
      rw [even_iff, inside_other m.quote_ne_lf.symm]
      exact h
    rw [List.nil_append, physicalLines_lf, gather, if_pos heven, List.append_nil]
  | cons c text ih =>
    have hne : text ++ m.lf :: rest ≠ [] := List.append_ne_nil_of_right_ne_nil _ (List.cons_ne_nil _ _)
    have hstep : gather m buf (physicalLines m (c :: (text ++ m.lf :: rest))) =
        gather m (buf ++ [c]) (physicalLines m (text ++ m.lf :: rest)) := by
      by_cases hlf : c = m.lf
      · have hquote : c ≠ m.quote := fun heq => m.quote_ne_lf (heq.symm.trans hlf)
        have hodd : ¬(buf ++ [m.lf]).count m.quote % 2 = 0 := by
          rw [even_iff, inside_other m.quote_ne_lf.symm, ((sealed_other hquote).mp h).1 hlf]
          exact Bool.noConfusion
        rw [hlf, physicalLines_lf, gather, if_neg hodd]
      · exact gather_other hlf hne buf
    have hnext : Sealed m (inside m (buf ++ [c])) text := by
      by_cases hquote : c = m.quote
      · rw [hquote, inside_quote]
        exact sealed_quote.mp (hquote ▸ h)
      · rw [inside_other hquote]
        exact ((sealed_other hquote).mp h).2
    rw [List.cons_append, hstep, ih hnext, List.append_assoc buf, List.singleton_append]

/-- **The lines of a record are read as one record, whatever follows.** -/
theorem gather_record (fields : List (List α)) (rest : List α) :
    gather m [] (physicalLines m (record m fields ++ m.lf :: rest)) =
      (record m fields ++ [m.lf], some (physicalLines m rest)) := by
  have houtside : Sealed m (inside m []) (record m fields) := sealed_record fields
  have h := gather_sealed (record m fields) houtside rest
  rwa [List.nil_append] at h

/-! ## A record ends with no line end of its own -/

/-- The text ends with a character that is no line end, or is empty. -/
def Tidy (m : Marks α) (text : List α) : Prop := ∀ c ∈ text.getLast?, c ≠ m.cr ∧ c ≠ m.lf

theorem trimLineEnd_tidy (h : Tidy m text) : trimLineEnd m (text ++ [m.lf]) = text := by
  unfold trimLineEnd
  rw [List.rdropWhile_concat_pos _ _ _ (by simp), List.rdropWhile_eq_self_iff]
  intro hne
  obtain ⟨hcr, hlf⟩ := h (text.getLast hne) (List.getLast?_eq_some_getLast hne)
  simp [hcr, hlf]

theorem tidy_escape (field : List α) : Tidy m (escape m field) := by
  intro c hc
  unfold escape at hc
  by_cases hspecial : field.any m.special = true
  · rw [if_pos hspecial, List.getLast?_concat] at hc
    obtain rfl : m.quote = c := Option.some.inj hc
    exact ⟨m.quote_ne_cr, m.quote_ne_lf⟩
  rw [if_neg hspecial] at hc
  have hplain : m.special c = false := by
    by_contra hcontra
    exact hspecial (List.any_eq_true.mpr
      ⟨c, List.mem_of_getLast? hc, (Bool.not_eq_false _).mp hcontra⟩)
  obtain ⟨-, -, hlf, hcr⟩ := special_false hplain
  exact ⟨hcr, hlf⟩

theorem tidy_record (fields : List (List α)) : Tidy m (record m fields) := by
  induction fields using record.induct with
  | case1 =>
    intro c hc
    cases hc
  | case2 field => exact tidy_escape field
  | case3 field next rest ih =>
    intro c hc
    rw [record, List.getLast?_append, List.getLast?_cons] at hc
    cases hlast : (record m (next :: rest)).getLast? with
    | none =>
      rw [hlast] at hc
      obtain rfl : m.comma = c := Option.some.inj hc
      exact ⟨m.comma_ne_cr, m.comma_ne_lf⟩
    | some last =>
      rw [hlast] at hc
      obtain rfl : last = c := Option.some.inj hc
      exact ih last hlast

theorem trimLineEnd_record (fields : List (List α)) :
    trimLineEnd m (record m fields ++ [m.lf]) = record m fields :=
  trimLineEnd_tidy (tidy_record fields)

end Csv
