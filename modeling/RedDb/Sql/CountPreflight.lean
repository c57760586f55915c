import RedDb.Sql.WriteObject

/-!
# RedDb — the count in front of a write

`count_preflight` turns a statement into the query whose rows are to be counted before it
runs: the table that is read of the statement, and its text from the `WHERE` on. What it makes
of an `UPDATE` or `DELETE` of one table is measured against what an engine does with either.

* `countPreflight` — the rewriting;
* `countPreflight_joins` — a statement with a second table is declined;
* `countPreflight_counts_iff` — for which statements the count is the statement's own.
-/

namespace RedDb.Sql

open ByteText

/-! ## The rewriting -/

/-- `SELECT 1 FROM <table>`, with the tail when there is one. -/
def selectOver (table : Bytes) : Option Bytes → Bytes
  | some tail => ascii "SELECT 1 FROM " ++ (table ++ space :: tail)
  | none => ascii "SELECT 1 FROM " ++ table

/-- The text from the top-level `where` on, without a last `;`. -/
def whereTail (stmt lower : Bytes) : Option Bytes :=
  (topLevelWord lower (ascii "where")).map fun at' =>
    trimEnd (trimEndMatches semicolon (trimEnd (stmt.drop at')))

/-- The query whose row count is to be the number of rows `sql` would affect. -/
def countPreflight (sql : Bytes) (d : Dialect) : Option Bytes :=
  match runnableStatements sql d with
  | [stmt] =>
    let lower := copy d stmt
    if [ascii "returning", ascii "using", ascii "join"].any fun word =>
        (topLevelWord lower word).isSome then none
    else (targetObject stmt).bind fun table =>
      if firstKeyword lower == ascii "update" then
        if (topLevelWord lower (ascii "from")).isSome then none
        else (topLevelWord lower (ascii "set")).bind fun setAt =>
          -- a comma behind the `SET` is one of the assignments
          if (topLevelComma lower).any fun comma => decide (comma < setAt) then none
          else some (selectOver table (whereTail stmt lower))
      else if firstKeyword lower == ascii "delete" then
        some (selectOver table (whereTail stmt lower))
      else if firstKeyword lower == ascii "truncate" then
        if (topLevelComma lower).isNone then some (selectOver table none) else none
      else if firstKeyword lower == ascii "drop" then
        if wordAt lower 1 == ascii "table" && (topLevelComma lower).isNone then
          some (selectOver table none)
        else none
      else none
  | _ => none

/-! ## Statements with a second table -/

/-- A second table, by the words that bring one in: a `JOIN` or a `USING`, and in an `UPDATE` a
`FROM` or a comma in front of the `SET`. -/
def Joins (d : Dialect) (stmt : Bytes) : Prop :=
  (topLevelWord (copy d stmt) (ascii "join")).isSome = true ∨
    (topLevelWord (copy d stmt) (ascii "using")).isSome = true ∨
    firstKeyword (copy d stmt) = ascii "update" ∧
      ((topLevelWord (copy d stmt) (ascii "from")).isSome = true ∨
        ∃ setAt ∈ topLevelWord (copy d stmt) (ascii "set"),
          ∃ comma ∈ topLevelComma (copy d stmt), comma < setAt)

/-- A statement with a second table is declined. -/
theorem countPreflight_joins {sql stmt : Bytes} {d : Dialect}
    (hsql : runnableStatements sql d = [stmt]) (h : Joins d stmt) : countPreflight sql d = none := by
  unfold countPreflight
  rw [hsql]
  dsimp only
  split
  · rfl
  rename_i hwords
  simp only [List.any_cons, List.any_nil, Bool.or_false, Bool.or_eq_true, not_or] at hwords
  rcases h with hjoin | husing | ⟨hupdate, hsecond⟩
  · exact absurd hjoin hwords.2.2
  · exact absurd husing hwords.2.1
  · rw [Option.bind_eq_none_iff]
    intro table _
    rw [hupdate, if_pos (beq_self_eq_true _)]
    split
    · rfl
    rename_i hfrom
    obtain ⟨setAt, hset, comma, hcomma, hlt⟩ := hsecond.resolve_left hfrom
    rw [Option.mem_def.mp hset, Option.bind_some, Option.mem_def.mp hcomma, Option.any_some,
      decide_eq_true hlt, if_pos rfl]

/-! ## The counting query -/

/-- The query that counts the rows of a table that pass a filter. -/
structure CountQuery where
  table : Name
  filter : Option Bytes

namespace CountQuery

/-- Its text, with the filter as it was laid out. -/
def text (l : Layout) (q : CountQuery) : Bytes :=
  selectOver q.table.text
    (q.filter.map fun p => spaced (l.word .whereRows) (l.piece .predicate p))

/-- Its rows: those of the whole table, known to the filter by its own name. -/
def selection (q : CountQuery) : Selection :=
  { source := { only := false, table := q.table, partition := none }
    scope := q.table.last
    filter := q.filter
    order := none
    limit := none }

end CountQuery

/-- The number of rows of a selection. -/
def Engine.count {Db Row : Type} (e : Engine Db Row) (db : Db) (s : Selection) : Option Nat :=
  (e.chosen db s).map List.length

namespace Write

/-- The statement takes its rows in a way that no plain query does. -/
def Unreproducible (w : Write) : Prop :=
  w.order.isSome = true ∨ w.limit.isSome = true ∨ w.only = true ∨ w.partition.isSome = true ∨
    w.returning.isSome = true

/-- What is promised of the count: a query over some table with the statement's filter that
on every engine and in every state of its database counts the rows the statement touches; and
no query for a statement it cannot reproduce. -/
def Counted (d : Dialect) (l : Layout) (w : Write) (sql : Bytes) : Prop :=
  (∀ q, countPreflight sql d = some q → ∃ table : Name, table.WellFormed ∧
    q = ({ table := table, filter := w.filter } : CountQuery).text l ∧
      ∀ (Db Row : Type) (e : Engine Db Row) (db : Db) (n : Nat),
        e.count db w.selection = some n →
          e.count db ({ table := table, filter := w.filter } : CountQuery).selection = some n) ∧
    (w.Unreproducible → countPreflight sql d = none)

/-- The statements that are declined: those with a `RETURNING`, a `DELETE` with a modifier, an
`UPDATE` that says `FROM`, and a name of which nothing can be read. -/
def Declined (d : Dialect) (w : Write) : Prop :=
  w.returning.isSome = true ∨ (w.assignments = none ∧ w.modifiers ≠ []) ∨
    (w.assignments.isSome = true ∧ ((∃ a ∈ w.assignments,
      (topLevelWord (copy d a) (ascii "from")).isSome = true) ∨
        ∃ p ∈ w.filter, (topLevelWord (copy d p) (ascii "from")).isSome = true)) ∨
    (w.modifiers = [] ∧ BreaksOff w.table.first w.table.rest)

/-- The predicate means the same whether it knows the table by its alias or by its name. -/
def KeepsScope (w : Write) : Prop :=
  ∀ a ∈ w.called, ∀ p ∈ w.filter,
    a.2.inner = w.table.last ∨ (¬ Mentions a.2.inner p ∧ ¬ Mentions w.table.last p)

/-- The statements whose table and filter say all: the whole of a table that is read whole. -/
structure Kept (w : Write) : Prop where
  modifiers : w.modifiers = []
  only : w.only = false
  partition : w.partition = none
  whole : w.table.first.Whole ∧ ∀ p ∈ w.table.rest, p.Whole
  scope : w.KeepsScope

/-- The statements a plain query can count. -/
structure Plain (w : Write) : Prop extends Kept w where
  order : w.order = none
  limit : w.limit = none

end Write

/-! ## What is made of a statement -/

namespace Write

section Text

variable {d : Dialect} {l : Layout} {w : Write} (hl : l.WellFormed d) (hw : w.WellFormed d)

include hl hw

theorem no_second_table {word : Bytes} (hword : word = ascii "join" ∨ word = ascii "using") :
    topLevelWord (copy d (w.text l)) word = none := by
  rcases hword with rfl | rfl <;>
    exact text_quiet hl hw (by decide) (absurd · (by decide)) (absurd · (by decide)) (absurd · (by decide))
      (absurd · (by decide)) (absurd · (by decide)) (absurd · (by decide))

theorem returning_isSome :
    (topLevelWord (copy d (w.text l)) (ascii "returning")).isSome = w.returning.isSome := by
  cases hreturning : w.returning with
  | none =>
    rw [text_quiet hl hw (by decide) (absurd · (by decide)) (absurd · (by decide)) (absurd · (by decide))
      (absurd · (by decide)) (absurd · (by decide)) fun _ => hreturning]
    rfl
  | some t =>
    refine text_says hl hw (p := ((l.gap .returning).blank, t)) ?_ ?_
    · unfold pieces tail
      rw [hreturning]
      simp only [List.mem_append, Layout.optional, Option.elim_some]
      exact Or.inr (Or.inr (Or.inr (Or.inr (Or.inr (Or.inr (Or.inr (mem_piece l .returning t)))))))
    · rw [(hw.returning t hreturning).leads]
      rfl

theorem declining_words : ([ascii "returning", ascii "using", ascii "join"].any fun word =>
    (topLevelWord (copy d (w.text l)) word).isSome) = w.returning.isSome := by
  rw [List.any_cons, List.any_cons, List.any_cons, List.any_nil, returning_isSome hl hw,
    no_second_table hl hw (Or.inr rfl), no_second_table hl hw (Or.inl rfl)]
  simp

/-- An `UPDATE` says `FROM` where an assignment or its filter does. -/
theorem from_isSome {a : Bytes} (hset : w.assignments = some a) :
    (topLevelWord (copy d (w.text l)) (ascii "from")).isSome = true ↔
      (∃ a ∈ w.assignments, (topLevelWord (copy d a) (ascii "from")).isSome = true) ∨
        ∃ p ∈ w.filter, (topLevelWord (copy d p) (ascii "from")).isSome = true := by
  constructor
  · intro h
    refine Classical.byContradiction fun hno => ?_
    rw [not_or] at hno
    have hquiet : ∀ o : Option Bytes,
        (¬ ∃ t ∈ o, (topLevelWord (copy d t) (ascii "from")).isSome = true) →
          ∀ t ∈ o, topLevelWord (copy d t) (ascii "from") = none := by
      intro o ho t ht
      cases hfound : topLevelWord (copy d t) (ascii "from") with
      | none => rfl
      | some n => exact absurd ⟨t, ht, by rw [hfound]; rfl⟩ ho
    rw [text_quiet hl hw (by decide) (absurd · (by decide))
      (fun _ => ⟨by rw [hset]; rfl, hquiet _ hno.1, hquiet _ hno.2⟩) (absurd · (by decide))
      (absurd · (by decide)) (absurd · (by decide)) (absurd · (by decide))] at h
    exact Bool.noConfusion h
  · rintro (⟨b, hb, hsaid⟩ | ⟨p, hp, hsaid⟩)
    · refine text_says hl hw (p := ((l.gap .assignments).blank, b)) ?_ hsaid
      unfold pieces setClause
      rw [Option.mem_def.mp hb]
      simp only [List.mem_append, Option.elim_some]
      exact Or.inr (Or.inr (Or.inr (Or.inl (Or.inr (mem_piece l .assignments b)))))
    · refine text_says hl hw (p := ((l.gap .predicate).blank, p)) ?_ hsaid
      unfold pieces whereClause
      rw [Option.mem_def.mp hp]
      simp only [List.mem_append, Option.elim_some]
      exact Or.inr (Or.inr (Or.inr (Or.inr (Or.inl (Or.inr (mem_piece l .predicate p))))))

/-- **A statement that is declined.** -/
theorem countPreflight_declined {sql : Bytes} (hsql : runnableStatements sql d = [w.text l])
    (h : w.Declined d) : countPreflight sql d = none := by
  have hfirst := firstKeyword_script hl hw stretched_nil
  rw [script_nil] at hfirst
  unfold countPreflight
  rw [hsql]
  dsimp only
  rw [declining_words hl hw, targetObject_text hl hw, hfirst]
  rcases h with hreturning | ⟨hdelete, hmodifiers⟩ | ⟨hupdate, hfrom⟩ | ⟨hnone, hbreaks⟩
  · rw [if_pos hreturning]
  · rw [objectRead_eq_none_iff.mpr (Or.inl ⟨hdelete, hmodifiers⟩)]
    split <;> rfl
  · obtain ⟨a, hset⟩ := Option.isSome_iff_exists.mp hupdate
    have hverb : (w.verb.name == ascii "update") = true := by
      rw [verb, hset]
      rfl
    by_cases hreturning : w.returning.isSome = true
    · rw [if_pos hreturning]
    · rw [if_neg hreturning, Option.bind_eq_none_iff]
      intro table _
      rw [if_pos hverb, if_pos ((from_isSome hl hw hset).mpr hfrom)]
  · rw [objectRead_eq_none_iff.mpr (Or.inr ⟨hnone, hbreaks⟩)]
    split <;> rfl

/-- **A statement that is not declined** is rewritten. -/
theorem countPreflight_text {sql : Bytes} (hsql : runnableStatements sql d = [w.text l])
    (h : ¬ w.Declined d) : ∃ table ∈ w.objectRead, countPreflight sql d =
      some (selectOver table (whereTail (w.text l) (copy d (w.text l)))) := by
  unfold Declined at h
  rw [not_or, not_or, not_or] at h
  obtain ⟨hreturning, hdelete, hupdate, hbreaks⟩ := h
  obtain ⟨table, htable⟩ : ∃ table, w.objectRead = some table :=
    Option.ne_none_iff_exists'.mp fun hnone => (objectRead_eq_none_iff.mp hnone).elim hdelete hbreaks
  refine ⟨table, htable, ?_⟩
  have hfirst := firstKeyword_script hl hw stretched_nil
  rw [script_nil] at hfirst
  unfold countPreflight
  rw [hsql]
  dsimp only
  rw [declining_words hl hw, targetObject_text hl hw, hfirst, if_neg hreturning,
    htable, Option.bind_some]
  cases hset : w.assignments with
  | some a =>
    have hverb : (w.verb.name == ascii "update") = true := by
      rw [verb, hset]
      rfl
    have hfrom : ¬ (topLevelWord (copy d (w.text l)) (ascii "from")).isSome = true := by
      rw [from_isSome hl hw hset]
      exact fun hsaid => hupdate ⟨by rw [hset]; rfl, hsaid⟩
    rw [if_pos hverb, if_neg hfrom, set_at hl hw hset, Option.bind_some, no_comma_before hl hw hset,
      if_neg Bool.false_ne_true]
  | none =>
    have hverb : w.verb.name = ascii "delete" := by
      rw [verb, hset]
      rfl
    rw [hverb, if_neg (by decide), if_pos (by decide)]

/-- The tail of a statement that ends with its filter. -/
theorem whereTail_text (horder : w.order = none) (hlimit : w.limit = none)
    (hreturning : w.returning = none) : whereTail (w.text l) (copy d (w.text l)) =
      w.filter.map fun p => spaced (l.word .whereRows) (l.piece .predicate p) := by
  unfold whereTail
  cases hfilter : w.filter with
  | none =>
    rw [text_quiet hl hw (by decide) (absurd · (by decide)) (absurd · (by decide)) (fun _ => hfilter)
      (absurd · (by decide)) (absurd · (by decide)) (absurd · (by decide))]
    rfl
  | some p =>
    have hp := hw.filter p hfilter
    have htail : w.tail l = [] := by
      rw [tail, horder, hlimit, hreturning]
      rfl
    have hshape : spaced (l.word .whereRows) (l.piece .predicate p) =
        spaced (l.word .whereRows) (l.remarks .predicate) ++ (l.gap .predicate).blank :: p := by
      rw [Layout.piece_eq, spaced_append, spaced]
    have hascii : ∀ s ∈ separators, s < 0x80 := by decide
    have hkeep : trimEnd (spaced (l.word .whereRows) (l.piece .predicate p)) =
        spaced (l.word .whereRows) (l.piece .predicate p) := by
      rw [hshape]
      exact trimEnd_keep _ (hascii _ (hl.gap .predicate).blank) hp.nonempty (trimEnd_of_trim hp.trimmed)
    have hlast : (spaced (l.word .whereRows) (l.piece .predicate p)).getLast? ≠ some semicolon := by
      rw [hshape, List.getLast?_append_of_ne_nil _ (List.cons_ne_nil _ _)]
      obtain ⟨c, u, rfl⟩ := List.exists_cons_of_ne_nil hp.nonempty
      rw [List.getLast?_cons_cons]
      exact hp.noSemicolon
    have hat := where_at hl hw hfilter stretched_nil
    have hdrop := drop_where (l := l) hfilter []
    rw [script_nil] at hat hdrop
    rw [hat, Option.map_some, hdrop, htail, List.append_nil, List.append_nil, hkeep,
      trimEndMatches_keep hlast, hkeep, Option.map_some]

end Text

end Write

/-! ## Telling two selections apart -/

/-- An engine on which one table has a row, and no other. -/
def oneRow (source : TableRef) : Engine Unit Unit where
  rows _ r := some (if r = source then [()] else [])
  holds _ _ _ := some fun _ => true
  limited _ _ _ rows := some rows
  holds_unmentioned _ _ _ _ _ _ := rfl

theorem count_oneRow (source : TableRef) (s : Selection) :
    (oneRow source).count () s = some (if s.source = source then 1 else 0) := by
  have hfiltered : ∀ rows, (oneRow source).filtered () s.scope s.filter rows = some rows := by
    intro rows
    unfold Engine.filtered
    cases s.filter with
    | none => rfl
    | some p => simp [oneRow]
  have hcut : ∀ rows, (oneRow source).cut () s.order s.limit rows = some rows := by
    intro rows
    unfold Engine.cut
    cases s.limit with
    | none => rfl
    | some t => rfl
  have hrows : (oneRow source).rows () s.source =
      some (if s.source = source then [()] else []) := rfl
  rw [Engine.count, Engine.chosen, hrows, Option.bind_some, hfiltered, Option.bind_some, hcut]
  split <;> rfl

/-- An engine that understands the predicate `p` of some tables only, told by whether it knows
them under a name that `p` says. -/
def nameMatters (p name : Bytes) (understands : Bool → Bool) (h : Mentions name p) :
    Engine Unit Unit where
  rows _ _ := some [()]
  holds _ scope q := if q = p ∧ understands (decide (scope = name)) = false then none
    else some fun _ => true
  limited _ _ _ rows := some rows
  holds_unmentioned _ q s s' hs hs' := by
    by_cases hq : q = p
    · subst hq
      have hne : ∀ x, ¬ Mentions x q → decide (x = name) = false := by
        intro x hx
        rw [decide_eq_false_iff_not]
        rintro rfl
        exact hx h
      rw [hne s hs, hne s' hs']
    · rw [if_neg fun hc => hq hc.1, if_neg fun hc => hq hc.1]

theorem count_nameMatters {p name : Bytes} {understands : Bool → Bool} (h : Mentions name p)
    {s : Selection} (hfilter : s.filter = some p) (hlimit : s.limit = none) :
    (nameMatters p name understands h).count () s =
      if understands (decide (s.scope = name)) then some 1 else none := by
  have hcut : ∀ rows, (nameMatters p name understands h).cut () s.order s.limit rows = some rows := by
    intro rows
    unfold Engine.cut
    rw [hlimit]
  have hrows : (nameMatters p name understands h).rows () s.source = some [()] := rfl
  rw [Engine.count, Engine.chosen, hrows, Option.bind_some]
  unfold Engine.filtered
  rw [hfilter]
  unfold nameMatters
  dsimp only
  split
  · rename_i hno
    rw [if_neg (by rw [hno.2]; exact Bool.false_ne_true)]
    rfl
  rename_i hyes
  have hknown : understands (decide (s.scope = name)) = true := by
    cases hu : understands (decide (s.scope = name)) with
    | true => rfl
    | false => exact absurd ⟨rfl, hu⟩ hyes
  rw [if_pos hknown, Option.map_some, Option.bind_some]
  exact congrArg (Option.map List.length) (hcut _)

/-! ## Which statements are counted -/

namespace Write

/-- **The rows of a statement** whose table and filter say all are those of the query. -/
theorem Kept.chosen_eq {w : Write} (h : w.Kept) (hlimit : w.limit = none) {Db Row : Type}
    (e : Engine Db Row) (db : Db) : e.chosen db w.selection =
      e.chosen db ({ table := w.table, filter := w.filter } : CountQuery).selection := by
  have hsource : w.selection.source =
      ({ table := w.table, filter := w.filter } : CountQuery).selection.source := by
    unfold selection CountQuery.selection
    dsimp only
    rw [h.only, h.partition]
  have hfiltered : ∀ rows, e.filtered db w.scope w.filter rows =
      e.filtered db w.table.last w.filter rows := by
    intro rows
    unfold Engine.filtered
    cases hfilter : w.filter with
    | none => rfl
    | some p =>
      dsimp only
      refine congrArg (Option.map _) ?_
      unfold Write.scope
      cases hcalled : w.called with
      | none => rfl
      | some a =>
        rcases h.scope a hcalled p hfilter with hsame | ⟨halias, hname⟩
        · rw [Option.map_some, Option.getD_some, hsame]
        · exact e.holds_unmentioned db p _ _ halias hname
  have hcut : ∀ rows, e.cut db w.order w.limit rows = e.cut db none none rows := by
    intro rows
    rw [hlimit]
    rfl
  unfold Engine.chosen
  rw [hsource]
  refine congrArg _ (funext fun rows => ?_)
  unfold selection CountQuery.selection
  dsimp only
  rw [hfiltered]
  exact congrArg _ (funext hcut)

/-- **Engines tell a statement** from a query over what is read of it, unless its table and filter
say all. -/
theorem kept_of_counts {d : Dialect} {w : Write} (hw : w.WellFormed d) (hlimit : w.limit = none)
    {name : Name} (hread : w.objectRead = some name.text)
    (hcounts : ∀ (Db Row : Type) (e : Engine Db Row) (db : Db) (n : Nat),
      e.count db w.selection = some n →
        e.count db ({ table := name, filter := w.filter } : CountQuery).selection = some n) :
    w.Kept := by
  have hone := hcounts Unit Unit (oneRow w.selection.source) () 1 (by
    rw [count_oneRow, if_pos rfl])
  rw [count_oneRow] at hone
  have hsame : ({ table := name, filter := w.filter } : CountQuery).selection.source =
      w.selection.source := by
    by_cases heq : ({ table := name, filter := w.filter } : CountQuery).selection.source =
        w.selection.source
    · exact heq
    · rw [if_neg heq] at hone
      exact absurd (Option.some.inj hone) (by decide)
  have hname : name = w.table := congrArg TableRef.table hsame
  subst hname
  have hmodifiers : w.modifiers = [] := by
    cases hms : w.modifiers with
    | nil => rfl
    | cons m ms =>
      rw [objectRead, hms] at hread
      dsimp only at hread
      split at hread
      · have hm := (hw.modifiers m (by rw [hms]; exact List.mem_cons_self)).1
        rw [Option.some.inj hread] at hm
        exact absurd hm hw.table.notModifier
      · cases hread
  refine ⟨hmodifiers, (congrArg TableRef.only hsame).symm, (congrArg TableRef.partition hsame).symm,
    ?_, ?_⟩
  · rw [objectRead, hmodifiers] at hread
    exact spelled_eq_some_iff.mp hread
  · intro a ha p hp
    refine Classical.byContradiction fun hbad => ?_
    rw [not_or, not_and_or, Classical.not_not, Classical.not_not] at hbad
    obtain ⟨hne, hmentions⟩ := hbad
    have hscope : w.selection.scope = a.2.inner := by
      show w.scope = _
      rw [Write.scope, Option.mem_def.mp ha]
      rfl
    have hquery : ({ table := w.table, filter := w.filter } : CountQuery).selection.scope =
        w.table.last := rfl
    rcases hmentions with hsaid | hsaid
    · have hknown := hcounts Unit Unit (nameMatters p a.2.inner id hsaid) () 1 (by
        rw [count_nameMatters hsaid hp hlimit, hscope, decide_eq_true rfl]
        rfl)
      rw [count_nameMatters hsaid hp rfl, hquery, decide_eq_false fun heq => hne heq.symm] at hknown
      cases hknown
    · have hknown := hcounts Unit Unit (nameMatters p w.table.last not hsaid) () 1 (by
        rw [count_nameMatters hsaid hp hlimit, hscope, decide_eq_false hne]
        rfl)
      rw [count_nameMatters hsaid hp rfl, hquery, decide_eq_true rfl] at hknown
      cases hknown

section Counted

variable {d : Dialect} {l : Layout} {w : Write} {sql : Bytes} (hl : l.WellFormed d)
  (hw : w.WellFormed d) (hsql : runnableStatements sql d = [w.text l])

include hl hw hsql

theorem counted_of_declined (h : w.Declined d) : w.Counted d l sql := by
  have hnone := countPreflight_declined hl hw hsql h
  refine ⟨fun q hq => ?_, fun _ => hnone⟩
  rw [hnone] at hq
  cases hq

theorem counted_of_plain (hno : ¬ w.Declined d) (h : w.Plain) : w.Counted d l sql := by
  have hreturning : w.returning = none := by
    cases hr : w.returning with
    | none => rfl
    | some t => exact absurd (Or.inl (by rw [hr]; rfl)) hno
  obtain ⟨table, htable, hcount⟩ := countPreflight_text hl hw hsql hno
  have hname : table = w.table.text := by
    rw [objectRead, h.modifiers] at htable
    have hwhole : spelled w.table.first w.table.rest = some w.table.text :=
      spelled_eq_some_iff.mpr h.whole
    rw [Option.mem_def, hwhole] at htable
    exact (Option.some.inj htable).symm
  refine ⟨fun q hq => ⟨w.table, hw.table.wellFormed, ?_, fun Db Row e db n hn => ?_⟩, ?_⟩
  · rw [hcount, whereTail_text hl hw h.order h.limit hreturning, hname] at hq
    exact (Option.some.inj hq).symm
  · rw [Engine.count, ← h.chosen_eq h.limit]
    exact hn
  · rintro (horder | hlimit | honly | hpartition | hret)
    · rw [h.order] at horder
      exact Bool.noConfusion horder
    · rw [h.limit] at hlimit
      exact Bool.noConfusion hlimit
    · rw [h.only] at honly
      exact Bool.noConfusion honly
    · rw [h.partition] at hpartition
      exact Bool.noConfusion hpartition
    · rw [hreturning] at hret
      exact Bool.noConfusion hret

/-- **A statement that is counted** and not declined is a plain one: engines tell any other from
the query it becomes. -/
theorem plain_of_counted (hno : ¬ w.Declined d) (h : w.Counted d l sql) : w.Plain := by
  obtain ⟨table, htable, hcount⟩ := countPreflight_text hl hw hsql hno
  have hlisted : ¬ w.Unreproducible := by
    intro hun
    rw [h.2 hun] at hcount
    cases hcount
  unfold Unreproducible at hlisted
  rw [not_or, not_or, not_or, not_or] at hlisted
  obtain ⟨horder, hlimit, honly, hpartition, hreturning⟩ := hlisted
  have hnone : ∀ {o : Option Bytes}, ¬ o.isSome = true → o = none := by
    intro o ho
    cases o with
    | none => rfl
    | some t => exact absurd rfl ho
  have horder := hnone horder
  have hlimit := hnone hlimit
  obtain ⟨name, -, hquery, hcounts⟩ := h.1 _ hcount
  have htext : table = name.text := by
    rw [whereTail_text hl hw horder hlimit (hnone hreturning), CountQuery.text] at hquery
    dsimp only at hquery
    cases hfilter : w.filter with
    | none =>
      rw [hfilter, Option.map_none] at hquery
      exact List.append_cancel_left hquery
    | some p =>
      rw [hfilter, Option.map_some] at hquery
      exact List.append_cancel_right (List.append_cancel_left hquery)
  rw [Option.mem_def, htext] at htable
  exact ⟨kept_of_counts hw hlimit htable hcounts, horder, hlimit⟩

end Counted

end Write

/-- **Which statements are counted.** A statement with a second table is declined. Any other
`UPDATE` or `DELETE` gets a query that counts the rows it touches, and none where it takes them
as no query does, exactly if it is declined or is a plain one. -/
theorem countPreflight_counts_iff (d : Dialect) (sql : Bytes) :
    (∀ {stmt : Bytes}, runnableStatements sql d = [stmt] → Joins d stmt →
      countPreflight sql d = none) ∧ ∀ {l : Layout} {w : Write}, l.WellFormed d → w.WellFormed d →
      runnableStatements sql d = [w.text l] → (w.Counted d l sql ↔ w.Declined d ∨ w.Plain) := by
  refine ⟨countPreflight_joins, fun {l w} hl hw hsql => ⟨fun h => ?_, ?_⟩⟩
  · by_cases hno : w.Declined d
    · exact Or.inl hno
    · exact Or.inr (Write.plain_of_counted hl hw hsql hno h)
  · rintro (hdeclined | hplain)
    · exact Write.counted_of_declined hl hw hsql hdeclined
    · by_cases hno : w.Declined d
      · exact Write.counted_of_declined hl hw hsql hno
      · exact Write.counted_of_plain hl hw hsql hno hplain

/-- One space everywhere, and the keywords in lower case. -/
def oneSpace : Layout where
  lead := []
  gap _ := { comments := [], blank := space }
  word := Keyword.name

theorem oneSpace_wellFormed (d : Dialect) : oneSpace.WellFormed d :=
  ⟨fun c hc => absurd hc List.not_mem_nil,
    fun _ => ⟨show space ∈ separators by decide, fun c hc => absurd hc List.not_mem_nil⟩,
    fun k => by cases k <;> decide⟩

/-- `update t set a = 1 where b = 'x'` -/
def updateWhere : Write where
  assignments := some (ascii "a = 1")
  modifiers := []
  only := false
  table := { first := .bare (ascii "t"), rest := [] }
  partition := none
  called := none
  filter := some (ascii "b = 'x'")
  order := none
  limit := none
  returning := none

/-- A one-letter table of no word of the grammar. -/
theorem bareT_free (d : Dialect) : Name.Free d { first := .bare (ascii "t"), rest := [] } := by
  cases d <;> exact ⟨⟨by decide, by decide⟩, by decide, by decide,
    by decide, by decide, by decide⟩

theorem updateWhere_wellFormed : updateWhere.WellFormed .postgres where
  modifiers m hm := absurd hm List.not_mem_nil
  table := bareT_free _
  partition t ht := by cases ht
  called a ha := by cases ha
  assignments a ha := by
    obtain rfl := Option.some.inj ha
    exact ⟨⟨by decide, by decide⟩, by decide⟩
  filter p hp := by
    obtain rfl := Option.some.inj hp
    exact ⟨⟨by decide +kernel, by decide +kernel⟩, by decide +kernel, by decide +kernel, by decide,
      by decide⟩
  order t ht := by cases ht
  limit t ht := by cases ht
  returning t ht := by cases ht

theorem updateWhere_counted :
    updateWhere.Counted .postgres oneSpace (ascii "update t set a = 1 where b = 'x';") ∧
      countPreflight (ascii "delete from a using b where a.id = b.id") .postgres = none :=
  ⟨((countPreflight_counts_iff _ _).2 (oneSpace_wellFormed _) updateWhere_wellFormed
      (by decide +kernel)).mpr (Or.inr ⟨⟨rfl, rfl, rfl, by decide +kernel, fun a ha => by cases ha⟩, rfl, rfl⟩),
    (countPreflight_counts_iff _ _).1
      (show _ = [ascii "delete from a using b where a.id = b.id"] by decide) (Or.inr (Or.inl (by decide)))⟩

/-- `delete from t limit 1` -/
def deleteLimit : Write where
  assignments := none
  modifiers := []
  only := false
  table := { first := .bare (ascii "t"), rest := [] }
  partition := none
  called := none
  filter := none
  order := none
  limit := some (ascii "limit 1")
  returning := none

theorem deleteLimit_wellFormed : deleteLimit.WellFormed .mySql where
  modifiers m hm := absurd hm List.not_mem_nil
  table := bareT_free _
  partition t ht := by cases ht
  called a ha := by cases ha
  assignments a ha := by cases ha
  filter p hp := by cases hp
  order t ht := by cases ht
  limit t ht := by
    obtain rfl := Option.some.inj ht
    exact ⟨⟨by decide, by decide⟩, by decide, by decide, by decide⟩
  returning t ht := by cases ht

/-- Every table has two rows, and a limit leaves one of them. -/
def twoRows : Engine Unit Unit where
  rows _ _ := some [(), ()]
  holds _ _ _ := some fun _ => true
  limited _ _ _ rows := some (rows.take 1)
  holds_unmentioned _ _ _ _ _ _ := rfl

/-- A limit without a filter is lost: where one row goes, two are counted. -/
theorem deleteLimit_not_counted :
    deleteLimit.WellFormed .mySql ∧
      runnableStatements (ascii "delete from t limit 1") .mySql = [deleteLimit.text oneSpace] ∧
      countPreflight (ascii "delete from t limit 1") .mySql =
        some (({ table := deleteLimit.table, filter := none } : CountQuery).text oneSpace) ∧
      twoRows.count () deleteLimit.selection = some 1 ∧
      twoRows.count () ({ table := deleteLimit.table, filter := none } : CountQuery).selection =
        some 2 ∧
      ¬ deleteLimit.Counted .mySql oneSpace (ascii "delete from t limit 1") := by
  have hquery : countPreflight (ascii "delete from t limit 1") .mySql =
      some (({ table := deleteLimit.table, filter := none } : CountQuery).text oneSpace) := by
    decide
  refine ⟨deleteLimit_wellFormed, by decide, hquery, rfl, rfl, fun h => ?_⟩
  have hnone := h.2 (Or.inr (Or.inl rfl))
  rw [hquery] at hnone
  cases hnone

end RedDb.Sql
