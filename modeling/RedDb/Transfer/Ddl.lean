import RedDb.Sql.Passages
import RedDb.Transfer.Plan

/-!
# RedDb — the statements that change a schema

One builder per statement, shared by the drivers that execute it and the preview that shows it;
they differ in the quoter they pass. ClickHouse alone builds its own `CREATE TABLE`, and clears a
table with `TRUNCATE`.

* `chCreateTableSql_ne` — no table is created by the same text in both ways.
-/

namespace RedDb.Transfer

open ByteText RedDb.Driver RedDb.Schema
open RedDb.Sql (DbKind doubled quotedBy)

section Builders

variable (quote : Bytes → Bytes)

/-- `schema.name`, or the name alone. -/
def qualifyTable (t : TableRef) : Bytes :=
  match t.schema with
  | some s => if s.isEmpty then quote t.name else quote s ++ [dot] ++ quote t.name
  | none => quote t.name

def quotedList (names : List Bytes) : Bytes := List.intercalate (ascii ", ") (names.map quote)

/-- In SQLite the only key column numbers itself inline, and is then no part of a key clause. -/
def sqliteInlinePk (columns : List ColumnMeta) (kind : DbKind) : Bool :=
  kind == .sqlite && (columns.filter ColumnMeta.primaryKey).length == 1 &&
    columns.any fun c => c.primaryKey && c.autoIncrement

/-- An auto-increment column, spelled per dialect. -/
def autoIncrementDef (c : ColumnMeta) (inline : Bool) : DbKind → Bytes
  | .sqlite =>
    if inline && c.primaryKey then quote c.name ++ ascii " INTEGER PRIMARY KEY"
    else quote c.name ++ ascii " INTEGER"
  | .postgres =>
    quote c.name ++ [space] ++
      (if normalize c.declared = .bigInt then ascii "bigserial" else ascii "serial")
  | .mysql => quote c.name ++ [space] ++ spell .mysql (normalize c.declared) ++ ascii " AUTO_INCREMENT"
  | kind => quote c.name ++ [space] ++ spell kind (normalize c.declared)

/-- The default of a column, trimmed; an empty one is none. -/
def defaultClause (c : ColumnMeta) : Bytes :=
  match c.default.map trim with
  | some d => if d.isEmpty then [] else ascii " DEFAULT " ++ d
  | none => []

def columnDef (c : ColumnMeta) (inline : Bool) (kind : DbKind) : Bytes :=
  if c.autoIncrement then autoIncrementDef quote c inline kind
  else quote c.name ++ [space] ++ spell kind (normalize c.declared) ++
    (if c.notNull then ascii " NOT NULL" else []) ++ defaultClause c

def keyClause (columns : List ColumnMeta) (kind : DbKind) : List Bytes :=
  if (columns.filter ColumnMeta.primaryKey).isEmpty || sqliteInlinePk columns kind then []
  else [ascii "PRIMARY KEY (" ++
    quotedList quote ((columns.filter ColumnMeta.primaryKey).map ColumnMeta.name) ++ ascii ")"]

def createTableSql (t : TableRef) (columns : List ColumnMeta) (kind : DbKind) : Bytes :=
  ascii "CREATE TABLE IF NOT EXISTS " ++ qualifyTable quote t ++ ascii " (" ++
    List.intercalate (ascii ", ")
      (columns.map (fun c => columnDef quote c (sqliteInlinePk columns kind) kind) ++
        keyClause quote columns kind) ++ ascii ")"

/-- MySQL has no `IF NOT EXISTS` here; SQLite puts the schema on the index. -/
def createIndexSql (t : TableRef) (name : Bytes) (unique : Bool) (columns : List Bytes) (kind : DbKind) :
    Bytes :=
  ascii "CREATE " ++ (if unique then ascii "UNIQUE " else []) ++ ascii "INDEX " ++
    (if kind = .mysql then [] else ascii "IF NOT EXISTS ") ++
    (if kind = .sqlite then qualifyTable quote ⟨t.schema, name⟩ ++ ascii " ON " ++ quote t.name
      else quote name ++ ascii " ON " ++ qualifyTable quote t) ++
    ascii " (" ++ quotedList quote columns ++ ascii ")"

def addFkSql (child : TableRef) (columns : List Bytes) (parent : TableRef) (refColumns : List Bytes) :
    Bytes :=
  ascii "ALTER TABLE " ++ qualifyTable quote child ++ ascii " ADD FOREIGN KEY (" ++
    quotedList quote columns ++ ascii ") REFERENCES " ++ qualifyTable quote parent ++ ascii " (" ++
    quotedList quote refColumns ++ ascii ")"

def dropTableSql (t : TableRef) : Bytes := ascii "DROP TABLE IF EXISTS " ++ qualifyTable quote t

/-- ClickHouse has an engine and a sort key, and wraps what may be null. -/
def chColumnDef (c : ColumnMeta) : Bytes :=
  let ty := spell .clickhouse (normalize c.declared)
  quote c.name ++ [space] ++ if c.notNull then ty else ascii "Nullable(" ++ ty ++ ascii ")"

def chCreateTableSql (t : TableRef) (columns : List ColumnMeta) : Bytes :=
  let keys := columns.filter ColumnMeta.primaryKey
  ascii "CREATE TABLE IF NOT EXISTS " ++ qualifyTable quote t ++ ascii " (" ++
    List.intercalate (ascii ", ") (columns.map (chColumnDef quote)) ++
    ascii ") ENGINE = MergeTree ORDER BY " ++
    (if keys.isEmpty then ascii "tuple()"
      else ascii "(" ++ quotedList quote (keys.map ColumnMeta.name) ++ ascii ")") ++
    (if keys.any fun c => !c.notNull then ascii " SETTINGS allow_nullable_key = 1" else [])

end Builders

/-- A default is the text of one engine. -/
def stripDefaults (columns : List ColumnMeta) : List ColumnMeta :=
  columns.map fun c => { c with default := none }

/-- Without keys there is no auto-numbering either. -/
def applyShapeOptions (columns : List ColumnMeta) (primaryKeys : Bool) : List ColumnMeta :=
  if primaryKeys then columns
  else columns.map fun c => { c with primaryKey := false, autoIncrement := false }

/-! ## The drivers -/

/-- `quote_ident` of an engine's driver; ClickHouse doubles backslashes too. -/
def quoteIdent : DbKind → Bytes → Bytes
  | .mysql, ident => quotedBy backtick ident
  | .clickhouse, ident => quotedBy backtick (doubled backslash ident)
  | _, ident => quotedBy doubleQuote ident

def quoteTable (kind : DbKind) (t : TableRef) : Bytes := qualifyTable (quoteIdent kind) t

/-- What an engine's driver executes to create a table. -/
def createStatement (kind : DbKind) (t : TableRef) (columns : List ColumnMeta) : Bytes :=
  if kind = .clickhouse then chCreateTableSql (quoteIdent .clickhouse) t columns
  else createTableSql (quoteIdent kind) t columns kind

/-- What an engine's driver executes to clear a table. -/
def clearStatement (kind : DbKind) (t : TableRef) : Bytes :=
  if kind = .clickhouse then ascii "TRUNCATE TABLE " ++ quoteTable kind t
  else ascii "DELETE FROM " ++ quoteTable kind t

def dropStatement (kind : DbKind) (t : TableRef) : Bytes := dropTableSql (quoteIdent kind) t

/-- ClickHouse's driver creates no index. -/
def indexStatement (kind : DbKind) (t : TableRef) (name : Bytes) (unique : Bool) (columns : List Bytes) :
    Option Bytes :=
  if kind = .clickhouse then none else some (createIndexSql (quoteIdent kind) t name unique columns kind)

/-- SQLite's and ClickHouse's drivers add no foreign key. -/
def fkStatement (kind : DbKind) (child : TableRef) (columns : List Bytes) (parent : TableRef)
    (refColumns : List Bytes) : Option Bytes :=
  if kind = .clickhouse ∨ kind = .sqlite then none
  else some (addFkSql (quoteIdent kind) child columns parent refColumns)

/-! ## The two ways to create a table -/

/-- What ends a word of a column's definition. -/
def EndsWord (b : UInt8) : Prop := b = space ∨ b = comma ∨ b = closeParen

/-- What goes on with the end of a word does not go on with a word put before it. -/
theorem append_ne_word {word ty t u : Bytes} (hword : word ≠ []) (hplain : ∀ b ∈ word, ¬ EndsWord b)
    (ht : ∀ b, t.head? = some b → EndsWord b) : ty ++ t ≠ word ++ (ty ++ u) := by
  induction hn : ty.length using Nat.strong_induction_on generalizing ty with
  | _ n ih =>
    intro heq
    rcases List.append_eq_append_iff.mp heq with ⟨rest, hty, hrest⟩ | ⟨rest, hty, hrest⟩
    · -- The word reaches into what follows, which does not begin like one.
      cases rest with
      | nil =>
        rw [List.append_nil] at hty
        rw [List.nil_append, ← hty] at hrest
        obtain ⟨b, word, rfl⟩ := List.exists_cons_of_ne_nil hword
        exact hplain b (List.mem_cons_self ..) (ht b (by rw [hrest]; rfl))
      | cons b rest =>
        refine hplain b ?_ (ht b (by rw [hrest]; rfl))
        rw [hty]
        exact List.mem_append_right _ (List.mem_cons_self ..)
    · have hshorter : rest.length < n := by
        rw [hty, List.length_append] at hn
        have := List.length_pos_iff.mpr hword
        omega
      rw [hty, List.append_assoc] at hrest
      exact ih rest.length hshorter rfl hrest.symm

/-- What follows the first of some definitions: the others, and what closes them. -/
def closing (close : Bytes) : List Bytes → Bytes
  | [] => close
  | x :: xs => ascii ", " ++ (List.intercalate (ascii ", ") (x :: xs) ++ close)

theorem intercalate_closing (x : Bytes) (xs : List Bytes) (close : Bytes) :
    List.intercalate (ascii ", ") (x :: xs) ++ close = x ++ closing close xs := by
  cases xs with
  | nil => rw [List.intercalate_singleton, closing]
  | cons y ys => rw [List.intercalate_cons_cons, List.append_assoc, List.append_assoc, closing]

theorem closing_head {close : Bytes} (hclose : ∀ b, close.head? = some b → EndsWord b) (xs : List Bytes) :
    ∀ b, (closing close xs).head? = some b → EndsWord b := by
  cases xs with
  | nil => exact hclose
  | cons x xs =>
    intro b hb
    exact Or.inr (Or.inl (Option.some.inj hb).symm)

theorem defaultClause_head {c : ColumnMeta} {t : Bytes} (ht : ∀ b, t.head? = some b → EndsWord b) :
    ∀ b, (defaultClause c ++ t).head? = some b → EndsWord b := by
  unfold defaultClause
  split
  · split
    · exact ht
    · exact fun b hb => Or.inl (Option.some.inj hb).symm
  · exact ht

/-- The two definitions of a column are the same only for one that numbers itself and holds no null. -/
theorem columnDef_ne {quote : Bytes → Bytes} {inline : Bool} {c : ColumnMeta} {t u : Bytes}
    (hc : ¬ (c.autoIncrement = true ∧ c.notNull = true)) (ht : ∀ b, t.head? = some b → EndsWord b)
    (hu : ∀ b, u.head? = some b → b = comma ∨ b = closeParen) :
    columnDef quote c inline .clickhouse ++ t ≠ chColumnDef quote c ++ u := by
  unfold columnDef chColumnDef autoIncrementDef
  dsimp only
  intro heq
  by_cases hnull : c.notNull = true
  · have hauto : ¬ c.autoIncrement = true := fun h => hc ⟨h, hnull⟩
    rw [if_neg hauto, if_pos hnull, if_pos hnull] at heq
    simp only [List.append_assoc] at heq
    have hrest := List.append_cancel_left (List.append_cancel_left (List.append_cancel_left heq))
    exact absurd (hu space (by rw [← hrest]; rfl)) (by decide)
  have hends : ∀ b, ((if c.autoIncrement then [] else defaultClause c) ++ t).head? = some b → EndsWord b := by
    split
    · exact ht
    · exact defaultClause_head ht
  have hne := @append_ne_word (ascii "Nullable(") (spell .clickhouse (normalize c.declared)) _
    (ascii ")" ++ u) (by decide) (by unfold EndsWord; decide) hends
  apply hne
  rw [if_neg hnull] at heq
  split at heq
  · rename_i hauto
    rw [if_pos hauto]
    simp only [List.append_assoc] at heq
    exact List.append_cancel_left (List.append_cancel_left heq)
  · rename_i hauto
    rw [if_neg hauto]
    simp only [List.append_assoc, List.nil_append] at heq
    exact List.append_cancel_left (List.append_cancel_left heq)

/-- The definitions of the columns with what closes them: neither form is ever the other's. -/
theorem columnDefs_ne (quote : Bytes → Bytes) (inline : Bool) (keys : List Bytes) {tail : Bytes}
    (htail : tail ≠ []) (columns : List ColumnMeta) (hcolumns : columns ≠ []) :
    List.intercalate (ascii ", ") (columns.map (fun c => columnDef quote c inline .clickhouse) ++ keys) ++
        ascii ")" ≠
      List.intercalate (ascii ", ") (columns.map (chColumnDef quote)) ++ (ascii ")" ++ tail) := by
  induction columns with
  | nil => exact absurd rfl hcolumns
  | cons c columns ih =>
    rw [List.map_cons, List.map_cons, List.cons_append, intercalate_closing, intercalate_closing]
    by_cases hc : c.autoIncrement = true ∧ c.notNull = true
    · have hsame : columnDef quote c inline .clickhouse = chColumnDef quote c := by
        unfold columnDef chColumnDef autoIncrementDef
        dsimp only
        rw [if_pos hc.1, if_pos hc.2]
      rw [hsame]
      intro heq
      have hrest := List.append_cancel_left heq
      cases columns with
      | nil =>
        cases keys with
        | nil => exact htail (List.cons.inj hrest).2.symm
        | cons key keys => exact absurd (List.cons.inj hrest).1 (by decide)
      | cons d columns =>
        rw [List.map_cons, List.map_cons, List.cons_append, closing, closing] at hrest
        exact ih (List.cons_ne_nil d columns) (List.append_cancel_left hrest)
    · refine columnDef_ne hc (closing_head (fun b hb => ?_) _) ?_
      · exact Or.inr (Or.inr (Option.some.inj hb).symm)
      · cases columns with
        | nil => exact fun b hb => Or.inr (Option.some.inj hb).symm
        | cons d columns => exact fun b hb => Or.inl (Option.some.inj hb).symm

/-- ClickHouse's driver never creates a table by the statement that the shared builder makes. -/
theorem chCreateTableSql_ne (quote : Bytes → Bytes) (t : TableRef) {columns : List ColumnMeta}
    (hcolumns : columns ≠ []) :
    createTableSql quote t columns .clickhouse ≠ chCreateTableSql quote t columns := by
  intro heq
  unfold createTableSql chCreateTableSql at heq
  dsimp only at heq
  simp only [List.append_assoc] at heq
  have hdefs := List.append_cancel_left (List.append_cancel_left (List.append_cancel_left heq))
  rw [show ascii ") ENGINE = MergeTree ORDER BY " = ascii ")" ++ ascii " ENGINE = MergeTree ORDER BY " from rfl,
    List.append_assoc] at hdefs
  exact columnDefs_ne quote _ _ (by simp [ascii]) columns hcolumns hdefs

end RedDb.Transfer
