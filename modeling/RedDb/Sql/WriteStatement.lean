import RedDb.Sql.Names

/-!
# RedDb — one UPDATE or DELETE, as an engine reads it

What the previews count is measured against what an engine does with the statement. A
statement on one table is the clauses the engines' grammars know (`Write`), written down with
any spelling of the keywords and any blanks and comments between two tokens (`Layout`). What
rows it touches is the engine's business (`Engine`): the rows of a table, the meaning of a
predicate and of a limit are its own, and only what every engine does with them is said here
(`Engine.chosen`).

* `Write`, `Write.text`   — a statement and its text;
* `Engine`, `Selection`   — an engine, and the rows that are selected;
* `Write.text_copy` — the copy of a statement is the copies of its clauses.
-/

namespace RedDb.Sql

open ByteText

/-! ## Rows -/

/-- A table as a statement refers to it: alone or with the tables that inherit from it, whole
or some of its partitions. -/
structure TableRef where
  only : Bool
  table : Name
  partition : Option Bytes
  deriving DecidableEq

/-- The rows a statement takes from a table. `scope` is the name by which its predicate knows
the table. -/
structure Selection where
  source : TableRef
  scope : Bytes
  filter : Option Bytes
  order : Option Bytes
  limit : Option Bytes

/-- The name stands in the text, as a whole word in any case. -/
def Mentions (name text : Bytes) : Prop :=
  ∃ pre post, Stands (asciiLower name) (asciiLower text) pre post

/-- What is an engine's own: the rows of a table, the predicates, the limits. A text without a
meaning is an error. -/
structure Engine (Db Row : Type) where
  rows : Db → TableRef → Option (List Row)
  holds : Db → Bytes → Bytes → Option (Row → Bool)
  limited : Db → Option Bytes → Bytes → List Row → Option (List Row)
  /-- The name of a table means nothing to a predicate that does not say it. -/
  holds_unmentioned : ∀ db p s s', ¬ Mentions s p → ¬ Mentions s' p → holds db s p = holds db s' p

namespace Engine

variable {Db Row : Type} (e : Engine Db Row) (db : Db)

/-- The rows that pass the filter. -/
def filtered (scope : Bytes) (filter : Option Bytes) (rows : List Row) : Option (List Row) :=
  match filter with
  | none => some rows
  | some p => (e.holds db scope p).map fun keeps => rows.filter keeps

/-- The rows that are left by the limit. -/
def cut (order limit : Option Bytes) (rows : List Row) : Option (List Row) :=
  match limit with
  | none => some rows
  | some l => e.limited db order l rows

/-- The rows of a selection. -/
def chosen (s : Selection) : Option (List Row) :=
  (e.rows db s.source).bind fun rows => (e.filtered db s.scope s.filter rows).bind fun kept =>
    e.cut db s.order s.limit kept

end Engine

/-! ## Statements -/

/-- One `UPDATE` or `DELETE` of one table: an `UPDATE` has assignments. The texts of `partition`,
`order`, `limit` and `returning` begin with their keywords; `called`, the alias, may stand behind `AS`. -/
structure Write where
  assignments : Option Bytes
  modifiers : List Bytes
  only : Bool
  table : Name
  partition : Option Bytes
  called : Option (Bool × NamePart)
  filter : Option Bytes
  order : Option Bytes
  limit : Option Bytes
  returning : Option Bytes

namespace Write

/-- The name by which the predicate knows the table. -/
def scope (w : Write) : Bytes := (w.called.map fun a => a.2.inner).getD w.table.last

/-- The rows the statement touches. -/
def selection (w : Write) : Selection :=
  { source := { only := w.only, table := w.table, partition := w.partition }
    scope := w.scope
    filter := w.filter
    order := w.order
    limit := w.limit }

end Write

/-- The words a statement is put together with. -/
inductive Keyword where
  | updateRows | deleteRows | fromTable | onlyTable | asName | setColumns | whereRows

def Keyword.name : Keyword → Bytes
  | updateRows => ascii "update"
  | deleteRows => ascii "delete"
  | fromTable => ascii "from"
  | onlyTable => ascii "only"
  | asName => ascii "as"
  | setColumns => ascii "set"
  | whereRows => ascii "where"

/-- The places that something stands in front of: one for each token. -/
inductive Slot where
  | modifier | fromTable | onlyTable | table | partition | asName | called | setColumns | assignments
  | whereRows | predicate | order | limit | returning

/-- What stands between two tokens: a blank, and comments with a blank in front of each. -/
structure Gap where
  comments : List (UInt8 × Comment)
  blank : UInt8

/-- How a statement is written down: the comments in front of it, what stands in front of each
token, and how the keywords are spelt. -/
structure Layout where
  lead : List (Comment × UInt8)
  gap : Slot → Gap
  word : Keyword → Bytes

namespace Layout

variable (l : Layout)

/-- A token, with what stands in front of it. -/
def piece (slot : Slot) (text : Bytes) : List (UInt8 × Bytes) :=
  ((l.gap slot).comments.map fun c => (c.1, c.2.text)) ++ [((l.gap slot).blank, text)]

def optional (slot : Slot) (text : Option Bytes) : List (UInt8 × Bytes) :=
  text.elim [] (l.piece slot)

end Layout

/-- A text behind comments. -/
@[grind =] def behind : List (Comment × UInt8) → Bytes → Bytes
  | [], b => b
  | (c, s) :: rest, b => c.text ++ s :: behind rest b

namespace Write

variable (l : Layout) (w : Write)

def verb : Keyword := if w.assignments.isSome then .updateRows else .deleteRows

/-- The tokens between the verb and the table. -/
def beforeTable : List (UInt8 × Bytes) :=
  w.modifiers.flatMap (l.piece .modifier) ++
    ((if w.assignments.isSome then [] else l.piece .fromTable (l.word .fromTable)) ++
      if w.only then l.piece .onlyTable (l.word .onlyTable) else [])

/-- The tokens behind the table that say what of it is meant, and how it is called. -/
def behindTable : List (UInt8 × Bytes) :=
  l.optional .partition w.partition ++
    w.called.elim [] fun a =>
      (if a.1 then l.piece .asName (l.word .asName) else []) ++ l.piece .called a.2.text

/-- The assignments of an `UPDATE`. -/
def setClause : List (UInt8 × Bytes) :=
  w.assignments.elim [] fun a =>
    l.piece .setColumns (l.word .setColumns) ++ l.piece .assignments a

/-- The predicate behind its `WHERE`. -/
def whereClause : List (UInt8 × Bytes) :=
  w.filter.elim [] fun p => l.piece .whereRows (l.word .whereRows) ++ l.piece .predicate p

/-- The clauses behind the `WHERE`. -/
def tail : List (UInt8 × Bytes) :=
  l.optional .order w.order ++ (l.optional .limit w.limit ++ l.optional .returning w.returning)

/-- The tokens of a statement behind its verb. -/
def pieces : List (UInt8 × Bytes) :=
  w.beforeTable l ++ (l.piece .table w.table.text ++ (w.behindTable l ++ (w.setClause l ++
    (w.whereClause l ++ w.tail l))))

/-- **The text** of a statement. -/
def text : Bytes := behind l.lead (spaced (l.word w.verb) (w.pieces l))

/-- The text of a statement, and what stands behind it. -/
def script (ending : List (UInt8 × Bytes)) : Bytes :=
  behind l.lead (spaced (l.word w.verb) (w.pieces l ++ ending))

end Write

/-! ## Well-formed statements -/

/-- The dialect reads blanks where the text stands. -/
def ReadsBlank (d : Dialect) (x : Bytes) : Prop := ∀ c ∈ copy d x, c ∈ separators

/-- Both lexers read the comment as one. -/
def Comment.WellFormed (d : Dialect) (c : Comment) : Prop :=
  c.Ends ∧ Settled d c.text ∧ ReadsBlank d c.text

structure Gap.WellFormed (d : Dialect) (g : Gap) : Prop where
  blank : g.blank ∈ separators
  comments : ∀ c ∈ g.comments, c.1 ∈ separators ∧ c.2.WellFormed d

structure Layout.WellFormed (d : Dialect) (l : Layout) : Prop where
  lead : ∀ c ∈ l.lead, c.1.WellFormed d ∧ c.2 ∈ separators
  gap : ∀ slot, (l.gap slot).WellFormed d
  word : ∀ k, asciiLower (l.word k) = k.name

/-- A text that is whole in itself: nothing is open where it ends, and no bracket. -/
def Balanced (d : Dialect) (x : Bytes) : Prop := Settled d x ∧ bracketDepth (copy d x) = 0

instance (d : Dialect) (x : Bytes) : Decidable (Balanced d x) :=
  inferInstanceAs (Decidable (_ ∧ _))

/-- The words stand nowhere in the text outside its brackets, its literals and its comments. -/
def Lacks (d : Dialect) (words : List Bytes) (x : Bytes) : Prop :=
  ∀ word ∈ words, topLevelWord (copy d x) word = none

instance (d : Dialect) (words : List Bytes) (x : Bytes) : Decidable (Lacks d words x) :=
  inferInstanceAs (Decidable (∀ word ∈ words, _ = _))

/-- The words that begin the clauses, and those that bring in another table. -/
def clauseWords : List Bytes :=
  [ascii "where", ascii "set", ascii "from", ascii "join", ascii "using", ascii "order",
    ascii "limit", ascii "returning"]

/-- Those of them that no expression has outside its brackets: `IS DISTINCT FROM` is one. -/
def expressionLacks : List Bytes :=
  [ascii "where", ascii "set", ascii "join", ascii "using", ascii "order", ascii "limit",
    ascii "returning"]

/-- The words some engine takes between the verb and the table, other than `ONLY`. -/
def modifierWords : List Bytes :=
  [ascii "low_priority", ascii "quick", ascii "ignore", ascii "or", ascii "rollback",
    ascii "abort", ascii "replace", ascii "fail"]

/-- The words the extractor passes over in front of a name. -/
def skippedWords : List Bytes :=
  [ascii "table", ascii "if", ascii "exists", ascii "only", ascii "concurrently"]

/-- The text begins with a letter. -/
def Lettered (x : Bytes) : Prop := ∃ c ∈ x.head?, isAsciiAlphabetic c = true

instance (x : Bytes) : Decidable (Lettered x) := inferInstanceAs (Decidable (∃ c ∈ x.head?, _))

/-- A text inside a statement: whole in itself, and without the `;` that ends it. -/
structure Enclosed (d : Dialect) (x : Bytes) : Prop where
  balanced : Balanced d x
  noEnd : semicolon ∉ copy d x

/-- A name that is no word of the grammar: neither where it stands nor in part. -/
structure Name.Free (d : Dialect) (n : Name) : Prop extends Enclosed d n.text where
  wellFormed : n.WellFormed
  lacks : Lacks d clauseWords n.text
  noComma : topLevelComma (copy d n.text) = none
  notSkipped : asciiLower n.first.spelled ∉ skippedWords
  notModifier : asciiLower n.text ∉ modifierWords

/-- The text of a clause between the table and the `WHERE`. -/
structure RefText (d : Dialect) (x : Bytes) : Prop extends Enclosed d x where
  lacks : Lacks d clauseWords x
  noComma : topLevelComma (copy d x) = none

/-- A clause behind the `WHERE`, by the word it begins with. -/
structure ClauseText (d : Dialect) (word : Bytes) (x : Bytes) : Prop extends Enclosed d x where
  lettered : Lettered x
  leads : topLevelWord (copy d x) word = some 0
  lacks : Lacks d (clauseWords.filter fun k => k != word) x

/-- A predicate, as it stands between its `WHERE` and the next clause. -/
structure PredicateText (d : Dialect) (x : Bytes) : Prop extends Enclosed d x where
  lacks : Lacks d expressionLacks x
  trimmed : trim x = x
  nonempty : x ≠ []
  noSemicolon : x.getLast? ≠ some semicolon

/-- The grammar of a statement: each clause is whole, and is told from the next by its word. -/
structure Write.WellFormed (d : Dialect) (w : Write) : Prop where
  modifiers : ∀ m ∈ w.modifiers, asciiLower m ∈ modifierWords ∧ RefText d m
  table : w.table.Free d
  partition : ∀ t ∈ w.partition, Lettered t ∧ RefText d t
  called : ∀ a ∈ w.called, a.2.WellFormed ∧ RefText d a.2.text
  assignments : ∀ a ∈ w.assignments, Enclosed d a ∧ Lacks d expressionLacks a
  filter : ∀ p ∈ w.filter, PredicateText d p
  order : ∀ t ∈ w.order, ClauseText d (ascii "order") t
  limit : ∀ t ∈ w.limit, ClauseText d (ascii "limit") t
  returning : ∀ t ∈ w.returning, ClauseText d (ascii "returning") t

/-- What stands behind a statement: blanks, and behind a `;` whatever is balanced. -/
structure Ending (d : Dialect) (xs : List (UInt8 × Bytes)) : Prop where
  stretched : ∀ p ∈ xs, p.1 ∈ followers ∧ Balanced d p.2
  divided : ∃ blanks rest, xs = blanks ++ rest ∧ (∀ p ∈ blanks, p.1 ∈ separators ∧ p.2 = []) ∧
    (rest = [] ∨ ∃ y more, rest = (semicolon, y) :: more)

end RedDb.Sql
