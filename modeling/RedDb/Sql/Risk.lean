import Mathlib.Order.MinMax
import Mathlib.Order.Nat
import RedDb.Sql.Split

/-!
# RedDb — how dangerous a script is

`assess` grades a script by its most dangerous statement: it splits the text,
strips each statement, drops what has no leading word, and grades the rest by
the leading keyword. The reasons are data, as in the source; the object a
statement names is extracted by a small lexer of its own (`targetObject`).

* `gradeOne`, `assess`     — the grade of a statement and of a script;
* `le_assess_level`, `assess_level_le` — a script's level is the least bound of its
  statements' levels;
* `assess_safe_iff` — `safe` means that every statement is.
-/

namespace RedDb.Sql

open ByteText

/-! ## Levels and reasons -/

/-- How dangerous a statement, or a whole batch, is. -/
inductive RiskLevel where
  | safe | write | risky | critical
  deriving DecidableEq

namespace RiskLevel

def rank : RiskLevel → Nat
  | safe => 0
  | write => 1
  | risky => 2
  | critical => 3

theorem rank_injective : Function.Injective rank := by
  intro a b h
  cases a <;> cases b <;> first | rfl | cases h

instance : LinearOrder RiskLevel := LinearOrder.lift' rank rank_injective

theorem safe_le (l : RiskLevel) : safe ≤ l := Nat.zero_le _

end RiskLevel

inductive MutateVerb where
  | update | delete

inductive DropKind where
  | table | database | schema | view | index | other

/-- One reason a statement was graded above `safe`. -/
inductive Risk where
  | wholeTable (verb : MutateVerb) (table : Option Bytes)
  | alwaysTrue (verb : MutateVerb) (table : Option Bytes)
  | drops (object : DropKind) (name : Option Bytes)
  | truncates (table : Option Bytes)
  | dropsColumn (table : Option Bytes)
  | privilegeChange
  | opaqueExecution
  | merge (table : Option Bytes)
  | dataModifyingCte
  | hiddenInBatch (index total : Nat)

structure Assessment where
  level : RiskLevel
  risks : List Risk
  table : Option Bytes

/-- Whole-word tokens that make a statement a write though it leads with a read. -/
def writeTokens : List Bytes :=
  [ascii "insert", ascii "update", ascii "delete", ascii "merge", ascii "into", ascii "nextval",
    ascii "setval"]

/-- Server-side functions that write or read files from inside a `SELECT`. -/
def dangerousFns : List Bytes :=
  [ascii "lo_import", ascii "lo_export", ascii "pg_read_file", ascii "pg_read_binary_file",
    ascii "pg_ls_dir", ascii "pg_stat_file", ascii "pg_logical_emit_message", ascii "dblink",
    ascii "dblink_exec", ascii "dblink_open", ascii "dblink_send_query", ascii "pg_file_write",
    ascii "pg_file_unlink", ascii "pg_file_rename", ascii "load_file", ascii "sys_exec",
    ascii "sys_eval"]

/-! ## The object a statement names -/

/-- A token in the walk from a statement's verb to the object it names. -/
inductive Ref where
  | ident (text : Bytes)
  | dot
  | other
  deriving DecidableEq

/-- Tokenize a statement far enough to find the object its verb names. -/
@[grind =] def lexRefs : Nat → Bytes → List Ref
  | 0, _ => []
  | _, [] => []
  | fuel + 1, c :: rest =>
    if isAsciiWhitespace c then lexRefs fuel rest
    else if c == dash && rest.head? == some dash then
      lexRefs fuel ((c :: rest).dropWhile (· != newline))
    else if c == slash && rest.head? == some star then
      match findBytes [star, slash] (rest.drop 1) with
      | some off => lexRefs fuel (rest.drop (off + 3))
      | none => []
    else if c == singleQuote then
      .other :: lexRefs fuel ((rest.dropWhile (· != singleQuote)).drop 1)
    else if c == doubleQuote || c == backtick || c == 91 then
      let close := if c == 91 then 93 else c
      let name := rest.takeWhile (· != close)
      .ident (c :: (name ++ (rest.drop name.length).take 1)) :: lexRefs fuel (rest.drop (name.length + 1))
    else if isAsciiAlphabetic c || c == underscore then
      let word := (c :: rest).takeWhile isWordByte
      .ident word :: lexRefs fuel ((c :: rest).drop word.length)
    else (if c == dot then .dot else .other) :: lexRefs fuel rest

/-- Read a possibly qualified name from the front of `tokens`, as written. -/
def readRef : List Ref → Option Bytes
  | .ident w :: .dot :: rest => (readRef rest).map fun tail => w ++ [dot] ++ tail
  | .ident w :: _ => some w
  | _ => none

/-- Drop the modifiers that can stand between the verb and the name. -/
@[grind =] def dropModifiers : List Ref → List Ref
  | .ident w :: rest =>
    if [ascii "table", ascii "if", ascii "exists", ascii "only", ascii "concurrently"].contains
        (asciiLower w) then dropModifiers rest
    else .ident w :: rest
  | tokens => tokens

/-- The object a statement targets, as written; `none` for a shape the extractor
will not guess at. -/
def targetObject (stmt : Bytes) : Option Bytes :=
  let tokens := lexRefs stmt.length stmt
  let word (n : Nat) : Option Bytes :=
    match tokens[n]? with
    | some (.ident w) => some (asciiLower w)
    | _ => none
  match word 0 with
  | none => none
  | some verb =>
    if verb == ascii "update" || verb == ascii "truncate" then
      readRef (dropModifiers (tokens.drop 1))
    else if verb == ascii "insert" || verb == ascii "delete" || verb == ascii "merge" then
      if word 1 == some (ascii "into") || word 1 == some (ascii "from") then
        readRef (dropModifiers (tokens.drop 2))
      else none
    else if verb == ascii "drop" || verb == ascii "alter" then
      readRef (dropModifiers (tokens.drop 2))
    else none

/-! ## Grading -/

/-- The `n`th blank-separated word of a lower-cased, stripped statement. -/
def wordAt (lower : Bytes) (n : Nat) : Bytes := ((splitWhitespace lower)[n]?).getD []

/-- Whether the whole `WHERE` is one of the textbook always-true forms. -/
def alwaysTrueWhere (lower : Bytes) : Bool :=
  let tokens := splitWhitespace lower
  match tokens.dropWhile (· != ascii "where") with
  | [] => false
  | _ :: predicate =>
    [ascii "1=1", ascii "true", ascii "1<>0", ascii "1!=0"].contains predicate.flatten

/-- The first words of the statements an `EXPLAIN` may wrap. -/
def explainVerbs : List Bytes :=
  [ascii "select", ascii "insert", ascii "update", ascii "delete", ascii "merge", ascii "replace",
    ascii "with", ascii "create", ascii "drop", ascii "alter", ascii "truncate", ascii "call",
    ascii "values"]

/-- `innerStatementAt` from offset `i`. -/
@[grind =] def innerStatementFrom (stripped : Bytes) : Nat → Nat → Option Nat
  | 0, _ => none
  | fuel + 1, i =>
    match stripped[i]? with
    | none => none
    | some c =>
      if isWordByte c then
        if explainVerbs.any (eqIgnoreAsciiCase (slice stripped i (wordEnd stripped i))) then some i
        else innerStatementFrom stripped fuel (wordEnd stripped i)
      else innerStatementFrom stripped fuel (i + 1)

/-- The offset of the first word that begins a statement. -/
def innerStatementAt (stripped : Bytes) : Option Nat :=
  innerStatementFrom stripped (stripped.length + 1) 0

/-- A stripped statement as the graders read it: trimmed, without its final `;`,
in lower case. -/
def gradedText (stripped : Bytes) : Bytes :=
  asciiLower (trim (trimEndMatches semicolon (trim stripped)))

/-- What a `DROP` drops, by its second word. -/
def dropKind (lower : Bytes) : DropKind :=
  let word := wordAt lower 1
  if word == ascii "table" then .table
  else if word == ascii "database" then .database
  else if word == ascii "schema" then .schema
  else if word == ascii "view" then .view
  else if word == ascii "index" then .index
  else .other

/-- Dropping rows is worse than dropping a definition. -/
def DropKind.level : DropKind → RiskLevel
  | .table | .database | .schema => .critical
  | .view | .index | .other => .risky

/-- The arms of every leading keyword but `EXPLAIN`. -/
def gradeKeyed (lower : Bytes) (table : Option Bytes) : RiskLevel × List Risk :=
  let key := firstKeyword lower
  if key == ascii "select" || key == ascii "values" || key == ascii "pragma" then (.safe, [])
  else if key == ascii "with" then
    if [ascii "insert", ascii "update", ascii "delete", ascii "merge"].any (hasWord lower) then
      (.risky, [.dataModifyingCte])
    else (.safe, [])
  else if key == ascii "insert" || key == ascii "replace" then (.write, [])
  else if key == ascii "update" || key == ascii "delete" then
    let verb := if key == ascii "update" then MutateVerb.update else MutateVerb.delete
    if !hasWord lower (ascii "where") then (.risky, [.wholeTable verb table])
    else if alwaysTrueWhere lower then (.risky, [.alwaysTrue verb table])
    else (.write, [])
  else if key == ascii "merge" then (.risky, [.merge table])
  else if key == ascii "truncate" then (.critical, [.truncates table])
  else if key == ascii "drop" then
    ((dropKind lower).level, [.drops (dropKind lower) table])
  else if key == ascii "alter" then
    if hasWord lower (ascii "drop") then (.risky, [.dropsColumn table]) else (.write, [])
  else if key == ascii "create" then
    if wordAt lower 1 == ascii "user" || wordAt lower 1 == ascii "role" then
      (.risky, [.privilegeChange])
    else (.write, [])
  else if key == ascii "grant" || key == ascii "revoke" then (.risky, [.privilegeChange])
  else if key == ascii "call" || key == ascii "do" || key == ascii "exec" ||
      key == ascii "execute" then (.risky, [.opaqueExecution])
  else (.write, [])

/-- Grade one statement, given its stripped copy. The recursion is that of
`EXPLAIN ANALYZE` into the statement it wraps. -/
@[grind =] def assessOne : Nat → Bytes → Bytes → RiskLevel × List Risk
  | 0, _, _ => (.write, [])
  | fuel + 1, stmt, stripped =>
    if firstKeyword (gradedText stripped) == ascii "explain" then
      if !hasWord (gradedText stripped) (ascii "analyze") then (.safe, [])
      else match innerStatementAt stripped with
        | some at' => assessOne fuel (stmt.drop at') (stripped.drop at')
        | none => (.write, [])
    else gradeKeyed (gradedText stripped) (targetObject stmt)

/-- The grade of one statement of a script. -/
def gradeOne (d : Dialect) (stmt : Bytes) : RiskLevel × List Risk :=
  assessOne (stmt.length + 1) stmt (stripNoise stmt d)

/-- The statements `assess` grades: those whose stripped copy has a leading word. -/
def runnableStatements (sql : Bytes) (d : Dialect) : List Bytes :=
  (splitStatements sql d).filter fun stmt => !(firstKeyword (stripNoise stmt d)).isEmpty

/-- Grade a script by its most dangerous statement. -/
def assess (sql : Bytes) (d : Dialect) : Assessment :=
  let statements := runnableStatements sql d
  let total := statements.length
  let graded := statements.map (gradeOne d)
  { level := graded.foldl (fun level g => max level g.1) .safe
    risks := (graded.zipIdx.map fun (g, index) =>
      (if 1 < total && decide (RiskLevel.risky ≤ g.1) then [Risk.hiddenInBatch index total]
        else []) ++ g.2).flatten
    table := match statements with
      | [only] => targetObject only
      | _ => none }

/-! ## The level of a script -/

theorem foldl_max_le {grades : List (RiskLevel × List Risk)} {l m : RiskLevel} :
    grades.foldl (fun level g => max level g.1) l ≤ m ↔ l ≤ m ∧ ∀ g ∈ grades, g.1 ≤ m := by
  induction grades generalizing l with
  | nil => simp
  | cons g grades ih =>
    rw [List.foldl_cons, ih, max_le_iff, List.forall_mem_cons, and_assoc]

/-- The level bounds the grade of every runnable statement, and is the least such bound. -/
theorem assess_level_le {sql : Bytes} {d : Dialect} {m : RiskLevel} :
    (assess sql d).level ≤ m ↔ ∀ stmt ∈ runnableStatements sql d, (gradeOne d stmt).1 ≤ m := by
  unfold assess
  rw [foldl_max_le, List.forall_mem_map]
  exact and_iff_right (RiskLevel.safe_le m)

theorem le_safe_iff {l : RiskLevel} : l ≤ .safe ↔ l = .safe :=
  ⟨fun h => le_antisymm h (RiskLevel.safe_le l), fun h => h ▸ le_refl _⟩

/-- A script is `safe` exactly when all its runnable statements are. -/
theorem assess_safe_iff {sql : Bytes} {d : Dialect} : (assess sql d).level = .safe ↔
      ∀ stmt ∈ runnableStatements sql d, (gradeOne d stmt).1 = .safe := by
  rw [← le_safe_iff, assess_level_le]
  simp only [le_safe_iff]

end RedDb.Sql
