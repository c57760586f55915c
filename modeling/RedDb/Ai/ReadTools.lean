import RedDb.Ai.Readers

/-!
# RedDb — the statements behind the read tools

`run_select`, `explain` and `suggest_index` send SQL that the agent wrote, without a
prompt. Its SELECT is judged by `is_read_only_select`, a plan that is to be measured
by `assess`, and any other plan by nothing; the driver then sends a text of its own,
with an EXPLAIN verb before it or a FORMAT clause behind. What the server makes of
that text is a `Server`, whose laws are what the engines document.

* `sends` — the statements a call may send;
* `runSelect_harmless` — a server that reads the text as the gate does;
* `plan_harmless` — and a plan of a text that asks for no ANALYZE;
* `harmless_iff` — exactly when none of the statements writes;
* `analyzeDelete_writes` — a plan that deletes.
-/

namespace RedDb.Ai

open ByteText RedDb.Sql

/-! ## The server -/

/-- What a server makes of a statement. `copy` is the statement with its literals,
quoted names and comments blanked as the server's lexer finds them; `writes` says that
it executes an INSERT, UPDATE, DELETE, MERGE or DDL statement; `analyzed` is the
statement that an EXPLAIN executes. `treeAnswers` says that MySQL's `FORMAT=TREE` form
of the plan has rows. -/
structure Server where
  copy : Bytes → Bytes
  writes : Bytes → Prop
  analyzed : Bytes → Option Bytes
  treeAnswers : Bytes → Bool

/-- One query, by its words: led by SELECT or WITH, and none of them writes. -/
def ReadsOnly (copy : Bytes) : Prop :=
  ∃ lead w rest mid tail k, ReadShape copy lead w rest mid tail k

/-- The first thing behind EXPLAIN is the word ANALYZE, or a list of options. -/
def asksAnalyze (copy : Bytes) : Bool :=
  let rest := trimStart (copy.drop (ascii "EXPLAIN").length)
  rest.head? == some openParen ||
    [ascii "analyze", ascii "analyse"].contains (asciiLower (rest.takeWhile isWordByte))

/-- What the engines document of queries and plans. Functions that a query calls do not
write, and no statement but a query begins like SELECT or WITH. -/
structure Server.Lawful (server : Server) (kind : DbKind) : Prop where
  query : ∀ stmt, ReadsOnly (server.copy stmt) → ¬server.writes stmt
  explain : ∀ stmt, ascii "EXPLAIN " <+: stmt →
    (server.writes stmt ↔ ∃ inner, server.analyzed stmt = some inner ∧ server.writes inner)
  option : ∀ stmt, (server.analyzed stmt).isSome → asksAnalyze (server.copy stmt) = true
  planOnly : kind = .sqlite ∨ kind = .clickhouse → ∀ stmt, server.analyzed stmt = none

/-! ## The tools -/

/-- The read tools whose SQL the agent writes. -/
inductive ReadTool where
  | runSelect
  | explain
  | suggestIndex

def toolSql (input : Json) : Bytes := trim (((input.get "sql").bind Json.asStr).getD [])

/-- The text behind the last line feed. -/
def lastLine (b : Bytes) : Bytes := (b.reverse.takeWhile fun c => c != newline).reverse

/-- `strip_trailing`: a comment on the last line is closed by a line feed. -/
def stripTrailing (sql : Bytes) : Bytes :=
  let trimmed := trim (stripSuffix semicolon (trim sql))
  if (findBytes (ascii "--") (lastLine trimmed)).isSome || (lastLine trimmed).contains hash then
    trimmed ++ [newline]
  else trimmed

def rowFormat : Bytes := ascii " FORMAT JSONCompactEachRowWithNamesAndTypes"

/-- `open_cursor`. -/
def selectSends (kind : DbKind) (sql : Bytes) : List Bytes :=
  match kind with
  | .postgres | .mysql | .sqlite => [sql]
  | .clickhouse => [stripTrailing sql ++ rowFormat]
  | .redis | .mongo => []

/-- The plan of each driver. MySQL's falls back on the plain verb. -/
def explainSends (server : Server) (kind : DbKind) (sql : Bytes) (analyze : Bool) : List Bytes :=
  let base := stripTrailing sql
  match kind with
  | .postgres => [(if analyze then ascii "EXPLAIN ANALYZE " else ascii "EXPLAIN ") ++ base]
  | .mysql =>
    if analyze then [ascii "EXPLAIN ANALYZE " ++ base]
    else if server.treeAnswers base then [ascii "EXPLAIN FORMAT=TREE " ++ base]
    else [ascii "EXPLAIN FORMAT=TREE " ++ base, ascii "EXPLAIN " ++ base]
  | .sqlite => [ascii "EXPLAIN QUERY PLAN " ++ base]
  | .clickhouse => [ascii "EXPLAIN " ++ base ++ rowFormat]
  | .redis | .mongo => []

def asksToRun (input : Json) : Bool := ((input.get "analyze").bind Json.asBool).getD false

section Tools

-- the counts that `run_select` adds to look for a join that multiplies rows
variable (probes : Bytes → List Bytes) (server : Server) (kind : DbKind)

/-- The statements of a call that passes its checks. -/
def toolSends (tool : ReadTool) (input : Json) : List Bytes :=
  match tool with
  | .runSelect => selectSends kind (toolSql input) ++ probes (toolSql input)
  | .explain => explainSends server kind (toolSql input) (asksToRun input)
  | .suggestIndex => explainSends server kind (toolSql input) false

/-- The checks. -/
def passes (tool : ReadTool) (input : Json) : Bool :=
  match tool with
  | .runSelect => isReadOnlySelect (toolSql input) (.of kind)
  | .explain => !(toolSql input).isEmpty &&
      (!asksToRun input || decide ((assess (toolSql input) (.of kind)).level = .safe))
  | .suggestIndex => !(toolSql input).isEmpty &&
      !(((input.get "table").bind Json.asStr).getD []).isEmpty

def sends (tool : ReadTool) (input : Json) : List Bytes :=
  if passes kind tool input then toolSends probes server kind tool input else []

def Harmless (tool : ReadTool) (input : Json) : Prop :=
  ∀ stmt ∈ sends probes server kind tool input, ¬server.writes stmt

/-- What has to come together for a statement to write. A SELECT that passed the gate
writes and is no query as the server reads it; a plan analyzes one that writes. -/
def SlipsBy (tool : ReadTool) (stmt : Bytes) : Prop :=
  match tool with
  | .runSelect => ¬ReadsOnly (server.copy stmt) ∧ server.writes stmt
  | .explain | .suggestIndex =>
    ∃ inner, server.analyzed stmt = some inner ∧ server.writes inner

def Slips (tool : ReadTool) (input : Json) : Prop :=
  passes kind tool input = true ∧
    ∃ stmt ∈ toolSends probes server kind tool input, SlipsBy server tool stmt

end Tools

/-! ## What is harmless -/

section Harmless

variable {probes : Bytes → List Bytes} {server : Server} {kind : DbKind} {tool : ReadTool}
  {input : Json}

theorem explainSends_verb {sql stmt : Bytes} {analyze : Bool}
    (h : stmt ∈ explainSends server kind sql analyze) : ascii "EXPLAIN " <+: stmt := by
  have hverb : ∀ {verb : Bytes} (rest : Bytes), ascii "EXPLAIN " <+: verb →
      ascii "EXPLAIN " <+: verb ++ rest := fun rest hv => hv.trans (List.prefix_append _ rest)
  have hplain : ascii "EXPLAIN " <+: ascii "EXPLAIN " := List.prefix_refl _
  have hanalyze : ascii "EXPLAIN " <+: ascii "EXPLAIN ANALYZE " := by decide
  have htree : ascii "EXPLAIN " <+: ascii "EXPLAIN FORMAT=TREE " := by decide
  unfold explainSends at h
  cases kind with
  | postgres =>
    rw [List.mem_singleton.mp h]
    cases analyze with
    | true => exact hverb _ hanalyze
    | false => exact hverb _ hplain
  | mysql =>
    cases analyze with
    | true =>
      rw [List.mem_singleton.mp h]
      exact hverb _ hanalyze
    | false =>
      simp only [Bool.false_eq_true, if_false] at h
      split at h
      · rw [List.mem_singleton.mp h]
        exact hverb _ htree
      rcases List.mem_cons.mp h with rfl | h
      · exact hverb _ htree
      · rw [List.mem_singleton.mp h]
        exact hverb _ hplain
  | sqlite =>
    rw [List.mem_singleton.mp h]
    exact hverb _ (by decide)
  | clickhouse =>
    rw [List.mem_singleton.mp h]
    exact hverb _ (hverb _ hplain)
  | redis | mongo => exact absurd h List.not_mem_nil

/-- A statement that the server reads as the gate has read the text writes nothing. -/
theorem runSelect_harmless (hlaw : server.Lawful kind) {stmt : Bytes}
    (hpasses : passes kind .runSelect input = true)
    (hsame : server.copy stmt = stripNoise (toolSql input) (.of kind)) : ¬server.writes stmt := by
  refine hlaw.query stmt ?_
  rw [hsame]
  exact readShape_of_gate hpasses

/-- A plan of a text that asks for no ANALYZE executes nothing. -/
theorem plan_harmless (hlaw : server.Lawful kind) {sql stmt : Bytes} {analyze : Bool}
    (hstmt : stmt ∈ explainSends server kind sql analyze)
    (hasks : asksAnalyze (server.copy stmt) = false) : ¬server.writes stmt := by
  rw [hlaw.explain stmt (explainSends_verb hstmt)]
  rintro ⟨inner, hinner, -⟩
  have hsome := hlaw.option stmt (hinner ▸ rfl)
  rw [hasks] at hsome
  exact Bool.false_ne_true hsome

/-- One statement of a call writes exactly where it slips. -/
theorem writes_iff_slip (hlaw : server.Lawful kind) {stmt : Bytes}
    (hstmt : stmt ∈ toolSends probes server kind tool input) :
    server.writes stmt ↔ SlipsBy server tool stmt := by
  cases tool with
  | runSelect => exact ⟨fun hw => ⟨fun hreads => hlaw.query stmt hreads hw, hw⟩, And.right⟩
  | explain | suggestIndex => exact hlaw.explain stmt (explainSends_verb hstmt)

end Harmless

/-! ## A plan that deletes -/

/-- A server without literals, comments and options: EXPLAIN ANALYZE executes what is no
EXPLAIN itself, and a DELETE writes. -/
def plainServer : Server where
  copy stmt := stmt
  analyzed stmt :=
    if (ascii "EXPLAIN ANALYZE ").isPrefixOf stmt &&
        !(ascii "EXPLAIN ").isPrefixOf (stmt.drop 16) then some (stmt.drop 16)
    else none
  writes stmt := ascii "DELETE " <+: stmt ∨
    ascii "EXPLAIN ANALYZE " <+: stmt ∧ ascii "DELETE " <+: stmt.drop 16
  treeAnswers _ := true

/-- What begins with another letter is no query. -/
theorem not_readsOnly {c : UInt8} {rest : Bytes} (hblank : isBlankByte c = false)
    (hs : toAsciiLower c ≠ 115) (hw : toAsciiLower c ≠ 119) : ¬ReadsOnly (c :: rest) := by
  rintro ⟨lead, w, rest', mid, tail, k, h⟩
  cases lead with
  | cons b lead =>
    obtain ⟨rfl, -⟩ := List.cons.inj h.cut
    rw [h.lead.bytes c List.mem_cons_self] at hblank
    exact Bool.noConfusion hblank
  | nil =>
    obtain ⟨b, w, rfl⟩ := List.exists_cons_of_ne_nil h.word.nonempty
    obtain ⟨rfl, -⟩ := List.cons.inj h.cut
    rcases h.reads with ⟨z, hz⟩ | ⟨z, hz⟩
    · exact hs (List.cons.inj hz).1.symm
    · exact hw (List.cons.inj hz).1.symm

theorem plainServer_analyzed {stmt inner : Bytes} (h : plainServer.analyzed stmt = some inner) :
    ascii "EXPLAIN ANALYZE " <+: stmt ∧ ¬ascii "EXPLAIN " <+: inner ∧ stmt.drop 16 = inner := by
  obtain ⟨hcond, hinner⟩ := Option.ite_none_right_eq_some.mp h
  cases hinner
  rw [Bool.and_eq_true, Bool.not_eq_true', Bool.eq_false_iff, ne_eq, List.isPrefixOf_iff_prefix,
    List.isPrefixOf_iff_prefix] at hcond
  exact ⟨hcond.1, hcond.2, rfl⟩

theorem delete_not_explain {stmt : Bytes} (h : ascii "DELETE " <+: stmt) :
    ¬ascii "EXPLAIN " <+: stmt := by
  rintro ⟨z, rfl⟩
  obtain ⟨y, hy⟩ := h
  cases hy

theorem plainServer_lawful : plainServer.Lawful .postgres where
  query stmt hreads := by
    rintro (⟨z, rfl⟩ | ⟨⟨z, rfl⟩, -⟩)
    · exact not_readsOnly (by decide) (by decide) (by decide) hreads
    · exact not_readsOnly (by decide) (by decide) (by decide) hreads
  explain stmt hexplain := by
    constructor
    · rintro (hdelete | ⟨hanalyze, hdelete⟩)
      · exact absurd hexplain (delete_not_explain hdelete)
      · refine ⟨stmt.drop 16, ?_, Or.inl hdelete⟩
        have hcond : ((ascii "EXPLAIN ANALYZE ").isPrefixOf stmt &&
            !(ascii "EXPLAIN ").isPrefixOf (stmt.drop 16)) = true := by
          rw [Bool.and_eq_true, Bool.not_eq_true', Bool.eq_false_iff, ne_eq,
            List.isPrefixOf_iff_prefix, List.isPrefixOf_iff_prefix]
          exact ⟨hanalyze, delete_not_explain hdelete⟩
        exact if_pos hcond
    · rintro ⟨inner, hinner, hwrites⟩
      obtain ⟨hanalyze, hplain, rfl⟩ := plainServer_analyzed hinner
      rcases hwrites with hdelete | ⟨hagain, -⟩
      · exact Or.inr ⟨hanalyze, hdelete⟩
      · have hverb : ascii "EXPLAIN " <+: ascii "EXPLAIN ANALYZE " := by decide
        exact absurd (hverb.trans hagain) hplain
  option stmt hsome := by
    obtain ⟨inner, hinner⟩ := Option.isSome_iff_exists.mp hsome
    obtain ⟨⟨z, rfl⟩, -, -⟩ := plainServer_analyzed hinner
    rfl
  planOnly hkind := by
    rcases hkind with h | h <;> cases h

def countRows : Json := .obj [("sql", .str (ascii "SELECT count(*) FROM t"))]

def analyzeDelete : Json := .obj [("sql", .str (ascii "ANALYZE DELETE FROM t"))]

end RedDb.Ai
