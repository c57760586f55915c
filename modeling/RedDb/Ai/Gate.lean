import RedDb.Sql.Preflight
import RedDb.Sql.Risk

/-!
# RedDb — the gate of the agent's tools

Which of the agent's tools may mutate, and what is asked of the user before one
runs. `readOnlyTools` is an allowlist and `isWriteTool` its complement.
`isReadOnlySelect` is all that stands between the agent's SELECT and the user's
connection; `assessWrite` vets every call of a write tool. A tool call's input
is a JSON value the model wrote.

* `isReadOnlySelect`, `writeShape` — the two classifiers of a SQL text;
* `assessWrite` — the verdict on a tool call;
* `assessWrite_proposal` — what every statement put to the user has passed;
* `boundedWrites_iff` — and exactly when each of them is bounded.
-/

namespace RedDb.Ai

open ByteText RedDb.Sql

/-! ## Inputs and policies -/

/-- A tool call's input. -/
inductive Json where
  | null
  | bool (b : Bool)
  | num (n : Int)
  | str (s : Bytes)
  | arr (items : List Json)
  | obj (fields : List (String × Json))

namespace Json

def get (key : String) : Json → Option Json
  | obj fields => (fields.find? fun f => f.1 == key).map Prod.snd
  | _ => none

def asStr : Json → Option Bytes
  | str s => some s
  | _ => none

def asBool : Json → Option Bool
  | bool b => some b
  | _ => none

def asArray : Json → Option (List Json)
  | arr items => some items
  | _ => none

/-- A trimmed string field, an empty one being none. -/
def trimmedField (key : String) (input : Json) : Option Bytes :=
  (((input.get key).bind asStr).map trim).filter fun s => !s.isEmpty

/-- The non-empty, trimmed strings of an array field, in order. -/
def trimmedItems (key : String) (input : Json) : List Bytes :=
  match (input.get key).bind asArray with
  | none => []
  | some items => ((items.filterMap asStr).map trim).filter fun s => !s.isEmpty

end Json

/-- The access tiers. -/
inductive AiTier where
  | off | schema | read | write
  deriving DecidableEq

/-- What of a turn's policy the gate reads. -/
structure AiPolicy where
  tier : AiTier
  readOnly : Bool

inductive KillMode where
  | cancel | terminate
  deriving DecidableEq

def KillMode.verb : KillMode → Bytes
  | .cancel => ascii "Cancel query"
  | .terminate => ascii "Terminate session"

/-! ## Tool classes -/

/-- The tools that never mutate data. -/
def readOnlyTools : List String :=
  ["list_schema", "describe_table", "relationship_map", "object_ddl", "profile_table",
    "run_select", "fetch_more", "search_data", "explain", "health_report", "server_sessions",
    "diff_schema", "diff_data", "suggest_index", "export_result", "generate_report",
    "open_query", "save_query", "save_knowledge", "search_query_history", "list_saved_queries",
    "read_saved_query", "kv_recent_keys", "kv_server_info", "kv_scan_keys", "kv_key_info",
    "kv_key_schema", "kv_get_value", "kv_read_collection", "kv_json_get", "kv_json_shape",
    "kv_stream_groups", "kv_biggest_keys", "kv_analyze", "kv_slowlog", "kv_client_list",
    "kv_config_get", "kv_keyspace_notifications", "doc_server_info", "list_collections",
    "describe_collection", "doc_reference_map", "profile_collection", "sample_documents",
    "get_document", "find", "aggregate", "count", "distinct", "explain_query", "index_advice",
    "audit_collection", "doc_current_op"]

/-- A tool nobody listed is a write. -/
def isWriteTool (name : String) : Bool := !readOnlyTools.contains name

def kvWriteTools : List String :=
  ["kv_set", "kv_json_set", "kv_expire", "kv_delete", "kv_rename", "kv_copy_key",
    "kv_config_set", "kv_client_kill", "kv_command"]

def docWriteTools : List String :=
  ["propose_doc_write", "propose_index", "propose_collection_op", "doc_kill_op"]

/-! ## Classifying a SQL text -/

/-- The conservative read gate: one SELECT or WITH, with no separator and no word
that writes. -/
def isReadOnlySelect (sql : Bytes) (d : Dialect) : Bool :=
  let trimmed := trim (trimEndMatches semicolon (trim (stripNoise sql d)))
  if trimmed.isEmpty then false
  else if trimmed.contains semicolon then false
  else
    let lower := asciiLower trimmed
    if !((ascii "select").isPrefixOf lower || (ascii "with").isPrefixOf lower) then false
    else !(writeTokens ++ dangerousFns).any (hasWord lower)

/-- U+2026. -/
def ellipsis : Bytes := [0xE2, 0x80, 0xA6]

/-- The shape verdict for a candidate write. -/
inductive WriteShape where
  | ok
  | notWrite
  | blocked (why : Bytes)
  deriving DecidableEq

/-- Classify a candidate write on its stripped copy. -/
def writeShape (sql : Bytes) (d : Dialect) : WriteShape :=
  let trimmed := trim (trimEndMatches semicolon (trim (stripNoise sql d)))
  if trimmed.isEmpty then .blocked (ascii "the statement is empty")
  else if trimmed.contains semicolon then
    .blocked (ascii "multiple statements are not allowed; submit one at a time")
  else
    let lower := asciiLower trimmed
    let first := ((splitWhitespace lower).head?).getD []
    if first == ascii "select" || first == ascii "with" then .notWrite
    else if first == ascii "insert" then .ok
    else if first == ascii "update" || first == ascii "delete" then
      if hasWord lower (ascii "where") then .ok
      else .blocked (ascii "an UPDATE/DELETE without a WHERE clause is blocked; add a WHERE, or run a full-table change yourself in a query tab")
    else .blocked (ascii "only INSERT/UPDATE/DELETE are allowed here; DDL (DROP/TRUNCATE/ALTER/" ++
      ellipsis ++ ascii ") must be run manually in a query tab")

/-! ## Vetting a tool call -/

/-- The outcome of vetting a tool call. -/
inductive WriteAssessment where
  | notWrite
  | reject (why : Bytes)
  | needsApproval (sql : Bytes)
  deriving DecidableEq

def killMode (input : Json) : Except Bytes KillMode :=
  let mode := (((input.get "mode").bind Json.asStr)).getD (ascii "cancel")
  if mode == ascii "cancel" then .ok .cancel
  else if mode == ascii "terminate" then .ok .terminate
  else .error (ascii "kill mode must be \"cancel\" or \"terminate\", not " ++ [backtick] ++ mode ++
    [backtick])

/-- The bytes of the first `n` characters. -/
def takeChars : Nat → Bytes → Bytes
  | _, [] => []
  | n, c :: rest =>
    if 0x80 ≤ c && c < 0xC0 then c :: takeChars n rest
    else match n with
      | 0 => []
      | n + 1 => c :: takeChars n rest

def charCount (b : Bytes) : Nat := (b.filter fun c => !(0x80 ≤ c && c < 0xC0)).length

/-- At most `max` characters, the last an ellipsis where some are cut. -/
def truncateSummary (s : Bytes) (max : Nat) : Bytes :=
  if charCount s ≤ max then s else takeChars (max - 1) s ++ ellipsis

def assessKillSession (input : Json) : WriteAssessment :=
  match input.trimmedField "key" with
  | none => .reject (ascii "kill_session needs the " ++ [backtick] ++ ascii "key" ++ [backtick] ++
      ascii " of a session from server_sessions")
  | some key =>
    match killMode input with
    | .error why => .reject why
    | .ok mode =>
      let who := match ((input.get "user").bind Json.asStr).filter fun u => !u.isEmpty with
        | some u => ascii " (user " ++ u ++ ascii ")"
        | none => []
      let warning := if mode == .terminate then
          [newline, 0xE2, 0x9A, 0xA0] ++
            ascii " Terminating rolls back this session's open transaction."
        else []
      let running := match input.trimmedField "statement" with
        | some sql => newline :: ascii "Running: " ++ truncateSummary sql 300
        | none => newline :: ascii "The agent did not say what this session is running; read server_sessions before allowing."
      .needsApproval (mode.verb ++ [space, backtick] ++ key ++ [backtick] ++ who ++ warning ++
        running)

/-- The arguments of `create_index`: schema, table, index, columns, unique. -/
structure IndexArgs where
  schema : Option Bytes
  table : Bytes
  name : Bytes
  columns : List Bytes
  unique : Bool

def indexArgs (input : Json) : Except Bytes IndexArgs :=
  match input.trimmedField "table" with
  | none => .error (ascii "create_index needs a " ++ [backtick] ++ ascii "table" ++ [backtick])
  | some table =>
    match input.trimmedField "name" with
    | none => .error (ascii "create_index needs a " ++ [backtick] ++ ascii "name" ++ [backtick] ++
        ascii " for the index")
    | some name =>
      let columns := input.trimmedItems "columns"
      if columns.isEmpty then
        .error (ascii "create_index needs a non-empty " ++ [backtick] ++ ascii "columns" ++
          [backtick] ++ ascii " array")
      else .ok ⟨input.trimmedField "schema", table, name, columns,
        ((input.get "unique").bind Json.asBool).getD false⟩

def qualified (schema : Option Bytes) (table : Bytes) : Bytes :=
  match schema.filter fun s => !s.isEmpty with
  | some s => s ++ [dot] ++ table
  | none => table

def assessCreateIndex (input : Json) : WriteAssessment :=
  match indexArgs input with
  | .error why => .reject why
  | .ok args => .needsApproval
      (ascii "CREATE" ++ (if args.unique then ascii " UNIQUE" else []) ++ ascii " INDEX " ++
        args.name ++ ascii " ON " ++ qualified args.schema args.table ++ ascii " (" ++
        List.intercalate (ascii ", ") args.columns ++ ascii ")\nBuilding an index locks and loads the server for the duration; it is reversible with a DROP INDEX afterwards.")

/-- The statements of a changeset. -/
def changesetStatements (input : Json) : List Bytes := input.trimmedItems "statements"

/-- The first statement the shape gate refuses, from number `i` on. -/
def changesetRefusal (d : Dialect) : Nat → List Bytes → Option Bytes
  | _, [] => none
  | i, stmt :: rest =>
    match writeShape stmt d with
    | .ok => changesetRefusal d (i + 1) rest
    | .notWrite => some (ascii "statement " ++ ascii (toString i) ++
        ascii " is not an INSERT/UPDATE/DELETE; a changeset only modifies data")
    | .blocked why => some (ascii "statement " ++ ascii (toString i) ++ ascii ": " ++ why)

def assessChangeset (input : Json) (d : Dialect) : WriteAssessment :=
  let statements := changesetStatements input
  if statements.isEmpty then
    .reject (ascii "propose_changeset needs a non-empty " ++ [backtick] ++ ascii "statements" ++
      [backtick] ++ ascii " array of INSERT/UPDATE/DELETE statements")
  else match changesetRefusal d 1 statements with
    | some why => .reject why
    | none => .needsApproval (List.intercalate [newline]
        (statements.zipIdx.map fun (s, i) => ascii (toString (i + 1)) ++ ascii ". " ++ s))

/-- The text of a `propose_write`. -/
def proposedSql (input : Json) : Bytes := trim (((input.get "sql").bind Json.asStr).getD [])

section Assess

-- the graders of the Redis and the MongoDB write tools, which no SQL text reaches
variable (assessKvWrite assessDocWrite : String → Json → WriteAssessment)

/-- Vet a tool call. -/
def assessWrite (name : String) (input : Json) (policy : AiPolicy) (d : Dialect) :
    WriteAssessment :=
  if !isWriteTool name then .notWrite
  else if policy.tier != .write then
    .reject (ascii "the write tool is not available at this access tier")
  else if policy.readOnly then
    .reject (ascii "this connection is read-only: writes are disabled. Tell the user; do not retry.")
  else if kvWriteTools.contains name then assessKvWrite name input
  else if docWriteTools.contains name then assessDocWrite name input
  else if name == "propose_changeset" then assessChangeset input d
  else if name == "kill_session" then assessKillSession input
  else if name == "create_index" then assessCreateIndex input
  else match writeShape (proposedSql input) d with
    | .ok => .needsApproval (proposedSql input)
    | .notWrite => .reject
        (ascii "propose_write is only for INSERT/UPDATE/DELETE; use run_select to read")
    | .blocked why => .reject why

end Assess

/-! ## What a proposal put to the user has passed -/

/-- The statements a proposal submits. -/
def submitted (name : String) (input : Json) : List Bytes :=
  if name == "propose_changeset" then changesetStatements input else [proposedSql input]

/-- The text of a statement outside its literals and comments, without its final `;`. -/
def liveText (stmt : Bytes) (d : Dialect) : Bytes :=
  trim (trimEndMatches semicolon (trim (stripNoise stmt d)))

/-- The first word of that text, in lower case. -/
def leadingVerb (stmt : Bytes) (d : Dialect) : Bytes :=
  ((splitWhitespace (asciiLower (liveText stmt d))).head?).getD []

def IsUpdateOrDelete (stmt : Bytes) (d : Dialect) : Prop :=
  leadingVerb stmt d = ascii "update" ∨ leadingVerb stmt d = ascii "delete"

/-- Exactly one INSERT, or exactly one UPDATE or DELETE with a `WHERE` of its own. -/
structure BoundedWrite (d : Dialect) (stmt : Bytes) : Prop where
  nonempty : liveText stmt d ≠ []
  single : semicolon ∉ liveText stmt d
  bounded : leadingVerb stmt d = ascii "insert" ∨
    IsUpdateOrDelete stmt d ∧ (topLevelWord (asciiLower (liveText stmt d)) (ascii "where")).isSome

/-- An UPDATE or DELETE with a `where`, none of which stands behind as many `(` as
`)`: each is a subquery's. -/
structure WhereOnlyInside (d : Dialect) (stmt : Bytes) : Prop where
  verb : IsUpdateOrDelete stmt d
  present : ∃ pre post, Stands (ascii "where") (asciiLower (liveText stmt d)) pre post
  inside : ∀ pre post, Stands (ascii "where") (asciiLower (liveText stmt d)) pre post →
    bracketDepth pre ≠ 0

theorem whereWord : IsWord (ascii "where") := by decide

/-- What `write_shape` has checked of a statement it lets through. -/
structure ShapeOk (d : Dialect) (stmt : Bytes) : Prop where
  nonempty : liveText stmt d ≠ []
  single : semicolon ∉ liveText stmt d
  verb : leadingVerb stmt d = ascii "insert" ∨
    IsUpdateOrDelete stmt d ∧ hasWord (asciiLower (liveText stmt d)) (ascii "where") = true

theorem writeShape_ok {stmt : Bytes} {d : Dialect} (h : writeShape stmt d = .ok) :
    ShapeOk d stmt := by
  unfold writeShape at h
  change (if (liveText stmt d).isEmpty then _ else if (liveText stmt d).contains semicolon then _
    else if (leadingVerb stmt d == ascii "select" || leadingVerb stmt d == ascii "with") then _
    else if leadingVerb stmt d == ascii "insert" then _
    else if leadingVerb stmt d == ascii "update" || leadingVerb stmt d == ascii "delete" then _
    else _) = WriteShape.ok at h
  split at h
  · cases h
  rename_i hne
  split at h
  · cases h
  rename_i hsingle
  split at h
  · cases h
  have hne' : liveText stmt d ≠ [] := fun h => hne (by rw [h]; rfl)
  have hsingle' : semicolon ∉ liveText stmt d := fun h => hsingle (List.contains_iff_mem.mpr h)
  split at h
  · rename_i hinsert
    exact ⟨hne', hsingle', Or.inl (beq_iff_eq.mp hinsert)⟩
  split at h
  · rename_i hverb
    split at h
    · rename_i hwhere
      refine ⟨hne', hsingle', Or.inr ⟨?_, hwhere⟩⟩
      simpa only [IsUpdateOrDelete, Bool.or_eq_true, beq_iff_eq] using hverb
    · cases h
  · cases h

/-- No refusal: every statement has passed. -/
theorem changesetRefusal_none {d : Dialect} {statements : List Bytes} {i : Nat}
    (h : changesetRefusal d i statements = none) :
    ∀ stmt ∈ statements, writeShape stmt d = .ok := by
  induction statements generalizing i with
  | nil =>
    intro stmt hstmt
    exact absurd hstmt (List.not_mem_nil)
  | cons stmt rest ih =>
    rw [changesetRefusal] at h
    cases hshape : writeShape stmt d with
    | ok =>
      rw [hshape] at h
      exact List.forall_mem_cons.mpr ⟨hshape, ih h⟩
    | notWrite | blocked why =>
      rw [hshape] at h
      cases h

section Proposal

variable {assessKvWrite assessDocWrite : String → Json → WriteAssessment} {name : String}
  {input : Json} {policy : AiPolicy} {d : Dialect} {body : Bytes}

/-- **A proposal put to the user.** The tier and the connection allow writes, and
every statement submitted has the shape of a write. -/
theorem assessWrite_proposal (hname : name = "propose_write" ∨ name = "propose_changeset")
    (h : assessWrite assessKvWrite assessDocWrite name input policy d = .needsApproval body) :
    policy.tier = .write ∧ policy.readOnly = false ∧
      ∀ stmt ∈ submitted name input, ShapeOk d stmt := by
  have hwrite : isWriteTool name = true := by rcases hname with rfl | rfl <;> decide
  have hkv : kvWriteTools.contains name = false := by rcases hname with rfl | rfl <;> decide
  have hdoc : docWriteTools.contains name = false := by rcases hname with rfl | rfl <;> decide
  unfold assessWrite at h
  rw [hwrite, hkv, hdoc] at h
  simp only [Bool.not_true, Bool.false_eq_true, if_false] at h
  split at h
  · cases h
  rename_i htier
  split at h
  · cases h
  rename_i hro
  refine ⟨by simpa using htier, by simpa using hro, ?_⟩
  rcases hname with rfl | rfl
  · have hsub : submitted "propose_write" input = [proposedSql input] := rfl
    rw [hsub, List.forall_mem_singleton]
    cases hshape : writeShape (proposedSql input) d with
    | ok => exact writeShape_ok hshape
    | notWrite | blocked why =>
      rw [hshape] at h
      cases h
  · have hsub : submitted "propose_changeset" input = changesetStatements input := rfl
    rw [hsub]
    change assessChangeset input d = .needsApproval body at h
    unfold assessChangeset at h
    simp only at h
    split at h
    · cases h
    cases hrefusal : changesetRefusal d 1 (changesetStatements input) with
    | some why =>
      rw [hrefusal] at h
      cases h
    | none =>
      intro stmt hstmt
      exact writeShape_ok (changesetRefusal_none hrefusal stmt hstmt)

/-- The shape gate asks for a `where` anywhere; a bounded write has one of its own. -/
theorem boundedWrite_iff {stmt : Bytes} (hok : ShapeOk d stmt) :
    BoundedWrite d stmt ↔ ¬ WhereOnlyInside d stmt := by
  constructor
  · rintro ⟨-, -, hbounded⟩ ⟨hverb, -, hinside⟩
    rcases hbounded with hinsert | ⟨-, htop⟩
    · rcases hverb with hverb | hverb
      · rw [hinsert] at hverb
        cases hverb
      · rw [hinsert] at hverb
        cases hverb
    · obtain ⟨pre, post, hstands, hdepth⟩ := (topLevelWord_isSome_iff whereWord).mp htop
      exact hinside pre post hstands hdepth
  · intro h
    refine ⟨hok.nonempty, hok.single, hok.verb.imp_right fun ⟨hverb, hwhere⟩ => ⟨hverb, ?_⟩⟩
    rw [topLevelWord_isSome_iff whereWord]
    by_contra hnone
    refine h ⟨hverb, (hasWord_iff whereWord).mp hwhere, fun pre post hstands hdepth => ?_⟩
    exact hnone ⟨pre, post, hstands, hdepth⟩

end Proposal

end RedDb.Ai
