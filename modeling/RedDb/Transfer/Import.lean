import RedDb.Transfer.ExportWriter
import RedDb.Transfer.ImportReader

/-!
# RedDb — importing a file into a table

The import pulls row after row, coerces the cells to the types of their columns, and inserts
in chunks, each in a transaction of its own. It returns how many rows it has committed and
what stopped it.

* `insertRows_ok`, `insertRows_error` — an insert commits all of its rows or none;
* `importLoop_commits` — what a run commits from any point on;
* `import_commits_prefix` — a run commits a prefix of the records and counts it;
* `import_of_export` — what comes back of an exported table.
-/

namespace RedDb.Transfer

open ByteText RedDb.Driver

/-! ## Coercion -/

/-- The name of a declared type before its length or its modifiers. -/
def baseType (typeName : Bytes) : Bytes :=
  (asciiLower typeName).takeWhile fun c => c != openParen && c != space

def isIntType (typeName : Bytes) : Bool :=
  ["int", "integer", "int2", "int4", "int8", "tinyint", "smallint", "mediumint", "bigint",
    "serial", "smallserial", "bigserial"].any fun name => baseType typeName = ascii name

def isRealType (typeName : Bytes) : Bool :=
  ["real", "double", "float", "float4", "float8", "numeric", "decimal", "dec"].any fun name =>
    baseType typeName = ascii name

/-- `parse::<i64>`: a sign, digits, and the range. -/
def parseInteger (text : Bytes) : Option Int :=
  let (negative, digits) := match text with
    | 45 :: rest => (true, rest)
    | 43 :: rest => (false, rest)
    | digits => (false, digits)
  if digits.isEmpty || !digits.all isAsciiDigit then none
  else
    let n : Int := if negative then -(ofDigits digits : Int) else ofDigits digits
    if -2 ^ 63 ≤ n ∧ n < 2 ^ 63 then some n else none

/-- A valid UTF-8 text as a string. -/
def displayed (text : Bytes) : String := (String.fromUTF8? ⟨text.toArray⟩).getD ""

/-- The standard library's reading of a float, by its bits. -/
abbrev ParseReal := Bytes → Option UInt64

def coerceEditValue (parseReal : ParseReal) (text : Bytes) (declType : Option Bytes) :
    Except String Value :=
  if text.isEmpty then .ok .null
  else if declType.any isIntType then
    match parseInteger (trim text) with
    | some n => .ok (.integer n)
    | none => .error ("‘" ++ displayed text ++ "’ is not a valid integer")
  else if declType.any isRealType then
    match parseReal (trim text) with
    | some bits => .ok (.real bits)
    | none => .error ("‘" ++ displayed text ++ "’ is not a valid number")
  else .ok (.text text)

/-! ## The target -/

inductive Engine where
  | sqlite
  | mysql
  | postgres
  | clickhouse
  deriving DecidableEq

def Engine.paramCap : Engine → Nat
  | .sqlite => 30000
  | .mysql => 60000
  | .postgres => pgParamCap
  | .clickhouse => 0

/-- The committed rows of the target, and the requests its server has had. -/
structure Table where
  rows : List (List Value)
  requests : Nat

/-- The server of the target: an engine, and how each request fails, if it does. -/
structure TableServer where
  engine : Engine
  reply : Nat → Option RedError

def TableServer.ask (server : TableServer) (t : Table) : Option RedError × Table :=
  (server.reply t.requests, { t with requests := t.requests + 1 })

/-- Why the values of a statement cannot be bound. Only Postgres refuses any. -/
def bindError (engine : Engine) (columns : List Column) (rows : List (List Value)) :
    Option RedError :=
  if engine = .postgres then
    match pgParams (bound (rows.flatMap (cells columns))) with
    | .ok _ => none
    | .error e => some e
  else none

/-- The statements of an open transaction, with the rows it holds and their number. After an
error the transaction is rolled back, or ends with its connection. -/
def insertStatements (server : TableServer) (columns : List Column) :
    List (List (List Value)) → List (List Value) → Nat → Table →
      Except RedError (List (List Value) × Nat) × Table
  | [], pending, total, t => (.ok (pending, total), t)
  | chunk :: rest, pending, total, t =>
    match bindError server.engine columns chunk with
    | some e => (.error e, t)
    | none =>
      match server.ask t with
      | (some e, t) => (.error e, (server.ask t).2)
      | (none, t) => insertStatements server columns rest (pending ++ chunk) (total + chunk.length) t

/-- One transaction: borrow a connection, `BEGIN`, the statements, `COMMIT`. -/
def insertTransaction (server : TableServer) (columns : List Column) (rows : List (List Value))
    (t : Table) : Except RedError Nat × Table :=
  match server.ask t with
  | (some e, t) => (.error e, t)
  | (none, t) =>
    match server.ask t with
    | (some e, t) => (.error e, t)
    | (none, t) =>
      let max := insertChunkRows columns.length server.engine.paramCap
      match insertStatements server columns (chunks max rows) [] 0 t with
      | (.error e, t) => (.error e, t)
      | (.ok (pending, total), t) =>
        match server.ask t with
        | (some e, t) => (.error e, t)
        | (none, t) => (.ok total, { t with rows := t.rows ++ pending })

/-- ClickHouse: one request with every row, and the count of its summary. -/
def insertRequest (server : TableServer) (rows : List (List Value)) (t : Table) :
    Except RedError Nat × Table :=
  match server.ask t with
  | (some e, t) => (.error e, t)
  | (none, t) => (.ok rows.length, { t with rows := t.rows ++ rows })

def insertRows (server : TableServer) (columns : List Column) (rows : List (List Value))
    (t : Table) : Except RedError Nat × Table :=
  if rows.isEmpty then (.ok 0, t)
  else if server.engine = .clickhouse then insertRequest server rows t
  else insertTransaction server columns rows t

section Insert

variable {server : TableServer} {columns : List Column} {rows : List (List Value)} {t t' : Table}

theorem chunks_flatten {α : Type} (n : Nat) (rows : List α) : (chunks n rows).flatten = rows := by
  induction rows using chunks.induct n with
  | case1 => rw [chunks, List.flatten_nil]
  | case2 row rows ih =>
    rw [chunks, List.flatten_cons, ih, List.cons_append, List.take_append_drop]

variable (server columns) in
theorem insertStatements_spec (parts : List (List (List Value))) (pending : List (List Value))
    (total : Nat) (t : Table) :
    (insertStatements server columns parts pending total t).2.rows = t.rows ∧
      ∀ held n, (insertStatements server columns parts pending total t).1 = .ok (held, n) →
        held = pending ++ parts.flatten ∧ n = total + parts.flatten.length := by
  induction parts generalizing pending total t with
  | nil =>
    refine ⟨rfl, fun held n h => ?_⟩
    obtain ⟨rfl, rfl⟩ := Prod.mk.inj (Except.ok.inj h)
    exact ⟨(List.append_nil _).symm, rfl⟩
  | cons chunk rest ih =>
    rw [insertStatements]
    cases bindError server.engine columns chunk with
    | some e => exact ⟨rfl, fun held n h => by cases h⟩
    | none =>
      rcases hask : server.ask t with ⟨_ | e, t₁⟩
      · have hrows : t₁.rows = t.rows := (congrArg (fun p => p.2.rows) hask).symm
        obtain ⟨hsame, hok⟩ := ih (pending ++ chunk) (total + chunk.length) t₁
        refine ⟨hsame.trans hrows, fun held n h => ?_⟩
        obtain ⟨hheld, hn⟩ := hok held n h
        rw [hheld, hn, List.flatten_cons, List.length_append, List.append_assoc, Nat.add_assoc]
        exact ⟨rfl, rfl⟩
      · have hrows : t₁.rows = t.rows := (congrArg (fun p => p.2.rows) hask).symm
        exact ⟨hrows, fun held n h => by cases h⟩

theorem insertTransaction_spec (rows : List (List Value)) (t : Table) :
    (∀ e, (insertTransaction server columns rows t).1 = .error e →
        (insertTransaction server columns rows t).2.rows = t.rows) ∧
      ∀ n, (insertTransaction server columns rows t).1 = .ok n →
        n = rows.length ∧ (insertTransaction server columns rows t).2.rows = t.rows ++ rows := by
  have hkeep : ∀ {t t₁ : Table} {r : Option RedError}, server.ask t = (r, t₁) →
      t₁.rows = t.rows := fun h => (congrArg (fun p => p.2.rows) h).symm
  unfold insertTransaction
  rcases hopen : server.ask t with ⟨_ | e, t₁⟩
  · rcases hbegin : server.ask t₁ with ⟨_ | e, t₂⟩
    · have h₂ : t₂.rows = t.rows := (hkeep hbegin).trans (hkeep hopen)
      obtain ⟨hsame, hok⟩ := insertStatements_spec server columns
        (chunks (insertChunkRows columns.length server.engine.paramCap) rows) [] 0 t₂
      rcases hrun : insertStatements server columns
        (chunks (insertChunkRows columns.length server.engine.paramCap) rows) [] 0 t₂ with
          ⟨e | ⟨held, n⟩, t₃⟩
      · rw [hrun] at hsame
        simp only [hbegin, hrun]
        exact ⟨fun _ _ => hsame.trans h₂, fun n h => by cases h⟩
      rw [hrun] at hsame hok
      obtain ⟨hheld, hn⟩ := hok held n rfl
      rw [chunks_flatten, List.nil_append] at hheld
      rw [chunks_flatten, Nat.zero_add] at hn
      rcases hcommit : server.ask t₃ with ⟨_ | e, t₄⟩
      · simp only [hbegin, hrun, hcommit]
        refine ⟨fun e h => (by cases h), fun n' h => ?_⟩
        obtain rfl := Except.ok.inj h
        rw [hkeep hcommit, hsame, h₂, hheld, hn]
        exact ⟨rfl, rfl⟩
      · simp only [hbegin, hrun, hcommit]
        exact ⟨fun _ _ => (hkeep hcommit).trans (hsame.trans h₂), fun n h => by cases h⟩
    · simp only [hbegin]
      exact ⟨fun _ _ => (hkeep hbegin).trans (hkeep hopen), fun n h => by cases h⟩
  · exact ⟨fun _ _ => hkeep hopen, fun n h => by cases h⟩

theorem insertRequest_spec (rows : List (List Value)) (t : Table) :
    (∀ e, (insertRequest server rows t).1 = .error e →
        (insertRequest server rows t).2.rows = t.rows) ∧
      ∀ n, (insertRequest server rows t).1 = .ok n →
        n = rows.length ∧ (insertRequest server rows t).2.rows = t.rows ++ rows := by
  unfold insertRequest
  rcases hask : server.ask t with ⟨_ | e, t₁⟩
  · have hrows : t₁.rows = t.rows := (congrArg (fun p => p.2.rows) hask).symm
    refine ⟨fun e h => (by cases h), fun n h => ?_⟩
    obtain rfl := Except.ok.inj h
    exact ⟨rfl, congrArg (· ++ rows) hrows⟩
  · exact ⟨fun _ _ => (congrArg (fun p => p.2.rows) hask).symm, fun n h => by cases h⟩

variable (server columns) in
theorem insertRows_spec (rows : List (List Value)) (t : Table) :
    (∀ e, (insertRows server columns rows t).1 = .error e →
        (insertRows server columns rows t).2.rows = t.rows) ∧
      ∀ n, (insertRows server columns rows t).1 = .ok n →
        n = rows.length ∧ (insertRows server columns rows t).2.rows = t.rows ++ rows := by
  unfold insertRows
  by_cases hempty : rows.isEmpty = true
  · rw [if_pos hempty]
    obtain rfl := List.isEmpty_iff.mp hempty
    refine ⟨fun e h => (by cases h), fun n h => ?_⟩
    obtain rfl := Except.ok.inj h
    exact ⟨rfl, (List.append_nil _).symm⟩
  · rw [if_neg hempty]
    by_cases hclickhouse : server.engine = .clickhouse
    · rw [if_pos hclickhouse]
      exact insertRequest_spec rows t
    · rw [if_neg hclickhouse]
      exact insertTransaction_spec rows t

/-- A failed insert commits nothing. -/
theorem insertRows_error {e : RedError} (h : insertRows server columns rows t = (.error e, t')) :
    t'.rows = t.rows := by
  have hspec := (insertRows_spec server columns rows t).1 e
  rw [h] at hspec
  exact hspec rfl

/-- An insert that succeeds commits every row, and counts them. -/
theorem insertRows_ok {n : Nat} (h : insertRows server columns rows t = (.ok n, t')) :
    n = rows.length ∧ t'.rows = t.rows ++ rows := by
  have hspec := (insertRows_spec server columns rows t).2 n
  rw [h] at hspec
  exact hspec rfl

end Insert

/-! ## The import -/

/-- A target column, and the source column that fills it. -/
structure ColumnMap where
  source : Nat
  column : Bytes
  declType : Option Bytes
  deriving DecidableEq

/-- What an import is given: the file, or why it cannot be opened; the answers of the cancel
flag, check after check; the target's server; and the two libraries that read numbers and
JSON. -/
structure ImportJob where
  path : String
  file : Except String SourceFile
  format : ImportFormat
  mapping : List ColumnMap
  chunkSize : Nat
  cancel : Nat → Bool
  server : TableServer
  parseJson : ParseJson
  parseReal : ParseReal

structure ImportRun where
  committed : Nat
  error : Option RedError
  table : Table

namespace ImportJob

variable (job : ImportJob)

def columns : List Column := job.mapping.map fun m => ⟨m.column, m.declType⟩

/-- The values of a row; a row without the source column has an empty cell there. -/
def rowValues (cells : List Bytes) : Except String (List Value) :=
  job.mapping.mapM fun m => coerceEditValue job.parseReal (cells[m.source]?.getD []) m.declType

def rows : PullReader ImportReader (List Bytes) String := importRows job.parseJson

/-- Commit the chunk, unless it is empty. -/
def flush (chunk : List (List Value)) (committed : Nat) (t : Table) :
    Except RedError Nat × Table :=
  if chunk.isEmpty then (.ok committed, t)
  else
    match insertRows job.server job.columns chunk t with
    | (.ok n, t) => (.ok (committed + n), t)
    | (.error e, t) => (.error e, t)

/-- The loop over the rows, with the chunk that is not committed yet. -/
def importLoop (reader : ImportReader) (chunk : List (List Value)) (committed rowNo : Nat)
    (t : Table) : ImportRun :=
  if job.cancel rowNo then ⟨committed, some .interrupted, t⟩
  else
    match _h : (job.rows.next reader).1 with
    | .error e =>
      ⟨committed, some (.query ("row " ++ toString (rowNo + 1) ++ ": " ++ e)), t⟩
    | .ok none =>
      match job.flush chunk committed t with
      | (.ok committed, t) => ⟨committed, none, t⟩
      | (.error e, t) => ⟨committed, some e, t⟩
    | .ok (some cells) =>
      match job.rowValues cells with
      | .error reason =>
        ⟨committed, some (.query ("row " ++ toString (rowNo + 1) ++ ": " ++ reason)), t⟩
      | .ok values =>
        if max job.chunkSize 1 ≤ (chunk ++ [values]).length then
          match job.flush (chunk ++ [values]) committed t with
          | (.ok committed, t) => importLoop (job.rows.next reader).2 [] committed (rowNo + 1) t
          | (.error e, t) => ⟨committed, some e, t⟩
        else importLoop (job.rows.next reader).2 (chunk ++ [values]) committed (rowNo + 1) t
termination_by job.rows.size reader
decreasing_by all_goals exact job.rows.next_lt _h

def runImportBlocking (t : Table) : ImportRun :=
  match job.file with
  | .error e => ⟨0, some (.driver ("cannot open " ++ job.path ++ ": " ++ e)), t⟩
  | .ok file =>
    match ImportReader.begin job.parseJson file job.format with
    | .error e => ⟨0, some (.query ("read error: " ++ e)), t⟩
    | .ok (_, reader) => job.importLoop reader [] 0 0 t

/-- The records of the source, in source order, and why the one behind them cannot be read,
if there is one. -/
def source : List (List Bytes) × Option String :=
  match job.file with
  | .error e => ([], some e)
  | .ok file => recordsOf job.parseJson job.format file

/-- The rows of the target that some records become. -/
def Become (records : List (List Bytes)) (rows : List (List Value)) : Prop :=
  List.Forall₂ (fun cells values => job.rowValues cells = .ok values) records rows

/-- From a state of the loop, a run commits the pending chunk and the first `k` of the rows
to come, or nothing more. -/
def Commits (source : List (List Bytes) × Option String) (chunk : List (List Value)) (committed : Nat)
    (t : Table) (run : ImportRun) : Prop :=
  (run.table.rows = t.rows ∧ run.committed = committed ∧ run.error ≠ none) ∨
    ∃ k rows, k ≤ source.1.length ∧ job.Become (source.1.take k) rows ∧
      run.table.rows = t.rows ++ (chunk ++ rows) ∧
      run.committed = committed + (chunk.length + k) ∧
      (run.error = none → k = source.1.length ∧ source.2 = none)

variable {job}

theorem flush_ok {chunk : List (List Value)} {committed n : Nat} {t t' : Table}
    (h : job.flush chunk committed t = (.ok n, t')) :
    n = committed + chunk.length ∧ t'.rows = t.rows ++ chunk := by
  unfold flush at h
  by_cases hempty : chunk.isEmpty = true
  · rw [if_pos hempty] at h
    obtain ⟨hn, rfl⟩ := Prod.mk.inj h
    obtain rfl := Except.ok.inj hn
    obtain rfl := List.isEmpty_iff.mp hempty
    exact ⟨rfl, (List.append_nil _).symm⟩
  · rw [if_neg hempty] at h
    rcases hrun : insertRows job.server job.columns chunk t with ⟨e | m, t₁⟩
    · rw [hrun] at h
      cases (Prod.mk.inj h).1
    rw [hrun] at h
    obtain ⟨hn, rfl⟩ := Prod.mk.inj h
    obtain rfl := Except.ok.inj hn
    obtain ⟨rfl, hrows⟩ := insertRows_ok hrun
    exact ⟨rfl, hrows⟩

theorem flush_error {chunk : List (List Value)} {committed : Nat} {t t' : Table} {e : RedError}
    (h : job.flush chunk committed t = (.error e, t')) : t'.rows = t.rows := by
  unfold flush at h
  by_cases hempty : chunk.isEmpty = true
  · rw [if_pos hempty] at h
    cases (Prod.mk.inj h).1
  rw [if_neg hempty] at h
  rcases hrun : insertRows job.server job.columns chunk t with ⟨e | m, t₁⟩
  · rw [hrun] at h
    obtain rfl := (Prod.mk.inj h).2
    exact insertRows_error hrun
  · rw [hrun] at h
    cases (Prod.mk.inj h).1

/-- A run that ends here with an error has committed nothing more. -/
theorem commits_stopped {source : List (List Bytes) × Option String} {chunk : List (List Value)}
    {committed : Nat} {t t' : Table} {e : RedError} (h : t'.rows = t.rows) :
    job.Commits source chunk committed t ⟨committed, some e, t'⟩ :=
  Or.inl ⟨h, rfl, fun h => by cases h⟩

/-- One more row in the chunk. -/
theorem commits_pushed {source : List (List Bytes) × Option String} {chunk : List (List Value)}
    {committed : Nat} {t : Table} {run : ImportRun} {cells : List Bytes} {values : List Value}
    (hvalues : job.rowValues cells = .ok values)
    (h : job.Commits source (chunk ++ [values]) committed t run) :
    job.Commits (cells :: source.1, source.2) chunk committed t run := by
  rcases h with hstopped | ⟨k, rows, hk, hbecome, hrows, hcommitted, hall⟩
  · exact Or.inl hstopped
  refine Or.inr ⟨k + 1, values :: rows, Nat.succ_le_succ hk, List.Forall₂.cons hvalues hbecome,
    ?_, ?_, fun hnone => ⟨congrArg Nat.succ (hall hnone).1, (hall hnone).2⟩⟩
  · rw [hrows, List.append_assoc, List.singleton_append]
  · rw [hcommitted, List.length_append, List.length_singleton]
    omega

/-- One more row, and the chunk committed. -/
theorem commits_after_flush {source : List (List Bytes) × Option String} {chunk : List (List Value)}
    {committed : Nat} {t t' : Table} {run : ImportRun} {cells : List Bytes} {values : List Value}
    (hvalues : job.rowValues cells = .ok values) (hrows : t'.rows = t.rows ++ (chunk ++ [values]))
    (h : job.Commits source [] (committed + (chunk ++ [values]).length) t' run) :
    job.Commits (cells :: source.1, source.2) chunk committed t run := by
  rw [List.length_append, List.length_singleton] at h
  rcases h with ⟨hsame, hcommitted, herror⟩ | ⟨k, rows, hk, hbecome, hadded, hcommitted, hall⟩
  · refine Or.inr ⟨1, [values], Nat.succ_le_succ (Nat.zero_le _),
      List.Forall₂.cons hvalues List.Forall₂.nil, hsame.trans hrows, hcommitted,
      fun hnone => absurd hnone herror⟩
  refine Or.inr ⟨k + 1, values :: rows, Nat.succ_le_succ hk, List.Forall₂.cons hvalues hbecome,
    ?_, ?_, fun hnone => ⟨congrArg Nat.succ (hall hnone).1, (hall hnone).2⟩⟩
  · rw [hadded, hrows, List.nil_append, List.append_assoc, List.append_assoc,
      List.singleton_append]
  · rw [hcommitted, List.length_nil]
    omega

/-- What is committed from any point of the loop on. -/
theorem importLoop_commits (reader : ImportReader) (chunk : List (List Value))
    (committed rowNo : Nat) (t : Table) : job.Commits (job.rows.items reader) chunk committed t
      (job.importLoop reader chunk committed rowNo t) := by
  induction hsize : job.rows.size reader using Nat.strong_induction_on generalizing reader chunk
    committed rowNo t with
  | _ size ih =>
    rw [importLoop]
    by_cases hcancel : job.cancel rowNo = true
    · rw [if_pos hcancel]
      exact commits_stopped rfl
    rw [if_neg hcancel]
    split
    · exact commits_stopped rfl
    · next hend =>
      rw [PullReader.items_end hend]
      rcases hflush : job.flush chunk committed t with ⟨e | n, t'⟩
      · exact commits_stopped (flush_error hflush)
      · obtain ⟨rfl, hrows⟩ := flush_ok hflush
        exact Or.inr ⟨0, [], Nat.le_refl _, List.Forall₂.nil, by rw [hrows, List.append_nil],
          rfl, fun _ => ⟨rfl, rfl⟩⟩
    · next cells hnext =>
      have hlt := job.rows.next_lt hnext
      rw [PullReader.items_cons hnext]
      cases hvalues : job.rowValues cells with
      | error reason => exact commits_stopped rfl
      | ok values =>
        dsimp only
        by_cases hfull : max job.chunkSize 1 ≤ (chunk ++ [values]).length
        · rw [if_pos hfull]
          rcases hflush : job.flush (chunk ++ [values]) committed t with ⟨e | n, t'⟩
          · exact commits_stopped (flush_error hflush)
          · obtain ⟨rfl, hrows⟩ := flush_ok hflush
            exact commits_after_flush hvalues hrows (ih _ (hsize ▸ hlt) _ _ _ _ _ rfl)
        · rw [if_neg hfull]
          exact commits_pushed hvalues (ih _ (hsize ▸ hlt) _ _ _ _ _ rfl)

variable (job) in
/-- What a whole run commits. -/
theorem runImportBlocking_commits (t : Table) :
    job.Commits job.source [] 0 t (job.runImportBlocking t) := by
  unfold runImportBlocking source
  cases job.file with
  | error e => exact commits_stopped rfl
  | ok file =>
    dsimp only
    cases hbegin : ImportReader.begin job.parseJson file job.format with
    | error e => exact commits_stopped rfl
    | ok begun =>
      have hitems : job.rows.items begun.2 = recordsOf job.parseJson job.format file :=
        (begin_items job.format file).2 begun.1 begun.2 hbegin
      rw [← hitems]
      exact importLoop_commits begun.2 [] 0 0 t

theorem become_unique {records : List (List Bytes)} {rows rows' : List (List Value)}
    (h : job.Become records rows) (h' : job.Become records rows') : rows = rows' := by
  induction h generalizing rows' with
  | nil =>
    cases h'
    rfl
  | cons hvalues _ ih =>
    cases h' with
    | cons hvalues' hrest' =>
      rw [Except.ok.inj (hvalues.symm.trans hvalues'), ih hrest']

/-- A column of the target that takes any text. -/
structure TextColumn extends ColumnMap where
  text : declType.any isIntType = false ∧ declType.any isRealType = false

/-- An empty cell has no value. -/
def landed (cell : Bytes) : Value := if cell.isEmpty then .null else .text cell

/-- The import of a CSV file into columns of text. -/
def ofCsv (job : ImportJob) (out : Bytes) (columns : List TextColumn) : ImportJob :=
  { job with file := .ok ⟨out, none⟩, format := .csv, mapping := columns.map TextColumn.toColumnMap }

theorem rowValues_ofCsv {job : ImportJob} {out : Bytes} (columns : List TextColumn) (cells : List Bytes) :
    (job.ofCsv out columns).rowValues cells =
      .ok (columns.map fun c => landed (cells[c.source]?.getD [])) := by
  unfold rowValues ofCsv
  induction columns with
  | nil => rfl
  | cons c columns ih =>
    have hcell : coerceEditValue job.parseReal (cells[c.source]?.getD []) c.declType =
        .ok (landed (cells[c.source]?.getD [])) := by
      rw [coerceEditValue, c.text.1, c.text.2, landed]
      split <;> rfl
    rw [List.map_cons, List.mapM_cons, hcell, ih]
    rfl

/-- **An exported table that is imported into columns of text comes back**, up to where the import
stops: its cells as they were printed, the empty ones as nulls. -/
theorem import_of_export (job : ImportJob) (realText : RealText) (header : List Bytes)
    (rows : List (List Value)) (columns : List TextColumn) (t : Table) :
    ∃ out, (exportRows realText .csv header rows).toOption = some (⟨rows.length, none⟩, .text out) ∧
      let run := (job.ofCsv out columns).runImportBlocking t
      ∃ k ≤ rows.length, run.committed = k ∧ (run.error = none → k = rows.length) ∧
        run.table.rows = t.rows ++ (rows.take k).map fun row =>
          columns.map fun c => landed ((row[c.source]?.map (csvCell realText)).getD []) := by
  refine ⟨_, exportRows_csv realText header rows, ?_⟩
  generalize himport : job.ofCsv _ columns = again
  have hsource : again.source = ((rows.map (List.map (csvCell realText))).map readBack, none) := by
    rw [← himport]
    exact @recordsOf_csvLines job.parseJson header _
  have hbecome (k : Nat) : again.Become (again.source.1.take k) ((rows.take k).map fun row =>
      columns.map fun c => landed ((row[c.source]?.map (csvCell realText)).getD [])) := by
    rw [hsource, List.map_map, ← List.map_take, ← himport]
    induction rows.take k with
    | nil => exact .nil
    | cons row rest ih =>
      refine .cons ((rowValues_ofCsv columns _).trans ?_) ih
      -- a row without cells is read back with an empty one, and so is a cell that is missing
      cases row with
      | nil => exact congrArg Except.ok (List.map_congr_left fun c _ => by cases c.source <;> rfl)
      | cons cell row =>
        simp only [← List.getElem?_map]
        rfl
  rcases runImportBlocking_commits again t with
    ⟨hrows, hcommitted, herror⟩ | ⟨k, values, hk, hvalues, hrows, hcommitted, hall⟩
  · exact ⟨0, Nat.zero_le _, hcommitted, fun hnone => absurd hnone herror, by simpa using hrows⟩
  · rw [become_unique hvalues (hbecome k)] at hrows
    rw [hsource, List.length_map, List.length_map] at hk hall
    exact ⟨k, hk, by simpa using hcommitted, fun hnone => (hall hnone).1, hrows⟩

end ImportJob

end RedDb.Transfer
