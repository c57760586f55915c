import RedDb.Transfer.Ddl

/-!
# RedDb — one item of a transfer

An item is resolved to its query and its column shape, the target is prepared (created, dropped
and created, or cleared), the columns are mapped, and the rows are streamed. The servers are
asked through `Servers`, whose state `σ` is all that their answers may depend on.

* `item_failure_keeps_iff` — when an item that fails before its first row leaves the target's rows.
-/

namespace RedDb.Transfer

open ByteText RedDb.Driver RedDb.Schema
open RedDb.Sql (DbKind)

/-! ## The servers -/

/-- Why a driver's call failed. -/
inductive Failure where
  | interrupted
  | other (text : Bytes)

def Failure.text : Failure → Bytes
  | .interrupted => ascii "query cancelled"
  | .other text => text

/-- An open result: its columns, the windows of rows it gives, and how it ends, with its last rows
or with an error. -/
structure ResultCursor where
  columns : List Column
  windows : List (List (List Value))
  last : Except Failure (List (List Value))

/-- The two servers, and the flag that cancels. What a call leaves behind is a state; what it says
may depend on the state it meets. -/
structure Servers (σ : Type) where
  srcKind : DbKind
  dstKind : DbKind
  foreignKeys : σ → Except Failure (List FkEdge)
  describeSource : σ → Bytes → Bytes → Except Failure TableDetail
  openCursor : σ → Bytes → Except Failure ResultCursor
  describeTarget : σ → Bytes → Bytes → Except Failure TableDetail
  dropTable : σ → TableRef → Option Failure × σ
  createTable : σ → TableRef → List ColumnMeta → Option Failure × σ
  clearTable : σ → TableRef → Option Failure × σ
  insertRows : σ → TableRef → List Column → List (List Value) → Except Failure Nat × σ
  createIndex : σ → TableRef → Bytes → Bool → List Bytes → Option Failure × σ
  addForeignKey : σ → TableRef → List Bytes → TableRef → List Bytes → Option Failure × σ
  cancelled : σ → Bool × σ

/-- A plan, the servers it runs on, and the queries of the open results. -/
structure TransferJob (σ : Type) where
  servers : Servers σ
  plan : TransferPlan
  resultSql : Nat → Option Bytes

/-! ## Resolving -/

/-- What an item resolves to before any write. -/
structure Resolved where
  selectSql : Option Bytes
  createColumns : List ColumnMeta
  detail : Option TableDetail
  warnings : List Bytes

/-- Why there is no shape: nothing to do, which is no error, or a failure. -/
inductive ResolveOutcome where
  | skip (reason : Bytes)
  | failed (message : Bytes)

def commaJoined (names : List Bytes) : Bytes := List.intercalate (ascii ", ") names

section Resolve

variable {σ : Type} (job : TransferJob σ)

/-- The defaults that do not travel between engines. -/
def droppedDefaults (columns : List ColumnMeta) : List Bytes :=
  (columns.filter fun c => c.default.isSome && !c.autoIncrement).map ColumnMeta.name

/-- The shape of the target's columns, with what is said about it. -/
def shapeColumns (columns : List ColumnMeta) : List ColumnMeta × List Bytes :=
  if job.servers.srcKind = job.servers.dstKind then
    (applyShapeOptions columns job.plan.options.primaryKeys, [])
  else
    (applyShapeOptions (stripDefaults columns) job.plan.options.primaryKeys,
      if (droppedDefaults columns).isEmpty then []
      else [ascii "column defaults dropped (source and target are different engines): " ++
        commaJoined (droppedDefaults columns)])

/-- A column of a result carries no schema facts. -/
def plainColumn (c : Column) : ColumnMeta := ⟨c.name, c.declType, false, false, none, false⟩

/-- A filter or a cap wraps the query. -/
def wrapQuery (sql : Bytes) : ItemContent → Bytes
  | .where_ expr =>
    if (trim expr).isEmpty then sql
    else ascii "SELECT * FROM (" ++ sql ++ ascii ") AS _red_src WHERE (" ++ expr ++ ascii ")"
  | .limit (n + 1) =>
    ascii "SELECT * FROM (" ++ sql ++ ascii ") AS _red_src LIMIT " ++ ByteText.decimal (n + 1)
  | _ => sql

/-- A query's cursor is opened for its columns, and handed on for its rows. -/
def openQuerySource (item : TransferItem) (sql : Bytes) (s : σ) :
    Except ResolveOutcome (Resolved × Option ResultCursor) :=
  match job.servers.openCursor s (wrapQuery sql item.content) with
  | .error e => .error (.failed e.text)
  | .ok cursor =>
    if cursor.columns.isEmpty then .error (.skip (ascii "the source has no columns"))
    else
      let shaped := shapeColumns job (cursor.columns.map plainColumn)
      .ok (⟨some (wrapQuery sql item.content), shaped.1, none, shaped.2⟩, some cursor)

/-- A table is described, which is where its keys and defaults come from. -/
def openTableSource (item : TransferItem) (source : TableRef) (s : σ) :
    Except ResolveOutcome (Resolved × Option ResultCursor) :=
  match job.servers.describeSource s (source.schema.getD []) source.name with
  | .error e => .error (.failed e.text)
  | .ok detail =>
    if detail.columns.isEmpty then
      .error (.skip (ascii "the source has no columns to create from"))
    else
      let shaped := shapeColumns job detail.columns
      .ok (⟨item.content.selectSql (quoteTable job.servers.srcKind source), shaped.1, some detail,
        shaped.2⟩, none)

def resolve (item : TransferItem) (s : σ) : Except ResolveOutcome (Resolved × Option ResultCursor) :=
  match item.source with
  | .table schema name => openTableSource job item ⟨schema.or job.plan.sourceNamespace, name⟩ s
  | .result epoch =>
    match job.resultSql epoch with
    | none => .error (.failed (ascii "the source result is no longer open"))
    | some sql => openQuerySource job item sql s
  | .sql text =>
    if (trim text).isEmpty then .error (.failed (ascii "the source query is empty"))
    else openQuerySource job item (trim text) s

end Resolve

/-! ## Preparing, mapping, streaming -/

section Run

variable {σ : Type} (job : TransferJob σ) (item : TransferItem)

/-- Drop, create or clear, as the action says; a failed drop ends it. -/
def prepareTarget (target : TableRef) (columns : List ColumnMeta) (s : σ) : Option Failure × σ :=
  match item.action with
  | .recreate =>
    match job.servers.dropTable s target with
    | (some e, s) => (some e, s)
    | (none, s) => job.servers.createTable s target columns
  | .create => job.servers.createTable s target columns
  | .existing .truncateInsert => job.servers.clearTable s target
  | .existing .append | .skip => (none, s)

/-- The columns one to one. -/
def identityMapping (columns : List ColumnMeta) : List ColumnMap :=
  columns.zipIdx.map fun (c, i) => ⟨i, c.name, c.typeName⟩

/-- Each target column that has a source column of its name, in the target's order. -/
def matchByName (sources : List ColumnMeta) (targets : List ColumnMeta) : List ColumnMap :=
  targets.filterMap fun t =>
    (sources.findIdx? fun c => eqIgnoreAsciiCase c.name t.name).map fun i => ⟨i, t.name, t.typeName⟩

/-- What the match by name leaves out, on either side. -/
def matchWarnings (sources targets : List ColumnMeta) : List Bytes :=
  let unmatched := (targets.filter fun t =>
    (sources.findIdx? fun c => eqIgnoreAsciiCase c.name t.name).isNone).map ColumnMeta.name
  let ignored := (sources.zipIdx.filter fun (_, i) =>
    !(matchByName sources targets).any fun m => m.source == i).map fun (c, _) => c.name
  (if unmatched.isEmpty then [] else [ascii "target columns left to their default: " ++ commaJoined unmatched]) ++
    if ignored.isEmpty then [] else [ascii "source columns ignored: " ++ commaJoined ignored]

/-- An explicit mapping wins; an existing target is matched by name; a created one is the identity. -/
def resolveMapping (target : TableRef) (sources : List ColumnMeta) (s : σ) :
    Except Failure (List ColumnMap × List Bytes) :=
  if !item.mapping.isEmpty then .ok (item.mapping, [])
  else match item.action with
    | .existing _ =>
      match job.servers.describeTarget s (target.schema.getD []) target.name with
      | .error e => .error e
      | .ok detail => .ok (matchByName sources detail.columns, matchWarnings sources detail.columns)
    | _ => .ok (identityMapping sources, [])

/-- How a stream ended: the rows committed, the rows taken from the source, what stopped it. -/
structure StreamEnd (σ : Type) where
  committed : Nat
  read : Nat
  error : Option Failure
  state : σ

def projectRow (mapping : List ColumnMap) (row : List Value) : List Value :=
  mapping.map fun m => (row[m.source]?).getD .null

/-- One window is inserted; an empty one is not. -/
def insertWindow (target : TableRef) (mapping : List ColumnMap) (rows : List (List Value)) (s : σ) :
    Except Failure Nat × σ :=
  if rows.isEmpty then (.ok 0, s)
  else job.servers.insertRows s target (mapping.map fun m => ⟨m.column, m.declType⟩)
    (rows.map (projectRow mapping))

/-- Window after window; the flag is looked at before each. -/
@[grind =] def streamWindows (target : TableRef) (mapping : List ColumnMap)
    (last : Except Failure (List (List Value))) :
    List (List (List Value)) → Nat → Nat → σ → StreamEnd σ
  | [], committed, read, s =>
    match job.servers.cancelled s with
    | (true, s) => ⟨committed, read, some .interrupted, s⟩
    | (false, s) =>
      match last with
      | .error e => ⟨committed, read, some e, s⟩
      | .ok rows =>
        match insertWindow job target mapping rows s with
        | (.error e, s) => ⟨committed, read + rows.length, some e, s⟩
        | (.ok n, s) => ⟨committed + n, read + rows.length, none, s⟩
  | rows :: windows, committed, read, s =>
    match job.servers.cancelled s with
    | (true, s) => ⟨committed, read, some .interrupted, s⟩
    | (false, s) =>
      match insertWindow job target mapping rows s with
      | (.error e, s) => ⟨committed, read + rows.length, some e, s⟩
      | (.ok n, s) => streamWindows target mapping last windows (committed + n) (read + rows.length) s

def streamCursorInto (cursor : ResultCursor) (target : TableRef) (mapping : List ColumnMap) (s : σ) :
    StreamEnd σ :=
  streamWindows job target mapping cursor.last cursor.windows 0 0 s

/-- `before “name”` -/
def quotedName (before name : Bytes) : Bytes := before ++ [0xE2, 0x80, 0x9C] ++ name ++ [0xE2, 0x80, 0x9D]

/-- A query hands its cursor over; a table's is opened here. -/
def moveRows (target : TableRef) (resolved : Resolved) (cursor : Option ResultCursor)
    (mapping : List ColumnMap) (s : σ) : StreamEnd σ :=
  if mapping.isEmpty then
    ⟨0, 0, some (.other (quotedName (ascii "no source columns map onto ") item.targetName)), s⟩
  else match cursor with
    | some cursor => streamCursorInto job cursor target mapping s
    | none =>
      match resolved.selectSql with
      | none => ⟨0, 0, some (.other (quotedName (ascii "no rows to read for ") item.targetName)), s⟩
      | some sql =>
        match job.servers.openCursor s sql with
        | .error e => ⟨0, 0, some e, s⟩
        | .ok cursor => streamCursorInto job cursor target mapping s

/-- What happened to one item. -/
inductive ItemOutcome where
  | created | createdEmpty | recreated | appended | replaced
  | skipped (reason : Bytes)
  | failed (message : Bytes)
  deriving DecidableEq

structure ItemReport where
  table : Bytes
  outcome : ItemOutcome
  rows : Nat
  warnings : List Bytes
  deriving DecidableEq

/-- A cancel ends the whole job, an error may not. -/
inductive ItemFailure where
  | cancelled (rows : Nat)
  | error (rows : Nat) (message : Bytes)

/-- How an item ended, the rows taken from its source, and the state it left. -/
structure ItemRun (σ : Type) where
  result : Except ItemFailure (ItemReport × Option TableDetail)
  read : Nat
  state : σ

def outcomeOf : ItemOutcome :=
  match item.action with
  | .create => if item.content.movesRows then .created else .createdEmpty
  | .recreate => .recreated
  | .existing .append => .appended
  | .existing .truncateInsert => .replaced
  | .skip => .skipped (ascii "not selected")

/-- Whether the target is created, and the deferred passes are its. -/
def TransferItem.creates (item : TransferItem) : Bool :=
  item.action == .create || item.action == .recreate

def failureOf (rows : Nat) : Failure → ItemFailure
  | .interrupted => .cancelled rows
  | .other text => .error rows text

/-- One active item, end to end. -/
def runItem (s : σ) : ItemRun σ :=
  let target := job.plan.targetRef item
  match resolve job item s with
  | .error (.skip reason) => ⟨.ok (⟨item.targetName, .skipped reason, 0, []⟩, none), 0, s⟩
  | .error (.failed message) => ⟨.error (.error 0 message), 0, s⟩
  | .ok (resolved, cursor) =>
    match prepareTarget job item target resolved.createColumns s with
    | (some e, s) => ⟨.error (.error 0 e.text), 0, s⟩
    | (none, s) =>
      match resolveMapping job item target resolved.createColumns s with
      | .error e => ⟨.error (.error 0 e.text), 0, s⟩
      | .ok (mapping, warnings) =>
        let detail := if item.creates then resolved.detail else none
        let report (rows : Nat) : ItemReport :=
          ⟨item.targetName, outcomeOf item, rows, resolved.warnings ++ warnings⟩
        if item.content.movesRows then
          let ended := moveRows job item target resolved cursor mapping s
          match ended.error with
          | some e => ⟨.error (failureOf ended.committed e), ended.read, ended.state⟩
          | none => ⟨.ok (report ended.committed, detail), ended.read, ended.state⟩
        else ⟨.ok (report 0, detail), 0, s⟩

end Run

/-! ## What a failed item leaves -/

/-- What the calls do to the rows of the table they are about. A drop or a clear that fails is
rolled back, and a table is created only if it does not exist. -/
structure Effects {σ : Type} (S : Servers σ) (rows : σ → TableRef → List (List Value)) : Prop where
  dropped : ∀ s t, (S.dropTable s t).1 = none → rows (S.dropTable s t).2 t = []
  undropped : ∀ s t, (S.dropTable s t).1 ≠ none → rows (S.dropTable s t).2 t = rows s t
  created : ∀ s t columns, rows (S.createTable s t columns).2 t = rows s t
  cleared : ∀ s t, (S.clearTable s t).1 = none → rows (S.clearTable s t).2 t = []
  uncleared : ∀ s t, (S.clearTable s t).1 ≠ none → rows (S.clearTable s t).2 t = rows s t
  looked : ∀ s t, rows (S.cancelled s).2 t = rows s t

section Failing

variable {σ : Type} {job : TransferJob σ} {item : TransferItem} {rows : σ → TableRef → List (List Value)}
  {target : TableRef} {s : σ}

/-- The source cannot be read: a table that is not described, a result that is gone, a query
that is empty or does not open. -/
def Unreadable (job : TransferJob σ) (item : TransferItem) (s : σ) : Prop :=
  match item.source with
  | .table schema name =>
    ∃ e, job.servers.describeSource s ((schema.or job.plan.sourceNamespace).getD []) name = .error e
  | .result epoch => ∀ sql, job.resultSql epoch = some sql →
    ∃ e, job.servers.openCursor s (wrapQuery sql item.content) = .error e
  | .sql text => trim text = [] ∨ ∃ e, job.servers.openCursor s (wrapQuery (trim text) item.content) = .error e

/-- The call that would destroy the target's rows fails. -/
def DestroyFails (job : TransferJob σ) (item : TransferItem) (s : σ) : Prop :=
  match item.action with
  | .recreate => (job.servers.dropTable s (job.plan.targetRef item)).1 ≠ none
  | .existing .truncateInsert => (job.servers.clearTable s (job.plan.targetRef item)).1 ≠ none
  | _ => False

/-- Nothing destroys the target's rows before they are replaced. -/
def Spared (job : TransferJob σ) (item : TransferItem) (s : σ) : Prop :=
  item.isDestructive = false ∨ Unreadable job item s ∨ DestroyFails job item s

theorem openQuerySource_failed {sql : Bytes} :
    (∃ message, openQuerySource job item sql s = .error (.failed message)) ↔
      ∃ e, job.servers.openCursor s (wrapQuery sql item.content) = .error e := by
  unfold openQuerySource
  split
  · rename_i e hopen
    exact ⟨fun _ => ⟨e, hopen⟩, fun _ => ⟨_, rfl⟩⟩
  · rename_i cursor hopen
    rw [hopen]
    split <;> exact ⟨fun ⟨_, h⟩ => by simp at h, fun ⟨_, h⟩ => by simp at h⟩

/-- A source that cannot be read is all that makes an item fail before it has a shape. -/
theorem resolve_failed :
    (∃ message, resolve job item s = .error (.failed message)) ↔ Unreadable job item s := by
  unfold resolve Unreadable
  cases item.source with
  | table schema name =>
    dsimp only
    unfold openTableSource
    split
    · rename_i e hdescribe
      exact ⟨fun _ => ⟨e, hdescribe⟩, fun _ => ⟨_, rfl⟩⟩
    rename_i detail hdescribe
    dsimp only at hdescribe
    rw [hdescribe]
    split <;> exact ⟨fun ⟨_, h⟩ => by simp at h, fun ⟨_, h⟩ => by simp at h⟩
  | result epoch =>
    dsimp only
    cases job.resultSql epoch with
    | none => exact ⟨fun _ sql h => by simp at h, fun _ => ⟨_, rfl⟩⟩
    | some sql =>
      dsimp only
      rw [openQuerySource_failed]
      exact ⟨fun h sql' hsql' => by
        rw [← Option.some.inj hsql']
        exact h, fun h => h sql rfl⟩
  | sql text =>
    dsimp only
    by_cases hempty : trim text = []
    · rw [hempty]
      exact ⟨fun _ => Or.inl rfl, fun _ => ⟨_, rfl⟩⟩
    · rw [if_neg (by simpa using hempty), openQuerySource_failed]
      exact ⟨Or.inr, fun h => h.resolve_left hempty⟩

theorem insertWindow_empty {mapping : List ColumnMap} {window : List (List Value)} (h : window.length = 0) :
    insertWindow job target mapping window s = (.ok 0, s) := by
  rw [List.length_eq_zero_iff.mp h]
  rfl

theorem streamWindows_read_le (job : TransferJob σ) (target : TableRef) (mapping : List ColumnMap)
    (last : Except Failure (List (List Value))) (windows : List (List (List Value)))
    (committed read : Nat) (s : σ) :
    read ≤ (streamWindows job target mapping last windows committed read s).read := by
  induction windows generalizing committed read s with
  | nil =>
    rw [streamWindows]
    split
    · exact Nat.le_refl _
    · split
      · exact Nat.le_refl _
      · split <;> exact Nat.le_add_right _ _
  | cons window windows ih =>
    rw [streamWindows]
    split
    · exact Nat.le_refl _
    · split
      · exact Nat.le_add_right _ _
      · exact Nat.le_trans (Nat.le_add_right _ _) (ih _ _ _)

/-- A stream that has taken no row has written none. -/
theorem streamWindows_rows (hS : Effects job.servers rows) {mapping : List ColumnMap}
    {last : Except Failure (List (List Value))} (windows : List (List (List Value)))
    (committed read : Nat) (s : σ)
    (h : (streamWindows job target mapping last windows committed read s).read = read) :
    rows (streamWindows job target mapping last windows committed read s).state target =
      rows s target := by
  have hlooked := hS.looked s target
  induction windows generalizing committed read s with
  | nil =>
    rw [streamWindows] at h ⊢
    cases hc : job.servers.cancelled s with
    | mk flag s' =>
      rw [hc] at h hlooked
      cases flag with
      | true => exact hlooked
      | false =>
        cases last with
        | error e => exact hlooked
        | ok window =>
          dsimp only at h ⊢
          by_cases hempty : window.length = 0
          · rw [insertWindow_empty hempty]
            exact hlooked
          · split at h <;> dsimp only at h <;> omega
  | cons window windows ih =>
    rw [streamWindows] at h ⊢
    cases hc : job.servers.cancelled s with
    | mk flag s' =>
      rw [hc] at h hlooked
      cases flag with
      | true => exact hlooked
      | false =>
        dsimp only at h ⊢
        by_cases hempty : window.length = 0
        · rw [insertWindow_empty hempty] at h ⊢
          dsimp only at h ⊢
          rw [hempty, Nat.add_zero] at h ⊢
          exact (ih _ _ _ h (hS.looked s' target)).trans hlooked
        · split at h
          · dsimp only at h
            omega
          rename_i n s'' _
          have hle := streamWindows_read_le job target mapping last windows (committed + n)
            (read + window.length) s''
          omega

theorem moveRows_rows (hS : Effects job.servers rows) {resolved : Resolved}
    {cursor : Option ResultCursor} {mapping : List ColumnMap}
    (h : (moveRows job item target resolved cursor mapping s).read = 0) :
    rows (moveRows job item target resolved cursor mapping s).state target = rows s target := by
  unfold moveRows at h ⊢
  split at h
  · rename_i hempty
    rw [if_pos hempty]
  rename_i hempty
  rw [if_neg hempty]
  cases cursor with
  | some cursor => exact streamWindows_rows hS _ _ _ _ h
  | none =>
    dsimp only at h ⊢
    cases hsql : resolved.selectSql with
    | none => rfl
    | some sql =>
      rw [hsql] at h
      dsimp only at h ⊢
      cases hopen : job.servers.openCursor s sql with
      | error e => rfl
      | ok cursor =>
        rw [hopen] at h
        exact streamWindows_rows hS _ _ _ _ h

/-- What preparing a target leaves of its rows. -/
theorem prepareTarget_rows (hS : Effects job.servers rows) (columns : List ColumnMeta) (s : σ) :
    rows (prepareTarget job item (job.plan.targetRef item) columns s).2 (job.plan.targetRef item) =
      open Classical in
      if item.isDestructive = false ∨ DestroyFails job item s then rows s (job.plan.targetRef item) else [] := by
  unfold prepareTarget TransferItem.isDestructive DestroyFails
  cases haction : item.action with
  | skip => rfl
  | create => exact hS.created _ _ _
  | recreate =>
    have hdropped := hS.dropped s (job.plan.targetRef item)
    have hundropped := hS.undropped s (job.plan.targetRef item)
    dsimp only
    split
    · rename_i e s' hdrop
      rw [hdrop] at hundropped ⊢
      rw [if_pos (Or.inr (by simp))]
      exact hundropped (by simp)
    · rename_i s' hdrop
      rw [hdrop] at hdropped ⊢
      rw [hS.created, hdropped rfl, if_neg (by simp)]
  | existing mode =>
    cases mode with
    | append => rfl
    | truncateInsert =>
      have hcleared := hS.cleared s (job.plan.targetRef item)
      have huncleared := hS.uncleared s (job.plan.targetRef item)
      by_cases hclear : (job.servers.clearTable s (job.plan.targetRef item)).1 = none
      · rw [if_neg (by simpa using hclear)]
        exact hcleared hclear
      · rw [if_pos (Or.inr hclear)]
        exact huncleared hclear

/-- An item that fails before its first row has, of its target's rows, all or none. -/
theorem runItem_rows (hS : Effects job.servers rows) (s : σ) (hread : (runItem job item s).read = 0)
    (hfail : ∃ f, (runItem job item s).result = .error f) :
    rows (runItem job item s).state (job.plan.targetRef item) = open Classical in
      if Spared job item s then rows s (job.plan.targetRef item) else [] := by
  unfold runItem at hread hfail ⊢
  dsimp only at hread hfail ⊢
  cases hresolve : resolve job item s with
  | error o =>
    cases o with
    | skip reason =>
      rw [hresolve] at hfail
      exact absurd hfail (by simp)
    | failed message =>
      have hspared : Spared job item s := Or.inr (Or.inl (resolve_failed.mp ⟨message, hresolve⟩))
      rw [if_pos hspared]
  | ok found =>
    obtain ⟨resolved, cursor⟩ := found
    rw [hresolve] at hread hfail
    dsimp only at hread hfail ⊢
    have hspared : (item.isDestructive = false ∨ DestroyFails job item s) ↔ Spared job item s :=
      ⟨fun h => h.elim Or.inl fun h => Or.inr (Or.inr h), fun h => by
        obtain h | h | h := h
        · exact Or.inl h
        · obtain ⟨message, hmessage⟩ := resolve_failed.mpr h
          rw [hresolve] at hmessage
          exact absurd hmessage (by simp)
        · exact Or.inr h⟩
    have hprepared : rows (prepareTarget job item (job.plan.targetRef item) resolved.createColumns s).2
        (job.plan.targetRef item) =
        open Classical in
        if Spared job item s then rows s (job.plan.targetRef item) else [] := by
      classical
      rw [prepareTarget_rows hS]
      exact ite_congr (propext hspared) (fun _ => rfl) fun _ => rfl
    cases hprepare : prepareTarget job item (job.plan.targetRef item) resolved.createColumns s with
    | mk failed s' =>
      rw [hprepare] at hread hfail hprepared
      cases failed with
      | some e => exact hprepared
      | none =>
        dsimp only at hread hfail hprepared ⊢
        cases hmap : resolveMapping job item (job.plan.targetRef item) resolved.createColumns s' with
        | error e => exact hprepared
        | ok found =>
          rw [hmap] at hread hfail
          dsimp only at hread hfail ⊢
          split at hfail
          · rename_i hmoves
            rw [if_pos hmoves] at hread ⊢
            cases herror : (moveRows job item (job.plan.targetRef item) resolved cursor found.1 s').error with
            | none =>
              rw [herror] at hfail
              exact absurd hfail (by simp)
            | some e =>
              rw [herror] at hread
              dsimp only at hread ⊢
              rw [moveRows_rows hS hread]
              exact hprepared
          · exact absurd hfail (by simp)

end Failing

/-- An item that fails before it has taken a row of its source leaves the rows of its target just
when nothing destroyed them on the way, or there were none. -/
theorem item_failure_keeps_iff {σ : Type} (job : TransferJob σ)
    (rows : σ → TableRef → List (List Value)) (hS : Effects job.servers rows) (item : TransferItem) (s : σ)
    (f : ItemFailure) (hfail : (runItem job item s).result = .error f)
    (hread : (runItem job item s).read = 0) :
    rows (runItem job item s).state (job.plan.targetRef item) = rows s (job.plan.targetRef item) ↔
      Spared job item s ∨ rows s (job.plan.targetRef item) = [] := by
  rw [runItem_rows hS s hread ⟨f, hfail⟩]
  by_cases hspared : Spared job item s
  · rw [if_pos hspared]
    exact ⟨fun _ => Or.inl hspared, fun _ => rfl⟩
  · rw [if_neg hspared]
    exact ⟨fun h => Or.inr h.symm, fun h => (h.resolve_left hspared).symm⟩

-- A target of one row and one column, `b`, and a source whose only column is `a`.

/-- Servers that do what they are asked. The state is the rows of the target. -/
def oneTable : Servers (List (List Value)) where
  srcKind := .postgres
  dstKind := .postgres
  foreignKeys _ := .ok []
  describeSource _ _ _ := .ok ⟨[⟨ascii "a", some (ascii "integer"), false, false, none, false⟩], [], [], by simp⟩
  openCursor _ _ := .ok ⟨[⟨ascii "a", some (ascii "integer")⟩], [[[.null]]], .ok []⟩
  describeTarget _ _ _ := .ok ⟨[⟨ascii "b", some (ascii "integer"), false, false, none, false⟩], [], [], by simp⟩
  dropTable _ _ := (none, [])
  createTable s _ _ := (none, s)
  clearTable _ _ := (none, [])
  insertRows s _ _ inserted := (.ok inserted.length, s ++ inserted)
  createIndex s _ _ _ _ := (none, s)
  addForeignKey s _ _ _ _ := (none, s)
  cancelled s := (false, s)

theorem oneTable_effects : Effects oneTable fun s _ => s where
  dropped _ _ _ := rfl
  undropped _ _ h := absurd rfl h
  created _ _ _ := rfl
  cleared _ _ _ := rfl
  uncleared _ _ h := absurd rfl h
  looked _ _ := rfl

def replacingItem : TransferItem :=
  ⟨.table none (ascii "people"), ascii "people", .existing .truncateInsert, .allRows, []⟩

def replacingJob : TransferJob (List (List Value)) :=
  ⟨oneTable, ⟨none, none, [replacingItem], ⟨true, true, true, .stop, false⟩⟩, fun _ => none⟩

/-- No column maps, nothing is read, and the target's row is gone. -/
theorem replacing_item_loses :
    (∃ f, (runItem replacingJob replacingItem [[.null]]).result = .error f) ∧
      (runItem replacingJob replacingItem [[.null]]).read = 0 ∧
      (runItem replacingJob replacingItem [[.null]]).state = [] :=
  ⟨⟨_, rfl⟩, rfl, rfl⟩

/-- The condition decides it there. -/
theorem item_failure_keeps_iff_replacing :
    ∃ f, (runItem replacingJob replacingItem [[.null]]).result = .error f ∧
      ([] = [[Value.null]] ↔ Spared replacingJob replacingItem [[.null]] ∨ [[Value.null]] = []) :=
  ⟨_, rfl, item_failure_keeps_iff replacingJob (fun s _ => s) oneTable_effects replacingItem [[.null]] _ rfl rfl⟩

end RedDb.Transfer
