import RedDb.Driver.Edits
import RedDb.Lib.Binary64
import Mathlib.Data.List.AList

/-!
# RedDb — staged grid edits

Edits of a grid are staged under the identity of their row and submitted as one batch.
`buildEditBatch` lists the statements with the staged change each comes from, and a reply
is matched back to the staged changes through that list.

* `buildEditBatch` — updates, then deletes, then draft rows;
* `unstageFinished` — what landed is dropped, per row and per draft;
* `onBatchApplied`, `onBatchPartial` — the two replies to a submitted batch.
-/

namespace RedDb.Grid

open ByteText RedDb.Driver

/-! ## Row identity -/

inductive KeyPart where
  | null
  | int (n : Int)
  | text (s : Bytes)
  deriving DecidableEq

abbrev RowKey := List (Bytes × KeyPart)

def KeyPart.ofValue : Value → Option KeyPart
  | .null => some .null
  | .integer n => some (.int n)
  | .text s => some (.text s)
  | .real _ | .blob _ | .capped _ => none

def RowKey.fromValues (values : List (Bytes × Value)) : Option RowKey :=
  if values.isEmpty then none
  else values.mapM fun (column, v) => (KeyPart.ofValue v).map fun part => (column, part)

/-- `==` on values: floats compare as numbers. -/
def Value.same : Value → Value → Bool
  | .real a, .real b => (Binary64.decode a).eq (Binary64.decode b)
  | a, b => decide (a = b)

/-! ## Staged changes -/

/-- Where an edit of a joined column is written. -/
structure ForeignEdit where
  table : TableRef
  keyColumn : Bytes
  keyValue : Value
  keyType : Option Bytes
  setColumn : Bytes

structure StagedCell where
  value : Value
  foreign : Option ForeignEdit

structure UpdatedRow where
  keyValues : List (Bytes × Value)
  row : Nat
  cells : AList fun _ : Nat => StagedCell

structure DeletedRow where
  keyValues : List (Bytes × Value)
  row : Nat

structure DraftRow where
  cells : AList fun _ : Nat => Value

structure PendingChanges where
  updates : AList fun _ : RowKey => UpdatedRow
  deletes : AList fun _ : RowKey => DeletedRow
  inserts : List DraftRow

def PendingChanges.empty : PendingChanges := ⟨∅, ∅, []⟩

/-- A grid as far as edits go. -/
structure EditGrid where
  table : Option (Bytes × Bytes)
  columns : List Column
  pending : PendingChanges

/-! ## The batch -/

inductive OpSource where
  | update (key : RowKey)
  | delete (key : RowKey)
  | insert (index : Nat)
  deriving DecidableEq

def OpSource.updateKey : OpSource → Option RowKey
  | .update key => some key
  | _ => none

def OpSource.deleteKey : OpSource → Option RowKey
  | .delete key => some key
  | _ => none

def OpSource.insertIndex : OpSource → Option Nat
  | .insert index => some index
  | _ => none

@[simp] theorem OpSource.updateKey_eq_some {source : OpSource} {key : RowKey} :
    source.updateKey = some key ↔ source = .update key := by
  cases source <;> simp [OpSource.updateKey]

@[simp] theorem OpSource.deleteKey_eq_some {source : OpSource} {key : RowKey} :
    source.deleteKey = some key ↔ source = .delete key := by
  cases source <;> simp [OpSource.deleteKey]

/-- The statements in order, each with the staged change it comes from. -/
structure EditBatch where
  entries : List (EditOp × OpSource)

def EditBatch.ops (b : EditBatch) : List EditOp := b.entries.map Prod.fst

def EditBatch.sources (b : EditBatch) : List OpSource := b.entries.map Prod.snd

namespace EditGrid

variable (g : EditGrid)

def colMeta (c : Nat) : Option (Bytes × Option Bytes) :=
  g.columns[c]?.map fun col => (col.name, col.declType)

def declOf (name : Bytes) : Option Bytes :=
  (g.columns.find? fun c => c.name == name).bind (·.declType)

def keyCvs (values : List (Bytes × Value)) : List ColumnValue :=
  values.map fun (column, value) => ⟨column, value, g.declOf column⟩

/-- The assignment of a cell of the table itself. -/
def baseSet (cell : Σ _ : Nat, StagedCell) : Option ColumnValue :=
  match cell.2.foreign with
  | none => (g.colMeta cell.1).map fun (column, declType) => ⟨column, cell.2.value, declType⟩
  | some _ => none

/-- The update of the table a joined cell came from. -/
def foreignUpdate (cell : Σ _ : Nat, StagedCell) : Option EditOp :=
  cell.2.foreign.map fun f =>
    .update f.table [⟨f.keyColumn, f.keyValue, f.keyType⟩]
      [⟨f.setColumn, cell.2.value, (g.colMeta cell.1).bind (·.2)⟩]

def updateOps (tref : TableRef) (key : RowKey) (u : UpdatedRow) : List (EditOp × OpSource) :=
  let foreign := u.cells.entries.filterMap g.foreignUpdate
  let set := u.cells.entries.filterMap g.baseSet
  let keys := g.keyCvs u.keyValues
  -- An update without an identity is never what was meant.
  let base := if set.isEmpty || keys.isEmpty then [] else [EditOp.update tref keys set]
  (foreign ++ base).map fun op => (op, .update key)

def deleteOps (tref : TableRef) (key : RowKey) (d : DeletedRow) : List (EditOp × OpSource) :=
  let keys := g.keyCvs d.keyValues
  if keys.isEmpty then [] else [(.delete tref keys, .delete key)]

def insertOps (tref : TableRef) (index : Nat) (draft : DraftRow) : List (EditOp × OpSource) :=
  let values := draft.cells.entries.filterMap fun cell =>
    (g.colMeta cell.1).map fun (column, declType) => (⟨column, cell.2, declType⟩ : ColumnValue)
  if values.isEmpty then [] else [(.insert tref values, .insert index)]

def buildEditBatch : EditBatch :=
  match g.table with
  | none => ⟨[]⟩
  | some (schema, name) =>
    let tref : TableRef := ⟨some schema, name⟩
    ⟨(g.pending.updates.entries.flatMap fun e => g.updateOps tref e.1 e.2) ++
      (g.pending.deletes.entries.flatMap fun e => g.deleteOps tref e.1 e.2) ++
      g.pending.inserts.zipIdx.flatMap fun (draft, index) => g.insertOps tref index draft⟩

end EditGrid

/-! ## Replies -/

inductive OpStatus where
  | applied (affected : Nat)
  | submitted
  | blocked (reason : String)
  | failed (reason : String)

def OpStatus.unfinished : OpStatus → Bool
  | .blocked _ | .failed _ => true
  | .applied _ | .submitted => false

structure OpOutcome where
  index : Nat
  verb : String
  status : OpStatus

def editVerb : EditOp → String
  | .update .. => "Update"
  | .delete .. => "Delete"
  | .insert .. => "Insert"

/-- Every statement that a staged change produced has finished. -/
def sourceFinished (sources : List OpSource) (done : List Nat) (source : OpSource) : Bool :=
  sources.zipIdx.all fun (s, i) => s != source || done.contains i

/-- The staged changes that landed, as often as they have statements. -/
def landedSources (sources : List OpSource) (done : List Nat) : List OpSource :=
  sources.filter (sourceFinished sources done)

def unstageFinished (p : PendingChanges) (sources : List OpSource) (done : List Nat) :
    PendingChanges :=
  let landed := landedSources sources done
  let drafts := landed.filterMap OpSource.insertIndex
  { updates := (landed.filterMap OpSource.updateKey).foldl (fun m key => m.erase key) p.updates
    deletes := (landed.filterMap OpSource.deleteKey).foldl (fun m key => m.erase key) p.deletes
    -- Highest index first, so that each removal leaves the lower ones in place.
    inserts := (drafts.mergeSort (· ≤ ·)).dedup.reverse.foldl List.eraseIdx p.inserts }

/-- The row, column and value of every cell of an updated row. -/
def UpdatedRow.patches (u : UpdatedRow) : List (Nat × Nat × Value) :=
  u.cells.entries.map fun cell => (u.row, cell.1, cell.2.value)

def landedUpdateCells (p : PendingChanges) (sources : List OpSource) (done : List Nat) :
    List (Nat × Nat × Value) :=
  ((landedSources sources done).filterMap OpSource.updateKey).flatMap fun key =>
    ((p.updates.lookup key).map UpdatedRow.patches).getD []

/-- An edit of a joined column is staged. -/
def PendingChanges.hasForeign (p : PendingChanges) : Bool :=
  p.updates.entries.any fun e => e.2.cells.entries.any fun cell => cell.2.foreign.isSome

/-- A reply's effect: the cells patched in place and the staged changes that are left. A
reload starts over with none. -/
structure Handled where
  patches : List (Nat × Nat × Value)
  reload : Bool
  pending : PendingChanges

def onBatchApplied (p : PendingChanges) : Handled :=
  let structural := !p.deletes.entries.isEmpty || !p.inserts.isEmpty
  if structural || p.hasForeign then ⟨[], true, .empty⟩
  else ⟨p.updates.entries.flatMap fun e => e.2.patches, false, .empty⟩

/-- A delete or an insert landed: every row after it moved. -/
def movesRows (outcomes : List OpOutcome) : Bool :=
  outcomes.any fun o => !o.status.unfinished && (o.verb == "Delete" || o.verb == "Insert")

def onBatchPartial (p : PendingChanges) (submitted : Option (Nat × List OpSource)) (epoch : Nat)
    (outcomes : List OpOutcome) : Handled :=
  let sources := match submitted with
    | some (e, sources) => if e = epoch then sources else []
    | none => []
  let done := (outcomes.filter fun o => !o.status.unfinished).map (·.index)
  if movesRows outcomes || p.hasForeign then ⟨[], true, .empty⟩
  else ⟨landedUpdateCells p sources done, false, unstageFinished p sources done⟩

/-! ## Staging -/

/-- What the user does to the staged changes. A selection names its rows with their
identities. -/
inductive StagingOp where
  | stageCell (row col : Nat) (keyValues : List (Bytes × Value)) (original value : Value)
      (foreign : Option ForeignEdit)
  | stageDraft (index col : Nat) (value : Value)
  | addDraft
  | removeDraft (index : Nat)
  | toggleDelete (rows : List (Nat × List (Bytes × Value)))

namespace PendingChanges

def stageExisting (p : PendingChanges) (row col : Nat) (keyValues : List (Bytes × Value))
    (original value : Value) (foreign : Option ForeignEdit) : PendingChanges :=
  match RowKey.fromValues keyValues with
  | none => p
  | some key =>
    if Value.same value original then
      match p.updates.lookup key with
      | none => p
      | some u =>
        let cells := u.cells.erase col
        if cells.entries.isEmpty then { p with updates := p.updates.erase key }
        else { p with updates := p.updates.insert key { u with cells := cells } }
    else
      let u := (p.updates.lookup key).getD ⟨keyValues, row, ∅⟩
      { p with updates :=
          p.updates.insert key { u with row := row, cells := u.cells.insert col ⟨value, foreign⟩ } }

/-- An emptied cell goes back to the column's default. -/
def stageDraftValue (p : PendingChanges) (index col : Nat) (value : Value) : PendingChanges :=
  let set (d : DraftRow) : DraftRow :=
    ⟨if value.isNull then d.cells.erase col else d.cells.insert col value⟩
  { p with inserts := p.inserts.modify index set }

def toggleDelete (p : PendingChanges) (row : Nat) (keyValues : List (Bytes × Value)) :
    PendingChanges :=
  match RowKey.fromValues keyValues with
  | none => p
  | some key =>
    match p.deletes.lookup key with
    | some _ => { p with deletes := p.deletes.erase key }
    | none => { p with deletes := p.deletes.insert key ⟨keyValues, row⟩ }

@[simp] theorem stageExisting_inserts (p : PendingChanges) (row col : Nat)
    (keyValues : List (Bytes × Value)) (original value : Value) (foreign : Option ForeignEdit) :
    (p.stageExisting row col keyValues original value foreign).inserts = p.inserts := by
  unfold stageExisting
  split
  · rfl
  split
  · split
    · rfl
    · dsimp only
      split <;> rfl
  · rfl

@[simp] theorem toggleDelete_inserts (p : PendingChanges) (row : Nat)
    (keyValues : List (Bytes × Value)) : (p.toggleDelete row keyValues).inserts = p.inserts := by
  unfold toggleDelete
  split
  · rfl
  · split <;> rfl

end PendingChanges

namespace EditGrid

def stage (g : EditGrid) (op : StagingOp) : EditGrid :=
  { g with pending :=
      match op with
      | .stageCell row col keyValues original value foreign =>
        g.pending.stageExisting row col keyValues original value foreign
      | .stageDraft index col value => g.pending.stageDraftValue index col value
      | .addDraft =>
        if g.table.isSome then { g.pending with inserts := g.pending.inserts ++ [⟨∅⟩] }
        else g.pending
      | .removeDraft index => { g.pending with inserts := g.pending.inserts.eraseIdx index }
      | .toggleDelete rows =>
        rows.foldl (fun p (row, keyValues) => p.toggleDelete row keyValues) g.pending }

def stageAll (g : EditGrid) (ops : List StagingOp) : EditGrid := ops.foldl stage g

end EditGrid

end RedDb.Grid
