import RedDb.Transfer.Job

/-!
# RedDb — the dry run of a transfer

A dry run writes the script of what the job would execute and nothing else. It walks the plan by
itself: each item is resolved on the servers as they stand, and the deferred passes are written from
the tables the items would create.

* `dry_run_agrees_iff` — when the script and the run have the same statements and the same columns.
-/

namespace RedDb.Transfer

open ByteText RedDb.Driver RedDb.Schema
open RedDb.Sql (DbKind)

/-! ## The script -/

/-- A part of the script: a remark, a statement, or the insert that stands for the rows of an item. -/
inductive ScriptPart where
  | remark (text : Bytes)
  | statement (sql : Bytes)
  | insert (target : TableRef) (columns : List Bytes)

def ScriptPart.text (quote : Bytes → Bytes) : ScriptPart → Bytes
  | .remark text => text
  | .statement sql => sql ++ ascii ";\n"
  | .insert target columns =>
    ascii "INSERT INTO " ++ qualifyTable quote target ++ ascii " (" ++ quotedList quote columns ++
      ascii ") VALUES (...);\n"

def ScriptPart.statement? : ScriptPart → Option Bytes
  | .statement sql => some sql
  | _ => none

def ScriptPart.insert? : ScriptPart → Option (TableRef × List Bytes)
  | .insert target columns => some (target, columns)
  | _ => none

def ItemAction.verb : ItemAction → Bytes
  | .skip => ascii "skipped"
  | .create => ascii "created"
  | .existing .append => ascii "appended into"
  | .existing .truncateInsert => ascii "cleared and refilled"
  | .recreate => ascii "recreated"

def ItemContent.label : ItemContent → Bytes
  | .structureOnly => ascii "structure only"
  | .allRows => ascii "all rows"
  | .where_ _ => ascii "filtered"
  | .limit _ => ascii "first rows"

def ResolveOutcome.text : ResolveOutcome → Bytes
  | .skip reason => reason
  | .failed message => message

def itemRemark (item : TransferItem) (text : Bytes) : ScriptPart :=
  .remark (ascii "\n-- " ++ item.targetName ++ text ++ ascii "\n")

section Script

variable {σ : Type} (job : TransferJob σ)

/-- What prepares the target of an item, as the shared builders write it. -/
def scriptPreparation (item : TransferItem) (columns : List ColumnMeta) : List ScriptPart :=
  let quote := quoteIdent job.servers.dstKind
  let target := job.plan.targetRef item
  (if item.action = .recreate then [.statement (dropTableSql quote target)] else []) ++
    (if item.creates then [.statement (createTableSql quote target columns job.servers.dstKind)] else []) ++
    if item.action = .existing .truncateInsert then
      [.statement (ascii "DELETE FROM " ++ qualifyTable quote target)]
    else []

/-- The rows of an item: the query that reads them and the insert they would go by. -/
def scriptRows (item : TransferItem) (resolved : Resolved) : List ScriptPart :=
  match resolved.selectSql with
  | some sql =>
    [.remark (ascii "-- rows read with: " ++ sql ++ ascii "\n"),
      .insert (job.plan.targetRef item) (resolved.createColumns.map ColumnMeta.name)]
  | none => [.remark (ascii "-- structure only, no rows\n")]

def scriptItem (s : σ) (item : TransferItem) : List ScriptPart :=
  if !item.isActive then [itemRemark item (ascii " - skipped")]
  else match resolve job item s with
    | .error o => [itemRemark item (ascii " - " ++ o.text)]
    | .ok (resolved, _) =>
      itemRemark item (ascii " (" ++ item.action.verb ++ ascii ", " ++ item.content.label ++ ascii ")") ::
        (scriptPreparation job item resolved.createColumns ++ scriptRows job item resolved)

/-- The table that an item would create from a source table. -/
def plannedTable (s : σ) (index : Nat) (item : TransferItem) : Option CreatedTable :=
  if item.isActive && item.creates then
    match resolve job item s with
    | .error _ => none
    | .ok (resolved, _) => resolved.detail.map fun detail => ⟨index, item, detail⟩
  else none

def plannedTables (s : σ) : List CreatedTable :=
  (orderedItems job.plan (sourceKeys job s)).filterMap fun e => plannedTable job s e.1 e.2

def scriptIndexes (c : CreatedTable) : List Bytes :=
  (c.detail.indexes.filter (deferred c.detail)).map fun idx =>
    createIndexSql (quoteIdent job.servers.dstKind) (job.plan.targetRef c.item)
      (indexNameFor job.plan c.item idx.name) idx.unique idx.columns job.servers.dstKind

/-- A foreign key whose tables were both created; the script does not look at their schemas. -/
def scriptForeignKey (created : List CreatedTable) (fk : FkEdge) : Option Bytes :=
  match landedAs created fk.fromTable, landedAs created fk.toTable with
  | some child, some parent =>
    some (addFkSql (quoteIdent job.servers.dstKind) ⟨job.plan.targetNamespace, child⟩ (fk.columns.map Prod.fst)
      ⟨job.plan.targetNamespace, parent⟩ (fk.columns.map Prod.snd))
  | _, _ => none

/-- Some statements under a heading, which stands only over statements. -/
def headed (heading : Bytes) (statements : List Bytes) : List ScriptPart :=
  if statements.isEmpty then [] else .remark heading :: statements.map .statement

def scriptHead : List ScriptPart :=
  .remark (ascii "-- Transfer dry run. Nothing was written.\n") ::
    match job.plan.targetNamespace with
    | some ns => [.remark (ascii "-- Target namespace: " ++ ns ++ ascii "\n")]
    | none => []

def renderScript (s : σ) : List ScriptPart :=
  let created := plannedTables job s
  scriptHead job ++
    (orderedItems job.plan (sourceKeys job s)).flatMap (fun e => scriptItem job s e.2) ++
    (if job.plan.options.indexes then
      headed (ascii "\n-- Deferred index pass\n") (created.flatMap (scriptIndexes job))
    else []) ++
    if job.plan.options.foreignKeys then
      headed (ascii "\n-- Deferred foreign-key pass\n")
        ((sourceKeys job s).filterMap (scriptForeignKey job created))
    else []

def scriptText (s : σ) : Bytes :=
  (renderScript job s).flatMap (ScriptPart.text (quoteIdent job.servers.dstKind))

end Script

/-! ## The run -/

/-- The servers, with every statement that the target's driver is asked for; one that the driver has no
statement for is none. -/
def Servers.recorded {σ : Type} (S : Servers σ) : Servers (σ × List (Option Bytes)) where
  srcKind := S.srcKind
  dstKind := S.dstKind
  foreignKeys t := S.foreignKeys t.1
  describeSource t := S.describeSource t.1
  openCursor t := S.openCursor t.1
  describeTarget t := S.describeTarget t.1
  dropTable t target :=
    let r := S.dropTable t.1 target
    (r.1, r.2, t.2 ++ [some (dropStatement S.dstKind target)])
  createTable t target columns :=
    let r := S.createTable t.1 target columns
    (r.1, r.2, t.2 ++ [some (createStatement S.dstKind target columns)])
  clearTable t target :=
    let r := S.clearTable t.1 target
    (r.1, r.2, t.2 ++ [some (clearStatement S.dstKind target)])
  insertRows t target columns rows :=
    let r := S.insertRows t.1 target columns rows
    (r.1, r.2, t.2)
  createIndex t target name unique columns :=
    let r := S.createIndex t.1 target name unique columns
    (r.1, r.2, t.2 ++ [indexStatement S.dstKind target name unique columns])
  addForeignKey t child columns parent refs :=
    let r := S.addForeignKey t.1 child columns parent refs
    (r.1, r.2, t.2 ++ [fkStatement S.dstKind child columns parent refs])
  cancelled t :=
    let r := S.cancelled t.1
    (r.1, r.2, t.2)

def TransferJob.recorded {σ : Type} (job : TransferJob σ) : TransferJob (σ × List (Option Bytes)) :=
  { job with servers := job.servers.recorded }

/-- An item with the state it was taken in. -/
structure Visit (σ : Type) where
  index : Nat
  item : TransferItem
  state : σ

section Visits

variable {σ : Type} (job : TransferJob σ)

/-- The items as a job takes them, each after the look at the flag. -/
def visitsFrom : List (Nat × TransferItem) → Progress σ → List (Visit σ)
  | [], _ => []
  | (index, item) :: rest, p =>
    ⟨index, item, (job.servers.cancelled p.state).2⟩ :: visitsFrom rest (takeItem job index item p).1

def visits (s : σ) : List (Visit σ) :=
  visitsFrom job (orderedItems job.plan (sourceKeys job s)) ⟨⟨[], 0⟩, [], [], s⟩

/-- The columns that an item copies its rows into. -/
def copiedColumns (v : Visit σ) : Option (TableRef × List Bytes) :=
  let target := job.plan.targetRef v.item
  match resolve job v.item v.state with
  | .error _ => none
  | .ok (resolved, _) =>
    if v.item.isActive && v.item.content.movesRows then
      let prepared := (prepareTarget job v.item target resolved.createColumns v.state).2
      match resolveMapping job v.item target resolved.createColumns prepared with
      | .error _ => none
      | .ok (mapping, _) => some (target, mapping.map ColumnMap.column)
    else none

end Visits

/-- What a job executes on the target, in order. -/
def executed {σ : Type} (job : TransferJob σ) (s : σ) : List (Option Bytes) :=
  (transferJob job.recorded (s, [])).state.2

/-! ## Shapes -/

variable {item : TransferItem}

section Shapes

variable {σ : Type} (job : TransferJob σ)

/-- What an item that is active resolves to. -/
def shape (s : σ) (item : TransferItem) : Option Resolved :=
  if item.isActive then (resolve job item s).toOption.map Prod.fst else none

/-- What the drivers execute to prepare a target. -/
def prepared (item : TransferItem) (columns : List ColumnMeta) : List Bytes :=
  let kind := job.servers.dstKind
  let target := job.plan.targetRef item
  (if item.action = .recreate then [dropStatement kind target] else []) ++
    (if item.creates then [createStatement kind target columns] else []) ++
    if item.action = .existing .truncateInsert then [clearStatement kind target] else []

def visitStatements (v : Visit σ) : List Bytes :=
  match shape job v.state v.item with
  | some resolved => prepared job v.item resolved.createColumns
  | none => []

def visitCreated (v : Visit σ) : Option CreatedTable :=
  if v.item.creates then
    (shape job v.state v.item).bind fun resolved => resolved.detail.map fun detail => ⟨v.index, v.item, detail⟩
  else none

theorem shapeColumns_ne_nil {columns : List ColumnMeta} (h : columns ≠ []) :
    (shapeColumns job columns).1 ≠ [] := by
  unfold shapeColumns applyShapeOptions stripDefaults
  split <;> split <;> simpa using h

/-- What is resolved has columns; a table's query is there when rows move, a query's always. -/
theorem resolve_ok {s : σ} {resolved : Resolved} {cursor : Option ResultCursor}
    (h : resolve job item s = .ok (resolved, cursor)) : resolved.createColumns ≠ [] ∧
      (resolved.selectSql.isSome = (item.content.movesRows || item.sourceKey.isNone)) := by
  have hquery {sql : Bytes} (h : openQuerySource job item sql s = .ok (resolved, cursor)) :
      resolved.createColumns ≠ [] ∧ resolved.selectSql.isSome = true := by
    unfold openQuerySource at h
    split at h
    · exact absurd h (by simp)
    rename_i opened _
    split at h
    · exact absurd h (by simp)
    rename_i hcolumns
    rw [Except.ok.injEq, Prod.mk.injEq] at h
    rw [← h.1]
    exact ⟨shapeColumns_ne_nil job (by simpa using hcolumns), rfl⟩
  unfold resolve at h
  unfold TransferItem.sourceKey
  cases hsource : item.source with
  | table schema name =>
    rw [hsource] at h
    dsimp only at h ⊢
    unfold openTableSource at h
    split at h
    · exact absurd h (by simp)
    split at h
    · exact absurd h (by simp)
    rename_i hcolumns
    rw [Except.ok.injEq, Prod.mk.injEq] at h
    rw [← h.1]
    exact ⟨shapeColumns_ne_nil job (by simpa using hcolumns), by
      rw [selectSql_isSome, Option.isNone_some, Bool.or_false]⟩
  | result epoch | sql text =>
    rw [hsource] at h
    dsimp only at h ⊢
    rw [Option.isNone_none, Bool.or_true]
    split at h
    · exact absurd h (by simp)
    · exact hquery h

theorem shape_eq_some {s : σ} {resolved : Resolved} : shape job s item = some resolved ↔
      item.isActive = true ∧ ∃ cursor, resolve job item s = .ok (resolved, cursor) := by
  unfold shape
  cases item.isActive with
  | false => simp
  | true =>
    cases resolve job item s with
    | error o => simp [Except.toOption]
    | ok found => simp [Except.toOption, Prod.ext_iff]

end Shapes

/-! ## What a run records -/

variable {τ : Type}

section Recording

variable {σ : Type} {job : TransferJob σ} {t t' : σ × List (Option Bytes)}

theorem prepareTarget_recorded {columns : List ColumnMeta}
    (h : prepareTarget job.recorded item (job.plan.targetRef item) columns t = (none, t')) :
    t'.2 = t.2 ++ (prepared job item columns).map some := by
  unfold prepareTarget at h
  unfold prepared TransferItem.creates
  cases haction : item.action with
  | skip | create =>
    rw [haction] at h
    rw [← (Prod.mk.inj h).2]
    simp
  | recreate =>
    rw [haction] at h
    dsimp only at h
    split at h
    · exact absurd (Prod.mk.inj h).1 (by simp)
    rename_i s hdrop
    have hs := (Prod.mk.inj hdrop).2
    rw [← (Prod.mk.inj h).2, ← hs]
    simp
  | existing mode =>
    rw [haction] at h
    cases mode with
    | append | truncateInsert =>
      rw [← (Prod.mk.inj h).2]
      simp

theorem insertWindow_recorded (job : TransferJob σ) (target : TableRef) (mapping : List ColumnMap) (rows : List (List Value))
    (t : σ × List (Option Bytes)) : (insertWindow job.recorded target mapping rows t).2.2 = t.2 := by
  unfold insertWindow
  split <;> rfl

theorem streamWindows_recorded (target : TableRef) (mapping : List ColumnMap)
    (last : Except Failure (List (List Value))) (windows : List (List (List Value)))
    (committed read : Nat) (t : σ × List (Option Bytes)) :
    (streamWindows job.recorded target mapping last windows committed read t).state.2 = t.2 := by
  have hlooked (t : σ × List (Option Bytes)) : (job.recorded.servers.cancelled t).2.2 = t.2 := rfl
  induction windows generalizing committed read t with
  | nil =>
    rw [streamWindows]
    split
    · rename_i s hs
      rw [← hlooked t, hs]
    rename_i s hs
    rw [← hlooked t, hs]
    split
    · rfl
    rename_i rows
    have hinsert := insertWindow_recorded job target mapping rows s
    split
    · rename_i s' hs'
      rw [hs'] at hinsert
      exact hinsert
    · rename_i s' hs'
      rw [hs'] at hinsert
      exact hinsert
  | cons window windows ih =>
    rw [streamWindows]
    split
    · rename_i s hs
      rw [← hlooked t, hs]
    rename_i s hs
    rw [← hlooked t, hs]
    have hinsert := insertWindow_recorded job target mapping window s
    split
    · rename_i s' hs'
      rw [hs'] at hinsert
      exact hinsert
    · rename_i s' hs'
      rw [hs'] at hinsert
      exact (ih _ _ _).trans hinsert

theorem moveRows_recorded (job : TransferJob σ) (item : TransferItem) (target : TableRef) (resolved : Resolved)
    (cursor : Option ResultCursor) (mapping : List ColumnMap) (t : σ × List (Option Bytes)) :
    (moveRows job.recorded item target resolved cursor mapping t).state.2 = t.2 := by
  unfold moveRows
  split
  · rfl
  split
  · exact streamWindows_recorded ..
  split
  · rfl
  · split
    · rfl
    · exact streamWindows_recorded ..

/-- An item that ends well has prepared its target by the statements of its shape, and hands on the
table it created. -/
theorem runItem_recorded (hactive : item.isActive = true) {report : ItemReport}
    {detail : Option TableDetail} (h : (runItem job.recorded item t).result = .ok (report, detail)) (index : Nat) :
    (runItem job.recorded item t).state.2 =
        t.2 ++ (visitStatements job.recorded ⟨index, item, t⟩).map some ∧
      (detail.map fun d => (⟨index, item, d⟩ : CreatedTable)) = visitCreated job.recorded ⟨index, item, t⟩ := by
  have hshape : shape job.recorded t item = (resolve job.recorded item t).toOption.map Prod.fst := by
    rw [shape, if_pos hactive]
  unfold visitStatements visitCreated
  dsimp only
  rw [hshape]
  unfold runItem at h ⊢
  dsimp only at h ⊢
  cases hresolve : resolve job.recorded item t with
  | error o =>
    rw [hresolve] at h
    cases o with
    | failed message => exact absurd h (by simp)
    | skip reason =>
      rw [← (Prod.mk.inj (Except.ok.inj h)).2]
      simp [Except.toOption]
  | ok found =>
    obtain ⟨resolved, cursor⟩ := found
    rw [hresolve] at h
    dsimp only [Except.toOption, Option.map_some, Option.bind_some] at h ⊢
    cases hprepare : prepareTarget job.recorded item (job.recorded.plan.targetRef item)
        resolved.createColumns t with
    | mk failed t' =>
      rw [hprepare] at h
      cases failed with
      | some e => exact absurd h (by simp)
      | none =>
        have hlog := prepareTarget_recorded hprepare
        dsimp only at h ⊢
        cases hmap : resolveMapping job.recorded item (job.recorded.plan.targetRef item)
            resolved.createColumns t' with
        | error e =>
          rw [hmap] at h
          exact absurd h (by simp)
        | ok found =>
          rw [hmap] at h
          dsimp only at h ⊢
          have hdetail (d : Option TableDetail) (hd : (if item.creates then resolved.detail else none) = d) :
              (d.map fun d => (⟨index, item, d⟩ : CreatedTable)) =
                if item.creates then resolved.detail.map fun d => ⟨index, item, d⟩ else none := by
            rw [← hd]
            split <;> rfl
          have hmoved := moveRows_recorded job item (job.recorded.plan.targetRef item) resolved
            cursor found.1 t'
          split at h
          · rename_i hmoves
            rw [if_pos hmoves]
            cases herror : (moveRows job.recorded item (job.recorded.plan.targetRef item) resolved cursor
                found.1 t').error with
            | some e =>
              rw [herror] at h
              exact absurd h (by simp)
            | none =>
              rw [herror] at h
              exact ⟨hmoved.trans hlog, hdetail _ (Prod.mk.inj (Except.ok.inj h)).2⟩
          · rename_i hmoves
            rw [if_neg hmoves]
            exact ⟨hlog, hdetail _ (Prod.mk.inj (Except.ok.inj h)).2⟩

/-- No report told so far is that of a failure. -/
def NoneFailed {τ : Type} (p : Progress τ) : Prop :=
  ∀ e ∈ p.told, ∀ message, e.2.outcome ≠ .failed message

theorem takeItem_told (job : TransferJob τ) (index : Nat) (item : TransferItem) (p : Progress τ) :
    p.told ⊆ (takeItem job index item p).1.told := by
  unfold takeItem
  split
  · exact List.Subset.refl _
  split
  · exact List.subset_append_left _ _
  dsimp only
  split
  · split <;> exact List.subset_append_left _ _
  · exact List.subset_append_left _ _
  · split <;> exact List.subset_append_left _ _

theorem takeItems_told (job : TransferJob τ) (entries : List (Nat × TransferItem)) (p : Progress τ) :
    p.told ⊆ (takeItems job entries p).1.told := by
  induction entries generalizing p with
  | nil => exact List.Subset.refl _
  | cons entry entries ih =>
    rw [takeItems]
    have hstep := takeItem_told job entry.1 entry.2 p
    split
    · rename_i p' outcome hp'
      rw [hp'] at hstep
      exact hstep
    · rename_i p' hp'
      rw [hp'] at hstep
      exact List.Subset.trans hstep (ih p')

/-- An item that neither ends the job nor fails is recorded by its statements and its created table. -/
theorem takeItem_recorded (job : TransferJob σ) {index : Nat} {item : TransferItem}
    {p : Progress (σ × List (Option Bytes))}
    (hgoes : (takeItem job.recorded index item p).2 = none)
    (hnone : NoneFailed (takeItem job.recorded index item p).1) :
    let v : Visit (σ × List (Option Bytes)) := ⟨index, item, (job.recorded.servers.cancelled p.state).2⟩
    (takeItem job.recorded index item p).1.state.2 = p.state.2 ++ (visitStatements job.recorded v).map some ∧
      (takeItem job.recorded index item p).1.created = p.created ++ (visitCreated job.recorded v).toList := by
  have hlooked : (job.recorded.servers.cancelled p.state).2.2 = p.state.2 := rfl
  unfold takeItem at hgoes hnone ⊢
  dsimp only
  cases hc : job.recorded.servers.cancelled p.state with
  | mk flag t =>
    rw [hc] at hgoes hnone hlooked
    cases flag with
    | true => exact absurd hgoes (by simp)
    | false =>
      dsimp only at hgoes hnone hlooked ⊢
      rw [← hlooked]
      split at hgoes
      · rename_i hinactive
        have hshape : shape job.recorded t item = none := by
          rw [shape, if_neg (by simpa using hinactive)]
        rw [if_pos hinactive, visitStatements, visitCreated]
        dsimp only
        rw [hshape]
        simp [Progress.report]
      · rename_i hactive
        rw [if_neg hactive] at hnone ⊢
        have hactive : item.isActive = true := by simpa using hactive
        cases hrun : (runItem job.recorded item t).result with
        | ok found =>
          obtain ⟨report, detail⟩ := found
          obtain ⟨hlog, hcreated⟩ := runItem_recorded hactive hrun index
          rw [← hcreated]
          cases detail with
          | none => exact ⟨hlog, (List.append_nil _).symm⟩
          | some detail => exact ⟨hlog, rfl⟩
        | error failure =>
          rw [hrun] at hgoes hnone
          cases failure with
          | cancelled rows => exact absurd hgoes (by simp)
          | error rows message =>
            dsimp only at hgoes hnone
            split at hnone
            all_goals exact absurd rfl (hnone _ (List.mem_append_right _ (List.mem_singleton_self _)) message)

/-- The items, taken to the last one. -/
theorem takeItems_recorded (job : TransferJob σ) {entries : List (Nat × TransferItem)}
    {p : Progress (σ × List (Option Bytes))} (hgoes : (takeItems job.recorded entries p).2 = none)
    (hnone : NoneFailed (takeItems job.recorded entries p).1) :
    (takeItems job.recorded entries p).1.state.2 = p.state.2 ++
        ((visitsFrom job.recorded entries p).flatMap (visitStatements job.recorded)).map some ∧
      (takeItems job.recorded entries p).1.created = p.created ++
        (visitsFrom job.recorded entries p).filterMap (visitCreated job.recorded) := by
  induction entries generalizing p with
  | nil => exact ⟨(List.append_nil _).symm, (List.append_nil _).symm⟩
  | cons entry entries ih =>
    obtain ⟨index, item⟩ := entry
    have htold := takeItems_told job.recorded entries (takeItem job.recorded index item p).1
    have hstep := @takeItem_recorded σ job index item p
    rw [takeItems] at hgoes hnone ⊢
    rw [visitsFrom]
    cases htake : takeItem job.recorded index item p with
    | mk p' ended =>
      rw [htake] at hgoes hnone hstep htold
      cases ended with
      | some outcome => exact absurd hgoes (by simp)
      | none =>
        obtain ⟨hlog, hcreated⟩ := hstep rfl fun e he => hnone e (htold he)
        obtain ⟨hlogs, hcreateds⟩ := ih hgoes hnone
        dsimp only at hlog hcreated ⊢
        rw [hlogs, hcreateds, hlog, hcreated, List.flatMap_cons, List.map_append, List.append_assoc,
          List.append_assoc]
        refine ⟨rfl, congrArg _ ?_⟩
        cases hv : visitCreated job.recorded ⟨index, item, (job.recorded.servers.cancelled p.state).2⟩ with
        | none => rw [List.filterMap_cons_none hv]; rfl
        | some c => rw [List.filterMap_cons_some hv]; rfl

/-- What the index pass asks the target's driver for. -/
def askedIndexes (job : TransferJob σ) (c : CreatedTable) : List (Option Bytes) :=
  (c.detail.indexes.filter (deferred c.detail)).map fun idx =>
    indexStatement job.servers.dstKind (job.plan.targetRef c.item) (indexNameFor job.plan c.item idx.name)
      idx.unique idx.columns

/-- What the foreign-key pass asks for, when it comes to that. -/
def askedForeignKey (job : TransferJob σ) (created : List CreatedTable) (fk : FkEdge) : Option (Option Bytes) :=
  match landedAs created fk.fromTable, landedAs created fk.toTable with
  | some child, some parent =>
    if !inScope job.plan.sourceNamespace fk.fromSchema || !inScope job.plan.sourceNamespace fk.toSchema then none
    else some (fkStatement job.servers.dstKind ⟨job.plan.targetNamespace, child⟩ (fk.columns.map Prod.fst)
      ⟨job.plan.targetNamespace, parent⟩ (fk.columns.map Prod.snd))
  | _, _ => none

theorem deferIndexesOf_recorded (c : CreatedTable) (d : Deferred (σ × List (Option Bytes))) :
    (deferIndexesOf job.recorded c d).state.2 = d.state.2 ++ askedIndexes job c := by
  have hstep (d : Deferred (σ × List (Option Bytes))) (idx : IndexMeta) :
      (deferIndex job.recorded c d idx).state.2 = d.state.2 ++
        if deferred c.detail idx then
          [indexStatement job.servers.dstKind (job.plan.targetRef c.item)
            (indexNameFor job.plan c.item idx.name) idx.unique idx.columns]
        else [] := by
    unfold deferIndex
    split
    · dsimp only
      split
      · rename_i t ht
        exact (congrArg (fun r => r.2.2) ht).symm
      · rename_i e t ht
        exact (congrArg (fun r => r.2.2) ht).symm
    · split <;> simp
  have hfold : ∀ (indexes : List IndexMeta) (d : Deferred (σ × List (Option Bytes))),
      (indexes.foldl (deferIndex job.recorded c) d).state.2 = d.state.2 ++
        (indexes.filter (deferred c.detail)).map fun idx =>
          indexStatement job.servers.dstKind (job.plan.targetRef c.item)
            (indexNameFor job.plan c.item idx.name) idx.unique idx.columns := by
    intro indexes
    induction indexes with
    | nil => exact fun d => (List.append_nil _).symm
    | cons idx indexes ih =>
      intro d
      rw [List.foldl_cons, ih, hstep, List.append_assoc, List.filter_cons]
      split <;> simp
  unfold deferIndexesOf
  dsimp only
  split <;> exact hfold c.detail.indexes d

theorem deferredIndexes_recorded (hrun : ∀ s, (job.servers.cancelled s).1 = false)
    (created : List CreatedTable) (d : Deferred (σ × List (Option Bytes))) :
    (deferredIndexes job.recorded created d).state.2 = d.state.2 ++ created.flatMap (askedIndexes job) := by
  induction created generalizing d with
  | nil => exact (List.append_nil _).symm
  | cons c created ih =>
    rw [deferredIndexes]
    split
    · rename_i t hc
      exact absurd (congrArg Prod.fst hc) (by simp [TransferJob.recorded, Servers.recorded, hrun])
    · rename_i t hc
      rw [ih, deferIndexesOf_recorded, List.flatMap_cons, List.append_assoc, ← (Prod.mk.inj hc).2]

theorem deferForeignKey_recorded (created : List CreatedTable) (d : Deferred (σ × List (Option Bytes)))
    (fk : FkEdge) : (deferForeignKey job.recorded created d fk).state.2 =
      d.state.2 ++ (askedForeignKey job created fk).toList := by
  unfold deferForeignKey askedForeignKey
  cases landedAs created fk.fromTable with
  | none => exact (List.append_nil _).symm
  | some child =>
    cases landedAs created fk.toTable with
    | none => exact (List.append_nil _).symm
    | some parent =>
      dsimp only
      rw [show job.recorded.plan = job.plan from rfl]
      by_cases hscope : (!inScope job.plan.sourceNamespace fk.fromSchema ||
          !inScope job.plan.sourceNamespace fk.toSchema) = true
      · rw [if_pos hscope, if_pos hscope]
        exact (List.append_nil _).symm
      rw [if_neg hscope, if_neg hscope]
      split
      · rename_i t ht
        exact (congrArg (fun r => r.2.2) ht).symm
      · rename_i e t ht
        exact (congrArg (fun r => r.2.2) ht).symm

theorem deferredForeignKeys_recorded (hrun : ∀ s, (job.servers.cancelled s).1 = false)
    (created : List CreatedTable) (fks : List FkEdge) (d : Deferred (σ × List (Option Bytes))) :
    (deferredForeignKeys job.recorded created fks d).state.2 =
      d.state.2 ++ fks.filterMap (askedForeignKey job created) := by
  induction fks generalizing d with
  | nil => exact (List.append_nil _).symm
  | cons fk fks ih =>
    rw [deferredForeignKeys]
    split
    · rename_i t hc
      exact absurd (congrArg Prod.fst hc) (by simp [TransferJob.recorded, Servers.recorded, hrun])
    rename_i t hc
    rw [ih, deferForeignKey_recorded, List.append_assoc, ← (Prod.mk.inj hc).2]
    congr 1
    cases hfk : askedForeignKey job created fk with
    | none => rw [List.filterMap_cons_none hfk]; rfl
    | some sql => rw [List.filterMap_cons_some hfk]; rfl

end Recording

/-! ## Script and run -/

section Agreement

variable {σ : Type} (job : TransferJob σ) (s : σ)

/-- The statements and the insert columns of the script are those of the run. -/
def Agrees : Prop :=
  (renderScript job s).filterMap ScriptPart.statement? = (executed job s).filterMap id ∧
    (renderScript job s).filterMap ScriptPart.insert? =
      (visits job.recorded (s, [])).filterMap (copiedColumns job.recorded)

/-- A run in which nothing fails: it is not cancelled, it finishes without a failed item, and the
target's driver has a statement for all that it is asked. -/
structure Uneventful : Prop where
  running : ∀ s, (job.servers.cancelled s).1 = false
  finished : ∃ summary, (transferJob job.recorded (s, [])).outcome = .finished summary ∧
    ∀ r ∈ summary.items, ∀ message, r.outcome ≠ .failed message
  asked : none ∉ executed job s

/-- The source is, for each item when it is taken, what it was for the script. -/
def Steady : Prop :=
  ∀ v ∈ visits job.recorded (s, []), shape job.recorded v.state v.item = shape job s v.item

/-- The columns that rows are copied into: those of the mapping, the matched ones of an existing
target, or those the target is created with. -/
def targetNames (v : Visit σ) (resolved : Resolved) : Option (List Bytes) :=
  if !v.item.mapping.isEmpty then some (v.item.mapping.map ColumnMap.column)
  else match v.item.action with
    | .existing _ =>
      let target := job.plan.targetRef v.item
      let prepared := (prepareTarget job v.item target resolved.createColumns v.state).2
      (job.servers.describeTarget prepared (target.schema.getD []) target.name).toOption.map fun detail =>
        (detail.columns.filter fun t =>
          resolved.createColumns.any fun c => eqIgnoreAsciiCase c.name t.name).map ColumnMeta.name
    | _ => some (resolved.createColumns.map ColumnMeta.name)

/-- What makes the script tell what an item does: ClickHouse's driver is not to create or to clear, a
query is not to be copied without its rows, and rows go into columns named like those of the source. -/
structure ItemPredicted (v : Visit σ) (resolved : Resolved) : Prop where
  builder : job.servers.dstKind = .clickhouse →
    v.item.creates = false ∧ v.item.action ≠ .existing .truncateInsert
  moved : v.item.sourceKey = none → v.item.content.movesRows = true
  columns : v.item.content.movesRows = true →
    targetNames job v resolved = some (resolved.createColumns.map ColumnMeta.name)

/-- And the foreign keys between created tables are those of the plan's schema. -/
structure Predicted : Prop where
  items : ∀ v ∈ visits job.recorded (s, []), ∀ resolved, shape job s v.item = some resolved →
    ItemPredicted job.recorded v resolved
  scope : job.plan.options.foreignKeys = true → ∀ fk ∈ sourceKeys job s,
    (landedAs (plannedTables job s) fk.fromTable).isSome = true →
    (landedAs (plannedTables job s) fk.toTable).isSome = true →
    inScope job.plan.sourceNamespace fk.fromSchema = true ∧ inScope job.plan.sourceNamespace fk.toSchema = true

end Agreement

-- Lists that are put together piece by piece, no piece of the one longer than that of the other.

variable {α β : Type}

theorem flatMap_length_le {f g : α → List β} {l : List α}
    (h : ∀ a ∈ l, (f a).length ≤ (g a).length) : (l.flatMap f).length ≤ (l.flatMap g).length := by
  induction l with
  | nil => exact Nat.le_refl _
  | cons a l ih =>
    rw [List.flatMap_cons, List.flatMap_cons, List.length_append, List.length_append]
    exact Nat.add_le_add (h a (List.mem_cons_self ..)) (ih fun b hb => h b (List.mem_cons_of_mem a hb))

theorem flatMap_eq_iff {f g : α → List β} {l : List α}
    (h : ∀ a ∈ l, (f a).length ≤ (g a).length) : l.flatMap f = l.flatMap g ↔ ∀ a ∈ l, f a = g a := by
  induction l with
  | nil => exact ⟨fun _ a ha => absurd ha List.not_mem_nil, fun _ => rfl⟩
  | cons a l ih =>
    have hrest : ∀ b ∈ l, (f b).length ≤ (g b).length := fun b hb => h b (List.mem_cons_of_mem a hb)
    rw [List.flatMap_cons, List.flatMap_cons, List.forall_mem_cons, ← ih hrest]
    refine ⟨fun heq => ?_, fun ⟨hhead, htail⟩ => by rw [hhead, htail]⟩
    have hlength := congrArg List.length heq
    rw [List.length_append, List.length_append] at hlength
    have hhead := h a (List.mem_cons_self ..)
    have htail := flatMap_length_le hrest
    exact List.append_inj heq (by omega)

section Agreeing

variable {σ : Type} {job : TransferJob σ} {s : σ}

theorem visitsFrom_map (job : TransferJob τ) (entries : List (Nat × TransferItem)) (p : Progress τ) :
    (visitsFrom job entries p).map (fun v => (v.index, v.item)) = entries := by
  induction entries generalizing p with
  | nil => rfl
  | cons entry entries ih => rw [visitsFrom, List.map_cons, ih]

theorem deferredPasses_recorded (hrun : ∀ s, (job.servers.cancelled s).1 = false)
    (created : List CreatedTable) (fks : List FkEdge) (d : Deferred (σ × List (Option Bytes))) :
    (deferredPasses job.recorded created fks d).state.2 = d.state.2 ++
        (if job.plan.options.indexes then created.flatMap (askedIndexes job) else []) ++
        if job.plan.options.foreignKeys then fks.filterMap (askedForeignKey job created) else [] := by
  have hindexes : (if job.plan.options.indexes then deferredIndexes job.recorded created d else d).state.2 =
      d.state.2 ++ if job.plan.options.indexes then created.flatMap (askedIndexes job) else [] := by
    split
    · exact deferredIndexes_recorded hrun created d
    · exact (List.append_nil _).symm
  unfold deferredPasses
  dsimp only
  rw [show job.recorded.plan = job.plan from rfl, ← hindexes]
  split
  · exact deferredForeignKeys_recorded hrun created fks _
  · exact (List.append_nil _).symm

/-- What an uneventful run executes. -/
theorem executed_eq (hun : Uneventful job s) : executed job s =
      ((visits job.recorded (s, [])).flatMap (visitStatements job.recorded)).map some ++
        (if job.plan.options.indexes then
          ((visits job.recorded (s, [])).filterMap (visitCreated job.recorded)).flatMap (askedIndexes job)
        else []) ++ if job.plan.options.foreignKeys then (sourceKeys job s).filterMap
            (askedForeignKey job ((visits job.recorded (s, [])).filterMap (visitCreated job.recorded)))
        else [] := by
  obtain ⟨summary, hfinished, hnone⟩ := hun.finished
  have hstart : Taken job.recorded [] (⟨⟨[], 0⟩, [], [], (s, [])⟩ : Progress (σ × List (Option Bytes))) :=
    ⟨⟨rfl, rfl⟩, rfl, rfl, List.Sublist.refl _, fun c hc => absurd hc (by simp)⟩
  obtain ⟨hbalanced, hstopped, -⟩ :=
    takeItems_taken hstart (orderedItems job.recorded.plan (sourceKeys job.recorded (s, [])))
  unfold executed
  unfold transferJob at hfinished ⊢
  split at hfinished
  · exact absurd hfinished (by simp)
  rename_i hdry
  rw [if_neg hdry]
  cases hitems : takeItems job.recorded (orderedItems job.recorded.plan (sourceKeys job.recorded (s, [])))
      ⟨⟨[], 0⟩, [], [], (s, [])⟩ with
  | mk p ended =>
    rw [hitems] at hfinished hbalanced hstopped
    cases ended with
    | some outcome => exact absurd hfinished ((hstopped outcome rfl).2 summary)
    | none =>
      obtain ⟨-, htold⟩ := deferredPasses_balanced job.recorded hbalanced (sourceKeys job.recorded (s, []))
      have hpasses := deferredPasses_recorded hun.running p.created (sourceKeys job.recorded (s, []))
        ⟨p.summary, [], p.state⟩
      dsimp only at hfinished htold ⊢
      split at hfinished
      · exact absurd hfinished (by simp)
      rename_i t hc
      have hsummary := TransferOutcome.finished.inj hfinished
      have hpnone : NoneFailed p := by
        intro e he message hfailed
        have hcore : e.2.core ∈ summary.items.map ItemReport.core := by
          rw [← hsummary, htold]
          exact List.mem_map_of_mem (f := fun t => t.2.core) he
        obtain ⟨r, hr, hrcore⟩ := List.mem_map.mp hcore
        refine hnone r hr message ?_
        rw [← hfailed]
        exact congrArg (fun core => core.2.1) hrcore
      obtain ⟨hlog, hcreated⟩ := takeItems_recorded job (by rw [hitems]) (by rw [hitems]; exact hpnone)
      rw [hitems] at hlog hcreated
      have hkept : t.2 = (deferredPasses job.recorded p.created (sourceKeys job.recorded (s, []))
          ⟨p.summary, [], p.state⟩).state.2 := (congrArg (fun r => r.2.2) hc).symm
      dsimp only
      rw [hkept, hpasses, hlog, hcreated]
      rfl

theorem plannedTable_eq (s : σ) (index : Nat) (item : TransferItem) :
    plannedTable job s index item = if item.creates then
      (shape job s item).bind fun resolved => resolved.detail.map fun detail => ⟨index, item, detail⟩ else none := by
  unfold plannedTable shape
  cases item.isActive with
  | false => simp
  | true =>
    rw [Bool.true_and, if_pos rfl]
    split
    · cases resolve job item s with
      | error o => rfl
      | ok found => rfl
    · rfl

/-- The tables that an uneventful run creates are the planned ones. -/
theorem visits_created (hsteady : Steady job s) :
    (visits job.recorded (s, [])).filterMap (visitCreated job.recorded) = plannedTables job s := by
  have hentries := visitsFrom_map job.recorded (orderedItems job.plan (sourceKeys job s))
    ⟨⟨[], 0⟩, [], [], (s, [])⟩
  unfold plannedTables
  rw [← hentries, List.filterMap_map]
  refine List.filterMap_congr fun v hv => ?_
  rw [visitCreated, hsteady v hv]
  exact (plannedTable_eq s v.index v.item).symm

/-- What the script writes to prepare a target. -/
def printed (job : TransferJob σ) (item : TransferItem) (columns : List ColumnMeta) : List Bytes :=
  let quote := quoteIdent job.servers.dstKind
  let target := job.plan.targetRef item
  (if item.action = .recreate then [dropTableSql quote target] else []) ++
    (if item.creates then [createTableSql quote target columns job.servers.dstKind] else []) ++
    if item.action = .existing .truncateInsert then [ascii "DELETE FROM " ++ qualifyTable quote target] else []

/-- What the script writes of one item. -/
def writtenStatements (job : TransferJob σ) (s : σ) (item : TransferItem) : List Bytes :=
  match shape job s item with
  | some resolved => printed job item resolved.createColumns
  | none => []

def writtenInsert (job : TransferJob σ) (s : σ) (item : TransferItem) : List (TableRef × List Bytes) :=
  match shape job s item with
  | some resolved =>
    if resolved.selectSql.isSome then
      [(job.plan.targetRef item, resolved.createColumns.map ColumnMeta.name)] else []
  | none => []

theorem scriptItem_parts (f : ScriptPart → Option β) (hf : ∀ text, f (.remark text) = none) (s : σ)
    (item : TransferItem) : (scriptItem job s item).filterMap f = match shape job s item with
      | some resolved => (scriptPreparation job item resolved.createColumns).filterMap f ++
          (scriptRows job item resolved).filterMap f
      | none => [] := by
  have hremark (t : Bytes) : f (itemRemark item t) = none := hf _
  unfold scriptItem shape
  cases item.isActive with
  | false => simp [hremark]
  | true =>
    cases resolve job item s with
    | error o => simp [hremark, Except.toOption]
    | ok found =>
      rw [if_neg (by simp), if_pos rfl]
      exact (List.filterMap_cons_none (hremark _)).trans List.filterMap_append

theorem scriptItem_statements (s : σ) (item : TransferItem) :
    (scriptItem job s item).filterMap ScriptPart.statement? = writtenStatements job s item := by
  have hpreparation (columns : List ColumnMeta) :
      (scriptPreparation job item columns).filterMap ScriptPart.statement? = printed job item columns := by
    unfold scriptPreparation printed
    dsimp only
    rw [List.filterMap_append, List.filterMap_append]
    refine congrArg₂ _ (congrArg₂ _ ?_ ?_) ?_ <;> split <;> rfl
  have hrows (resolved : Resolved) : (scriptRows job item resolved).filterMap ScriptPart.statement? = [] := by
    unfold scriptRows
    split <;> rfl
  rw [scriptItem_parts _ (fun _ => rfl), writtenStatements]
  cases shape job s item with
  | none => rfl
  | some resolved => simp only [hpreparation, hrows, List.append_nil]

theorem scriptItem_inserts (s : σ) (item : TransferItem) :
    (scriptItem job s item).filterMap ScriptPart.insert? = writtenInsert job s item := by
  have hpreparation (columns : List ColumnMeta) :
      (scriptPreparation job item columns).filterMap ScriptPart.insert? = [] := by
    unfold scriptPreparation
    dsimp only
    rw [List.filterMap_append, List.filterMap_append]
    split <;> split <;> split <;> rfl
  have hrows (resolved : Resolved) : (scriptRows job item resolved).filterMap ScriptPart.insert? =
      if resolved.selectSql.isSome then
        [(job.plan.targetRef item, resolved.createColumns.map ColumnMeta.name)] else [] := by
    unfold scriptRows
    cases resolved.selectSql <;> rfl
  rw [scriptItem_parts _ (fun _ => rfl), writtenInsert]
  cases shape job s item with
  | none => rfl
  | some resolved => simp only [hpreparation, hrows, List.nil_append]

theorem headed_statements (heading : Bytes) (statements : List Bytes) :
    (headed heading statements).filterMap ScriptPart.statement? = statements := by
  unfold headed
  split
  · rename_i h
    rw [List.isEmpty_iff.mp h]
    rfl
  · show (statements.map ScriptPart.statement).filterMap ScriptPart.statement? = statements
    rw [List.filterMap_map]
    exact List.filterMap_some

theorem headed_inserts (heading : Bytes) (statements : List Bytes) :
    (headed heading statements).filterMap ScriptPart.insert? = [] := by
  unfold headed
  split
  · rfl
  · show (statements.map ScriptPart.statement).filterMap ScriptPart.insert? = []
    rw [List.filterMap_map]
    exact List.filterMap_eq_nil_iff.mpr fun _ _ => rfl

theorem scriptHead_parts (f : ScriptPart → Option β) (hf : ∀ text, f (.remark text) = none) :
    (scriptHead job).filterMap f = [] := by
  unfold scriptHead
  split <;> simp [hf]

/-- The statements of the script, in order. -/
theorem renderScript_statements : (renderScript job s).filterMap ScriptPart.statement? =
      (orderedItems job.plan (sourceKeys job s)).flatMap (fun e => writtenStatements job s e.2) ++
      (if job.plan.options.indexes then (plannedTables job s).flatMap (scriptIndexes job) else []) ++
      if job.plan.options.foreignKeys then
        (sourceKeys job s).filterMap (scriptForeignKey job (plannedTables job s)) else [] := by
  unfold renderScript
  dsimp only
  rw [List.filterMap_append, List.filterMap_append, List.filterMap_append,
    scriptHead_parts _ fun _ => rfl, List.nil_append, List.filterMap_flatMap]
  refine congrArg₂ _ (congrArg₂ _ ?_ ?_) ?_
  · exact congrArg (fun f => List.flatMap f _) (funext fun e => scriptItem_statements s e.2)
  · split
    · exact headed_statements ..
    · rfl
  · split
    · exact headed_statements ..
    · rfl

/-- The inserts of the script, in order. -/
theorem renderScript_inserts : (renderScript job s).filterMap ScriptPart.insert? =
      (orderedItems job.plan (sourceKeys job s)).flatMap (fun e => writtenInsert job s e.2) := by
  unfold renderScript
  dsimp only
  rw [List.filterMap_append, List.filterMap_append, List.filterMap_append,
    scriptHead_parts _ fun _ => rfl, List.nil_append, List.filterMap_flatMap]
  have hindexes : (if job.plan.options.indexes then
      headed (ascii "\n-- Deferred index pass\n") ((plannedTables job s).flatMap (scriptIndexes job))
      else []).filterMap ScriptPart.insert? = [] := by
    split
    · exact headed_inserts ..
    · rfl
  have hkeys : (if job.plan.options.foreignKeys then
      headed (ascii "\n-- Deferred foreign-key pass\n")
        ((sourceKeys job s).filterMap (scriptForeignKey job (plannedTables job s)))
      else []).filterMap ScriptPart.insert? = [] := by
    split
    · exact headed_inserts ..
    · rfl
  rw [hindexes, hkeys, List.append_nil, List.append_nil]
  exact congrArg (fun f => List.flatMap f _) (funext fun e => scriptItem_inserts s e.2)

theorem printed_length (item : TransferItem) (columns : List ColumnMeta) :
    (printed job item columns).length = (prepared job item columns).length := by
  unfold printed prepared
  dsimp only
  rw [List.length_append, List.length_append, List.length_append, List.length_append]
  refine congrArg₂ _ (congrArg₂ _ ?_ ?_) ?_ <;> split <;> rfl

/-- Only ClickHouse's driver has statements of its own, to create and to clear. -/
theorem printed_eq_prepared_iff {item : TransferItem} {columns : List ColumnMeta} (hcolumns : columns ≠ []) :
    printed job item columns = prepared job item columns ↔
      (job.servers.dstKind = .clickhouse → item.creates = false ∧ item.action ≠ .existing .truncateInsert) := by
  unfold printed prepared
  dsimp only
  by_cases hkind : job.servers.dstKind = .clickhouse
  · have hcreate := chCreateTableSql_ne (quoteIdent .clickhouse) (job.plan.targetRef item) hcolumns
    rw [hkind, createStatement, if_pos rfl, clearStatement, if_pos rfl, dropStatement]
    unfold TransferItem.creates
    cases item.action with
    | skip => simp
    | create | recreate => simpa using hcreate
    | existing mode =>
      cases mode with
      | append => simp
      | truncateInsert =>
        simp only [reduceCtorEq, if_false, if_true, ne_eq, not_true_eq_false, and_false, forall_const,
          iff_false]
        exact fun h => absurd (List.cons.inj (List.cons.inj h).1).1 (by decide)
  · rw [createStatement, if_neg hkind, clearStatement, if_neg hkind]
    exact ⟨fun _ h => absurd h hkind, fun _ => rfl⟩

theorem matchByName_names (sources targets : List ColumnMeta) :
    (matchByName sources targets).map ColumnMap.column =
      (targets.filter fun t => sources.any fun c => eqIgnoreAsciiCase c.name t.name).map ColumnMeta.name := by
  unfold matchByName
  induction targets with
  | nil => rfl
  | cons target targets ih =>
    have hany : (sources.any fun c => eqIgnoreAsciiCase c.name target.name) =
        (sources.findIdx? fun c => eqIgnoreAsciiCase c.name target.name).isSome := by
      rw [List.findIdx?_isSome]
    rw [List.filter_cons, hany]
    cases hfound : sources.findIdx? fun c => eqIgnoreAsciiCase c.name target.name with
    | none => rw [List.filterMap_cons_none (by rw [hfound]; rfl), ih]; rfl
    | some i => rw [List.filterMap_cons_some (by rw [hfound]; rfl), List.map_cons, ih]; rfl

theorem identityMapping_names (sources : List ColumnMeta) :
    (identityMapping sources).map ColumnMap.column = sources.map ColumnMeta.name := by
  unfold identityMapping
  rw [List.map_map]
  show sources.zipIdx.map (ColumnMeta.name ∘ Prod.fst) = _
  rw [← List.map_map, List.zipIdx_map_fst]

/-- What a mapping resolves to, by the names of its columns. -/
theorem resolveMapping_names (job : TransferJob τ) (v : Visit τ) (resolved : Resolved) :
    (resolveMapping job v.item (job.plan.targetRef v.item) resolved.createColumns
      (prepareTarget job v.item (job.plan.targetRef v.item) resolved.createColumns v.state).2).toOption.map
        (fun found => found.1.map ColumnMap.column) = targetNames job v resolved := by
  unfold resolveMapping targetNames
  split
  · rfl
  cases v.item.action with
  | skip | create | recreate => exact congrArg some (identityMapping_names _)
  | existing mode =>
    dsimp only
    cases job.servers.describeTarget _ _ _ with
    | error e => rfl
    | ok detail => exact congrArg some (matchByName_names ..)

/-- The columns an item copies into, by its shape. -/
theorem copiedColumns_eq (job : TransferJob τ) (v : Visit τ) : copiedColumns job v =
      (shape job v.state v.item).bind fun resolved => if v.item.content.movesRows then
          (targetNames job v resolved).map fun names => (job.plan.targetRef v.item, names)
        else none := by
  unfold copiedColumns shape
  dsimp only
  cases hresolve : resolve job v.item v.state with
  | error o => cases v.item.isActive <;> rfl
  | ok found =>
    dsimp only
    cases v.item.isActive with
    | false => rfl
    | true =>
      rw [Bool.true_and, if_pos rfl]
      dsimp only [Except.toOption, Option.map_some, Option.bind_some]
      rw [← resolveMapping_names]
      split
      · cases resolveMapping job v.item (job.plan.targetRef v.item) found.1.createColumns _ <;> rfl
      · rfl

/-- What the script and the run have of one item. -/
theorem item_predicted_iff {s : σ} {v : Visit (σ × List (Option Bytes))}
    (hsteady : shape job.recorded v.state v.item = shape job s v.item) :
    (writtenStatements job s v.item = visitStatements job.recorded v ∧
      writtenInsert job s v.item = (copiedColumns job.recorded v).toList) ↔
      ∀ resolved, shape job s v.item = some resolved → ItemPredicted job.recorded v resolved := by
  rw [writtenStatements, writtenInsert, visitStatements, copiedColumns_eq, hsteady]
  cases hshape : shape job s v.item with
  | none => simp
  | some resolved =>
    obtain ⟨-, cursor, hresolve⟩ := (shape_eq_some job).mp hshape
    obtain ⟨hcolumns, hselect⟩ := resolve_ok job hresolve
    have hbuilder := @printed_eq_prepared_iff σ job v.item _ hcolumns
    have hinserts : ((if resolved.selectSql.isSome then
        [(job.plan.targetRef v.item, resolved.createColumns.map ColumnMeta.name)] else []) =
        (if v.item.content.movesRows then (targetNames job.recorded v resolved).map fun names =>
          (job.plan.targetRef v.item, names) else none).toList) ↔
        ((v.item.sourceKey = none → v.item.content.movesRows = true) ∧
          (v.item.content.movesRows = true →
            targetNames job.recorded v resolved = some (resolved.createColumns.map ColumnMeta.name))) := by
      rw [hselect]
      cases v.item.content.movesRows with
      | true =>
        rw [Bool.true_or, if_pos rfl, if_pos rfl]
        cases targetNames job.recorded v resolved with
        | none => simp
        | some names => simp [eq_comm]
      | false =>
        rw [Bool.false_or, if_neg Bool.false_ne_true]
        cases v.item.sourceKey <;> simp
    dsimp only [Option.bind_some]
    rw [show prepared job.recorded = prepared job from rfl, hbuilder]
    refine (and_congr_right fun _ => hinserts).trans ⟨fun h r hr => ?_, fun h => ?_⟩
    · rw [← Option.some.inj hr]
      exact ⟨h.1, h.2.1, h.2.2⟩
    · obtain ⟨hb, hm, hc⟩ := h resolved rfl
      exact ⟨hb, hm, hc⟩

theorem askedIndexes_eq {c : CreatedTable} (h : none ∉ askedIndexes job c) :
    askedIndexes job c = (scriptIndexes job c).map some := by
  unfold askedIndexes at h ⊢
  unfold scriptIndexes
  rw [List.map_map]
  refine List.map_congr_left fun idx hidx => ?_
  have hsome : indexStatement job.servers.dstKind (job.plan.targetRef c.item)
      (indexNameFor job.plan c.item idx.name) idx.unique idx.columns ≠ none := fun hnone =>
    h (hnone ▸ List.mem_map_of_mem hidx)
  unfold indexStatement at hsome ⊢
  split at hsome
  · exact absurd rfl hsome
  · rename_i hkind
    rw [if_neg hkind]
    rfl

/-- What the script and the run have of one foreign key. -/
theorem foreignKey_predicted_iff {created : List CreatedTable} {fk : FkEdge}
    (h : askedForeignKey job created fk ≠ some none) :
    (scriptForeignKey job created fk).map some = askedForeignKey job created fk ↔
      ((landedAs created fk.fromTable).isSome = true → (landedAs created fk.toTable).isSome = true →
        inScope job.plan.sourceNamespace fk.fromSchema = true ∧
          inScope job.plan.sourceNamespace fk.toSchema = true) := by
  revert h
  unfold askedForeignKey scriptForeignKey
  cases landedAs created fk.fromTable with
  | none => simp
  | some child =>
    cases landedAs created fk.toTable with
    | none => simp
    | some parent =>
      intro h
      dsimp only at h ⊢
      by_cases hscope : inScope job.plan.sourceNamespace fk.fromSchema = true ∧
          inScope job.plan.sourceNamespace fk.toSchema = true
      · rw [if_neg (by simp [hscope])] at h ⊢
        refine ⟨fun _ _ _ => hscope, fun _ => ?_⟩
        unfold fkStatement at h ⊢
        split at h
        · exact absurd rfl h
        · rename_i hkind
          rw [if_neg hkind]
          rfl
      · rw [if_pos (by
          rw [Bool.or_eq_true, Bool.not_eq_true', Bool.not_eq_true', ← Bool.not_eq_true, ← Bool.not_eq_true,
            ← not_and_or]
          exact hscope)]
        simpa using hscope

/-- No more is asked than the script has. -/
theorem askedForeignKey_length (created : List CreatedTable) (fk : FkEdge) :
    (askedForeignKey job created fk).toList.length ≤
      ((scriptForeignKey job created fk).map some).toList.length := by
  unfold askedForeignKey scriptForeignKey
  cases landedAs created fk.fromTable with
  | none => exact Nat.le_refl _
  | some child =>
    cases landedAs created fk.toTable with
    | none => exact Nat.le_refl _
    | some parent =>
      dsimp only
      split
      · exact Nat.zero_le _
      · exact Nat.le_refl _

end Agreeing

theorem map_some_filterMap_id {l : List (Option α)} (h : none ∉ l) : (l.filterMap id).map some = l := by
  induction l with
  | nil => rfl
  | cons x l ih =>
    rw [List.mem_cons, not_or] at h
    obtain ⟨a, rfl⟩ := Option.ne_none_iff_exists'.mp (Ne.symm h.1)
    show some a :: (l.filterMap id).map some = some a :: l
    rw [ih h.2]

theorem append_append_eq_iff {a a' b c c' : List α} (h : a.length = a'.length) :
    a ++ b ++ c = a' ++ b ++ c' ↔ a = a' ∧ c = c' := by
  rw [List.append_assoc, List.append_assoc]
  refine ⟨fun heq => ?_, fun ⟨ha, hc⟩ => by rw [ha, hc]⟩
  obtain ⟨ha, hrest⟩ := List.append_inj heq h
  exact ⟨ha, List.append_cancel_left hrest⟩

theorem toList_injective {a b : Option α} (h : a.toList = b.toList) : a = b := by
  cases a <;> cases b <;> simp_all

/-- The foreign keys of the script are those of the run, where they are of the plan's schema. -/
theorem foreignKeys_predicted_iff {σ : Type} {job : TransferJob σ} {created : List CreatedTable}
    {fks : List FkEdge} (h : none ∉ fks.filterMap (askedForeignKey job created)) :
    (fks.filterMap (scriptForeignKey job created)).map some = fks.filterMap (askedForeignKey job created) ↔
      ∀ fk ∈ fks, (landedAs created fk.fromTable).isSome = true → (landedAs created fk.toTable).isSome = true →
        inScope job.plan.sourceNamespace fk.fromSchema = true ∧
          inScope job.plan.sourceNamespace fk.toSchema = true := by
  rw [List.map_filterMap, List.filterMap_eq_flatMap_toList, List.filterMap_eq_flatMap_toList, eq_comm,
    flatMap_eq_iff fun fk _ => askedForeignKey_length created fk]
  refine forall₂_congr fun fk hfk => ?_
  have hsome : askedForeignKey job created fk ≠ some none := fun hnone =>
    h (List.mem_filterMap.mpr ⟨fk, hfk, hnone⟩)
  rw [← foreignKey_predicted_iff hsome, eq_comm]
  exact ⟨toList_injective, congrArg Option.toList⟩

section Parts

variable {σ : Type} {job : TransferJob σ} {s : σ}

theorem writtenStatements_length {v : Visit (σ × List (Option Bytes))}
    (hsteady : shape job.recorded v.state v.item = shape job s v.item) :
    (writtenStatements job s v.item).length = (visitStatements job.recorded v).length := by
  rw [writtenStatements, visitStatements, hsteady]
  cases shape job s v.item with
  | none => rfl
  | some resolved => exact printed_length ..

theorem copiedColumns_length {v : Visit (σ × List (Option Bytes))}
    (hsteady : shape job.recorded v.state v.item = shape job s v.item) :
    (copiedColumns job.recorded v).toList.length ≤ (writtenInsert job s v.item).length := by
  rw [copiedColumns_eq, writtenInsert, hsteady]
  cases hshape : shape job s v.item with
  | none => exact Nat.le_refl _
  | some resolved =>
    obtain ⟨-, cursor, hresolve⟩ := (shape_eq_some job).mp hshape
    obtain ⟨-, hselect⟩ := resolve_ok job hresolve
    dsimp only [Option.bind_some]
    split
    · rename_i hmoves
      rw [hselect, hmoves, Bool.true_or, if_pos rfl]
      exact Option.length_toList_le
    · exact Nat.zero_le _

/-- The foreign keys between tables of the plan are of the plan's schema. -/
def KeysScoped (job : TransferJob σ) (s : σ) : Prop :=
  job.plan.options.foreignKeys = true → ∀ fk ∈ sourceKeys job s,
    (landedAs (plannedTables job s) fk.fromTable).isSome = true →
    (landedAs (plannedTables job s) fk.toTable).isSome = true →
    inScope job.plan.sourceNamespace fk.fromSchema = true ∧ inScope job.plan.sourceNamespace fk.toSchema = true

/-- The statements agree when those of every item do, and the foreign keys. -/
theorem statements_agree_iff (hun : Uneventful job s) (hsteady : Steady job s) :
    (renderScript job s).filterMap ScriptPart.statement? = (executed job s).filterMap id ↔
      (∀ v ∈ visits job.recorded (s, []),
        writtenStatements job s v.item = visitStatements job.recorded v) ∧ KeysScoped job s := by
  have hentries : orderedItems job.plan (sourceKeys job s) =
      (visits job.recorded (s, [])).map fun v => (v.index, v.item) := (visitsFrom_map ..).symm
  have hexecuted := executed_eq hun
  rw [visits_created hsteady] at hexecuted
  have hasked := hun.asked
  rw [hexecuted, List.mem_append, List.mem_append, not_or, not_or] at hasked
  obtain ⟨⟨-, hindexes⟩, hkeys⟩ := hasked
  have hsameIndexes : (if job.plan.options.indexes then (plannedTables job s).flatMap (askedIndexes job) else []) =
      (if job.plan.options.indexes then (plannedTables job s).flatMap (scriptIndexes job) else []).map some := by
    split
    · rename_i hoption
      rw [if_pos hoption] at hindexes
      rw [List.map_flatMap]
      refine List.flatMap_congr fun c hc => askedIndexes_eq fun hmem => hindexes ?_
      exact List.mem_flatMap.mpr ⟨c, hc, hmem⟩
    · rfl
  have hsameKeys : (if job.plan.options.foreignKeys then
        (sourceKeys job s).filterMap (scriptForeignKey job (plannedTables job s)) else []).map some =
      (if job.plan.options.foreignKeys then
        (sourceKeys job s).filterMap (askedForeignKey job (plannedTables job s)) else []) ↔
      KeysScoped job s := by
    by_cases hoption : job.plan.options.foreignKeys = true
    · rw [if_pos hoption] at hkeys
      rw [if_pos hoption, if_pos hoption, foreignKeys_predicted_iff hkeys]
      exact ⟨fun h _ => h, fun h => h hoption⟩
    · rw [if_neg hoption, if_neg hoption]
      exact ⟨fun _ h => absurd h hoption, fun _ => rfl⟩
  have hscript : (renderScript job s).filterMap ScriptPart.statement? = _ := renderScript_statements
  rw [hentries, List.flatMap_map] at hscript
  have hlengths : ((visits job.recorded (s, [])).flatMap fun v => writtenStatements job s v.item).length =
      ((visits job.recorded (s, [])).flatMap (visitStatements job.recorded)).length :=
    Nat.le_antisymm (flatMap_length_le fun v hv => (writtenStatements_length (hsteady v hv)).le)
      (flatMap_length_le fun v hv => (writtenStatements_length (hsteady v hv)).ge)
  have hinjective := List.map_injective_iff.mpr (Option.some_injective Bytes)
  rw [← hsameKeys, ← flatMap_eq_iff fun v hv => (writtenStatements_length (hsteady v hv)).le,
    ← hinjective.eq_iff, map_some_filterMap_id hun.asked, hexecuted, hsameIndexes, hscript,
    List.map_append, List.map_append, ← hinjective.eq_iff]
  exact append_append_eq_iff (by rw [List.length_map, List.length_map]; exact hlengths)

/-- The inserts agree when those of every item do. -/
theorem inserts_agree_iff (hsteady : Steady job s) :
    (renderScript job s).filterMap ScriptPart.insert? =
        (visits job.recorded (s, [])).filterMap (copiedColumns job.recorded) ↔
      ∀ v ∈ visits job.recorded (s, []),
        writtenInsert job s v.item = (copiedColumns job.recorded v).toList := by
  have hentries : orderedItems job.plan (sourceKeys job s) =
      (visits job.recorded (s, [])).map fun v => (v.index, v.item) := (visitsFrom_map ..).symm
  have hscript : (renderScript job s).filterMap ScriptPart.insert? = _ := renderScript_inserts
  rw [hentries, List.flatMap_map] at hscript
  rw [hscript, List.filterMap_eq_flatMap_toList, eq_comm]
  refine (flatMap_eq_iff fun v hv => copiedColumns_length (hsteady v hv)).trans ?_
  exact forall₂_congr fun v _ => eq_comm

end Parts

/-- **The script and an uneventful run agree** just when the plan has nothing that only one of them
looks at. -/
theorem dry_run_agrees_iff {σ : Type} (job : TransferJob σ) (s : σ) (hun : Uneventful job s)
    (hsteady : Steady job s) : Agrees job s ↔ Predicted job s := by
  unfold Agrees
  rw [statements_agree_iff hun hsteady, inserts_agree_iff hsteady]
  constructor
  · rintro ⟨⟨hstatements, hscope⟩, hinserts⟩
    exact ⟨fun v hv => (item_predicted_iff (hsteady v hv)).mp ⟨hstatements v hv, hinserts v hv⟩, hscope⟩
  · rintro ⟨hitems, hscope⟩
    exact ⟨⟨fun v hv => ((item_predicted_iff (hsteady v hv)).mpr (hitems v hv)).1, hscope⟩,
      fun v hv => ((item_predicted_iff (hsteady v hv)).mpr (hitems v hv)).2⟩

/-- Servers that take all they are asked, over the source of `peopleDetail`, which holds no rows. -/
def willingServers (target : DbKind) : Servers Unit :=
  { refusingServers with
    dstKind := target
    openCursor := fun _ _ => .ok ⟨[⟨ascii "a", some (ascii "integer")⟩], [], .ok []⟩
    createIndex := fun _ _ _ _ _ => (none, ()) }

def copyJob (target : DbKind) (action : ItemAction) : TransferJob Unit :=
  ⟨willingServers target, ⟨none, none, [{ peopleItem action with content := .allRows }],
    ⟨true, true, true, .stop, false⟩⟩, fun _ => none⟩

/-- A table that is created in Postgres, index and all. -/
theorem dry_run_agrees_created :
    Agrees (copyJob .postgres .create) () ↔ Predicted (copyJob .postgres .create) () :=
  dry_run_agrees_iff (copyJob .postgres .create) ()
    { running := fun _ => rfl
      finished := ⟨⟨[⟨ascii "people", .created, 0, []⟩], 0⟩, by decide, by simp⟩
      asked := by decide }
    fun _ _ => rfl

/-- A table is emptied in ClickHouse: by `DELETE FROM` in the script, by `TRUNCATE TABLE` in the run. -/
theorem clickhouse_clear_differs : ¬ Agrees (copyJob .clickhouse (.existing .truncateInsert)) () := by
  rintro ⟨hstatements, -⟩
  revert hstatements
  decide

end RedDb.Transfer
