import Mathlib
import RedDb.Transfer.RunItem

/-!
# RedDb — running a whole transfer

The items are run one after another, each leaving a report. After the last of them the indexes
and then the foreign keys of the created tables are made anew; one that is refused becomes a
warning on a report, which is looked up by the name of its table.

* `takeItems_taken` — the reports are those of the items taken, in their order;
* `transfer_settles` — totals and reports of every run, and whose report a loss is on.
-/

namespace RedDb.Transfer

open ByteText RedDb.Driver RedDb.Schema
open RedDb.Sql (DbKind findBytes)

/-! ## Summaries -/

structure TransferSummary where
  items : List ItemReport
  rows : Nat
  deriving DecidableEq

inductive TransferOutcome where
  | planned
  | cancelled (summary : TransferSummary)
  | failed (item : Nat) (message : Bytes) (summary : TransferSummary)
  | finished (summary : TransferSummary)
  deriving DecidableEq

def TransferOutcome.summary : TransferOutcome → Option TransferSummary
  | .planned => none
  | .cancelled summary | .failed _ _ summary | .finished summary => some summary

/-- A warning for the first report of the name. -/
@[grind =] def noteReport (table warning : Bytes) : List ItemReport → List ItemReport
  | [] => []
  | report :: reports =>
    if report.table = table then { report with warnings := report.warnings ++ [warning] } :: reports
    else report :: noteReport table warning reports

def note (summary : TransferSummary) (table warning : Bytes) : TransferSummary :=
  { summary with items := noteReport table warning summary.items }

/-! ## The items -/

/-- An item whose target was created from a source table, with its number in the plan. -/
structure CreatedTable where
  index : Nat
  item : TransferItem
  detail : TableDetail

/-- The job so far: its summary, the reports told as they came with the number of their item, and
the created tables. -/
structure Progress (σ : Type) where
  summary : TransferSummary
  told : List (Nat × ItemReport)
  created : List CreatedTable
  state : σ

/-- An item's report, put down and told in one breath. -/
def Progress.report {σ : Type} (p : Progress σ) (index : Nat) (report : ItemReport) (s : σ) : Progress σ :=
  { p with
    summary := ⟨p.summary.items ++ [report], p.summary.rows + report.rows⟩
    told := p.told ++ [(index, report)]
    state := s }

section Items

variable {σ : Type} (job : TransferJob σ)

/-- The items in the order they run, with their numbers in the plan. -/
def orderedItems (plan : TransferPlan) (fks : List FkEdge) : List (Nat × TransferItem) :=
  (orderItems plan fks).filterMap fun i => plan.items[i]?.map fun item => (i, item)

/-- One item, unless the job was cancelled; the outcome when the job ends with it. -/
def takeItem (index : Nat) (item : TransferItem) (p : Progress σ) : Progress σ × Option TransferOutcome :=
  match job.servers.cancelled p.state with
  | (true, s) => ({ p with state := s }, some (.cancelled p.summary))
  | (false, s) =>
    if !item.isActive then
      (p.report index ⟨item.targetName, .skipped (ascii "not selected"), 0, []⟩ s, none)
    else
      let run := runItem job item s
      match run.result with
      | .ok (report, detail) =>
        let p := p.report index report run.state
        match detail with
        | some detail => ({ p with created := p.created ++ [⟨index, item, detail⟩] }, none)
        | none => (p, none)
      | .error (.cancelled rows) =>
        let p := p.report index ⟨item.targetName, .skipped (ascii "cancelled"), rows, []⟩ run.state
        (p, some (.cancelled p.summary))
      | .error (.error rows message) =>
        let p := p.report index ⟨item.targetName, .failed message, rows, []⟩ run.state
        if job.plan.options.onError = .stop then (p, some (.failed index message p.summary)) else (p, none)

@[grind =] def takeItems : List (Nat × TransferItem) → Progress σ → Progress σ × Option TransferOutcome
  | [], p => (p, none)
  | (index, item) :: rest, p =>
    match takeItem job index item p with
    | (p, some outcome) => (p, some outcome)
    | (p, none) => takeItems rest p

end Items

/-! ## The deferred passes -/

/-- An index or a foreign key that the created table of an item is left without, under the name a
warning gives it. -/
structure Loss where
  item : Nat
  what : Bytes
  deriving DecidableEq

/-- A pass so far. `lost` is kept for the reader: nothing of the job looks at it. -/
structure Deferred (σ : Type) where
  summary : TransferSummary
  lost : List Loss
  state : σ

def indexLabel (name : Bytes) : Bytes := ascii "index " ++ name

def foreignKeyLabel (parent : Bytes) : Bytes := ascii "foreign key to " ++ parent

/-- Whether an index came with the table already: by its columns, or by what an engine calls it. -/
def backsPrimaryKey (idx : IndexMeta) (pk : List Bytes) : Bool :=
  let cols := idx.columns.map asciiLower
  let name := asciiLower idx.name
  (!pk.isEmpty && cols.length == pk.length && pk.all cols.contains) || name == ascii "primary" ||
    (ascii "sqlite_autoindex").isPrefixOf name || (ascii "_pkey").isSuffixOf name

/-- The lower-case names of the key's columns. -/
def pkColumns (detail : TableDetail) : List Bytes :=
  (detail.columns.filter ColumnMeta.primaryKey).map fun c => asciiLower c.name

/-- The source's name in an index name gives way to the target's, or the target's goes before. -/
def renameIndex (index sourceTable targetTable : Bytes) : Bytes :=
  match findBytes (asciiLower sourceTable) (asciiLower index) with
  | some pos => index.take pos ++ targetTable ++ index.drop (pos + sourceTable.length)
  | none => targetTable ++ ascii "_" ++ index

def sameNames : Option Bytes → Option Bytes → Bool
  | some a, some b => eqIgnoreAsciiCase a b
  | none, none => true
  | _, _ => false

/-- A copy under another name beside its source needs index names of its own. -/
def indexNameFor (plan : TransferPlan) (item : TransferItem) (index : Bytes) : Bytes :=
  match item.source with
  | .table schema name =>
    if !sameNames (schema.or plan.sourceNamespace) plan.targetNamespace ||
        eqIgnoreAsciiCase name item.targetName then index
    else renameIndex index name item.targetName
  | _ => index

/-- The lower-case name of a table source. -/
def TransferItem.sourceKey (item : TransferItem) : Option Bytes :=
  match item.source with
  | .table _ name => some (asciiLower name)
  | _ => none

section Passes

variable {σ : Type} (job : TransferJob σ)

/-- Whether the index pass makes this index. -/
def deferred (detail : TableDetail) (idx : IndexMeta) : Bool :=
  !(idx.columns.isEmpty || backsPrimaryKey idx (pkColumns detail))

/-- One index of a created table. -/
def deferIndex (c : CreatedTable) (d : Deferred σ) (idx : IndexMeta) : Deferred σ :=
  if deferred c.detail idx then
    let name := indexNameFor job.plan c.item idx.name
    match job.servers.createIndex d.state (job.plan.targetRef c.item) name idx.unique idx.columns with
    | (none, s) => { d with state := s }
    | (some e, s) =>
      ⟨note d.summary c.item.targetName (indexLabel name ++ ascii ": " ++ e.text),
        d.lost ++ [⟨c.index, indexLabel name⟩], s⟩
  else if backsPrimaryKey idx (pkColumns c.detail) then d
  else { d with lost := d.lost ++ [⟨c.index, indexLabel idx.name⟩] } -- passed over without a word

/-- What is told of the indexes that get another name. -/
def indexRenames (plan : TransferPlan) (c : CreatedTable) : List Bytes :=
  ((c.detail.indexes.filter (deferred c.detail)).filter fun idx =>
    indexNameFor plan c.item idx.name != idx.name).map fun idx =>
      idx.name ++ ascii " -> " ++ indexNameFor plan c.item idx.name

def deferIndexesOf (c : CreatedTable) (d : Deferred σ) : Deferred σ :=
  let d := c.detail.indexes.foldl (deferIndex job c) d
  let renames := indexRenames job.plan c
  let warning := ascii "indexes renamed to stay unique in this namespace: " ++ commaJoined renames
  if renames.isEmpty then d else { d with summary := note d.summary c.item.targetName warning }

/-- The indexes of table after table, until the job is cancelled. -/
@[grind =] def deferredIndexes : List CreatedTable → Deferred σ → Deferred σ
  | [], d => d
  | c :: created, d =>
    match job.servers.cancelled d.state with
    | (true, s) => { d with state := s }
    | (false, s) => deferredIndexes created (deferIndexesOf job c { d with state := s })

/-- The created tables whose source goes by a lower-case name. -/
def copiesOf (created : List CreatedTable) (key : Bytes) : List CreatedTable :=
  created.filter fun c => c.item.sourceKey == some key

/-- The target a source table landed under: the last one, when it was copied twice. -/
def landedAs (created : List CreatedTable) (table : Bytes) : Option Bytes :=
  (copiesOf created (asciiLower table)).getLast?.map fun c => c.item.targetName

/-- One foreign key of the source, between the targets its two tables landed under. -/
def deferForeignKey (created : List CreatedTable) (d : Deferred σ) (fk : FkEdge) : Deferred σ :=
  match landedAs created fk.fromTable, landedAs created fk.toTable with
  | some child, some parent =>
    if !inScope job.plan.sourceNamespace fk.fromSchema || !inScope job.plan.sourceNamespace fk.toSchema then d
    else
      let copies := copiesOf created (asciiLower fk.fromTable)
      let losses (copies : List CreatedTable) : List Loss :=
        copies.map fun c => ⟨c.index, foreignKeyLabel parent⟩
      match job.servers.addForeignKey d.state ⟨job.plan.targetNamespace, child⟩ (fk.columns.map Prod.fst)
          ⟨job.plan.targetNamespace, parent⟩ (fk.columns.map Prod.snd) with
      | (none, s) => { d with lost := d.lost ++ losses copies.dropLast, state := s }
      | (some e, s) =>
        ⟨note d.summary child (foreignKeyLabel parent ++ ascii ": " ++ e.text), d.lost ++ losses copies, s⟩
  | _, _ => d

@[grind =] def deferredForeignKeys (created : List CreatedTable) : List FkEdge → Deferred σ → Deferred σ
  | [], d => d
  | fk :: fks, d =>
    match job.servers.cancelled d.state with
    | (true, s) => { d with state := s }
    | (false, s) => deferredForeignKeys created fks (deferForeignKey job created { d with state := s } fk)

/-- Both passes, as the plan asks for them. -/
def deferredPasses (created : List CreatedTable) (fks : List FkEdge) (d : Deferred σ) : Deferred σ :=
  let d := if job.plan.options.indexes then deferredIndexes job created d else d
  if job.plan.options.foreignKeys then deferredForeignKeys job created fks d else d

/-- How a job ended, the reports told on the way, what created tables are left without, and the
state it left. -/
structure JobRun (σ : Type) where
  outcome : TransferOutcome
  told : List (Nat × ItemReport)
  lost : List Loss
  state : σ

/-- The foreign keys of the source; none when they cannot be read. -/
def sourceKeys (s : σ) : List FkEdge := (job.servers.foreignKeys s).toOption.getD []

def transferJob (s : σ) : JobRun σ :=
  if job.plan.options.dryRun then ⟨.planned, [], [], s⟩
  else match takeItems job (orderedItems job.plan (sourceKeys job s)) ⟨⟨[], 0⟩, [], [], s⟩ with
    | (p, some outcome) => ⟨outcome, p.told, [], p.state⟩
    | (p, none) =>
      let d := deferredPasses job p.created (sourceKeys job s) ⟨p.summary, [], p.state⟩
      match job.servers.cancelled d.state with
      | (true, s) => ⟨.cancelled d.summary, p.told, d.lost, s⟩
      | (false, s) => ⟨.finished d.summary, p.told, d.lost, s⟩

end Passes

/-! ## Reports -/

/-- A report, its warnings apart. -/
def ItemReport.core (r : ItemReport) : Bytes × ItemOutcome × Nat := (r.table, r.outcome, r.rows)

def totalRows (reports : List ItemReport) : Nat := (reports.map ItemReport.rows).sum

theorem totalRows_eq (reports : List ItemReport) :
    totalRows reports = ((reports.map ItemReport.core).map fun core => core.2.2).sum := by
  rw [List.map_map]
  rfl

theorem tables_eq (reports : List ItemReport) :
    reports.map ItemReport.table = (reports.map ItemReport.core).map Prod.fst := by
  rw [List.map_map]
  rfl

@[simp] theorem noteReport_core (table warning : Bytes) (reports : List ItemReport) :
    (noteReport table warning reports).map ItemReport.core = reports.map ItemReport.core := by
  induction reports with
  | nil => rfl
  | cons report reports ih =>
    rw [noteReport]
    split
    · rfl
    · rw [List.map_cons, List.map_cons, ih]

/-- A note takes no warning away. -/
theorem noteReport_warnings (table warning : Bytes) {reports : List ItemReport} {p : Nat} {r : ItemReport}
    (hr : reports[p]? = some r) :
    ∃ r', (noteReport table warning reports)[p]? = some r' ∧ ∀ w ∈ r.warnings, w ∈ r'.warnings := by
  induction reports generalizing p with
  | nil => simp at hr
  | cons report reports ih =>
    rw [noteReport]
    split
    · cases p with
      | zero =>
        rw [List.getElem?_cons_zero, Option.some.injEq] at hr
        subst hr
        exact ⟨_, rfl, fun w hw => List.mem_append_left _ hw⟩
      | succ p => exact ⟨r, hr, fun w hw => hw⟩
    · cases p with
      | zero => exact ⟨r, hr, fun w hw => hw⟩
      | succ p => exact ih hr

/-- A note lands on the first report of its name. -/
theorem noteReport_first {table warning : Bytes} {reports : List ItemReport} {p : Nat} {r : ItemReport}
    (hr : reports[p]? = some r) (htable : r.table = table)
    (hfirst : ∀ q < p, ∀ r', reports[q]? = some r' → r'.table ≠ table) :
    ∃ r', (noteReport table warning reports)[p]? = some r' ∧ warning ∈ r'.warnings := by
  induction reports generalizing p with
  | nil => simp at hr
  | cons report reports ih =>
    rw [noteReport]
    cases p with
    | zero =>
      rw [List.getElem?_cons_zero, Option.some.injEq] at hr
      subst hr
      rw [if_pos htable]
      exact ⟨_, rfl, List.mem_append_right _ (List.mem_singleton_self _)⟩
    | succ p =>
      rw [if_neg (hfirst 0 (Nat.succ_pos p) report rfl)]
      exact ih hr fun q hq r' hr' => hfirst (q + 1) (Nat.succ_lt_succ hq) r' hr'

/-! ## The items -/

/-- The order names every item of the plan once. -/
theorem orderedItems_map_fst (plan : TransferPlan) (fks : List FkEdge) :
    (orderedItems plan fks).map Prod.fst = orderItems plan fks := by
  have hrange : ∀ i ∈ orderItems plan fks, i < plan.items.length := fun i hi =>
    List.mem_range.mp ((orderItems_perm plan fks).mem_iff.mp hi)
  unfold orderedItems
  generalize orderItems plan fks = order at hrange
  induction order with
  | nil => rfl
  | cons i order ih =>
    have hi := hrange i (List.mem_cons_self ..)
    rw [List.filterMap_cons_some (by rw [List.getElem?_eq_getElem hi]; rfl), List.map_cons,
      ih fun j hj => hrange j (List.mem_cons_of_mem _ hj)]

/-- Whether the item makes its target out of a table. -/
def TransferItem.createsTable (item : TransferItem) : Bool := item.creates && item.sourceKey.isSome

/-- What the summary says is what was told, and its rows are those of its reports. -/
structure Balanced {σ : Type} (p : Progress σ) : Prop where
  items : p.summary.items = p.told.map Prod.snd
  total : p.summary.rows = totalRows p.summary.items

/-- What taking these items, and no others, comes to. -/
structure Taken {σ : Type} (job : TransferJob σ) (entries : List (Nat × TransferItem)) (p : Progress σ) :
    Prop extends Balanced p where
  told : p.told.map Prod.fst = entries.map Prod.fst
  tables : p.summary.items.map ItemReport.table = entries.map fun e => e.2.targetName
  created : (p.created.map fun c => (c.index, c.item)).Sublist entries
  creates : ∀ c ∈ p.created, c.item.createsTable = true ∧
    ∃ s schema name, job.servers.describeSource s schema name = .ok c.detail

variable {cursor : Option ResultCursor} {resolved : Resolved} {item : TransferItem}

section Taking

variable {σ : Type} {job : TransferJob σ} {p : Progress σ}

variable {s : σ}

theorem openTableSource_detail {source : TableRef}
    (h : openTableSource job item source s = .ok (resolved, cursor))
    {detail : TableDetail} (hdetail : resolved.detail = some detail) :
    ∃ schema name, job.servers.describeSource s schema name = .ok detail := by
  unfold openTableSource at h
  split at h
  · exact absurd h (by simp)
  rename_i found hfound
  split at h
  · exact absurd h (by simp)
  · rw [Except.ok.injEq, Prod.mk.injEq] at h
    rw [← h.1, Option.some.injEq] at hdetail
    exact ⟨_, _, hdetail ▸ hfound⟩

theorem openQuerySource_detail {sql : Bytes}
    (h : openQuerySource job item sql s = .ok (resolved, cursor)) : resolved.detail = none := by
  unfold openQuerySource at h
  split at h
  · exact absurd h (by simp)
  split at h
  · exact absurd h (by simp)
  · rw [Except.ok.injEq, Prod.mk.injEq] at h
    rw [← h.1]

/-- Only a table is described. -/
theorem resolve_detail (h : resolve job item s = .ok (resolved, cursor)) {detail : TableDetail}
    (hdetail : resolved.detail = some detail) :
    item.sourceKey.isSome = true ∧ ∃ schema name, job.servers.describeSource s schema name = .ok detail := by
  unfold resolve at h
  unfold TransferItem.sourceKey
  cases hsource : item.source with
  | table schema name =>
    rw [hsource] at h
    exact ⟨rfl, openTableSource_detail h hdetail⟩
  | result epoch | sql text =>
    rw [hsource] at h
    dsimp only at h
    split at h
    · exact absurd h (by simp)
    · rw [openQuerySource_detail h] at hdetail
      exact absurd hdetail (by simp)

/-- The report of an item is under its target's name, and what it hands on is a described table. -/
theorem runItem_ok {report : ItemReport} {detail : Option TableDetail}
    (h : (runItem job item s).result = .ok (report, detail)) :
    report.table = item.targetName ∧ ∀ d, detail = some d → item.createsTable = true ∧
      ∃ s schema name, job.servers.describeSource s schema name = .ok d := by
  unfold runItem at h
  dsimp only at h
  split at h
  · rw [Except.ok.injEq, Prod.mk.injEq] at h
    rw [← h.1, ← h.2]
    exact ⟨rfl, by simp⟩
  · exact absurd h (by simp)
  · rename_i resolved cursor hresolve
    have hdescribed (d : TableDetail) (hd : (if item.creates then resolved.detail else none) = some d) :
        item.createsTable = true ∧ ∃ s schema name, job.servers.describeSource s schema name = .ok d := by
      by_cases hcreates : item.creates = true
      · rw [if_pos hcreates] at hd
        obtain ⟨hkey, hdescribe⟩ := resolve_detail hresolve hd
        exact ⟨by rw [TransferItem.createsTable, hcreates, hkey]; rfl, s, hdescribe⟩
      · rw [if_neg hcreates] at hd
        exact absurd hd (by simp)
    split at h
    · exact absurd h (by simp)
    split at h
    · exact absurd h (by simp)
    split at h
    · split at h
      · exact absurd h (by simp)
      · rw [Except.ok.injEq, Prod.mk.injEq] at h
        rw [← h.1, ← h.2]
        exact ⟨rfl, hdescribed⟩
    · rw [Except.ok.injEq, Prod.mk.injEq] at h
      rw [← h.1, ← h.2]
      exact ⟨rfl, hdescribed⟩

theorem Balanced.report (h : Balanced p) (index : Nat) (report : ItemReport) (s : σ) :
    Balanced (p.report index report s) where
  items := by
    unfold Progress.report
    rw [h.items, List.map_append]
    rfl
  total := by
    unfold Progress.report
    rw [h.total, totalRows, totalRows, List.map_append, List.sum_append]
    simp

theorem Taken.report {entries : List (Nat × TransferItem)} (h : Taken job entries p) (index : Nat)
    {item : TransferItem} {report : ItemReport} (htable : report.table = item.targetName) (s : σ) :
    Taken job (entries ++ [(index, item)]) (p.report index report s) where
  toBalanced := h.toBalanced.report index report s
  told := by
    unfold Progress.report
    rw [List.map_append, List.map_append, h.told]
    rfl
  tables := by
    unfold Progress.report
    rw [List.map_append, List.map_append, h.tables, List.map_singleton, List.map_singleton, htable]
  created := h.created.trans (List.sublist_append_left ..)
  creates := h.creates

/-- An item that does not end the job is one more item taken; any leaves a balanced summary. -/
theorem takeItem_taken {entries : List (Nat × TransferItem)} (h : Taken job entries p) (index : Nat)
    (item : TransferItem) : Balanced (takeItem job index item p).1 ∧
      (∀ outcome, (takeItem job index item p).2 = some outcome →
        outcome.summary = some (takeItem job index item p).1.summary ∧
          ∀ summary, outcome ≠ .finished summary) ∧ ((takeItem job index item p).2 = none →
        Taken job (entries ++ [(index, item)]) (takeItem job index item p).1) := by
  unfold takeItem
  split
  · refine ⟨⟨h.items, h.total⟩, fun outcome ho => ?_, fun hnone => absurd hnone (by simp)⟩
    rw [← Option.some.inj ho]
    exact ⟨rfl, fun _ => TransferOutcome.noConfusion⟩
  rename_i s hcancelled
  split
  · exact ⟨h.toBalanced.report .., fun _ ho => absurd ho (by simp), fun _ => h.report index rfl s⟩
  dsimp only
  split
  · rename_i report detail hrun
    obtain ⟨htable, hdetail⟩ := runItem_ok hrun
    have htaken := h.report index htable (runItem job item s).state
    split
    · rename_i found
      refine ⟨⟨htaken.items, htaken.total⟩, fun _ ho => absurd ho (by simp), fun _ =>
        { items := htaken.items, total := htaken.total, told := htaken.told, tables := htaken.tables
          created := ?_, creates := ?_ }⟩
      · rw [List.map_append]
        exact h.created.append (List.Sublist.refl _)
      · intro c hc
        obtain hc | hc := List.mem_append.mp hc
        · exact h.creates c hc
        · rw [List.mem_singleton.mp hc]
          exact hdetail found rfl
    · exact ⟨htaken.toBalanced, fun _ ho => absurd ho (by simp), fun _ => htaken⟩
  · refine ⟨h.toBalanced.report .., fun outcome ho => ?_, fun hnone => absurd hnone (by simp)⟩
    rw [← Option.some.inj ho]
    exact ⟨rfl, fun _ => TransferOutcome.noConfusion⟩
  · split
    · refine ⟨h.toBalanced.report .., fun outcome ho => ?_, fun hnone => absurd hnone (by simp)⟩
      rw [← Option.some.inj ho]
      exact ⟨rfl, fun _ => TransferOutcome.noConfusion⟩
    · exact ⟨h.toBalanced.report .., fun _ ho => absurd ho (by simp), fun _ => h.report index rfl _⟩

/-- Items to the last one are all taken; a job that ends before has balanced its summary. -/
theorem takeItems_taken {taken : List (Nat × TransferItem)} (h : Taken job taken p)
    (entries : List (Nat × TransferItem)) : Balanced (takeItems job entries p).1 ∧
      (∀ outcome, (takeItems job entries p).2 = some outcome →
        outcome.summary = some (takeItems job entries p).1.summary ∧
          ∀ summary, outcome ≠ .finished summary) ∧
      ((takeItems job entries p).2 = none → Taken job (taken ++ entries) (takeItems job entries p).1) := by
  induction entries generalizing p taken with
  | nil =>
    rw [takeItems, List.append_nil]
    exact ⟨h.toBalanced, fun _ ho => absurd ho (by simp), fun _ => h⟩
  | cons entry entries ih =>
    obtain ⟨index, item⟩ := entry
    obtain ⟨hbalanced, hstopped, hgoes⟩ := takeItem_taken h index item
    rw [takeItems]
    cases hstep : takeItem job index item p with
    | mk p' stopped =>
      rw [hstep] at hbalanced hstopped hgoes
      cases stopped with
      | some outcome => exact ⟨hbalanced, hstopped, fun hnone => absurd hnone (by simp)⟩
      | none =>
        have hrest := ih (hgoes rfl)
        rw [List.append_assoc] at hrest
        exact hrest

end Taking

/-! ## The deferred passes -/

/-- The report of the very item, where its number stands in the order, warns of the loss. -/
def Noted (order : List (Nat × TransferItem)) (summary : TransferSummary) (l : Loss) : Prop :=
  ∃ (p : Nat) (item : TransferItem) (report : ItemReport), order[p]? = some (l.item, item) ∧
    summary.items[p]? = some report ∧ ∃ text, l.what ++ ascii ": " ++ text ∈ report.warnings

/-- Where no later item goes by the name of a created table, the first report of that name is the
table's own. -/
def Unshadowed (order : List (Nat × TransferItem)) : Prop :=
  order.Pairwise fun a b => b.2.createsTable = true → a.2.targetName ≠ b.2.targetName

/-- No source table is copied into two created ones. -/
def CopiedOnce (order : List (Nat × TransferItem)) : Prop :=
  order.Pairwise fun a b => a.2.createsTable = true → b.2.createsTable = true →
    a.2.sourceKey ≠ b.2.sourceKey

/-- What the passes keep: the reports but for their warnings, and a warning for each loss. -/
structure Passed {σ : Type} (order : List (Nat × TransferItem)) (cores : List (Bytes × ItemOutcome × Nat))
    (d : Deferred σ) : Prop where
  cores : d.summary.items.map ItemReport.core = cores
  noted : ∀ l ∈ d.lost, Noted order d.summary l

/-- Created tables, each from an item of the order that the reports follow. -/
structure Ordered (order : List (Nat × TransferItem)) (cores : List (Bytes × ItemOutcome × Nat))
    (created : List CreatedTable) : Prop where
  tables : cores.map Prod.fst = order.map fun e => e.2.targetName
  sublist : (created.map fun c => (c.index, c.item)).Sublist order
  creates : ∀ c ∈ created, c.item.createsTable = true

variable {c : CreatedTable}

section Passing

variable {σ : Type} {job : TransferJob σ} {order : List (Nat × TransferItem)}
  {cores : List (Bytes × ItemOutcome × Nat)} {created : List CreatedTable} {d : Deferred σ}

theorem note_noted {summary : TransferSummary} {l : Loss} (h : Noted order summary l) (table warning : Bytes) :
    Noted order (note summary table warning) l := by
  obtain ⟨p, item, report, horder, hreport, text, htext⟩ := h
  obtain ⟨report', hreport', hwarnings⟩ := noteReport_warnings table warning hreport
  exact ⟨p, item, report', horder, hreport', text, hwarnings _ htext⟩

theorem Passed.note (h : Passed order cores d) (table warning : Bytes) (s : σ) :
    Passed order cores ⟨note d.summary table warning, d.lost, s⟩ :=
  ⟨(noteReport_core ..).trans h.cores, fun l hl => note_noted (h.noted l hl) table warning⟩

theorem Passed.state (h : Passed order cores d) (s : σ) : Passed order cores { d with state := s } :=
  ⟨h.cores, h.noted⟩

/-- A created table's own report is the first of its name. -/
theorem note_own (h : Passed order cores d) (ho : Ordered order cores created) (hu : Unshadowed order)
    (hc : c ∈ created) (what text : Bytes) :
    Noted order (note d.summary c.item.targetName (what ++ ascii ": " ++ text)) ⟨c.index, what⟩ := by
  have hmem : (c.index, c.item) ∈ order :=
    ho.sublist.subset (List.mem_map_of_mem hc)
  obtain ⟨p, hp, hat⟩ := List.mem_iff_getElem.mp hmem
  have htables : d.summary.items.map ItemReport.table = order.map fun e => e.2.targetName := by
    rw [tables_eq, h.cores, ho.tables]
  have htable (q : Nat) : (d.summary.items[q]?).map ItemReport.table = (order[q]?).map fun e => e.2.targetName := by
    rw [← List.getElem?_map, htables, List.getElem?_map]
  have hget : order[p]? = some (c.index, c.item) := by rw [List.getElem?_eq_getElem hp, hat]
  obtain ⟨report, hreport, hname⟩ : ∃ report, d.summary.items[p]? = some report ∧
      report.table = c.item.targetName := by
    have hat := htable p
    rw [hget] at hat
    exact Option.map_eq_some_iff.mp hat
  have hfirst : ∀ q < p, ∀ r, d.summary.items[q]? = some r → r.table ≠ c.item.targetName := by
    intro q hq r hr
    have hother := htable q
    rw [hr, List.getElem?_eq_getElem (hq.trans hp), Option.map_some, Option.map_some,
      Option.some.injEq] at hother
    have hne := List.pairwise_iff_getElem.mp hu q p (hq.trans hp) hp hq
    rw [hat] at hne
    rw [hother]
    exact hne (ho.creates c hc)
  obtain ⟨report', hreport', hwarned⟩ := noteReport_first hreport hname hfirst
  exact ⟨p, c.item, report', hget, hreport', text, hwarned⟩

/-- A refusal that is noted under the table's name is a loss accounted for. -/
theorem Passed.refused (h : Passed order cores d) (ho : Ordered order cores created) (hu : Unshadowed order)
    (hc : c ∈ created) (what text : Bytes) (s : σ) :
    Passed order cores
      ⟨Transfer.note d.summary c.item.targetName (what ++ ascii ": " ++ text), d.lost ++ [⟨c.index, what⟩], s⟩ where
  cores := (noteReport_core ..).trans h.cores
  noted l hl := by
    obtain hl | hl := List.mem_append.mp hl
    · exact note_noted (h.noted l hl) ..
    · rw [List.mem_singleton.mp hl]
      exact note_own h ho hu hc what text

/-- Every index that is not the key's own has columns to be made from. -/
def Columned (detail : TableDetail) : Prop :=
  ∀ idx ∈ detail.indexes, idx.columns = [] → backsPrimaryKey idx (pkColumns detail) = true

theorem deferIndex_passed (h : Passed order cores d) (ho : Ordered order cores created) (hu : Unshadowed order)
    (hc : c ∈ created) {idx : IndexMeta}
    (hidx : idx.columns = [] → backsPrimaryKey idx (pkColumns c.detail) = true) :
    Passed order cores (deferIndex job c d idx) := by
  unfold deferIndex
  split
  · dsimp only
    split
    · exact h.state _
    · exact h.refused ho hu hc _ _ _
  · rename_i hskipped
    split
    · exact h
    rename_i hback
    refine absurd (hidx ?_) hback
    by_contra hcolumns
    exact hback ((by simpa [deferred] using hskipped : idx.columns ≠ [] → _) hcolumns)

theorem deferIndexesOf_passed (h : Passed order cores d) (ho : Ordered order cores created)
    (hu : Unshadowed order) (hc : c ∈ created) (hcolumned : Columned c.detail) :
    Passed order cores (deferIndexesOf job c d) := by
  have hfold : ∀ (indexes : List IndexMeta) (d : Deferred σ), Passed order cores d →
      (∀ idx ∈ indexes, idx.columns = [] → backsPrimaryKey idx (pkColumns c.detail) = true) →
      Passed order cores (indexes.foldl (deferIndex job c) d) := by
    intro indexes
    induction indexes with
    | nil => exact fun d h _ => h
    | cons idx indexes ih =>
      intro d h hindexes
      exact ih _ (deferIndex_passed h ho hu hc (hindexes idx (List.mem_cons_self ..)))
        fun i hi => hindexes i (List.mem_cons_of_mem _ hi)
  have hpassed := hfold c.detail.indexes d h hcolumned
  unfold deferIndexesOf
  dsimp only
  split
  · exact hpassed
  · exact hpassed.note _ _ _

theorem deferredIndexes_passed (ho : Ordered order cores created) (hu : Unshadowed order)
    (tables : List CreatedTable) (htables : ∀ c ∈ tables, c ∈ created ∧ Columned c.detail)
    (h : Passed order cores d) : Passed order cores (deferredIndexes job tables d) := by
  induction tables generalizing d with
  | nil => exact h
  | cons c tables ih =>
    rw [deferredIndexes]
    split
    · exact h.state _
    · obtain ⟨hc, hcolumned⟩ := htables c (List.mem_cons_self ..)
      exact ih (fun c' hc' => htables c' (List.mem_cons_of_mem _ hc'))
        (deferIndexesOf_passed (h.state _) ho hu hc hcolumned)

/-- A table that is copied once is the only one behind its name. -/
theorem copiesOf_length (ho : Ordered order cores created) (hcopied : CopiedOnce order) (key : Bytes) :
    (copiesOf created key).length ≤ 1 := by
  have hpair : (created.map fun c => (c.index, c.item)).Pairwise fun a b =>
      a.2.sourceKey ≠ b.2.sourceKey := by
    refine (hcopied.sublist ho.sublist).imp_of_mem fun ha hb hne => ?_
    obtain ⟨a, hmemA, rfl⟩ := List.mem_map.mp ha
    obtain ⟨b, hmemB, rfl⟩ := List.mem_map.mp hb
    exact hne (ho.creates a hmemA) (ho.creates b hmemB)
  have hcopies := (List.pairwise_map.mp hpair).filter fun c => c.item.sourceKey == some key
  have hkey : ∀ c ∈ copiesOf created key, c.item.sourceKey = some key := fun c hc => by
    simpa using (List.mem_filter.mp hc).2
  unfold copiesOf at hkey ⊢
  generalize (created.filter fun c => c.item.sourceKey == some key) = copies at hcopies hkey ⊢
  match copies, hcopies, hkey with
  | [], _, _ => exact Nat.zero_le _
  | [_], _, _ => exact Nat.le_refl _
  | a :: b :: rest, hcopies, hkey =>
    have hne := List.rel_of_pairwise_cons hcopies (List.mem_cons_self ..)
    rw [hkey a (List.mem_cons_self ..), hkey b (List.mem_cons_of_mem _ (List.mem_cons_self ..))] at hne
    exact absurd rfl hne

theorem deferForeignKey_passed (h : Passed order cores d) (ho : Ordered order cores created)
    (hu : Unshadowed order) (hcopied : CopiedOnce order) (fk : FkEdge) :
    Passed order cores (deferForeignKey job created d fk) := by
  unfold deferForeignKey
  split
  · rename_i child parent hchild hparent
    split
    · exact h
    obtain ⟨c, hlast, rfl⟩ := Option.map_eq_some_iff.mp hchild
    have hcopies : copiesOf created (asciiLower fk.fromTable) = [c] := by
      obtain ⟨init, hinit⟩ := List.getLast?_eq_some_iff.mp hlast
      have hlength := copiesOf_length ho hcopied (asciiLower fk.fromTable)
      rw [hinit, List.length_append, List.length_singleton] at hlength
      rw [hinit, List.length_eq_zero_iff.mp (by omega : init.length = 0), List.nil_append]
    have hc : c ∈ created := by
      have hmem : c ∈ copiesOf created (asciiLower fk.fromTable) := by
        rw [hcopies]
        exact List.mem_singleton_self c
      exact (List.mem_filter.mp hmem).1
    rw [hcopies]
    dsimp only
    split
    · rw [List.dropLast_singleton, List.map_nil, List.append_nil]
      exact h.state _
    · exact h.refused ho hu hc _ _ _
  · exact h

theorem deferredForeignKeys_passed (ho : Ordered order cores created) (hu : Unshadowed order)
    (hcopied : CopiedOnce order) (fks : List FkEdge) (h : Passed order cores d) :
    Passed order cores (deferredForeignKeys job created fks d) := by
  induction fks generalizing d with
  | nil => exact h
  | cons fk fks ih =>
    rw [deferredForeignKeys]
    split
    · exact h.state _
    · exact ih (deferForeignKey_passed (h.state _) ho hu hcopied fk)

end Passing

-- What no note changes, the passes do not change.

section Kept

variable {σ : Type} {job : TransferJob σ} {P : TransferSummary → Prop}
  (hnote : ∀ summary table warning, P summary → P (note summary table warning))

include hnote

variable {d : Deferred σ}

theorem deferIndexesOf_keeps (c : CreatedTable) (h : P d.summary) :
    P (deferIndexesOf job c d).summary := by
  have hstep (d : Deferred σ) (idx : IndexMeta) (h : P d.summary) : P (deferIndex job c d idx).summary := by
    unfold deferIndex
    split
    · dsimp only
      split
      · exact h
      · exact hnote _ _ _ h
    · split <;> exact h
  have hfold : P (c.detail.indexes.foldl (deferIndex job c) d).summary := by
    generalize c.detail.indexes = indexes
    induction indexes generalizing d with
    | nil => exact h
    | cons idx indexes ih => exact ih (hstep d idx h)
  unfold deferIndexesOf
  dsimp only
  split
  · exact hfold
  · exact hnote _ _ _ hfold

theorem deferredIndexes_keeps (created : List CreatedTable) (h : P d.summary) :
    P (deferredIndexes job created d).summary := by
  induction created generalizing d with
  | nil => exact h
  | cons c created ih =>
    rw [deferredIndexes]
    split
    · exact h
    · exact ih (deferIndexesOf_keeps hnote c h)

theorem deferForeignKey_keeps (created : List CreatedTable) (fk : FkEdge) (h : P d.summary) :
    P (deferForeignKey job created d fk).summary := by
  unfold deferForeignKey
  split
  · split
    · exact h
    dsimp only
    split
    · exact h
    · exact hnote _ _ _ h
  · exact h

theorem deferredForeignKeys_keeps (created : List CreatedTable) (fks : List FkEdge)
    (h : P d.summary) : P (deferredForeignKeys job created fks d).summary := by
  induction fks generalizing d with
  | nil => exact h
  | cons fk fks ih =>
    rw [deferredForeignKeys]
    split
    · exact h
    · exact ih (deferForeignKey_keeps hnote created fk h)

theorem deferredPasses_keeps (created : List CreatedTable) (fks : List FkEdge)
    (h : P d.summary) : P (deferredPasses job created fks d).summary := by
  have hindexes : P (if job.plan.options.indexes then deferredIndexes job created d else d).summary := by
    split
    · exact deferredIndexes_keeps hnote created h
    · exact h
  unfold deferredPasses
  dsimp only
  split
  · exact deferredForeignKeys_keeps hnote created fks hindexes
  · exact hindexes

end Kept

/-! ## Whole runs -/

/-- What a run of a job owes its summary: a total that is that of the reports; at the end one report
an item, in the order they ran, each as it was told; and a warning for every loss on the report of
the very item. -/
structure Settled {σ : Type} (job : TransferJob σ) (s : σ) (run : JobRun σ) : Prop where
  total : ∀ summary, run.outcome.summary = some summary → summary.rows = totalRows summary.items
  told : ∀ summary, run.outcome.summary = some summary →
    summary.items.map ItemReport.core = run.told.map fun t => t.2.core
  reports : ∀ summary, run.outcome = .finished summary →
    run.told.map Prod.fst = orderItems job.plan (sourceKeys job s) ∧
      summary.items.map ItemReport.table =
        (orderedItems job.plan (sourceKeys job s)).map fun e => e.2.targetName
  noted : ∀ summary, run.outcome.summary = some summary → ∀ l ∈ run.lost,
    Noted (orderedItems job.plan (sourceKeys job s)) summary l

/-- When a warning that is looked up by its table's name finds the very item: no item stands before a
created table of its name, no source table is copied twice, and no index is without columns. -/
structure Attributable {σ : Type} (job : TransferJob σ) (s : σ) : Prop where
  unshadowed : (job.plan.options.indexes = true ∨ job.plan.options.foreignKeys = true) →
    Unshadowed (orderedItems job.plan (sourceKeys job s))
  copiedOnce : job.plan.options.foreignKeys = true →
    CopiedOnce (orderedItems job.plan (sourceKeys job s))
  columned : job.plan.options.indexes = true → ∀ s schema name detail,
    job.servers.describeSource s schema name = .ok detail → Columned detail

section Whole

variable {σ : Type}

/-- The passes keep what the items' reports came to. -/
theorem deferredPasses_balanced (job : TransferJob σ) {p : Progress σ} (h : Balanced p) (fks : List FkEdge) :
    let d := deferredPasses job p.created fks ⟨p.summary, [], p.state⟩
    d.summary.rows = totalRows d.summary.items ∧
      d.summary.items.map ItemReport.core = p.told.map fun t => t.2.core := by
  refine deferredPasses_keeps (P := fun summary => summary.rows = totalRows summary.items ∧
    summary.items.map ItemReport.core = p.told.map fun t => t.2.core) ?_ p.created fks ⟨h.total, ?_⟩
  · intro summary table warning hsummary
    have hcore : (note summary table warning).items.map ItemReport.core = summary.items.map ItemReport.core :=
      noteReport_core ..
    exact ⟨by rw [totalRows_eq, hcore, ← totalRows_eq]; exact hsummary.1, hcore.trans hsummary.2⟩
  · rw [h.items, List.map_map]
    rfl

/-- Every loss of the passes is on the report of its item. -/
theorem deferredPasses_noted {job : TransferJob σ} {s : σ} (ha : Attributable job s) {p : Progress σ}
    (h : Taken job (orderedItems job.plan (sourceKeys job s)) p) :
    ∀ l ∈ (deferredPasses job p.created (sourceKeys job s) ⟨p.summary, [], p.state⟩).lost,
      Noted (orderedItems job.plan (sourceKeys job s))
        (deferredPasses job p.created (sourceKeys job s) ⟨p.summary, [], p.state⟩).summary l := by
  have ho : Ordered (orderedItems job.plan (sourceKeys job s)) (p.summary.items.map ItemReport.core) p.created :=
    ⟨(tables_eq _).symm.trans h.tables, h.created, fun c hc => (h.creates c hc).1⟩
  have hstart : Passed (orderedItems job.plan (sourceKeys job s)) (p.summary.items.map ItemReport.core)
      (⟨p.summary, [], p.state⟩ : Deferred σ) := ⟨rfl, fun l hl => absurd hl (by simp)⟩
  have hindexes : Passed (orderedItems job.plan (sourceKeys job s)) (p.summary.items.map ItemReport.core)
      (if job.plan.options.indexes then deferredIndexes job p.created ⟨p.summary, [], p.state⟩
        else ⟨p.summary, [], p.state⟩) := by
    split
    · rename_i hoption
      refine deferredIndexes_passed ho (ha.unshadowed (Or.inl hoption)) p.created (fun c hc => ⟨hc, ?_⟩) hstart
      obtain ⟨_, s', schema, name, hdescribe⟩ := h.creates c hc
      exact ha.columned hoption s' schema name c.detail hdescribe
    · exact hstart
  unfold deferredPasses
  dsimp only
  split
  · rename_i hoption
    exact (deferredForeignKeys_passed ho (ha.unshadowed (Or.inr hoption)) (ha.copiedOnce hoption) _
      hindexes).noted
  · exact hindexes.noted

end Whole

/-- **What a transfer drops is on the report of its item**, in every run, as long as a warning that is
looked up by name finds it; totals and reports are right in any case. -/
theorem transfer_settles {σ : Type} (job : TransferJob σ) (s : σ) (ha : Attributable job s) :
    Settled job s (transferJob job s) := by
  have hstart : Taken job [] (⟨⟨[], 0⟩, [], [], s⟩ : Progress σ) :=
    ⟨⟨rfl, rfl⟩, rfl, rfl, List.Sublist.refl _, fun c hc => absurd hc (by simp)⟩
  obtain ⟨hbalanced, hstopped, hwhole⟩ := takeItems_taken hstart (orderedItems job.plan (sourceKeys job s))
  unfold transferJob
  split
  · exact ⟨fun _ h => absurd h (by simp [TransferOutcome.summary]),
      fun _ h => absurd h (by simp [TransferOutcome.summary]),
      fun _ h => absurd h (by simp), fun _ h => absurd h (by simp [TransferOutcome.summary])⟩
  cases hitems : takeItems job (orderedItems job.plan (sourceKeys job s)) ⟨⟨[], 0⟩, [], [], s⟩ with
  | mk p ended =>
    rw [hitems] at hbalanced hstopped hwhole
    cases ended with
    | some outcome =>
      obtain ⟨hsummary, hunfinished⟩ := hstopped outcome rfl
      refine ⟨fun summary h => ?_, fun summary h => ?_, fun summary h => absurd h (hunfinished summary),
        fun _ _ l hl => absurd hl (by simp)⟩
      · rw [← Option.some.inj (hsummary.symm.trans h)]
        exact hbalanced.total
      · rw [← Option.some.inj (hsummary.symm.trans h), hbalanced.items, List.map_map]
        rfl
    | none =>
      have htaken := hwhole rfl
      rw [List.nil_append] at htaken
      obtain ⟨htotal, htold⟩ := deferredPasses_balanced job hbalanced (sourceKeys job s)
      have hnoted := deferredPasses_noted ha htaken
      dsimp only at htotal htold ⊢
      split
      · refine ⟨fun _ h => ?_, fun _ h => ?_, fun _ h => absurd h (by simp), fun _ h => ?_⟩
        · rw [← Option.some.inj h]
          exact htotal
        · rw [← Option.some.inj h]
          exact htold
        · rw [← Option.some.inj h]
          exact hnoted
      · refine ⟨fun _ h => ?_, fun _ h => ?_, fun summary h => ?_, fun _ h => ?_⟩
        · rw [← Option.some.inj h]
          exact htotal
        · rw [← Option.some.inj h]
          exact htold
        · rw [← TransferOutcome.finished.inj h]
          refine ⟨htaken.told.trans (orderedItems_map_fst ..), ?_⟩
          rw [tables_eq, htold, ← htaken.tables, hbalanced.items, List.map_map, List.map_map]
          rfl
        · rw [← Option.some.inj h]
          exact hnoted

-- A source whose tables have the column `a` and the index `by_a`, and a target that takes no index.

theorem people_nodup :
    ([⟨ascii "a", some (ascii "integer"), false, false, none, false⟩].map ColumnMeta.name).Nodup := by
  simp

def peopleDetail : TableDetail :=
  ⟨_, [], [⟨ascii "by_a", false, [ascii "a"]⟩], people_nodup⟩

def refusingServers : Servers Unit where
  srcKind := .postgres
  dstKind := .postgres
  foreignKeys _ := .ok []
  describeSource _ _ _ := .ok peopleDetail
  openCursor _ _ := .error .interrupted
  describeTarget _ _ _ := .ok peopleDetail
  dropTable _ _ := (none, ())
  createTable _ _ _ := (none, ())
  clearTable _ _ := (none, ())
  insertRows _ _ _ rows := (.ok rows.length, ())
  createIndex _ _ _ _ _ := (some (.other (ascii "no")), ())
  addForeignKey _ _ _ _ _ := (none, ())
  cancelled _ := (false, ())

def peopleItem (action : ItemAction) : TransferItem :=
  ⟨.table none (ascii "people"), ascii "people", action, .structureOnly, []⟩

def peopleJob (actions : List ItemAction) : TransferJob Unit :=
  ⟨refusingServers, ⟨none, none, actions.map peopleItem, ⟨true, true, true, .stop, false⟩⟩, fun _ => none⟩

/-- With one item of the name, its report warns. -/
theorem transfer_settles_people : Settled (peopleJob [.create]) () (transferJob (peopleJob [.create]) ()) :=
  transfer_settles (peopleJob [.create]) ()
    { unshadowed := fun _ => by
        rw [show orderedItems (peopleJob [.create]).plan (sourceKeys (peopleJob [.create]) ()) =
          [(0, peopleItem .create)] by decide]
        exact List.pairwise_singleton _ _
      copiedOnce := fun _ => by
        rw [show orderedItems (peopleJob [.create]).plan (sourceKeys (peopleJob [.create]) ()) =
          [(0, peopleItem .create)] by decide]
        exact List.pairwise_singleton _ _
      columned := fun _ _ _ _ detail hdetail idx hidx hcolumns => by
        rw [← Except.ok.inj hdetail] at hidx
        rw [List.mem_singleton.mp hidx] at hcolumns
        exact absurd hcolumns (by simp) }

/-- An item of the name that is not selected goes first, and gets the warning. -/
theorem people_warned_elsewhere :
    ¬ Settled (peopleJob [.skip, .create]) () (transferJob (peopleJob [.skip, .create]) ()) := by
  have horder : orderedItems (peopleJob [.skip, .create]).plan (sourceKeys (peopleJob [.skip, .create]) ()) =
      [(0, peopleItem .skip), (1, peopleItem .create)] := by decide
  have houtcome : (transferJob (peopleJob [.skip, .create]) ()).outcome.summary =
      some ⟨[⟨ascii "people", .skipped (ascii "not selected"), 0, [ascii "index by_a: no"]⟩,
        ⟨ascii "people", .createdEmpty, 0, []⟩], 0⟩ := by decide
  have hlost : (transferJob (peopleJob [.skip, .create]) ()).lost = [⟨1, ascii "index by_a"⟩] := by
    decide
  intro h
  obtain ⟨p, item, report, hitem, hreport, text, htext⟩ :=
    h.noted _ houtcome ⟨1, ascii "index by_a"⟩ (by rw [hlost]; exact List.mem_singleton_self _)
  rw [horder] at hitem
  match p, hitem, hreport with
  | 0, hitem, _ => simp at hitem
  | 1, _, hreport =>
    rw [← Option.some.inj hreport] at htext
    exact absurd htext List.not_mem_nil
  | p + 2, hitem, _ => simp at hitem

end RedDb.Transfer
