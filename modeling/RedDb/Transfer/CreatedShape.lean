import RedDb.Transfer.RunItem

/-!
# RedDb — what a created copy declares

The statement that creates a target, read as the definition it spells: its columns, each with its type
and its default, and its key. A default is text of the source, and some of it may speak of a sequence
that belongs to the source table.

* `createTableSql_eq` — the statement is the text of the definition;
* `created_shape_iff` — the definition has the columns and the key of the source, and no default of a
  source's sequence just where none such is carried over.
-/

namespace RedDb.Transfer

open ByteText RedDb.Driver RedDb.Schema
open RedDb.Sql (DbKind)

/-- A column of a definition. -/
structure DefinedColumn where
  name : Bytes
  type : Bytes
  inlineKey : Bool
  notNull : Bool
  default : Option Bytes

/-- `CREATE TABLE`, with the columns of its key clause; there is none where they are none. -/
structure TableDefinition where
  columns : List DefinedColumn
  keyClause : List Bytes

def DefinedColumn.text (quote : Bytes → Bytes) (c : DefinedColumn) : Bytes :=
  quote c.name ++ [space] ++ c.type ++ (if c.inlineKey then ascii " PRIMARY KEY" else []) ++
    (if c.notNull then ascii " NOT NULL" else []) ++ (c.default.elim [] fun d => ascii " DEFAULT " ++ d)

def TableDefinition.text (quote : Bytes → Bytes) (t : TableRef) (d : TableDefinition) : Bytes :=
  ascii "CREATE TABLE IF NOT EXISTS " ++ qualifyTable quote t ++ ascii " (" ++
    List.intercalate (ascii ", ") (d.columns.map (DefinedColumn.text quote) ++
      if d.keyClause.isEmpty then [] else [ascii "PRIMARY KEY (" ++ quotedList quote d.keyClause ++ ascii ")"]) ++
    ascii ")"

/-- The columns declared as key, inline or in the clause. -/
def TableDefinition.declaredKey (d : TableDefinition) : List Bytes :=
  (d.columns.filter DefinedColumn.inlineKey).map DefinedColumn.name ++ d.keyClause

/-- The type of a column that numbers itself. -/
def autoIncrementType (c : ColumnMeta) : DbKind → Bytes
  | .sqlite => ascii "INTEGER"
  | .postgres => if normalize c.declared = .bigInt then ascii "bigserial" else ascii "serial"
  | .mysql => spell .mysql (normalize c.declared) ++ ascii " AUTO_INCREMENT"
  | kind => spell kind (normalize c.declared)

/-- The default that is written, if the column does not number itself. -/
def writtenDefault (c : ColumnMeta) : Option Bytes :=
  if c.autoIncrement then none else (c.default.map trim).filter fun d => !d.isEmpty

def definedColumn (inline : Bool) (kind : DbKind) (c : ColumnMeta) : DefinedColumn where
  name := c.name
  type := if c.autoIncrement then autoIncrementType c kind else spell kind (normalize c.declared)
  inlineKey := inline && c.autoIncrement && c.primaryKey
  notNull := c.notNull && !c.autoIncrement
  default := writtenDefault c

def tableDefinition (columns : List ColumnMeta) (kind : DbKind) : TableDefinition where
  columns := columns.map (definedColumn (sqliteInlinePk columns kind) kind)
  keyClause :=
    if sqliteInlinePk columns kind then [] else (columns.filter ColumnMeta.primaryKey).map ColumnMeta.name

theorem sqliteInlinePk_sqlite {columns : List ColumnMeta} {kind : DbKind}
    (h : sqliteInlinePk columns kind = true) : kind = .sqlite := by
  unfold sqliteInlinePk at h
  rw [Bool.and_eq_true, Bool.and_eq_true, beq_iff_eq] at h
  exact h.1.1

theorem columnDef_eq (quote : Bytes → Bytes) (c : ColumnMeta) {inline : Bool} {kind : DbKind}
    (hinline : inline = true → kind = .sqlite) :
    columnDef quote c inline kind = (definedColumn inline kind c).text quote := by
  unfold columnDef definedColumn DefinedColumn.text writtenDefault
  cases hauto : c.autoIncrement with
  | false =>
    have hdefault : defaultClause c =
        ((c.default.map trim).filter fun d => !d.isEmpty).elim [] fun d => ascii " DEFAULT " ++ d := by
      unfold defaultClause
      cases c.default.map trim with
      | none => rfl
      | some d => cases d <;> rfl
    simp [hdefault]
  | true =>
    cases hi : inline with
    | false => cases kind <;> (simp [autoIncrementDef, autoIncrementType]; try rfl)
    | true =>
      obtain rfl := hinline hi
      cases hkey : c.primaryKey <;> simp [autoIncrementDef, autoIncrementType, hkey] <;> rfl

/-- The statement that creates a table spells its definition. -/
theorem createTableSql_eq (quote : Bytes → Bytes) (t : TableRef) (columns : List ColumnMeta) (kind : DbKind) :
    createTableSql quote t columns kind = (tableDefinition columns kind).text quote t := by
  unfold createTableSql TableDefinition.text tableDefinition keyClause
  rw [List.map_map, List.map_congr_left fun c _ => columnDef_eq quote c sqliteInlinePk_sqlite]
  cases hinline : sqliteInlinePk columns kind with
  | true | false => simp [Function.comp_def]

/-- Inline or in the clause, the key columns are declared once and in order. -/
theorem declaredKey_eq (columns : List ColumnMeta) (kind : DbKind) :
    (tableDefinition columns kind).declaredKey =
      (columns.filter ColumnMeta.primaryKey).map ColumnMeta.name := by
  have hnames : ∀ inline, ((columns.map (definedColumn inline kind)).filter DefinedColumn.inlineKey).map
      DefinedColumn.name = (columns.filter fun c => inline && c.autoIncrement && c.primaryKey).map
        ColumnMeta.name := by
    intro inline
    rw [List.filter_map, List.map_map]
    rfl
  unfold TableDefinition.declaredKey tableDefinition
  rw [hnames]
  cases hinline : sqliteInlinePk columns kind with
  | false => simp
  | true =>
    rw [if_pos rfl, List.append_nil]
    refine congrArg (List.map ColumnMeta.name) (List.filter_congr fun c hc => ?_)
    -- The one key column is the one that numbers itself.
    unfold sqliteInlinePk at hinline
    simp only [Bool.and_eq_true, beq_iff_eq, List.any_eq_true] at hinline
    obtain ⟨⟨-, hone⟩, auto, hauto, hkey, hnumbers⟩ := hinline
    rw [Bool.true_and]
    cases hc' : c.primaryKey with
    | false => exact Bool.and_false _
    | true =>
      obtain ⟨only, honly⟩ := List.length_eq_one_iff.mp hone
      have hmem : ∀ d ∈ columns, d.primaryKey = true → d = only := fun d hd hkey =>
        List.mem_singleton.mp (honly ▸ List.mem_filter.mpr ⟨hd, hkey⟩)
      rw [hmem c hc hc', ← hmem auto hauto hkey, hnumbers]
      rfl

section Shaped

variable {σ : Type} (job : TransferJob σ) (columns : List ColumnMeta)

/-- What the target of the job is created by, from the columns of its source. -/
def createdDefinition : TableDefinition :=
  tableDefinition (shapeColumns job columns).1 job.servers.dstKind

/-- The copy has the columns of its source, each once and in order; its key is the source's, or none
where keys are left out; and no default of it speaks of a sequence of the source table. -/
structure SelfContained (ofSequence : Bytes → Prop) : Prop where
  statement : ∀ quote t, createTableSql quote t (shapeColumns job columns).1 job.servers.dstKind =
    (createdDefinition job columns).text quote t
  names : (createdDefinition job columns).columns.map DefinedColumn.name = columns.map ColumnMeta.name
  key : (createdDefinition job columns).declaredKey =
    if job.plan.options.primaryKeys then (columns.filter ColumnMeta.primaryKey).map ColumnMeta.name else []
  defaults : ∀ c ∈ (createdDefinition job columns).columns, ∀ d ∈ c.default, ¬ ofSequence d

/-- Where engine and source are of one kind, a default of a source's sequence is one of a column that
numbers itself, and keys are kept. -/
def SequencesDropped (ofSequence : Bytes → Prop) : Prop :=
  job.servers.srcKind = job.servers.dstKind → ∀ c ∈ columns, ∀ d ∈ c.default, trim d ≠ [] →
    ofSequence (trim d) → c.autoIncrement = true ∧ job.plan.options.primaryKeys = true

/-- A column as the options leave it. -/
def shapedColumn (c : ColumnMeta) : ColumnMeta where
  name := c.name
  typeName := c.typeName
  notNull := c.notNull
  primaryKey := job.plan.options.primaryKeys && c.primaryKey
  default := if job.servers.srcKind = job.servers.dstKind then c.default else none
  autoIncrement := job.plan.options.primaryKeys && c.autoIncrement

theorem shapeColumns_eq : (shapeColumns job columns).1 = columns.map (shapedColumn job) := by
  unfold shapeColumns applyShapeOptions stripDefaults
  by_cases hkind : job.servers.srcKind = job.servers.dstKind <;>
    by_cases hkeys : job.plan.options.primaryKeys = true
  · rw [if_pos hkind, if_pos hkeys]
    refine (List.map_id' columns).symm.trans (List.map_congr_left fun c _ => ?_)
    rw [shapedColumn, if_pos hkind, hkeys, Bool.true_and, Bool.true_and]
  · rw [if_pos hkind, if_neg hkeys]
    refine List.map_congr_left fun c _ => ?_
    rw [shapedColumn, if_pos hkind, Bool.eq_false_iff.mpr hkeys, Bool.false_and, Bool.false_and]
  · rw [if_neg hkind, if_pos hkeys]
    refine List.map_congr_left fun c _ => ?_
    rw [shapedColumn, if_neg hkind, hkeys, Bool.true_and, Bool.true_and]
  · rw [if_neg hkind, if_neg hkeys, List.map_map]
    refine List.map_congr_left fun c _ => ?_
    rw [shapedColumn, if_neg hkind, Bool.eq_false_iff.mpr hkeys, Bool.false_and, Bool.false_and]
    rfl

/-- A default is written for a column of the same engine that no longer numbers itself. -/
theorem writtenDefault_shaped (c : ColumnMeta) (d : Bytes) :
    writtenDefault (shapedColumn job c) = some d ↔
      job.servers.srcKind = job.servers.dstKind ∧ ¬ (c.autoIncrement = true ∧
        job.plan.options.primaryKeys = true) ∧ ∃ text, c.default = some text ∧ trim text = d ∧ d ≠ [] := by
  unfold writtenDefault shapedColumn
  by_cases hnumbers : c.autoIncrement = true ∧ job.plan.options.primaryKeys = true
  · simp [hnumbers.1, hnumbers.2]
  have hoff : (job.plan.options.primaryKeys && c.autoIncrement) = false := by
    rw [Bool.and_comm, Bool.eq_false_iff, ne_eq, Bool.and_eq_true]
    exact hnumbers
  by_cases hkind : job.servers.srcKind = job.servers.dstKind
  · simp only [hoff, hkind, hnumbers, not_false_iff, true_and, Bool.false_eq_true, if_false,
      Option.filter_eq_some_iff, Option.map_eq_some_iff, Bool.not_eq_true', List.isEmpty_eq_false_iff]
    exact ⟨fun ⟨⟨text, hc, hd⟩, hne⟩ => ⟨text, hc, hd, hne⟩,
      fun ⟨text, hc, hd, hne⟩ => ⟨⟨text, hc, hd⟩, hne⟩⟩
  · simp [hoff, hkind]

theorem mem_createdDefinition {columns : List ColumnMeta} {c : ColumnMeta} (hc : c ∈ columns) :
    ∃ inline, definedColumn inline job.servers.dstKind (shapedColumn job c) ∈
      (createdDefinition job columns).columns := by
  unfold createdDefinition tableDefinition
  rw [shapeColumns_eq]
  exact ⟨_, List.mem_map_of_mem (List.mem_map_of_mem hc)⟩

theorem createdDefinition_names :
    (createdDefinition job columns).columns.map DefinedColumn.name = columns.map ColumnMeta.name := by
  unfold createdDefinition tableDefinition
  rw [shapeColumns_eq, List.map_map, List.map_map]
  rfl

theorem createdDefinition_key : (createdDefinition job columns).declaredKey =
    if job.plan.options.primaryKeys then (columns.filter ColumnMeta.primaryKey).map ColumnMeta.name
    else [] := by
  unfold createdDefinition
  rw [declaredKey_eq, shapeColumns_eq, List.filter_map, List.map_map]
  cases hkeys : job.plan.options.primaryKeys with
  | true =>
    have hsame : (ColumnMeta.primaryKey ∘ shapedColumn job) = ColumnMeta.primaryKey := by
      funext c
      rw [Function.comp_apply, shapedColumn, hkeys, Bool.true_and]
    rw [hsame]
    rfl
  | false =>
    have hnone : columns.filter (ColumnMeta.primaryKey ∘ shapedColumn job) = [] := by
      refine List.filter_eq_nil_iff.mpr fun c _ => ?_
      rw [Function.comp_apply, shapedColumn, hkeys, Bool.false_and]
      exact Bool.false_ne_true
    rw [hnone]
    rfl

/-- A created copy is self-contained just where no default of a source's sequence is carried over. -/
theorem created_shape_iff (ofSequence : Bytes → Prop) :
    SelfContained job columns ofSequence ↔ SequencesDropped job columns ofSequence := by
  constructor
  · intro h hkind c hc text htext hne hseq
    by_contra hnumbers
    have hwritten := (writtenDefault_shaped job c _).mpr ⟨hkind, hnumbers, text, htext, rfl, hne⟩
    obtain ⟨inline, hmem⟩ := mem_createdDefinition job hc
    exact h.defaults _ hmem (trim text) hwritten hseq
  · intro h
    refine ⟨fun quote t => createTableSql_eq quote t _ _, createdDefinition_names job columns,
      createdDefinition_key job columns, fun defined hdefined d hd hseq => ?_⟩
    unfold createdDefinition tableDefinition at hdefined
    rw [shapeColumns_eq] at hdefined
    obtain ⟨shaped, hshaped, rfl⟩ := List.mem_map.mp hdefined
    obtain ⟨c, hc, rfl⟩ := List.mem_map.mp hshaped
    obtain ⟨hkind, hnumbers, text, htext, rfl, hne⟩ := (writtenDefault_shaped job c d).mp hd
    exact hnumbers (h hkind c hc text htext hne hseq)

end Shaped

/-- A copy within one engine that leaves keys out. -/
def keylessJob : TransferJob (List (List Value)) :=
  ⟨oneTable, ⟨none, none, [], ⟨false, true, true, .stop, false⟩⟩, fun _ => none⟩

/-- A column that numbers itself, as its driver describes it. -/
def serialColumn : ColumnMeta :=
  ⟨ascii "id", some (ascii "bigint"), true, true, some (ascii "nextval('t_id_seq'::regclass)"), true⟩

/-- It keeps the default, and so the copy draws on the sequence of its source. -/
theorem keyless_not_selfContained :
    ¬ SelfContained keylessJob [serialColumn] (fun d => ascii "nextval(" <+: d) := by
  intro h
  obtain ⟨inline, hmem⟩ := mem_createdDefinition keylessJob (List.mem_singleton_self serialColumn)
  refine h.defaults _ hmem (ascii "nextval('t_id_seq'::regclass)") ?_ (by decide)
  show writtenDefault (shapedColumn keylessJob serialColumn) = _
  decide

end RedDb.Transfer
