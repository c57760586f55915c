import RedDb.Lib.NamedLists
import RedDb.Schema.TypeMap

/-!
# RedDb — comparing two schemas

`compare` matches the objects of two schemas, and the columns, indexes and foreign keys of the
relations in both, and lists what would have to change on the left to make it look like the
right.

* `compare_mirror` — the other way round it lists the same changes reversed;
* `compare_empty_iff` — it finds nothing just where all that it looks at is the same;
* `compare_exact_iff` — and that is the schemas being the same for those that agree in what
  it does not look at.
-/

namespace RedDb.Schema

open ByteText NamedLists RedDb.Sql

/-! ## Schemas -/

inductive ObjectKind where
  | table | view | materializedView | function | procedure | trigger | sequence | type
  deriving DecidableEq

/-- Whether the object has columns. -/
def ObjectKind.isRelation : ObjectKind → Bool
  | .table | .view | .materializedView => true
  | _ => false

structure ObjectMeta where
  name : Bytes
  kind : ObjectKind
  deriving DecidableEq

structure ColumnMeta where
  name : Bytes
  typeName : Option Bytes
  notNull : Bool
  primaryKey : Bool
  default : Option Bytes
  autoIncrement : Bool
  deriving DecidableEq

structure ForeignKeyMeta where
  column : Bytes
  refTable : Bytes
  refColumn : Bytes

structure IndexMeta where
  name : Bytes
  unique : Bool
  columns : List Bytes
  deriving DecidableEq

/-- What a table is described by. No two of its columns have the same name. -/
structure TableDetail where
  columns : List ColumnMeta
  foreignKeys : List ForeignKeyMeta
  indexes : List IndexMeta
  columns_nodup : (columns.map ColumnMeta.name).Nodup

def TableDetail.column (t : TableDetail) (n : Bytes) : Option ColumnMeta :=
  find ColumnMeta.name t.columns n

/-- One side of a comparison. No two relations of a schema have the same name, and only relations
are described. -/
structure SchemaSnapshot where
  engine : DbKind
  objects : List ObjectMeta
  details : Bytes → Option TableDetail
  relations_nodup : ((objects.filter fun o => o.kind.isRelation).map ObjectMeta.name).Nodup
  details_relation : ∀ n, (details n).isSome = true → ∃ o ∈ objects, o.name = n ∧ o.kind.isRelation = true

def SchemaSnapshot.has (s : SchemaSnapshot) (n : Bytes) : Bool := s.objects.any fun o => o.name == n

/-! ## Columns -/

inductive Confidence where
  | certain | uncertain

structure ColumnChange where
  left : ColumnMeta
  right : ColumnMeta
  confidence : Confidence
  summary : Bytes

def NormType.isUnknown : NormType → Bool
  | .unknown _ => true
  | _ => false

/-- The declared type, none being empty. -/
def ColumnMeta.declared (c : ColumnMeta) : Bytes := c.typeName.getD []

/-- Whether one side is outside the lattice. -/
def unclassified (l r : Bytes) : Bool := (normalize l).isUnknown || (normalize r).isUnknown

/-- Within one engine the spelling carries what the lattice coarsens away. -/
def typeDiffers (le re : DbKind) (l r : Bytes) : Bool :=
  if unclassified l r then !eqIgnoreAsciiCase l r
  else if normalize l ≠ normalize r then true
  else decide (le = re) && !eqIgnoreAsciiCase l r

/-- ` → ` -/
def arrow : Bytes := [32, 0xE2, 0x86, 0x92, 32]

/-- What is said of a new default. -/
def defaultPart : Option Bytes → Bytes
  | some d => ascii "default " ++ d
  | none => ascii "default dropped"

/-- What differs, as it is put. -/
def changeParts (le re : DbKind) (l r : ColumnMeta) : List Bytes :=
  (if typeDiffers le re l.declared r.declared then [l.declared ++ arrow ++ r.declared] else []) ++
  (if l.notNull ≠ r.notNull then [if r.notNull then ascii "now NOT NULL" else ascii "now nullable"]
    else []) ++
  (if l.default ≠ r.default then [defaultPart r.default] else []) ++
  (if l.primaryKey ≠ r.primaryKey then
    [if r.primaryKey then ascii "now primary key" else ascii "no longer primary key"] else [])

def changeConfidence (l r : ColumnMeta) : Confidence :=
  if unclassified l.declared r.declared then .uncertain else .certain

def columnChange (le re : DbKind) (l r : ColumnMeta) : ColumnChange where
  left := l
  right := r
  confidence := changeConfidence l r
  summary := List.intercalate (ascii ", ") (changeParts le re l r)

/-- One column on both sides, or none when they match. -/
def compareColumn (le re : DbKind) (l r : ColumnMeta) : Option ColumnChange :=
  if (changeParts le re l r).isEmpty then none else some (columnChange le re l r)

/-! ## Tables and schemas -/

structure TableDelta where
  name : Bytes
  columnsAdded : List ColumnMeta
  columnsRemoved : List ColumnMeta
  columnsChanged : List ColumnChange
  indexesAdded : List IndexMeta
  indexesRemoved : List IndexMeta
  fksAdded : List ForeignKeyMeta
  fksRemoved : List ForeignKeyMeta

def TableDelta.isEmpty (t : TableDelta) : Bool :=
  t.columnsAdded.isEmpty && t.columnsRemoved.isEmpty && t.columnsChanged.isEmpty &&
    t.indexesAdded.isEmpty && t.indexesRemoved.isEmpty && t.fksAdded.isEmpty && t.fksRemoved.isEmpty

structure SchemaDelta where
  objectsAdded : List ObjectMeta
  objectsRemoved : List ObjectMeta
  tablesChanged : List TableDelta
  crossEngine : Bool

def SchemaDelta.isEmpty (d : SchemaDelta) : Bool :=
  d.objectsAdded.isEmpty && d.objectsRemoved.isEmpty && d.tablesChanged.isEmpty

/-- The same edge, whatever its constraint is called. -/
def fkEq (a b : ForeignKeyMeta) : Bool :=
  a.column == b.column && a.refTable == b.refTable && a.refColumn == b.refColumn

/-- The columns of `a` that have none of their name in `b`. -/
def columnsBeyond (a b : TableDetail) : List ColumnMeta :=
  a.columns.filter fun c => !b.columns.any fun c' => c'.name == c.name

/-- Indexes compare by name. -/
def indexesBeyond (a b : TableDetail) : List IndexMeta :=
  a.indexes.filter fun i => !b.indexes.any fun i' => i'.name == i.name

def fksBeyond (a b : TableDetail) : List ForeignKeyMeta :=
  a.foreignKeys.filter fun f => !b.foreignKeys.any fun f' => fkEq f' f

/-- The columns on both sides that differ, in the order of the right side. -/
def columnsChanged (le re : DbKind) (l r : TableDetail) : List ColumnChange :=
  r.columns.filterMap fun rc => (l.column rc.name).bind fun lc => compareColumn le re lc rc

def compareTable (le re : DbKind) (name : Bytes) (l r : TableDetail) : TableDelta where
  name := name
  columnsAdded := columnsBeyond r l
  columnsRemoved := columnsBeyond l r
  columnsChanged := columnsChanged le re l r
  indexesAdded := indexesBeyond r l
  indexesRemoved := indexesBeyond l r
  fksAdded := fksBeyond r l
  fksRemoved := fksBeyond l r

/-- The delta of a relation that is described on both sides, if there is any. -/
def tableDelta (left right : SchemaSnapshot) (n : Bytes) : Option TableDelta :=
  match left.details n, right.details n with
  | some l, some r =>
    let td := compareTable left.engine right.engine n l r
    if td.isEmpty then none else some td
  | _, _ => none

/-- The objects of `a` that have none of their name in `b`. -/
def objectsBeyond (a b : SchemaSnapshot) : List ObjectMeta := a.objects.filter fun o => !b.has o.name

/-- What would have to change on the left to make it look like the right. -/
def compare (left right : SchemaSnapshot) : SchemaDelta where
  objectsAdded := objectsBeyond right left
  objectsRemoved := objectsBeyond left right
  tablesChanged := sortBy TableDelta.name
    ((left.objects.filter fun o => o.kind.isRelation && right.has o.name).filterMap fun o =>
      tableDelta left right o.name)
  crossEngine := decide (left.engine ≠ right.engine)

/-! ## The mirror -/

/-- A change the other way round. -/
def ColumnChange.reversed (le re : DbKind) (c : ColumnChange) : ColumnChange :=
  { columnChange re le c.right c.left with confidence := c.confidence }

/-- `b` lists the changes of `a` the other way round. The changed pairs come in the order of
either side's columns. -/
structure TableDelta.Mirrors (le re : DbKind) (a b : TableDelta) : Prop where
  name : b.name = a.name
  columnsAdded : b.columnsAdded = a.columnsRemoved
  columnsRemoved : b.columnsRemoved = a.columnsAdded
  columnsChanged : b.columnsChanged.Perm (a.columnsChanged.map (ColumnChange.reversed le re))
  indexesAdded : b.indexesAdded = a.indexesRemoved
  indexesRemoved : b.indexesRemoved = a.indexesAdded
  fksAdded : b.fksAdded = a.fksRemoved
  fksRemoved : b.fksRemoved = a.fksAdded

structure SchemaDelta.Mirrors (le re : DbKind) (a b : SchemaDelta) : Prop where
  objectsAdded : b.objectsAdded = a.objectsRemoved
  objectsRemoved : b.objectsRemoved = a.objectsAdded
  tablesChanged : List.Forall₂ (TableDelta.Mirrors le re) a.tablesChanged b.tablesChanged
  crossEngine : b.crossEngine = a.crossEngine

section Columns

variable {le re : DbKind} {l r : ColumnMeta}

theorem eqIgnoreAsciiCase_comm (a b : Bytes) : eqIgnoreAsciiCase a b = eqIgnoreAsciiCase b a :=
  Bool.eq_iff_iff.mpr (by rw [eqIgnoreAsciiCase, eqIgnoreAsciiCase, beq_iff_eq, beq_iff_eq, eq_comm])

theorem unclassified_comm (a b : Bytes) : unclassified a b = unclassified b a := Bool.or_comm _ _

theorem typeDiffers_comm (le re : DbKind) (a b : Bytes) :
    typeDiffers le re a b = typeDiffers re le b a := by
  unfold typeDiffers
  rw [unclassified_comm b a, eqIgnoreAsciiCase_comm b a]
  simp only [ne_comm (a := normalize b), eq_comm (a := re)]

theorem changeParts_eq_nil : changeParts le re l r = [] ↔
    typeDiffers le re l.declared r.declared = false ∧ l.notNull = r.notNull ∧
      l.default = r.default ∧ l.primaryKey = r.primaryKey := by
  have hpart : ∀ {p : Prop} [Decidable p] {part : Bytes}, (if p then [part] else []) = [] ↔ ¬p := by
    intro p _ part
    rw [ite_eq_right_iff]
    exact ⟨fun h hp => List.cons_ne_nil _ _ (h hp), fun h hp => absurd hp h⟩
  unfold changeParts
  rw [List.append_eq_nil_iff, List.append_eq_nil_iff, List.append_eq_nil_iff, hpart, hpart, hpart,
    hpart, Bool.not_eq_true, not_not, not_not, not_not, and_assoc, and_assoc]

/-- The same attributes differ the other way round. -/
theorem changeParts_isEmpty_comm (le re : DbKind) (l r : ColumnMeta) :
    (changeParts re le r l).isEmpty = (changeParts le re l r).isEmpty := by
  refine Bool.eq_iff_iff.mpr ?_
  rw [List.isEmpty_iff, List.isEmpty_iff, changeParts_eq_nil, changeParts_eq_nil,
    typeDiffers_comm re le, eq_comm (a := r.notNull), eq_comm (a := r.default),
    eq_comm (a := r.primaryKey)]

theorem changeConfidence_comm (l r : ColumnMeta) : changeConfidence r l = changeConfidence l r := by
  unfold changeConfidence
  rw [unclassified_comm]

theorem compareColumn_eq_some {c : ColumnChange} : compareColumn le re l r = some c ↔
    (changeParts le re l r).isEmpty = false ∧ columnChange le re l r = c := by
  rw [compareColumn, Option.ite_none_left_eq_some, Bool.not_eq_true, Option.some_inj]

theorem compareColumn_reversed {c : ColumnChange} (h : compareColumn le re l r = some c) :
    compareColumn re le r l = some (c.reversed le re) := by
  obtain ⟨hparts, rfl⟩ := compareColumn_eq_some.mp h
  refine compareColumn_eq_some.mpr ⟨(changeParts_isEmpty_comm le re l r).trans hparts, ?_⟩
  show columnChange re le r l = { columnChange re le r l with confidence := changeConfidence l r }
  rw [← changeConfidence_comm l r]
  rfl

end Columns

section Tables

variable {le re : DbKind} {l r : TableDetail}

theorem mem_columnsChanged {c : ColumnChange} : c ∈ columnsChanged le re l r ↔
    c.left ∈ l.columns ∧ c.right ∈ r.columns ∧ c.left.name = c.right.name ∧
      compareColumn le re c.left c.right = some c := by
  rw [columnsChanged, List.mem_filterMap]
  constructor
  · rintro ⟨rc, hrc, hc⟩
    obtain ⟨lc, hfind, hcompare⟩ := Option.bind_eq_some_iff.mp hc
    obtain ⟨hlc, hname⟩ := find_some hfind
    obtain ⟨-, rfl⟩ := compareColumn_eq_some.mp hcompare
    exact ⟨hlc, hrc, hname, hcompare⟩
  · rintro ⟨hlc, hrc, hname, hcompare⟩
    exact ⟨c.right, hrc, Option.bind_eq_some_iff.mpr
      ⟨c.left, (find_eq_some_iff l.columns_nodup).mpr ⟨hlc, hname⟩, hcompare⟩⟩

theorem columnsChanged_nodup : (columnsChanged le re l r).Nodup := by
  refine List.Nodup.filterMap (fun rc rc' c hc hc' => ?_) (List.Nodup.of_map _ r.columns_nodup)
  obtain ⟨lc, -, hcompare⟩ := Option.bind_eq_some_iff.mp hc
  obtain ⟨lc', -, hcompare'⟩ := Option.bind_eq_some_iff.mp hc'
  have hright : rc = c.right := congrArg ColumnChange.right (compareColumn_eq_some.mp hcompare).2
  have hright' : rc' = c.right := congrArg ColumnChange.right (compareColumn_eq_some.mp hcompare').2
  exact hright.trans hright'.symm

theorem columnsChanged_mirror :
    (columnsChanged re le r l).Perm ((columnsChanged le re l r).map (ColumnChange.reversed le re)) := by
  have hinj : Set.InjOn (ColumnChange.reversed le re) {c | c ∈ columnsChanged le re l r} := by
    intro c hc c' hc' heq
    have hleft : c.left = c'.left := congrArg ColumnChange.right heq
    have hright : c.right = c'.right := congrArg ColumnChange.left heq
    rw [← (compareColumn_eq_some.mp (mem_columnsChanged.mp hc).2.2.2).2,
      ← (compareColumn_eq_some.mp (mem_columnsChanged.mp hc').2.2.2).2, hleft, hright]
  refine (List.perm_ext_iff_of_nodup columnsChanged_nodup
    (List.Nodup.map_on (fun c hc c' hc' heq => hinj hc hc' heq) columnsChanged_nodup)).mpr fun c => ?_
  rw [List.mem_map]
  constructor
  · intro hc
    obtain ⟨hrc, hlc, hname, hcompare⟩ := mem_columnsChanged.mp hc
    have hback := compareColumn_reversed hcompare
    refine ⟨c.reversed re le, mem_columnsChanged.mpr ⟨hlc, hrc, hname.symm, hback⟩, ?_⟩
    exact Option.some.inj ((compareColumn_reversed hback).symm.trans hcompare)
  · rintro ⟨c, hc, rfl⟩
    obtain ⟨hlc, hrc, hname, hcompare⟩ := mem_columnsChanged.mp hc
    exact mem_columnsChanged.mpr ⟨hrc, hlc, hname.symm, compareColumn_reversed hcompare⟩

theorem compareTable_mirror (n : Bytes) :
    (compareTable le re n l r).Mirrors le re (compareTable re le n r l) :=
  ⟨rfl, rfl, rfl, columnsChanged_mirror, rfl, rfl, rfl, rfl⟩

theorem TableDelta.Mirrors.isEmpty {a b : TableDelta} (h : a.Mirrors le re b) :
    b.isEmpty = a.isEmpty := by
  have hchanged : b.columnsChanged.isEmpty = a.columnsChanged.isEmpty := by
    refine Bool.eq_iff_iff.mpr ?_
    rw [List.isEmpty_iff, List.isEmpty_iff, ← List.length_eq_zero_iff, h.columnsChanged.length_eq,
      List.length_map, List.length_eq_zero_iff]
  unfold TableDelta.isEmpty
  rw [h.columnsAdded, h.columnsRemoved, hchanged, h.indexesAdded, h.indexesRemoved, h.fksAdded,
    h.fksRemoved, Bool.and_comm a.columnsRemoved.isEmpty, Bool.and_right_comm _ a.indexesRemoved.isEmpty,
    Bool.and_right_comm _ a.fksRemoved.isEmpty]

end Tables

section Schemas

variable {left right : SchemaSnapshot}

theorem tableDelta_name {n : Bytes} {td : TableDelta} (h : tableDelta left right n = some td) :
    td.name = n := by
  unfold tableDelta at h
  split at h
  · obtain ⟨-, htd⟩ := Option.ite_none_left_eq_some.mp h
    rw [← Option.some.inj htd]
    rfl
  · cases h

/-- At each name, neither side has a delta, or each has the other's mirror. -/
theorem tableDelta_mirror (n : Bytes) :
    Option.Rel (TableDelta.Mirrors left.engine right.engine) (tableDelta left right n)
      (tableDelta right left n) := by
  unfold tableDelta
  cases left.details n with
  | none => cases right.details n <;> exact Option.Rel.none
  | some l =>
    cases right.details n with
    | none => exact Option.Rel.none
    | some r =>
      have hmirror : (compareTable left.engine right.engine n l r).Mirrors _ _
        (compareTable right.engine left.engine n r l) := compareTable_mirror n
      dsimp only
      rw [hmirror.isEmpty]
      split
      · exact Option.Rel.none
      · exact Option.Rel.some hmirror

theorem mem_has {s : SchemaSnapshot} {n : Bytes} : s.has n = true ↔ ∃ o ∈ s.objects, o.name = n := by
  rw [SchemaSnapshot.has, List.any_eq_true]
  simp only [beq_iff_eq]

theorem has_of_details {s : SchemaSnapshot} {n : Bytes} {t : TableDetail} (h : s.details n = some t) :
    s.has n = true := by
  obtain ⟨o, ho, hname, -⟩ := s.details_relation n (by rw [h]; rfl)
  exact mem_has.mpr ⟨o, ho, hname⟩

/-- The names of the relations of a side that have a delta. -/
def shared (left right : SchemaSnapshot) : List Bytes :=
  ((left.objects.filter fun o => o.kind.isRelation).map ObjectMeta.name).filter fun n =>
    (tableDelta left right n).isSome

theorem shared_nodup : (shared left right).Nodup := left.relations_nodup.filter _

theorem mem_shared {n : Bytes} :
    n ∈ shared left right ↔ (tableDelta left right n).isSome = true := by
  rw [shared, List.mem_filter, and_iff_right_iff_imp]
  intro h
  obtain ⟨td, htd⟩ := Option.isSome_iff_exists.mp h
  unfold tableDelta at htd
  split at htd
  · rename_i l r hl hr
    obtain ⟨o, ho, hname, hkind⟩ := left.details_relation n (by rw [hl]; rfl)
    exact List.mem_map.mpr ⟨o, List.mem_filter.mpr ⟨ho, hkind⟩, hname⟩
  · cases htd

theorem filterMap_shared {names : List Bytes} : names.filterMap (tableDelta left right) =
      (names.filter fun n => (tableDelta left right n).isSome).filterMap (tableDelta left right) := by
  induction names with
  | nil => rfl
  | cons n names ih =>
    cases h : tableDelta left right n with
    | none =>
      rw [List.filterMap_cons_none h, List.filter_cons_of_neg (by rw [h]; exact Bool.false_ne_true), ih]
    | some td =>
      rw [List.filterMap_cons_some h, List.filter_cons_of_pos (by rw [h]; rfl),
        List.filterMap_cons_some h, ih]

/-- What changed, by the names in order. -/
theorem tablesChanged_eq : (compare left right).tablesChanged =
    (sortBy id (shared left right)).filterMap (tableDelta left right) := by
  rw [← sortBy_filterMap (fun n td h => tableDelta_name h) shared_nodup, shared, ← filterMap_shared,
    List.filterMap_map]
  show sortBy TableDelta.name _ = _
  congr 1
  rw [List.filterMap_filter, List.filterMap_filter]
  refine List.filterMap_congr fun o _ => ?_
  cases hkind : o.kind.isRelation with
  | false => rfl
  | true =>
    cases hhas : right.has o.name with
    | true => rfl
    | false =>
      -- what the right side lacks it does not describe
      show none = tableDelta left right o.name
      unfold tableDelta
      cases hr : right.details o.name with
      | none => cases left.details o.name <;> rfl
      | some r => exact absurd (has_of_details hr) (by rw [hhas]; exact Bool.false_ne_true)

theorem forall2_filterMap {α β : Type*} {R : α → β → Prop} {f : Bytes → Option α}
    {g : Bytes → Option β} (h : ∀ n, Option.Rel R (f n) (g n)) (names : List Bytes) :
    List.Forall₂ R (names.filterMap f) (names.filterMap g) := by
  induction names with
  | nil => exact List.Forall₂.nil
  | cons n names ih =>
    have hn := h n
    cases hf : f n with
    | none =>
      cases hg : g n with
      | none => rwa [List.filterMap_cons_none hf, List.filterMap_cons_none hg]
      | some b => rw [hf, hg] at hn; cases hn
    | some a =>
      cases hg : g n with
      | none => rw [hf, hg] at hn; cases hn
      | some b =>
        rw [hf, hg] at hn
        rw [List.filterMap_cons_some hf, List.filterMap_cons_some hg]
        cases hn with
        | some hab => exact List.Forall₂.cons hab ih

/-- **The mirror.** -/
theorem compare_mirror (left right : SchemaSnapshot) :
    (compare left right).Mirrors left.engine right.engine (compare right left) where
  objectsAdded := rfl
  objectsRemoved := rfl
  tablesChanged := by
    have hsame : (shared left right).Perm (shared right left) := by
      refine (List.perm_ext_iff_of_nodup shared_nodup shared_nodup).mpr fun n => ?_
      rw [mem_shared, mem_shared]
      have hn : Option.Rel _ (tableDelta left right n) (tableDelta right left n) := tableDelta_mirror n
      cases hl : tableDelta left right n <;> cases hr : tableDelta right left n <;>
        first | rfl | (rw [hl, hr] at hn; cases hn)
    rw [tablesChanged_eq, tablesChanged_eq, ← sortBy_eq_of_perm shared_nodup hsame]
    exact forall2_filterMap tableDelta_mirror _
  crossEngine := decide_eq_decide.mpr ne_comm

end Schemas

/-! ## The same schema -/

/-- Two declarations of one type: of one spelling within an engine, and across engines of one class
where both have one. -/
def SameType (le re : DbKind) (l r : Bytes) : Prop :=
  if le = re ∨ unclassified l r = true then eqIgnoreAsciiCase l r = true else normalize l = normalize r

/-- The columns are alike in what `compare` looks at. -/
structure ColumnMeta.Alike (le re : DbKind) (l r : ColumnMeta) : Prop where
  type : SameType le re l.declared r.declared
  notNull : l.notNull = r.notNull
  default : l.default = r.default
  primaryKey : l.primaryKey = r.primaryKey

structure ColumnMeta.Same (le re : DbKind) (l r : ColumnMeta) : Prop extends l.Alike le re r where
  autoIncrement : l.autoIncrement = r.autoIncrement

structure TableDetail.Alike (le re : DbKind) (l r : TableDetail) : Prop where
  columns : ∀ n, Option.Rel (ColumnMeta.Alike le re) (l.column n) (r.column n)
  indexes : ∀ n, (∃ i ∈ l.indexes, i.name = n) ↔ ∃ i ∈ r.indexes, i.name = n
  foreignKeys : ∀ f, f ∈ l.foreignKeys ↔ f ∈ r.foreignKeys

/-- The same columns, the same indexes with their columns and uniqueness, the same edges. -/
structure TableDetail.Same (le re : DbKind) (l r : TableDetail) : Prop where
  columns : ∀ n, Option.Rel (ColumnMeta.Same le re) (l.column n) (r.column n)
  indexes : ∀ i, i ∈ l.indexes ↔ i ∈ r.indexes
  foreignKeys : ∀ f, f ∈ l.foreignKeys ↔ f ∈ r.foreignKeys

/-- What `compare` looks at is the same on both sides: what is not described on both is compared by
its name alone. -/
structure SchemaSnapshot.Alike (left right : SchemaSnapshot) : Prop where
  objects : ∀ n, left.has n = right.has n
  tables : ∀ n l r, left.details n = some l → right.details n = some r →
    l.Alike left.engine right.engine r

/-- **The same schema**: the same objects of the same kinds, and the same shape of each that is
described on both sides. -/
structure SchemaSnapshot.Same (left right : SchemaSnapshot) : Prop where
  objects : ∀ o, o ∈ left.objects ↔ o ∈ right.objects
  tables : ∀ n l r, left.details n = some l → right.details n = some r →
    l.Same left.engine right.engine r

/-- Columns of one name number alike, and indexes of one name are of the same columns and alike
unique. -/
structure TableDetail.AgreesBeyond (l r : TableDetail) : Prop where
  columns : ∀ n lc rc, l.column n = some lc → r.column n = some rc → lc.autoIncrement = rc.autoIncrement
  indexesLeft : ∀ i ∈ l.indexes, (∃ j ∈ r.indexes, j.name = i.name) → i ∈ r.indexes
  indexesRight : ∀ j ∈ r.indexes, (∃ i ∈ l.indexes, i.name = j.name) → j ∈ l.indexes

/-- The sides agree in what `compare` does not look at: objects of one name are of one kind, and
tables agree. -/
structure SchemaSnapshot.AgreesBeyond (left right : SchemaSnapshot) : Prop where
  objectsLeft : ∀ o ∈ left.objects, right.has o.name = true → o ∈ right.objects
  objectsRight : ∀ o ∈ right.objects, left.has o.name = true → o ∈ left.objects
  tables : ∀ n l r, left.details n = some l → right.details n = some r → l.AgreesBeyond r

section SameSchemas

variable {le re : DbKind} {l r : TableDetail} {left right : SchemaSnapshot}

/-- Within one engine the spelling says all. -/
theorem typeDiffers_eq_false {a b : Bytes} : typeDiffers le re a b = false ↔ SameType le re a b := by
  unfold typeDiffers SameType
  by_cases hun : unclassified a b = true
  · rw [if_pos hun, if_pos (Or.inr hun), Bool.not_eq_false']
  rw [if_neg hun]
  by_cases hclass : normalize a = normalize b
  · rw [if_neg (not_not.mpr hclass)]
    by_cases heng : le = re
    · rw [if_pos (Or.inl heng), decide_eq_true heng, Bool.true_and, Bool.not_eq_false']
    · rw [if_neg (not_or.mpr ⟨heng, hun⟩), decide_eq_false heng, Bool.false_and]
      exact iff_of_true rfl hclass
  · rw [if_pos hclass]
    refine iff_of_false Bool.noConfusion fun h => ?_
    split at h
    · rcases normalize_case h with h | ⟨⟨s, ha⟩, -⟩
      · exact hclass h
      · refine hun ?_
        rw [unclassified, ha]
        rfl
    · exact hclass h

theorem compareColumn_eq_none {lc rc : ColumnMeta} :
    compareColumn le re lc rc = none ↔ lc.Alike le re rc := by
  rw [compareColumn, ite_eq_left_iff, Bool.not_eq_true]
  constructor
  · intro h
    have hparts : changeParts le re lc rc = [] := by
      by_contra hne
      exact absurd (h (List.isEmpty_eq_false_iff.mpr hne)) (Option.some_ne_none _)
    obtain ⟨htype, hnull, hdefault, hkey⟩ := changeParts_eq_nil.mp hparts
    exact ⟨typeDiffers_eq_false.mp htype, hnull, hdefault, hkey⟩
  · rintro ⟨htype, hnull, hdefault, hkey⟩ h
    rw [changeParts_eq_nil.mpr ⟨typeDiffers_eq_false.mpr htype, hnull, hdefault, hkey⟩] at h
    cases h

theorem column_eq_none_iff {n : Bytes} : l.column n = none ↔ ∀ c ∈ l.columns, c.name ≠ n :=
  find_eq_none_iff

theorem column_eq_some_iff {n : Bytes} {c : ColumnMeta} :
    l.column n = some c ↔ c ∈ l.columns ∧ c.name = n := find_eq_some_iff l.columns_nodup

theorem columnsBeyond_eq_nil : columnsBeyond l r = [] ↔ ∀ n, r.column n = none → l.column n = none := by
  rw [columnsBeyond, List.filter_eq_nil_iff]
  simp only [Bool.not_eq_true', Bool.not_eq_false, List.any_eq_true, beq_iff_eq]
  constructor
  · intro h n hr
    refine column_eq_none_iff.mpr fun c hc hname => ?_
    obtain ⟨c', hc', hname'⟩ := h c hc
    exact column_eq_none_iff.mp hr c' hc' (hname'.trans hname)
  · intro h c hc
    by_contra hnone
    have hr : r.column c.name = none :=
      column_eq_none_iff.mpr fun c' hc' hname => hnone ⟨c', hc', hname⟩
    exact column_eq_none_iff.mp (h _ hr) c hc rfl

theorem columnsChanged_eq_nil : columnsChanged le re l r = [] ↔
    ∀ n lc rc, l.column n = some lc → r.column n = some rc → lc.Alike le re rc := by
  rw [columnsChanged, List.filterMap_eq_nil_iff]
  constructor
  · intro h n lc rc hl hr
    obtain ⟨hrc, rfl⟩ := column_eq_some_iff.mp hr
    have hnone := h rc hrc
    rw [hl, Option.bind_some] at hnone
    exact compareColumn_eq_none.mp hnone
  · intro h rc hrc
    cases hl : l.column rc.name with
    | none => rfl
    | some lc => exact compareColumn_eq_none.mpr (h _ lc rc hl (column_eq_some_iff.mpr ⟨hrc, rfl⟩))

theorem indexesBeyond_eq_nil :
    indexesBeyond l r = [] ↔ ∀ i ∈ l.indexes, ∃ j ∈ r.indexes, j.name = i.name := by
  rw [indexesBeyond, List.filter_eq_nil_iff]
  simp only [Bool.not_eq_true', Bool.not_eq_false, List.any_eq_true, beq_iff_eq]

theorem fkEq_iff {a b : ForeignKeyMeta} : fkEq a b = true ↔ a = b := by
  obtain ⟨ac, at', ar⟩ := a
  obtain ⟨bc, bt, br⟩ := b
  rw [fkEq, Bool.and_eq_true, Bool.and_eq_true, beq_iff_eq, beq_iff_eq, beq_iff_eq,
    ForeignKeyMeta.mk.injEq, and_assoc]

theorem fksBeyond_eq_nil : fksBeyond l r = [] ↔ ∀ f ∈ l.foreignKeys, f ∈ r.foreignKeys := by
  rw [fksBeyond, List.filter_eq_nil_iff]
  simp only [Bool.not_eq_true', Bool.not_eq_false, List.any_eq_true, fkEq_iff, exists_eq_right]

theorem rel_column {R : ColumnMeta → ColumnMeta → Prop} :
    (∀ n, Option.Rel R (l.column n) (r.column n)) ↔
      ((∀ n, r.column n = none → l.column n = none) ∧ ∀ n, l.column n = none → r.column n = none) ∧
        ∀ n lc rc, l.column n = some lc → r.column n = some rc → R lc rc := by
  constructor
  · intro h
    refine ⟨⟨fun n hr => ?_, fun n hl => ?_⟩, fun n lc rc hl hr => ?_⟩
    all_goals have hn := h n
    · rw [hr] at hn
      generalize l.column n = c at hn
      cases hn
      rfl
    · rw [hl] at hn
      generalize r.column n = c at hn
      cases hn
      rfl
    · rw [hl, hr] at hn
      cases hn with
      | some hn => exact hn
  · rintro ⟨⟨hright, hleft⟩, hboth⟩ n
    cases hl : l.column n with
    | none =>
      rw [hleft n hl]
      exact Option.Rel.none
    | some lc =>
      cases hr : r.column n with
      | none => rw [hright n hr] at hl; cases hl
      | some rc => exact Option.Rel.some (hboth n lc rc hl hr)

theorem compareTable_empty_iff (n : Bytes) :
    (compareTable le re n l r).isEmpty = true ↔ l.Alike le re r := by
  simp only [TableDelta.isEmpty, Bool.and_eq_true, List.isEmpty_iff, compareTable, columnsBeyond_eq_nil,
    columnsChanged_eq_nil, indexesBeyond_eq_nil, fksBeyond_eq_nil]
  constructor
  · rintro ⟨⟨⟨⟨⟨⟨hadded, hremoved⟩, hchanged⟩, hiadded⟩, hiremoved⟩, hfadded⟩, hfremoved⟩
    refine ⟨rel_column.mpr ⟨⟨hremoved, hadded⟩, hchanged⟩, fun n => ⟨?_, ?_⟩,
      fun f => ⟨hfremoved f, hfadded f⟩⟩
    · rintro ⟨i, hi, rfl⟩
      exact hiremoved i hi
    · rintro ⟨i, hi, rfl⟩
      exact hiadded i hi
  · rintro ⟨hcolumns, hindexes, hfks⟩
    obtain ⟨⟨hremoved, hadded⟩, hchanged⟩ := rel_column.mp hcolumns
    exact ⟨⟨⟨⟨⟨⟨hadded, hremoved⟩, hchanged⟩, fun i hi => (hindexes _).mpr ⟨i, hi, rfl⟩⟩,
      fun i hi => (hindexes _).mp ⟨i, hi, rfl⟩⟩, fun f => (hfks f).mpr⟩, fun f => (hfks f).mp⟩

theorem objectsBeyond_eq_nil :
    objectsBeyond left right = [] ↔ ∀ n, left.has n = true → right.has n = true := by
  rw [objectsBeyond, List.filter_eq_nil_iff]
  simp only [Bool.not_eq_true', Bool.not_eq_false]
  constructor
  · intro h n hn
    obtain ⟨o, ho, rfl⟩ := mem_has.mp hn
    exact h o ho
  · exact fun h o ho => h _ (mem_has.mpr ⟨o, ho, rfl⟩)

theorem tablesChanged_eq_nil : (compare left right).tablesChanged = [] ↔
    ∀ n l r, left.details n = some l → right.details n = some r →
      l.Alike left.engine right.engine r := by
  rw [tablesChanged_eq, List.filterMap_eq_nil_iff]
  constructor
  · intro h n l r hl hr
    rw [← compareTable_empty_iff n]
    by_contra hne
    have hdelta : tableDelta left right n = some (compareTable left.engine right.engine n l r) := by
      unfold tableDelta
      rw [hl, hr]
      exact if_neg hne
    have hmem : n ∈ sortBy id (shared left right) :=
      (sortBy_perm id _).mem_iff.mpr (mem_shared.mpr (by rw [hdelta]; rfl))
    rw [h n hmem] at hdelta
    cases hdelta
  · intro h n _
    unfold tableDelta
    split
    · rename_i l r hl hr
      exact if_pos ((compareTable_empty_iff n).mpr (h n l r hl hr))
    · rfl

/-- `compare` finds nothing just where all that it looks at is the same. -/
theorem compare_empty_iff (left right : SchemaSnapshot) :
    (compare left right).isEmpty = true ↔ left.Alike right := by
  rw [SchemaDelta.isEmpty, Bool.and_eq_true, Bool.and_eq_true, List.isEmpty_iff, List.isEmpty_iff,
    List.isEmpty_iff, tablesChanged_eq_nil]
  show (objectsBeyond right left = [] ∧ objectsBeyond left right = []) ∧ _ ↔ _
  rw [objectsBeyond_eq_nil, objectsBeyond_eq_nil]
  constructor
  · rintro ⟨⟨hadded, hremoved⟩, htables⟩
    exact ⟨fun n => Bool.eq_iff_iff.mpr ⟨hremoved n, hadded n⟩, htables⟩
  · rintro ⟨hobjects, htables⟩
    exact ⟨⟨fun n hn => (hobjects n).trans hn, fun n hn => (hobjects n).symm.trans hn⟩, htables⟩

theorem TableDetail.same_iff : l.Same le re r ↔ l.Alike le re r ∧ l.AgreesBeyond r := by
  constructor
  · rintro ⟨hcolumns, hindexes, hfks⟩
    obtain ⟨hnames, hsame⟩ := rel_column.mp hcolumns
    refine ⟨⟨rel_column.mpr ⟨hnames, fun n lc rc hl hr => (hsame n lc rc hl hr).toAlike⟩, fun n => ?_, hfks⟩,
      fun n lc rc hl hr => (hsame n lc rc hl hr).autoIncrement, fun i hi _ => (hindexes i).mp hi,
      fun i hi _ => (hindexes i).mpr hi⟩
    simp only [hindexes]
  · rintro ⟨⟨hcolumns, hindexes, hfks⟩, hauto, hleft, hright⟩
    obtain ⟨hnames, halike⟩ := rel_column.mp hcolumns
    exact ⟨rel_column.mpr ⟨hnames, fun n lc rc hl hr => ⟨halike n lc rc hl hr, hauto n lc rc hl hr⟩⟩,
      fun i => ⟨fun hi => hleft i hi ((hindexes _).mp ⟨i, hi, rfl⟩),
        fun hi => hright i hi ((hindexes _).mpr ⟨i, hi, rfl⟩)⟩, hfks⟩

theorem SchemaSnapshot.same_iff : left.Same right ↔ left.Alike right ∧ left.AgreesBeyond right := by
  constructor
  · rintro ⟨hobjects, htables⟩
    refine ⟨⟨fun n => ?_, fun n l r hl hr => (TableDetail.same_iff.mp (htables n l r hl hr)).1⟩,
      fun o ho _ => (hobjects o).mp ho, fun o ho _ => (hobjects o).mpr ho,
      fun n l r hl hr => (TableDetail.same_iff.mp (htables n l r hl hr)).2⟩
    rw [Bool.eq_iff_iff, mem_has, mem_has]
    simp only [hobjects]
  · rintro ⟨⟨hnames, halike⟩, hleft, hright, hagree⟩
    refine ⟨fun o => ⟨fun ho => hleft o ho ?_, fun ho => hright o ho ?_⟩,
      fun n l r hl hr => TableDetail.same_iff.mpr ⟨halike n l r hl hr, hagree n l r hl hr⟩⟩
    · exact (hnames o.name).symm.trans (mem_has.mpr ⟨o, ho, rfl⟩)
    · exact (hnames o.name).trans (mem_has.mpr ⟨o, ho, rfl⟩)

end SameSchemas

/-- **When `compare` is exact**: the other way round it is its own mirror, and it finds nothing just
where the schemas are the same, for those that agree beyond what it looks at once that is alike. -/
theorem compare_exact_iff (left right : SchemaSnapshot) :
    ((compare left right).Mirrors left.engine right.engine (compare right left) ∧
      ((compare left right).isEmpty = true ↔ left.Same right)) ↔
    (left.Alike right → left.AgreesBeyond right) := by
  rw [and_iff_right (compare_mirror left right), compare_empty_iff, SchemaSnapshot.same_iff]
  exact ⟨fun h halike => (h.mp halike).2, fun h => ⟨fun halike => ⟨halike, h halike⟩, And.left⟩⟩

/-- One relation `t`, of one column `a`. -/
def oneRelation (kind : ObjectKind) (hkind : kind.isRelation = true) (indexes : List IndexMeta)
    (autoIncrement : Bool) : SchemaSnapshot where
  engine := .postgres
  objects := [⟨ascii "t", kind⟩]
  details n := if n = ascii "t" then
      some ⟨[⟨ascii "a", some (ascii "integer"), false, false, none, autoIncrement⟩], [], indexes,
        List.nodup_singleton _⟩
    else none
  relations_nodup := (List.nodup_singleton (ascii "t")).sublist (List.filter_sublist.map ObjectMeta.name)
  details_relation n hn := by
    obtain ⟨t, ht⟩ := Option.isSome_iff_exists.mp hn
    obtain ⟨hname, -⟩ := Option.ite_none_right_eq_some.mp ht
    exact ⟨_, List.mem_singleton_self _, hname.symm, hkind⟩

def indexOn (unique : Bool) (columns : List Bytes) : IndexMeta := ⟨ascii "i", unique, columns⟩

/-- A table and a view, an index on one column and a unique one on two, a column that numbers itself
and one that does not: nothing is found between them. -/
theorem compare_misses :
    ((compare (oneRelation .table rfl [] false) (oneRelation .view rfl [] false)).isEmpty = true ∧
      ¬ (oneRelation .table rfl [] false).Same (oneRelation .view rfl [] false)) ∧
    ((compare (oneRelation .table rfl [indexOn false [ascii "a"]] false)
        (oneRelation .table rfl [indexOn true [ascii "a", ascii "b"]] false)).isEmpty = true ∧
      ¬ (oneRelation .table rfl [indexOn false [ascii "a"]] false).Same
        (oneRelation .table rfl [indexOn true [ascii "a", ascii "b"]] false)) ∧
    ((compare (oneRelation .table rfl [] true) (oneRelation .table rfl [] false)).isEmpty = true ∧
      ¬ (oneRelation .table rfl [] true).Same (oneRelation .table rfl [] false)) := by
  refine ⟨⟨by decide +kernel, fun h => ?_⟩, ⟨by decide +kernel, fun h => ?_⟩, by decide +kernel, fun h => ?_⟩
  · exact absurd ((h.objects ⟨ascii "t", .table⟩).mp (List.mem_singleton_self _)) (by decide)
  · have ht := h.tables (ascii "t") _ _ rfl rfl
    exact absurd ((ht.indexes (indexOn false [ascii "a"])).mp (List.mem_singleton_self _))
      (by decide)
  · have ht := (h.tables (ascii "t") _ _ rfl rfl).columns (ascii "a")
    cases ht with
    | some hc => exact Bool.noConfusion hc.autoIncrement

end RedDb.Schema
