import Mathlib.Data.List.Basic

/-!
# RedDb — the key a table is paged by

A table browse is paged by a tuple of columns: the primary key or a unique index that
holds no null, led by the sort column when a header was clicked. `seekClauses` renders
the comparison a page starts from and the order it is read in.

* `seekCmp`, `seekDirection` — the comparison and the order of the clauses;
* `resolved_columns` — which columns a resolved key has, and
  `resolveKeyColumn_unique`    what makes its last one a key.
-/

namespace RedDb.Grid

/-! ## What is known of a table -/

structure ColumnMeta where
  name : String
  typeName : Option String
  notNull : Bool
  primaryKey : Bool

structure IndexMeta where
  name : String
  unique : Bool
  columns : List String

structure TableDetail where
  columns : List ColumnMeta
  indexes : List IndexMeta

/-! ## Keys -/

inductive SortDirection where
  | asc
  | desc
  deriving DecidableEq

def SortDirection.isDescending : SortDirection → Bool
  | .asc => false
  | .desc => true

def SortDirection.fromDescending (descending : Bool) : SortDirection :=
  if descending then .desc else .asc

def SortDirection.sql (d : SortDirection) : String := if d.isDescending then "DESC" else "ASC"

def SortDirection.reversedWhen (d : SortDirection) (flip : Bool) : SortDirection :=
  .fromDescending (d.isDescending ^^ flip)

inductive KeyKind where
  | int
  | other
  deriving DecidableEq

structure KeySpec where
  column : String
  kind : KeyKind
  columnType : Option String
  tiebreak : Option String
  tiebreakType : Option String
  direction : SortDirection
  deriving DecidableEq

def KeySpec.single (column : String) (kind : KeyKind) : KeySpec :=
  ⟨column, kind, none, none, none, .asc⟩

def KeySpec.withColumnType (k : KeySpec) (typeName : Option String) : KeySpec :=
  { k with columnType := typeName }

def KeySpec.columnNames (k : KeySpec) : List String := k.column :: k.tiebreak.toList

/-- The types named an integer, by the word before a bracket or a space. -/
def isIntType (typeName : String) : Bool :=
  let t := typeName.toList.map Char.toLower
  let base := t.takeWhile fun c => c != '(' && c != ' '
  ["int", "integer", "int2", "int4", "int8", "tinyint", "smallint", "mediumint", "bigint",
    "serial", "smallserial", "bigserial"].any fun word => word.toList == base

def keyKind (c : ColumnMeta) : KeyKind := if c.typeName.any isIntType then .int else .other

/-- The column of a one-column unique index, when it holds no null. -/
def indexColumn (detail : TableDetail) (index : IndexMeta) : Option ColumnMeta :=
  match index.unique, index.columns with
  | true, [name] => detail.columns.find? fun c => c.name == name && c.notNull
  | _, _ => none

def resolveKeyColumn (detail : TableDetail) : Option ColumnMeta :=
  match detail.columns.filter (·.primaryKey) with
  | [only] => some only
  | [] => detail.indexes.findSome? (indexColumn detail)
  | _ => none

def KeySpec.fromDetail (detail : TableDetail) : Option KeySpec :=
  match resolveKeyColumn detail with
  | none => none
  | some column =>
    let kind := keyKind column
    if column.notNull || kind == .int then
      some ((KeySpec.single column.name kind).withColumnType column.typeName)
    else none

def KeySpec.sorted (detail : TableDetail) (sortCol : String) (direction : SortDirection) :
    Option KeySpec :=
  match resolveKeyColumn detail with
  | none => none
  | some pk =>
    match detail.columns.find? fun c => c.name == sortCol with
    | none => none
    | some lead =>
      if lead.name = pk.name then
        some ⟨pk.name, keyKind pk, pk.typeName, none, none, direction⟩
      else if lead.notNull then
        some ⟨lead.name, keyKind lead, lead.typeName, some pk.name, pk.typeName, direction⟩
      else none

/-- The keys a browse of the table may be paged by. -/
def KeySpec.Resolved (detail : TableDetail) (k : KeySpec) : Prop :=
  fromDetail detail = some k ∨ ∃ sortCol direction, sorted detail sortCol direction = some k

/-! ## The clauses of a seek -/

inductive Cmp where
  | gt
  | lt
  | ge
  | le

def Cmp.sql : Cmp → String
  | .gt => ">"
  | .lt => "<"
  | .ge => ">="
  | .le => "<="

/-- The key's own direction, turned when the grid scrolls up. -/
def seekDirection (k : KeySpec) (scroll : SortDirection) : SortDirection :=
  k.direction.reversedWhen scroll.isDescending

def seekCmp (k : KeySpec) (scroll : SortDirection) (inclusive : Bool) : Cmp :=
  match (seekDirection k scroll).isDescending, inclusive with
  | true, true => .le
  | true, false => .lt
  | false, true => .ge
  | false, false => .gt

def seekClauses (k : KeySpec) (boundLen : Nat) (scroll : SortDirection) (inclusive : Bool)
    (quote : String → String) (placeholder : Nat → String) : String × String :=
  let cols := k.columnNames.map quote
  let dir := (seekDirection k scroll).sql
  let orderBy := ", ".intercalate (cols.map fun c => c ++ " " ++ dir)
  let whereClause :=
    if boundLen = 0 then ""
    else
      let lhs := ", ".intercalate (cols.take boundLen)
      let rhs := ", ".intercalate ((List.range boundLen).map placeholder)
      "WHERE (" ++ lhs ++ ") " ++ (seekCmp k scroll inclusive).sql ++ " (" ++ rhs ++ ") "
  (whereClause, orderBy)

example : seekClauses ⟨"created_at", .other, none, some "id", none, .desc⟩ 2 .asc false
    (fun c => c) (fun _ => "?") =
    ("WHERE (created_at, id) < (?, ?) ", "created_at DESC, id DESC") := by decide

/-! ## The columns of a resolved key -/

theorem resolveKeyColumn_mem {detail : TableDetail} {c : ColumnMeta}
    (h : resolveKeyColumn detail = some c) : c ∈ detail.columns := by
  unfold resolveKeyColumn at h
  split at h
  · rename_i only honly
    cases h
    exact (List.mem_filter.mp (honly ▸ List.mem_singleton_self c)).1
  · obtain ⟨index, -, hindex⟩ := List.exists_of_findSome?_eq_some h
    unfold indexColumn at hindex
    split at hindex
    · exact List.mem_of_find?_eq_some hindex
    · cases hindex
  · cases h

/-- What makes the key column one: it is the only primary key column, or there is none
and a unique index is its own. -/
theorem resolveKeyColumn_unique {detail : TableDetail} {c : ColumnMeta}
    (h : resolveKeyColumn detail = some c) : detail.columns.filter (·.primaryKey) = [c] ∨
      (detail.columns.filter (·.primaryKey) = [] ∧
        ∃ index ∈ detail.indexes, index.unique = true ∧ index.columns = [c.name]) := by
  unfold resolveKeyColumn at h
  split at h
  · rename_i only honly
    cases h
    exact Or.inl honly
  · rename_i hnone
    obtain ⟨index, hmem, hindex⟩ := List.exists_of_findSome?_eq_some h
    unfold indexColumn at hindex
    split at hindex
    · rename_i name hunique hname
      have hfound := List.find?_some hindex
      simp only [Bool.and_eq_true, beq_iff_eq] at hfound
      exact Or.inr ⟨hnone, index, hmem, hunique, by rw [hname, hfound.1]⟩
    · cases hindex
  · cases h

/-- A resolved key is led by the key column, or by another one that holds no null, with
the key column behind it. -/
theorem resolved_columns {detail : TableDetail} {k : KeySpec} (h : k.Resolved detail) :
    ∃ pk, resolveKeyColumn detail = some pk ∧ (k.columnNames = [pk.name] ∨
        ∃ lead ∈ detail.columns, lead.notNull = true ∧ k.columnNames = [lead.name, pk.name]) := by
  rcases h with h | ⟨sortCol, direction, h⟩
  · unfold KeySpec.fromDetail at h
    split at h
    · cases h
    rename_i pk hpk
    refine ⟨pk, hpk, Or.inl ?_⟩
    simp only at h
    split at h
    · cases h
      rfl
    · cases h
  · unfold KeySpec.sorted at h
    split at h
    · cases h
    rename_i pk hpk
    refine ⟨pk, hpk, ?_⟩
    split at h
    · cases h
    rename_i lead hlead
    split at h
    · cases h
      exact Or.inl rfl
    split at h
    · rename_i hnull
      cases h
      exact Or.inr ⟨lead, List.mem_of_find?_eq_some hlead, hnull, rfl⟩
    · cases h

end RedDb.Grid
