import RedDb.Lib.ByteText

/-!
# RedDb — semantic edits as Postgres statements

A staged edit carries no SQL: `EditOp` names a table and `column = value` pairs,
and `editSql` renders it, binding every value but `NULL`. `insertSql` is its bulk
sibling. `pgParams` boxes the bound values for the wire and refuses the ones that
have no whole value to send.

* `editSql`, `insertSql`       — the statement and its bound values, in order;
* `pgCast` — the cast a placeholder carries;
* `pgParams_bound_isOk_iff` — when the values of an edit can be bound.
-/

namespace RedDb.Driver

open ByteText

/-! ## Values and errors -/

/-- A cell reduced to what the grid shows. -/
structure CappedCell where
  head : Bytes
  len : Nat
  blob : Bool
  deriving DecidableEq

/-- One cell value. `real` holds the bits of the float. -/
inductive Value where
  | null
  | integer (n : Int)
  | real (bits : UInt64)
  | text (s : Bytes)
  | blob (b : Bytes)
  | capped (c : CappedCell)
  deriving DecidableEq

/-- A value that reaches no bind slot whole. -/
def Value.isCapped : Value → Bool
  | .capped _ => true
  | _ => false

@[grind =] def Value.isNull : Value → Bool
  | .null => true
  | _ => false

/-- The errors a write on a pooled connection ends with. -/
inductive RedError where
  | connect (msg : String)
  | query (msg : String)
  | driver (msg : String)
  | interrupted
  deriving DecidableEq

/-- An error of the client library: the server's own report, or any other. -/
inductive PgError where
  | db (code message : String) (hint : Option String)
  | other (text : String)

def mapPgErr : PgError → RedError
  | .db code message hint =>
    if code = "57014" then .interrupted
    else
      let msg := code ++ ": " ++ message
      match hint with
      | some hint => .driver (msg ++ " (hint: " ++ hint ++ ")")
      | none => .driver msg
  | .other text => .driver text

/-! ## Semantic edits -/

structure TableRef where
  schema : Option Bytes
  name : Bytes
  deriving DecidableEq

structure Column where
  name : Bytes
  declType : Option Bytes

structure ColumnValue where
  column : Bytes
  value : Value
  declType : Option Bytes
  deriving DecidableEq

inductive EditOp where
  | update (table : TableRef) (keys set : List ColumnValue)
  | delete (table : TableRef) (keys : List ColumnValue)
  | insert (table : TableRef) (values : List ColumnValue)
  deriving DecidableEq

/-- The pairs of an edit in the order they bind: assignments before the identity. -/
def EditOp.pairs : EditOp → List ColumnValue
  | .update _ keys set => set ++ keys
  | .delete _ keys => keys
  | .insert _ values => values

def editCountErr (op : EditOp) (affected : Nat) : RedError :=
  let what := match op with
    | .update .. => "update"
    | .delete .. => "delete"
    | .insert .. => "insert"
  .query (what ++ " matched " ++ toString affected ++
    " rows (expected 1); nothing was changed")

/-! ## Rendering -/

section Render

variable (quote : Bytes → Bytes)

def qualify (t : TableRef) : Bytes :=
  match t.schema with
  | some s => if s.isEmpty then quote t.name else quote s ++ [dot] ++ quote t.name
  | none => quote t.name

/-- The literal `NULL`, or a placeholder whose value joins the bound ones. -/
def slot (placeholder : Nat → ColumnValue → Bytes) (cv : ColumnValue) (params : List Value) :
    Bytes × List Value :=
  if cv.value.isNull then (ascii "NULL", params)
  else (placeholder params.length cv, params ++ [cv.value])

/-- Render pairs one after the other, threading the bound values. -/
def renderEach (render : ColumnValue → List Value → Bytes × List Value) :
    List ColumnValue → List Value → List Bytes × List Value
  | [], params => ([], params)
  | cv :: cvs, params =>
    let (text, params) := render cv params
    let (texts, params) := renderEach render cvs params
    (text :: texts, params)

variable (placeholder : Nat → ColumnValue → Bytes)

/-- `column = slot`. -/
def assign (cv : ColumnValue) (params : List Value) : Bytes × List Value :=
  let (text, params) := slot placeholder cv params
  (quote cv.column ++ ascii " = " ++ text, params)

/-- One member of the identity: a null compares with `IS NULL` and binds nothing. -/
def identity (cv : ColumnValue) (params : List Value) : Bytes × List Value :=
  if cv.value.isNull then (quote cv.column ++ ascii " IS NULL", params)
  else assign quote placeholder cv params

/-- An edit as `(sql, ordered bind values)`. -/
def editSql (op : EditOp) : Bytes × List Value :=
  match op with
  | .update table keys set =>
    let (assigns, params) := renderEach (assign quote placeholder) set []
    let (members, params) := renderEach (identity quote placeholder) keys params
    (ascii "UPDATE " ++ qualify quote table ++ ascii " SET " ++
      (ascii ", ").intercalate assigns ++ ascii " WHERE " ++
      (ascii " AND ").intercalate members, params)
  | .delete table keys =>
    let (members, params) := renderEach (identity quote placeholder) keys []
    (ascii "DELETE FROM " ++ qualify quote table ++ ascii " WHERE " ++
      (ascii " AND ").intercalate members, params)
  | .insert table values =>
    let cols := values.map fun cv => quote cv.column
    let (vals, params) := renderEach (slot placeholder) values []
    (ascii "INSERT INTO " ++ qualify quote table ++ ascii " (" ++
      (ascii ", ").intercalate cols ++ ascii ") VALUES (" ++
      (ascii ", ").intercalate vals ++ ascii ")", params)

/-- The pairs a row's cells make with the columns; a cell beyond the last column
makes none. -/
def cells (columns : List Column) (row : List Value) : List ColumnValue :=
  (row.zip columns).map fun p => ⟨p.2.name, p.1, p.2.declType⟩

/-- One row of a multi-row insert. -/
def tuple (columns : List Column) (row : List Value) (params : List Value) :
    Bytes × List Value :=
  let (texts, params) := renderEach (slot placeholder) (cells columns row) params
  (ascii "(" ++ (ascii ", ").intercalate texts ++ ascii ")", params)

/-- A multi-row insert as `(sql, ordered bind values)`. -/
def insertSql (table : TableRef) (columns : List Column) (rows : List (List Value)) :
    Bytes × List Value :=
  let (tuples, params) := rows.foldl (fun (acc : List Bytes × List Value) row =>
    let (text, params) := tuple placeholder columns row acc.2
    (acc.1 ++ [text], params)) ([], [])
  (ascii "INSERT INTO " ++ qualify quote table ++ ascii " (" ++
    (ascii ", ").intercalate (columns.map fun c => quote c.name) ++ ascii ") VALUES " ++
    (ascii ", ").intercalate tuples, params)

end Render

/-! ## Postgres -/

/-- Double-quote an identifier, doubling embedded quotes. -/
def pgQuote (ident : Bytes) : Bytes :=
  doubleQuote :: ident.flatMap (fun c => if c = doubleQuote then [c, c] else [c]) ++ [doubleQuote]

def isPgBoolType (name : Bytes) : Bool :=
  [ascii "bool", ascii "boolean"].contains (asciiLower (trim name))

def isPgTextType (name : Bytes) : Bool :=
  [ascii "text", ascii "varchar", ascii "bpchar", ascii "char", ascii "name", ascii "citext",
    ascii "unknown"].contains (asciiLower (trim name))

/-- The cast that pins a placeholder to the wire form of its value. -/
def pgCast (value : Value) (declType : Option Bytes) : Bytes :=
  match value with
  | .integer _ => if declType.any isPgBoolType then ascii "::int8::int4::bool" else ascii "::int8"
  | .real _ => ascii "::float8"
  | .blob _ => ascii "::bytea"
  | .null | .capped _ => []
  | .text _ =>
    match declType with
    | some t => if isPgTextType t then ascii "::text" else ascii "::text::" ++ pgQuote t
    | none => ascii "::text"

/-- `$n` with its cast. -/
def pgPlaceholder (i : Nat) (cv : ColumnValue) : Bytes :=
  dollar :: ascii (toString (i + 1)) ++ pgCast cv.value cv.declType

/-- A value in its wire form. -/
inductive Param where
  | int8 (n : Int)
  | float8 (bits : UInt64)
  | text (s : Bytes)
  | bytea (b : Bytes)

/-- The wire form of one value; a null or a capped cell has none. -/
def pgParam : Value → Except RedError Param
  | .integer n => .ok (.int8 n)
  | .real bits => .ok (.float8 bits)
  | .text s => .ok (.text s)
  | .blob b => .ok (.bytea b)
  | .null | .capped _ => .error (.query "null seek bound")

def pgParams (bound : List Value) : Except RedError (List Param) := bound.mapM pgParam

/-- The cap on bound parameters of one statement, with margin. -/
def pgParamCap : Nat := 60000

/-- Rows bound by one insert statement. -/
def insertChunkRows (columns paramCap : Nat) : Nat := max (paramCap / max columns 1) 1

/-- `rows.chunks(n)`, of at least one row each. -/
@[grind =] def chunks {α : Type} (n : Nat) : List α → List (List α)
  | [] => []
  | row :: rows => (row :: rows.take (n - 1)) :: chunks n (rows.drop (n - 1))
termination_by rows => rows.length
decreasing_by simp only [List.length_drop, List.length_cons]; omega

/-! ## What an edit binds -/

/-- The values of pairs that reach a bind slot. -/
def bound (cvs : List ColumnValue) : List Value :=
  (cvs.map ColumnValue.value).filter fun v => !v.isNull

@[simp] theorem bound_nil : bound [] = [] := rfl

theorem bound_append (cvs cvs' : List ColumnValue) :
    bound (cvs ++ cvs') = bound cvs ++ bound cvs' := by
  simp [bound]

theorem bound_cons (cv : ColumnValue) (cvs : List ColumnValue) :
    bound (cv :: cvs) = bound [cv] ++ bound cvs := bound_append [cv] cvs

/-- A renderer that binds the value of its pair unless it is null. -/
def Binds (render : ColumnValue → List Value → Bytes × List Value) : Prop :=
  ∀ cv params, (render cv params).2 = params ++ bound [cv]

theorem binds_slot (placeholder : Nat → ColumnValue → Bytes) : Binds (slot placeholder) := by
  intro cv params
  unfold slot bound
  cases h : cv.value.isNull <;> simp [h]

theorem binds_assign (quote : Bytes → Bytes) (placeholder : Nat → ColumnValue → Bytes) :
    Binds (assign quote placeholder) := by
  intro cv params
  exact binds_slot placeholder cv params

theorem binds_identity (quote : Bytes → Bytes) (placeholder : Nat → ColumnValue → Bytes) :
    Binds (identity quote placeholder) := by
  intro cv params
  unfold identity
  split
  · rename_i h
    simp [bound, h]
  · exact binds_assign quote placeholder cv params

theorem renderEach_params {render : ColumnValue → List Value → Bytes × List Value}
    (h : Binds render) (cvs : List ColumnValue) (params : List Value) :
    (renderEach render cvs params).2 = params ++ bound cvs := by
  induction cvs generalizing params with
  | nil => simp [renderEach]
  | cons cv cvs ih =>
    have hcv := h cv params
    unfold renderEach
    simp only [ih, hcv]
    rw [bound_cons cv cvs, List.append_assoc]

/-- An edit binds its values in order, the nulls left out. -/
theorem editSql_params (quote : Bytes → Bytes) (placeholder : Nat → ColumnValue → Bytes)
    (op : EditOp) : (editSql quote placeholder op).2 = bound op.pairs := by
  cases op with
  | update table keys set =>
    simp only [editSql, EditOp.pairs]
    rw [renderEach_params (binds_identity quote placeholder),
      renderEach_params (binds_assign quote placeholder), List.nil_append, bound_append]
  | delete table keys =>
    exact renderEach_params (binds_identity quote placeholder) keys []
  | insert table values =>
    exact renderEach_params (binds_slot placeholder) values []

theorem insertSql_params (quote : Bytes → Bytes) (placeholder : Nat → ColumnValue → Bytes)
    (table : TableRef) (columns : List Column) (rows : List (List Value)) :
    (insertSql quote placeholder table columns rows).2 = bound (rows.flatMap (cells columns)) := by
  have hfold : ∀ (rows : List (List Value)) (acc : List Bytes × List Value),
      (rows.foldl (fun acc row =>
        (acc.1 ++ [(tuple placeholder columns row acc.2).1],
          (tuple placeholder columns row acc.2).2)) acc).2 =
        acc.2 ++ bound (rows.flatMap (cells columns)) := by
    intro rows
    induction rows with
    | nil => intro acc; simp
    | cons row rows ih =>
      intro acc
      rw [List.foldl_cons, ih, List.flatMap_cons, bound_append, ← List.append_assoc]
      congr 1
      exact renderEach_params (binds_slot placeholder) (cells columns row) acc.2
  exact hfold rows ([], [])

/-- The rows of the chunks are the rows. -/
theorem mem_chunks_iff {α : Type} {n : Nat} {rows : List α} {row : α} :
    (∃ chunk ∈ chunks n rows, row ∈ chunk) ↔ row ∈ rows := by
  induction rows using chunks.induct n with
  | case1 => simp [chunks]
  | case2 head rows ih =>
    have hsplit : row ∈ rows ↔ row ∈ rows.take (n - 1) ∨ row ∈ rows.drop (n - 1) := by
      rw [← List.mem_append, List.take_append_drop]
    rw [chunks, List.exists_mem_cons_iff, ih, List.mem_cons, List.mem_cons, hsplit, or_assoc]

/-! ## When the values can be bound -/

theorem pgParam_isOk_iff (v : Value) :
    (∃ p, pgParam v = .ok p) ↔ v.isNull = false ∧ v.isCapped = false := by
  cases v <;> simp [pgParam, Value.isNull, Value.isCapped]

/-- Values can be bound exactly when each has a wire form. -/
theorem pgParams_isOk_iff (vs : List Value) :
    (∃ ps, pgParams vs = .ok ps) ↔ ∀ v ∈ vs, v.isNull = false ∧ v.isCapped = false := by
  unfold pgParams
  induction vs with
  | nil => simp [pure, Except.pure]
  | cons v vs ih =>
    rw [List.forall_mem_cons, ← ih, ← pgParam_isOk_iff, List.mapM_cons]
    cases hv : pgParam v with
    | error e => simp [bind, Except.bind]
    | ok p =>
      cases hvs : vs.mapM pgParam with
      | error e => simp [bind, Except.bind]
      | ok ps => simp [bind, Except.bind, pure, Except.pure]

/-- The bound values of pairs have a wire form unless one is capped. -/
theorem pgParams_bound_isOk_iff (cvs : List ColumnValue) :
    (∃ ps, pgParams (bound cvs) = .ok ps) ↔ ∀ cv ∈ cvs, cv.value.isCapped = false := by
  rw [pgParams_isOk_iff]
  constructor
  · intro h cv hcv
    cases hn : cv.value with
    | null => rfl
    | _ =>
      have hmem : cv.value ∈ bound cvs :=
        List.mem_filter.mpr ⟨List.mem_map_of_mem hcv, by simp [hn, Value.isNull]⟩
      rw [← hn]
      exact (h _ hmem).2
  · intro h v hv
    obtain ⟨hv, hnull⟩ := List.mem_filter.mp hv
    obtain ⟨cv, hcv, rfl⟩ := List.mem_map.mp hv
    exact ⟨by simpa using hnull, h cv hcv⟩

end RedDb.Driver
