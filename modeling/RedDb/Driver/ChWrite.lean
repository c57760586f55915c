import Mathlib.Data.List.Nodup
import RedDb.Driver.PgText
import RedDb.Sql.Passages

/-!
# RedDb — values bound in a ClickHouse request

A value rides beside the statement: the SQL has a typed placeholder such as `{i0:Int64}`, and the
request a `param_i0` with the text of the value. An edit is rendered with the count that goes before
it; a seek binds its bounds the same way. The server reads a parameter as a field of the tab-separated
format, in which a backslash opens an escape.

* `requests_addressed` — the placeholders of a request are its parameters;
* `readEscaped_eq_some_iff` — the texts that the server reads as they were sent;
* `bound_values_arrive_iff` — when every value of a list of requests arrives.
-/

namespace RedDb.Driver

open ByteText RedDb.Sql

abbrev tab : UInt8 := 9
abbrev leftBrace : UInt8 := 123
abbrev rightBrace : UInt8 := 125

/-! ## Types -/

/-- The text between a wrapper and its closing bracket. -/
def unwrapType (wrapper t : Bytes) : Option Bytes :=
  if wrapper.isPrefixOf t && (t.drop wrapper.length).getLast? == some closeParen then
    some (t.drop wrapper.length).dropLast
  else none

/-- A type without `Nullable` and `LowCardinality`; each of them takes a byte at least. -/
def peelFrom : Nat → Bytes → Bytes
  | 0, name => trim name
  | fuel + 1, name =>
    match unwrapType (ascii "Nullable(") (trim name) with
    | some inner => peelFrom fuel inner
    | none =>
      match unwrapType (ascii "LowCardinality(") (trim name) with
      | some inner => peelFrom fuel inner
      | none => trim name

def peelType (name : Bytes) : Bytes := peelFrom name.length name

/-- A type without its arguments. -/
def baseType (peeled : Bytes) : Bytes := trim (peeled.takeWhile fun c => c != openParen)

/-- Why a value is no part of a write. -/
def unbindable : Value → RedError
  | .real _ => .query "a floating-point value can't identify a row: it may not have survived the read exactly"
  | .capped _ => .query ("this cell is display-clipped, so only its beginning is known; open it in the " ++
      "inspector to load the full value first")
  | .blob _ => .query "a binary value can't be compared as a row identity"
  | .null | .integer _ | .text _ => .query "this value can't be bound into a ClickHouse statement"

def valueType : Value → Except RedError Bytes
  | .integer _ => .ok (ascii "Int64")
  | .text _ => .ok (ascii "String")
  | v => .error (unbindable v)

/-- The types that are bound under their own name. -/
def boundByName : List String := ["String", "UUID", "Date", "Date32", "DateTime", "Bool", "IPv4", "IPv6"]

/-- The types that are bound with their arguments. -/
def boundWhole : List String :=
  ["DateTime64", "Decimal", "Decimal32", "Decimal64", "Decimal128", "Decimal256"]

def bindType (declType : Option Bytes) (value : Value) : Except RedError Bytes :=
  match declType with
  | none => valueType value
  | some decl =>
    let peeled := peelType decl
    let base := baseType peeled
    if (ascii "Int").isPrefixOf base || (ascii "UInt").isPrefixOf base then .ok base
    else if ["FixedString", "Enum", "Enum8", "Enum16"].any fun name => base == ascii name then
      .ok (ascii "String")
    else if boundByName.any fun name => base == ascii name then .ok base
    else if boundWhole.any fun name => base == ascii name then .ok peeled
    else valueType value

/-- `to_string` of an integer. -/
def integerText (n : Int) : Bytes :=
  if n < 0 then dash :: ByteText.decimal n.natAbs else ByteText.decimal n.natAbs

def paramText : Value → Except RedError Bytes
  | .integer n => .ok (integerText n)
  | .text s => .ok s
  | v => .error (unbindable v)

/-! ## Edits -/

def chQuote (ident : Bytes) : Bytes := quotedBy backtick (doubled backslash ident)

/-- A parameter of a request: its name and its text. -/
abbrev ChParam := Bytes × Bytes

def paramName (name : Bytes) : Bytes := ascii "param_" ++ name

/-- `{name:type}` -/
def placeholder (name type : Bytes) : Bytes := leftBrace :: (name ++ colon :: type) ++ [rightBrace]

/-- Bind one value under the name of its kind and place. -/
def bindValue (kind : Bytes) (i : Nat) (cv : ColumnValue) : Except RedError (Bytes × ChParam) :=
  match paramText cv.value with
  | .error e => .error e
  | .ok text =>
    match bindType cv.declType cv.value with
    | .error e => .error e
    | .ok type =>
      .ok (placeholder (kind ++ ByteText.decimal i) type, paramName (kind ++ ByteText.decimal i), text)

/-- `column = slot`, or what stands for a null, which is not bound. -/
def renderPart (kind nullText : Bytes) (i : Nat) (cv : ColumnValue) : Except RedError (Bytes × List ChParam) :=
  if cv.value.isNull then .ok (chQuote cv.column ++ nullText, [])
  else match bindValue kind i cv with
    | .error e => .error e
    | .ok (slot, param) => .ok (chQuote cv.column ++ ascii " = " ++ slot, [param])

/-- The parts in order, each with its place. -/
@[grind =] def renderParts (kind nullText : Bytes) : Nat → List ColumnValue → Except RedError (List Bytes × List ChParam)
  | _, [] => .ok ([], [])
  | i, cv :: cvs =>
    match renderPart kind nullText i cv with
    | .error e => .error e
    | .ok (part, params) =>
      match renderParts kind nullText (i + 1) cvs with
      | .error e => .error e
      | .ok (parts, rest) => .ok (part :: parts, params ++ rest)

def renderAssignments (set : List ColumnValue) : Except RedError (List Bytes × List ChParam) :=
  renderParts (ascii "v") (ascii " = NULL") 0 set

def renderIdentity (keys : List ColumnValue) : Except RedError (List Bytes × List ChParam) :=
  renderParts (ascii "i") (ascii " IS NULL") 0 keys

/-- Which statement a mutation is: a rewrite of parts, or the lightweight one. -/
inductive Form where
  | mutation | lightweight

inductive MutKind where
  | update | delete
  deriving DecidableEq

def mutStatement (qualified : Bytes) (kind : MutKind) (form : Form) (assigns whereSql : Bytes) : Bytes :=
  match kind, form with
  | .update, .mutation =>
    ascii "ALTER TABLE " ++ qualified ++ ascii " UPDATE " ++ assigns ++ ascii " WHERE " ++ whereSql
  | .update, .lightweight =>
    ascii "UPDATE " ++ qualified ++ ascii " SET " ++ assigns ++ ascii " WHERE " ++ whereSql
  | .delete, .mutation => ascii "ALTER TABLE " ++ qualified ++ ascii " DELETE WHERE " ++ whereSql
  | .delete, .lightweight => ascii "DELETE FROM " ++ qualified ++ ascii " WHERE " ++ whereSql

/-- An edit for the server: the statement, the count that goes before it, and the parameters. -/
structure OpSql where
  sql : Bytes
  countSql : Bytes
  params : List ChParam

def renderMut (qualified : Bytes) (kind : MutKind) (form : Form) (keys set : List ColumnValue) :
    Except RedError OpSql :=
  if keys.isEmpty then
    .error (.driver "refusing an edit with no row identity: it would match the whole table")
  else if kind = .update && set.isEmpty then .error (.driver "nothing to update")
  else match renderAssignments set with
    | .error e => .error e
    | .ok (assigns, values) =>
      match renderIdentity keys with
      | .error e => .error e
      | .ok (members, identity) =>
        let whereSql := List.intercalate (ascii " AND ") members
        .ok ⟨mutStatement qualified kind form (List.intercalate (ascii ", ") assigns) whereSql,
          ascii "SELECT count() FROM " ++ qualified ++ ascii " WHERE " ++ whereSql, values ++ identity⟩

def renderOp (qualified : Bytes) (op : EditOp) (form : Form) : Except RedError OpSql :=
  match op with
  | .update _ keys set => renderMut qualified .update form keys set
  | .delete _ keys => renderMut qualified .delete form keys []
  | .insert .. => .error (.driver "an insert is not a mutation; it rides the bulk insert path")

/-- The parameters that the count is sent with. -/
def identityParams (params : List ChParam) : List ChParam :=
  params.filter fun p => (ascii "param_i").isPrefixOf p.1

/-! ## Seeks -/

def chParamType : Value → Except RedError Bytes
  | .integer _ => .ok (ascii "Int64")
  | .real _ => .ok (ascii "Float64")
  | .text _ => .ok (ascii "String")
  | .blob _ | .null | .capped _ => .error (.query "unsupported ClickHouse seek bound")

/-- The types of the bounds; one that has none refuses the seek. -/
def chParamTypes : List Value → Except RedError (List Bytes)
  | [] => .ok []
  | v :: vs =>
    match chParamType v with
    | .error e => .error e
    | .ok type =>
      match chParamTypes vs with
      | .error e => .error e
      | .ok types => .ok (type :: types)

section Seek

variable (realText : UInt64 → Bytes)

/-- The text a bound is sent as. -/
def boundText : Value → Bytes
  | .integer n => integerText n
  | .real bits => realText bits
  | .text s => s
  | .blob _ | .null | .capped _ => []

def chParams (bound : List Value) : List ChParam :=
  bound.zipIdx.map fun (v, i) => (paramName (ascii "p" ++ ByteText.decimal i), boundText realText v)

def seekCmp (descending inclusive : Bool) : Bytes :=
  (if descending then ascii "<" else ascii ">") ++ if inclusive then ascii "=" else []

/-- The row comparison of a seek. -/
def seekWhere (columns : List Bytes) (descending inclusive : Bool) (types : List Bytes) : Bytes :=
  ascii "WHERE (" ++ List.intercalate (ascii ", ") ((columns.take types.length).map chQuote) ++ ascii ") " ++
    seekCmp descending inclusive ++ ascii " (" ++
    List.intercalate (ascii ", ") (types.zipIdx.map fun (type, i) =>
      placeholder (ascii "p" ++ ByteText.decimal i) type) ++ ascii ") "

/-! ## Requests -/

/-- What is sent: a statement and its parameters. `bound` are the values they are sent for. -/
structure Request where
  sql : Bytes
  params : List ChParam
  bound : List Value

/-- The schema of a table: its own, else the one that the connection is in. -/
def schemaOf (scope : Bytes) (table : TableRef) : Bytes :=
  match table.schema.filter fun schema => !schema.isEmpty with
  | some schema => schema
  | none => scope

/-- What the driver is asked for: an edit, or the rows behind a bound. -/
inductive Ask where
  | edit (scope : Bytes) (op : EditOp) (form : Form)
  | seek (columns : List Bytes) (descending inclusive : Bool) (bound : List Value)

def EditOp.table : EditOp → TableRef
  | .update table _ _ | .delete table _ | .insert table _ => table

def EditOp.keys : EditOp → List ColumnValue
  | .update _ keys _ | .delete _ keys => keys
  | .insert .. => []

def EditOp.set : EditOp → List ColumnValue
  | .update _ _ set => set
  | .delete .. | .insert .. => []

/-- The values that are bound: a null is none. -/
def boundValues (pairs : List ColumnValue) : List Value :=
  (pairs.filter fun cv => !cv.value.isNull).map ColumnValue.value

/-- The requests of an edit are its count and its statement; of what is refused there are none. -/
def Ask.requests : Ask → List Request
  | .edit scope op form =>
    match renderOp (qualify chQuote ⟨some (schemaOf scope op.table), op.table.name⟩) op form with
    | .error _ => []
    | .ok rendered =>
      [⟨rendered.countSql, identityParams rendered.params, boundValues op.keys⟩,
        ⟨rendered.sql, rendered.params, boundValues op.set ++ boundValues op.keys⟩]
  | .seek columns descending inclusive bound =>
    match chParamTypes bound with
    | .error _ => []
    | .ok types => [⟨seekWhere columns descending inclusive types, chParams realText bound, bound⟩]

end Seek

/-! ## The server -/

/-- Where the reading of a statement stands: outside, in a quoted identifier, behind a backslash in one,
or in a placeholder. -/
inductive Scan where
  | outside
  | quoted
  | escaped
  | slot (text : Bytes)

/-- The texts between braces, outside quoted identifiers. -/
@[grind =] def readSlots : Scan → Bytes → List Bytes
  | _, [] => []
  | .outside, c :: rest =>
    if c = backtick then readSlots .quoted rest
    else if c = leftBrace then readSlots (.slot []) rest
    else readSlots .outside rest
  | .quoted, c :: rest =>
    if c = backslash then readSlots .escaped rest
    else if c = backtick then readSlots .outside rest
    else readSlots .quoted rest
  | .escaped, _ :: rest => readSlots .quoted rest
  | .slot text, c :: rest =>
    if c = rightBrace then text :: readSlots .outside rest else readSlots (.slot (text ++ [c])) rest

/-- The parameters that a statement asks for, by name. -/
def askedParams (sql : Bytes) : List Bytes :=
  (readSlots .outside sql).map fun text => paramName (text.takeWhile fun c => c != colon)

def hexValue (c : UInt8) : Option UInt8 :=
  if 48 ≤ c ∧ c ≤ 57 then some (c - 48)
  else if 97 ≤ c ∧ c ≤ 102 then some (c - 87)
  else if 65 ≤ c ∧ c ≤ 70 then some (c - 55)
  else none

/-- The byte behind a backslash, decoded; one that stands for nothing stands for itself. -/
def unescaped (c : UInt8) : UInt8 :=
  if c = 98 then 8 else if c = 102 then 12 else if c = 114 then 13 else if c = 110 then 10
  else if c = 116 then 9 else if c = 48 then 0 else if c = 97 then 7 else if c = 118 then 11 else c

/-- A field of the tab-separated format: a tab or a line feed ends it, a backslash opens an escape. A
text that goes on behind the end, or breaks off in an escape, is refused. -/
@[grind =] def readEscaped : Bytes → Option Bytes
  | [] => some []
  | c :: rest =>
    if c = tab ∨ c = newline then none
    else if c = backslash then
      match rest with
      | [] => none
      | 120 :: high :: low :: rest =>
        (hexValue high).bind fun h => (hexValue low).bind fun l =>
          (readEscaped rest).map fun text => (h * 16 + l) :: text
      | e :: rest => (readEscaped rest).map fun text => unescaped e :: text
    else (readEscaped rest).map fun text => c :: text

/-- What a request owes its values: its placeholders are its parameters, each once and in order, and the
server reads each parameter as the text of its value. -/
structure Delivered (realText : UInt64 → Bytes) (r : Request) : Prop where
  asked : askedParams r.sql = r.params.map Prod.fst
  once : (r.params.map Prod.fst).Nodup
  read : r.params.map (fun p => readEscaped p.2) = r.bound.map fun v => some (boundText realText v)

/-! ## Fields -/

/-- A text that the format has nothing to say about. -/
def PlainField (s : Bytes) : Prop := ∀ c ∈ s, c ≠ tab ∧ c ≠ newline ∧ c ≠ backslash

instance (s : Bytes) : Decidable (PlainField s) := inferInstanceAs (Decidable (∀ c ∈ s, _))

theorem readEscaped_plain {s : Bytes} (h : PlainField s) : readEscaped s = some s := by
  induction s with
  | nil => rfl
  | cons c rest ih =>
    obtain ⟨htab, hnewline, hbackslash⟩ := h c (List.mem_cons_self ..)
    rw [readEscaped.eq_def]
    dsimp only
    rw [if_neg (by simp [htab, hnewline]), if_neg hbackslash, ih fun d hd => h d (List.mem_cons_of_mem c hd)]
    rfl

/-- Reading makes no text longer, and one with an escape shorter. -/
theorem readEscaped_length {s t : Bytes} (h : readEscaped s = some t) :
    t.length ≤ s.length ∧ (t.length = s.length → PlainField s) := by
  have hescaped : ¬ (backslash = tab ∨ backslash = newline) := by decide
  induction s using readEscaped.induct generalizing t with
  | case1 =>
    rw [← Option.some.inj h]
    exact ⟨Nat.le_refl _, fun _ c hc => absurd hc List.not_mem_nil⟩
  | case2 c rest hend =>
    rw [readEscaped.eq_def] at h
    dsimp only at h
    rw [if_pos hend] at h
    exact absurd h (by simp)
  | case3 => exact absurd h (by simp [readEscaped])
  | case4 high low rest _ ih =>
    rw [readEscaped.eq_def] at h
    dsimp only at h
    rw [if_neg hescaped, if_pos rfl] at h
    obtain ⟨u, hu, l, hl, h⟩ : ∃ u, hexValue high = some u ∧ ∃ l, hexValue low = some l ∧
        ∃ text, readEscaped rest = some text ∧ (u * 16 + l) :: text = t := by
      simpa [Option.bind_eq_some_iff] using h
    obtain ⟨text, htext, rfl⟩ := h
    have hle := (ih htext).1
    simp only [List.length_cons]
    omega
  | case5 e rest hnot _ ih =>
    rw [readEscaped.eq_def] at h
    dsimp only at h
    rw [if_neg hescaped, if_pos rfl] at h
    split at h
    · exact absurd ‹_› (by simp)
    · rename_i high low tail heq
      obtain ⟨rfl, rfl⟩ := List.cons.inj heq
      exact (hnot high low tail rfl rfl).elim
    · rename_i e' rest' _ heq
      obtain ⟨rfl, rfl⟩ := List.cons.inj heq
      obtain ⟨text, htext, rfl⟩ := Option.map_eq_some_iff.mp h
      have hle := (ih htext).1
      simp only [List.length_cons]
      omega
  | case6 c rest hend hbackslash ih =>
    rw [readEscaped.eq_def] at h
    dsimp only at h
    rw [if_neg hend, if_neg hbackslash] at h
    obtain ⟨text, htext, rfl⟩ := Option.map_eq_some_iff.mp h
    obtain ⟨hle, hplain⟩ := ih htext
    refine ⟨Nat.succ_le_succ hle, fun heq d hd => ?_⟩
    obtain rfl | hd := List.mem_cons.mp hd
    · exact ⟨fun h => hend (Or.inl h), fun h => hend (Or.inr h), hbackslash⟩
    · exact hplain (Nat.succ.inj heq) d hd

/-- The texts that arrive as they were sent. -/
theorem readEscaped_eq_some_iff {s : Bytes} : readEscaped s = some s ↔ PlainField s :=
  ⟨fun h => (readEscaped_length h).2 rfl, readEscaped_plain⟩

/-! ## Slots -/

/-- A piece of a statement that holds these placeholders, whatever follows it. -/
def HoldsSlots (text : Bytes) (slots : List Bytes) : Prop :=
  ∀ rest, readSlots .outside (text ++ rest) = slots ++ readSlots .outside rest

theorem HoldsSlots.append {a b : Bytes} {s t : List Bytes} (ha : HoldsSlots a s) (hb : HoldsSlots b t) :
    HoldsSlots (a ++ b) (s ++ t) := by
  intro rest
  rw [List.append_assoc, ha, hb, List.append_assoc]

theorem HoldsSlots.congr {a : Bytes} {s t : List Bytes} (ha : HoldsSlots a s) (h : s = t) : HoldsSlots a t :=
  h ▸ ha

theorem HoldsSlots.read {a : Bytes} {s : List Bytes} (ha : HoldsSlots a s) : readSlots .outside a = s := by
  have h := ha []
  rw [List.append_nil] at h
  rw [h, readSlots, List.append_nil]

theorem holdsSlots_keyword {text : Bytes} (h : ∀ c ∈ text, c ≠ backtick ∧ c ≠ leftBrace) :
    HoldsSlots text [] := by
  intro rest
  induction text with
  | nil => rfl
  | cons c text ih =>
    obtain ⟨hquote, hbrace⟩ := h c (List.mem_cons_self ..)
    rw [List.cons_append, readSlots, if_neg hquote, if_neg hbrace,
      ih fun d hd => h d (List.mem_cons_of_mem c hd)]

/-- A quoted identifier holds no placeholder, whatever its name. -/
theorem holdsSlots_chQuote (ident : Bytes) : HoldsSlots (chQuote ident) [] := by
  intro rest
  have hinner : ∀ ident : Bytes, readSlots .quoted (doubled backtick (doubled backslash ident) ++
      backtick :: rest) = readSlots .outside rest := by
    intro ident
    induction ident with
    | nil => rfl
    | cons c ident ih =>
      by_cases hbackslash : c = backslash
      · subst hbackslash
        exact ih
      by_cases hquote : c = backtick
      · subst hquote
        exact ih
      · rw [doubled, if_neg (by simpa using hbackslash), doubled, if_neg (by simpa using hquote),
          List.cons_append, readSlots, if_neg hbackslash, if_neg hquote]
        exact ih
  have hshape : chQuote ident ++ rest = backtick :: (doubled backtick (doubled backslash ident) ++
      backtick :: rest) := by simp [chQuote, quotedBy]
  rw [hshape, readSlots, if_pos rfl, hinner]
  rfl

theorem holdsSlots_placeholder (name : Bytes) {type : Bytes} (hname : rightBrace ∉ name) (htype : rightBrace ∉ type) :
    HoldsSlots (placeholder name type) [name ++ colon :: type] := by
  intro rest
  have hslot : ∀ body text : Bytes, rightBrace ∉ body → readSlots (.slot text) (body ++ rightBrace :: rest) =
      (text ++ body) :: readSlots .outside rest := by
    intro body
    induction body with
    | nil =>
      intro text _
      rw [List.nil_append, readSlots, if_pos rfl, List.append_nil]
    | cons c body ih =>
      intro text hbody
      rw [List.mem_cons, not_or] at hbody
      rw [List.cons_append, readSlots, if_neg (Ne.symm hbody.1), ih _ hbody.2, List.append_assoc]
      rfl
  have hbody : rightBrace ∉ name ++ colon :: type := by
    rw [List.mem_append, List.mem_cons, not_or, not_or]
    exact ⟨hname, by decide, htype⟩
  have hshape : placeholder name type ++ rest = leftBrace :: (name ++ colon :: type ++ rightBrace :: rest) := by
    simp [placeholder]
  rw [hshape, readSlots, if_neg (by decide), if_pos rfl, hslot _ _ hbody, List.nil_append]
  rfl

/-- Pieces with something between them that holds no placeholder. -/
theorem holdsSlots_intercalate {sep : Bytes} (hsep : HoldsSlots sep []) {parts : List Bytes}
    {slots : List (List Bytes)} (h : List.Forall₂ HoldsSlots parts slots) :
    HoldsSlots (List.intercalate sep parts) slots.flatten := by
  induction h with
  | nil => exact fun rest => rfl
  | @cons part slot parts slots hpart hparts ih =>
    cases hparts with
    | nil =>
      rw [List.intercalate_singleton, List.flatten_cons, List.flatten_nil, List.append_nil]
      exact hpart
    | cons hnext hmore =>
      rw [List.intercalate_cons_cons, List.append_assoc, List.flatten_cons]
      have hrest := hsep.append ih
      rw [List.nil_append] at hrest
      exact hpart.append hrest

/-! ## Parts -/

theorem integerText_bytes {n : Int} {c : UInt8} (hc : c ∈ integerText n) :
    c = dash ∨ isAsciiDigit c = true := by
  unfold integerText at hc
  split at hc
  · obtain rfl | hc := List.mem_cons.mp hc
    · exact Or.inl rfl
    · exact Or.inr (decimal_digits hc)
  · exact Or.inr (decimal_digits hc)

theorem plainField_integerText (n : Int) : PlainField (integerText n) := by
  intro c hc
  obtain rfl | hdigit := integerText_bytes hc
  · decide
  · refine ⟨?_, ?_, ?_⟩ <;> rintro rfl <;> exact absurd hdigit (by decide)

theorem decimal_injective {m n : Nat} (h : ByteText.decimal m = ByteText.decimal n) : m = n := by
  rw [← ofDigits_decimal m, h, ofDigits_decimal]

/-- The name behind a kind and a place. -/
def slotName (kind : Bytes) (i : Nat) : Bytes := kind ++ ByteText.decimal i

/-- Kinds of parameters: a letter. -/
def IsKind (kind : Bytes) : Prop := kind = ascii "v" ∨ kind = ascii "i" ∨ kind = ascii "p"

theorem slotName_bytes {kind : Bytes} (hkind : IsKind kind) {i : Nat} {c : UInt8} (hc : c ∈ slotName kind i) :
    c ≠ colon ∧ c ≠ rightBrace := by
  obtain hc | hc := List.mem_append.mp hc
  · rcases hkind with rfl | rfl | rfl <;> rw [List.mem_singleton.mp hc] <;> decide
  · have hdigit := decimal_digits hc
    refine ⟨?_, ?_⟩ <;> rintro rfl <;> exact absurd hdigit (by decide)

/-- The parameter that a placeholder asks for. -/
theorem takeWhile_slotName {kind : Bytes} (hkind : IsKind kind) (i : Nat) (type : Bytes) :
    (slotName kind i ++ colon :: type).takeWhile (fun c => c != colon) = slotName kind i := by
  rw [List.takeWhile_append_of_pos fun c hc => by simpa using (slotName_bytes hkind hc).1,
    List.takeWhile_cons_of_neg (by simp), List.append_nil]

/-- The declared types of what is bound close no placeholder. -/
def TypesClosed (pairs : List ColumnValue) : Prop :=
  ∀ cv ∈ pairs, ∀ type, bindType cv.declType cv.value = .ok type → rightBrace ∉ type

theorem bindValue_ok {kind : Bytes} {i : Nat} {cv : ColumnValue} {slot : Bytes} {param : ChParam}
    (h : bindValue kind i cv = .ok (slot, param)) :
    ∃ text type, paramText cv.value = .ok text ∧ bindType cv.declType cv.value = .ok type ∧
      slot = placeholder (slotName kind i) type ∧ param = (paramName (slotName kind i), text) := by
  unfold bindValue at h
  split at h
  · exact absurd h (by simp)
  rename_i text htext
  split at h
  · exact absurd h (by simp)
  · rename_i type htype
    rw [Except.ok.injEq, Prod.mk.injEq] at h
    exact ⟨text, type, htext, htype, h.1.symm, h.2.symm⟩

theorem paramText_ok {v : Value} {text : Bytes} (h : paramText v = .ok text) (realText : UInt64 → Bytes) :
    text = boundText realText v := by
  cases v with
  | integer n | text s => exact (Except.ok.inj h).symm
  | null | real _ | blob _ | capped _ => exact absurd h (by simp [paramText])

/-- The parts of an edit hold the placeholders of its parameters, whose texts are those of the values. -/
theorem renderParts_ok {kind nullText : Bytes} (hkind : IsKind kind) (hnull : HoldsSlots nullText []) {i : Nat}
    {cvs : List ColumnValue} (hclosed : TypesClosed cvs) {parts : List Bytes} {params : List ChParam}
    (h : renderParts kind nullText i cvs = .ok (parts, params)) (realText : UInt64 → Bytes) :
    (∃ slots, List.Forall₂ HoldsSlots parts slots ∧
      slots.flatten.map (fun text => paramName (text.takeWhile fun c => c != colon)) = params.map Prod.fst) ∧
    (params.map Prod.fst).Sublist ((List.range' i cvs.length).map fun j => paramName (slotName kind j)) ∧
    params.map Prod.snd = (boundValues cvs).map (boundText realText) := by
  induction cvs generalizing i parts params with
  | nil =>
    rw [renderParts, Except.ok.injEq, Prod.mk.injEq] at h
    rw [← h.1, ← h.2]
    exact ⟨⟨[], List.Forall₂.nil, rfl⟩, List.Sublist.slnil, rfl⟩
  | cons cv cvs ih =>
    rw [renderParts] at h
    split at h
    · exact absurd h (by simp)
    rename_i part params₁ hpart
    split at h
    · exact absurd h (by simp)
    rename_i parts₂ params₂ hparts
    rw [Except.ok.injEq, Prod.mk.injEq] at h
    rw [← h.1, ← h.2]
    obtain ⟨⟨slots, hslots, hasked⟩, hnames, htexts⟩ :=
      ih (fun cv' hcv' => hclosed cv' (List.mem_cons_of_mem cv hcv')) hparts
    rw [List.length_cons, List.range'_succ, List.map_cons]
    unfold renderPart at hpart
    split at hpart
    · rename_i hisNull
      rw [Except.ok.injEq, Prod.mk.injEq] at hpart
      rw [← hpart.1, ← hpart.2, boundValues, List.filter_cons_of_neg (by simp [hisNull])]
      exact ⟨⟨[] :: slots, List.Forall₂.cons ((holdsSlots_chQuote cv.column).append hnull) hslots, hasked⟩,
        hnames.cons _, htexts⟩
    rename_i hbound
    split at hpart
    · exact absurd hpart (by simp)
    rename_i slot param hbind
    obtain ⟨text, type, htext, htype, rfl, rfl⟩ := bindValue_ok hbind
    rw [Except.ok.injEq, Prod.mk.injEq] at hpart
    rw [← hpart.1, ← hpart.2, boundValues, List.filter_cons_of_pos (by simp [hbound])]
    have hequals : HoldsSlots (ascii " = ") [] := holdsSlots_keyword (by decide)
    have hplaceholder := holdsSlots_placeholder (slotName kind i)
      (fun hc => (slotName_bytes hkind hc).2 rfl) (hclosed cv (List.mem_cons_self ..) type htype)
    refine ⟨⟨[slotName kind i ++ colon :: type] :: slots,
      List.Forall₂.cons (((holdsSlots_chQuote cv.column).append hequals).append hplaceholder) hslots, ?_⟩,
      hnames.cons_cons _, ?_⟩
    · rw [List.flatten_cons, List.map_append, hasked, List.map_singleton, takeWhile_slotName hkind]
      rfl
    · rw [List.map_append, htexts, paramText_ok htext realText]
      rfl

/-! ## Requests -/

theorem slotNames_nodup (kind : Bytes) (i n : Nat) :
    ((List.range' i n).map fun j => paramName (slotName kind j)).Nodup := by
  refine List.Nodup.map_on (fun j _ k _ h => ?_) List.nodup_range'
  exact decimal_injective (List.append_cancel_left (List.append_cancel_left h))

theorem holdsSlots_qualify (t : TableRef) : HoldsSlots (qualify chQuote t) [] := by
  unfold qualify
  split
  · split
    · exact holdsSlots_chQuote _
    · exact ((holdsSlots_chQuote _).append (holdsSlots_keyword (by decide))).append (holdsSlots_chQuote _)
  · exact holdsSlots_chQuote _

/-- The statement of an edit holds the placeholders of its assignments, then those of its identity. -/
theorem holdsSlots_mutStatement (form : Form) {qualified assigns whereSql : Bytes} {kind : MutKind}
    {values identity : List Bytes} (hqualified : HoldsSlots qualified []) (hassigns : HoldsSlots assigns values)
    (hwhere : HoldsSlots whereSql identity) (hnone : kind = .delete → values = []) :
    HoldsSlots (mutStatement qualified kind form assigns whereSql) (values ++ identity) := by
  have halter : HoldsSlots (ascii "ALTER TABLE ") [] := holdsSlots_keyword (by decide)
  have hupdate : HoldsSlots (ascii " UPDATE ") [] := holdsSlots_keyword (by decide)
  have hbehind : HoldsSlots (ascii " WHERE ") [] := holdsSlots_keyword (by decide)
  have hopening : HoldsSlots (ascii "UPDATE ") [] := holdsSlots_keyword (by decide)
  have hset : HoldsSlots (ascii " SET ") [] := holdsSlots_keyword (by decide)
  have hdelete : HoldsSlots (ascii " DELETE WHERE ") [] := holdsSlots_keyword (by decide)
  have hremove : HoldsSlots (ascii "DELETE FROM ") [] := holdsSlots_keyword (by decide)
  cases kind with
  | update =>
    cases form with
    | mutation =>
      have h := ((((halter.append hqualified).append hupdate).append hassigns).append hbehind).append hwhere
      exact h.congr (by simp)
    | lightweight =>
      have h := ((((hopening.append hqualified).append hset).append hassigns).append hbehind).append hwhere
      exact h.congr (by simp)
  | delete =>
    rw [hnone rfl]
    cases form with
    | mutation => exact ((halter.append hqualified).append hdelete).append hwhere
    | lightweight => exact ((hremove.append hqualified).append hbehind).append hwhere

theorem askedParams_eq {sql : Bytes} {slots : List Bytes} (h : HoldsSlots sql slots) :
    askedParams sql = slots.map fun text => paramName (text.takeWhile fun c => c != colon) := by
  rw [askedParams, h.read]

/-- The names of two kinds, each once. -/
theorem names_nodup {values identity : List ChParam} {m n : Nat}
    (hvalues : (values.map Prod.fst).Sublist ((List.range' 0 m).map fun j => paramName (slotName (ascii "v") j)))
    (hidentity : (identity.map Prod.fst).Sublist
      ((List.range' 0 n).map fun j => paramName (slotName (ascii "i") j))) :
    ((values ++ identity).map Prod.fst).Nodup := by
  rw [List.map_append]
  refine List.Nodup.append ((slotNames_nodup _ _ _).sublist hvalues)
    ((slotNames_nodup _ _ _).sublist hidentity) fun name hv hi => ?_
  obtain ⟨j, -, hj⟩ := List.mem_map.mp (hvalues.subset hv)
  obtain ⟨k, -, hk⟩ := List.mem_map.mp (hidentity.subset hi)
  have hsame := List.append_cancel_left (hj.trans hk.symm)
  exact absurd (List.cons.inj hsame).1 (by decide)

/-- The count is sent with the parameters of the identity. -/
theorem identityParams_append {values identity : List ChParam} {m n : Nat}
    (hvalues : (values.map Prod.fst).Sublist ((List.range' 0 m).map fun j => paramName (slotName (ascii "v") j)))
    (hidentity : (identity.map Prod.fst).Sublist
      ((List.range' 0 n).map fun j => paramName (slotName (ascii "i") j))) :
    identityParams (values ++ identity) = identity := by
  unfold identityParams
  have hdropped : values.filter (fun p => (ascii "param_i").isPrefixOf p.1) = [] := by
    refine List.filter_eq_nil_iff.mpr fun p hp => ?_
    obtain ⟨j, -, hj⟩ := List.mem_map.mp (hvalues.subset (List.mem_map_of_mem hp))
    rw [← hj]
    simp [paramName, slotName, ascii]
  have hkept : identity.filter (fun p => (ascii "param_i").isPrefixOf p.1) = identity := by
    refine List.filter_eq_self.mpr fun p hp => ?_
    obtain ⟨j, -, hj⟩ := List.mem_map.mp (hidentity.subset (List.mem_map_of_mem hp))
    rw [← hj]
    simp [paramName, slotName, ascii]
  rw [List.filter_append, hdropped, hkept, List.nil_append]

/-- What is in order with a request before the server has read it. -/
structure Addressed (realText : UInt64 → Bytes) (r : Request) : Prop where
  asked : askedParams r.sql = r.params.map Prod.fst
  once : (r.params.map Prod.fst).Nodup
  texts : r.params.map Prod.snd = r.bound.map (boundText realText)

/-- The placeholders of an edit and of its count are the parameters they are sent with. -/
theorem renderMut_addressed {table : TableRef} {kind : MutKind} {form : Form} {keys set : List ColumnValue}
    {rendered : OpSql} (h : renderMut (qualify chQuote table) kind form keys set = .ok rendered)
    (hset : kind = .delete → set = []) (hkeys : TypesClosed keys) (hvalues : TypesClosed set)
    (realText : UInt64 → Bytes) :
    Addressed realText ⟨rendered.countSql, identityParams rendered.params, boundValues keys⟩ ∧
      Addressed realText ⟨rendered.sql, rendered.params, boundValues set ++ boundValues keys⟩ := by
  unfold renderMut at h
  split at h
  · exact absurd h (by simp)
  split at h
  · exact absurd h (by simp)
  split at h
  · exact absurd h (by simp)
  rename_i assigns values hassigns
  split at h
  · exact absurd h (by simp)
  rename_i members identity hmembers
  rw [← Except.ok.inj h]
  have hnull : HoldsSlots (ascii " = NULL") [] := holdsSlots_keyword (by decide +kernel)
  have hisNull : HoldsSlots (ascii " IS NULL") [] := holdsSlots_keyword (by decide +kernel)
  have hcomma : HoldsSlots (ascii ", ") [] := holdsSlots_keyword (by decide +kernel)
  have hand : HoldsSlots (ascii " AND ") [] := holdsSlots_keyword (by decide)
  have hcount : HoldsSlots (ascii "SELECT count() FROM ") [] := holdsSlots_keyword (by decide)
  have hbehind : HoldsSlots (ascii " WHERE ") [] := holdsSlots_keyword (by decide)
  obtain ⟨⟨vslots, hvslots, hvasked⟩, hvnames, hvtexts⟩ :=
    renderParts_ok (Or.inl rfl) hnull hvalues hassigns realText
  obtain ⟨⟨islots, hislots, hiasked⟩, hinames, hitexts⟩ :=
    renderParts_ok (Or.inr (Or.inl rfl)) hisNull hkeys hmembers realText
  have hwhere := holdsSlots_intercalate hand hislots
  have hnone : kind = .delete → vslots.flatten = [] := by
    intro hkind
    rw [hset hkind, renderAssignments, renderParts, Except.ok.injEq, Prod.mk.injEq] at hassigns
    rw [← hassigns.1] at hvslots
    cases hvslots
    rfl
  have hstatement := holdsSlots_mutStatement form (holdsSlots_qualify table)
    (holdsSlots_intercalate hcomma hvslots) hwhere hnone
  refine ⟨⟨?_, ?_, ?_⟩, ⟨?_, names_nodup hvnames hinames, ?_⟩⟩
  · rw [identityParams_append hvnames hinames,
      askedParams_eq (((hcount.append (holdsSlots_qualify table)).append hbehind).append hwhere)]
    exact hiasked
  · rw [identityParams_append hvnames hinames]
    exact (slotNames_nodup _ _ _).sublist hinames
  · rw [identityParams_append hvnames hinames]
    exact hitexts
  · rw [askedParams_eq hstatement, List.map_append, List.map_append, hvasked, hiasked]
  · rw [List.map_append, List.map_append, hvtexts, hitexts]

theorem chParamTypes_ok {bound : List Value} {types : List Bytes} (h : chParamTypes bound = .ok types) :
    types.length = bound.length ∧ ∀ type ∈ types, rightBrace ∉ type := by
  induction bound generalizing types with
  | nil =>
    rw [← Except.ok.inj h]
    exact ⟨rfl, fun type htype => absurd htype List.not_mem_nil⟩
  | cons v vs ih =>
    rw [chParamTypes] at h
    split at h
    · exact absurd h (by simp)
    rename_i type htype
    split at h
    · exact absurd h (by simp)
    rename_i types htypes
    obtain ⟨hlength, hclosed⟩ := ih htypes
    rw [← Except.ok.inj h]
    refine ⟨by rw [List.length_cons, List.length_cons, hlength], List.forall_mem_cons.mpr ⟨?_, hclosed⟩⟩
    cases v with
    | integer n | real n | text n =>
      rw [← Except.ok.inj htype]
      decide
    | null | blob _ | capped _ => exact absurd htype (by simp [chParamType])

/-- The names of bounds, by their places. -/
theorem seekNames_eq {α : Type} (l : List α) :
    l.zipIdx.map (fun e => paramName (slotName (ascii "p") e.2)) =
      (List.range' 0 l.length).map fun j => paramName (slotName (ascii "p") j) := by
  rw [← List.zipIdx_map_snd 0 l, List.map_map]
  rfl

/-- The placeholders of a seek are its bounds, by their places. -/
theorem seekWhere_addressed (columns : List Bytes) (descending inclusive : Bool) {bound : List Value}
    {types : List Bytes} (h : chParamTypes bound = .ok types) (realText : UInt64 → Bytes) :
    Addressed realText ⟨seekWhere columns descending inclusive types, chParams realText bound, bound⟩ := by
  obtain ⟨hlength, hclosed⟩ := chParamTypes_ok h
  have hkind : IsKind (ascii "p") := Or.inr (Or.inr rfl)
  have hopen : HoldsSlots (ascii "WHERE (") [] := holdsSlots_keyword (by decide)
  have hmiddle : HoldsSlots (ascii ") ") [] := holdsSlots_keyword (by decide)
  have hnext : HoldsSlots (ascii " (") [] := holdsSlots_keyword (by decide)
  have hcomma : HoldsSlots (ascii ", ") [] := holdsSlots_keyword (by decide)
  have hcmp : HoldsSlots (seekCmp descending inclusive) [] := by
    cases descending <;> cases inclusive <;> exact holdsSlots_keyword (by decide)
  have hcolumns : ∀ columns : List Bytes,
      HoldsSlots (List.intercalate (ascii ", ") (columns.map chQuote)) [] := by
    intro columns
    have hparts : List.Forall₂ HoldsSlots (columns.map chQuote) (columns.map fun _ => []) := by
      induction columns with
      | nil => exact List.Forall₂.nil
      | cons c columns ih => exact List.Forall₂.cons (holdsSlots_chQuote c) ih
    exact (holdsSlots_intercalate hcomma hparts).congr (by simp)
  have hslots : List.Forall₂ HoldsSlots
      (types.zipIdx.map fun (type, i) => placeholder (ascii "p" ++ ByteText.decimal i) type)
      (types.zipIdx.map fun e => [slotName (ascii "p") e.2 ++ colon :: e.1]) := by
    rw [List.forall₂_map_left_iff, List.forall₂_map_right_iff, List.forall₂_same]
    exact fun e he => holdsSlots_placeholder (slotName (ascii "p") e.2)
      (fun hc => (slotName_bytes hkind hc).2 rfl) (hclosed e.1 (List.fst_mem_of_mem_zipIdx he))
  have hflat : (types.zipIdx.map fun e => [slotName (ascii "p") e.2 ++ colon :: e.1]).flatten =
      types.zipIdx.map fun e => slotName (ascii "p") e.2 ++ colon :: e.1 := by
    rw [← List.flatMap_def, List.map_eq_flatMap]
  have hplaceholders := (holdsSlots_intercalate hcomma hslots).congr hflat
  have hwhere := (((((hopen.append (hcolumns (columns.take types.length))).append hmiddle).append hcmp).append
    hnext).append hplaceholders).append hmiddle
  have hnames : (chParams realText bound).map Prod.fst =
      (List.range' 0 bound.length).map fun j => paramName (slotName (ascii "p") j) := by
    rw [← seekNames_eq bound, chParams, List.map_map]
    rfl
  refine ⟨?_, ?_, ?_⟩
  · refine (askedParams_eq hwhere).trans ?_
    rw [hnames, ← hlength, ← seekNames_eq types]
    simp only [List.nil_append, List.append_nil, List.map_map]
    exact List.map_congr_left fun e _ => congrArg paramName (takeWhile_slotName hkind e.2 e.1)
  · rw [hnames]
    exact slotNames_nodup _ _ _
  · rw [chParams, List.map_map]
    show bound.zipIdx.map (boundText realText ∘ Prod.fst) = _
    rw [← List.map_map, List.zipIdx_map_fst]

/-! ## Arrival -/

section Arrival

variable {realText : UInt64 → Bytes}

/-- The declared types of an edit close no placeholder. -/
def Ask.Closed : Ask → Prop
  | .edit _ op _ => TypesClosed op.keys ∧ TypesClosed op.set
  | .seek .. => True

/-- Whatever is asked for, the placeholders are the parameters and the parameters are the values. -/
theorem requests_addressed {a : Ask} (ha : a.Closed) : ∀ r ∈ a.requests realText, Addressed realText r := by
  cases a with
  | edit scope op form =>
    obtain ⟨hkeys, hset⟩ := ha
    unfold Ask.requests
    dsimp only
    split
    · exact fun r hr => absurd hr List.not_mem_nil
    rename_i rendered hrendered
    have haddressed : Addressed realText ⟨rendered.countSql, identityParams rendered.params,
        boundValues op.keys⟩ ∧
        Addressed realText ⟨rendered.sql, rendered.params, boundValues op.set ++ boundValues op.keys⟩ := by
      cases op with
      | update table keys set =>
        exact renderMut_addressed hrendered (fun h => MutKind.noConfusion h) hkeys hset realText
      | delete table keys =>
        exact renderMut_addressed hrendered (fun _ => rfl) hkeys (fun cv h => absurd h List.not_mem_nil) realText
      | insert table values => exact absurd hrendered (by simp [renderOp])
    rw [List.forall_mem_cons, List.forall_mem_singleton]
    exact haddressed
  | seek columns descending inclusive bound =>
    unfold Ask.requests
    dsimp only
    split
    · exact fun r hr => absurd hr List.not_mem_nil
    · rename_i types htypes
      rw [List.forall_mem_singleton]
      exact seekWhere_addressed columns descending inclusive htypes realText

/-- A request that is addressed arrives when its texts are plain fields. -/
theorem delivered_iff (hreal : ∀ bits, PlainField (realText bits)) {r : Request} (h : Addressed realText r) :
    Delivered realText r ↔ ∀ s, .text s ∈ r.bound → PlainField s := by
  have hread : r.params.map (fun p => readEscaped p.2) = r.bound.map fun v => readEscaped (boundText realText v) := by
    have htexts := congrArg (List.map readEscaped) h.texts
    rw [List.map_map, List.map_map] at htexts
    exact htexts
  have hplain (v : Value) : readEscaped (boundText realText v) = some (boundText realText v) ↔
      ∀ s, v = .text s → PlainField s := by
    rw [readEscaped_eq_some_iff]
    cases v with
    | integer n => exact ⟨fun _ s hs => Value.noConfusion hs, fun _ => plainField_integerText n⟩
    | real bits => exact ⟨fun _ s hs => Value.noConfusion hs, fun _ => hreal bits⟩
    | text s => exact ⟨fun hs s' hs' => Value.text.inj hs' ▸ hs, fun hs => hs s rfl⟩
    | null | blob _ | capped _ =>
      exact ⟨fun _ s hs => Value.noConfusion hs, fun _ c hc => absurd hc List.not_mem_nil⟩
  constructor
  · intro hdelivered s hs
    have hsame := hread.symm.trans hdelivered.read
    exact (hplain (.text s)).mp (List.map_inj_left.mp hsame _ hs) s rfl
  · intro htexts
    refine ⟨h.asked, h.once, hread.trans (List.map_congr_left fun v hv => (hplain v).mpr fun s hs => ?_)⟩
    exact htexts s (hs ▸ hv)

end Arrival

/-- **Every value of a list of requests arrives** just when no text among them has a backslash, a tab or a
line feed. -/
theorem bound_values_arrive_iff (realText : UInt64 → Bytes) (hreal : ∀ bits, PlainField (realText bits))
    (asks : List Ask) (hclosed : ∀ a ∈ asks, a.Closed) :
    (∀ a ∈ asks, ∀ r ∈ a.requests realText, Delivered realText r) ↔
      ∀ a ∈ asks, ∀ r ∈ a.requests realText, ∀ s, .text s ∈ r.bound → PlainField s := by
  refine forall₂_congr fun a ha => forall₂_congr fun r hr => ?_
  exact delivered_iff hreal (requests_addressed (hclosed a ha) r hr)

/-- A file that is given a path, on a table with a number for a key. -/
def pathEdit (path : Bytes) : Ask :=
  .edit (ascii "db")
    (.update ⟨none, ascii "files"⟩ [⟨ascii "id", .integer 7, some (ascii "UInt64")⟩]
      [⟨ascii "path", .text path, some (ascii "String")⟩]) .mutation

theorem pathEdit_closed (path : Bytes) : (pathEdit path).Closed := by
  have hkey : bindType (some (ascii "UInt64")) (.integer 7) = .ok (ascii "UInt64") := by decide
  have hpath : bindType (some (ascii "String")) (.text path) = .ok (ascii "String") := rfl
  refine ⟨fun cv hcv type htype => ?_, fun cv hcv type htype => ?_⟩
  · rw [List.mem_singleton.mp hcv] at htype
    rw [← Except.ok.inj (hkey.symm.trans htype)]
    decide
  · rw [List.mem_singleton.mp hcv] at htype
    rw [← Except.ok.inj (hpath.symm.trans htype)]
    decide

/-- A path with braces, quotes and a letter beyond ASCII arrives. -/
theorem bound_values_arrive_iff_path :
    ((pathEdit (ascii "/tmp/\x7b\"\xc3\xa9\"\x7d")).requests fun _ => ascii "0.5").length = 2 ∧
      ∀ a ∈ [pathEdit (ascii "/tmp/\x7b\"\xc3\xa9\"\x7d")], ∀ r ∈ a.requests fun _ => ascii "0.5",
        Delivered (fun _ => ascii "0.5") r := by
  refine ⟨by decide, ?_⟩
  refine (bound_values_arrive_iff (fun _ => ascii "0.5") (fun _ => by decide) _
    (List.forall_mem_singleton.mpr (pathEdit_closed _))).mpr fun a ha r hr s hs => ?_
  have hbound : ∀ a ∈ [pathEdit (ascii "/tmp/\x7b\"\xc3\xa9\"\x7d")], ∀ r ∈ a.requests fun _ => ascii "0.5",
      ∀ v ∈ r.bound, v = .integer 7 ∨ v = .text (ascii "/tmp/\x7b\"\xc3\xa9\"\x7d") := by decide
  obtain hseven | hpath := hbound a ha r hr _ hs
  · exact Value.noConfusion hseven
  · rw [Value.text.inj hpath]
    decide

/-- `C:\new` arrives with a line feed for its backslash and its `n`. -/
theorem backslash_decoded :
    ¬ ∀ a ∈ [pathEdit (ascii "C:\\new")], ∀ r ∈ a.requests fun _ => ascii "0.5",
      Delivered (fun _ => ascii "0.5") r := by
  intro h
  have hread : ∀ a ∈ [pathEdit (ascii "C:\\new")], ∀ r ∈ a.requests fun _ => ascii "0.5",
      r.params.map (fun p => readEscaped p.2) =
        r.bound.map fun v => some (boundText (fun _ => ascii "0.5") v) := fun a ha r hr => (h a ha r hr).read
  revert hread
  decide +kernel

end RedDb.Driver
