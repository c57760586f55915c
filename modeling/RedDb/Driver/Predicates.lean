import RedDb.Driver.ChWrite
import RedDb.Lib.LikePattern
import RedDb.Sql.Lexed

/-!
# RedDb — filters as SQL predicates

A filter that is built in the grid becomes a predicate with its values inline: names quoted as the
engine quotes them, texts as string literals whose quotes are doubled, and whose backslashes are too
where the engine escapes with them. A search term becomes a `LIKE` pattern that takes the term as it is.

* `sqlLiteral_eq`, `likePattern_eq`   — both write a literal, of the text and of the pattern;
* `SqlEngine.reads_predicate` — one comparison;
* `clauses_exact` — every clause is read as just its names and its texts.
-/

namespace RedDb.Driver

open ByteText RedDb.Sql LikePattern

/-! ## Literals and patterns -/

abbrev percent : UInt8 := 37

section Literal

-- the decimal text of a float
variable (realText : UInt64 → Bytes)

def sqlLiteral (v : Value) (backslashEscapes : Bool) : Bytes :=
  match v with
  | .integer n => integerText n
  | .real bits => realText bits
  | .text s =>
    let lit := doubled singleQuote s
    singleQuote :: ((if backslashEscapes then doubled backslash lit else lit) ++ [singleQuote])
  | .null | .blob _ | .capped _ => ascii "NULL"

/-- What a substring search looks for. -/
def valueText : Value → Bytes
  | .text s => s
  | .integer n => integerText n
  | .real bits => realText bits
  | .null | .blob _ | .capped _ => []

end Literal

def likeSymbols : Symbols UInt8 := ⟨percent, underscore, backslash, by decide, by decide, by decide⟩

/-- The pattern itself: the term as it is, between two wildcards. -/
def likeText (term : Bytes) : Bytes := percent :: escaped likeSymbols term ++ [percent]

def likePattern (term : Bytes) (backslashEscapes : Bool) : Bytes :=
  let lit := doubled singleQuote (likeText term)
  singleQuote :: ((if backslashEscapes then doubled backslash lit else lit) ++ [singleQuote])

/-! ## Clauses -/

inductive CmpOp where
  | eq | ne | lt | le | gt | ge | like | contains | isNull | isNotNull

def CmpOp.takesValue : CmpOp → Bool
  | .isNull | .isNotNull => false
  | _ => true

def cmpOpSql : CmpOp → Bytes
  | .eq => ascii "="
  | .ne => ascii "<>"
  | .lt => ascii "<"
  | .le => ascii "<="
  | .gt => ascii ">"
  | .ge => ascii ">="
  | .like => ascii "LIKE"
  | .contains => ascii "LIKE"
  | .isNull => ascii "IS NULL"
  | .isNotNull => ascii "IS NOT NULL"

structure ColumnPredicate where
  column : Bytes
  op : CmpOp
  value : Option Value

/-- A column that a search goes through, with its declared type. -/
structure SearchedColumn where
  name : Bytes
  typeName : Option Bytes

def isBlobType (typeName : Bytes) : Bool :=
  [ascii "blob", ascii "bytea", ascii "binary", ascii "varbinary", ascii "tinyblob", ascii "mediumblob",
    ascii "longblob", ascii "bit"].contains
      ((asciiLower typeName).takeWhile fun c => c != openParen && c != space)

def escapeText (backslashEscapes escapeClause : Bool) : Bytes :=
  if !escapeClause then []
  else if backslashEscapes then ascii " ESCAPE " ++ [singleQuote, backslash, backslash, singleQuote]
  else ascii " ESCAPE " ++ [singleQuote, backslash, singleQuote]

section Clauses

variable (realText : UInt64 → Bytes) (quote asText : Bytes → Bytes) (likeOp : Bytes)
  (backslashEscapes escapeClause : Bool)

def containsClause (columns : List SearchedColumn) (term : Bytes) : Option Bytes :=
  let preds := (columns.filter fun c => !c.typeName.any isBlobType).map fun c =>
    asText (quote c.name) ++ [space] ++ likeOp ++ [space] ++ likePattern term backslashEscapes ++
      escapeText backslashEscapes escapeClause
  if preds.isEmpty then none else some ([openParen] ++ (ascii " OR ").intercalate preds ++ [closeParen])

def eqClause (pairs : List ColumnValue) : Bytes :=
  (ascii " AND ").intercalate <| pairs.map fun cv =>
    quote cv.column ++ ascii " = " ++ sqlLiteral realText cv.value backslashEscapes

def ColumnPredicate.render (p : ColumnPredicate) : Bytes :=
  let col := quote p.column
  let isNullValue := !p.op.takesValue || p.value.all Value.isNull
  match p.op, isNullValue with
  | .isNull, _ | .eq, true => col ++ ascii " IS NULL"
  | .isNotNull, _ | .ne, true => col ++ ascii " IS NOT NULL"
  | .contains, _ =>
    asText col ++ [space] ++ likeOp ++ [space] ++
      likePattern ((p.value.map (valueText realText)).getD []) backslashEscapes ++
      escapeText backslashEscapes escapeClause
  | op, _ =>
    col ++ [space] ++ cmpOpSql op ++ [space] ++ sqlLiteral realText (p.value.getD .null) backslashEscapes

def cmpClause (preds : List ColumnPredicate) : Bytes :=
  (ascii " AND ").intercalate <|
    preds.map (ColumnPredicate.render realText quote asText likeOp backslashEscapes escapeClause)

end Clauses

/-! ## The engines -/

inductive SqlEngine where
  | sqlite | mysql | postgres | clickhouse

namespace SqlEngine

def dialect : SqlEngine → Dialect
  | sqlite => .sqlite
  | mysql => .mySql
  | postgres => .postgres
  | clickhouse => .clickHouse

def quoteByte : SqlEngine → UInt8
  | sqlite | postgres => doubleQuote
  | mysql | clickhouse => backtick

/-- A name as it stands between its quotes, these aside. -/
def inQuotes : SqlEngine → Bytes → Bytes
  | clickhouse, name => doubled backslash name
  | _, name => name

def quote (E : SqlEngine) (name : Bytes) : Bytes := quotedBy E.quoteByte (E.inQuotes name)

def castOpen : SqlEngine → Bytes
  | postgres => [openParen]
  | _ => ascii "CAST("

def castClose : SqlEngine → Bytes
  | sqlite => ascii " AS TEXT)"
  | mysql => ascii " AS CHAR)"
  | postgres => ascii ")::text"
  | clickhouse => ascii " AS String)"

def asText (E : SqlEngine) (column : Bytes) : Bytes := E.castOpen ++ column ++ E.castClose

def likeOp : SqlEngine → Bytes
  | sqlite | mysql => ascii "LIKE"
  | postgres | clickhouse => ascii "ILIKE"

def backslashEscapes : SqlEngine → Bool
  | sqlite | postgres => false
  | mysql | clickhouse => true

def escapeClause : SqlEngine → Bool
  | clickhouse => false
  | _ => true

variable (E : SqlEngine) (realText : UInt64 → Bytes)

def containsPredicate (columns : List SearchedColumn) (term : Bytes) : Option Bytes :=
  containsClause E.quote E.asText E.likeOp E.backslashEscapes E.escapeClause columns term

def eqPredicate (pairs : List ColumnValue) : Bytes := eqClause realText E.quote E.backslashEscapes pairs

def cmpPredicate (preds : List ColumnPredicate) : Bytes :=
  cmpClause realText E.quote E.asText E.likeOp E.backslashEscapes E.escapeClause preds

end SqlEngine

/-! ## What is read -/

theorem sqlLiteral_eq (realText : UInt64 → Bytes) (s : Bytes) (escapes : Bool) :
    sqlLiteral realText (.text s) escapes = literalOf escapes s := by
  have hne : backslash ≠ singleQuote := by decide
  cases escapes with
  | false => rfl
  | true =>
    show singleQuote :: (doubled backslash (doubled singleQuote s) ++ [singleQuote]) = _
    rw [doubled_comm hne]
    rfl

theorem likePattern_eq (term : Bytes) (escapes : Bool) :
    likePattern term escapes = literalOf escapes (likeText term) :=
  sqlLiteral_eq (fun _ => []) (likeText term) escapes

theorem escapeText_eq (escapes clause : Bool) :
    escapeText escapes clause = if clause then ascii " ESCAPE " ++ literalOf escapes [backslash] else [] := by
  cases escapes <;> cases clause <;> decide

/-- The literals of a value. -/
def textOf : Value → List (UInt8 × Bytes)
  | .text s => [(singleQuote, s)]
  | _ => []

theorem isQuiet_calm {p : Bytes} (h : ∀ c ∈ p, isCalm c = true ∧ c ≠ semicolon) : isQuiet p = true := by
  induction p with
  | nil => rfl
  | cons c p ih =>
    obtain ⟨hc, hp⟩ := List.forall_mem_cons.mp h
    simp [isQuiet, hc.1, hc.2, ih hp]

theorem isQuiet_integerText (n : Int) : isQuiet (integerText n) = true := by
  have hdigits : ∀ m : Nat, ∀ c ∈ ByteText.decimal m, (isCalm c = true ∧ c ≠ semicolon) ∧ c ≠ dash := by
    intro m c hc
    have hdigit := decimal_digits hc
    have hplain : isPlain c = true := by simp [isPlain, isWordByte, isAsciiAlphanumeric, hdigit]
    obtain ⟨hquote, hdash, hhash, hslash, hdollar, hsemicolon, -⟩ := isPlain_spec hplain
    exact ⟨⟨by simp [isCalm, hquote, hdash, hhash, hslash, hdollar], hsemicolon⟩, hdash⟩
  have hquiet := isQuiet_calm fun c hc => (hdigits n.natAbs c hc).1
  unfold integerText
  split
  · obtain ⟨c, rest, hcons⟩ := List.exists_cons_of_ne_nil (decimal_ne_nil n.natAbs)
    have hc := (hdigits n.natAbs c (by rw [hcons]; exact List.mem_cons_self)).2
    rw [hcons] at hquiet ⊢
    rw [isQuiet, hquiet]
    simp [hc, isCalm, dash, semicolon]
  · exact hquiet

section Engine

variable {realText : UInt64 → Bytes} {E : SqlEngine}

theorem reads_quote (name : Bytes) :
    ReadAs E.dialect (E.quote name) [(E.quoteByte, E.inQuotes name)] := by
  refine ReadAs.name (by cases E <;> decide) fun hq hd => ?_
  cases E
  · exact absurd hd (by decide)
  · exact absurd hq (by decide)
  · exact absurd hd (by decide)
  · exact absurd hq (by decide)

theorem reads_asText (name : Bytes) :
    ReadAs E.dialect (E.asText (E.quote name)) [(E.quoteByte, E.inQuotes name)] := by
  have hclose : ReadAs E.dialect E.castClose [] := ReadAs.words (by cases E <;> decide)
  have hinner := (reads_quote name).append hclose (by cases E <;> decide) (by cases E <;> decide)
  rw [List.append_nil] at hinner
  rw [SqlEngine.asText, List.append_assoc]
  exact hinner.behind (by cases E <;> decide)

/-- A literal behind words and a blank. -/
theorem reads_literal {w : Bytes} (hw : isQuiet (w ++ [space]) = true) (v : Bytes) :
    ReadAs E.dialect (w ++ [space] ++ literalOf E.backslashEscapes v) [(singleQuote, v)] := by
  have hmode : E.backslashEscapes = E.dialect.backslashInStrings := by cases E <;> rfl
  rw [hmode]
  exact ReadAs.literal hw (by decide)

theorem reads_value (hreal : ∀ bits, isQuiet (realText bits) = true) {w : Bytes}
    (hw : isQuiet (w ++ [space]) = true) (v : Value) :
    ReadAs E.dialect (w ++ [space] ++ sqlLiteral realText v E.backslashEscapes) (textOf v) := by
  have hnull : ReadAs E.dialect (ascii "NULL") [] := ReadAs.words (by decide)
  cases v with
  | text s =>
    rw [sqlLiteral_eq]
    exact reads_literal hw s
  | integer n => exact (ReadAs.words (isQuiet_integerText n)).behind hw
  | real bits => exact (ReadAs.words (hreal bits)).behind hw
  | null | blob b | capped c => exact hnull.behind hw

/-- The literal of an `ESCAPE` clause, where there is one. -/
def SqlEngine.escapeLexeme (E : SqlEngine) : List (UInt8 × Bytes) :=
  if E.escapeClause then [(singleQuote, [backslash])] else []

/-- A search in one column. -/
theorem reads_contains (name term : Bytes) : ReadAs E.dialect
      (E.asText (E.quote name) ++ [space] ++ E.likeOp ++ [space] ++ likePattern term E.backslashEscapes ++
        escapeText E.backslashEscapes E.escapeClause)
      ((E.quoteByte, E.inQuotes name) :: (singleQuote, likeText term) :: E.escapeLexeme) := by
  have hwords : isQuiet ([space] ++ E.likeOp ++ [space]) = true := by cases E <;> decide
  have hstart : ∀ rest, Plainly ([space] ++ E.likeOp ++ [space] ++ rest) := by
    intro rest c hc
    rw [← Option.some.inj hc]
    decide
  have hpattern : ReadAs E.dialect
      ([space] ++ E.likeOp ++ [space] ++ likePattern term E.backslashEscapes) [(singleQuote, likeText term)] := by
    rw [likePattern_eq]
    exact reads_literal hwords _
  have hescape : ReadAs E.dialect ([space] ++ E.likeOp ++ [space] ++ likePattern term E.backslashEscapes ++
      escapeText E.backslashEscapes E.escapeClause) ((singleQuote, likeText term) :: E.escapeLexeme) := by
    rw [escapeText_eq, SqlEngine.escapeLexeme]
    split
    · have hliteral : ReadAs E.dialect (ascii " ESCAPE" ++ [space] ++ literalOf E.backslashEscapes [backslash])
          [(singleQuote, [backslash])] := reads_literal (by decide) _
      refine hpattern.append hliteral (List.append_ne_nil_of_right_ne_nil _ (List.cons_ne_nil _ _)) fun c hc => ?_
      rw [← Option.some.inj hc]
      decide
    · rw [List.append_nil]
      exact hpattern
  have hall := (reads_asText (E := E) name).append hescape (by simp) (by
    have hshape : ∀ x y : Bytes, [space] ++ E.likeOp ++ [space] ++ x ++ y =
        [space] ++ E.likeOp ++ [space] ++ (x ++ y) := fun x y => by simp
    rw [hshape]
    exact hstart _)
  simpa only [List.append_assoc, List.singleton_append] using hall

/-- The lexemes of a comparison: its column, and its texts. -/
def ColumnPredicate.lexemes (p : ColumnPredicate) (realText : UInt64 → Bytes) (E : SqlEngine) :
    List (UInt8 × Bytes) :=
  (E.quoteByte, E.inQuotes p.column) ::
    match p.op with
    | .isNull | .isNotNull => []
    | .contains => (singleQuote, likeText ((p.value.map (valueText realText)).getD [])) :: E.escapeLexeme
    | _ => textOf (p.value.getD .null)

theorem reads_predicate (hreal : ∀ bits, isQuiet (realText bits) = true) (p : ColumnPredicate) :
    ReadAs E.dialect (p.render realText E.quote E.asText E.likeOp E.backslashEscapes E.escapeClause)
      (p.lexemes realText E) := by
  obtain ⟨column, op, value⟩ := p
  -- a column, and words behind it
  have hwords : ∀ w, isQuiet (space :: w) = true →
      ReadAs E.dialect (E.quote column ++ space :: w) [(E.quoteByte, E.inQuotes column)] := by
    intro w hw
    refine (reads_quote column).append (ReadAs.words hw) (List.cons_ne_nil _ _) fun c hc => ?_
    rw [← Option.some.inj hc]
    decide
  -- a column, an operator and a value
  have hvalue : ∀ op : CmpOp, isQuiet ([space] ++ cmpOpSql op ++ [space]) = true → ReadAs E.dialect
      (E.quote column ++ [space] ++ cmpOpSql op ++ [space] ++
        sqlLiteral realText (value.getD .null) E.backslashEscapes)
      ((E.quoteByte, E.inQuotes column) :: textOf (value.getD .null)) := by
    intro op hop
    have hall := (reads_quote (E := E) column).append (reads_value hreal hop (value.getD .null)) (by simp) (by
      intro c hc
      rw [← Option.some.inj hc]
      decide)
    simpa only [List.append_assoc, List.singleton_append] using hall
  have hnull : value.all Value.isNull = true → textOf (value.getD .null) = [] := by
    intro h
    cases value with
    | none => rfl
    | some v => cases v <;> first | rfl | exact absurd h (by simp [Value.isNull])
  cases op with
  | isNull => exact hwords (ascii "IS NULL") (by decide)
  | isNotNull => exact hwords (ascii "IS NOT NULL") (by decide)
  | contains => exact reads_contains column _
  | eq =>
    cases hv : value.all Value.isNull with
    | true =>
      unfold ColumnPredicate.render ColumnPredicate.lexemes
      dsimp only
      rw [hv, hnull hv]
      exact hwords (ascii "IS NULL") (by decide)
    | false =>
      unfold ColumnPredicate.render ColumnPredicate.lexemes
      dsimp only
      rw [hv]
      exact hvalue .eq (by decide)
  | ne =>
    cases hv : value.all Value.isNull with
    | true =>
      unfold ColumnPredicate.render ColumnPredicate.lexemes
      dsimp only
      rw [hv, hnull hv]
      exact hwords (ascii "IS NOT NULL") (by decide)
    | false =>
      unfold ColumnPredicate.render ColumnPredicate.lexemes
      dsimp only
      rw [hv]
      exact hvalue .ne (by decide)
  | lt => exact hvalue .lt (by decide)
  | le => exact hvalue .le (by decide)
  | gt => exact hvalue .gt (by decide)
  | ge => exact hvalue .ge (by decide)
  | like => exact hvalue .like (by decide)

theorem reads_and {α : Type*} (text : α → Bytes) (lexemes : α → List (UInt8 × Bytes)) (xs : List α)
    (h : ∀ x, ReadAs E.dialect (text x) (lexemes x)) :
    Lexed E.dialect ((ascii " AND ").intercalate (xs.map text)) (xs.flatMap lexemes) := by
  refine (ReadAs.joined text lexemes (by decide) (by decide) (fun c hc => ?_) xs fun x _ => h x).lexed
  rw [← Option.some.inj hc]
  decide

theorem reads_search (columns : List SearchedColumn) (term : Bytes) :
    ∀ clause ∈ E.containsPredicate columns term, Lexed E.dialect clause
      ((columns.filter fun c => !c.typeName.any isBlobType).flatMap fun c =>
        (E.quoteByte, E.inQuotes c.name) :: (singleQuote, likeText term) :: E.escapeLexeme) := by
  intro clause hclause
  have hor : Plainly (ascii " OR ") := by decide
  have hparen : Plainly [closeParen] := by decide
  unfold SqlEngine.containsPredicate containsClause at hclause
  dsimp only at hclause
  split at hclause
  · cases hclause
  obtain rfl := Option.some.inj hclause
  have hjoined := @ReadAs.joined E.dialect _ (ascii " OR ")
    (fun c : SearchedColumn => E.asText (E.quote c.name) ++ [space] ++ E.likeOp ++ [space] ++
      likePattern term E.backslashEscapes ++ escapeText E.backslashEscapes E.escapeClause) _
    (by decide) (by decide) hor (columns.filter fun c => !c.typeName.any isBlobType)
    (fun c _ => reads_contains c.name term)
  have hclosed := (hjoined.append (ReadAs.words (p := [closeParen]) (by decide)) (List.cons_ne_nil _ _)
    hparen).behind (w := [openParen]) (by decide)
  rw [List.append_nil] at hclosed
  rw [List.append_assoc]
  exact hclosed.lexed

end Engine

/-- **What is written inline is read as it was given**: every literal in both modes, every clause of an
engine as its names and its texts and nothing else, and a pattern as the search for its term. -/
theorem clauses_exact {realText : UInt64 → Bytes} (hreal : ∀ bits, isQuiet (realText bits) = true) :
    (∀ (escapes : Bool) (v rest : Bytes), rest.head? ≠ some singleQuote →
      ∃ u, sqlLiteral realText (.text v) escapes = singleQuote :: u ∧
        readQuoted singleQuote escapes (u ++ rest) = some (v, rest)) ∧ (∀ E : SqlEngine,
      (∀ pairs : List ColumnValue, Lexed E.dialect (E.eqPredicate realText pairs)
        (pairs.flatMap fun cv => (E.quoteByte, E.inQuotes cv.column) :: textOf cv.value)) ∧
      (∀ preds : List ColumnPredicate, Lexed E.dialect (E.cmpPredicate realText preds)
        (preds.flatMap fun p => p.lexemes realText E)) ∧
      ∀ (columns : List SearchedColumn) (term : Bytes), ∀ clause ∈ E.containsPredicate columns term,
        Lexed E.dialect clause ((columns.filter fun c => !c.typeName.any isBlobType).flatMap fun c =>
          (E.quoteByte, E.inQuotes c.name) :: (singleQuote, likeText term) :: E.escapeLexeme)) ∧
    ∀ (escapes : Bool) (term rest : Bytes), rest.head? ≠ some singleQuote →
      (∃ u, likePattern term escapes = singleQuote :: u ∧
        readQuoted singleQuote escapes (u ++ rest) = some (likeText term, rest)) ∧
      ∀ (same : UInt8 → UInt8 → Prop) (character : Bytes → Prop) (t : Bytes),
        Like likeSymbols same character (likeText term) t ↔
          ∃ u w v, t = u ++ w ++ v ∧ List.Forall₂ same term w := by
  have hliteral : ∀ (escapes : Bool) (v rest : Bytes), rest.head? ≠ some singleQuote →
      ∃ u, literalOf escapes v = singleQuote :: u ∧
        readQuoted singleQuote escapes (u ++ rest) = some (v, rest) := by
    intro escapes v rest hrest
    refine ⟨_, rfl, ?_⟩
    rw [List.append_assoc]
    exact readQuoted_doubled (by decide) rfl hrest
  refine ⟨fun escapes v rest hrest => ?_, fun E => ⟨fun pairs => ?_, fun preds => ?_, reads_search⟩,
    fun escapes term rest hrest => ⟨?_, fun same character t => like_contains⟩⟩
  · rw [sqlLiteral_eq]
    exact hliteral escapes v rest hrest
  · refine reads_and _ _ pairs fun cv => ?_
    have hall := (reads_quote (E := E) cv.column).append
      (reads_value (E := E) hreal (w := ascii " =") (by decide) cv.value) (by simp) (by
        intro c hc
        rw [← Option.some.inj hc]
        decide)
    rw [← List.append_assoc] at hall
    exact hall
  · exact reads_and _ _ preds fun p => reads_predicate hreal p
  · rw [likePattern_eq]
    exact hliteral escapes (likeText term) rest hrest

theorem clauses_exact_sample :
    SqlEngine.mysql.eqPredicate (fun _ => ascii "1.5") [⟨ascii "note", .text (ascii "a'b\\"), none⟩,
      ⟨ascii "score", .real 0, none⟩] = ascii "`note` = 'a''b\\\\' AND `score` = 1.5" ∧
    Lexed .mySql (SqlEngine.mysql.eqPredicate (fun _ => ascii "1.5") [⟨ascii "note", .text (ascii "a'b\\"), none⟩,
      ⟨ascii "score", .real 0, none⟩])
      [(backtick, ascii "note"), (singleQuote, ascii "a'b\\"), (backtick, ascii "score")] := by
  have hexact := (@clauses_exact (fun _ => ascii "1.5") (fun _ => by decide)).2.1 .mysql
  exact ⟨by decide, hexact.1 [⟨ascii "note", .text (ascii "a'b\\"), none⟩, ⟨ascii "score", .real 0, none⟩]⟩

end RedDb.Driver
