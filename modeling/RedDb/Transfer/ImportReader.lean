import RedDb.Lib.PullReader
import RedDb.Transfer.CsvText

/-!
# RedDb — reading the records of an import

CSV, one JSON object a line, or one JSON array of objects, pulled record by record. The JSON
readers take their columns from the first object, which they read when they begin and hand
back with the first row.

* `recordsOf` — the records of a file in each format, read in one go;
* `begin_items` — what the row reader yields after it began is those records;
* `recordsOf_csvLines` — the records of an exported CSV file are the rows exported.
-/

namespace RedDb.Transfer

open ByteText RedDb.Driver

/-! ## Bytes -/

/-- The next byte, left where it is. -/
def SourceFile.peekByte (s : SourceFile) : Except String (Option UInt8) :=
  match s.text, s.failure with
  | b :: _, _ => .ok (some b)
  | [], some e => .error e
  | [], none => .ok none

/-- The source behind its next byte. -/
def SourceFile.behindByte (s : SourceFile) : SourceFile := { s with text := s.text.tail }

def SourceFile.skipWs (s : SourceFile) : Except String SourceFile :=
  match s.text.dropWhile isAsciiWhitespace, s.failure with
  | [], some e => .error e
  | rest, failure => .ok ⟨rest, failure⟩

abbrev openBracket : UInt8 := 91
abbrev closeBracket : UInt8 := 93
abbrev openBrace : UInt8 := 123
abbrev closeBrace : UInt8 := 125
abbrev comma : UInt8 := 44

/-- An object or an array, to the bracket that closes it; brackets in strings do not count. -/
@[grind =] def readNested (failure : Option String) (depth : Int) (inStr escaped : Bool) (out : Bytes) :
    Bytes → Except String (Bytes × Bytes)
  | [] => .error (failure.getD "unterminated JSON value")
  | b :: rest =>
    if inStr then
      if escaped then readNested failure depth true false (out ++ [b]) rest
      else if b = backslash then readNested failure depth true true (out ++ [b]) rest
      else readNested failure depth (b != doubleQuote) false (out ++ [b]) rest
    else if b = doubleQuote then readNested failure depth true escaped (out ++ [b]) rest
    else if b = openBrace || b = openBracket then
      readNested failure (depth + 1) false escaped (out ++ [b]) rest
    else if b = closeBrace || b = closeBracket then
      if depth - 1 = 0 then .ok (out ++ [b], rest)
      else readNested failure (depth - 1) false escaped (out ++ [b]) rest
    else readNested failure depth false escaped (out ++ [b]) rest

/-- A number, a string or a word, to the delimiter after it. -/
@[grind =] def readScalar (failure : Option String) (inStr escaped : Bool) (out : Bytes) :
    Bytes → Except String (Bytes × Bytes)
  | [] => match failure with
    | some e => .error e
    | none => .ok (out, [])
  | b :: rest =>
    if inStr then
      if escaped then readScalar failure true false (out ++ [b]) rest
      else if b = backslash then readScalar failure true true (out ++ [b]) rest
      else readScalar failure (b != doubleQuote) false (out ++ [b]) rest
    else if b = comma || b = closeBracket || isAsciiWhitespace b then .ok (out, b :: rest)
    else readScalar failure (b == doubleQuote) escaped (out ++ [b]) rest

/-- The bytes of one JSON value, and the source behind it. -/
def readJsonValueBytes (s : SourceFile) : Except String (Bytes × SourceFile) :=
  match s.peekByte with
  | .error e => .error e
  | .ok none => .error "expected a JSON value"
  | .ok (some first) =>
    (if first = openBrace || first = openBracket then readNested s.failure 0 false false [] s.text
      else readScalar s.failure false false [] s.text).map fun (bytes, rest) =>
        (bytes, ⟨rest, s.failure⟩)

/-! ## Objects -/

/-- A member's value, by its kind. A number and a nested value come with the text that the
JSON library displays them as. -/
inductive JsonCell where
  | null
  | string (s : Bytes)
  | bool (b : Bool)
  | number (text : Bytes)
  | nested (text : Bytes)

/-- What the JSON library makes of a text: an object as its members, or another value. -/
inductive JsonDoc where
  | object (members : List (Bytes × JsonCell))
  | other

abbrev JsonObject := List (Bytes × JsonCell)

/-- The columns of an object. -/
def JsonCell.keys (obj : JsonObject) : List Bytes := obj.map Prod.fst

/-- An object's cells in the order of the columns, as text. -/
def projectJson (columns : List Bytes) (obj : JsonObject) : List Bytes :=
  columns.map fun key =>
    match obj.lookup key with
    | none | some .null => []
    | some (.string s) => s
    | some (.bool b) => if b then ascii "true" else ascii "false"
    | some (.number text) => text
    | some (.nested text) => text

/-- The JSON library. -/
abbrev ParseJson := Bytes → Except String JsonDoc

section Readers

variable (parseJson : ParseJson)

def parseJsonObject (text : Bytes) : Except String JsonObject :=
  match parseJson text with
  | .ok (.object members) => .ok members
  | .ok .other => .error "JSONL line is not a JSON object"
  | .error e => .error e

/-! ## Lines of JSON -/

structure LineReader where
  lines : List Bytes
  failure : Option String

/-- The next line that is not blank, without its line end. -/
def readNonemptyLine (failure : Option String) :
    List Bytes → Except String (Option Bytes) × List Bytes
  | [] => match failure with
    | some e => (.error e, [])
    | none => (.ok none, [])
  | line :: lines =>
    let trimmed := Csv.trimLineEnd csvMarks line
    if trimmed.isEmpty then readNonemptyLine failure lines else (.ok (some trimmed), lines)

def LineReader.nextObject (r : LineReader) : Except String (Option JsonObject) × LineReader :=
  match readNonemptyLine r.failure r.lines with
  | (.error e, lines) => (.error e, { r with lines := lines })
  | (.ok none, lines) => (.ok none, { r with lines := lines })
  | (.ok (some line), lines) =>
    match parseJsonObject parseJson line with
    | .error e => (.error e, { r with lines := lines })
    | .ok obj => (.ok (some obj), { r with lines := lines })

/-! ## An array of JSON -/

structure JsonArrayReader where
  source : SourceFile
  arrayStarted : Bool
  firstElement : Bool
  done : Bool

def JsonArrayReader.new (file : SourceFile) : JsonArrayReader := ⟨file, false, true, false⟩

/-- Behind the array's opening bracket; nothing at an empty source. -/
def JsonArrayReader.started (r : JsonArrayReader) : Except String (Option SourceFile) :=
  if r.arrayStarted then .ok (some r.source)
  else
    match r.source.skipWs with
    | .error e => .error e
    | .ok s =>
      match s.peekByte with
      | .error e => .error e
      | .ok none => .ok none
      | .ok (some b) =>
        if b = openBracket then .ok (some s.behindByte)
        else .error "expected '[' at the start of a JSON array"

/-- At the next element, past its separator; nothing behind the closing bracket. -/
def toElement (firstElement : Bool) (s : SourceFile) : Except String (Option SourceFile) :=
  match s.skipWs with
  | .error e => .error e
  | .ok s =>
    match s.peekByte with
    | .error e => .error e
    | .ok none => .error "unterminated JSON array"
    | .ok (some b) =>
      if b = closeBracket then .ok none
      else if b = comma then
        if firstElement then .error "unexpected ',' before the first array element"
        else s.behindByte.skipWs.map some
      else if firstElement then .ok (some s)
      else .error "expected ',' or ']' between array elements"

/-- The next element as an object. What an error has consumed is not kept: no caller pulls
again after one. -/
def JsonArrayReader.nextObject (r : JsonArrayReader) :
    Except String (Option JsonObject) × JsonArrayReader :=
  if r.done then (.ok none, r)
  else
    match r.started with
    | .error e => (.error e, r)
    | .ok none => (.ok none, { r with done := true })
    | .ok (some s) =>
      match toElement r.firstElement s with
      | .error e => (.error e, r)
      | .ok none => (.ok none, { r with arrayStarted := true, done := true })
      | .ok (some s) =>
        match readJsonValueBytes s with
        | .error e => (.error e, r)
        | .ok (bytes, s) =>
          match parseJsonObject parseJson bytes with
          | .error e => (.error e, r)
          | .ok obj => (.ok (some obj), ⟨s, true, false, r.done⟩)

/-! ## The reader of rows -/

inductive ImportFormat where
  | csv
  | jsonl
  | jsonArray
  deriving DecidableEq

/-- A reader behind its beginning; the JSON readers with their columns, and with the row that
beginning had to read. -/
inductive ImportReader where
  | csv (reader : CsvReader)
  | jsonl (reader : LineReader) (columns : List Bytes) (pending : Option (List Bytes))
  | jsonArray (reader : JsonArrayReader) (columns : List Bytes) (pending : Option (List Bytes))

/-- The columns of the source, and the reader at its first row. -/
def ImportReader.begin (file : SourceFile) (format : ImportFormat) :
    Except String (List Bytes × ImportReader) :=
  match format with
  | .csv =>
    match (CsvReader.new file).nextRecord with
    | (.error e, _) => .error e
    | (.ok columns, reader) => .ok (columns.getD [], .csv reader)
  | .jsonl =>
    match LineReader.nextObject parseJson ⟨file.lines, file.failure⟩ with
    | (.error e, _) => .error e
    | (.ok none, reader) => .ok ([], .jsonl reader [] none)
    | (.ok (some obj), reader) =>
      let columns := JsonCell.keys obj
      .ok (columns, .jsonl reader columns (some (projectJson columns obj)))
  | .jsonArray =>
    match (JsonArrayReader.new file).nextObject parseJson with
    | (.error e, _) => .error e
    | (.ok none, reader) => .ok ([], .jsonArray reader [] none)
    | (.ok (some obj), reader) =>
      let columns := JsonCell.keys obj
      .ok (columns, .jsonArray reader columns (some (projectJson columns obj)))

/-- The next row, of what the reader of objects gave. -/
def projected {σ : Type} (place : σ → ImportReader) (columns : List Bytes)
    (pulled : Except String (Option JsonObject) × σ) :
    Except String (Option (List Bytes)) × ImportReader :=
  match pulled with
  | (.error e, r) => (.error e, place r)
  | (.ok none, r) => (.ok none, place r)
  | (.ok (some obj), r) => (.ok (some (projectJson columns obj)), place r)

def ImportReader.nextRow : ImportReader → Except String (Option (List Bytes)) × ImportReader
  | .csv reader => (reader.nextRecord.1, .csv reader.nextRecord.2)
  | .jsonl reader columns (some row) => (.ok (some row), .jsonl reader columns none)
  | .jsonl reader columns none =>
    projected (fun r => .jsonl r columns none) columns (reader.nextObject parseJson)
  | .jsonArray reader columns (some row) => (.ok (some row), .jsonArray reader columns none)
  | .jsonArray reader columns none =>
    projected (fun r => .jsonArray r columns none) columns (reader.nextObject parseJson)

end Readers

/-! ## Every record is read from text of its own -/

variable {lines : List Bytes}

theorem gather_lines {buf joined : Bytes} {rest : List Bytes}
    (h : Csv.gather csvMarks buf lines = (joined, some rest)) : rest.length < lines.length := by
  induction lines generalizing buf with
  | nil => cases h
  | cons line lines ih =>
    rw [Csv.gather] at h
    split at h
    · obtain rfl : lines = rest := Option.some.inj (Prod.mk.inj h).2
      exact Nat.lt_succ_self _
    · exact Nat.lt_succ_of_lt (ih h)

/-- What a CSV reader has left: its lines, and the record that the end of the text closes. -/
def CsvReader.size (r : CsvReader) : Nat := r.lines.length + if r.done then 0 else 1

variable {r : CsvReader}

theorem CsvReader.nextRecord_lt {record : List Bytes}
    (h : r.nextRecord.1 = .ok (some record)) : r.nextRecord.2.size < r.size := by
  unfold CsvReader.nextRecord at h ⊢
  by_cases hdone : r.done = true
  · rw [if_pos hdone] at h
    cases h
  rw [if_neg hdone] at h ⊢
  rcases hgather : Csv.gather csvMarks [] r.lines with ⟨buf, _ | lines⟩
  · rw [hgather] at h
    cases hfailure : r.failure with
    | some e =>
      simp only [hfailure] at h
      cases h
    | none =>
      simp only [CsvReader.size, if_neg hdone]
      exact Nat.succ_pos _
  · have hlines := gather_lines hgather
    simp only [CsvReader.size, if_neg hdone]
    omega

def csvRecords : PullReader CsvReader (List Bytes) String where
  next := CsvReader.nextRecord
  size := CsvReader.size
  next_lt := CsvReader.nextRecord_lt

variable {failure : Option String}

theorem readNonemptyLine_lt {line : Bytes}
    (h : (readNonemptyLine failure lines).1 = .ok (some line)) :
    (readNonemptyLine failure lines).2.length < lines.length := by
  induction lines with
  | nil =>
    rw [readNonemptyLine.eq_def] at h
    dsimp only at h
    split at h <;> cases h
  | cons line lines ih =>
    rw [readNonemptyLine] at h ⊢
    by_cases hblank : (Csv.trimLineEnd csvMarks line).isEmpty = true
    · simp only [if_pos hblank] at h ⊢
      exact Nat.lt_succ_of_lt (ih h)
    · simp only [if_neg hblank]
      exact Nat.lt_succ_self _

variable {bytes : Bytes}

theorem readNested_le {text : Bytes} {depth : Int} {inStr escaped : Bool}
    {out rest : Bytes} (h : readNested failure depth inStr escaped out text = .ok (bytes, rest)) :
    rest.length ≤ text.length := by
  induction text generalizing depth inStr escaped out with
  | nil => cases h
  | cons b text ih =>
    rw [readNested] at h
    rw [List.length_cons]
    repeat' split at h
    all_goals first
      | exact Nat.le_succ_of_le (ih h)
      | obtain rfl := (Prod.mk.inj (Except.ok.inj h)).2
        exact Nat.le_succ _

theorem readScalar_le {text : Bytes} {inStr escaped : Bool}
    {out rest : Bytes} (h : readScalar failure inStr escaped out text = .ok (bytes, rest)) :
    rest.length ≤ text.length := by
  induction text generalizing inStr escaped out with
  | nil =>
    rw [readScalar.eq_def] at h
    dsimp only at h
    split at h
    · cases h
    · obtain rfl := (Prod.mk.inj (Except.ok.inj h)).2
      exact Nat.le_refl _
  | cons b text ih =>
    rw [readScalar] at h
    rw [List.length_cons]
    repeat' split at h
    all_goals first
      | exact Nat.le_succ_of_le (ih h)
      | obtain rfl := (Prod.mk.inj (Except.ok.inj h)).2
        exact Nat.le_refl _

variable {s s' : SourceFile}

theorem readJsonValueBytes_le
    (h : readJsonValueBytes s = .ok (bytes, s')) : s'.text.length ≤ s.text.length := by
  unfold readJsonValueBytes at h
  split at h
  · cases h
  · cases h
  · next first _ =>
    unfold Except.map at h
    split at h
    · cases h
    next hread =>
    obtain ⟨rfl, rfl⟩ := Prod.mk.inj (Except.ok.inj h)
    split at hread
    · exact readNested_le hread
    · exact readScalar_le hread

theorem skipWs_le (h : s.skipWs = .ok s') : s'.text.length ≤ s.text.length := by
  have hdrop := (List.dropWhile_sublist (l := s.text) isAsciiWhitespace).length_le
  unfold SourceFile.skipWs at h
  split at h
  · cases h
  · obtain rfl := Except.ok.inj h
    exact hdrop

theorem behindByte_lt {b : UInt8} (h : s.peekByte = .ok (some b)) :
    s.behindByte.text.length < s.text.length := by
  unfold SourceFile.peekByte at h
  unfold SourceFile.behindByte
  cases htext : s.text with
  | nil =>
    rw [htext] at h
    split at h
    · next heq => cases heq
    · cases h
    · cases h
  | cons c rest => exact Nat.lt_succ_self _

/-- What an array reader has left: its text, and its first element, which has no comma of
its own. -/
def JsonArrayReader.size (r : JsonArrayReader) : Nat :=
  r.source.text.length + if r.firstElement then 1 else 0

theorem started_le {r : JsonArrayReader} (h : r.started = .ok (some s)) :
    s.text.length ≤ r.source.text.length := by
  unfold JsonArrayReader.started at h
  split at h
  · obtain rfl := Option.some.inj (Except.ok.inj h)
    exact Nat.le_refl _
  split at h
  · cases h
  next s' hskip =>
  have hle := skipWs_le hskip
  split at h
  · cases h
  · cases h
  · next b hpeek =>
    have hlt := behindByte_lt hpeek
    split at h
    · obtain rfl := Option.some.inj (Except.ok.inj h)
      omega
    · cases h

theorem toElement_le {first : Bool} (h : toElement first s = .ok (some s')) :
    s'.text.length + (if first then 0 else 1) ≤ s.text.length := by
  unfold toElement at h
  split at h
  · cases h
  next s₁ hskip =>
  have hle := skipWs_le hskip
  split at h
  · cases h
  · cases h
  · next b hpeek =>
    have hlt := behindByte_lt hpeek
    split at h
    · cases h
    split at h
    · split at h
      · cases h
      next hfirst =>
      rw [if_neg hfirst]
      cases hbehind : s₁.behindByte.skipWs with
      | error e =>
        rw [hbehind] at h
        cases h
      | ok s₂ =>
        rw [hbehind] at h
        obtain rfl := Option.some.inj (Except.ok.inj h)
        have hle' := skipWs_le hbehind
        omega
    · split at h
      · next hfirst =>
        obtain rfl := Option.some.inj (Except.ok.inj h)
        rw [if_pos hfirst]
        exact hle
      · cases h

variable {row : List Bytes}

section Records

variable {parseJson : ParseJson}

theorem LineReader.nextObject_lt {r : LineReader} {obj : JsonObject}
    (h : (r.nextObject parseJson).1 = .ok (some obj)) :
    (r.nextObject parseJson).2.lines.length < r.lines.length := by
  unfold LineReader.nextObject at h ⊢
  rcases hread : readNonemptyLine r.failure r.lines with ⟨e | _ | line, lines⟩
  · rw [hread] at h
    cases h
  · rw [hread] at h
    cases h
  · have hlt := readNonemptyLine_lt (congrArg Prod.fst hread)
    rw [hread] at hlt
    cases hparse : parseJsonObject parseJson line with
    | error | ok =>
      simp only [hparse]
      exact hlt

theorem JsonArrayReader.nextObject_some {r r' : JsonArrayReader} {obj : JsonObject}
    (h : r.nextObject parseJson = (.ok (some obj), r')) : r'.size < r.size := by
  unfold JsonArrayReader.nextObject at h
  split at h
  · cases h
  split at h
  · cases h
  · cases h
  next s₁ hstarted =>
  split at h
  · cases h
  · cases h
  next s₂ helement =>
  split at h
  · cases h
  next bytes s₃ hvalue =>
  split at h
  · cases h
  obtain ⟨-, rfl⟩ := Prod.mk.inj h
  have h₁ := started_le hstarted
  have h₂ := toElement_le helement
  have h₃ := readJsonValueBytes_le hvalue
  simp only [JsonArrayReader.size]
  cases hfirst : r.firstElement with
  | false | true =>
    rw [hfirst] at h₂
    simp only [if_true, Bool.false_eq_true, if_false] at h₂ ⊢
    omega

theorem JsonArrayReader.nextObject_lt {r : JsonArrayReader} {obj : JsonObject}
    (h : (r.nextObject parseJson).1 = .ok (some obj)) : (r.nextObject parseJson).2.size < r.size :=
  nextObject_some (Prod.ext h rfl)

def ImportReader.size : ImportReader → Nat
  | .csv reader => reader.size
  | .jsonl reader _ pending => reader.lines.length + pending.toList.length
  | .jsonArray reader _ pending => reader.size + pending.toList.length

theorem projected_some {σ : Type} {place : σ → ImportReader} {columns : List Bytes}
    {pulled : Except String (Option JsonObject) × σ}
    (h : (projected place columns pulled).1 = .ok (some row)) :
    ∃ obj, pulled.1 = .ok (some obj) ∧ (projected place columns pulled).2 = place pulled.2 := by
  rcases pulled with ⟨e | _ | obj, r⟩
  · cases h
  · cases h
  · exact ⟨obj, rfl, rfl⟩

theorem ImportReader.nextRow_lt {r : ImportReader}
    (h : (r.nextRow parseJson).1 = .ok (some row)) : (r.nextRow parseJson).2.size < r.size := by
  cases r with
  | csv reader => exact CsvReader.nextRecord_lt h
  | jsonl reader columns pending =>
    cases pending with
    | some row => exact Nat.lt_succ_self _
    | none =>
      obtain ⟨obj, hobj, hplace⟩ := projected_some h
      have hlt := LineReader.nextObject_lt hobj
      show (projected _ columns (reader.nextObject parseJson)).2.size < _
      rw [hplace]
      exact hlt
  | jsonArray reader columns pending =>
    cases pending with
    | some row => exact Nat.lt_succ_self _
    | none =>
      obtain ⟨obj, hobj, hplace⟩ := projected_some h
      have hlt := JsonArrayReader.nextObject_lt hobj
      show (projected _ columns (reader.nextObject parseJson)).2.size < _
      rw [hplace]
      exact hlt

variable (parseJson)

def lineObjects : PullReader LineReader JsonObject String where
  next := LineReader.nextObject parseJson
  size := fun r => r.lines.length
  next_lt := LineReader.nextObject_lt

def arrayObjects : PullReader JsonArrayReader JsonObject String where
  next := JsonArrayReader.nextObject parseJson
  size := JsonArrayReader.size
  next_lt := JsonArrayReader.nextObject_lt

/-- The rows of an import. -/
def importRows : PullReader ImportReader (List Bytes) String where
  next := ImportReader.nextRow parseJson
  size := ImportReader.size
  next_lt := ImportReader.nextRow_lt

/-! ## The records of a file -/

/-- Objects as rows, under the columns of the first. -/
def rowsOf (objects : List JsonObject) : List (List Bytes) :=
  objects.map (projectJson (JsonCell.keys (objects.headD [])))

/-- The records of a file, up to the first that cannot be read, and why it cannot. -/
def recordsOf (format : ImportFormat) (file : SourceFile) : List (List Bytes) × Option String :=
  match format with
  | .csv =>
    let records := csvRecords.items (CsvReader.new file)
    (records.1.drop 1, records.2)
  | .jsonl =>
    let objects := (lineObjects parseJson).items ⟨file.lines, file.failure⟩
    (rowsOf objects.1, objects.2)
  | .jsonArray =>
    let objects := (arrayObjects parseJson).items (JsonArrayReader.new file)
    (rowsOf objects.1, objects.2)

variable {parseJson}

theorem items_csv (r : CsvReader) : (importRows parseJson).items (.csv r) = csvRecords.items r := by
  have h := PullReader.items_embed (R := csvRecords) (Q := importRows parseJson)
    ImportReader.csv id (fun _ _ h => h) (fun _ h => h)
    (fun r record h => Prod.ext (show r.nextRecord.1 = _ from h) rfl) r
  rwa [List.map_id] at h

theorem projected_next {σ : Type} (place : σ → ImportReader) (columns : List Bytes)
    (pulled : Except String (Option JsonObject) × σ) :
    (∀ e, pulled.1 = .error e → (projected place columns pulled).1 = .error e) ∧
      (pulled.1 = .ok none → (projected place columns pulled).1 = .ok none) ∧
      ∀ obj, pulled.1 = .ok (some obj) →
        projected place columns pulled = (.ok (some (projectJson columns obj)), place pulled.2) := by
  rcases pulled with ⟨e | _ | obj, r⟩
  · exact ⟨fun _ h => (by cases h; rfl), fun h => (by cases h), fun _ h => by cases h⟩
  · exact ⟨fun _ h => (by cases h), fun _ => rfl, fun _ h => by cases h⟩
  · exact ⟨fun _ h => (by cases h), fun h => (by cases h), fun _ h => by cases h; rfl⟩

theorem items_jsonl (r : LineReader) (columns : List Bytes) :
    (importRows parseJson).items (.jsonl r columns none) =
      (((lineObjects parseJson).items r).1.map (projectJson columns),
        ((lineObjects parseJson).items r).2) :=
  PullReader.items_embed (R := lineObjects parseJson) (Q := importRows parseJson)
    (fun r => .jsonl r columns none) (projectJson columns)
    (fun s => (projected_next _ columns (s.nextObject parseJson)).1)
    (fun s => (projected_next _ columns (s.nextObject parseJson)).2.1)
    (fun s => (projected_next _ columns (s.nextObject parseJson)).2.2) r

theorem items_jsonArray (r : JsonArrayReader) (columns : List Bytes) :
    (importRows parseJson).items (.jsonArray r columns none) =
      (((arrayObjects parseJson).items r).1.map (projectJson columns),
        ((arrayObjects parseJson).items r).2) :=
  PullReader.items_embed (R := arrayObjects parseJson) (Q := importRows parseJson)
    (fun r => .jsonArray r columns none) (projectJson columns)
    (fun s => (projected_next _ columns (s.nextObject parseJson)).1)
    (fun s => (projected_next _ columns (s.nextObject parseJson)).2.1)
    (fun s => (projected_next _ columns (s.nextObject parseJson)).2.2) r

/-- The pending row is the first that is yielded. -/
theorem items_pending {r next : ImportReader} (h : r.nextRow parseJson = (.ok (some row), next)) :
    (importRows parseJson).items r =
      (row :: ((importRows parseJson).items next).1, ((importRows parseJson).items next).2) := by
  have hcons := PullReader.items_cons (R := importRows parseJson) (s := r) (a := row)
    (congrArg Prod.fst h)
  rw [hcons]
  show (row :: ((importRows parseJson).items (r.nextRow parseJson).2).1,
    ((importRows parseJson).items (r.nextRow parseJson).2).2) = _
  rw [h]

-- After its end a reader stays there.

theorem CsvReader.ended {r' : CsvReader} (h : r.nextRecord = (.ok none, r')) :
    csvRecords.items r' = ([], none) := by
  have hdone : r'.done = true := by
    unfold CsvReader.nextRecord at h
    split at h
    · next hdone =>
      obtain rfl := (Prod.mk.inj h).2
      exact hdone
    split at h
    · cases (Prod.mk.inj h).1
    split at h
    · cases (Prod.mk.inj h).1
    · obtain rfl := (Prod.mk.inj h).2
      rfl
  apply PullReader.items_end
  show r'.nextRecord.1 = _
  unfold CsvReader.nextRecord
  rw [if_pos hdone]

theorem readNonemptyLine_end {rest : List Bytes}
    (h : readNonemptyLine failure lines = (.ok none, rest)) : failure = none ∧ rest = [] := by
  induction lines with
  | nil =>
    rw [readNonemptyLine.eq_def] at h
    dsimp only at h
    split at h
    · cases (Prod.mk.inj h).1
    · exact ⟨rfl, (Prod.mk.inj h).2.symm⟩
  | cons line lines ih =>
    rw [readNonemptyLine] at h
    split at h
    · exact ih h
    · cases (Prod.mk.inj h).1

theorem LineReader.ended {r r' : LineReader} (h : r.nextObject parseJson = (.ok none, r')) :
    (lineObjects parseJson).items r' = ([], none) := by
  unfold LineReader.nextObject at h
  rcases hread : readNonemptyLine r.failure r.lines with ⟨e | _ | line, lines⟩
  · rw [hread] at h
    cases (Prod.mk.inj h).1
  · rw [hread] at h
    obtain ⟨hfailure, rfl⟩ := readNonemptyLine_end hread
    obtain rfl := (Prod.mk.inj h).2
    apply PullReader.items_end
    show (LineReader.nextObject parseJson ⟨[], r.failure⟩).1 = _
    rw [hfailure]
    rfl
  · rw [hread] at h
    dsimp only at h
    split at h <;> cases (Prod.mk.inj h).1

theorem JsonArrayReader.ended {r r' : JsonArrayReader}
    (h : r.nextObject parseJson = (.ok none, r')) :
    (arrayObjects parseJson).items r' = ([], none) := by
  have hdone : r'.done = true := by
    unfold JsonArrayReader.nextObject at h
    split at h
    · next hdone =>
      obtain rfl := (Prod.mk.inj h).2
      exact hdone
    split at h
    · cases (Prod.mk.inj h).1
    · obtain rfl := (Prod.mk.inj h).2
      rfl
    · split at h
      · cases (Prod.mk.inj h).1
      · obtain rfl := (Prod.mk.inj h).2
        rfl
      · split at h
        · cases (Prod.mk.inj h).1
        · split at h <;> cases (Prod.mk.inj h).1
  apply PullReader.items_end
  show (r'.nextObject parseJson).1 = _
  unfold JsonArrayReader.nextObject
  rw [if_pos hdone]

/-- **What the row reader yields after it began is the records of the file**, the first
included; where it cannot begin, there are none. -/
theorem begin_items (format : ImportFormat) (file : SourceFile) :
    (∀ e, ImportReader.begin parseJson file format = .error e →
      recordsOf parseJson format file = ([], some e)) ∧
    ∀ columns r, ImportReader.begin parseJson file format = .ok (columns, r) →
      (importRows parseJson).items r = recordsOf parseJson format file := by
  unfold ImportReader.begin recordsOf
  cases format with
  | csv =>
    rcases hnext : (CsvReader.new file).nextRecord with ⟨e | _ | record, r⟩
    · have hitems := PullReader.items_error (R := csvRecords) (congrArg Prod.fst hnext)
      refine ⟨fun e' h => ?_, fun _ _ h => by cases h⟩
      obtain rfl := Except.error.inj h
      simp only [hitems, List.drop_nil]
    · have hitems := PullReader.items_end (R := csvRecords) (congrArg Prod.fst hnext)
      refine ⟨fun _ h => (by cases h), fun columns r' h => ?_⟩
      obtain ⟨rfl, rfl⟩ := Prod.mk.inj (Except.ok.inj h)
      rw [items_csv, CsvReader.ended hnext]
      simp only [hitems, List.drop_nil]
    · have hitems := PullReader.items_cons (R := csvRecords) (congrArg Prod.fst hnext)
      refine ⟨fun _ h => (by cases h), fun columns r' h => ?_⟩
      obtain ⟨rfl, rfl⟩ := Prod.mk.inj (Except.ok.inj h)
      have hrest : (csvRecords.next (CsvReader.new file)).2 = r := congrArg Prod.snd hnext
      rw [items_csv]
      simp only [hitems, hrest, List.drop_succ_cons, List.drop_zero]
  | jsonl =>
    rcases hnext : LineReader.nextObject parseJson ⟨file.lines, file.failure⟩ with ⟨e | _ | obj, r⟩
    · have hitems := PullReader.items_error (R := lineObjects parseJson) (congrArg Prod.fst hnext)
      refine ⟨fun e' h => ?_, fun _ _ h => by cases h⟩
      obtain rfl := Except.error.inj h
      simp only [hitems]
      rfl
    · have hitems := PullReader.items_end (R := lineObjects parseJson) (congrArg Prod.fst hnext)
      refine ⟨fun _ h => (by cases h), fun columns r' h => ?_⟩
      obtain ⟨rfl, rfl⟩ := Prod.mk.inj (Except.ok.inj h)
      rw [items_jsonl, LineReader.ended hnext]
      simp only [hitems]
      rfl
    · have hitems := PullReader.items_cons (R := lineObjects parseJson) (congrArg Prod.fst hnext)
      refine ⟨fun _ h => (by cases h), fun columns r' h => ?_⟩
      obtain ⟨rfl, rfl⟩ := Prod.mk.inj (Except.ok.inj h)
      have hrest : ((lineObjects parseJson).next ⟨file.lines, file.failure⟩).2 = r :=
        congrArg Prod.snd hnext
      rw [items_pending rfl, items_jsonl]
      simp only [hitems, hrest]
      rfl
  | jsonArray =>
    rcases hnext : (JsonArrayReader.new file).nextObject parseJson with ⟨e | _ | obj, r⟩
    · have hitems := PullReader.items_error (R := arrayObjects parseJson) (congrArg Prod.fst hnext)
      refine ⟨fun e' h => ?_, fun _ _ h => by cases h⟩
      obtain rfl := Except.error.inj h
      simp only [hitems]
      rfl
    · have hitems := PullReader.items_end (R := arrayObjects parseJson) (congrArg Prod.fst hnext)
      refine ⟨fun _ h => (by cases h), fun columns r' h => ?_⟩
      obtain ⟨rfl, rfl⟩ := Prod.mk.inj (Except.ok.inj h)
      rw [items_jsonArray, JsonArrayReader.ended hnext]
      simp only [hitems]
      rfl
    · have hitems := PullReader.items_cons (R := arrayObjects parseJson) (congrArg Prod.fst hnext)
      refine ⟨fun _ h => (by cases h), fun columns r' h => ?_⟩
      obtain ⟨rfl, rfl⟩ := Prod.mk.inj (Except.ok.inj h)
      have hrest : ((arrayObjects parseJson).next (JsonArrayReader.new file)).2 = r :=
        congrArg Prod.snd hnext
      rw [items_pending rfl, items_jsonArray]
      simp only [hitems, hrest]
      rfl

theorem items_of_yields {records : List (List Bytes)} (h : r.Yields records) :
    csvRecords.items r = (records, none) := by
  induction records generalizing r with
  | nil => exact PullReader.items_end h
  | cons record records ih =>
    rw [PullReader.items_cons h.1]
    show (record :: (csvRecords.items r.nextRecord.2).1, (csvRecords.items r.nextRecord.2).2) = _
    rw [ih h.2]

/-- The records of an exported file are its rows. -/
theorem recordsOf_csvLines (header : List Bytes) (rows : List (List Bytes)) :
    recordsOf parseJson .csv ⟨csvLines (header :: rows), none⟩ = (rows.map readBack, none) := by
  unfold recordsOf
  rw [items_of_yields (yields_csvLines (header :: rows))]
  rfl

end Records

end RedDb.Transfer
