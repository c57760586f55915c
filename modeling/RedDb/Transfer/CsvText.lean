import RedDb.Lib.Csv
import RedDb.Lib.Numerals
import RedDb.Lib.TextCodec
import RedDb.Driver.Edits

/-!
# RedDb — CSV text

The escaping that every CSV writer of the program shares, and the record reader of the
imports, which joins physical lines while a quote is open.
-/

namespace RedDb.Transfer

open ByteText RedDb.Driver

/-- The characters of CSV, as bytes. -/
def csvMarks : Csv.Marks UInt8 where
  comma := 44
  quote := 34
  cr := 13
  lf := 10
  comma_ne_quote := by decide
  comma_ne_cr := by decide
  comma_ne_lf := by decide
  quote_ne_cr := by decide
  quote_ne_lf := by decide

/-! ## Writing -/

def csvEscape (field : Bytes) : Bytes := Csv.escape csvMarks field

def csvRecord (fields : List Bytes) : Bytes := Csv.record csvMarks fields

/-- The standard library's text of a float, by its bits. -/
abbrev RealText := UInt64 → Bytes

/-- The bytes of ASCII text. -/
def asciiText (t : TextCodec.Text) : Bytes := t.map fun c => UInt8.ofNat c.toNat

def integerText (n : Int) : Bytes := asciiText (TextCodec.intText n)

def byteCount (len : Nat) : Bytes := ascii "<" ++ ByteText.decimal len ++ ascii " bytes>"

/-- `…`. -/
def ellipsis : Bytes := [0xE2, 0x80, 0xA6]

/-- One cell as a CSV field, before escaping. -/
def csvCell (realText : RealText) : Value → Bytes
  | .null => []
  | .integer n => integerText n
  | .real bits => realText bits
  | .text s => s
  | .blob b => byteCount b.length
  | .capped c => if c.blob then byteCount c.len else c.head ++ ellipsis

/-! ## Reading -/

/-- A source that is read to its end or to an error of the file or of its encoding. -/
structure SourceFile where
  text : Bytes
  failure : Option String

/-- What `read_line` returns, call after call; an error stands for the line it breaks. -/
def SourceFile.lines (file : SourceFile) : List Bytes :=
  let lines := Csv.physicalLines csvMarks file.text
  if file.failure.isSome then lines.filter fun line => line.getLast? = some newline else lines

structure CsvReader where
  lines : List Bytes
  failure : Option String
  done : Bool

def CsvReader.new (file : SourceFile) : CsvReader := ⟨file.lines, file.failure, false⟩

def parseCsvRecord (s : Bytes) : List Bytes := Csv.parse csvMarks s

def CsvReader.nextRecord (r : CsvReader) : Except String (Option (List Bytes)) × CsvReader :=
  if r.done then (.ok none, r)
  else
    match Csv.gather csvMarks [] r.lines with
    | (buf, some lines) =>
      (.ok (some (parseCsvRecord (Csv.trimLineEnd csvMarks buf))), { r with lines := lines })
    | (buf, none) =>
      match r.failure with
      | some e => (.error e, { r with lines := [] })
      | none =>
        (.ok (if buf.isEmpty then none
            else some (parseCsvRecord (Csv.trimLineEnd csvMarks buf))),
          { r with lines := [], done := true })

/-- The reader yields these records and then its end. -/
def CsvReader.Yields : CsvReader → List (List Bytes) → Prop
  | r, [] => r.nextRecord.1 = .ok none
  | r, record :: rest => r.nextRecord.1 = .ok (some record) ∧ r.nextRecord.2.Yields rest

/-- What is read where a record was written: a record with no cells is an empty line, which
is read as one empty cell. -/
def readBack (cells : List Bytes) : List Bytes := if cells.isEmpty then [[]] else cells

theorem parseCsvRecord_csvRecord (cells : List Bytes) :
    parseCsvRecord (csvRecord cells) = readBack cells := by
  cases cells with
  | nil => rfl
  | cons cell cells => exact Csv.parse_record (List.cons_ne_nil _ _)

/-- A reader at a written record reads it and stands after it. -/
theorem nextRecord_csvRecord (cells : List Bytes) (rest : Bytes) (failure : Option String) :
    CsvReader.nextRecord
        ⟨Csv.physicalLines csvMarks (csvRecord cells ++ newline :: rest), failure, false⟩ =
      (.ok (some (readBack cells)), ⟨Csv.physicalLines csvMarks rest, failure, false⟩) := by
  have hgather := Csv.gather_record (m := csvMarks) cells rest
  have htrim := Csv.trimLineEnd_record (m := csvMarks) cells
  unfold CsvReader.nextRecord
  rw [if_neg Bool.false_ne_true]
  show (match Csv.gather csvMarks []
      (Csv.physicalLines csvMarks (Csv.record csvMarks cells ++ csvMarks.lf :: rest)) with
    | (buf, some lines) => _ | (buf, none) => _) = _
  rw [hgather]
  show (Except.ok (some (parseCsvRecord (Csv.trimLineEnd csvMarks
    (Csv.record csvMarks cells ++ [csvMarks.lf])))), _) = _
  rw [htrim, ← parseCsvRecord_csvRecord cells]
  rfl

/-- The lines of some records, as a writer leaves them. -/
def csvLines (records : List (List Bytes)) : Bytes :=
  records.flatMap fun cells => csvRecord cells ++ [newline]

theorem csvLines_cons (cells : List Bytes) (records : List (List Bytes)) :
    csvLines (cells :: records) = csvRecord cells ++ newline :: csvLines records := by
  unfold csvLines
  rw [List.flatMap_cons, List.append_assoc, List.singleton_append]

/-- **Written records are read back, one record per record.** -/
theorem yields_csvLines (records : List (List Bytes)) :
    (CsvReader.new ⟨csvLines records, none⟩).Yields (records.map readBack) := by
  show CsvReader.Yields ⟨Csv.physicalLines csvMarks (csvLines records), none, false⟩ _
  induction records with
  | nil => rfl
  | cons cells records ih =>
    have hnext := nextRecord_csvRecord cells (csvLines records) none
    rw [csvLines_cons, List.map_cons]
    constructor
    · rw [hnext]
    · rw [hnext]
      exact ih

end RedDb.Transfer
