import RedDb.Transfer.CsvText

/-!
# RedDb — the export writer

One writer frames every streamed export. Here its CSV framing, and its spreadsheet framing
over the sheet that is spooled row by row and refuses rows at the format's limit.

* `csv_export_reads_back` — the records of a CSV export are read back by the importer;
* `sheet_counts` — what a workbook holds and what its export reports;
* `workbook_accounts_iff` — the report is right exactly below the limit.
-/

namespace RedDb.Transfer

open ByteText RedDb.Driver

/-- Why an export holds less than was asked of it. -/
inductive ExportShortfall where
  | rowLimit

structure ExportOutcome where
  rows : Nat
  shortfall : Option ExportShortfall

/-! ## The sheet -/

def xlsxMaxRows : Nat := 1048576

def xlsxMaxCols : Nat := 16384

/-- A sheet on its way to the archive: the cells of each row pushed to the spool, the
header's row first. -/
structure XlsxSheet where
  spool : List (List Value)
  rows : Nat
  full : Bool

/-- Append one row; nothing once the limit is reached. -/
def XlsxSheet.writeRow (sheet : XlsxSheet) (cells : List Value) : XlsxSheet :=
  if sheet.full then sheet
  else
    { spool := sheet.spool ++ [cells.take xlsxMaxCols]
      rows := sheet.rows + 1
      full := xlsxMaxRows ≤ sheet.rows + 1 }

def XlsxSheet.truncated (sheet : XlsxSheet) : Bool := sheet.full

def XlsxSheet.begin (names : List Bytes) : Except String XlsxSheet :=
  if xlsxMaxCols < names.length then
    .error (toString names.length ++ " columns exceeds Excel's limit of " ++
      toString xlsxMaxCols ++ "; export CSV instead")
  else .ok (XlsxSheet.writeRow ⟨[], 0, false⟩ (names.map Value.text))

/-! ## The writer -/

inductive ExportFormat where
  | csv
  | xlsx

inductive Framing where
  | csv
  | xlsx (sheet : XlsxSheet)

structure ExportWriter where
  out : Bytes
  framing : Framing
  names : List Bytes
  written : Nat

/-- The file an export leaves. -/
inductive ExportFile where
  | text (out : Bytes)
  | workbook (sheet : List (List Value))

def ExportWriter.begin (format : ExportFormat) (names : List Bytes) : Except String ExportWriter :=
  match format with
  | .csv => .ok ⟨csvRecord names ++ [newline], .csv, names, 0⟩
  | .xlsx =>
    match XlsxSheet.begin names with
    | .error e => .error e
    | .ok sheet => .ok ⟨[], .xlsx sheet, names, 0⟩

section Writing

variable (realText : RealText)

def ExportWriter.writeRow (w : ExportWriter) (cells : List Value) : ExportWriter :=
  match w.framing with
  | .csv =>
    { w with
      out := w.out ++ (csvRecord (cells.map (csvCell realText)) ++ [newline])
      written := w.written + 1 }
  | .xlsx sheet =>
    let sheet := sheet.writeRow cells
    -- a row past the limit is not counted; the row that reaches it is not either
    if sheet.truncated then { w with framing := .xlsx sheet }
    else { w with framing := .xlsx sheet, written := w.written + 1 }

def ExportWriter.finish (w : ExportWriter) : ExportOutcome × ExportFile :=
  match w.framing with
  | .csv => (⟨w.written, none⟩, .text w.out)
  | .xlsx sheet =>
    (⟨w.written, if sheet.truncated then some .rowLimit else none⟩, .workbook sheet.spool)

/-- A whole export. -/
def exportRows (format : ExportFormat) (names : List Bytes) (rows : List (List Value)) :
    Except String (ExportOutcome × ExportFile) :=
  match ExportWriter.begin format names with
  | .error e => .error e
  | .ok w => .ok (rows.foldl (ExportWriter.writeRow realText) w).finish

/-! ## CSV -/

/-- The cells of rows of texts. -/
def textRows (rows : List (List Bytes)) : List (List Value) := rows.map (List.map Value.text)

theorem textRows_cells (rows : List (List Bytes)) :
    (textRows rows).map (List.map (csvCell realText)) = rows := by
  have hrow : ∀ cells : List Bytes, (cells.map Value.text).map (csvCell realText) = cells := by
    intro cells
    rw [List.map_map]
    exact List.map_id cells
  unfold textRows
  rw [List.map_map]
  exact (List.map_congr_left fun cells _ => hrow cells).trans (List.map_id rows)

theorem writeRows_csv (rows : List (List Value)) (out : Bytes) (names : List Bytes) (n : Nat) :
    rows.foldl (ExportWriter.writeRow realText) ⟨out, .csv, names, n⟩ =
      ⟨out ++ csvLines (rows.map (List.map (csvCell realText))), .csv, names, n + rows.length⟩ := by
  induction rows generalizing out n with
  | nil => rw [List.map_nil, csvLines, List.flatMap_nil, List.append_nil]; rfl
  | cons cells rows ih =>
    show rows.foldl (ExportWriter.writeRow realText)
      ⟨out ++ (csvRecord (cells.map (csvCell realText)) ++ [newline]), .csv, names, n + 1⟩ = _
    rw [ih, List.map_cons, csvLines_cons, List.length_cons, List.append_assoc, List.append_assoc,
      List.singleton_append, Nat.add_assoc, Nat.add_comm 1]

/-- A CSV export is the lines of its header and its rows. -/
theorem exportRows_csv (header : List Bytes) (rows : List (List Value)) :
    (exportRows realText .csv header rows).toOption = some (⟨rows.length, none⟩,
        .text (csvLines (header :: rows.map (List.map (csvCell realText))))) := by
  show some (rows.foldl (ExportWriter.writeRow realText)
    ⟨csvRecord header ++ [newline], .csv, header, 0⟩).finish = _
  rw [writeRows_csv, csvLines_cons, List.append_assoc, List.singleton_append, Nat.zero_add]
  rfl

/-- **A CSV export of texts is read back by the importer**, the header first and one record a
row; a record without cells comes back as one empty cell. -/
theorem csv_export_reads_back (header : List Bytes) (rows : List (List Bytes)) :
    ∃ out, (exportRows realText .csv header (textRows rows)).toOption =
        some (⟨rows.length, none⟩, .text out) ∧
      (CsvReader.new ⟨out, none⟩).Yields (readBack header :: rows.map readBack) := by
  refine ⟨csvLines (header :: rows), ?_, yields_csvLines (header :: rows)⟩
  rw [exportRows_csv, textRows_cells, textRows, List.length_map]

end Writing

/-- A result without columns: its rows are read back as one empty cell each. -/
theorem cellless_row_gains_cell :
    ∃ out, (exportRows (fun _ => []) .csv [] (textRows [[]])).toOption =
        some (⟨1, none⟩, .text out) ∧ ¬(CsvReader.new ⟨out, none⟩).Yields [[], []] ∧
      (CsvReader.new ⟨out, none⟩).Yields [[[]], [[]]] := by
  refine ⟨[newline, newline], rfl, ?_, ?_⟩
  · intro h
    have hfirst : Except.ok (some [[]]) = Except.ok (ε := String) (some ([] : List Bytes)) := h.1
    injection hfirst with hfirst
    injection hfirst with hfirst
    cases hfirst
  · exact ⟨rfl, rfl, rfl⟩

/-! ## The workbook -/

/-- What a writer holds after `n` rows of a workbook. -/
structure SheetAt (names : List Bytes) (rows : List (List Value)) (w : ExportWriter)
    (sheet : XlsxSheet) : Prop where
  framing : w.framing = .xlsx sheet
  spool : sheet.spool =
    (names.map Value.text :: rows.map (List.take xlsxMaxCols)).take xlsxMaxRows
  counted : sheet.rows = min (rows.length + 1) xlsxMaxRows
  full : sheet.full = decide (xlsxMaxRows ≤ rows.length + 1)
  written : w.written = min rows.length (xlsxMaxRows - 2)

theorem sheetAt_begin {names : List Bytes} {w : ExportWriter}
    (h : (ExportWriter.begin .xlsx names).toOption = some w) :
    ∃ sheet, SheetAt names [] w sheet := by
  unfold ExportWriter.begin XlsxSheet.begin at h
  by_cases hwide : xlsxMaxCols < names.length
  · rw [if_pos hwide] at h
    cases h
  rw [if_neg hwide] at h
  obtain rfl := Option.some.inj h
  have hcut : (names.map Value.text).take xlsxMaxCols = names.map Value.text :=
    List.take_of_length_le (by rw [List.length_map]; omega)
  refine ⟨_, rfl, ?_, rfl, rfl, rfl⟩
  show [(names.map Value.text).take xlsxMaxCols] = List.take xlsxMaxRows [names.map Value.text]
  rw [hcut]
  rfl

variable (realText : RealText) {names : List Bytes} {rows : List (List Value)} {w : ExportWriter}
  {sheet : XlsxSheet}

/-- One more row: written and counted below the limit, written and not counted where it
reaches the limit, dropped past it. -/
theorem sheetAt_writeRow (h : SheetAt names rows w sheet) (cells : List Value) :
    SheetAt names (rows ++ [cells]) (w.writeRow realText cells) (sheet.writeRow cells) := by
  have hlen : (rows ++ [cells]).length = rows.length + 1 := by simp
  have hspool : (names.map Value.text :: rows.map (List.take xlsxMaxCols)).length =
      rows.length + 1 := by simp
  by_cases hfull : xlsxMaxRows ≤ rows.length + 1
  · have hkept : sheet.full = true := by rw [h.full, decide_eq_true hfull]
    have hsheet : sheet.writeRow cells = sheet := if_pos hkept
    have hw : w.writeRow realText cells = { w with framing := .xlsx sheet } := by
      unfold ExportWriter.writeRow
      rw [h.framing]
      show (if (sheet.writeRow cells).full then _ else _) = _
      rw [hsheet, if_pos hkept]
    rw [hsheet, hw]
    refine ⟨rfl, ?_, ?_, ?_, ?_⟩
    · rw [h.spool, List.map_append, ← List.cons_append, List.take_append_of_le_length (by omega)]
    · rw [h.counted, hlen]
      omega
    · rw [hkept, hlen, decide_eq_true (by omega)]
    · show w.written = _
      rw [h.written, hlen]
      omega
  · have hopen : sheet.full = false := by rw [h.full, decide_eq_false hfull]
    have hrows : sheet.rows = rows.length + 1 := by rw [h.counted]; omega
    have hsheet : sheet.writeRow cells =
        ⟨sheet.spool ++ [cells.take xlsxMaxCols], sheet.rows + 1, xlsxMaxRows ≤ sheet.rows + 1⟩ := by
      unfold XlsxSheet.writeRow
      rw [hopen, if_neg Bool.false_ne_true]
    have hw : w.writeRow realText cells =
        { w with
          framing := .xlsx (sheet.writeRow cells)
          written := if xlsxMaxRows ≤ rows.length + 2 then w.written else w.written + 1 } := by
      unfold ExportWriter.writeRow
      rw [h.framing]
      show (if (sheet.writeRow cells).full then _ else _) = _
      rw [hsheet, hrows]
      by_cases hnext : xlsxMaxRows ≤ rows.length + 2
      · rw [if_pos (decide_eq_true hnext), if_pos hnext]
      · rw [if_neg (by simpa using hnext), if_neg hnext]
    rw [hw]
    refine ⟨rfl, ?_, ?_, ?_, ?_⟩
    · have hroom : (names.map Value.text ::
          (rows ++ [cells]).map (List.take xlsxMaxCols)).length ≤ xlsxMaxRows := by
        rw [List.length_cons, List.length_map, hlen]
        omega
      rw [hsheet, List.take_of_length_le hroom]
      show sheet.spool ++ [cells.take xlsxMaxCols] = _
      rw [h.spool, List.take_of_length_le (by omega), List.map_append]
      rfl
    · rw [hsheet, hlen]
      show sheet.rows + 1 = _
      omega
    · rw [hsheet, hlen, hrows]
    · show (if xlsxMaxRows ≤ rows.length + 2 then w.written else w.written + 1) = _
      rw [h.written, hlen]
      split <;> omega

/-- Row after row. -/
theorem sheetAt_writeRows (h : SheetAt names rows w sheet) (more : List (List Value)) :
    ∃ sheet', SheetAt names (rows ++ more) (more.foldl (ExportWriter.writeRow realText) w) sheet' := by
  induction more generalizing rows w sheet with
  | nil => exact ⟨sheet, (List.append_nil rows).symm ▸ h⟩
  | cons cells more ih =>
    obtain ⟨sheet', h'⟩ := ih (sheetAt_writeRow realText h cells)
    rw [List.append_assoc, List.singleton_append] at h'
    exact ⟨sheet', h'⟩

variable {realText}

/-- The rows of a workbook under its header. -/
def ExportFile.dataRows : ExportFile → List (List Value)
  | .text _ => []
  | .workbook sheet => sheet.drop 1

/-- What a workbook holds and what its export reports: the sheet's last row is not counted,
and a sheet that is full is reported short. -/
theorem sheet_counts {outcome : ExportOutcome} {file : ExportFile}
    (h : (exportRows realText .xlsx names rows).toOption = some (outcome, file)) :
    outcome.rows = min rows.length (xlsxMaxRows - 2) ∧
      (outcome.shortfall.isSome = true ↔ xlsxMaxRows ≤ rows.length + 1) ∧
      file.dataRows = (rows.map (List.take xlsxMaxCols)).take (xlsxMaxRows - 1) := by
  unfold exportRows at h
  cases hbegin : ExportWriter.begin .xlsx names with
  | error e =>
    rw [hbegin] at h
    cases h
  | ok w =>
    obtain ⟨sheet, h0⟩ := sheetAt_begin (w := w) (by rw [hbegin]; rfl)
    obtain ⟨sheet', hn⟩ := sheetAt_writeRows realText h0 rows
    rw [List.nil_append] at hn
    rw [hbegin] at h
    have hfinish := Option.some.inj h
    unfold ExportWriter.finish at hfinish
    rw [hn.framing] at hfinish
    obtain ⟨rfl, rfl⟩ := Prod.mk.inj hfinish
    refine ⟨hn.written, ?_, ?_⟩
    · show (if sheet'.full then some ExportShortfall.rowLimit else none).isSome = true ↔ _
      rw [hn.full]
      by_cases hfull : xlsxMaxRows ≤ rows.length + 1 <;> simp [hfull]
    · show sheet'.spool.drop 1 = _
      rw [hn.spool]
      rfl

/-- A header that fits the sheet is exported. -/
theorem exportRows_xlsx (realText : RealText) (names : List Bytes) (rows : List (List Value))
    (h : names.length ≤ xlsxMaxCols) :
    ∃ outcome file, (exportRows realText .xlsx names rows).toOption = some (outcome, file) := by
  unfold exportRows ExportWriter.begin XlsxSheet.begin
  rw [if_neg (Nat.not_lt.mpr h)]
  exact ⟨_, _, rfl⟩

/-- The report of a workbook: its count is that of the data rows in the sheet, and it is
short exactly when some row handed to the writer is missing from the sheet. -/
def Accounts (rows : List (List Value)) (outcome : ExportOutcome) (file : ExportFile) : Prop :=
  outcome.rows = file.dataRows.length ∧
    (outcome.shortfall.isSome = true ↔ file.dataRows.length < rows.length)

/-- **A workbook accounts for its rows exactly below the limit.** -/
theorem workbook_accounts_iff {outcome : ExportOutcome} {file : ExportFile}
    (h : (exportRows realText .xlsx names rows).toOption = some (outcome, file)) :
    Accounts rows outcome file ↔ rows.length + 1 < xlsxMaxRows := by
  obtain ⟨hcount, hshort, hdata⟩ := sheet_counts h
  have hlimit : xlsxMaxRows = 1048576 := rfl
  have hheld : file.dataRows.length = min (xlsxMaxRows - 1) rows.length := by
    rw [hdata, List.length_take, List.length_map]
  unfold Accounts
  rw [hcount, hshort, hheld]
  constructor
  · rintro ⟨hrows, hmissing⟩
    by_contra hfull
    have hlost := hmissing.mp (by omega)
    omega
  · intro hbelow
    constructor
    · omega
    · constructor <;> intro <;> omega

/-- One row under one column. -/
theorem one_row_accounts :
    Accounts [[.null]] ⟨1, none⟩ (.workbook [[.text (ascii "a")], [.null]]) ↔ 1 + 1 < xlsxMaxRows :=
  @workbook_accounts_iff (fun _ => []) [ascii "a"] _ _ _ (by rfl)

/-- A sheet filled to its last row: every row is in it, one is not counted, and the export is
reported short. -/
theorem full_sheet_miscounts :
    ∃ outcome file,
      (exportRows (fun _ => []) .xlsx [ascii "a"] (List.replicate 1048575 [.null])).toOption =
          some (outcome, file) ∧
        outcome.rows = 1048574 ∧ file.dataRows.length = 1048575 ∧
        outcome.shortfall.isSome = true ∧
        ¬Accounts (List.replicate 1048575 [.null]) outcome file := by
  obtain ⟨outcome, file, h⟩ := exportRows_xlsx (fun _ => []) [ascii "a"]
    (List.replicate 1048575 [.null]) (by decide)
  obtain ⟨hcount, hshort, hdata⟩ := sheet_counts h
  have hrows : (List.replicate 1048575 ([.null] : List Value)).length = 1048575 :=
    List.length_replicate
  have hheld : file.dataRows.length = 1048575 := by
    rw [hdata, List.length_take, List.length_map, hrows]
    decide
  refine ⟨outcome, file, h, ?_, hheld, ?_, ?_⟩
  · rw [hcount, hrows]
    decide
  · rw [hshort, hrows]
    decide
  · rintro ⟨hrows', -⟩
    rw [hcount, hrows, hheld] at hrows'
    exact absurd hrows' (by decide)

end RedDb.Transfer
