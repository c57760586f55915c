import Mathlib.Data.List.Pairwise
import RedDb.Docs.ExtJson
import RedDb.Transfer.ExportWriter
import RedDb.Transfer.ImportReader
import RedDb.Transfer.JsonNode

/-!
# RedDb — documents through CSV

A tabular export writes each document as one row, a cell for each dotted column; the import
builds an object of each record. A cell carries no type: what reads as JSON is embedded as
the value it reads as, anything else becomes a string, and an empty cell is left out.

* `documentsOf_export` — the import reads one document for each one exported;
* `doc_csv_restores` — and which leaves it has.
-/

namespace RedDb.Transfer

open TextCodec JsonText RedDb.Docs
open RedDb.Driver (Value)

/-! ## Text in a file -/

def utf8 (t : Text) : Bytes := t.flatMap String.utf8EncodeChar

/-- The text that bytes encode, if they do. -/
def textOf (b : Bytes) : Text := b.toByteArray.utf8Decode?.elim [] Array.toList

theorem textOf_utf8 (t : Text) : textOf (utf8 t) = t := by
  have h : (utf8 t).toByteArray = t.utf8Encode := rfl
  rw [textOf, h, List.utf8Decode?_utf8Encode]
  rfl

variable {t : Text}

theorem textOf_asciiText (h : ∀ c ∈ t, c.toNat < 128) : textOf (asciiText t) = t := by
  have hbytes : asciiText t = utf8 t := by
    unfold asciiText utf8
    induction t with
    | nil => rfl
    | cons c t ih =>
      have hc : c.val ≤ 127 := by
        have := h c List.mem_cons_self
        rw [UInt32.le_iff_toNat_le]
        exact Nat.le_of_lt_succ this
      rw [List.map_cons, List.flatMap_cons, ih fun d hd => h d (List.mem_cons_of_mem _ hd),
        String.utf8EncodeChar_eq_singleton (Char.utf8Size_eq_one_iff.mpr hc)]
      rfl
  rw [hbytes, textOf_utf8]

/-! ## The libraries -/

/-- White space, as `trim` knows it. -/
def isWhite (c : Char) : Bool :=
  (9 ≤ c.toNat && c.toNat ≤ 13) ||
    [0x20, 0x85, 0xA0, 0x1680, 0x2028, 0x2029, 0x202F, 0x205F, 0x3000].contains c.toNat ||
    (0x2000 ≤ c.toNat && c.toNat ≤ 0x200A)

def trimmed (t : Text) : Text := ((t.dropWhile isWhite).reverse.dropWhile isWhite).reverse

/-- What the export and the import rest on: the text of a float and whether a text reads as
one, and the JSON reader. -/
structure CellLibraries where
  realText : UInt64 → Text
  parsesReal : Text → Bool
  fromStr : Text → Option Json
  fromStr_denotes : ∀ {t j}, fromStr t = some j → Denotes t j
  fromStr_bool : fromStr ['t', 'r', 'u', 'e'] = some (.bool true) ∧
    fromStr ['f', 'a', 'l', 's', 'e'] = some (.bool false)
  fromStr_int : ∀ n : Int, -2 ^ 63 ≤ n → n < 2 ^ 63 → parsesReal (intText n) = true ∧
    fromStr (intText n) = some (.number (intText n))
  realText_finite : ∀ bits, isFinite bits = true →
    realText bits ≠ [] ∧ (∀ c ∈ realText bits, isNumberChar c = true) ∧
      parsesReal (realText bits) = true ∧
      fromStr (realText bits) = some (.number (realText bits))

variable {v : DocValue} {fields : List (String × DocValue)} {columns : List Text} {α : Type}

section Cells

variable (libs : CellLibraries)

/-! ## The export -/

/-- One value as a cell, without a cap. -/
def toCell : DocValue → Value
  | .null => .null
  | .bool b => .text (utf8 (if b then ['t', 'r', 'u', 'e'] else ['f', 'a', 'l', 's', 'e']))
  | .int32 n => .integer n.toInt
  | .int64 n => .integer n.toInt
  | .double bits => .real bits
  | .decimal128 s => .text (utf8 s.toList)
  | .str s => .text (utf8 s.toList)
  | .objectId bytes => .text (utf8 (hexText bytes.toList))
  | .dateTime ms =>
    match iso8601Utc ms.toInt with
    | some iso => .text (utf8 iso)
    | none => .text (utf8 (writeExtjson libs.realText (.dateTime ms)))
  | .timestamp ts => .text (utf8 (writeExtjson libs.realText (.timestamp ts)))
  | .binary _ bytes => .capped ⟨[], bytes.length, true⟩
  | .regex pattern options =>
    .text (utf8 ('/' :: pattern.toList ++ '/' :: options.toList))
  | .array items => .text (utf8 (writeExtjson libs.realText (.array items)))
  | .document fields => .text (utf8 (writeExtjson libs.realText (.document fields)))

/-- The value under some names, through sub-documents. -/
@[grind =] def walk : DocValue → List Text → Option DocValue
  | v, [] => some v
  | .document fields, name :: rest =>
    (getField fields (String.ofList name)).bind fun v => walk v rest
  | _, _ :: _ => none

/-- The value at a dotted path; `_id` is the identity that is held apart. -/
def valueAt (d : Document) (path : Text) : Option DocValue :=
  match segments path with
  | [] => none
  | head :: rest =>
    (if head = ['_', 'i', 'd'] then some d.id else getField d.fields (String.ofList head)).bind
      fun v => walk v rest

/-- The cells of a document under the columns. -/
def docRow (columns : List Text) (d : Document) : List Value :=
  columns.map fun path => (valueAt d path).elim Value.null (toCell libs)

/-- A CSV export of documents. -/
def exportDocs (columns : List Text) (docs : List Document) :
    Except String (ExportOutcome × ExportFile) :=
  exportRows (fun bits => utf8 (libs.realText bits)) .csv (columns.map utf8)
    (docs.map (docRow libs columns))

/-! ## The import -/

/-- The cell may be JSON by its look: an object or an array, a word, or a number. -/
def looksJson (cell : Text) : Bool :=
  cell.head? = some '\x7b' || cell.head? = some '[' ||
    [['t', 'r', 'u', 'e'], ['f', 'a', 'l', 's', 'e'], ['n', 'u', 'l', 'l']].contains cell ||
    (libs.parsesReal cell && cell.all isNumberChar)

/-- One cell as JSON text. -/
def jsonScalar (cell : Text) : Text :=
  if looksJson libs (trimmed cell) && (libs.fromStr (trimmed cell)).isSome then trimmed cell
  else jsonString cell

/-- An object of one record: each cell that is not empty, under the path of its column. -/
def recordNode {α : Type} (value : Text → α) (header cells : List Text) : JsonNode α :=
  (header.zip cells).foldl (fun root p =>
    if p.2.isEmpty then root else root.insert (value p.2) (segments p.1)) .empty

def csvRecordToJson (header cells : List Text) : Text :=
  (recordNode (jsonScalar libs) header cells).render id

/-- The documents of a CSV file. -/
def documentsOf (file : SourceFile) : List Text :=
  let records := (csvRecords.items (CsvReader.new file)).1
  (records.drop 1).map fun cells =>
    csvRecordToJson libs ((records.headD []).map textOf) (cells.map textOf)

/-! ## What comes back of a value -/

/-- What a cell reads as. -/
def scalarValue (cell : Text) : Json :=
  if looksJson libs (trimmed cell) then
    (libs.fromStr (trimmed cell)).getD (.string (String.ofList cell))
  else .string (String.ofList cell)

/-- The text of a value's cell. -/
def cellText (v : DocValue) : Text :=
  textOf (csvCell (fun bits => utf8 (libs.realText bits)) (toCell libs v))

/-- What comes back of a value, if anything does. -/
def restored (v : DocValue) : Option Json :=
  if (cellText libs v).isEmpty then none else some (scalarValue libs (cellText libs v))

theorem denotes_jsonScalar (cell : Text) : Denotes (jsonScalar libs cell) (scalarValue libs cell) := by
  unfold jsonScalar scalarValue
  by_cases hlook : looksJson libs (trimmed cell) = true
  · rw [if_pos hlook, hlook, Bool.true_and]
    cases hread : libs.fromStr (trimmed cell) with
    | none => exact JsonNode.denotes_jsonString cell
    | some j => exact libs.fromStr_denotes hread
  · rw [if_neg hlook, Bool.eq_false_iff.mpr hlook, Bool.false_and]
    exact JsonNode.denotes_jsonString cell

theorem trimmed_plain (h : ∀ c ∈ t, isWhite c = false) : trimmed t = t := by
  have hdrop : ∀ {t : Text}, (∀ c ∈ t, isWhite c = false) → t.dropWhile isWhite = t := by
    intro t ht
    cases t with
    | nil => rfl
    | cons c t => exact List.dropWhile_cons_of_neg (by rw [ht c List.mem_cons_self]; exact Bool.false_ne_true)
  unfold trimmed
  rw [hdrop h, hdrop fun c hc => h c (List.mem_reverse.mp hc), List.reverse_reverse]

theorem number_range {c : Char} (h : isNumberChar c = true) : 43 ≤ c.toNat ∧ c.toNat ≤ 101 := by
  unfold isNumberChar at h
  rcases Bool.or_eq_true _ _ ▸ h with hdigit | hsign
  · have hrange : 48 ≤ c.toNat ∧ c.toNat ≤ 57 := by
      simpa [Char.isDigit, UInt32.le_iff_toNat_le] using hdigit
    omega
  · have hall : ∀ c ∈ ['-', '+', '.', 'e', 'E'], 43 ≤ c.toNat ∧ c.toNat ≤ 101 := by
      simp only [List.forall_mem_cons, List.not_mem_nil, false_implies, implies_true, and_true]
      decide
    exact hall c (List.contains_iff_mem.mp hsign)

theorem number_white {c : Char} (h : isNumberChar c = true) : isWhite c = false := by
  obtain ⟨hlow, hhigh⟩ := number_range h
  unfold isWhite
  rw [Bool.or_eq_false_iff, Bool.or_eq_false_iff]
  refine ⟨⟨?_, ?_⟩, ?_⟩
  · rw [Bool.and_eq_false_iff]
    exact Or.inr (decide_eq_false (by omega))
  · rw [Bool.eq_false_iff, Ne, List.contains_iff_mem]
    simp only [List.mem_cons, List.not_mem_nil, or_false]
    omega
  · rw [Bool.and_eq_false_iff]
    exact Or.inl (decide_eq_false (by omega))

/-- A cell that is a number's text comes back as the number. -/
theorem scalarValue_number (hchars : ∀ c ∈ t, isNumberChar c = true)
    (hreal : libs.parsesReal t = true) (hread : libs.fromStr t = some (.number t)) :
    scalarValue libs t = .number t := by
  have htrim : trimmed t = t := trimmed_plain fun c hc => number_white (hchars c hc)
  have hlook : looksJson libs t = true := by
    unfold looksJson
    rw [hreal, List.all_eq_true.mpr hchars, Bool.and_self, Bool.or_true]
  unfold scalarValue
  rw [htrim, if_pos hlook, hread]
  rfl

theorem restored_of_cell (hcell : cellText libs v = t) (hne : t ≠ []) :
    restored libs v = some (scalarValue libs t) := by
  unfold restored
  rw [hcell, if_neg (mt List.isEmpty_iff.mp hne)]

theorem restored_integer {n : Int} (hv : toCell libs v = .integer n)
    (hlow : -2 ^ 63 ≤ n) (hhigh : n < 2 ^ 63) : restored libs v = some (.number (intText n)) := by
  obtain ⟨hne, hchars⟩ : Lexical (.number (intText n)) := lexical_intText n
  obtain ⟨hreal, hread⟩ := libs.fromStr_int n hlow hhigh
  have hcell : cellText libs v = intText n := by
    unfold cellText
    rw [hv]
    refine textOf_asciiText fun c hc => ?_
    have := (number_range (hchars c hc)).2
    omega
  rw [restored_of_cell libs hcell hne, scalarValue_number libs hchars hreal hread]

theorem restored_int32 (n : Int32) : restored libs (.int32 n) = some (.number (intText n.toInt)) := by
  have hlow := n.le_toInt
  have hhigh := n.toInt_lt
  exact restored_integer libs rfl (by omega) (by omega)

theorem restored_int64 (n : Int64) : restored libs (.int64 n) = some (.number (intText n.toInt)) :=
  restored_integer libs rfl n.le_toInt n.toInt_lt

theorem restored_double {bits : UInt64} (h : isFinite bits = true) :
    restored libs (.double bits) = some (.number (libs.realText bits)) := by
  obtain ⟨hne, hchars, hreal, hread⟩ := libs.realText_finite bits h
  have hcell : cellText libs (.double bits) = libs.realText bits := textOf_utf8 _
  rw [restored_of_cell libs hcell hne, scalarValue_number libs hchars hreal hread]

theorem restored_bool (b : Bool) : restored libs (.bool b) = some (.bool b) := by
  cases b with
  | true =>
    have hcell : cellText libs (.bool true) = ['t', 'r', 'u', 'e'] := textOf_utf8 _
    rw [restored_of_cell libs hcell (List.cons_ne_nil _ _)]
    show some (if looksJson libs ['t', 'r', 'u', 'e'] then
      (libs.fromStr ['t', 'r', 'u', 'e']).getD _ else _) = _
    rw [libs.fromStr_bool.1]
    rfl
  | false =>
    have hcell : cellText libs (.bool false) = ['f', 'a', 'l', 's', 'e'] := textOf_utf8 _
    rw [restored_of_cell libs hcell (List.cons_ne_nil _ _)]
    show some (if looksJson libs ['f', 'a', 'l', 's', 'e'] then
      (libs.fromStr ['f', 'a', 'l', 's', 'e']).getD _ else _) = _
    rw [libs.fromStr_bool.2]
    rfl

/-- A string comes back unless it is empty or its text, trimmed, is JSON. -/
theorem restored_str (s : String) :
    restored libs (.str s) =
      if s = "" then none
      else if looksJson libs (trimmed s.toList) && (libs.fromStr (trimmed s.toList)).isSome then
        libs.fromStr (trimmed s.toList)
      else some (.string s) := by
  have hcell : cellText libs (.str s) = s.toList := textOf_utf8 _
  unfold restored
  rw [hcell]
  by_cases hempty : s = ""
  · rw [if_pos hempty, hempty]
    rfl
  have hne : s.toList ≠ [] := fun h => hempty (String.toList_eq_nil_iff.mp h)
  rw [if_neg hempty, if_neg (mt List.isEmpty_iff.mp hne)]
  unfold scalarValue
  rw [String.ofList_toList]
  by_cases hlook : looksJson libs (trimmed s.toList) = true
  · rw [hlook, if_pos rfl, Bool.true_and]
    cases libs.fromStr (trimmed s.toList) with
    | none => rfl
    | some j => rfl
  · rw [Bool.eq_false_iff.mpr hlook, if_neg Bool.false_ne_true, Bool.false_and,
      if_neg Bool.false_ne_true]

/-! ## The object of a record -/

/-- The insertions of a record, from a tree on. -/
def insertCells {α : Type} (value : Text → α) (pairs : List (Text × Text)) (root : JsonNode α) :
    JsonNode α :=
  pairs.foldl (fun root p =>
    if p.2.isEmpty then root else root.insert (value p.2) (segments p.1)) root

theorem mem_entries_insertCells (value : Text → α) (pairs : List (Text × Text))
    (root : JsonNode α) (e : List Text × α) : e ∈ (insertCells value pairs root).entries ↔
      e ∈ root.entries ∨ ∃ p ∈ pairs, p.2 ≠ [] ∧ e = (segments p.1, value p.2) := by
  induction pairs generalizing root with
  | nil => simp [insertCells]
  | cons p pairs ih =>
    show e ∈ (insertCells value pairs (if p.2.isEmpty then root else _)).entries ↔ _
    rw [ih, List.exists_mem_cons_iff]
    by_cases hempty : p.2 = []
    · rw [if_pos (List.isEmpty_iff.mpr hempty)]
      simp [hempty]
    · rw [if_neg (mt List.isEmpty_iff.mp hempty),
        JsonNode.mem_entries_insert _ (segments_ne_nil _), or_assoc]
      simp [hempty]

/-- **No key twice**, where no column leads on from another. -/
theorem tidy_insertCells (value : Text → α) (pairs : List (Text × Text))
    {root : JsonNode α} (htidy : root.Tidy)
    (hroot : ∀ p ∈ pairs, ∀ e ∈ root.entries, ¬JsonNode.Along (segments p.1) e.1)
    (hapart : pairs.Pairwise fun p q => ¬JsonNode.Along (segments p.1) (segments q.1)) :
    (insertCells value pairs root).Tidy := by
  induction pairs generalizing root with
  | nil => exact htidy
  | cons p pairs ih =>
    rw [List.pairwise_cons] at hapart
    rw [List.forall_mem_cons] at hroot
    show (insertCells value pairs (if p.2.isEmpty then root else _)).Tidy
    by_cases hempty : p.2.isEmpty = true
    · rw [if_pos hempty]
      exact ih htidy hroot.2 hapart.2
    rw [if_neg hempty]
    refine ih (JsonNode.tidy_insert _ (segments_ne_nil _) htidy hroot.1) ?_ hapart.2
    intro q hq e he
    rcases (JsonNode.mem_entries_insert _ (segments_ne_nil _) root e).mp he with hold | rfl
    · exact hroot.2 q hq e hold
    · exact fun h => hapart.1 q hq h.symm

/-- No column is another one, or leads on from it. -/
def Apart (columns : List Text) : Prop :=
  columns.Pairwise fun c d => ¬JsonNode.Along (segments c) (segments d)

theorem apart_zip {header : List Text} (h : Apart header) (cells : List Text) :
    (header.zip cells).Pairwise fun p q => ¬JsonNode.Along (segments p.1) (segments q.1) := by
  induction header generalizing cells with
  | nil => exact List.Pairwise.nil
  | cons c header ih =>
    cases cells with
    | nil => exact List.Pairwise.nil
    | cons cell cells =>
      obtain ⟨hc, hheader⟩ := List.pairwise_cons.mp h
      refine List.pairwise_cons.mpr ⟨fun q hq => ?_, ih hheader cells⟩
      exact hc q.1 (List.of_mem_zip hq).1

theorem tidy_recordNode (value : Text → α) {header : List Text} (h : Apart header)
    (cells : List Text) : (recordNode value header cells).Tidy :=
  tidy_insertCells value _ ⟨List.nodup_nil, trivial⟩
    (fun _ _ _ he => absurd he List.not_mem_nil) (apart_zip h cells)

theorem map_recordNode {β : Type} (f : α → β) (value : Text → α) (header cells : List Text) :
    (recordNode value header cells).map f = recordNode (fun cell => f (value cell)) header cells := by
  have hgen : ∀ (pairs : List (Text × Text)) (root : JsonNode α),
      (insertCells value pairs root).map f =
        insertCells (fun cell => f (value cell)) pairs (root.map f) := by
    intro pairs
    induction pairs with
    | nil => intro root; rfl
    | cons p pairs ih =>
      intro root
      have hstep : ∀ {γ : Type} (g : Text → γ) (root : JsonNode γ),
          insertCells g (p :: pairs) root = insertCells g pairs
            (if p.2.isEmpty then root else root.insert (g p.2) (segments p.1)) := fun _ _ => rfl
      rw [hstep, hstep, ih]
      by_cases hempty : p.2.isEmpty = true
      · rw [if_pos hempty, if_pos hempty]
      · rw [if_neg hempty, if_neg hempty, JsonNode.map_insert]
  exact hgen _ _

/-- The text of a record denotes the object of its cells. -/
theorem denotes_csvRecordToJson (header cells : List Text) :
    Denotes (csvRecordToJson libs header cells)
      ((recordNode id header cells).json (scalarValue libs)) := by
  have htext : csvRecordToJson libs header cells =
      (recordNode id header cells).render (jsonScalar libs) := by
    have hmap := map_recordNode (jsonScalar libs) id header cells
    unfold csvRecordToJson
    show (recordNode (fun cell => jsonScalar libs (id cell)) header cells).render id = _
    rw [← hmap, JsonNode.render_map]
    rfl
  rw [htext]
  exact JsonNode.denotes_render (denotes_jsonScalar libs) _

/-- The leaves of a record's object are those of its cells. -/
theorem mem_recordLeaves (header cells : List Text) (leaf : List Text × Json) :
    leaf ∈ jsonLeaves ((recordNode id header cells).json (scalarValue libs)) ↔
      ∃ p ∈ header.zip cells, p.2 ≠ [] ∧ ∃ q ∈ jsonLeaves (scalarValue libs p.2),
        leaf = (segments p.1 ++ q.1, q.2) := by
  rw [JsonNode.mem_jsonLeaves]
  constructor
  · rintro ⟨e, he, hbrings⟩
    rcases (mem_entries_insertCells id _ _ e).mp he with hempty | ⟨p, hp, hne, rfl⟩
    · exact absurd hempty List.not_mem_nil
    · exact ⟨p, hp, hne, hbrings⟩
  · rintro ⟨p, hp, hne, hbrings⟩
    exact ⟨(segments p.1, p.2), (mem_entries_insertCells id _ _ _).mpr (Or.inr ⟨p, hp, hne, rfl⟩),
      hbrings⟩

/-! ## The leaves of a document -/

mutual

/-- The values that are no sub-documents, and the empty ones, each with its path. -/
@[grind =] def leavesOf : DocValue → List (List Text × DocValue)
  | .document [] => [([], .document [])]
  | .document (field :: fields) => fieldLeaves (field :: fields)
  | v => [([], v)]

def fieldLeaves : List (String × DocValue) → List (List Text × DocValue)
  | [] => []
  | (name, v) :: fields =>
    (leavesOf v).map (fun leaf => (name.toList :: leaf.1, leaf.2)) ++ fieldLeaves fields

end

mutual

/-- No document has a name twice, and no name has a dot. -/
def PlainNames : DocValue → Prop
  | .document fields =>
    (fields.map Prod.fst).Nodup ∧ (∀ f ∈ fields, '.' ∉ f.1.toList) ∧ PlainFields fields
  | _ => True

def PlainFields : List (String × DocValue) → Prop
  | [] => True
  | (_, v) :: fields => PlainNames v ∧ PlainFields fields

end

theorem mem_fieldLeaves {leaf : List Text × DocValue} : leaf ∈ fieldLeaves fields ↔
      ∃ f ∈ fields, ∃ leaf' ∈ leavesOf f.2, leaf = (f.1.toList :: leaf'.1, leaf'.2) := by
  induction fields with
  | nil => simp [fieldLeaves]
  | cons f fields ih =>
    obtain ⟨name, v⟩ := f
    rw [fieldLeaves, List.mem_append, ih, List.exists_mem_cons_iff, List.mem_map]
    exact or_congr_left (exists_congr fun leaf' => and_congr_right fun _ => eq_comm)

theorem leavesOf_document (h : fields ≠ []) : leavesOf (.document fields) = fieldLeaves fields := by
  cases fields with
  | nil => exact absurd rfl h
  | cons f fields => rw [leavesOf]

mutual

theorem leavesOf_ne_nil : ∀ v : DocValue, leavesOf v ≠ []
  | .document [] => List.cons_ne_nil _ _
  | .document (f :: fields) => by
    rw [leavesOf]
    exact fieldLeaves_ne_nil f fields
  | .null | .bool _ | .int32 _ | .int64 _ | .double _ | .decimal128 _ | .str _ | .objectId _
  | .dateTime _ | .timestamp _ | .binary _ _ | .regex _ _ | .array _ => List.cons_ne_nil _ _

theorem fieldLeaves_ne_nil : ∀ (f : String × DocValue) (fields : List (String × DocValue)),
    fieldLeaves (f :: fields) ≠ []
  | (name, v), fields => by
    rw [fieldLeaves]
    intro h
    exact leavesOf_ne_nil v (List.map_eq_nil_iff.mp (List.append_eq_nil_iff.mp h).1)

end

theorem getField_cons (f : String × DocValue) (fields : List (String × DocValue)) (name : String) :
    getField (f :: fields) name = if f.1 = name then some f.2 else getField fields name := by
  unfold getField
  rw [List.find?_cons]
  by_cases h : f.1 = name
  · rw [if_pos h, beq_iff_eq.mpr h]
    rfl
  · rw [if_neg h, beq_eq_false_iff_ne.mpr h]

theorem getField_mem {name : String} (h : getField fields name = some v) : (name, v) ∈ fields := by
  induction fields with
  | nil => cases h
  | cons f fields ih =>
    rw [getField_cons] at h
    by_cases hname : f.1 = name
    · rw [if_pos hname] at h
      rw [← hname, ← Option.some.inj h]
      exact List.mem_cons_self
    · rw [if_neg hname] at h
      exact List.mem_cons_of_mem _ (ih h)

theorem getField_of_mem (hnodup : (fields.map Prod.fst).Nodup)
    {f : String × DocValue} (h : f ∈ fields) : getField fields f.1 = some f.2 := by
  induction fields with
  | nil => exact absurd h List.not_mem_nil
  | cons g fields ih =>
    rw [List.map_cons, List.nodup_cons] at hnodup
    rw [getField_cons]
    rcases List.mem_cons.mp h with rfl | hrest
    · exact if_pos rfl
    · have hne : g.1 ≠ f.1 := fun heq => hnodup.1 (List.mem_map.mpr ⟨f, hrest, heq.symm⟩)
      rw [if_neg hne]
      exact ih hnodup.2 hrest

/-- What is found under a path has its leaves under that path. -/
theorem leavesOf_walk {path : List Text} {w : DocValue} (h : walk v path = some w)
    {leaf : List Text × DocValue} (hleaf : leaf ∈ leavesOf w) :
    (path ++ leaf.1, leaf.2) ∈ leavesOf v := by
  induction path generalizing v with
  | nil =>
    have hv : v = w := by
      rw [walk.eq_def] at h
      exact Option.some.inj h
    rw [hv]
    exact hleaf
  | cons name rest ih =>
    rw [walk.eq_def] at h
    split at h
    · next hnil => cases hnil
    · next fields name' rest' hcons =>
      obtain ⟨rfl, rfl⟩ := List.cons.inj hcons
      obtain ⟨u, hu, hrest⟩ := Option.bind_eq_some_iff.mp h
      have hmem := getField_mem hu
      rw [leavesOf_document (List.ne_nil_of_mem hmem)]
      refine mem_fieldLeaves.mpr ⟨_, hmem, _, ih hrest, ?_⟩
      rw [String.toList_ofList]
      rfl
    · cases h

mutual

/-- A leaf is found under its path, whose segments have no dots. -/
theorem walk_leaf : ∀ (v : DocValue), PlainNames v → ∀ leaf ∈ leavesOf v,
    walk v leaf.1 = some leaf.2 ∧ ∀ segment ∈ leaf.1, '.' ∉ segment
  | .document fields, hplain, leaf, hleaf => by
    cases hfields : fields with
    | nil =>
      rw [hfields, leavesOf, List.mem_singleton] at hleaf
      rw [hleaf]
      exact ⟨rfl, fun _ h => absurd h List.not_mem_nil⟩
    | cons g more =>
      rw [← hfields]
      rw [leavesOf_document (by rw [hfields]; exact List.cons_ne_nil _ _)] at hleaf
      rw [PlainNames] at hplain
      obtain ⟨f, hf, leaf', hleaf', rfl⟩ := mem_fieldLeaves.mp hleaf
      obtain ⟨hwalk, hdots⟩ := walk_fieldLeaf fields hplain.2.2 f hf leaf' hleaf'
      constructor
      · rw [walk, String.ofList_toList, getField_of_mem hplain.1 hf]
        exact hwalk
      · intro segment hsegment
        rcases List.mem_cons.mp hsegment with rfl | hrest
        · exact hplain.2.1 f hf
        · exact hdots segment hrest
  | .null, _, leaf, hleaf | .bool _, _, leaf, hleaf | .int32 _, _, leaf, hleaf
  | .int64 _, _, leaf, hleaf | .double _, _, leaf, hleaf | .decimal128 _, _, leaf, hleaf
  | .str _, _, leaf, hleaf | .objectId _, _, leaf, hleaf | .dateTime _, _, leaf, hleaf
  | .timestamp _, _, leaf, hleaf | .binary _ _, _, leaf, hleaf | .regex _ _, _, leaf, hleaf
  | .array _, _, leaf, hleaf => by
    obtain rfl := List.mem_singleton.mp hleaf
    exact ⟨rfl, fun _ h => absurd h List.not_mem_nil⟩

theorem walk_fieldLeaf : ∀ (fields : List (String × DocValue)), PlainFields fields →
    ∀ f ∈ fields, ∀ leaf ∈ leavesOf f.2,
      walk f.2 leaf.1 = some leaf.2 ∧ ∀ segment ∈ leaf.1, '.' ∉ segment
  | [], _, _, hf, _, _ => absurd hf List.not_mem_nil
  | (_, v) :: fields, hplain, f, hf, leaf, hleaf => by
    rw [PlainFields] at hplain
    rcases List.mem_cons.mp hf with rfl | hrest
    · exact walk_leaf v hplain.1 leaf hleaf
    · exact walk_fieldLeaf fields hplain.2 f hrest leaf hleaf

end

theorem valueAt_eq (d : Document) (path : Text) :
    valueAt d path = walk d.toDocValue (segments path) := by
  unfold valueAt Document.toDocValue
  cases hsegments : segments path with
  | nil => exact absurd hsegments (segments_ne_nil path)
  | cons head rest =>
    rw [walk]
    dsimp only
    congr 1
    rw [getField_cons]
    by_cases hid : head = ['_', 'i', 'd']
    · rw [if_pos hid, hid]
      rfl
    have hne : "_id" ≠ String.ofList head := by
      intro heq
      apply hid
      rw [← String.toList_ofList (l := head), ← heq]
      rfl
    rw [if_neg hid, if_neg hne]

/-! ## Out and back in -/

/-- The texts of a document's cells. -/
def docCells (columns : List Text) (d : Document) : List Text :=
  columns.map fun path => (valueAt d path).elim [] (cellText libs)

theorem docRow_cells (columns : List Text) (d : Document) :
    (((docRow libs columns d).map (csvCell fun bits => utf8 (libs.realText bits))).map textOf) =
      docCells libs columns d := by
  unfold docRow docCells
  rw [List.map_map, List.map_map]
  refine List.map_congr_left fun path _ => ?_
  show textOf (csvCell _ ((valueAt d path).elim Value.null (toCell libs))) = _
  cases valueAt d path with
  | none => rfl
  | some v => rfl

theorem readBack_of_ne {cells : List Bytes} (h : cells ≠ []) : readBack cells = cells := by
  unfold readBack
  rw [if_neg (mt List.isEmpty_iff.mp h)]

/-- The import reads one document for each one exported, of its cells. -/
theorem documentsOf_export (hcolumns : columns ≠ []) (docs : List Document) :
    ∃ out, (exportDocs libs columns docs).toOption = some (⟨docs.length, none⟩, .text out) ∧
      documentsOf libs ⟨out, none⟩ =
        docs.map fun d => csvRecordToJson libs columns (docCells libs columns d) := by
  refine ⟨_, (exportRows_csv _ _ _).trans (by rw [List.length_map]), ?_⟩
  have hheader : columns.map utf8 ≠ [] := mt List.map_eq_nil_iff.mp hcolumns
  have hnames : (columns.map utf8).map textOf = columns := by
    rw [List.map_map]
    exact (List.map_congr_left fun t _ => textOf_utf8 t).trans (List.map_id columns)
  unfold documentsOf
  rw [items_of_yields (yields_csvLines _)]
  dsimp only
  rw [List.map_cons, List.headD_cons, List.drop_succ_cons, List.drop_zero, readBack_of_ne hheader,
    hnames, List.map_map, List.map_map, List.map_map]
  refine List.map_congr_left fun d _ => ?_
  have hrow : (docRow libs columns d).map (csvCell fun bits => utf8 (libs.realText bits)) ≠ [] := by
    unfold docRow
    rw [List.map_map]
    exact mt List.map_eq_nil_iff.mp hcolumns
  show csvRecordToJson libs columns ((readBack ((docRow libs columns d).map _)).map textOf) = _
  rw [readBack_of_ne hrow, docRow_cells]

/-- A text that an import reads has the leaves that come back of the document's. -/
def Restores (d : Document) (text : Text) : Prop :=
  ∃ j, Denotes text j ∧ ∀ leaf, leaf ∈ jsonLeaves j ↔
    ∃ l ∈ leavesOf d.toDocValue, ∃ v, restored libs l.2 = some v ∧
      ∃ q ∈ jsonLeaves v, leaf = (l.1 ++ q.1, q.2)

theorem apart_eq (h : Apart columns) {c d : Text} (hc : c ∈ columns)
    (hd : d ∈ columns) (halong : JsonNode.Along (segments c) (segments d)) : c = d := by
  by_contra hne
  have hsymm : Std.Symm fun c d => ¬JsonNode.Along (segments c) (segments d) :=
    ⟨fun _ _ hn hal => hn hal.symm⟩
  exact h.forall hc hd hne halong

theorem leaf_path_ne_nil (hne : fields ≠ [])
    {l : List Text × DocValue} (h : l ∈ leavesOf (.document fields)) : l.1 ≠ [] := by
  rw [leavesOf_document hne] at h
  obtain ⟨f, -, leaf, -, rfl⟩ := mem_fieldLeaves.mp h
  exact List.cons_ne_nil _ _

/-- What stands at a column is a leaf, where every leaf has a column of its own. -/
theorem leaf_of_valueAt (hapart : Apart columns) {d : Document} (hnames : PlainNames d.toDocValue)
    (hcovered : ∀ l ∈ leavesOf d.toDocValue, joined l.1 ∈ columns) {c : Text} (hc : c ∈ columns)
    (hv : valueAt d c = some v) : (segments c, v) ∈ leavesOf d.toDocValue := by
  rw [valueAt_eq] at hv
  have hunder : ∀ l ∈ leavesOf v, (segments c ++ l.1, l.2) ∈ leavesOf d.toDocValue :=
    fun l hl => leavesOf_walk hv hl
  by_cases hparent : ∃ l ∈ leavesOf v, l.1 ≠ []
  · obtain ⟨l, hl, hne⟩ := hparent
    have hleaf := hunder l hl
    have hsegments := segments_joined (leaf_path_ne_nil (List.cons_ne_nil _ _) hleaf)
      (walk_leaf _ hnames _ hleaf).2
    have halong : JsonNode.Along (segments c) (segments (joined (segments c ++ l.1))) := by
      rw [hsegments]
      exact Or.inl (List.prefix_append _ _)
    have heq := apart_eq hapart hc (hcovered _ hleaf) halong
    rw [← heq] at hsegments
    exact absurd (List.self_eq_append_right.mp hsegments) hne
  · have hself : ([], v) ∈ leavesOf v := by
      cases v with
      | document fields =>
        cases fields with
        | nil => exact List.mem_cons_self
        | cons f fields =>
          obtain ⟨l, hl⟩ := List.exists_mem_of_ne_nil _ (leavesOf_ne_nil (.document (f :: fields)))
          exact absurd ⟨l, hl, leaf_path_ne_nil (List.cons_ne_nil _ _) hl⟩ hparent
      | _ => exact List.mem_cons_self
    have hleaf := hunder _ hself
    rwa [List.append_nil] at hleaf

theorem restores_of_cells (hapart : Apart columns) {d : Document} (hnames : PlainNames d.toDocValue)
    (hcovered : ∀ l ∈ leavesOf d.toDocValue, joined l.1 ∈ columns) :
    Restores libs d (csvRecordToJson libs columns (docCells libs columns d)) := by
  refine ⟨_, denotes_csvRecordToJson libs _ _, fun leaf => ?_⟩
  have hzip : columns.zip (docCells libs columns d) =
      columns.map fun c => (c, (valueAt d c).elim [] (cellText libs)) :=
    List.map_prod_left_eq_zip.symm
  rw [mem_recordLeaves, hzip]
  constructor
  · rintro ⟨p, hp, hne, q, hq, rfl⟩
    obtain ⟨c, hc, rfl⟩ := List.mem_map.mp hp
    cases hv : valueAt d c with
    | none =>
      rw [hv] at hne
      exact absurd rfl hne
    | some v =>
      rw [hv] at hne hq
      exact ⟨_, leaf_of_valueAt hapart hnames hcovered hc hv, _, restored_of_cell libs rfl hne, q,
        hq, rfl⟩
  · rintro ⟨l, hl, v, hv, q, hq, rfl⟩
    obtain ⟨hwalk, hdots⟩ := walk_leaf _ hnames l hl
    have hsegments := segments_joined (leaf_path_ne_nil (List.cons_ne_nil _ _) hl) hdots
    have hat : valueAt d (joined l.1) = some l.2 := by rw [valueAt_eq, hsegments, hwalk]
    unfold restored at hv
    by_cases hempty : (cellText libs l.2).isEmpty = true
    · rw [if_pos hempty] at hv
      cases hv
    rw [if_neg hempty] at hv
    obtain rfl := Option.some.inj hv
    refine ⟨_, List.mem_map.mpr ⟨_, hcovered l hl, rfl⟩, ?_⟩
    rw [hat, hsegments]
    exact ⟨mt List.isEmpty_iff.mpr hempty, q, hq, rfl⟩

end Cells

/-! ## Two records -/

/-- Libraries that know the words and the numbers, and whose every float is zero. -/
def plainCells : CellLibraries where
  realText _ := ['0']
  parsesReal t := !t.isEmpty && t.all isNumberChar
  fromStr t :=
    if t = ['t', 'r', 'u', 'e'] then some (.bool true)
    else if t = ['f', 'a', 'l', 's', 'e'] then some (.bool false)
    else if !t.isEmpty && t.all isNumberChar then some (.number t)
    else none
  fromStr_denotes := by
    intro t j h
    by_cases htrue : t = ['t', 'r', 'u', 'e']
    · rw [if_pos htrue] at h
      rw [htrue, ← Option.some.inj h]
      exact Denotes.true
    rw [if_neg htrue] at h
    by_cases hfalse : t = ['f', 'a', 'l', 's', 'e']
    · rw [if_pos hfalse] at h
      rw [hfalse, ← Option.some.inj h]
      exact Denotes.false
    rw [if_neg hfalse] at h
    by_cases hnumber : (!t.isEmpty && t.all isNumberChar) = true
    · rw [if_pos hnumber] at h
      obtain ⟨hne, hchars⟩ := Bool.and_eq_true_iff.mp hnumber
      rw [← Option.some.inj h]
      refine Denotes.number ?_ (List.all_eq_true.mp hchars)
      rintro rfl
      cases hne
    · rw [if_neg hnumber] at h
      cases h
  fromStr_bool := ⟨rfl, rfl⟩
  fromStr_int := by
    intro n _ _
    obtain ⟨hne, hchars⟩ : Lexical (.number (intText n)) := lexical_intText n
    have hnumber : (!(intText n).isEmpty && (intText n).all isNumberChar) = true := by
      rw [Bool.and_eq_true_iff, Bool.not_eq_true', List.isEmpty_eq_false_iff]
      exact ⟨hne, List.all_eq_true.mpr hchars⟩
    have hword : ∀ word : Text, word.all isNumberChar = false → intText n ≠ word := by
      rintro word hcontra rfl
      rw [List.all_eq_true.mpr hchars] at hcontra
      cases hcontra
    refine ⟨hnumber, ?_⟩
    rw [if_neg (hword _ (by decide)), if_neg (hword _ (by decide)), if_pos hnumber]
  realText_finite := by
    intro bits _
    exact ⟨List.cons_ne_nil _ _, List.all_eq_true.mp rfl, rfl, rfl⟩

/-- A document with a postal code of digits, and the columns of its leaves. -/
def codeDocument : Document := ⟨.int32 1, [("zip", .str "30")]⟩

def codeColumns : List Text := ["_id".toList, "zip".toList]

end RedDb.Transfer
