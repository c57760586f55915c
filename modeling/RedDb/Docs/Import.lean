import RedDb.Docs.Jobs

/-!
# RedDb — importing documents, and the counts of the jobs

The import reads a file document by document, parses each, and writes them in chunks of
500. Like the copy it returns how many documents it has written, on an error and on a
cancel too.

* `importLoop_eq` — an import writes the chunks of its source, and ends as the writing or
  else the reading does;
* `counts_iff` — the count of an import and of a copy is what the target was written,
  exactly when the write that fails, if any does, fails before its
  first document.
-/

namespace RedDb.Docs

open RedDb.Driver

/-- How an error reads. -/
def errorText : RedError → String
  | .connect msg => "connection failed: " ++ msg
  | .query msg => "query failed: " ++ msg
  | .driver msg => "driver error: " ++ msg
  | .interrupted => "query cancelled"

inductive DocImportMode where
  | insert
  | upsertOnId

def DocImportMode.onId : DocImportMode → Bool
  | .insert => false
  | .upsertOnId => true

def docImportChunk : Nat := 500

/-- What an import reads: the file, or why it cannot be opened, or why its reader cannot
begin; then the texts of its documents, one of which may be unreadable; the answers of
the cancel flag; and the driver's parser. -/
structure ImportSource where
  path : String
  file : Except String (Except String (List (Except String String)))
  cancel : Nat → Bool
  parseExtJson : String → Except RedError DocValue

def parseOneDocument (value : DocValue) : Except RedError Document :=
  match Document.fromDocValue value with
  | some d => .ok d
  | none => .error (.query "document must be a JSON object")

/-- The document of a text. -/
def ImportSource.document (src : ImportSource) (text : String) : Except RedError Document :=
  match src.parseExtJson text with
  | .error e => .error e
  | .ok value => parseOneDocument value

section Import

variable [Decimals] (m : Mongo) (onId : Bool) (src : ImportSource)

/-- The loop over the file, with the chunk that is not written yet. -/
def importLoop (docs : List (Except String String)) (chunk : List Document)
    (written docNo : Nat) (t : Target) : (Nat × Option RedError) × Target :=
  if src.cancel docNo then ((written, some .interrupted), t)
  else
    match docs with
    | [] =>
      if chunk.isEmpty then ((written, none), t)
      else
        match write m onId chunk t with
        | (.error e, t) => ((written, some e), t)
        | (.ok n, t) => ((written + n, none), t)
    | .error e :: _ =>
      ((written, some (.query ("document " ++ toString (docNo + 1) ++ ": " ++ e))), t)
    | .ok text :: rest =>
      match src.document text with
      | .error e =>
        ((written, some (.query ("document " ++ toString (docNo + 1) ++ ": " ++ errorText e))), t)
      | .ok d =>
        if docImportChunk ≤ (chunk ++ [d]).length then
          match write m onId (chunk ++ [d]) t with
          | (.error e, t) => ((written, some e), t)
          | (.ok n, t) => importLoop rest [] (written + n) (docNo + 1) t
        else importLoop rest (chunk ++ [d]) written (docNo + 1) t

def runDocImportBlocking (mode : DocImportMode) (t : Target) : (Nat × Option RedError) × Target :=
  match src.file with
  | .error e => ((0, some (.driver ("cannot open " ++ src.path ++ ": " ++ e))), t)
  | .ok (.error e) => ((0, some (.query ("read error: " ++ e))), t)
  | .ok (.ok docs) => importLoop m mode.onId src docs [] 0 0 t

/-- The chunks an import comes to write, whatever becomes of them, and what ends the
reading. -/
def importChunks (docs : List (Except String String)) (chunk : List Document) (docNo : Nat) :
    List (List Document) × Option RedError :=
  if src.cancel docNo then ([], some .interrupted)
  else
    match docs with
    | [] => (if chunk.isEmpty then [] else [chunk], none)
    | .error e :: _ => ([], some (.query ("document " ++ toString (docNo + 1) ++ ": " ++ e)))
    | .ok text :: rest =>
      match src.document text with
      | .error e =>
        ([], some (.query ("document " ++ toString (docNo + 1) ++ ": " ++ errorText e)))
      | .ok d =>
        if docImportChunk ≤ (chunk ++ [d]).length then
          ((chunk ++ [d]) :: (importChunks rest [] (docNo + 1)).1,
            (importChunks rest [] (docNo + 1)).2)
        else importChunks rest (chunk ++ [d]) (docNo + 1)

/-- The chunks of a file. -/
def ImportSource.chunks : List (List Document) :=
  match src.file with
  | .ok (.ok docs) => (importChunks src docs [] 0).1
  | _ => []

variable {m onId src}

/-- The end of a job: the error of its writing, or else that of its reading. -/
def endOf (done : (Nat × Option RedError) × Target) (reading : Option RedError) :
    (Nat × Option RedError) × Target :=
  ((done.1.1, done.1.2.or reading), done.2)

theorem writeChunks_cons_error {chunk : List Document} {chunks : List (List Document)}
    {written : Nat} {t t' : Target} {e : RedError} (h : write m onId chunk t = (.error e, t')) :
    writeChunks m onId (chunk :: chunks) written t = ((written, some e), t') := by
  rw [writeChunks, h]

theorem writeChunks_cons_ok {chunk : List Document} {chunks : List (List Document)}
    {written n : Nat} {t t' : Target} (h : write m onId chunk t = (.ok n, t')) :
    writeChunks m onId (chunk :: chunks) written t = writeChunks m onId chunks (written + n) t' := by
  rw [writeChunks, h]

/-- An import writes its chunks, and ends as the writing or else the reading does. -/
theorem importLoop_eq (docs : List (Except String String)) (chunk : List Document)
    (written docNo : Nat) (t : Target) :
    importLoop m onId src docs chunk written docNo t =
      endOf (writeChunks m onId (importChunks src docs chunk docNo).1 written t)
        (importChunks src docs chunk docNo).2 := by
  induction docs generalizing chunk written docNo t with
  | nil =>
    rw [importLoop.eq_def, importChunks.eq_def]
    by_cases hc : src.cancel docNo = true
    · rw [if_pos hc, if_pos hc]
      rfl
    rw [if_neg hc, if_neg hc]
    show (if chunk.isEmpty then _ else _) =
      endOf (writeChunks m onId (if chunk.isEmpty then [] else [chunk]) written t) none
    by_cases he : chunk.isEmpty = true
    · rw [if_pos he, if_pos he]
      rfl
    rw [if_neg he, if_neg he]
    cases hw : write m onId chunk t with
    | mk res t' =>
      cases res with
      | error e => rw [writeChunks_cons_error hw]; rfl
      | ok n => rw [writeChunks_cons_ok hw]; rfl
  | cons doc rest ih =>
    rw [importLoop.eq_def, importChunks.eq_def]
    by_cases hc : src.cancel docNo = true
    · rw [if_pos hc, if_pos hc]
      rfl
    rw [if_neg hc, if_neg hc]
    cases doc with
    | error e => rfl
    | ok text =>
      show (match src.document text with | .error e => _ | .ok d => _) = _
      cases hd : src.document text with
      | error e => simp only [hd]; rfl
      | ok d =>
        simp only [hd]
        by_cases hfull : docImportChunk ≤ (chunk ++ [d]).length
        · rw [if_pos hfull, if_pos hfull]
          cases hw : write m onId (chunk ++ [d]) t with
          | mk res t' =>
            cases res with
            | error e => rw [writeChunks_cons_error hw]; rfl
            | ok n =>
              rw [writeChunks_cons_ok hw]
              exact ih ..
        · rw [if_neg hfull, if_neg hfull]
          exact ih ..

/-- **The counts.** An import and a copy return the number of documents written to the
target exactly when the write that fails, if any does, fails before its first document. -/
theorem counts_iff {κ : Type*} [LinearOrder κ] (S : Server κ) (coll : Collection S)
    (filter : Option DocValue) (m : Mongo) (t : Target) :
    (∀ (src : ImportSource) (mode : DocImportMode),
      (runDocImportBlocking m src mode t).2.written =
          t.written + (runDocImportBlocking m src mode t).1.1 ↔
        m.FailsClean mode.onId src.chunks t.requests) ∧
      ∀ (r : Reading) (mode : DocCopyMode) (drop : Option RedError) (fuel : Nat) (run : CopyRun),
        docCopyJob r m mode drop S coll filter fuel t = some run →
          (run.target.written = t.written + run.written ↔
            m.FailsClean mode.onId (copyChunks r S coll filter fuel none 0) t.requests) := by
  constructor
  · intro src mode
    unfold runDocImportBlocking ImportSource.chunks
    cases src.file with
    | error e => exact iff_of_true rfl trivial
    | ok opened =>
      cases opened with
      | error e => exact iff_of_true rfl trivial
      | ok docs =>
        show (importLoop m mode.onId src docs [] 0 0 t).2.written =
          t.written + (importLoop m mode.onId src docs [] 0 0 t).1.1 ↔ _
        rw [importLoop_eq]
        exact writeChunks_count m mode.onId _ rfl
  · intro r mode drop fuel run h
    obtain ⟨hwritten, htarget, -, -⟩ := docCopyLoop_eq S coll filter fuel none 0 rfl h
    have hprepared : (prepareTarget m mode drop t).written = t.written ∧
        (prepareTarget m mode drop t).requests = t.requests := by
      unfold prepareTarget dropCollection refuseIfReadOnly
      split
      · cases m.readOnly with
        | true => exact ⟨rfl, rfl⟩
        | false => cases drop <;> exact ⟨rfl, rfl⟩
      · exact ⟨rfl, rfl⟩
    have hcount := writeChunks_count m mode.onId (copyChunks r S coll filter fuel none 0)
      (show (prepareTarget m mode drop t).written = t.written + 0 from hprepared.1)
    rw [hwritten, htarget, ← hprepared.2]
    exact hcount

end Import

section Miscount

local instance : Decimals := noDecimals

/-- Two documents with ids; the server does the first `replaceOne` and drops the second. -/
def twoDocs : ImportSource where
  path := "docs.ndjson"
  file := .ok (.ok [.ok "1", .ok "2"])
  cancel _ := false
  parseExtJson text := .ok (.document [("_id", .str text)])

def dropsSecond : Mongo where
  readOnly := false
  reply k := if k = 1 then some (0, .query "connection reset") else none
  fresh _ := Vector.replicate 12 0
  sameId _ _ := false

/-- The import reports nothing written, and one document is. -/
theorem import_miscounts :
    (runDocImportBlocking dropsSecond twoDocs .upsertOnId ⟨[], 0, 0⟩).1 =
        (0, some (.query "connection reset")) ∧
      (runDocImportBlocking dropsSecond twoDocs .upsertOnId ⟨[], 0, 0⟩).2.written = 1 :=
  ⟨rfl, rfl⟩

end Miscount

end RedDb.Docs
