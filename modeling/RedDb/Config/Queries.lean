import Mathlib
import RedDb.Lib.Delimited
import RedDb.Lib.TextLines
import RedDb.Transfer.DocCsv

/-!
# RedDb — saved queries

Queries that are kept, one file each, named by a slug of the query's name. A SQL file carries
its name, description and tags in comments in front of the statements; a document query's file
is a JSON object around the query. Saving strips the managed lines a text begins with and writes
the name and the description anew.

* `readHeader` — what the comments at the head of a file say;
* `stripManagedHeader` — a text without them;
* `slug` — the name of the file;
* `save`, `load`         — a query into its file and the files as entries.
-/

namespace RedDb.Config.Queries

open TextCodec JsonText Delimited
open RedDb.Transfer (isWhite)

/-! ## Texts -/

abbrev trim (t : Text) : Text := TextLines.trim isWhite t

abbrev trimEnd (t : Text) : Text := TextLines.trimEnd isWhite t

abbrev lines (t : Text) : List Text := TextLines.lines '\n' '\r' t

def stripPrefix (p t : Text) : Option Text := if p <+: t then some (t.drop p.length) else none

def stripSuffix (s t : Text) : Option Text :=
  if s <:+ t then some (t.take (t.length - s.length)) else none

def dashes : Text := ['-', '-']

def nameKey : Text := "name:".toList

def descriptionKey : Text := "description:".toList

def tagsKey : Text := "tags:".toList

/-- A file-system safe stem for a name. -/
def slug (name : Text) : Text :=
  let s := name.map fun c => if c.isAlphanum then c.toLower else '-'
  let trimmed := (s.dropWhile (· == '-')).rdropWhile (· == '-')
  if trimmed = [] then "query".toList else trimmed

def unslug (stem : Text) : Text :=
  let trimmed := trim (stem.map fun c => if c = '-' ∨ c = '_' then ' ' else c)
  if trimmed = [] then stem else trimmed

/-! ## Entries and files -/

inductive SavedQueryKind where
  | sql
  | doc
  deriving DecidableEq

structure SavedQuery where
  name : Text
  description : Option Text
  tags : List Text
  sql : Text
  kind : SavedQueryKind
  ns : Option Text
  path : Text
  deriving DecidableEq

/-- A file of the queries directory; one that cannot be read as text has no contents. -/
structure File where
  name : Text
  contents : Option Text

abbrev Dir := List File

/-- The file of the name is this one now. -/
def Dir.put (dir : Dir) (name contents : Text) : Dir :=
  dir.filter (fun f => f.name ≠ name) ++ [⟨name, some contents⟩]

/-- The temporary file is written and renamed over the other. -/
def writeQueryFile (pid : Text) (dir : Dir) (fileName contents : Text) : Dir :=
  let tmp := fileName ++ ".tmp.".toList ++ pid
  let written := dir.put tmp contents
  Dir.put (written.filter fun f => f.name ≠ tmp) fileName contents

/-- What the queries rest on: the JSON library, and the lower case of a text. `kept` is what
comes of a value that is printed and read again, and `Value` says that the library has it. -/
structure Libraries where
  toLowercase : Text → Text
  fromStr : Text → Option Json
  pretty : Json → Text
  kept : Json → Json
  Value : Json → Prop
  value_fromStr : ∀ {t j}, fromStr t = some j → Value j
  value_object : ∀ {ms : List (String × Json)}, (ms.map Prod.fst).Nodup → (∀ m ∈ ms, Value m.2) →
    Value (.object ms)
  value_string : ∀ s, Value (.string s)
  value_kept : ∀ {j}, Value j → Value (kept j)
  fromStr_pretty : ∀ {j}, Value j → fromStr (pretty j) = some (kept j)
  fromStr_line : ∀ {j}, Value j → fromStr (pretty j ++ ['\n']) = some (kept j)
  fromStr_trim : ∀ {t j}, fromStr t = some j → fromStr (trim t) = some j
  kept_object : ∀ {ms : List (String × Json)}, (ms.map Prod.fst).Nodup → kept (.object ms) = .object (ms.map fun m => (m.1, kept m.2))
  kept_string : ∀ s, kept (.string s) = .string s

def asObject : Json → Option (List (String × Json))
  | .object ms => some ms
  | _ => none

def asStr : Json → Option Text
  | .string s => some s.toList
  | _ => none

def asArray : Json → Option (List Json)
  | .array items => some items
  | _ => none

def get (key : String) (obj : List (String × Json)) : Option Json :=
  (obj.find? fun m => m.1 == key).map Prod.snd

/-! ## SQL files -/

/-- What the header lines of a file say. -/
structure Header where
  name : Option Text
  description : Option Text
  tags : List Text

/-- The lines are read up to the first that is neither blank nor managed. -/
@[grind =] def readHeader (h : Header) : List Text → Header
  | [] => h
  | line :: rest =>
    let trimmed := trim line
    if trimmed = [] then readHeader h rest
    else match stripPrefix dashes trimmed with
      | none => h
      | some comment =>
        let comment := trim comment
        match stripPrefix nameKey comment with
        | some v => readHeader { h with name := some (trim v) } rest
        | none =>
          match stripPrefix descriptionKey comment with
          | some v =>
            readHeader { h with description := some (trim v) |>.filter fun s => !s.isEmpty } rest
          | none =>
            match stripPrefix tagsKey comment with
            | some v =>
              readHeader { h with tags := ((v.splitOn ',').map trim).filter fun t => !t.isEmpty } rest
            | none => h

def parseSavedQuery (stem contents path : Text) : SavedQuery :=
  let h := readHeader ⟨none, none, []⟩ (lines contents)
  { name := (h.name.filter fun s => !s.isEmpty).getD (unslug stem)
    description := h.description
    tags := h.tags
    sql := contents
    kind := .sql
    ns := none
    path := path }

/-- A line that `stripManagedHeader` drops at the head of a text. -/
def inHeader (line : Text) : Bool :=
  let trimmed := trim line
  trimmed.isEmpty ||
    match stripPrefix dashes trimmed with
    | none => false
    | some comment =>
      let comment := trim comment
      nameKey <+: comment || descriptionKey <+: comment || tagsKey <+: comment

def stripManagedHeader (sql : Text) : Text :=
  ['\n'].intercalate ((lines sql).dropWhile inHeader)

/-- A description that says something. -/
def filled (t : Option Text) : Option Text := (t.map trim).filter fun d => !d.isEmpty

def sqlSuffix : Text := ".sql".toList

def docSuffix : Text := ".mongo.json".toList

def sqlHeader (name : Text) (description : Option Text) : Text :=
  "-- name: ".toList ++ trim name ++ ['\n'] ++
    match filled description with
    | some desc => "-- description: ".toList ++ desc ++ ['\n', '\n']
    | none => ['\n']

def sqlContents (name : Text) (description : Option Text) (sql : Text) : Text :=
  sqlHeader name description ++ trimEnd (stripManagedHeader sql) ++ ['\n']

/-! ## Document files -/

section Docs

variable (L : Libraries)

/-- The members of a document file. -/
def wrapper (name : Text) (description ns : Option Text) (parsed : Json) : List (String × Json) :=
  [("name", .string (String.ofList (trim name)))] ++
    ((filled description).map fun d => ("description", Json.string (String.ofList d))).toList ++
    ((filled ns).map fun n => ("namespace", Json.string (String.ofList n))).toList ++
    [("query", parsed)]

/-- The contents of a document file; a query that is not JSON has none. -/
def docContents (name : Text) (description ns : Option Text) (query : Text) : Option Text :=
  (L.fromStr (trim query)).map fun parsed =>
    L.pretty (.object (wrapper name description ns parsed)) ++ ['\n']

def parseDocQuery (stem contents path : Text) : Option SavedQuery :=
  (L.fromStr contents).bind fun value =>
  (asObject value).bind fun obj =>
  (get "query" obj).map fun query =>
    { name := (((get "name" obj).bind asStr).filter fun s => !s.isEmpty).getD (unslug stem)
      description := ((get "description" obj).bind asStr).filter fun s => !s.isEmpty
      tags := ((get "tags" obj).bind asArray).elim [] fun items => items.filterMap asStr
      sql := L.pretty query
      kind := .doc
      ns := (get "namespace" obj).bind asStr
      path := path }

/-! ## Saving and loading -/

/-- `file_stem` and `extension` of a file name. -/
def splitExtension (name : Text) : Text × Option Text :=
  match rsplitOnce '.' name with
  | some (stem, ext) => if stem = [] then (name, none) else (stem, some ext)
  | none => (name, none)

def loadFile (f : File) : Option SavedQuery :=
  let doc := decide (docSuffix <:+ f.name)
  if !doc && (splitExtension f.name).2 ≠ some "sql".toList then none
  else
    let stem := (splitExtension f.name).1
    let stem := (stripSuffix ".mongo".toList stem).getD stem
    f.contents.bind fun contents =>
      if doc then parseDocQuery L stem contents f.name
      else some (parseSavedQuery stem contents f.name)

/-- Sorted by the names, whatever their case. -/
def load (dir : Dir) : List SavedQuery :=
  (dir.filterMap (loadFile L)).mergeSort fun p q => decide (L.toLowercase p.name ≤ L.toLowercase q.name)

/-- What is saved; `opened` is the entry the text was opened from. -/
structure Save where
  kind : SavedQueryKind
  name : Text
  description : Option Text
  ns : Option Text
  text : Text
  opened : Option SavedQuery

def Save.fileName (s : Save) : Text :=
  match s.kind with
  | .sql => slug s.name ++ sqlSuffix
  | .doc => slug s.name ++ docSuffix

/-- The directory after the save; none if the query is refused. -/
def save (pid : Text) (dir : Dir) (s : Save) : Option Dir :=
  match s.kind with
  | .sql => some (writeQueryFile pid dir s.fileName (sqlContents s.name s.description s.text))
  | .doc => (docContents L s.name s.description s.ns s.text).map (writeQueryFile pid dir s.fileName)

end Docs

end RedDb.Config.Queries
