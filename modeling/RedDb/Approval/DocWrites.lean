import RedDb.Approval.Input

/-!
# RedDb — the agent's MongoDB writes

A document tool is vetted by `assessDocWrite`: a replace, an update or a delete needs a filter with a
member at least, and the prompt shows the namespace, the filter and the beginning of what is written.
Once allowed, `docRunTool` parses the same input into a call of the driver.

* `assessDocWrite` — the gate;
* `docRunTool` — the executor.
-/

namespace RedDb.Approval

open TextCodec JsonText
open RedDb.Docs (DocValue Document)

/-- The MongoDB write tools. -/
inductive DocTool where
  | docWrite | index | collectionOp | killOp

def DocTool.name : DocTool → String
  | .docWrite => "propose_doc_write"
  | .index => "propose_index"
  | .collectionOp => "propose_collection_op"
  | .killOp => "doc_kill_op"

/-! ## The gate -/

/-- How much of a payload a prompt shows. -/
def docPayloadChars : Nat := 600

/-- The name of a database or a collection in a prompt. -/
def shownName (key : String) (input : Json) : Text := (filledField key input).getD "?".toList

def shownPlace (input : Json) : Text := shownName "db" input ++ ".".toList ++ shownName "coll" input

def hasFilter (input : Json) : Bool :=
  match (get "filter" input).bind asObject with
  | some members => !members.isEmpty
  | none => false

def filterText (input : Json) : Text := ((get "filter" input).map compact).getD "\x7b\x7d".toList

/-- The beginning of what is written, on a line of its own. -/
def payload (key : String) (input : Json) : Text :=
  match get key input with
  | some v => '\n' :: truncateSummary (compact v) docPayloadChars
  | none => []

def manyField (input : Json) : Bool := (boolField "many" input).getD false

def manyNote (input : Json) : Text := if manyField input then " (many: ALL matches)".toList else []

def assessWriteOp (input : Json) : WriteAssessment :=
  let op := (filledField "op" input).getD []
  if op = "insert".toList then
    .needsApproval ("INSERT one document into ".toList ++ shownPlace input ++ payload "document" input)
  else if op = "replace".toList then
    if !hasFilter input then
      .reject "replace requires a non-empty filter (e.g. \x7b _id: ... \x7d)".toList
    else .needsApproval ("REPLACE document in ".toList ++ shownPlace input ++ " matching ".toList ++
      filterText input ++ payload "document" input)
  else if op = "update".toList then
    if !hasFilter input then
      .reject "update requires a non-empty filter (refusing an unfiltered update)".toList
    else .needsApproval ("UPDATE ".toList ++ shownPlace input ++ " matching ".toList ++
      filterText input ++ manyNote input ++ payload "update" input)
  else if op = "delete".toList then
    if !hasFilter input then
      .reject "delete requires a non-empty filter (refusing an unfiltered delete)".toList
    else .needsApproval ("DELETE from ".toList ++ shownPlace input ++ " matching ".toList ++
      filterText input ++ manyNote input)
  else .reject ("propose_doc_write ".toList ++ ticked "op".toList ++
    " must be insert/update/replace/delete, not ".toList ++ ticked op)

def uniqueField (input : Json) : Bool := (boolField "unique" input).getD false

def assessIndex (input : Json) : WriteAssessment :=
  .needsApproval ("CREATE".toList ++ (if uniqueField input then " UNIQUE".toList else []) ++
    " INDEX on ".toList ++ shownPlace input ++ " keys ".toList ++
    ((get "keys" input).map compact).getD "\x7b\x7d".toList)

/-- What the prompt of a kill warns of. -/
def killWarning : Text :=
  ("\n\u26a0 An interrupted multi-document write is NOT rolled back: what it already changed stays " ++
    "changed.").toList

/-- What the prompt of a kill says of the operation. -/
def runningNote (input : Json) : Text :=
  match filledField "command" input with
  | some cmd => "\nRunning: ".toList ++ truncateSummary cmd docPayloadChars
  | none => ("\nThe agent did not say what this operation is; read doc_current_op before " ++
      "allowing.").toList

def assessKillOp (input : Json) : WriteAssessment :=
  match intField "opid" input with
  | none => .reject ("doc_kill_op needs the numeric ".toList ++ ticked "opid".toList ++
      " of an operation from doc_current_op".toList)
  | some opid =>
    let target := match filledField "namespace" input with
      | some ns => " on ".toList ++ ns
      | none => []
    .needsApproval ("KILL operation ".toList ++ intText opid ++ target ++ killWarning ++ runningNote input)

def assessCollectionOp (input : Json) : WriteAssessment :=
  let op := (filledField "op" input).getD []
  if op = "create".toList then
    .needsApproval ("CREATE collection ".toList ++ shownPlace input)
  else if op = "drop".toList then
    .needsApproval ("DROP collection ".toList ++ shownPlace input ++
      " — destructive, cannot be undone".toList)
  else .reject ("propose_collection_op ".toList ++ ticked "op".toList ++ " must be create/drop, not ".toList ++
    ticked op)

/-- Vet a document tool. -/
@[grind =] def assessDocWrite (tool : DocTool) (input : Json) : WriteAssessment :=
  match tool with
  | .docWrite => assessWriteOp input
  | .index => assessIndex input
  | .killOp => assessKillOp input
  | .collectionOp => assessCollectionOp input

/-! ## The executor -/

inductive DocWrite where
  | insert (db coll : Text) (docs : List Document)
  | update (db coll : Text) (filter patch : DocValue) (many : Bool)
  | replace (db coll : Text) (id : DocValue) (doc : Document)
  | delete (db coll : Text) (filter : DocValue) (many : Bool)

/-- An index of the agent's: its keys with a direction each, whether it is unique, and its name. -/
structure IndexSpec where
  keys : List (Text × Bool)
  unique : Bool
  name : Option Text

/-- One call of the driver. -/
inductive DocCall where
  | write (w : DocWrite)
  | createIndex (db coll : Text) (spec : IndexSpec)
  | createCollection (db coll : Text)
  | dropCollection (db coll : Text)
  | killOp (opid : Int) (claimed : Option Text)

mutual

/-- Whether an operator that runs JavaScript in the server is anywhere in a value. -/
def serverJsOperator : DocValue → Bool
  | .document fields => serverJsFields fields
  | .array items => serverJsItems items
  | _ => false

def serverJsItems : List DocValue → Bool
  | [] => false
  | item :: items => serverJsOperator item || serverJsItems items

def serverJsFields : List (String × DocValue) → Bool
  | [] => false
  | (k, v) :: fields =>
    ["$where", "$function", "$accumulator"].contains k || serverJsOperator v || serverJsFields fields

end

def filterIsEmpty : DocValue → Bool
  | .document fields => fields.isEmpty
  | _ => true

def isDestructive : DocWrite → Bool
  | .update _ _ filter _ many | .delete _ _ filter many => many || filterIsEmpty filter
  | .insert .. | .replace .. => false

/-- The name of a database or a collection as the driver is given it. -/
def rawName (key : String) (input : Json) : Text := (strField key input).getD []

section Executor

-- the driver's reader of extended JSON
variable (parseExtJson : Text → Option DocValue)

/-- An argument as the driver reads it; none also where the text does not parse or would run
JavaScript, which the callers take for one with a missing argument. -/
def docArgValue (key : String) (input : Json) : Option DocValue :=
  let parsed := match get key input with
    | none | some .null => none
    | some (.string s) => if (RedDb.Transfer.trimmed s.toList).isEmpty then none else parseExtJson s.toList
    | some other => parseExtJson (compact other)
  parsed.filter fun v => !serverJsOperator v

def docIndexSpec (input : Json) : Option IndexSpec :=
  match (get "keys" input).bind asObject with
  | none | some [] => none
  | some keys => some
      { keys := keys.map fun (field, dir) => (field.toList, 0 ≤ (asI64 dir).getD 1)
        unique := uniqueField input
        name := strField "name" input }

/-- The `_id` that the filter of a replace pins. -/
def pinnedId : DocValue → Option DocValue
  | .document fields => (fields.find? fun f => f.1 == "_id").map Prod.snd
  | _ => none

/-- The write that a proposal means, if it means one. -/
def proposedWrite (input : Json) : Option DocWrite :=
  let db := rawName "db" input
  let coll := rawName "coll" input
  let op := (strField "op" input).getD []
  if op = "insert".toList then
    ((docArgValue parseExtJson "document" input).bind Document.fromDocValue).map fun doc =>
      .insert db coll [doc]
  else if op = "update".toList then
    (docArgValue parseExtJson "filter" input).bind fun filter =>
      (docArgValue parseExtJson "update" input).map fun patch =>
        .update db coll filter patch (manyField input)
  else if op = "replace".toList then
    ((docArgValue parseExtJson "filter" input).bind pinnedId).bind fun id =>
      ((docArgValue parseExtJson "document" input).bind Document.fromDocValue).map fun doc =>
        .replace db coll id doc
  else if op = "delete".toList then
    (docArgValue parseExtJson "filter" input).map fun filter => .delete db coll filter (manyField input)
  else none

/-- Run an approved write; a destructive one is vetted once more. -/
def docApplyWrite (input : Json) : Option DocCall :=
  (proposedWrite parseExtJson input).bind fun write =>
    match isDestructive write, assessWriteOp input with
    | true, .reject _ => none
    | _, _ => some (.write write)

def docCall (tool : DocTool) (input : Json) : Option DocCall :=
  match tool with
  | .docWrite => docApplyWrite parseExtJson input
  | .index => (docIndexSpec input).map fun spec =>
      .createIndex (rawName "db" input) (rawName "coll" input) spec
  | .killOp => (intField "opid" input).map fun opid => .killOp opid (filledField "namespace" input)
  | .collectionOp =>
    let op := (strField "op" input).getD []
    if op = "create".toList then some (.createCollection (rawName "db" input) (rawName "coll" input))
    else if op = "drop".toList then some (.dropCollection (rawName "db" input) (rawName "coll" input))
    else none

/-- Run a document tool; what the gate refuses is refused here too. -/
def docRunTool (tool : DocTool) (input : Json) : Option DocCall :=
  match assessDocWrite tool input with
  | .reject _ => none
  | _ => docCall parseExtJson tool input

end Executor

end RedDb.Approval
