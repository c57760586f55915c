import RedDb.Approval.Input

/-!
# RedDb — the plan of a `kv_set`

One call of `kv_set` is parsed once, into the plan that both the prompt and the executor read. The
prompt is the list of commands `redis-cli` would echo for the plan, the executor one call of the
driver for each of them. A time to live is a number of seconds, sent in milliseconds.

* `kvSetPlan` — a call parsed, or why it is refused;
* `KvSetPlan.commands` — what the prompt shows of a plan;
* `KvSetPlan.calls` — what the executor makes of it.
-/

namespace RedDb.Approval

open TextCodec JsonText
open RedDb.Transfer (trimmed)
open RedDb.Docs (isFinite)

/-! ## The glob that is no key -/

/-- A character of a pattern that counts as an anchor: one behind a backslash, or one outside a class
that is no wildcard. -/
def hasLiteral : Bool → Text → Bool
  | _, [] => false
  | _, ['\\'] => false
  | _, '\\' :: _ :: _ => true
  | false, '[' :: rest => hasLiteral true rest
  | true, ']' :: rest => hasLiteral false rest
  | true, _ :: rest => hasLiteral true rest
  | false, c :: rest => if c = '*' ∨ c = '?' then hasLiteral false rest else true

/-- Whether a glob has no character that anchors it. -/
def matchesWholeKeyspace (pattern : Text) : Bool := !hasLiteral false pattern

/-! ## Calls of the driver -/

/-- What floats are to the tools: the double of a JSON number, and the text that a finite one is
printed as. -/
structure Floats where
  asF64 : Text → UInt64
  display : UInt64 → Text
  display_chars : ∀ {x}, isFinite x = true → ∀ c ∈ display x, isNumberChar c = true
  display_inj : ∀ {x y}, isFinite x = true → isFinite y = true → display x = display y → x = y

abbrev Score := { x : UInt64 // isFinite x = true }

/-- A step into a JSON document. -/
inductive PathSeg where
  | member (name : Text)
  | index (i : Nat)
  deriving DecidableEq

/-- One call of the driver, as it goes to the server. A time to live is in milliseconds; none of it
removes the one there is. -/
inductive Call where
  | deleteKeys (keys : List Text)
  | deleteMatching (pattern : Text)
  | setString (key value : Text) (px : Option Nat)
  | setField (key field value : Text)
  | setAdd (key : Text) (members : List Text)
  | zsetAdd (key member : Text) (score : Score)
  | listPush (key value : Text)
  | streamAdd (key : Text) (fields : List (Text × Text))
  | setTtl (key : Text) (ttl : Option Nat)
  | setTtlMatching (pattern : Text) (ttl : Option Nat)
  | renameKey (src dst : Text)
  | copyKey (src dst : Text) (keepTtl replace : Bool)
  | jsonSet (key : Text) (path : List PathSeg) (value : Text)
  | clientKill (id : Int) (claimed : Option Text)
  | command (argv : List Text)
  deriving DecidableEq

/-- The milliseconds sent for a number of seconds, at least one. -/
def kvMillis (secs : Nat) : Nat := max (secs * 1000 % 2 ^ 64) 1

/-! ## Plans -/

inductive KvSetBody where
  | str (value : Text) (ttl : Option Nat)
  | hash (fields : List (Text × Text))
  | set (members : List Text)
  | zset (members : List (Text × Score))
  | list (values : List Text)
  | stream (fields : List (Text × Text))

structure KvSetPlan where
  key : Text
  clearFirst : Bool
  body : KvSetBody
  expire : Option Nat

/-- The words of a line, a blank before each. -/
def words (args : List Text) : Text := args.flatMap fun a => ' ' :: a

def natText (n : Nat) : Text := Nat.toDigits 10 n

section Commands

variable (floats : Floats)

def KvSetBody.commands (key : Text) : KvSetBody → List Text
  | .str value ttl =>
    ["SET".toList ++ words [key, respArg value] ++
      match ttl with
      | some secs => words ["PX".toList, natText (kvMillis secs)]
      | none => []]
  | .hash fields => fields.map fun (f, v) => "HSET".toList ++ words [key, respArg f, respArg v]
  | .set members => ["SADD".toList ++ words (key :: members.map respArg)]
  | .zset members =>
    members.map fun (m, score) => "ZADD".toList ++ words [key, floats.display score.1, respArg m]
  | .list values => values.map fun v => "RPUSH".toList ++ words [key, respArg v]
  | .stream fields =>
    ["XADD".toList ++ words (key :: "*".toList :: fields.flatMap fun (f, v) => [respArg f, respArg v])]

/-- The commands a plan runs, in order. -/
@[grind =] def KvSetPlan.commands (plan : KvSetPlan) : List Text :=
  (if plan.clearFirst then ["DEL".toList ++ words [respArg plan.key]] else []) ++
    plan.body.commands floats (respArg plan.key) ++
    match plan.expire with
    | some secs => ["PEXPIRE".toList ++ words [respArg plan.key, natText (kvMillis secs)]]
    | none => []

end Commands

def KvSetBody.calls (key : Text) : KvSetBody → List Call
  | .str value ttl => [.setString key value (ttl.map kvMillis)]
  | .hash fields => fields.map fun (f, v) => .setField key f v
  | .set members => [.setAdd key members]
  | .zset members => members.map fun (m, score) => .zsetAdd key m score
  | .list values => values.map fun v => .listPush key v
  | .stream fields => [.streamAdd key fields]

/-- The calls of the executor, each made when the one before it went well. -/
@[grind =] def KvSetPlan.calls (plan : KvSetPlan) : List Call :=
  (if plan.clearFirst then [.deleteKeys [plan.key]] else []) ++ plan.body.calls plan.key ++
    match plan.expire with
    | some secs => [.setTtl plan.key (some (kvMillis secs))]
    | none => []

/-! ## Parsing a call -/

def kvSetValueMax : Nat := 64 * 1024

def kvSetPayloadMax : Nat := 256 * 1024

def kvSetElemsMax : Nat := 1000

/-- How much of the commands a prompt shows. -/
def kvSetPromptChars : Nat := 800

/-- One JSON scalar as the text that is stored. -/
def kvScalar (what : Text) : Json → Except Text Text
  | .string s => .ok s.toList
  | .number token => .ok token
  | .bool true => .ok "true".toList
  | .bool false => .ok "false".toList
  | .null | .array _ | .object _ => .error (what ++ (" must be a string, number, or boolean; Redis " ++
      "stores bytes, so encode a document yourself if that is what you mean").toList)

/-- The members of an object as pairs of texts. -/
def kvPairs (kind what : Text) (value : Option Json) : Except Text (List (Text × Text)) :=
  match value.bind asObject with
  | none => .error ("kv_set on a ".toList ++ kind ++ " needs ".toList ++ ticked "value".toList ++
      " as a JSON object of ".toList ++ what)
  | some members => members.mapM fun (k, v) =>
      (kvScalar "each value".toList v).map fun text => (k.toList, text)

/-- The scalars of an array, or one by itself. -/
def kvMembers (kind : Text) : Option Json → Except Text (List Text)
  | some (.array items) => items.mapM (kvScalar "each member".toList)
  | some v => (kvScalar (ticked "value".toList) v).map fun text => [text]
  | none => .error ("kv_set on a ".toList ++ kind ++ " needs ".toList ++ ticked "value".toList)

section Parse

variable (floats : Floats)

def kvScore (member : Text) : Json → Except Text Score
  | .number token =>
    if h : isFinite (floats.asF64 token) = true then .ok ⟨floats.asF64 token, h⟩
    else .error ("zset score for ".toList ++ ticked member ++ " must be a finite number".toList)
  | _ => .error ("zset score for ".toList ++ ticked member ++ " must be a finite number".toList)

def kvScores (value : Option Json) : Except Text (List (Text × Score)) :=
  match value.bind asObject with
  | none => .error ("kv_set on a zset needs ".toList ++ ticked "value".toList ++
      " as a JSON object of member/score, e.g. \x7b \"ada\": 1.5 \x7d".toList)
  | some members => members.mapM fun (m, s) =>
      (kvScore floats m.toList s).map fun score => (m.toList, score)

/-- What a call writes, by its type, and whether the key is cleared before. -/
def kvSetBody (kind : Text) (value : Option Json) (field : Option Text) (replace : Bool)
    (ttl : Option Nat) : Except Text (KvSetBody × Bool) :=
  if kind = "string".toList then
    match value with
    | none => .error ("kv_set on a string needs ".toList ++ ticked "value".toList)
    | some v => (kvScalar (ticked "value".toList) v).map fun text => (.str text ttl, false)
  else if kind = "hash".toList then
    match field with
    | some field =>
      match value with
      | none => .error ("kv_set with a ".toList ++ ticked "field".toList ++ " needs ".toList ++
          ticked "value".toList)
      | some v => (kvScalar (ticked "value".toList) v).map fun text => (.hash [(field, text)], false)
    | none => (kvPairs kind "field/value".toList value).map fun fields => (.hash fields, replace)
  else if kind = "set".toList then (kvMembers kind value).map fun members => (.set members, replace)
  else if kind = "zset".toList then (kvScores floats value).map fun members => (.zset members, replace)
  else if kind = "list".toList then (kvMembers kind value).map fun values => (.list values, replace)
  else if kind = "stream".toList then
    (kvPairs kind "field/value".toList value).map fun fields => (.stream fields, false)
  else if kind = [] then
    .error ("kv_set needs ".toList ++ ticked "type".toList ++
      " (string/hash/set/zset/list/stream)".toList)
  else .error ("kv_set ".toList ++ ticked "type".toList ++
    " must be string/hash/set/zset/list/stream, not ".toList ++ ticked kind)

/-- The length of a text in bytes. -/
def byteLength (t : Text) : Nat := (t.map Char.utf8Size).sum

/-- The lengths of what a body writes. -/
def KvSetBody.sizes : KvSetBody → List Nat
  | .str value _ => [byteLength value]
  | .hash fields | .stream fields => fields.map fun (f, v) => byteLength f + byteLength v
  | .set members | .list members => members.map byteLength
  | .zset members => members.map fun (m, _) => byteLength m

/-- Why a payload is refused for its size. -/
def sizeRefusal (kind : Text) (sizes : List Nat) : Option Text :=
  if sizes.length = 0 then some ("kv_set on a ".toList ++ kind ++ " needs at least one value".toList)
  else if kvSetElemsMax < sizes.length then
    some ("kv_set is capped at 1000 elements per call (".toList ++ natText sizes.length ++
      " given); split it".toList)
  else if kvSetValueMax < sizes.foldr max 0 then
    some ("a single kv_set value is ".toList ++ natText (sizes.foldr max 0) ++
      " bytes, over the 65536-byte cap; write a value this large by hand".toList)
  else if kvSetPayloadMax < sizes.sum then
    some ("kv_set payload is ".toList ++ natText sizes.sum ++
      " bytes, over the 262144-byte cap; split it".toList)
  else none

/-- The key of a call: trimmed, and no glob. -/
def kvSetKey (input : Json) : Except Text Text :=
  match trimmedField "key" input with
  | none => .error ("kv_set needs a non-empty ".toList ++ ticked "key".toList)
  | some key =>
    if matchesWholeKeyspace key then
      .error (ticked key ++ (" is a glob pattern, not a key: kv_set writes one exact key. Scan first " ++
        "if you meant to find keys.").toList)
    else .ok key

/-- Whether a collection is replaced or added to. -/
def kvSetMode (input : Json) : Except Text Bool :=
  let mode := (strField "mode" input).getD "set".toList
  if mode = "set".toList then .ok true
  else if mode = "append".toList then .ok false
  else .error ("kv_set ".toList ++ ticked "mode".toList ++ " must be \"set\" or \"append\", not ".toList ++
    ticked mode)

/-- The seconds of a field, when there are any. -/
def secondsField (key : String) (input : Json) : Option Nat :=
  ((intField key input).filter fun s => 0 < s).map Int.toNat

/-- The expiry that goes beside the body: the one of a string is inside its `SET`. -/
def KvSetBody.expiry (ttl : Option Nat) : KvSetBody → Option Nat
  | .str .. => none
  | _ => ttl

def kvSetPlan (input : Json) : Except Text KvSetPlan :=
  match kvSetKey input with
  | .error why => .error why
  | .ok key =>
    let kind := ((strField "type" input).map trimmed).getD []
    match kvSetMode input with
    | .error why => .error why
    | .ok replace =>
      let ttl := secondsField "ttl_seconds" input
      match kvSetBody floats kind (get "value" input) (filledField "field" input) replace ttl with
      | .error why => .error why
      | .ok (body, clearFirst) =>
        match sizeRefusal kind body.sizes with
        | some why => .error why
        | none => .ok ⟨key, clearFirst, body, body.expiry ttl⟩

end Parse

end RedDb.Approval
