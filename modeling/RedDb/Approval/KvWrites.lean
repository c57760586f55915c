import RedDb.Approval.KvSet

/-!
# RedDb — the agent's Redis writes

A write tool is vetted once: `assessKvWrite` refuses the call or says what is put to the user. Once
allowed, `kvRunTool` reads the same input again and calls the driver. A whole keyspace is not deleted
or expired by a pattern, whatever the user would answer.

* `assessKvWrite` — the gate;
* `kvRunTool` — the executor.
-/

namespace RedDb.Approval

open TextCodec JsonText
open RedDb.Transfer (trimmed)

/-- The Redis write tools. -/
inductive KvTool where
  | set | jsonSet | expire | delete | rename | copyKey | configSet | clientKill | command

def KvTool.name : KvTool → String
  | .set => "kv_set"
  | .jsonSet => "kv_json_set"
  | .expire => "kv_expire"
  | .delete => "kv_delete"
  | .rename => "kv_rename"
  | .copyKey => "kv_copy_key"
  | .configSet => "kv_config_set"
  | .clientKill => "kv_client_kill"
  | .command => "kv_command"

/-! ## Arguments -/

def kvCommandAllowlist : List String :=
  ["INFO", "MEMORY", "OBJECT", "TYPE", "TTL", "PTTL", "EXISTS", "STRLEN", "LATENCY", "COMMAND",
    "DBSIZE", "LASTSAVE", "TIME", "ROLE"]

/-- The arguments of a `kv_command`: the texts that are not blank, trimmed. -/
def kvCommandArgv (input : Json) : List Text :=
  match (get "argv" input).bind asArray with
  | none => []
  | some items => ((items.filterMap asStr).map trimmed).filter fun a => !a.isEmpty

def joinedNames (names : List String) : Text := [',', ' '].intercalate (names.map String.toList)

def kvAllowedCommand : List Text → Except Text Unit
  | [] => .error ("kv_command needs a non-empty ".toList ++ ticked "argv".toList)
  | verb :: _ =>
    if (kvCommandAllowlist.map String.toList).contains (verb.map Char.toUpper) then .ok ()
    else .error (ticked verb ++ " is not on kv_command's allowlist (".toList ++
      joinedNames kvCommandAllowlist ++
      "). Use the dedicated tool for what you need; this one is introspection only.".toList)

/-- The keys a `kv_delete` names, `key` before `keys`. -/
def kvDeleteTargets (input : Json) : List Text :=
  (filledField "key" input).toList ++
    match (get "keys" input).bind asArray with
    | none => []
    | some items => items.filterMap asStr

/-- What a bracket of a path holds, up to its closing quote and bracket, and what follows. -/
def readBracket (quote : Option Char) : Text → Option (Text × Text)
  | [] => none
  | c :: rest =>
    match quote with
    | some q =>
      if c = q then match rest with
        | ']' :: rest => some ([], rest)
        | _ => none
      else (readBracket quote rest).map fun (inner, rest) => (c :: inner, rest)
    | none =>
      if c = ']' then some ([], rest)
      else (readBracket quote rest).map fun (inner, rest) => (c :: inner, rest)

/-- A number as `parse::<u64>` reads it. -/
def parseU64 (t : Text) : Option Nat :=
  let digits := match t with
    | '+' :: rest => rest
    | t => t
  if !digits.isEmpty && digits.all Char.isDigit && numeral digits < 2 ^ 64 then some (numeral digits)
  else none

/-- The segments so far, with the name that stands before this place, if any. -/
def flushed (path : List PathSeg) (pending : Text) : List PathSeg :=
  if pending.isEmpty then path else path ++ [.member pending]

/-- Each step takes a character at least. -/
def parsePathFrom (raw : Text) : Nat → List PathSeg → Text → Text → Except Text (List PathSeg)
  | _, path, pending, [] => .ok (flushed path pending)
  | 0, path, pending, _ :: _ => .ok (flushed path pending)
  | fuel + 1, path, pending, c :: rest =>
    if c = '.' then parsePathFrom raw fuel (flushed path pending) [] rest
    else if c = '[' then
      let (quote, rest) := match rest with
        | '"' :: rest => (some '"', rest)
        | '\x27' :: rest => (some '\x27', rest)
        | rest => (none, rest)
      match readBracket quote rest with
      | none => .error ("unbalanced ".toList ++ ticked "[".toList ++ " in path ".toList ++ ticked raw)
      | some (inner, rest) =>
        let seg : PathSeg := match quote, parseU64 inner with
          | none, some i => .index i
          | _, _ => .member inner
        parsePathFrom raw fuel (flushed path pending ++ [seg]) [] rest
    else parsePathFrom raw fuel path (pending ++ [c]) rest

/-- The path that a text means: dotted or bracketed, from the root. -/
def parsePath (raw : Text) : Except Text (List PathSeg) :=
  let body := match trimmed raw with
    | '$' :: rest => rest
    | t => t
  parsePathFrom raw body.length [] [] body

/-- CONFIG parameters that move the persistence of the server or its authentication. -/
def dangerousConfigParams : List String :=
  ["dir", "dbfilename", "appendfilename", "appenddirname", "appendonly", "save", "requirepass",
    "masterauth", "masteruser", "aclfile", "unixsocket", "logfile", "pidfile", "bind",
    "protected-mode", "enable-debug-command", "enable-module-command"]

def isDangerousConfigParam (param : Text) : Bool :=
  (dangerousConfigParams.map String.toList).contains ((trimmed param).map Char.toLower)

/-! ## The gate -/

section Tools

variable (floats : Floats)
-- the syntax check of a JSON text: what is wrong with it, if anything
variable (validateJson : Text → Option Text)

/-- The JSON text a `kv_json_set` writes. -/
def kvJsonSetValue (input : Json) : Option Text :=
  match get "value" input with
  | none => none
  | some (.string s) =>
    let structural := match s.toList.dropWhile RedDb.Transfer.isWhite with
      | '\x7b' :: _ | '[' :: _ => true
      | _ => false
    if structural || (validateJson s.toList).isNone then some s.toList else some (compact (.string s))
  | some other => some (compact other)

def assessExpire (input : Json) : WriteAssessment :=
  let action (target : Text) : WriteAssessment := .needsApproval <|
    match (intField "seconds" input).filter fun s => 0 < s with
    | some s => "EXPIRE ".toList ++ target ++ " in ".toList ++ intText s ++ "s".toList
    | none => "PERSIST ".toList ++ target ++ " (remove any expiry)".toList
  match trimmedField "key" input, trimmedField "pattern" input with
  | some k, _ => action ("key ".toList ++ ticked k)
  | none, some p =>
    if matchesWholeKeyspace p && (secondsField "seconds" input).isSome then
      .reject ("refusing to set a TTL on the entire keyspace (pattern ".toList ++ ticked p ++
        (" matches essentially every key): this would expire every key. Narrow the " ++
          "pattern.").toList)
    else action ("all keys matching ".toList ++ ticked p)
  | none, none => .reject ("kv_expire needs ".toList ++ ticked "key".toList ++ " or ".toList ++
      ticked "pattern".toList)

def assessDelete (input : Json) : WriteAssessment :=
  match kvDeleteTargets input with
  | [one] => .needsApproval ("DELETE key ".toList ++ ticked one)
  | one :: two :: more => .needsApproval ("DELETE ".toList ++ natText (one :: two :: more).length ++
      " key(s): ".toList ++ [',', ' '].intercalate (one :: two :: more))
  | [] =>
    match trimmedField "pattern" input with
    | none => .reject ("kv_delete needs ".toList ++ ticked "key".toList ++ ", ".toList ++
        ticked "keys".toList ++ ", or ".toList ++ ticked "pattern".toList)
    | some p =>
      if matchesWholeKeyspace p then
        .reject ("refusing to DELETE the entire keyspace (pattern ".toList ++ ticked p ++
          (" matches essentially every key): use FLUSHDB by hand if that's really intended. " ++
            "Narrow the pattern.").toList)
      else .needsApproval ("DELETE all keys matching ".toList ++ ticked p)

def assessJsonSet (input : Json) : WriteAssessment :=
  match trimmedField "key" input with
  | none => .reject ("kv_json_set needs ".toList ++ ticked "key".toList)
  | some key =>
    match kvJsonSetValue validateJson input with
    | none => .reject ("kv_json_set needs ".toList ++ ticked "value".toList)
    | some value =>
      match validateJson value with
      | some fault => .reject (ticked "value".toList ++ " is not valid JSON: ".toList ++ fault)
      | none =>
        let path := (trimmedField "path" input).getD "$".toList
        let scope := if path = "$".toList then
            "\n\u26a0 Path `$` replaces the WHOLE document, not just one field.".toList
          else []
        .needsApproval ("JSON.SET ".toList ++ respArg key ++ " ".toList ++ path ++ " ".toList ++
          truncateSummary value kvSetPromptChars ++ scope)

def assessCopyKey (input : Json) : WriteAssessment :=
  match trimmedField "from" input, trimmedField "to" input with
  | some f, some t =>
    let clobber := if (boolField "replace" input).getD false then
        ", OVERWRITING ".toList ++ ticked t ++ " if it already exists".toList
      else ", refusing if ".toList ++ ticked t ++ " already exists".toList
    .needsApproval ("COPY key ".toList ++ ticked f ++ " to ".toList ++ ticked t ++
      " (DUMP + RESTORE)".toList ++ clobber)
  | _, _ => .reject ("kv_copy_key needs ".toList ++ ticked "from".toList ++ " and ".toList ++
      ticked "to".toList)

def assessCommand (input : Json) : WriteAssessment :=
  match kvAllowedCommand (kvCommandArgv input) with
  | .ok () => .needsApproval ([' '].intercalate ((kvCommandArgv input).map respArg))
  | .error why => .reject why

def assessClientKill (input : Json) : WriteAssessment :=
  match intField "id" input with
  | none => .reject ("kv_client_kill needs the numeric ".toList ++ ticked "id".toList ++
      " of a client from kv_client_list".toList)
  | some id =>
    let addr := match trimmedField "addr" input with
      | some addr => " (".toList ++ addr ++ ")".toList
      | none => []
    let running := match trimmedField "cmd" input with
      | some cmd => "\nLast command: ".toList ++ cmd
      | none => ("\nThe agent did not say what this client is doing; read kv_client_list " ++
          "before allowing.").toList
    .needsApproval ("CLIENT KILL ID ".toList ++ intText id ++ addr ++ running)

def assessRename (input : Json) : WriteAssessment :=
  match trimmedField "from" input, trimmedField "to" input with
  | some f, some t => .needsApproval ("RENAME ".toList ++ ticked f ++ " -> ".toList ++ ticked t)
  | _, _ => .reject ("kv_rename needs ".toList ++ ticked "from".toList ++ " and ".toList ++
      ticked "to".toList)

def assessConfigSet (input : Json) : WriteAssessment :=
  match trimmedField "parameter" input, strField "value" input with
  | some p, some v =>
    .needsApproval ("CONFIG SET ".toList ++ p ++ " ".toList ++ v ++
      if isDangerousConfigParam p then
        ("\n\u26a0 This parameter can change where/how Redis persists data or its auth, and is a " ++
          "known server-takeover vector. Allow only if this exact value was intended.").toList
      else [])
  | _, _ => .reject ("kv_config_set needs ".toList ++ ticked "parameter".toList ++ " and ".toList ++
      ticked "value".toList)

/-- Vet a Redis write. -/
@[grind =] def assessKvWrite (tool : KvTool) (input : Json) : WriteAssessment :=
  match tool with
  | .expire => assessExpire input
  | .delete => assessDelete input
  | .set =>
    match kvSetPlan floats input with
    | .ok plan => .needsApproval
        (truncateSummary (['\n'].intercalate (plan.commands floats)) kvSetPromptChars)
    | .error why => .reject why
  | .jsonSet => assessJsonSet validateJson input
  | .copyKey => assessCopyKey input
  | .command => assessCommand input
  | .clientKill => assessClientKill input
  | .rename => assessRename input
  | .configSet => assessConfigSet input

/-! ## The executor -/

/-- A name the executor needs: the text as it is, when it is not empty. -/
def names (first second : String) (input : Json) : Option (Text × Text) :=
  match filledField first input, filledField second input with
  | some f, some t => some (f, t)
  | _, _ => none

/-- The calls of an approved tool, or none where it ends in an error before any. -/
@[grind =] def kvCalls (tool : KvTool) (input : Json) : Option (List Call) :=
  match tool with
  | .set =>
    match kvSetPlan floats input with
    | .ok plan => some plan.calls
    | .error _ => none
  | .jsonSet =>
    match filledField "key" input, parsePath ((strField "path" input).getD "$".toList),
        kvJsonSetValue validateJson input with
    | some key, .ok path, some value =>
      if (validateJson value).isNone then some [.jsonSet key path value] else none
    | _, _, _ => none
  | .expire =>
    let ttl := (secondsField "seconds" input).map kvMillis
    match filledField "key" input with
    | some key => some [.setTtl key ttl]
    | none => (filledField "pattern" input).map fun pattern => [.setTtlMatching pattern ttl]
  | .delete =>
    if kvDeleteTargets input = [] then
      (filledField "pattern" input).map fun pattern => [.deleteMatching pattern]
    else some [.deleteKeys (kvDeleteTargets input)]
  | .rename => (names "from" "to" input).map fun (f, t) => [.renameKey f t]
  | .copyKey => (names "from" "to" input).map fun (f, t) =>
      [.copyKey f t ((boolField "keep_ttl" input).getD true) ((boolField "replace" input).getD false)]
  | .clientKill => (intField "id" input).map fun id => [.clientKill id (filledField "addr" input)]
  | .configSet => (filledField "parameter" input).map fun p =>
      [.command ["CONFIG".toList, "SET".toList, p, (strField "value" input).getD []]]
  | .command =>
    match kvAllowedCommand (kvCommandArgv input) with
    | .ok () => some [.command (kvCommandArgv input)]
    | .error _ => none

/-- Run a Redis tool; what the gate refuses is refused here too. -/
def kvRunTool (tool : KvTool) (input : Json) : Option (List Call) :=
  match assessKvWrite floats validateJson tool input with
  | .reject _ => none
  | _ => kvCalls floats validateJson tool input

end Tools

end RedDb.Approval
