import RedDb.Ai.RanStatements
import RedDb.Driver.PgText
import RedDb.Lib.LineBuffer

/-!
# RedDb — a turn streamed by the provider

`streamTurn` asks for one assistant message and reads it off a stream of server-sent events.
Bytes are kept until a line has ended; what stands behind `data:` is an event if it is JSON
and nothing otherwise; `handleEvent` puts the events together and `finish` makes the message
of them. The JSON library is the parameter `SerdeJson`.

* `received` — the events of a body, however it was cut into chunks;
* `carried` — what a list of events carries for the tool call in one block;
* `toolAt_accumulate` — the block under construction is what the events carry for it;
* `streamTurn_ok` — exactly when a turn comes out, and with which tool calls.
-/

namespace RedDb.Ai.Anthropic

open ByteText

/-- What is used of the JSON library. -/
structure SerdeJson (J : Type) where
  fromStr : Bytes → Except Bytes J
  get : String → J → Option J
  asStr : J → Option Bytes
  asU64 : J → Option Nat
  emptyObject : J

/-! ## What comes out of a turn -/

inductive AiError where
  | missingKey (provider : Bytes)
  | auth
  | rateLimited
  | network (e : Bytes)
  | refused
  | provider (e : Bytes)
  | cancelled

inductive StopReason where
  | endTurn
  | toolUse
  | maxTokens
  | refusal
  | other
  deriving DecidableEq

structure Usage where
  inputTokens : Nat
  outputTokens : Nat
  cacheReadInputTokens : Nat

structure ToolUse (J : Type) where
  id : Bytes
  name : Bytes
  input : J

inductive ContentBlock (J : Type) where
  | text (text : Bytes)
  | thinking (text signature : Bytes)
  | redactedThinking (data : Bytes)
  | toolUse (use : ToolUse J)
  | compaction (content : Bytes)

def ContentBlock.asToolUse {J : Type} : ContentBlock J → Option (ToolUse J)
  | toolUse use => some use
  | _ => none

structure TurnOutcome (J : Type) where
  content : List (ContentBlock J)
  stopReason : StopReason
  usage : Usage

/-- What is shown while the turn streams. -/
inductive Delta where
  | text (t : Bytes)
  | thinking (t : Bytes)
  | toolUseStarted (id name : Bytes)

/-! ## Events -/

/-- A content block under construction. -/
inductive PartialBlock where
  | text (s : Bytes)
  | thinking (text signature : Bytes)
  | redactedThinking (data : Bytes)
  | toolUse (id name json : Bytes)
  | compaction (s : Bytes)

structure TurnAccumulator where
  blocks : List PartialBlock
  stopReason : Option StopReason
  usage : Usage
  refused : Bool
  error : Option Bytes
  stopped : Bool

def TurnAccumulator.default : TurnAccumulator :=
  { blocks := [], stopReason := none, usage := ⟨0, 0, 0⟩, refused := false, error := none, stopped := false }

def maxContentBlocks : Nat := 1024

inductive EventKind where
  | messageStart
  | contentBlockStart
  | contentBlockDelta
  | messageDelta
  | error
  | messageStop
  | unknown
  deriving DecidableEq

def mapStop (s : Bytes) : StopReason :=
  if s = ascii "end_turn" ∨ s = ascii "stop_sequence" then .endTurn
  else if s = ascii "tool_use" then .toolUse
  else if s = ascii "max_tokens" then .maxTokens
  else if s = ascii "refusal" then .refusal
  else .other

def truncate (s : Bytes) (max : Nat) : Bytes :=
  if s.length ≤ max then s else s.take (floorBoundary s max) ++ ellipsis

/-- The blocks, as many as the index needs, with this one at it. -/
def place (blocks : List PartialBlock) (idx : Nat) (block : PartialBlock) : List PartialBlock :=
  (blocks ++ List.replicate (idx + 1 - blocks.length) (PartialBlock.text [])).set idx block

section Events

variable {J : Type} (S : SerdeJson J)

def textField (key : String) (j : Option J) : Option Bytes := (j.bind (S.get key)).bind S.asStr

/-- `event.pointer("/outer/inner")` -/
def pointer (outer inner : String) (event : J) : Option J := (S.get outer event).bind (S.get inner)

def uGet (usage : J) (key : String) : Nat := ((S.get key usage).bind S.asU64).getD 0

def eventKind (event : J) : EventKind :=
  let kind := textField S "type" (some event)
  if kind = some (ascii "message_start") then .messageStart
  else if kind = some (ascii "content_block_start") then .contentBlockStart
  else if kind = some (ascii "content_block_delta") then .contentBlockDelta
  else if kind = some (ascii "message_delta") then .messageDelta
  else if kind = some (ascii "error") then .error
  else if kind = some (ascii "message_stop") then .messageStop
  else .unknown

/-- The block an opening frame describes. -/
def openedBlock (cb : Option J) : PartialBlock :=
  let kind := textField S "type" cb
  if kind = some (ascii "text") then .text []
  else if kind = some (ascii "thinking") then .thinking [] []
  else if kind = some (ascii "redacted_thinking") then
    .redactedThinking ((textField S "data" cb).getD [])
  else if kind = some (ascii "compaction") then .compaction ((textField S "content" cb).getD [])
  else if kind = some (ascii "tool_use") then
    .toolUse ((textField S "id" cb).getD []) ((textField S "name" cb).getD []) []
  else .text []

@[grind =] def index (event : J) : Nat := ((S.get "index" event).bind S.asU64).getD 0

/-- A delta goes into the block it names, and perhaps to the panel. -/
def appended (block : PartialBlock) (delta : Option J) : PartialBlock × List Delta :=
  let kind := textField S "type" delta
  if kind = some (ascii "text_delta") then
    match block, textField S "text" delta with
    | .text s, some t => (.text (s ++ t), [.text t])
    | .compaction s, some t => (.compaction (s ++ t), [])
    | _, _ => (block, [])
  else if kind = some (ascii "thinking_delta") then
    match block, textField S "thinking" delta with
    | .thinking text signature, some t => (.thinking (text ++ t) signature, [.thinking t])
    | _, _ => (block, [])
  else if kind = some (ascii "signature_delta") then
    match block, textField S "signature" delta with
    | .thinking text signature, some t => (.thinking text (signature ++ t), [])
    | _, _ => (block, [])
  else if kind = some (ascii "input_json_delta") then
    match block, textField S "partial_json" delta with
    | .toolUse id name json, some t => (.toolUse id name (json ++ t), [])
    | _, _ => (block, [])
  else (block, [])

def startDeltas : PartialBlock → List Delta
  | .toolUse id name _ => [.toolUseStarted id name]
  | _ => []

@[grind =] def handleEvent (acc : TurnAccumulator) (event : J) : TurnAccumulator × List Delta :=
  match eventKind S event with
  | .messageStart =>
    match pointer S "message" "usage" event with
    | some u =>
      ({ acc with usage := { acc.usage with
          inputTokens := uGet S u "input_tokens"
          cacheReadInputTokens := uGet S u "cache_read_input_tokens" } }, [])
    | none => (acc, [])
  | .contentBlockStart =>
    let block := openedBlock S (S.get "content_block" event)
    if maxContentBlocks ≤ index S event then (acc, startDeltas block)
    else ({ acc with blocks := place acc.blocks (index S event) block }, startDeltas block)
  | .contentBlockDelta =>
    match acc.blocks[index S event]? with
    | some block =>
      let (block, deltas) := appended S block (S.get "delta" event)
      ({ acc with blocks := acc.blocks.set (index S event) block }, deltas)
    | none => (acc, [])
  | .messageDelta =>
    let acc :=
      match (pointer S "delta" "stop_reason" event).bind S.asStr with
      | some sr =>
        { acc with
          stopReason := some (mapStop sr)
          refused := acc.refused || sr == ascii "refusal" }
      | none => acc
    match S.get "usage" event with
    | some u => ({ acc with usage := { acc.usage with outputTokens := uGet S u "output_tokens" } }, [])
    | none => (acc, [])
  | .error =>
    let kind := ((pointer S "error" "type" event).bind S.asStr).getD (ascii "error")
    let message := ((pointer S "error" "message" event).bind S.asStr).getD []
    ({ acc with error := some (kind ++ ascii ": " ++ truncate message 400) }, [])
  | .messageStop => ({ acc with stopped := true }, [])
  | .unknown => (acc, [])

/-! ## The end of a turn -/

/-- The arguments that the collected text is; no text at all is the call without any. -/
def input (json : Bytes) : Except Bytes J :=
  match S.fromStr json with
  | .ok v => .ok v
  | .error e => if (trim json).isEmpty then .ok S.emptyObject else .error e

def finishedBlock : PartialBlock → Option (ContentBlock J)
  | .text t => if t.isEmpty then none else some (.text t)
  | .thinking text signature => some (.thinking text signature)
  | .redactedThinking data => some (.redactedThinking data)
  | .compaction content => some (.compaction content)
  | .toolUse id name json =>
    match input S json with
    | .ok v => some (.toolUse ⟨id, name, v⟩)
    | .error _ => some (.toolUse ⟨id, name, S.emptyObject⟩)

def badToolJson : PartialBlock → Option Bytes
  | .toolUse _ name json =>
    match input S json with
    | .ok _ => none
    | .error e => some (name ++ ascii ": " ++ e)
  | _ => none

def endedEarly : Bytes :=
  ascii "the response ended before the model finished; the answer above is incomplete"

def finish (acc : TurnAccumulator) : Except AiError (TurnOutcome J) :=
  match acc.error with
  | some message => .error (.provider message)
  | none =>
    if acc.refused then .error .refused
    else if !acc.stopped then .error (.network endedEarly)
    else match (acc.blocks.filterMap (badToolJson S)).getLast? with
      | some detail =>
        .error (.provider (ascii "the model\x27s tool arguments arrived incomplete (" ++ detail ++ ascii ")"))
      | none => .ok ⟨acc.blocks.filterMap (finishedBlock S), acc.stopReason.getD .endTurn, acc.usage⟩

/-! ## The stream -/

/-- The event on a line, if there is one. -/
def eventOf (lineBytes : Bytes) : Option J :=
  let line := trimEndMatches carriageReturn (trimEndMatches newline (Driver.fromUtf8Lossy lineBytes))
  if ascii "data:" <+: line then
    let data := trim (line.drop 5)
    if data.isEmpty then none
    else match S.fromStr data with
      | .ok event => some event
      | .error _ => none
  else none

/-- One line of the stream; what was sent to the panel so far is kept along. -/
def handleLine (s : TurnAccumulator × List Delta) (line : Bytes) : TurnAccumulator × List Delta :=
  match eventOf S line with
  | some event => ((handleEvent S s.1 event).1, s.2 ++ (handleEvent S s.1 event).2)
  | none => s

/-- How a body comes to its end. -/
inductive BodyEnd where
  | eof
  | failed (e : Bytes)
  | cancelled

structure Body where
  chunks : List Bytes
  ending : BodyEnd

def readBody (chunks : List Bytes) : TurnAccumulator × List Delta :=
  (chunks.foldl (LineBuffer.feed newline (handleLine S)) ([], .default, [])).2

/-- What comes of the request. -/
inductive Sending where
  | failed (e : Bytes)
  | answered (status : Nat) (statusText detail : Bytes) (body : Body)

structure Exchange where
  apiKey : Bytes
  cancelled : Bool
  sending : Sending

def streamTurn (x : Exchange) : Except AiError (TurnOutcome J) × List Delta :=
  if x.apiKey.isEmpty then (.error (.missingKey (ascii "anthropic")), [])
  else if x.cancelled then (.error .cancelled, [])
  else match x.sending with
    | .failed e => (.error (.network e), [])
    | .answered status statusText detail body =>
      if 200 ≤ status ∧ status < 300 then
        let (acc, deltas) := readBody S body.chunks
        match body.ending with
        | .eof => (finish S acc, deltas)
        | .failed e => (.error (.network e), deltas)
        | .cancelled => (.error .cancelled, deltas)
      else if status = 401 ∨ status = 403 then (.error .auth, [])
      else if status = 429 then (.error .rateLimited, [])
      else (.error (.provider (statusText ++ ascii ": " ++ truncate detail 400)), [])

end Events

/-! ## What a stream carries -/

/-- What arrived of a tool call: its head and the pieces of its arguments. -/
structure ToolFrames where
  id : Bytes
  name : Bytes
  fragments : List Bytes
  deriving DecidableEq

/-- The text of the arguments. -/
def ToolFrames.text (c : ToolFrames) : Bytes := c.fragments.flatten

section Carried

variable {J : Type} (S : SerdeJson J)

/-- The event opens the block. -/
def opens (i : Nat) (event : J) : Bool :=
  eventKind S event == .contentBlockStart && index S event == i && decide (i < maxContentBlocks)

/-- The head of the tool call that an opening frame describes. -/
def toolHead (cb : Option J) : Option (Bytes × Bytes) :=
  if textField S "type" cb = some (ascii "tool_use") then
    some ((textField S "id" cb).getD [], (textField S "name" cb).getD [])
  else none

/-- The piece of arguments in a delta. -/
def argumentsIn (delta : Option J) : Option Bytes :=
  if textField S "type" delta = some (ascii "input_json_delta") then textField S "partial_json" delta
  else none

def fragment (i : Nat) (event : J) : Option Bytes :=
  if eventKind S event = .contentBlockDelta ∧ index S event = i then argumentsIn S (S.get "delta" event)
  else none

/-- The last event that opens the block, and what came behind it. -/
@[grind =] def lastOpening (i : Nat) : List J → Option (J × List J)
  | [] => none
  | event :: rest =>
    match lastOpening i rest with
    | some found => some found
    | none => if opens S i event then some (event, rest) else none

/-- The tool call in the block, if its last opening is one of a tool. -/
def carried (i : Nat) (events : List J) : Option ToolFrames :=
  (lastOpening S i events).bind fun (opening, later) =>
    (toolHead S (S.get "content_block" opening)).map fun (id, name) =>
      { id := id, name := name, fragments := later.filterMap (fragment S i) }

/-- The events in the bytes of a body. -/
def received (bytes : Bytes) : List J :=
  (LineBuffer.drainLines newline bytes).1.filterMap (eventOf S)

def accumulate (events : List J) : TurnAccumulator :=
  events.foldl (fun acc event => (handleEvent S acc event).1) .default

def isRefusal (event : J) : Bool :=
  eventKind S event == .messageDelta &&
    (pointer S "delta" "stop_reason" event).bind S.asStr == some (ascii "refusal")

/-- The blocks of a stream that hold tool calls, in their order. -/
def toolBlocks (events : List J) : List (Nat × ToolFrames) :=
  (List.range maxContentBlocks).filterMap fun i => (carried S i events).map fun c => (i, c)

/-- The call as it is read. -/
def ToolFrames.use (c : ToolFrames) : ToolUse J :=
  match input S c.text with
  | .ok v => ⟨c.id, c.name, v⟩
  | .error _ => ⟨c.id, c.name, S.emptyObject⟩

/-- The events make a turn: it was ended by the provider, without an error or a refusal, and
the arguments of every tool call in it are JSON or blank. -/
structure Completes (events : List J) : Prop where
  calm : ∀ event ∈ events, eventKind S event ≠ .error
  accepted : ∀ event ∈ events, isRefusal S event = false
  stopped : ∃ event ∈ events, eventKind S event = .messageStop
  readable : ∀ i c, carried S i events = some c → ∃ v, input S c.text = .ok v

/-- The request was answered and its body read to the end, and the events in it make a turn. -/
def Delivers (x : Exchange) (events : List J) : Prop :=
  x.apiKey ≠ [] ∧ x.cancelled = false ∧ ∃ status statusText detail chunks,
    x.sending = .answered status statusText detail ⟨chunks, .eof⟩ ∧ (200 ≤ status ∧ status < 300) ∧
    events = received S chunks.flatten ∧ Completes S events

end Carried

/-- The same exchange, with its body cut into other chunks. -/
inductive Recut : Exchange → Exchange → Prop where
  | body {apiKey : Bytes} {cancelled : Bool} {status : Nat} {statusText detail : Bytes}
      {ending : BodyEnd} {chunks chunks' : List Bytes} (h : chunks.flatten = chunks'.flatten) :
      Recut ⟨apiKey, cancelled, .answered status statusText detail ⟨chunks, ending⟩⟩
        ⟨apiKey, cancelled, .answered status statusText detail ⟨chunks', ending⟩⟩

def PartialBlock.asTool : PartialBlock → Option (Bytes × Bytes × Bytes)
  | toolUse id name json => some (id, name, json)
  | _ => none

def toolAt (i : Nat) (blocks : List PartialBlock) : Option (Bytes × Bytes × Bytes) :=
  blocks[i]?.bind PartialBlock.asTool

variable {J : Type} {S : SerdeJson J} {i : Nat} {events : List J} {event : J} {acc : TurnAccumulator}

/-! ## One body -/

theorem handleLine_foldl (lines : List Bytes) (s : TurnAccumulator × List Delta) :
    (lines.foldl (handleLine S) s).1 =
      (lines.filterMap (eventOf S)).foldl (fun acc event => (handleEvent S acc event).1) s.1 := by
  induction lines generalizing s with
  | nil => rfl
  | cons line lines ih =>
    rw [List.foldl_cons, ih]
    unfold handleLine
    cases he : eventOf S line with
    | none => rw [List.filterMap_cons_none he]
    | some event => rw [List.filterMap_cons_some he, List.foldl_cons]

/-- How a body was cut into chunks does not show. -/
theorem readBody_flatten (chunks : List Bytes) :
    readBody S chunks = (LineBuffer.feed newline (handleLine S) ([], .default, []) chunks.flatten).2 :=
  congrArg Prod.snd (LineBuffer.foldl_feed (handleLine S) _ chunks)

theorem readBody_events (chunks : List Bytes) :
    (readBody S chunks).1 = accumulate S (received S chunks.flatten) := by
  rw [readBody_flatten]
  exact handleLine_foldl _ _

/-! ## One event more -/

theorem lastOpening_snoc (i : Nat) (events : List J) (event : J) :
    lastOpening S i (events ++ [event]) = if opens S i event then some (event, [])
      else (lastOpening S i events).map fun (opening, later) => (opening, later ++ [event]) := by
  induction events with
  | nil =>
    rw [List.nil_append, lastOpening, lastOpening]
    rfl
  | cons first events ih =>
    rw [List.cons_append, lastOpening, ih]
    by_cases hopens : opens S i event = true
    · rw [if_pos hopens, if_pos hopens]
    rw [if_neg hopens, if_neg hopens, lastOpening]
    cases lastOpening S i events with
    | some found => rfl
    | none =>
      by_cases hfirst : opens S i first = true
      · simp only [Option.map_none, if_pos hfirst, Option.map_some]
      · simp only [Option.map_none, if_neg hfirst]

theorem carried_opens (h : opens S i event = true) :
    carried S i (events ++ [event]) =
      (toolHead S (S.get "content_block" event)).map fun (id, name) => ⟨id, name, []⟩ := by
  unfold carried
  rw [lastOpening_snoc, if_pos h]
  rfl

theorem carried_later (h : opens S i event = false) :
    carried S i (events ++ [event]) = (carried S i events).map fun c =>
      { c with fragments := c.fragments ++ (fragment S i event).toList } := by
  unfold carried
  rw [lastOpening_snoc, h, if_neg Bool.false_ne_true]
  cases lastOpening S i events with
  | none => rfl
  | some found =>
    dsimp only [Option.map_some, Option.bind_some]
    rw [Option.map_map, List.filterMap_append]
    have hone : [event].filterMap (fragment S i) = (fragment S i event).toList := by
      cases hf : fragment S i event with
      | none => exact List.filterMap_cons_none hf
      | some t => exact List.filterMap_cons_some hf
    rw [hone]
    rfl

theorem fragment_other (h : eventKind S event ≠ .contentBlockDelta ∨ index S event ≠ i) :
    fragment S i event = none := if_neg (by tauto)

theorem carried_same (hopens : opens S i event = false) (hnone : fragment S i event = none) :
    carried S i (events ++ [event]) = carried S i events := by
  rw [carried_later hopens, hnone]
  simp

/-! ## Blocks -/

theorem openedBlock_asTool (cb : Option J) :
    (openedBlock S cb).asTool = (toolHead S cb).map fun (id, name) => (id, name, []) := by
  unfold openedBlock toolHead
  by_cases htool : textField S "type" cb = some (ascii "tool_use")
  · rw [htool]
    rfl
  rw [if_neg htool]
  dsimp only
  rw [if_neg htool]
  repeat' split
  all_goals rfl

theorem appended_asTool (block : PartialBlock) (delta : Option J) :
    (appended S block delta).1.asTool = block.asTool.map fun (id, name, json) =>
      (id, name, json ++ (argumentsIn S delta).toList.flatten) := by
  unfold appended argumentsIn
  by_cases hkind : textField S "type" delta = some (ascii "input_json_delta")
  · rw [if_pos hkind, hkind]
    cases block with
    | toolUse id name json =>
      cases ht : textField S "partial_json" delta with
      | none => exact congrArg (fun t => some (id, name, t)) (List.append_nil json).symm
      | some t =>
        exact congrArg (fun u => some (id, name, json ++ u)) (List.append_nil t).symm
    | _ => rfl
  · rw [if_neg hkind]
    -- Every other delta leaves the calls as they are.
    have hsame : (appended S block delta).1.asTool = block.asTool := by
      unfold appended
      dsimp only
      rw [if_neg hkind]
      repeat' split
      all_goals rfl
    rw [Option.toList_none, List.flatten_nil]
    simp only [List.append_nil]
    exact hsame.trans Option.map_id'.symm

theorem toolAt_place (blocks : List PartialBlock) (j idx : Nat) (block : PartialBlock) :
    toolAt j (place blocks idx block) = if j = idx then block.asTool else toolAt j blocks := by
  unfold toolAt place
  by_cases hj : j = idx
  · subst hj
    have hlt : j < (blocks ++ List.replicate (j + 1 - blocks.length) (PartialBlock.text [])).length := by
      rw [List.length_append, List.length_replicate]
      omega
    rw [List.getElem?_set_self hlt, if_pos rfl, Option.bind_some]
  · rw [List.getElem?_set_ne (Ne.symm hj), if_neg hj, List.getElem?_append]
    split
    · rfl
    · next hge =>
      rw [List.getElem?_eq_none (Nat.le_of_not_lt hge), List.getElem?_replicate]
      split <;> rfl

theorem toolAt_set (blocks : List PartialBlock) (j idx : Nat) {old block : PartialBlock}
    (hold : blocks[idx]? = some old) :
    toolAt j (blocks.set idx block) = if j = idx then block.asTool else toolAt j blocks := by
  unfold toolAt
  by_cases hj : j = idx
  · subst hj
    rw [List.getElem?_set_self (List.getElem?_eq_some_iff.mp hold).1, if_pos rfl, Option.bind_some]
  · rw [List.getElem?_set_ne (Ne.symm hj), if_neg hj]

/-! ## The blocks are what the events carry -/

theorem accumulate_snoc (events : List J) (event : J) :
    accumulate S (events ++ [event]) = (handleEvent S (accumulate S events) event).1 := by
  unfold accumulate
  rw [List.foldl_append]
  rfl

theorem handleEvent_blocks (acc : TurnAccumulator) (event : J) :
    (handleEvent S acc event).1.blocks =
      match eventKind S event with
      | .contentBlockStart =>
        if maxContentBlocks ≤ index S event then acc.blocks
        else place acc.blocks (index S event) (openedBlock S (S.get "content_block" event))
      | .contentBlockDelta =>
        match acc.blocks[index S event]? with
        | some block =>
          acc.blocks.set (index S event) (appended S block (S.get "delta" event)).1
        | none => acc.blocks
      | _ => acc.blocks := by
  unfold handleEvent
  cases eventKind S event with
  | messageStart | contentBlockStart | contentBlockDelta => dsimp only; split <;> rfl
  | messageDelta => dsimp only; split <;> split <;> rfl
  | error => rfl
  | messageStop => rfl
  | unknown => rfl

/-- The block under construction is what the events carry for it. -/
theorem toolAt_accumulate (i : Nat) (events : List J) : toolAt i (accumulate S events).blocks =
      (carried S i events).map fun c => (c.id, c.name, c.text) := by
  induction events using List.reverseRecOn with
  | nil => rfl
  | append_singleton events event ih =>
    rw [accumulate_snoc, handleEvent_blocks]
    -- An event that neither opens the block nor adds to it changes nothing in it.
    have hkeep (hopens : opens S i event = false) (hnone : fragment S i event = none) :
        toolAt i (accumulate S events).blocks =
          (carried S i (events ++ [event])).map fun c => (c.id, c.name, c.text) := by
      rw [carried_same hopens hnone]
      exact ih
    have hother (hstart : eventKind S event ≠ .contentBlockStart) : opens S i event = false := by
      unfold opens
      rw [beq_eq_false_iff_ne.mpr hstart, Bool.false_and, Bool.false_and]
    cases hkind : eventKind S event with
    | contentBlockStart =>
      have hnone : fragment S i event = none := fragment_other (.inl (by rw [hkind]; decide))
      dsimp only
      by_cases hmax : maxContentBlocks ≤ index S event
      · rw [if_pos hmax]
        refine hkeep (Bool.eq_false_iff.mpr fun hopens => ?_) hnone
        obtain ⟨⟨-, hidx⟩, hlt⟩ : (_ ∧ index S event = i) ∧ i < maxContentBlocks := by
          simpa [opens] using hopens
        omega
      rw [if_neg hmax, toolAt_place]
      by_cases hi : i = index S event
      · have hopens : opens S i event = true := by
          unfold opens
          rw [hkind, hi]
          simpa using hmax
        rw [if_pos hi, openedBlock_asTool, carried_opens hopens, Option.map_map]
        rfl
      · rw [if_neg hi]
        refine hkeep ?_ hnone
        unfold opens
        rw [beq_eq_false_iff_ne.mpr (Ne.symm hi), Bool.and_false, Bool.false_and]
    | contentBlockDelta =>
      have hopens : opens S i event = false := hother (by rw [hkind]; decide)
      dsimp only
      by_cases hi : i = index S event
      · rw [carried_later hopens]
        have hfrag : fragment S i event = argumentsIn S (S.get "delta" event) := if_pos ⟨hkind, hi.symm⟩
        cases hblock : (accumulate S events).blocks[index S event]? with
        | none =>
          have hat : toolAt i (accumulate S events).blocks = none := by
            unfold toolAt
            rw [hi, hblock]
            rfl
          rw [hat] at ih
          rw [Option.map_eq_none_iff.mp ih.symm, hat]
          rfl
        | some block =>
          have hat : toolAt i (accumulate S events).blocks = block.asTool := by
            unfold toolAt
            rw [hi, hblock]
            rfl
          dsimp only
          rw [toolAt_set _ _ _ hblock, if_pos hi, appended_asTool, ← hat, ih, hfrag, Option.map_map,
            Option.map_map]
          refine Option.map_congr fun c _ => ?_
          simp only [Function.comp, ToolFrames.text, List.flatten_append]
      · have hnone : fragment S i event = none := fragment_other (.inr (Ne.symm hi))
        cases hblock : (accumulate S events).blocks[index S event]? with
        | none => exact hkeep hopens hnone
        | some block =>
          dsimp only
          rw [toolAt_set _ _ _ hblock, if_neg hi]
          exact hkeep hopens hnone
    | messageStart | messageDelta | error | messageStop | unknown =>
      exact hkeep (hother (by rw [hkind]; decide)) (fragment_other (.inl (by rw [hkind]; decide)))

/-! ## Flags and sizes -/

theorem length_place {blocks : List PartialBlock} {idx : Nat} (block : PartialBlock)
    (hlen : blocks.length ≤ maxContentBlocks) (hidx : idx < maxContentBlocks) :
    (place blocks idx block).length ≤ maxContentBlocks := by
  unfold place
  rw [List.length_set, List.length_append, List.length_replicate]
  omega

/-- No stream makes more blocks than there may be. -/
theorem blocks_bounded (events : List J) :
    (accumulate S events).blocks.length ≤ maxContentBlocks := by
  induction events using List.reverseRecOn with
  | nil => exact Nat.zero_le _
  | append_singleton events event ih =>
    rw [accumulate_snoc, handleEvent_blocks]
    cases eventKind S event with
    | contentBlockStart =>
      dsimp only
      split
      · exact ih
      · next hlt => exact length_place _ ih (Nat.lt_of_not_le hlt)
    | contentBlockDelta =>
      dsimp only
      split
      · rw [List.length_set]; exact ih
      · exact ih
    | messageStart | messageDelta | error | messageStop | unknown => exact ih

theorem handleEvent_error (acc : TurnAccumulator) (event : J) :
    (handleEvent S acc event).1.error = none ↔ acc.error = none ∧ eventKind S event ≠ .error := by
  unfold handleEvent
  cases hkind : eventKind S event with
  | error | messageStop | unknown => simp
  | messageStart | contentBlockStart | contentBlockDelta => dsimp only; split <;> simp
  | messageDelta => dsimp only; split <;> split <;> simp

theorem handleEvent_refused (acc : TurnAccumulator) (event : J) :
    (handleEvent S acc event).1.refused = (acc.refused || isRefusal S event) := by
  unfold handleEvent isRefusal
  cases hkind : eventKind S event with
  | messageDelta =>
    dsimp only
    cases hsr : (pointer S "delta" "stop_reason" event).bind S.asStr <;>
      cases S.get "usage" event <;> simp
  | error | messageStop | unknown => simp
  | messageStart | contentBlockStart | contentBlockDelta => dsimp only; split <;> simp

theorem handleEvent_stopped (acc : TurnAccumulator) (event : J) :
    (handleEvent S acc event).1.stopped = (acc.stopped || eventKind S event == .messageStop) := by
  unfold handleEvent
  cases hkind : eventKind S event with
  | messageStop | error | unknown => simp
  | messageStart | contentBlockStart | contentBlockDelta => dsimp only; split <;> simp
  | messageDelta => dsimp only; split <;> split <;> simp

theorem error_accumulate (events : List J) :
    (accumulate S events).error = none ↔ ∀ event ∈ events, eventKind S event ≠ .error := by
  induction events using List.reverseRecOn with
  | nil => exact iff_of_true rfl nofun
  | append_singleton events event ih =>
    rw [accumulate_snoc, handleEvent_error, ih, List.forall_mem_append, List.forall_mem_singleton]

theorem refused_accumulate (events : List J) :
    (accumulate S events).refused = false ↔ ∀ event ∈ events, isRefusal S event = false := by
  induction events using List.reverseRecOn with
  | nil => exact iff_of_true rfl nofun
  | append_singleton events event ih =>
    rw [accumulate_snoc, handleEvent_refused, Bool.or_eq_false_iff, ih, List.forall_mem_append,
      List.forall_mem_singleton]

theorem stopped_accumulate (events : List J) :
    (accumulate S events).stopped = true ↔ ∃ event ∈ events, eventKind S event = .messageStop := by
  induction events using List.reverseRecOn with
  | nil => exact iff_of_false Bool.false_ne_true fun ⟨_, h, _⟩ => absurd h List.not_mem_nil
  | append_singleton events event ih =>
    rw [accumulate_snoc, handleEvent_stopped, Bool.or_eq_true, ih, beq_iff_eq]
    simp only [List.mem_append, List.mem_singleton, or_and_right, exists_or, exists_eq_left]

/-! ## The message -/

/-- What a function finds in a list, by its places. -/
theorem filterMap_range {α β : Type} (f : α → Option β) :
    ∀ (l : List α) {n : Nat}, l.length ≤ n → l.filterMap f = (List.range n).filterMap fun i => l[i]?.bind f
  | [], n, _ => by
    rw [List.filterMap_nil]
    exact (List.filterMap_eq_nil_iff.mpr fun _ _ => rfl).symm
  | a :: l, 0, h => absurd h (Nat.not_succ_le_zero _)
  | a :: l, n + 1, h => by
    have hl := filterMap_range f l (Nat.le_of_succ_le_succ h)
    rw [List.range_succ_eq_map, List.filterMap_cons, List.filterMap_cons, List.filterMap_map, hl]
    rfl

theorem finishedBlock_asToolUse (block : PartialBlock) :
    (finishedBlock S block).bind ContentBlock.asToolUse =
      block.asTool.map fun (id, name, json) => ToolFrames.use S ⟨id, name, [json]⟩ := by
  cases block with
  | text t =>
    unfold finishedBlock
    dsimp only
    split <;> rfl
  | toolUse id name json =>
    have htext : ToolFrames.text ⟨id, name, [json]⟩ = json := List.flatten_singleton
    unfold finishedBlock
    dsimp only [PartialBlock.asTool, Option.map_some, ToolFrames.use]
    rw [htext]
    cases input S json <;> rfl
  | thinking text signature => rfl
  | redactedThinking data => rfl
  | compaction content => rfl

theorem use_congr {c d : ToolFrames} (hid : c.id = d.id) (hname : c.name = d.name) (htext : c.text = d.text) :
    ToolFrames.use S c = ToolFrames.use S d := by
  unfold ToolFrames.use
  rw [hid, hname, htext]

/-- The tool calls of the message are those the stream carries. -/
theorem toolUses_accumulate (events : List J) :
    ((accumulate S events).blocks.filterMap (finishedBlock S)).filterMap ContentBlock.asToolUse =
      (toolBlocks S events).map fun (_, c) => c.use S := by
  rw [List.filterMap_filterMap]
  have hblock : (fun block => (finishedBlock S block).bind ContentBlock.asToolUse) = fun block =>
      block.asTool.map fun (id, name, json) => ToolFrames.use S ⟨id, name, [json]⟩ :=
    funext finishedBlock_asToolUse
  rw [hblock, filterMap_range _ _ (blocks_bounded events), toolBlocks, List.map_filterMap]
  refine List.filterMap_congr fun i _ => ?_
  have hat := toolAt_accumulate (S := S) i events
  unfold toolAt at hat
  refine (Option.map_bind.symm : _ = Option.map _ _).trans ?_
  rw [hat, Option.map_map, Option.map_map]
  exact Option.map_congr fun c _ => use_congr rfl rfl List.flatten_singleton

theorem badToolJson_eq_none (block : PartialBlock) : badToolJson S block = none ↔
      ∀ id name json, block.asTool = some (id, name, json) → ∃ v, input S json = .ok v := by
  cases block with
  | toolUse id name json =>
    unfold badToolJson
    dsimp only
    cases hinput : input S json with
    | ok v =>
      refine iff_of_true rfl ?_
      rintro _ _ _ ⟨⟩
      exact ⟨v, hinput⟩
    | error e =>
      refine iff_of_false (Option.some_ne_none _) fun h => ?_
      obtain ⟨v, hv⟩ := h id name json rfl
      cases hinput.symm.trans hv
  | _ => exact iff_of_true rfl fun _ _ _ h => absurd h.symm (Option.some_ne_none _)

/-- Nothing is wrong with any arguments just if all that is carried can be read. -/
theorem readable_accumulate (events : List J) :
    (accumulate S events).blocks.filterMap (badToolJson S) = [] ↔
      ∀ i c, carried S i events = some c → ∃ v, input S c.text = .ok v := by
  rw [List.filterMap_eq_nil_iff]
  constructor
  · intro h i c hc
    have hat := toolAt_accumulate (S := S) i events
    rw [hc, Option.map_some] at hat
    obtain ⟨block, hblock, htool⟩ := Option.bind_eq_some_iff.mp hat
    exact (badToolJson_eq_none block).mp (h block (List.mem_of_getElem? hblock)) _ _ _ htool
  · intro h block hmem
    refine (badToolJson_eq_none block).mpr fun id name json htool => ?_
    obtain ⟨i, hi⟩ := List.getElem?_of_mem hmem
    have hat := toolAt_accumulate (S := S) i events
    rw [toolAt, hi, Option.bind_some, htool] at hat
    obtain ⟨c, hc, heq⟩ := Option.map_eq_some_iff.mp hat.symm
    obtain ⟨v, hv⟩ := h i c hc
    cases heq
    exact ⟨v, hv⟩

theorem finish_ok {outcome : TurnOutcome J} (h : finish S (accumulate S events) = .ok outcome) :
    Completes S events ∧
      outcome.content.filterMap ContentBlock.asToolUse = (toolBlocks S events).map fun (_, c) => c.use S := by
  unfold finish at h
  cases herror : (accumulate S events).error with
  | some message => rw [herror] at h; cases h
  | none =>
    rw [herror] at h
    dsimp only at h
    split_ifs at h with hrefused hstopped
    cases hbad : ((accumulate S events).blocks.filterMap (badToolJson S)).getLast? with
    | some detail => rw [hbad] at h; cases h
    | none =>
      rw [hbad] at h
      cases h
      exact ⟨⟨(error_accumulate events).mp herror,
        (refused_accumulate events).mp (Bool.eq_false_iff.mpr hrefused),
        (stopped_accumulate events).mp (by simpa using hstopped),
        (readable_accumulate events).mp (List.getLast?_eq_none_iff.mp hbad)⟩, toolUses_accumulate events⟩

theorem finish_of_completes (h : Completes S events) :
    ∃ outcome, finish S (accumulate S events) = .ok outcome := by
  unfold finish
  rw [(error_accumulate events).mpr h.calm]
  dsimp only
  rw [if_neg (Bool.eq_false_iff.mp ((refused_accumulate events).mpr h.accepted)),
    (stopped_accumulate events).mpr h.stopped, (readable_accumulate events).mpr h.readable]
  exact ⟨_, rfl⟩

theorem streamTurn_ok {x : Exchange} {outcome : TurnOutcome J} (h : (streamTurn S x).1 = .ok outcome) :
    ∃ events, Delivers S x events ∧
      outcome.content.filterMap ContentBlock.asToolUse = (toolBlocks S events).map fun (_, c) => c.use S := by
  unfold streamTurn at h
  split_ifs at h with hkey hcancel
  cases hsend : x.sending with
  | failed e => rw [hsend] at h; cases h
  | answered status statusText detail body =>
    rw [hsend] at h
    dsimp only at h
    split_ifs at h with hstatus
    obtain ⟨chunks, ending⟩ := body
    cases ending with
    | failed e => cases h
    | cancelled => cases h
    | eof =>
      dsimp only at h
      rw [readBody_events] at h
      obtain ⟨hcompletes, htools⟩ := finish_ok h
      refine ⟨_, ⟨?_, Bool.eq_false_iff.mpr hcancel, status, statusText, detail, chunks, hsend, hstatus, rfl,
        hcompletes⟩, htools⟩
      simpa using hkey

theorem Delivers.ok {x : Exchange} (h : Delivers S x events) :
    ∃ outcome, (streamTurn S x).1 = .ok outcome := by
  obtain ⟨hkey, hcancel, status, statusText, detail, chunks, hsend, hstatus, rfl, hcompletes⟩ := h
  unfold streamTurn
  rw [if_neg (by simpa using hkey), if_neg (Bool.eq_false_iff.mp hcancel), hsend]
  dsimp only
  rw [if_pos hstatus]
  dsimp only
  rw [readBody_events]
  exact finish_of_completes hcompletes

theorem Delivers.unique {x : Exchange} {events' : List J} (h : Delivers S x events)
    (h' : Delivers S x events') : events = events' := by
  obtain ⟨-, -, _, _, _, chunks, hsend, -, rfl, -⟩ := h
  obtain ⟨-, -, _, _, _, chunks', hsend', -, rfl, -⟩ := h'
  cases hsend.symm.trans hsend'
  rfl

/-- The outcome does not depend on the chunks, and neither does what is shown. -/
theorem streamTurn_recut {x y : Exchange} (h : Recut x y) : streamTurn S x = streamTurn S y := by
  obtain ⟨h⟩ := h
  unfold streamTurn
  dsimp only
  rw [readBody_flatten, readBody_flatten, h]

end RedDb.Ai.Anthropic
