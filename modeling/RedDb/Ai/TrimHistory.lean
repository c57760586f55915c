import Mathlib
import RedDb.Lib.Numerals

/-!
# RedDb — trimming the transcript of a turn

A provider that does not manage its context has the transcript trimmed here, before a step that would
be sent with too many tokens. Each tool result outside the recent tail is rewritten in place to a line
that names its tool and its size, and a line of that form is not rewritten again.

* `runHistory_eq` — early trims leave the history trimmed up to where the last one cut;
* `Rewritten` — what a trimmed history still has of the whole one;
* `trim_any_time` — and a trim at the end makes the same of it as if it were the only one.
-/

namespace RedDb.Ai.Turn

open ByteText

/-! ## Messages -/

inductive Role where
  | user | assistant

inductive DocumentSource where
  | pdf (data : Bytes)
  | text (data : Bytes)

inductive ContentBlock (J : Type) where
  | text (text : Bytes)
  | thinking (text signature : Bytes)
  | redactedThinking (data : Bytes)
  | toolUse (id name : Bytes) (input : J)
  | toolResult (toolUseId content : Bytes) (isError : Bool)
  | image (mediaType data : Bytes)
  | document (source : DocumentSource) (title : Option Bytes)
  | compaction (content : Bytes)

structure Message (J : Type) where
  role : Role
  content : List (ContentBlock J)

section Trim

variable {J : Type}

/-- The bytes of a block that count towards its tokens; `jsonText` prints the arguments of a call. -/
def blockBytes (jsonText : J → Bytes) : ContentBlock J → Nat
  | .text text => text.length
  | .thinking text signature => text.length + signature.length
  | .redactedThinking data => data.length
  | .compaction content => content.length
  | .toolUse _ name input => name.length + (jsonText input).length
  | .toolResult _ content _ => content.length
  | .image _ data => data.length
  | .document (.pdf data) title | .document (.text data) title =>
    data.length + title.elim 0 List.length

def blocks (messages : List (Message J)) : List (ContentBlock J) := messages.flatMap Message.content

/-- Four bytes to the token. -/
def estimateTokens (jsonText : J → Bytes) (messages : List (Message J)) : Nat :=
  ((blocks messages).map (blockBytes jsonText)).sum / 4

def localTrimThresholdTokens : Nat := 100000

def keepRecentMessages : Nat := 8

/-! ## Trimming -/

def stubHead : Bytes := ascii "[result of "

def droppedStub (tool : Bytes) (bytes : Nat) : Bytes :=
  stubHead ++ tool ++ ascii " (" ++ decimal bytes ++ ascii " bytes) dropped to save context]"

/-- The id and the tool of a call. -/
def asUse : ContentBlock J → Option (Bytes × Bytes)
  | .toolUse id name _ => some (id, name)
  | _ => none

def asResult : ContentBlock J → Option Bytes
  | .toolResult id _ _ => some id
  | _ => none

def toolsOf (messages : List (Message J)) : List (Bytes × Bytes) := (blocks messages).filterMap asUse

/-- Which tool produced a result; of two calls with one id the later one. -/
def toolName (tools : List (Bytes × Bytes)) (id : Bytes) : Bytes :=
  (tools.reverse.lookup id).getD (ascii "a tool")

/-- The stub for a block that is one more result to drop. -/
def newStub (tools : List (Bytes × Bytes)) : ContentBlock J → Option (ContentBlock J)
  | .toolResult id content isError =>
    if stubHead.isPrefixOf content then none
    else some (.toolResult id (droppedStub (toolName tools id) content.length) isError)
  | _ => none

def stubMessage (tools : List (Bytes × Bytes)) (m : Message J) : Message J :=
  { m with content := m.content.map fun b => (newStub tools b).getD b }

def newStubs (tools : List (Bytes × Bytes)) (m : Message J) : Nat :=
  m.content.countP fun b => (newStub tools b).isSome

/-- The messages before `cut` but the first: `take(cut).skip(1)`. -/
def beforeCut (cut i : Nat) : Bool := 1 ≤ i && i < cut

def stubBefore (tools : List (Bytes × Bytes)) (cut : Nat) (messages : List (Message J)) :
    List (Message J) :=
  messages.mapIdx fun i m => if beforeCut cut i then stubMessage tools m else m

def stubsBefore (tools : List (Bytes × Bytes)) (cut : Nat) (messages : List (Message J)) : Nat :=
  (messages.mapIdx fun i m => if beforeCut cut i then newStubs tools m else 0).sum

/-- The history after a trim, with how many results it dropped. -/
def trimHistory (messages : List (Message J)) : List (Message J) × Nat :=
  if messages.length < keepRecentMessages then (messages, 0)
  else
    let cut := messages.length - keepRecentMessages
    (stubBefore (toolsOf messages) cut messages, stubsBefore (toolsOf messages) cut messages)

inductive HistoryOp (J : Type) where
  | append (m : Message J)
  | trim

/-- The history after some appends and trims, with how many results were dropped. -/
@[grind =] def runHistory : List (Message J) × Nat → List (HistoryOp J) → List (Message J) × Nat
  | s, [] => s
  | (messages, dropped), .append m :: ops => runHistory (messages ++ [m], dropped) ops
  | (messages, dropped), .trim :: ops =>
    let (messages', n) := trimHistory messages
    runHistory (messages', dropped + n) ops

/-- The messages that are appended, as they were. -/
@[grind =] def appended : List (HistoryOp J) → List (Message J)
  | [] => []
  | .append m :: ops => m :: appended ops
  | .trim :: ops => appended ops

/-- What a step of the turn does to the history before it is sent. -/
def beforeStep (jsonText : J → Bytes) (managed : Bool) (messages : List (Message J)) :
    List (Message J) × Nat :=
  if !managed && localTrimThresholdTokens < estimateTokens jsonText messages then trimHistory messages
  else (messages, 0)

/-- The steps of a turn trim or leave the history as it is, whatever the estimates come to. -/
theorem beforeStep_run (jsonText : J → Bytes) (managed : Bool) (messages : List (Message J)) :
    ∃ ops : List (HistoryOp J), appended ops = [] ∧
      beforeStep jsonText managed messages = runHistory (messages, 0) ops := by
  unfold beforeStep
  split
  · exact ⟨[.trim], rfl, by simp [runHistory]⟩
  · exact ⟨[], rfl, rfl⟩

/-! ## What is promised -/

/-- The ids of calls, with the places of their messages. -/
def usesAt (messages : List (Message J)) : List (Nat × Bytes) :=
  messages.zipIdx.flatMap fun (m, i) => (m.content.filterMap asUse).map fun u => (i, u.1)

def resultsAt (messages : List (Message J)) : List (Nat × Bytes) :=
  messages.zipIdx.flatMap fun (m, i) => (m.content.filterMap asResult).map fun id => (i, id)

/-- Each call has an id of its own and a result, which does not come before it. -/
structure Paired (messages : List (Message J)) : Prop where
  once : ((usesAt messages).map Prod.snd).Nodup
  answered : ∀ u ∈ usesAt messages, ∃ r ∈ resultsAt messages, r.2 = u.2
  ordered : ∀ u ∈ usesAt messages, ∀ r ∈ resultsAt messages, r.2 = u.2 → u.1 ≤ r.1

/-- A block of the history as it is after trims: the same, or the stub of a result, with the tool that
was called for it and the size it had. -/
def BlockKept (whole : List (Message J)) (b b' : ContentBlock J) : Prop :=
  b' = b ∨ ∃ id content isError tool, b = .toolResult id content isError ∧
    b' = .toolResult id (droppedStub tool content.length) isError ∧
    ∀ name, (id, name) ∈ toolsOf whole → tool = name

def asThinking : ContentBlock J → Option (ContentBlock J)
  | .thinking text signature => some (.thinking text signature)
  | .redactedThinking data => some (.redactedThinking data)
  | _ => none

def thinkingOf (messages : List (Message J)) : List (ContentBlock J) := (blocks messages).filterMap asThinking

/-- The calls that the results answer. -/
def resultsOf (messages : List (Message J)) : List Bytes := (blocks messages).filterMap asResult

structure Rewritten (whole t : List (Message J)) : Prop where
  first : t[0]? = whole[0]?
  recent : t.drop (t.length - keepRecentMessages) = whole.drop (whole.length - keepRecentMessages)
  thinking : thinkingOf t = thinkingOf whole
  calls : toolsOf t = toolsOf whole
  results : resultsOf t = resultsOf whole
  /-- Message by message, and block by block. -/
  messages : List.Forall₂ (fun m m' => m'.role = m.role ∧ List.Forall₂ (BlockKept whole) m.content m'.content)
    whole t

/-- Every call has a result. -/
def Answered (messages : List (Message J)) : Prop := ∀ use ∈ toolsOf messages, use.1 ∈ resultsOf messages

/-! ## One message -/

variable {tools : List (Bytes × Bytes)} {m : Message J} {b : ContentBlock J}

theorem newStub_eq_some {b' : ContentBlock J} (h : newStub tools b = some b') :
    ∃ id content isError, b = .toolResult id content isError ∧
      b' = .toolResult id (droppedStub (toolName tools id) content.length) isError := by
  cases b with
  | toolResult id content isError =>
    rw [newStub] at h
    split at h
    · cases h
    · exact ⟨id, content, isError, rfl, (Option.some.inj h).symm⟩
  | _ => cases h

theorem droppedStub_head (tool : Bytes) (n : Nat) : stubHead.isPrefixOf (droppedStub tool n) = true := by
  rw [droppedStub, List.append_assoc, List.append_assoc, List.append_assoc, List.isPrefixOf_iff_prefix]
  exact List.prefix_append _ _

/-- A stub is recognised by how it begins, whatever the tools. -/
theorem newStub_stubbed (tools' : List (Bytes × Bytes)) (b : ContentBlock J) :
    newStub tools' ((newStub tools b).getD b) = none := by
  cases h : newStub tools b with
  | some b' =>
    obtain ⟨id, content, isError, -, rfl⟩ := newStub_eq_some h
    rw [Option.getD_some, newStub, if_pos (droppedStub_head _ _)]
  | none =>
    rw [Option.getD_none]
    cases b with
    | toolResult id content isError =>
      rw [newStub] at h ⊢
      split at h
      · rename_i hstub
        rw [if_pos hstub]
      · cases h
    | _ => rfl

theorem stubMessage_idem (tools' : List (Bytes × Bytes)) (m : Message J) :
    stubMessage tools' (stubMessage tools m) = stubMessage tools m := by
  unfold stubMessage
  simp only [List.map_map, Message.mk.injEq, true_and]
  refine List.map_congr_left fun b _ => ?_
  rw [Function.comp_apply, newStub_stubbed, Option.getD_none]

theorem newStubs_stubbed (tools' : List (Bytes × Bytes)) (m : Message J) :
    newStubs tools' (stubMessage tools m) = 0 := by
  unfold newStubs stubMessage
  rw [List.countP_eq_zero]
  intro b hb
  obtain ⟨b, -, rfl⟩ := List.mem_map.mp hb
  rw [newStub_stubbed]
  exact Bool.false_ne_true

/-- Of the tools only the names of a message's own results matter. -/
theorem newStub_congr {tools' : List (Bytes × Bytes)}
    (h : ∀ id, asResult b = some id → toolName tools' id = toolName tools id) :
    newStub tools' b = newStub tools b := by
  cases b with
  | toolResult id content isError => rw [newStub, newStub, h id rfl]
  | _ => rfl

theorem stubMessage_congr {tools' : List (Bytes × Bytes)}
    (h : ∀ id ∈ m.content.filterMap asResult, toolName tools' id = toolName tools id) :
    stubMessage tools' m = stubMessage tools m ∧ newStubs tools' m = newStubs tools m := by
  have hsame : ∀ b ∈ m.content, newStub tools' b = newStub tools b := fun b hb =>
    newStub_congr fun id hid => h id (List.mem_filterMap.mpr ⟨b, hb, hid⟩)
  constructor
  · unfold stubMessage
    rw [List.map_congr_left fun b hb => by rw [hsame b hb]]
  · unfold newStubs
    exact List.countP_congr fun b hb => by rw [hsame b hb]

/-- A stub stands for a result of the same call, and is nothing else. -/
theorem stubbed_kind (b : ContentBlock J) :
    asUse ((newStub tools b).getD b) = asUse b ∧ asResult ((newStub tools b).getD b) = asResult b ∧
      asThinking ((newStub tools b).getD b) = asThinking b := by
  cases h : newStub tools b with
  | none => exact ⟨rfl, rfl, rfl⟩
  | some b' =>
    obtain ⟨id, content, isError, rfl, rfl⟩ := newStub_eq_some h
    exact ⟨rfl, rfl, rfl⟩

/-! ## One trim -/

variable {messages rest whole : List (Message J)} {cut cut' i : Nat}

@[simp] theorem beforeCut_zero (i : Nat) : beforeCut 0 i = false := by simp [beforeCut]

@[simp] theorem length_stubBefore : (stubBefore tools cut messages).length = messages.length :=
  List.length_mapIdx

theorem getElem?_stubBefore (i : Nat) : (stubBefore tools cut messages)[i]? =
    messages[i]?.map fun m => if beforeCut cut i then stubMessage tools m else m :=
  List.getElem?_mapIdx

@[simp] theorem stubBefore_zero : stubBefore tools 0 messages = messages := by
  refine List.ext_getElem? fun i => ?_
  rw [getElem?_stubBefore]
  simp

@[simp] theorem sum_mapIdx_zero {α : Type*} (l : List α) : (l.mapIdx fun _ _ => 0).sum = 0 := by
  induction l with
  | nil => rfl
  | cons a l ih => rw [List.mapIdx_cons, List.sum_cons, ih]

@[simp] theorem stubsBefore_zero : stubsBefore tools 0 messages = 0 := by
  unfold stubsBefore
  simp

/-- A history that is too short is one that nothing is cut from. -/
theorem trimHistory_eq (messages : List (Message J)) : trimHistory messages =
      (stubBefore (toolsOf messages) (messages.length - keepRecentMessages) messages,
        stubsBefore (toolsOf messages) (messages.length - keepRecentMessages) messages) := by
  unfold trimHistory
  split
  · rename_i hshort
    rw [Nat.sub_eq_zero_of_le (Nat.le_of_lt hshort), stubBefore_zero, stubsBefore_zero]
  · rfl

theorem beforeCut_of_le (h : cut ≤ i) : beforeCut cut i = false := by
  unfold beforeCut
  rw [Bool.and_eq_false_iff, decide_eq_false_iff_not, decide_eq_false_iff_not]
  omega

theorem stubBefore_append (h : cut ≤ messages.length) :
    stubBefore tools cut (messages ++ rest) = stubBefore tools cut messages ++ rest := by
  refine List.ext_getElem? fun i => ?_
  rw [getElem?_stubBefore]
  rcases Nat.lt_or_ge i messages.length with hi | hi
  · rw [List.getElem?_append_left hi, List.getElem?_append_left (by simpa using hi), getElem?_stubBefore]
  · rw [List.getElem?_append_right hi, List.getElem?_append_right (by simpa using hi), length_stubBefore]
    simp [beforeCut_of_le (Nat.le_trans h hi)]

theorem stubsBefore_append (h : cut ≤ messages.length) :
    stubsBefore tools cut (messages ++ rest) = stubsBefore tools cut messages := by
  unfold stubsBefore
  rw [List.mapIdx_append, List.sum_append]
  have hpast : (rest.mapIdx fun i m => if beforeCut cut (i + messages.length) then newStubs tools m else 0) =
      rest.mapIdx fun _ _ => 0 := by
    refine List.ext_getElem? fun i => ?_
    have hi : beforeCut cut (i + messages.length) = false :=
      beforeCut_of_le (Nat.le_trans h (Nat.le_add_left ..))
    simp [hi]
  rw [hpast]
  simp

theorem sum_mapIdx_add {α : Type*} (l : List α) (f g : Nat → α → Nat) :
    (l.mapIdx f).sum + (l.mapIdx g).sum = (l.mapIdx fun i a => f i a + g i a).sum := by
  induction l generalizing f g with
  | nil => rfl
  | cons a l ih =>
    simp only [List.mapIdx_cons, List.sum_cons, ← ih]
    omega

/-- What is read off the blocks in the same way from a stub as from its result. -/
theorem filterMap_stubBefore {β : Type*} {f : ContentBlock J → Option β}
    (hf : ∀ b, f ((newStub tools b).getD b) = f b) :
    (blocks (stubBefore tools cut messages)).filterMap f = (blocks messages).filterMap f := by
  unfold blocks stubBefore
  rw [List.filterMap_flatMap, List.filterMap_flatMap, List.flatMap_def, List.flatMap_def]
  refine congrArg List.flatten (List.ext_getElem? fun i => ?_)
  simp only [List.getElem?_map, List.getElem?_mapIdx, Option.map_map]
  refine Option.map_congr fun m _ => ?_
  simp only [Function.comp_apply]
  split
  · unfold stubMessage
    rw [List.filterMap_map]
    exact List.filterMap_congr fun b _ => hf b
  · rfl

theorem toolsOf_stubBefore : toolsOf (stubBefore tools cut messages) = toolsOf messages :=
  filterMap_stubBefore fun b => (stubbed_kind b).1

theorem resultsOf_stubBefore : resultsOf (stubBefore tools cut messages) = resultsOf messages :=
  filterMap_stubBefore fun b => (stubbed_kind b).2.1

theorem thinkingOf_stubBefore : thinkingOf (stubBefore tools cut messages) = thinkingOf messages :=
  filterMap_stubBefore fun b => (stubbed_kind b).2.2

/-! ## The tool of a result -/

theorem mem_usesAt {u : Nat × Bytes} :
    u ∈ usesAt messages ↔ ∃ m name, messages[u.1]? = some m ∧ (u.2, name) ∈ m.content.filterMap asUse := by
  obtain ⟨i, id⟩ := u
  unfold usesAt
  simp only [List.mem_flatMap, List.mem_map, Prod.exists, Prod.mk.injEq, List.mk_mem_zipIdx_iff_getElem?]
  constructor
  · rintro ⟨m, j, hm, id', name, hname, rfl, rfl⟩
    exact ⟨m, name, hm, hname⟩
  · rintro ⟨m, name, hm, hname⟩
    exact ⟨m, i, hm, id, name, hname, rfl, rfl⟩

theorem mem_resultsAt {r : Nat × Bytes} :
    r ∈ resultsAt messages ↔ ∃ m, messages[r.1]? = some m ∧ r.2 ∈ m.content.filterMap asResult := by
  obtain ⟨i, id⟩ := r
  unfold resultsAt
  simp only [List.mem_flatMap, List.mem_map, Prod.exists, Prod.mk.injEq, List.mk_mem_zipIdx_iff_getElem?]
  constructor
  · rintro ⟨m, j, hm, id', hid, rfl, rfl⟩
    exact ⟨m, hm, hid⟩
  · rintro ⟨m, hm, hid⟩
    exact ⟨m, i, hm, id, hid, rfl, rfl⟩

theorem toolsOf_append : toolsOf (messages ++ rest) = toolsOf messages ++ toolsOf rest := by
  simp [toolsOf, blocks]

/-- A result's call does not come after it, so the messages so far tell its tool. -/
theorem toolName_append (h : Paired (messages ++ rest)) (hm : messages[i]? = some m) {id : Bytes}
    (hid : id ∈ m.content.filterMap asResult) :
    toolName (toolsOf (messages ++ rest)) id = toolName (toolsOf messages) id := by
  have hi : i < messages.length := (List.getElem?_eq_some_iff.mp hm).1
  have hlater : ∀ name, (id, name) ∉ toolsOf rest := by
    intro name hmem
    unfold toolsOf blocks at hmem
    rw [List.filterMap_flatMap] at hmem
    obtain ⟨m', hm', hname⟩ := List.mem_flatMap.mp hmem
    obtain ⟨j, hj⟩ := List.getElem?_of_mem hm'
    have huse : (messages.length + j, id) ∈ usesAt (messages ++ rest) := by
      refine mem_usesAt.mpr ⟨m', name, ?_, hname⟩
      rw [List.getElem?_append_right (Nat.le_add_right ..), Nat.add_sub_cancel_left, hj]
    have hresult : (i, id) ∈ resultsAt (messages ++ rest) :=
      mem_resultsAt.mpr ⟨m, by rw [List.getElem?_append_left hi, hm], hid⟩
    have hle : messages.length + j ≤ i := h.ordered _ huse _ hresult rfl
    omega
  unfold toolName
  rw [toolsOf_append, List.reverse_append, List.lookup_append]
  have hnone : (toolsOf rest).reverse.lookup id = none := by
    rw [List.lookup_eq_none_iff]
    intro e he
    rw [bne_iff_ne]
    rintro rfl
    exact hlater e.2 (List.mem_reverse.mp he)
  rw [hnone, Option.none_or]

theorem ids_usesAt : (usesAt messages).map Prod.snd = (toolsOf messages).map Prod.fst := by
  unfold usesAt toolsOf blocks
  rw [List.filterMap_flatMap, List.map_flatMap, List.map_flatMap]
  simp only [List.map_map, Function.comp_def]
  conv_rhs => rw [← List.zipIdx_map_fst 0 messages, List.flatMap_map]

/-- With an id for each call, the tool of a result is the one that was called. -/
theorem toolName_of_use (h : Paired messages) {id name : Bytes} (hmem : (id, name) ∈ toolsOf messages) :
    toolName (toolsOf messages) id = name := by
  have hnodup : ((toolsOf messages).map Prod.fst).Nodup := by
    rw [← ids_usesAt]
    exact h.once
  cases hfound : (toolsOf messages).reverse.lookup id with
  | none =>
    have hne := List.lookup_eq_none_iff.mp hfound _ (List.mem_reverse.mpr hmem)
    exact absurd rfl (bne_iff_ne.mp hne)
  | some name' =>
    obtain ⟨before, after, heq, -⟩ := List.lookup_eq_some_iff.mp hfound
    have hmem' : (id, name') ∈ toolsOf messages :=
      List.mem_reverse.mp (heq ▸ List.mem_append_right _ (List.mem_cons_self ..))
    rw [toolName, hfound, Option.getD_some]
    exact (Prod.mk.inj (List.inj_on_of_nodup_map hnodup hmem' hmem rfl)).2

/-! ## Runs -/

theorem beforeCut_mono (h : cut ≤ cut') (hi : beforeCut cut i = true) : beforeCut cut' i = true := by
  unfold beforeCut at *
  rw [Bool.and_eq_true, decide_eq_true_eq, decide_eq_true_eq] at *
  omega

/-- A trim of a history that was trimmed before goes on where that one stopped. -/
theorem trimHistory_stubBefore (h : Paired (messages ++ rest))
    (hcut : cut ≤ messages.length - keepRecentMessages) :
    ∃ n, trimHistory (stubBefore (toolsOf (messages ++ rest)) cut messages) =
        (stubBefore (toolsOf (messages ++ rest)) (messages.length - keepRecentMessages) messages, n) ∧
      stubsBefore (toolsOf (messages ++ rest)) cut messages + n =
        stubsBefore (toolsOf (messages ++ rest)) (messages.length - keepRecentMessages) messages := by
  have hown : ∀ i m, messages[i]? = some m →
      stubMessage (toolsOf messages) m = stubMessage (toolsOf (messages ++ rest)) m ∧
        newStubs (toolsOf messages) m = newStubs (toolsOf (messages ++ rest)) m := fun i m hm =>
    stubMessage_congr fun id hid => (toolName_append h hm hid).symm
  generalize toolsOf (messages ++ rest) = all at hown ⊢
  refine ⟨stubsBefore (toolsOf messages) (messages.length - keepRecentMessages) (stubBefore all cut messages),
    ?_, ?_⟩
  · rw [trimHistory_eq, toolsOf_stubBefore, length_stubBefore, Prod.mk.injEq, and_iff_left rfl]
    refine List.ext_getElem? fun i => ?_
    rw [getElem?_stubBefore, getElem?_stubBefore, getElem?_stubBefore, Option.map_map]
    refine Option.map_congr fun m hm => ?_
    rw [Function.comp_apply]
    by_cases hearly : beforeCut cut i = true
    · rw [if_pos hearly, if_pos (beforeCut_mono hcut hearly), if_pos (beforeCut_mono hcut hearly),
        stubMessage_idem]
    · rw [if_neg hearly, (hown i m hm).1]
  · unfold stubsBefore stubBefore
    rw [List.mapIdx_mapIdx, sum_mapIdx_add]
    refine congrArg List.sum (List.ext_getElem? fun i => ?_)
    rw [List.getElem?_mapIdx, List.getElem?_mapIdx]
    refine Option.map_congr fun m hm => ?_
    by_cases hearly : beforeCut cut i = true
    · simp only [hearly, beforeCut_mono hcut hearly, if_true, Function.comp_apply, newStubs_stubbed, Nat.add_zero]
    · simp only [hearly, Bool.false_eq_true, if_false, Function.comp_apply, Nat.zero_add, (hown i m hm).2]

/-- Whenever it was trimmed, a history is what one trim up to some place makes of it. -/
theorem runHistory_eq {all : List (Message J)} (h : Paired all) (ops : List (HistoryOp J)) :
    ∀ (messages : List (Message J)) (cut : Nat), (∃ rest, messages ++ appended ops ++ rest = all) →
      cut ≤ messages.length - keepRecentMessages →
      ∃ cut' ≤ (messages ++ appended ops).length - keepRecentMessages,
        runHistory (stubBefore (toolsOf all) cut messages, stubsBefore (toolsOf all) cut messages) ops =
          (stubBefore (toolsOf all) cut' (messages ++ appended ops),
            stubsBefore (toolsOf all) cut' (messages ++ appended ops)) := by
  induction ops with
  | nil =>
    intro messages cut _ hcut
    rw [appended, List.append_nil]
    exact ⟨cut, hcut, rfl⟩
  | cons op ops ih =>
    intro messages cut ⟨rest, hall⟩ hcut
    cases op with
    | append m =>
      have hlen : cut ≤ messages.length := Nat.le_trans hcut (Nat.sub_le ..)
      rw [appended, ← List.singleton_append, ← List.append_assoc] at hall ⊢
      have hcount : stubsBefore (toolsOf all) cut (messages ++ [m]) = _ := stubsBefore_append hlen
      rw [runHistory, ← stubBefore_append hlen, ← hcount]
      refine ih (messages ++ [m]) cut ⟨rest, hall⟩ (Nat.le_trans hcut ?_)
      rw [List.length_append]
      omega
    | trim =>
      rw [appended] at hall ⊢
      have hpaired : Paired (messages ++ (appended ops ++ rest)) := by
        rw [← List.append_assoc, hall]
        exact h
      obtain ⟨n, htrim, hn⟩ := trimHistory_stubBefore hpaired hcut
      rw [← List.append_assoc, hall] at htrim hn
      rw [runHistory, htrim]
      dsimp only
      rw [hn]
      exact ih messages _ ⟨rest, hall⟩ (Nat.le_refl _)

theorem forall₂_mapIdx {α β : Type*} {R : α → β → Prop} {l : List α} {f : Nat → α → β}
    (h : ∀ i, ∀ a ∈ l, R a (f i a)) : List.Forall₂ R l (l.mapIdx f) := by
  induction l generalizing f with
  | nil => exact List.Forall₂.nil
  | cons a l ih =>
    rw [List.mapIdx_cons]
    exact List.Forall₂.cons (h 0 a (List.mem_cons_self ..))
      (ih fun i b hb => h (i + 1) b (List.mem_cons_of_mem _ hb))

theorem rewritten_stubBefore (h : Paired (messages ++ rest))
    (hcut : cut ≤ messages.length - keepRecentMessages) :
    Rewritten messages (stubBefore (toolsOf (messages ++ rest)) cut messages) where
  first := by
    rw [getElem?_stubBefore]
    simp [beforeCut]
  recent := by
    rw [length_stubBefore]
    refine List.ext_getElem? fun i => ?_
    have hlate : beforeCut cut (messages.length - keepRecentMessages + i) = false :=
      beforeCut_of_le (Nat.le_trans hcut (Nat.le_add_right ..))
    rw [List.getElem?_drop, List.getElem?_drop, getElem?_stubBefore, hlate]
    simp
  thinking := thinkingOf_stubBefore
  calls := toolsOf_stubBefore
  results := resultsOf_stubBefore
  messages := by
    refine forall₂_mapIdx fun i m _ => ?_
    split
    · refine ⟨rfl, List.forall₂_map_right_iff.mpr (List.forall₂_same.mpr fun b _ => ?_)⟩
      cases hstub : newStub (toolsOf (messages ++ rest)) b with
      | none => exact Or.inl rfl
      | some b' =>
        obtain ⟨id, content, isError, rfl, rfl⟩ := newStub_eq_some hstub
        refine Or.inr ⟨id, content, isError, _, rfl, rfl, fun name hname => ?_⟩
        exact toolName_of_use h (toolsOf_append ▸ List.mem_append_left _ hname)
    · exact ⟨rfl, List.forall₂_same.mpr fun b _ => Or.inl rfl⟩

theorem answered_of_paired (h : Paired messages) : Answered messages := by
  intro use huse
  have hid : use.1 ∈ (usesAt messages).map Prod.snd := by
    rw [ids_usesAt]
    exact List.mem_map_of_mem huse
  obtain ⟨u, hu, hid⟩ := List.mem_map.mp hid
  obtain ⟨r, hr, hsame⟩ := h.answered u hu
  obtain ⟨m, hm, hmem⟩ := mem_resultsAt.mp hr
  unfold resultsOf blocks
  rw [List.filterMap_flatMap, ← hid, ← hsame]
  exact List.mem_flatMap.mpr ⟨m, List.mem_of_getElem? hm, hmem⟩

/-- However appends and trims are mixed, the history is the whole one with some old results stubbed,
every call has its result, and a trim at the end leaves the same history, and has dropped as many
results, as if none had come before it. -/
theorem trim_any_time {messages : List (Message J)} {ops : List (HistoryOp J)}
    (h : Paired (messages ++ appended ops)) :
    (∀ done rest, ops = done ++ rest →
      Rewritten (messages ++ appended done) (runHistory (messages, 0) done).1) ∧
    Answered (runHistory (messages, 0) ops).1 ∧
    (trimHistory (runHistory (messages, 0) ops).1).1 = (trimHistory (messages ++ appended ops)).1 ∧
    (runHistory (messages, 0) ops).2 + (trimHistory (runHistory (messages, 0) ops).1).2 =
      (trimHistory (messages ++ appended ops)).2 := by
  have hstart : (messages, 0) = (stubBefore (toolsOf (messages ++ appended ops)) 0 messages,
      stubsBefore (toolsOf (messages ++ appended ops)) 0 messages) := by
    rw [stubBefore_zero, stubsBefore_zero]
  have happended : ∀ done rest, appended (done ++ rest) = appended done ++ appended (J := J) rest := by
    intro done rest
    induction done with
    | nil => rfl
    | cons op done ih => cases op <;> simp [appended, ih]
  obtain ⟨cut, hcut, hrun⟩ := runHistory_eq h ops messages 0 ⟨[], List.append_nil _⟩ (Nat.zero_le _)
  rw [← hstart] at hrun
  have hpaired : Paired (messages ++ appended ops ++ []) := by
    rw [List.append_nil]
    exact h
  obtain ⟨n, htrim, hn⟩ := trimHistory_stubBefore hpaired hcut
  rw [List.append_nil] at htrim hn
  refine ⟨fun done rest hops => ?_, ?_, ?_, ?_⟩
  · have hsplit : messages ++ appended done ++ appended rest = messages ++ appended ops := by
      rw [hops, happended, List.append_assoc]
    obtain ⟨cut', hcut', hrun'⟩ := runHistory_eq h done messages 0 ⟨appended rest, hsplit⟩ (Nat.zero_le _)
    rw [hstart, hrun', ← hsplit]
    exact rewritten_stubBefore (hsplit ▸ h) hcut'
  · rw [hrun]
    unfold Answered
    rw [toolsOf_stubBefore, resultsOf_stubBefore]
    exact answered_of_paired h
  · rw [hrun, htrim, trimHistory_eq]
  · rw [hrun, htrim, trimHistory_eq]
    exact hn

end Trim

/-- A question, then six calls with a result each, trimmed after every result. -/
def trimmedEarly : List (HistoryOp Unit) :=
  (List.range 6).flatMap fun i =>
    [.append ⟨.assistant, [.toolUse (ascii "t" ++ decimal i) (ascii "run_select") ()]⟩,
      .append ⟨.user, [.toolResult (ascii "t" ++ decimal i) (ascii "a | b") false]⟩, .trim]

theorem trim_any_time_six :
    Paired ([⟨.user, [.text (ascii "how many?")]⟩] ++ appended trimmedEarly) ∧
      (trimHistory (runHistory ([⟨.user, [.text (ascii "how many?")]⟩], 0) trimmedEarly).1).1 =
        (trimHistory ([⟨.user, [.text (ascii "how many?")]⟩] ++ appended trimmedEarly)).1 := by
  have h : Paired ([⟨.user, [.text (ascii "how many?")]⟩] ++ appended trimmedEarly) :=
    ⟨by decide, by decide, by decide⟩
  exact ⟨h, (trim_any_time h).2.2.1⟩

end RedDb.Ai.Turn
