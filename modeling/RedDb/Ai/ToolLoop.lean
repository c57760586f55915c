import RedDb.Ai.Anthropic
import RedDb.Lib.JsonText

/-!
# RedDb — the tool loop of a turn

`runTurn` streams one message after the other. A message with tool calls has each of them run,
as far as the conversation's budget, the gate and the user let it through; one that was cut at
the output ceiling without any is asked to go on; every other one ends the turn.

A block is `Finished` when all that the model was to write of it has arrived. Nothing in the
stream tells a block that was cut before its arguments from a call without any, and a line that
is lost or that cannot be read is passed over.

* `runTools_ran` — which calls of a message are run;
* `runStep_kept` — when those of one message are all finished ones;
* `finished_iff` — and those of a whole turn.
-/

namespace RedDb.Ai.Anthropic

open ByteText

def maxToolSteps : Nat := 32

def maxContinuations : Nat := 3

/-- What came of a tool call. -/
inductive Handled where
  | exhausted
  | refused
  | ran

/-- One round of the turn, as the provider, the gate and the user answer it. -/
structure Step (J : Type) where
  /-- The user stopped the turn before it. -/
  cancelled : Bool
  exchange : Exchange
  /-- The write gate, the sandbox and the user let the call run. -/
  admits : ToolUse J → Bool
  /-- The calls that a subagent makes on the same budget. -/
  delegated : ToolUse J → Nat

inductive Settled where
  | finished
  | cancelled
  | failed (e : AiError)
  | ceiling
  | outOfSteps
  /-- The next reply is still to come. -/
  | streaming

/-- How a round goes on: to the end of the turn, or to the next with this many continuations and
tool calls charged. -/
inductive Next where
  | settle (how : Settled)
  | goOn (continuations spent : Nat)

/-- One tool call is charged; `0` is no limit. -/
def chargeToolCall (max count : Nat) : Option Nat :=
  if max ≠ 0 ∧ max ≤ count then none else some (count + 1)

section Loop

variable {J : Type} (S : SerdeJson J)

/-- The errand of a delegated call. -/
def task (use : ToolUse J) : Bytes := trim (((S.get "task" use.input).bind S.asStr).getD [])

def handleUse (step : Step J) (max count : Nat) (use : ToolUse J) : Handled × Nat :=
  match chargeToolCall max count with
  | none => (.exhausted, count)
  | some count =>
    if use.name = ascii "spawn_subagent" then
      if (task S use).isEmpty then (.refused, count) else (.ran, count + step.delegated use)
    else if step.admits use then (.ran, count)
    else (.refused, count)

@[grind =] def runTools (step : Step J) (max count : Nat) : List (ToolUse J) → List (ToolUse J × Handled) × Nat
  | [] => ([], count)
  | use :: uses =>
    let (handled, count) := handleUse S step max count use
    let (results, count) := runTools step max count uses
    ((use, handled) :: results, count)

def runStep (step : Step J) (max continuations spent : Nat) : List (ToolUse J × Handled) × Next :=
  if step.cancelled then ([], .settle .cancelled)
  else match (streamTurn S step.exchange).1 with
    | .error e => ([], .settle (.failed e))
    | .ok outcome =>
      let uses := outcome.content.filterMap ContentBlock.asToolUse
      let wantsTools := !uses.isEmpty
      if outcome.stopReason = .maxTokens ∧ !wantsTools then
        if continuations = maxContinuations then ([], .settle .ceiling)
        else ([], .goOn (continuations + 1) spent)
      else if outcome.stopReason ≠ .toolUse ∧ !wantsTools then ([], .settle .finished)
      else
        let (results, spent) := runTools S step max spent uses
        if results.isEmpty then ([], .settle .finished) else (results, .goOn continuations spent)

/-- A round that was made: the calls charged before it, and what came of its own. -/
structure Round (J : Type) where
  spent : Nat
  step : Step J
  results : List (ToolUse J × Handled)

/-- The rounds of a turn with so many steps left, and how it ends. -/
def runTurn (max : Nat) : Nat → Nat → Nat → List (Step J) → List (Round J) × Settled
  | 0, _, _, _ => ([], .outOfSteps)
  | _ + 1, _, _, [] => ([], .streaming)
  | left + 1, continuations, spent, step :: steps =>
    let (results, next) := runStep S step max continuations spent
    match next with
    | .settle how => ([⟨spent, step, results⟩], how)
    | .goOn continuations spent' =>
      let (rounds, how) := runTurn max left continuations spent' steps
      (⟨spent, step, results⟩ :: rounds, how)

/-! ## Finished calls -/

/-- The arguments are the value of their text; a call without any has none. -/
def Arguments (text : Bytes) (v : J) : Prop :=
  S.fromStr text = .ok v ∨
    (∃ e, S.fromStr text = .error e) ∧ (trim text).isEmpty = true ∧ v = S.emptyObject

/-- All that was meant to be in the block has arrived. -/
def Finished (meant : List J) (i : Nat) (c : ToolFrames) : Prop := carried S i meant = some c

/-- Each call that was run is a block that the model finished, with its arguments. `meant` is
what the model was writing, with nothing cut off and nothing lost. -/
def RunsFinished (meant : List J) (round : Round J) : Prop :=
  ∀ (n : Nat) (use : ToolUse J), round.results[n]? = some (use, Handled.ran) → ∃ events i c,
    Delivers S round.step.exchange events ∧ (toolBlocks S events)[n]? = some (i, c) ∧
    Finished S meant i c ∧ use.id = c.id ∧ use.name = c.name ∧ Arguments S c.text use.input

/-- What the calls cost, those of subagents included. -/
def cost (step : Step J) (use : ToolUse J) : Nat :=
  1 + if use.name = ascii "spawn_subagent" ∧ task S use ≠ [] then step.delegated use else 0

/-- A delegation needs an errand; the gate decides on every other call. -/
def passes (step : Step J) (use : ToolUse J) : Prop :=
  if use.name = ascii "spawn_subagent" then task S use ≠ [] else step.admits use = true

/-- The budget lasts behind these calls, and the call passes. -/
def LetThrough (step : Step J) (max spent : Nat) (before : List (ToolUse J)) (use : ToolUse J) : Prop :=
  (max = 0 ∨ spent + (before.map (cost S step)).sum < max) ∧ passes S step use

/-- Of the blocks of the stream that are let through, each has arrived whole, if the stream
makes a turn at all. -/
def Kept (meant : List J) (max spent : Nat) (step : Step J) : Prop :=
  step.cancelled = false → ∀ events, Delivers S step.exchange events →
    ∀ n i c, (toolBlocks S events)[n]? = some (i, c) →
      LetThrough S step max spent (((toolBlocks S events).take n).map fun b => b.2.use S) (c.use S) →
      Finished S meant i c

end Loop

variable {J : Type} {S : SerdeJson J} {step : Step J} {max continuations spent : Nat}
  {use : ToolUse J} {uses : List (ToolUse J)} {meant events : List J}

/-! ## One message -/

theorem handleUse_spent (h : ¬(max ≠ 0 ∧ max ≤ spent)) :
    (handleUse S step max spent use).2 = spent + cost S step use := by
  unfold handleUse chargeToolCall cost
  rw [if_neg h]
  dsimp only
  by_cases hname : use.name = ascii "spawn_subagent"
  · by_cases htask : task S use = []
    · rw [if_pos hname, if_pos (List.isEmpty_iff.mpr htask), if_neg fun h => h.2 htask]
    · rw [if_pos hname, if_neg (List.isEmpty_iff.not.mpr htask), if_pos ⟨hname, htask⟩, Nat.add_assoc]
  · have hno : ¬(use.name = ascii "spawn_subagent" ∧ task S use ≠ []) := fun h => hname h.1
    rw [if_neg hname, if_neg hno]
    split <;> rfl

theorem handleUse_ran :
    (handleUse S step max spent use).1 = .ran ↔ LetThrough S step max spent [] use := by
  unfold handleUse chargeToolCall LetThrough passes
  rw [List.map_nil, List.sum_nil, Nat.add_zero spent]
  by_cases hspent : max ≠ 0 ∧ max ≤ spent
  · rw [if_pos hspent]
    refine iff_of_false (by rintro ⟨⟩) fun h => ?_
    have := h.1
    omega
  rw [if_neg hspent]
  have hbudget : max = 0 ∨ spent < max := by omega
  dsimp only
  rw [and_iff_right hbudget]
  by_cases hname : use.name = ascii "spawn_subagent"
  · rw [if_pos hname, if_pos hname]
    by_cases htask : task S use = []
    · rw [if_pos (List.isEmpty_iff.mpr htask)]
      exact iff_of_false (by rintro ⟨⟩) fun h => h htask
    · rw [if_neg (List.isEmpty_iff.not.mpr htask)]
      exact iff_of_true rfl htask
  · rw [if_neg hname, if_neg hname]
    by_cases hadmits : step.admits use = true
    · rw [if_pos hadmits]
      exact iff_of_true rfl hadmits
    · rw [if_neg hadmits]
      exact iff_of_false (by rintro ⟨⟩) hadmits

/-- Once the budget is used up it stays so. -/
theorem handleUse_exhausted (h : max ≠ 0 ∧ max ≤ spent) :
    handleUse S step max spent use = (.exhausted, spent) := by
  unfold handleUse chargeToolCall
  rw [if_pos h]

theorem letThrough_cons (h : ¬(max ≠ 0 ∧ max ≤ spent)) (first : ToolUse J) (before : List (ToolUse J)) :
    LetThrough S step max spent (first :: before) use ↔
      LetThrough S step max (handleUse S step max spent first).2 before use := by
  unfold LetThrough
  rw [handleUse_spent h, List.map_cons, List.sum_cons, Nat.add_assoc]

/-- Which calls of a message are run. -/
theorem runTools_ran (uses : List (ToolUse J)) (spent n : Nat) :
    (runTools S step max spent uses).1[n]? = some (use, .ran) ↔
      uses[n]? = some use ∧ LetThrough S step max spent (uses.take n) use := by
  induction uses generalizing spent n with
  | nil => simp [runTools]
  | cons first uses ih =>
    rw [runTools]
    cases n with
    | zero =>
      rw [List.getElem?_cons_zero, List.getElem?_cons_zero, List.take_zero, Option.some.injEq,
        Option.some.injEq, Prod.mk.injEq]
      refine and_congr_right ?_
      rintro rfl
      exact handleUse_ran
    | succ n =>
      rw [List.getElem?_cons_succ, List.getElem?_cons_succ, List.take_succ_cons, ih]
      refine and_congr_right fun _ => ?_
      by_cases hspent : max ≠ 0 ∧ max ≤ spent
      · rw [handleUse_exhausted hspent]
        -- Neither the rest nor the whole is within the budget.
        refine iff_of_false (fun h => ?_) fun h => ?_ <;>
        · have := h.1
          omega
      · exact (letThrough_cons hspent first _).symm

/-- The results of a round are those of the tool calls of its message. -/
theorem runStep_results (S : SerdeJson J) (step : Step J) (max continuations spent : Nat) :
    (runStep S step max continuations spent).1 = [] ∧
        (step.cancelled = false → ∀ events, Delivers S step.exchange events → toolBlocks S events = []) ∨
      step.cancelled = false ∧ ∃ events, Delivers S step.exchange events ∧
        (runStep S step max continuations spent).1 =
          (runTools S step max spent ((toolBlocks S events).map fun b => b.2.use S)).1 := by
  unfold runStep
  split
  · next hcancel => exact .inl ⟨rfl, fun h => absurd (hcancel.symm.trans h) (by decide)⟩
  next hcancel =>
  have hcancel := Bool.eq_false_iff.mpr hcancel
  cases houtcome : (streamTurn S step.exchange).1 with
  | error e =>
    refine .inl ⟨rfl, fun _ events h => ?_⟩
    obtain ⟨outcome, hok⟩ := h.ok
    cases houtcome.symm.trans hok
  | ok outcome =>
    obtain ⟨events, hdelivers, huses⟩ := streamTurn_ok houtcome
    dsimp only
    rw [huses]
    rcases hblocks : toolBlocks S events with _ | ⟨b, blocks⟩
    · -- Without a call nothing is run, whatever ended the message.
      refine .inl ⟨?_, fun _ events' h => by rw [h.unique hdelivers, hblocks]⟩
      repeat' split
      all_goals rfl
    · refine .inr ⟨hcancel, events, hdelivers, ?_⟩
      rw [hblocks]
      simp [runTools]

theorem arguments_use {c : ToolFrames} {v : J} (h : input S c.text = .ok v) :
    Arguments S c.text (c.use S).input := by
  unfold ToolFrames.use
  rw [h]
  unfold input at h
  unfold Arguments
  cases hparse : S.fromStr c.text with
  | ok w =>
    rw [hparse] at h
    exact .inl (congrArg Except.ok (Except.ok.inj h))
  | error e =>
    rw [hparse] at h
    dsimp only at h
    split_ifs at h with hblank
    exact .inr ⟨⟨e, rfl⟩, hblank, (Except.ok.inj h).symm⟩

theorem use_id (c : ToolFrames) : (c.use S).id = c.id := by unfold ToolFrames.use; split <;> rfl

theorem use_name (c : ToolFrames) : (c.use S).name = c.name := by unfold ToolFrames.use; split <;> rfl

theorem mem_toolBlocks {i n : Nat} {c : ToolFrames} (h : (toolBlocks S events)[n]? = some (i, c)) :
    carried S i events = some c := by
  obtain ⟨j, -, hj⟩ := List.mem_filterMap.mp (List.mem_of_getElem? h)
  obtain ⟨d, hd, heq⟩ := Option.map_eq_some_iff.mp hj
  cases heq
  exact hd

/-- The calls of one message that are run are finished ones just if every block that is let
through has arrived whole. -/
theorem runStep_kept (continuations : Nat) :
    RunsFinished S meant ⟨spent, step, (runStep S step max continuations spent).1⟩ ↔
      Kept S meant max spent step := by
  rcases runStep_results S step max continuations spent with ⟨hnil, hnone⟩ | ⟨hcancel, events, hdelivers, hresults⟩
  · refine iff_of_true (fun n use h => ?_) fun hcancel events hdelivers n i c hblock => ?_
    · rw [hnil] at h
      cases h
    · rw [hnone hcancel events hdelivers] at hblock
      cases hblock
  unfold RunsFinished Kept
  dsimp only
  rw [hresults]
  constructor
  · intro h _ events' hdelivers' n i c hblock hthrough
    rw [hdelivers'.unique hdelivers] at hblock hthrough
    have hran : (runTools S step max spent ((toolBlocks S events).map fun b => b.2.use S)).1[n]? =
        some (c.use S, .ran) := by
      rw [runTools_ran, List.getElem?_map, hblock, ← List.map_take]
      exact ⟨rfl, hthrough⟩
    obtain ⟨events', j, d, hdelivers', hblock', hfinished, -⟩ := h n _ hran
    rw [hdelivers'.unique hdelivers, hblock] at hblock'
    cases hblock'
    exact hfinished
  · intro h n use hran
    rw [runTools_ran, List.getElem?_map, ← List.map_take] at hran
    obtain ⟨huse, hthrough⟩ := hran
    obtain ⟨⟨i, c⟩, hblock, rfl⟩ := Option.map_eq_some_iff.mp huse
    have hreadable := hdelivers.2.2
    obtain ⟨_, _, _, _, -, -, -, hcompletes⟩ := hreadable
    obtain ⟨v, hv⟩ := hcompletes.readable i c (mem_toolBlocks hblock)
    exact ⟨events, i, c, hdelivers, hblock, h hcancel events hdelivers n i c hblock hthrough, use_id c,
      use_name c, arguments_use hv⟩

/-! ## A whole turn -/

/-- Every round of a turn is one step of it. -/
theorem runTurn_round {left : Nat} {steps : List (Step J)} {round : Round J}
    (h : round ∈ (runTurn S max left continuations spent steps).1) :
    ∃ continuations, round.results = (runStep S round.step max continuations round.spent).1 := by
  induction left generalizing continuations spent steps with
  | zero => exact absurd h List.not_mem_nil
  | succ left ih =>
    cases steps with
    | nil => exact absurd h List.not_mem_nil
    | cons step steps =>
      rw [runTurn] at h
      cases hnext : (runStep S step max continuations spent).2 with
      | settle how =>
        simp only [hnext, List.mem_singleton] at h
        rw [h]
        exact ⟨continuations, rfl⟩
      | goOn continuations' spent' =>
        simp only [hnext, List.mem_cons] at h
        rcases h with rfl | h
        · exact ⟨continuations, rfl⟩
        · exact ih h

theorem round_kept {left : Nat} {steps : List (Step J)} {round : Round J}
    (h : round ∈ (runTurn S max left continuations spent steps).1) :
    RunsFinished S meant round ↔ Kept S meant max round.spent round.step := by
  obtain ⟨continuations', hresults⟩ := runTurn_round h
  rw [← runStep_kept continuations', ← hresults]

/-- In every turn, every call that is run is one the model finished just if every block that is
let through has arrived whole; the chunks of the streams do not matter to it. -/
theorem finished_iff (S : SerdeJson J) (max left continuations spent : Nat) (steps : List (Step J))
    (meant : Nat → List J) : ((∀ x y, Recut x y → streamTurn S x = streamTurn S y) ∧
      ∀ (k : Nat) (round : Round J), (runTurn S max left continuations spent steps).1[k]? = some round →
        RunsFinished S (meant k) round) ↔
      ∀ (k : Nat) (round : Round J), (runTurn S max left continuations spent steps).1[k]? = some round →
        Kept S (meant k) max round.spent round.step := by
  refine Iff.trans (and_iff_right fun x y h => streamTurn_recut h) ?_
  refine forall_congr' fun k => forall_congr' fun round => forall_congr' fun hround => ?_
  exact round_kept (List.mem_of_getElem? hround)

/-! ## A call that was cut before its arguments -/

/-- The JSON library on ASCII texts. -/
def asciiJson : SerdeJson JsonText.Json where
  fromStr b :=
    match JsonText.parse (b.map fun c => Char.ofNat c.toNat) with
    | some j => .ok j
    | none => .error (ascii "expected value")
  get key j :=
    match j with
    | .object members => (members.find? fun m => m.1 == key).map Prod.snd
    | _ => none
  asStr j :=
    match j with
    | .string s => some (ascii s)
    | _ => none
  asU64 j :=
    match j with
    | .number token => if token.all Char.isDigit then some (TextCodec.numeral token) else none
    | _ => none
  emptyObject := .object []

/-- The line of an event. -/
def dataLine (event : JsonText.Json) : Bytes :=
  ascii "data: " ++ ascii (String.ofList (JsonText.compact event)) ++ [newline]

/-- The model begins a scan of some keys. -/
def scanStart : JsonText.Json :=
  .object [("type", .string "content_block_start"), ("index", .number ['0']),
    ("content_block", .object [("type", .string "tool_use"), ("id", .string "t"),
      ("name", .string "kv_scan_keys"), ("input", .object [])])]

def scanArguments : JsonText.Json :=
  .object [("type", .string "content_block_delta"), ("index", .number ['0']),
    ("delta", .object [("type", .string "input_json_delta"),
      ("partial_json", .string (String.ofList
        (JsonText.compact (.object [("pattern", .string "a:*")]))))])]

/-- It reaches the output ceiling before it has written which. -/
def atCeiling : List JsonText.Json :=
  [.object [("type", .string "message_delta"),
      ("delta", .object [("stop_reason", .string "max_tokens")])],
    .object [("type", .string "message_stop")]]

def cutStep : Step JsonText.Json :=
  { cancelled := false
    exchange :=
      { apiKey := ascii "key"
        cancelled := false
        sending := .answered 200 (ascii "200 OK") []
          ⟨[(scanStart :: atCeiling).flatMap dataLine], .eof⟩ }
    admits := fun _ => true
    delegated := fun _ => 0 }

theorem toolBlocks_first {events : List J} {c : ToolFrames} (h : carried S 0 events = some c) :
    (toolBlocks S events)[0]? = some (0, c) := by
  unfold toolBlocks
  rw [show maxContentBlocks = 1023 + 1 from rfl, List.range_succ_eq_map, List.filterMap_cons, h]
  rfl

/-- The scan is run without its pattern, over all keys. -/
theorem cutScan_ran : ¬((∀ x y, Recut x y → streamTurn asciiJson x = streamTurn asciiJson y) ∧
    ∀ (k : Nat) (round : Round JsonText.Json),
      (runTurn asciiJson 0 maxToolSteps 0 0 [cutStep]).1[k]? = some round →
        RunsFinished asciiJson [scanStart, scanArguments] round) := by
  rintro ⟨-, h⟩
  have hfirst : (runTurn asciiJson 0 maxToolSteps 0 0 [cutStep]).1[0]? =
      some ⟨0, cutStep, (runStep asciiJson cutStep 0 0 0).1⟩ := by
    rw [show maxToolSteps = 31 + 1 from rfl, runTurn]
    dsimp only
    split <;> rfl
  have hkept := (runStep_kept 0).mp (h 0 _ hfirst)
  have hok : (streamTurn asciiJson cutStep.exchange).1.isOk = true := by decide +kernel
  obtain ⟨outcome, houtcome⟩ : ∃ outcome, (streamTurn asciiJson cutStep.exchange).1 = .ok outcome := by
    cases hturn : (streamTurn asciiJson cutStep.exchange).1 with
    | ok outcome => exact ⟨outcome, rfl⟩
    | error e => rw [hturn] at hok; cases hok
  obtain ⟨events, hdelivers, -⟩ := streamTurn_ok houtcome
  have hevents : events = received asciiJson ((scanStart :: atCeiling).flatMap dataLine) := by
    obtain ⟨-, -, _, _, _, chunks, hsend, -, rfl, -⟩ := hdelivers
    cases hsend
    rw [List.flatten_singleton]
  have hcarried : carried asciiJson 0 (received asciiJson ((scanStart :: atCeiling).flatMap dataLine)) =
      some ⟨ascii "t", ascii "kv_scan_keys", []⟩ := by decide +kernel
  have hmeant : carried asciiJson 0 [scanStart, scanArguments] ≠
      some ⟨ascii "t", ascii "kv_scan_keys", []⟩ := by decide
  rw [← hevents] at hcarried
  refine hmeant (hkept rfl events hdelivers 0 0 _ (toolBlocks_first hcarried) ⟨.inl rfl, ?_⟩)
  unfold passes
  rw [if_neg (by rw [use_name]; decide)]
  rfl

end RedDb.Ai.Anthropic
