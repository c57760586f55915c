import RedDb.Service.ManualTx

/-!
# RedDb — the statements of a script

`RunScript` works through its statements one by one, under one signal: the user's cancel raises it, and
so does the timer of each statement. Raised once it stays so, and the driver turns every later statement
away as interrupted.

* `meets_stops` — what ends a script, of what becomes of a statement under a timer of its own;
* `report_eq_iff` — when a statement is told as what becomes of it;
* `reports_iff` — a run reports what happened and honours its mode just where no timer reaches a
  statement that is not its own.
-/

namespace RedDb.Service.ScriptRun

open ByteText Driver Sql
open RedDb.Service.ManualTx (ScriptStop scriptBody)

/-- Around the call for a statement: ahead of the driver's look at the signal, while the server executes
the statement, and after the return, before and after the timer's flag is read. -/
inductive Instant where
  | beforeLook
  | executing
  | returned
  | read
  deriving DecidableEq

/-- What the outside decides about a statement: whether there is a connection for it, when the user
cancels, when its timer fires, and what the server answers if the statement is sent. -/
structure Happening where
  refused : Option RedError
  cancel : Option Instant
  timer : Option Instant
  answer : Except RedError Nat
  refusal : refused ≠ some .interrupted
  reached : answer = .error .interrupted → cancel = some .executing ∨ timer = some .executing

/-- `RedError::Timeout` is no error of a driver. -/
inductive ScriptError where
  | timeout
  | driver (e : RedError)
  deriving DecidableEq

inductive ScriptOutcome where
  | ok (affected : Nat)
  | rows
  | failed (error : ScriptError)
  | skipped
  deriving DecidableEq

def ScriptOutcome.isFailure : ScriptOutcome → Bool
  | .failed _ => true
  | _ => false

structure ScriptStep where
  index : Nat
  summary : Bytes
  outcome : ScriptOutcome
  deriving DecidableEq

/-- The driver's `execute_abort`. -/
def executeAbort (h : Happening) (aborted : Bool) : Except RedError Nat :=
  match h.refused with
  | some e => .error e
  | none => if aborted then .error .interrupted else h.answer

def outcomeOf (isRead timedOut : Bool) : Except RedError Nat → ScriptOutcome
  | .ok n => if isRead then .rows else .ok n
  | .error .interrupted => .failed (if timedOut then .timeout else .driver .interrupted)
  | .error e => .failed (.driver e)

/-- Does the script end with it? A user cancel ends it whatever its mode. -/
def ScriptOutcome.stops (o : ScriptOutcome) (stop : ScriptStop) : Bool :=
  o == .failed (.driver .interrupted) || o.isFailure && stop == .onError

/-- The signal as the look finds it. -/
def Happening.atLook (h : Happening) (s : AbortSignal Unit) : AbortSignal Unit :=
  if h.cancel = some .beforeLook ∨ h.timer = some .beforeLook then s.abort.1 else s

/-- The signal as the next statement finds it. -/
def Happening.latched (h : Happening) (s : AbortSignal Unit) : AbortSignal Unit :=
  if h.cancel.isSome ∨ h.timer.isSome then s.abort.1 else s

/-- The flag of the timer, as it is read. -/
def Happening.timedOut (h : Happening) : Bool := h.timer.isSome && h.timer != some .read

structure Progress where
  signal : AbortSignal Unit
  ran : Nat
  failed : Nat
  stopped : Bool
  steps : List ScriptStep

section Run

variable (dialect : Dialect)

def isRead (sql : Bytes) : Bool := (assess sql dialect).level == .safe

def trailingRead (statements : List Bytes) : Option Bytes :=
  statements.getLast?.filter (isRead dialect)

/-- How a statement is told that is handed to the driver. -/
def told (h : Happening) (sql : Bytes) (s : AbortSignal Unit) : ScriptOutcome :=
  outcomeOf (isRead dialect sql) h.timedOut (executeAbort h (h.atLook s).aborted)

/-- What a script is run with, and what happens to its statements; `summary` is `script_summary`. -/
structure Setting where
  dialect : Dialect
  summary : Bytes → Bytes
  stop : ScriptStop
  happens : Nat → Happening

variable (r : Setting)

/-- One round of the loop. -/
def runStatement (p : Progress) (entry : Bytes × Nat) : Progress :=
  let h := r.happens entry.2
  if p.stopped then { p with steps := p.steps ++ [⟨entry.2, r.summary entry.1, .skipped⟩] }
  else
    let outcome := told r.dialect h entry.1 p.signal
    { signal := h.latched p.signal
      ran := if outcome.isFailure then p.ran else p.ran + 1
      failed := if outcome.isFailure then p.failed + 1 else p.failed
      stopped := outcome.stops r.stop
      steps := p.steps ++ [⟨entry.2, r.summary entry.1, outcome⟩] }

def runBody (body : List Bytes) : Progress :=
  body.zipIdx.foldl (runStatement r) ⟨.new, 0, 0, false, []⟩

/-- The steps that are emitted, and what `ScriptDone` says. -/
structure ScriptReport where
  steps : List ScriptStep
  ran : Nat
  failed : Nat
  trailingRead : Option Bytes

def runScript (statements : List Bytes) : ScriptReport :=
  let p := runBody r (scriptBody r.dialect statements)
  ⟨p.steps, p.ran, p.failed, (trailingRead r.dialect statements).filter fun _ => !p.stopped⟩

/-! ## What is promised -/

/-- Does the user cancel before the script comes to the statement? -/
def cancelledBefore (k : Nat) : Bool := (List.range k).any fun j => (r.happens j).cancel.isSome

/-- Has a timer fired before? -/
def timedBefore (k : Nat) : Bool := (List.range k).any fun j => (r.happens j).timer.isSome

/-- The timer fires before the call has returned. -/
def Happening.timesOut (h : Happening) : Bool := h.timer == some .beforeLook || h.timer == some .executing

/-- What becomes of a statement that is handed to the driver, of the timers only its own. -/
def meets (body : List Bytes) (k : Nat) : ScriptOutcome :=
  let h := r.happens k
  outcomeOf (isRead r.dialect (body.getD k [])) h.timesOut
    (executeAbort h (cancelledBefore r k || h.cancel == some .beforeLook || h.timer == some .beforeLook))

/-- The user cancelled none of the statements before it, and none failed in a script that stops on error. -/
def Reached (body : List Bytes) (k : Nat) : Prop :=
  ∀ j < k, (meets r body j).stops r.stop = false

/-- A report says what happened to the statements of a body, and the mode was honoured. -/
structure Reports (body : List Bytes) (trailing : Option Bytes) (report : ScriptReport) : Prop where
  order : report.steps.map ScriptStep.index = List.range body.length
  texts : report.steps.map ScriptStep.summary = body.map r.summary
  executed : ∀ step ∈ report.steps, step.outcome ≠ .skipped ↔ Reached r body step.index
  told : ∀ step ∈ report.steps, step.outcome ≠ .skipped → step.outcome = meets r body step.index
  counts : report.ran + report.failed +
    (report.steps.filter fun step => step.outcome == .skipped).length = body.length
  handedBack : ∀ sql, report.trailingRead = some sql ↔ trailing = some sql ∧ Reached r body body.length

/-- Nothing but its timer keeps the statement from the server. -/
def Sent (k : Nat) : Prop :=
  cancelledBefore r k = false ∧ (r.happens k).cancel ≠ some .beforeLook ∧
    (r.happens k).timer ≠ some .beforeLook

/-- A statement with a connection that would be sent follows no statement whose timer has fired, unless
it is interrupted anyway; and the timer of one that is interrupted does not fire between its return and
the reading of the flag. -/
def InTime (k : Nat) : Prop :=
  (r.happens k).refused = none →
    (Sent r k → timedBefore r k = true → (r.happens k).answer = .error .interrupted) ∧
    ((Sent r k → (r.happens k).answer = .error .interrupted) → (r.happens k).timer ≠ some .returned)

end Run

/-! ## One statement -/

theorem Happening.atLook_aborted (h : Happening) (s : AbortSignal Unit) :
    (h.atLook s).aborted = (s.aborted || h.cancel == some .beforeLook || h.timer == some .beforeLook) := by
  unfold atLook
  split
  · rename_i hraised
    rcases hraised with hc | ht
    · simp [hc]
    · simp [ht]
  · rename_i hquiet
    obtain ⟨hc, ht⟩ := not_or.mp hquiet
    rw [beq_eq_false_iff_ne.mpr hc, beq_eq_false_iff_ne.mpr ht, Bool.or_false, Bool.or_false]

theorem Happening.latched_aborted (h : Happening) (s : AbortSignal Unit) :
    (h.latched s).aborted = (s.aborted || h.cancel.isSome || h.timer.isSome) := by
  unfold latched
  split
  · rename_i hraised
    rcases hraised with hc | ht
    · simp [hc]
    · simp [ht]
  · rename_i hquiet
    obtain ⟨hc, ht⟩ := not_or.mp hquiet
    rw [Bool.eq_false_iff.mpr hc, Bool.eq_false_iff.mpr ht, Bool.or_false, Bool.or_false]

theorem Happening.timedOut_eq (h : Happening) :
    h.timedOut = (h.timesOut || h.timer == some .returned) := by
  unfold timedOut timesOut
  cases h.timer with
  | none => rfl
  | some i => cases i <;> rfl

theorem outcomeOf_ne_skipped (isRead timedOut : Bool) (r : Except RedError Nat) :
    outcomeOf isRead timedOut r ≠ .skipped := by
  cases r with
  | ok n => cases isRead <;> exact ScriptOutcome.noConfusion
  | error e => cases e <;> exact ScriptOutcome.noConfusion

/-- The flag makes a difference to an interrupted statement alone. -/
theorem outcomeOf_flag {isRead t u : Bool} {r : Except RedError Nat} :
    outcomeOf isRead t r = outcomeOf isRead u r ↔ (r = .error .interrupted → t = u) := by
  cases r with
  | ok n => simp [outcomeOf]
  | error e => cases e <;> cases t <;> cases u <;> simp [outcomeOf]

theorem outcomeOf_interrupted {isRead t u : Bool} {r : Except RedError Nat}
    (h : outcomeOf isRead t (.error .interrupted) = outcomeOf isRead u r) : r = .error .interrupted := by
  cases r with
  | ok n => cases t <;> cases isRead <;> simp [outcomeOf] at h
  | error e => cases e <;> cases t <;> simp_all [outcomeOf]

section Run

variable {r : Setting}

theorem sent_iff {k : Nat} : Sent r k ↔ (cancelledBefore r k ||
    (r.happens k).cancel == some .beforeLook || (r.happens k).timer == some .beforeLook) = false := by
  unfold Sent
  rw [Bool.or_eq_false_iff, Bool.or_eq_false_iff, beq_eq_false_iff_ne, beq_eq_false_iff_ne, and_assoc]

/-- A statement is told as what becomes of it just where it is in time. -/
theorem told_eq_iff {body : List Bytes} {k : Nat} {s : AbortSignal Unit}
    (hs : s.aborted = (cancelledBefore r k || timedBefore r k)) :
    told r.dialect (r.happens k) (body.getD k []) s = meets r body k ↔ InTime r k := by
  unfold told meets InTime
  rw [sent_iff, Happening.atLook_aborted, Happening.timedOut_eq, hs]
  generalize cancelledBefore r k = user
  generalize timedBefore r k = late
  generalize r.happens k = h
  dsimp only
  rw [Bool.or_right_comm user late, Bool.or_right_comm (user || _) late]
  generalize (user || h.cancel == some .beforeLook || h.timer == some .beforeLook) = away
  have hflag : h.timer = some .returned ∨ (h.timesOut || h.timer == some .returned) = h.timesOut := by
    by_cases hr : h.timer = some .returned
    · exact Or.inl hr
    · exact Or.inr (by rw [beq_eq_false_iff_ne.mpr hr, Bool.or_false])
  have hreturned : h.timer = some .returned → ¬ (h.timesOut || h.timer == some .returned) = h.timesOut := by
    intro hr
    rw [Happening.timesOut, hr]
    decide
  have hsame : (h.timesOut || h.timer == some .returned) = h.timesOut ↔ h.timer ≠ some .returned :=
    ⟨fun h' hr => hreturned hr h', hflag.resolve_left⟩
  cases hrefused : h.refused with
  | some e =>
    have he : e ≠ .interrupted := fun h' => h.refusal (hrefused.trans (congrArg some h'))
    simp only [executeAbort, hrefused]
    exact iff_of_true (outcomeOf_flag.mpr fun h' => absurd (Except.error.inj h') he) nofun
  | none =>
    simp only [executeAbort, hrefused, true_implies]
    cases away with
    | true =>
      simp only [Bool.true_or, if_true, outcomeOf_flag, true_implies, hsame, Bool.true_eq_false,
        false_implies, true_and]
    | false =>
      simp only [Bool.false_or, Bool.false_eq_true, if_false, true_implies]
      cases late with
      | false =>
        rw [if_neg Bool.false_ne_true, outcomeOf_flag, hsame]
        exact ⟨fun hr => ⟨nofun, hr⟩, fun h' => h'.2⟩
      | true =>
        rw [if_pos rfl]
        constructor
        · intro heq
          have hanswer := outcomeOf_interrupted heq
          rw [hanswer] at heq
          exact ⟨fun _ => hanswer, fun _ => hsame.mp (outcomeOf_flag.mp heq rfl)⟩
        · intro ⟨hanswer, hr⟩
          rw [hanswer rfl]
          exact outcomeOf_flag.mpr fun _ => hsame.mpr (hr (hanswer rfl))

/-! ## A run -/

variable (r)

/-- The run when it comes to a statement. -/
def progressAt (body : List Bytes) (k : Nat) : Progress :=
  (body.zipIdx.take k).foldl (runStatement r) ⟨.new, 0, 0, false, []⟩

/-- The step a statement is told by. -/
def stepAt (body : List Bytes) (k : Nat) : ScriptStep :=
  let p := progressAt r body k
  ⟨k, r.summary (body.getD k []),
    if p.stopped then .skipped else told r.dialect (r.happens k) (body.getD k []) p.signal⟩

/-- What the loop knows at a statement: whether it goes on, and whether anything has raised the signal. -/
structure Known (body : List Bytes) (k : Nat) : Prop where
  goesOn : (progressAt r body k).stopped = false ↔
    Reached r body k
  raised : Reached r body k →
    (progressAt r body k).signal.aborted =
      (cancelledBefore r k || timedBefore r k)

variable {r} {body : List Bytes} {k : Nat}

theorem progressAt_succ (hk : k < body.length) : progressAt r body (k + 1) =
    runStatement r (progressAt r body k) (body.getD k [], k) := by
  unfold progressAt
  rw [List.getD_eq_getElem?_getD, List.take_add_one, List.getElem?_zipIdx, List.getElem?_eq_getElem hk,
    List.foldl_append, Option.map_some, Nat.zero_add]
  rfl

theorem progressAt_length : progressAt r body body.length = runBody r body := by
  unfold progressAt runBody
  rw [List.take_of_length_le (by rw [List.length_zipIdx])]

theorem runStatement_steps (p : Progress) (entry : Bytes × Nat) :
    (runStatement r p entry).steps = p.steps ++ [⟨entry.2, r.summary entry.1,
      if p.stopped then .skipped else told r.dialect (r.happens entry.2) entry.1 p.signal⟩] := by
  unfold runStatement
  dsimp only
  split <;> rfl

/-- Every statement has one step, and they stand in order. -/
theorem progressAt_steps (hk : k ≤ body.length) : (progressAt r body k).steps =
    (List.range k).map (stepAt r body) := by
  induction k with
  | zero => rfl
  | succ k ih =>
    rw [progressAt_succ hk, runStatement_steps, ih (Nat.le_of_lt hk), List.range_succ, List.map_append]
    rfl

theorem told_ne_skipped (h : Happening) (sql : Bytes) (s : AbortSignal Unit) :
    told r.dialect h sql s ≠ .skipped := outcomeOf_ne_skipped _ _ _

/-- Every step is counted once. -/
theorem progressAt_counts (hk : k ≤ body.length) :
    let p := progressAt r body k
    p.ran + p.failed + (p.steps.filter fun step => step.outcome == .skipped).length = k := by
  induction k with
  | zero => rfl
  | succ k ih =>
    have hcounts := ih (Nat.le_of_lt hk)
    dsimp only at hcounts ⊢
    rw [progressAt_succ hk, runStatement_steps, List.filter_append, List.length_append]
    unfold runStatement
    dsimp only
    split
    · rw [List.filter_cons_of_pos (by rfl), List.filter_nil, List.length_singleton]
      dsimp only
      omega
    · rw [List.filter_cons_of_neg (by simpa using told_ne_skipped _ _ _), List.filter_nil, List.length_nil]
      dsimp only
      split <;> omega

theorem reached_succ : Reached r body (k + 1) ↔
    Reached r body k ∧ (meets r body k).stops r.stop = false := by
  unfold Reached
  rw [Nat.forall_lt_succ_right]

theorem cancelledBefore_succ :
    cancelledBefore r (k + 1) = (cancelledBefore r k || (r.happens k).cancel.isSome) := by
  unfold cancelledBefore
  rw [List.range_succ, List.any_append, List.any_cons, List.any_nil, Bool.or_false]

theorem timedBefore_succ :
    timedBefore r (k + 1) = (timedBefore r k || (r.happens k).timer.isSome) := by
  unfold timedBefore
  rw [List.range_succ, List.any_append, List.any_cons, List.any_nil, Bool.or_false]

/-- After a statement that is run. -/
theorem progressAt_goes (hk : k < body.length)
    (hgoes : (progressAt r body k).stopped = false) :
    let p := progressAt r body k
    let next := progressAt r body (k + 1)
    next.stopped = (told r.dialect (r.happens k) (body.getD k []) p.signal).stops r.stop ∧
      next.signal = (r.happens k).latched p.signal := by
  dsimp only
  rw [progressAt_succ hk]
  unfold runStatement
  rw [hgoes]
  exact ⟨rfl, rfl⟩

/-- Where every statement so far was in time, the loop has stopped just where it should have. -/
theorem known (hk : k ≤ body.length) (htime : ∀ j < k, Reached r body j → InTime r j) :
    Known r body k := by
  induction k with
  | zero => exact ⟨iff_of_true rfl fun j hj => absurd hj (Nat.not_lt_zero j), fun _ => rfl⟩
  | succ k ih =>
    have hknown := ih (Nat.le_of_lt hk) fun j hj => htime j (Nat.lt_succ_of_lt hj)
    by_cases hreached : Reached r body k
    · have htold : told r.dialect _ (body.getD k []) _ = meets r body k :=
        (told_eq_iff (hknown.raised hreached)).mpr (htime k (Nat.lt_succ_self k) hreached)
      obtain ⟨hstopped, hsignal⟩ := progressAt_goes hk (hknown.goesOn.mpr hreached)
      refine ⟨?_, fun _ => ?_⟩
      · rw [hstopped, htold, reached_succ, and_iff_right hreached]
      · rw [hsignal, Happening.latched_aborted, hknown.raised hreached, cancelledBefore_succ, timedBefore_succ]
        ac_rfl
    · have hstopped := (Bool.not_eq_false _).mp (mt hknown.goesOn.mp hreached)
      have hno : ¬ Reached r body (k + 1) := fun h => hreached (reached_succ.mp h).1
      refine ⟨iff_of_false ?_ hno, fun h => absurd h hno⟩
      rw [progressAt_succ hk, runStatement, if_pos hstopped]
      exact mt hknown.goesOn.mp hreached

/-- The step of a statement is no skip just where the script comes to it. -/
theorem stepAt_executed (hknown : Known r body k) :
    (stepAt r body k).outcome ≠ .skipped ↔ Reached r body k := by
  refine Iff.trans ?_ hknown.goesOn
  unfold stepAt
  dsimp only
  split
  · rename_i hstopped
    rw [hstopped]
    exact iff_of_false (fun h => h rfl) Bool.noConfusion
  · rename_i hgoes
    exact iff_of_true (told_ne_skipped _ _ _) (Bool.eq_false_iff.mpr hgoes)

theorem stepAt_told (hknown : Known r body k) (hreached : Reached r body k) :
    (stepAt r body k).outcome = meets r body k ↔ InTime r k := by
  unfold stepAt
  dsimp only
  rw [if_neg (by rw [hknown.goesOn.mpr hreached]; exact Bool.false_ne_true)]
  exact told_eq_iff (hknown.raised hreached)

theorem mem_runBody {step : ScriptStep} : step ∈ (runBody r body).steps ↔
    ∃ k < body.length, stepAt r body k = step := by
  rw [← progressAt_length, progressAt_steps (Nat.le_refl _), List.mem_map]
  exact exists_congr fun k => and_congr_left' List.mem_range

variable (r) (statements : List Bytes)

/-- A run reports what happened and honours its mode just where every statement it comes to is in time. -/
theorem reports_iff : Reports r (scriptBody r.dialect statements)
      (trailingRead r.dialect statements) (runScript r statements) ↔
    ∀ k < (scriptBody r.dialect statements).length,
      Reached r (scriptBody r.dialect statements) k → InTime r k := by
  unfold runScript
  dsimp only
  generalize scriptBody r.dialect statements = body
  constructor
  · intro h k
    -- Up to a first statement out of time the loop knows what it should.
    induction k using Nat.strong_induction_on with
    | _ k ih =>
      intro hk hreached
      have hknown : Known r body k :=
        known (Nat.le_of_lt hk) fun j hj => ih j hj (Nat.lt_trans hj hk)
      have hmem : stepAt r body k ∈ _ := mem_runBody.mpr ⟨k, hk, rfl⟩
      exact (stepAt_told hknown hreached).mp (h.told _ hmem ((h.executed _ hmem).mpr hreached))
  · intro htime
    have hknown : ∀ k ≤ body.length, Known r body k := fun k hk =>
      known hk fun j hj => htime j (Nat.lt_of_lt_of_le hj hk)
    have hsteps : (progressAt r body body.length).steps = _ :=
      progressAt_steps (Nat.le_refl _)
    have hends := (hknown _ (Nat.le_refl _)).goesOn
    rw [progressAt_length] at hsteps hends
    refine ⟨?_, ?_, fun step hmem => ?_, fun step hmem hne => ?_, ?_, fun sql => ?_⟩
    · rw [hsteps, List.map_map]
      exact List.map_id _
    · rw [hsteps, List.map_map]
      refine List.ext_getElem (by simp) fun k _ hk => ?_
      simp [stepAt, List.getD_eq_getElem?_getD, List.getElem?_eq_getElem (by simpa using hk : k < _)]
    · obtain ⟨k, hk, rfl⟩ := mem_runBody.mp hmem
      exact stepAt_executed (hknown k (Nat.le_of_lt hk))
    · obtain ⟨k, hk, rfl⟩ := mem_runBody.mp hmem
      have hreached := (stepAt_executed (hknown k (Nat.le_of_lt hk))).mp hne
      exact (stepAt_told (hknown k (Nat.le_of_lt hk)) hreached).mpr (htime k hk hreached)
    · rw [← progressAt_length]
      exact progressAt_counts (Nat.le_refl _)
    · rw [Option.filter_eq_some_iff, Bool.not_eq_true', hends]

end Run

/-- The first statement runs into its timeout, the others would do their work. -/
def slowFirst (k : Nat) : Happening :=
  if k = 0 then ⟨none, none, some .executing, .error .interrupted, nofun, fun _ => Or.inr rfl⟩
  else ⟨none, none, none, .ok 1, nofun, nofun⟩

/-- A script that is to go on whatever fails ends with the statement after the timeout. -/
theorem slowFirst_not_reports :
    let statements := [ascii "DELETE FROM a", ascii "DELETE FROM b", ascii "DELETE FROM c"]
    ¬ Reports ⟨.postgres, id, .never, slowFirst⟩ (scriptBody .postgres statements)
      (trailingRead .postgres statements) (runScript ⟨.postgres, id, .never, slowFirst⟩ statements) := by
  intro statements h
  have hskipped : (⟨2, ascii "DELETE FROM c", .skipped⟩ : ScriptStep) ∈
      (runScript ⟨.postgres, id, .never, slowFirst⟩ statements).steps := by
    decide +kernel
  refine (h.executed _ hskipped).mpr ?_ rfl
  unfold Reached
  decide +kernel

end RedDb.Service.ScriptRun
