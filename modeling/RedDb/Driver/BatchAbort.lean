import RedDb.Driver.Edits

/-!
# RedDb — stopping a batch of statements

`execute_batch_abort` runs a list of statements between `BEGIN` and `COMMIT`, and
an `AbortSignal` may be raised from another thread at any moment of it. The signal
latches a flag, which the call looks at between its commands, and sends a cancel
out of band, which stops a command only if it is executing when it arrives.

Postgres and MySQL look at the flag before `BEGIN` and again before each statement,
SQLite before `BEGIN` only. The rest of the three is one function.

* `executeBatchLoop_stops_iff` — when the statements end in an error;
* `executeBatchLoop_keeps_iff` — and when they leave nothing behind;
* `abortHolds_iff` — the calls that a raised signal stops for good;
* `gapAbort_commits` — a stopped SQLite batch that commits all the same.
-/

namespace RedDb.Driver

open ByteText

/-! ## The signal -/

/-- A cancel handle shared by the fetches armed on it, each under an id of its own. -/
structure AbortSignal (Token : Type) where
  aborted : Bool
  nextId : Nat
  armed : List (Nat × Token)

namespace AbortSignal

variable {Token : Type}

def new : AbortSignal Token := ⟨false, 0, []⟩

/-- Latch the flag; the tokens to fire are those armed. -/
def abort (s : AbortSignal Token) : AbortSignal Token × List Token :=
  ({ s with aborted := true }, s.armed.map Prod.snd)

/-- Install a token. It is fired at once if the signal was raised before. -/
def arm (s : AbortSignal Token) (token : Token) : AbortSignal Token × Nat × List Token :=
  ({ s with nextId := s.nextId + 1, armed := s.armed ++ [(s.nextId, token)] }, s.nextId,
    if s.aborted then [token] else [])

/-- The drop of an `ArmGuard`. -/
def disarm (s : AbortSignal Token) (id : Nat) : AbortSignal Token :=
  { s with armed := s.armed.filter fun a => a.1 != id }

@[simp] theorem abort_aborted (s : AbortSignal Token) : s.abort.1.aborted = true := rfl

@[simp] theorem arm_aborted (s : AbortSignal Token) (token : Token) :
    (s.arm token).1.aborted = s.aborted := rfl

end AbortSignal

/-! ## Moments of a call -/

/-- The engines whose batches are one transaction. -/
inductive BatchEngine where
  | postgres
  | mysql
  | sqlite

/-- Does the loop look at the flag before each statement? -/
def BatchEngine.rechecks : BatchEngine → Bool
  | .postgres => true
  | .mysql => true
  | .sqlite => false

/-- Around a command of a call: before the look at the flag that comes ahead of it,
between that look and its start, and while the server executes it. -/
inductive Phase where
  | beforeLook
  | afterLook
  | executing

/-- A moment of a call. Command 0 acquires the connection, 1 is `BEGIN`, then come
the statements and `COMMIT`. -/
structure Moment where
  command : Nat
  phase : Phase

def Moment.time (m : Moment) : Nat :=
  3 * m.command + match m.phase with
    | .beforeLook => 0
    | .afterLook => 1
    | .executing => 2

/-- The moment comes before the command has started. -/
def Moment.Before (m : Moment) (k : Nat) : Prop := m.time < 3 * k + 2

instance (m : Moment) (k : Nat) : Decidable (m.Before k) :=
  inferInstanceAs (Decidable (m.time < 3 * k + 2))

/-- Which commands a cancel sent at moment `m` can stop. SQLite interrupts what is
executing there and then. The request of the other two travels, and Postgres sends
it again until the call is done, so that a later command may be hit as well. -/
def BatchEngine.Reaches (engine : BatchEngine) (m : Moment) (k : Nat) : Prop :=
  match engine with
  | .sqlite => m = ⟨k, .executing⟩
  | .postgres | .mysql => m.time ≤ 3 * k + 2

/-! ## The server's side -/

/-- What a command does to the open transaction. Most statements join it. Data
definition in MySQL, or a `COMMIT` of the user's own, settles it first; a `ROLLBACK`
abandons it. -/
inductive Effect where
  | joins
  | settles
  | abandons

/-- A command's effect, and its affected rows or the error the driver maps it to. -/
structure Answer where
  effect : Effect
  result : Except RedError Nat

/-- The statements a `COMMIT` would make durable, none outside a transaction, and
those that are durable. -/
structure TxSession where
  block : Option (List Bytes)
  durable : List Bytes

namespace TxSession

def idle : TxSession := ⟨none, []⟩

def begin : TxSession := ⟨some [], []⟩

def settle (s : TxSession) : TxSession := ⟨none, s.durable ++ s.block.getD []⟩

def rollback (s : TxSession) : TxSession := { s with block := none }

/-- A statement that failed adds nothing, but it may have settled what was open. -/
def execute (s : TxSession) (sql : Bytes) (a : Answer) : TxSession :=
  let work := match a.result with
    | .ok _ => [sql]
    | .error _ => []
  match a.effect with
  | .joins =>
    match s.block with
    | some open' => { s with block := some (open' ++ work) }
    | none => { s with durable := s.durable ++ work }
  | .settles => { s.settle with durable := s.settle.durable ++ work }
  | .abandons => s.rollback

/-- A `COMMIT` that reports an error has rolled back, unless it was the report
that was lost. -/
def commit (s : TxSession) (a : Answer) : TxSession :=
  match a.result, a.effect with
  | .ok _, _ => s.settle
  | .error _, .settles => s.settle
  | .error _, _ => s.rollback

end TxSession

/-- What the outside decides about one call: when the signal is raised, and what
each command answers. A command reports the interruption only if the cancel
reached it. -/
structure Call (engine : BatchEngine) where
  abort : Moment
  answer : Nat → Answer
  reached : ∀ k, (answer k).result = .error .interrupted → engine.Reaches abort k

namespace Call

variable {engine : BatchEngine}

/-- The signal as the look ahead of command `k` finds it. The call arms its cancel
once it holds a connection. -/
def signal (c : Call engine) (k : Nat) : AbortSignal Unit :=
  let armed := (AbortSignal.new.arm ()).1
  if c.abort.time ≤ 3 * k then armed.abort.1 else armed

def isAborted (c : Call engine) (k : Nat) : Bool := (c.signal k).aborted

variable {c : Call engine}

theorem isAborted_iff {k : Nat} : c.isAborted k = true ↔ c.abort.time ≤ 3 * k := by
  unfold isAborted signal
  split
  · exact iff_of_true rfl ‹_›
  · exact iff_of_false Bool.false_ne_true ‹_›

/-- A flag once seen is seen by every later look. -/
theorem isAborted_mono {j k : Nat} (h : j ≤ k) (hj : c.isAborted j = true) :
    c.isAborted k = true := by
  rw [isAborted_iff] at *
  omega

def Fails (c : Call engine) (k : Nat) : Prop := ∃ e, (c.answer k).result = .error e

theorem fails_of_error {k : Nat} {e : RedError}
    (h : (c.answer k).result = .error e) : c.Fails k := ⟨e, h⟩

theorem not_fails {k : Nat} {n : Nat} (h : (c.answer k).result = .ok n) : ¬c.Fails k := by
  rintro ⟨e, he⟩
  rw [h] at he
  cases he

end Call

/-! ## The batch -/

section Batch

variable {engine : BatchEngine} (c : Call engine)

/-- The statements from command `k` on, then `COMMIT`. -/
@[grind =] def executeBatchLoop (rechecks : Bool) :
    Nat → List Bytes → List Nat → TxSession → Except RedError (List Nat) × TxSession
  | k, [], affected, s =>
    match (c.answer k).result with
    | .ok _ => (.ok affected, s.commit (c.answer k))
    | .error e => (.error e, s.commit (c.answer k))
  | k, sql :: rest, affected, s =>
    if rechecks && c.isAborted k then (.error .interrupted, s.rollback)
    else
      match (c.answer k).result with
      | .ok n => executeBatchLoop rechecks (k + 1) rest (affected ++ [n])
          (s.execute sql (c.answer k))
      | .error e => (.error e, (s.execute sql (c.answer k)).rollback)

/-- The answer of the call, and the session it leaves. -/
def executeBatch (rechecks : Bool) (statements : List Bytes) :
    Except RedError (List Nat) × TxSession :=
  if statements.isEmpty then (.ok [], .idle)
  else
    match (c.answer 0).result with
    | .error e => (.error e, .idle)
    | .ok _ =>
      if c.isAborted 1 then (.error .interrupted, .idle)
      else
        match (c.answer 1).result with
        | .error e => (.error e, .idle)
        | .ok _ => executeBatchLoop c rechecks 2 statements [] .begin

end Batch

/-- `execute_batch_abort` of the three drivers. -/
def executeBatchAbort {engine : BatchEngine} (c : Call engine) (statements : List Bytes) :
    Except RedError (List Nat) × TxSession :=
  executeBatch c engine.rechecks statements

/-! ## What the commands do, one after the other -/

namespace Call

variable {engine : BatchEngine} (c : Call engine) (statements : List Bytes)

/-- The session after `BEGIN` and the first `j` statements. -/
def session : Nat → TxSession
  | 0 => .begin
  | j + 1 => (session j).execute (statements.getD j []) (c.answer (j + 2))

/-- The session after all of them and `COMMIT`. -/
def settled : TxSession :=
  (c.session statements statements.length).commit (c.answer (statements.length + 2))

/-- The last command that is sent only after a look at the flag, among those up to
statement `j`; `COMMIT` has the index after the last statement and no look. -/
def lastLook (j : Nat) : Nat :=
  if engine.rechecks then min (j + 2) (statements.length + 1) else 1

/-- Statement `j` is sent: all before it went through, and no look saw the flag. -/
def Sent (j : Nat) : Prop :=
  (∀ k < j + 2, ¬c.Fails k) ∧ 3 * @lastLook engine statements j < c.abort.time

/-- The statements that are sent make nothing durable by themselves, nor does a
`COMMIT` that fails. -/
def KeepsInside : Prop :=
  (∀ j < statements.length, c.Sent statements j → (c.session statements (j + 1)).durable = []) ∧
    (c.Sent statements statements.length → (c.settled statements).durable = [])

/-- The claim of an abort: the call ends in an error, and nothing of it lasts. -/
def AbortHolds : Prop :=
  (∃ e, (executeBatchAbort c statements).1 = .error e) ∧
    (executeBatchAbort c statements).2.durable = []

/-- The signal is raised before the last statement has started. -/
def BeforeLast : Prop := statements ≠ [] ∧ c.abort.Before (statements.length + 1)

end Call

/-! ## Durable work is never taken back -/

variable {s : TxSession}

theorem TxSession.execute_durable (sql : Bytes) (a : Answer)
    (h : s.durable ≠ []) : (s.execute sql a).durable ≠ [] := by
  obtain ⟨effect, result⟩ := a
  obtain ⟨block, durable⟩ := s
  cases effect <;> cases block <;> simp_all [execute, settle, rollback]

theorem TxSession.commit_durable (a : Answer) (h : s.durable ≠ []) : (s.commit a).durable ≠ [] := by
  unfold commit
  split <;> simp [settle, rollback, h]

variable {engine : BatchEngine} {statements : List Bytes} {affected : List Nat}

theorem executeBatchLoop_durable {c : Call engine} {r : Bool} {k : Nat}
    (h : s.durable ≠ []) : (executeBatchLoop c r k statements affected s).2.durable ≠ [] := by
  induction statements generalizing k affected s with
  | nil =>
    unfold executeBatchLoop
    split
    · exact TxSession.commit_durable _ h
    · exact TxSession.commit_durable _ h
  | cons sql rest ih =>
    have hnext := TxSession.execute_durable sql (c.answer k) h
    unfold executeBatchLoop
    split
    · exact h
    · split
      · exact ih hnext
      · exact hnext

/-! ## How the statements end -/

section Loop

variable {engine : BatchEngine} {c : Call engine}

/-- **The statements end in an error** when the last look at the flag sees it, if
there are looks, or a command fails. -/
theorem executeBatchLoop_stops_iff {r : Bool} {k : Nat} :
    (∃ e, (executeBatchLoop c r k statements affected s).1 = .error e) ↔
      (r = true ∧ statements ≠ [] ∧ c.isAborted (k + statements.length - 1) = true) ∨
        ∃ i ≤ statements.length, c.Fails (k + i) := by
  induction statements generalizing k affected s with
  | nil =>
    unfold executeBatchLoop
    cases hk : (c.answer k).result with
    | ok n => simpa using Call.not_fails hk
    | error e => simpa using Call.fails_of_error hk
  | cons sql rest ih =>
    unfold executeBatchLoop
    by_cases hseen : (r && c.isAborted k) = true
    · rw [if_pos hseen]
      rw [Bool.and_eq_true] at hseen
      refine iff_of_true ⟨_, rfl⟩ (Or.inl ⟨hseen.1, List.cons_ne_nil sql rest, ?_⟩)
      exact Call.isAborted_mono (by simp) hseen.2
    rw [if_neg hseen]
    cases hk : (c.answer k).result with
    | error e => exact iff_of_true ⟨e, rfl⟩ (Or.inr ⟨0, Nat.zero_le _, Call.fails_of_error hk⟩)
    | ok n =>
      show (∃ e, (executeBatchLoop c r (k + 1) rest _ _).1 = .error e) ↔ _
      rw [ih, List.length_cons]
      refine or_congr ?_ ?_
      · cases rest with
        | nil => simpa using hseen
        | cons sql' rest =>
          rw [show k + 1 + (sql' :: rest).length - 1 = k + ((sql' :: rest).length + 1) - 1 by
            omega]
          simp
      · refine ⟨?_, ?_⟩
        · rintro ⟨i, hi, hfail⟩
          exact ⟨i + 1, by omega, by rwa [show k + (i + 1) = k + 1 + i by omega]⟩
        · rintro ⟨i, hi, hfail⟩
          cases i with
          | zero => exact absurd hfail (Call.not_fails hk)
          | succ i => exact ⟨i, by omega, by rwa [show k + 1 + i = k + (i + 1) by omega]⟩

/-- **The statements leave nothing behind** when none that is sent does. -/
theorem executeBatchLoop_keeps_iff {j : Nat}
    {rest : List Bytes} (hj : j ≤ statements.length) (hrest : statements.drop j = rest)
    (hdone : ∀ k < j + 2, ¬c.Fails k)
    (hlook : 3 * (if engine.rechecks then j + 1 else 1) < c.abort.time)
    (hdurable : (c.session statements j).durable = []) :
    (executeBatchLoop c engine.rechecks (j + 2) rest affected
        (c.session statements j)).2.durable = [] ↔
      (∀ i, j ≤ i → i < statements.length → c.Sent statements i →
        (c.session statements (i + 1)).durable = []) ∧
        (c.Sent statements statements.length → (c.settled statements).durable = []) := by
  induction rest generalizing j affected with
  | nil =>
    obtain rfl : j = statements.length := by
      have := List.drop_eq_nil_iff.mp hrest
      omega
    have hsent : c.Sent statements statements.length := by
      refine ⟨hdone, ?_⟩
      rwa [Call.lastLook, Nat.min_eq_right (Nat.le_succ _)]
    have hcommit : (executeBatchLoop c engine.rechecks (statements.length + 2) [] affected
        (c.session statements statements.length)).2 = c.settled statements := by
      unfold executeBatchLoop
      split
      · rfl
      · rfl
    rw [hcommit]
    refine ⟨fun h => ⟨fun i hle hlt => absurd hlt (Nat.not_lt.mpr hle), fun _ => h⟩, ?_⟩
    rintro ⟨-, h⟩
    exact h hsent
  | cons sql rest ih =>
    have hlt : j < statements.length := by
      have := congrArg List.length hrest
      rw [List.length_drop, List.length_cons] at this
      omega
    have hsql : statements.getD j [] = sql := by
      rw [List.drop_eq_getElem_cons hlt, List.cons.injEq] at hrest
      rw [List.getD_eq_getElem?_getD, List.getElem?_eq_getElem hlt]
      exact hrest.1
    have hnext : statements.drop (j + 1) = rest := by
      rw [List.drop_eq_getElem_cons hlt, List.cons.injEq] at hrest
      exact hrest.2
    have hstep : (c.session statements j).execute sql (c.answer (j + 2)) =
        c.session statements (j + 1) := by
      rw [Call.session, hsql]
    unfold executeBatchLoop
    by_cases hseen : (engine.rechecks && c.isAborted (j + 2)) = true
    · -- the look ahead of statement `j` sees the flag: neither it nor a later one is sent
      rw [if_pos hseen]
      rw [Bool.and_eq_true, Call.isAborted_iff] at hseen
      have hnot : ∀ i, j ≤ i → ¬c.Sent statements i := by
        rintro i hle ⟨-, hi⟩
        rw [Call.lastLook, if_pos hseen.1] at hi
        omega
      exact iff_of_true hdurable ⟨fun i hle _ h => absurd h (hnot i hle),
        fun h => absurd h (hnot _ hj)⟩
    · have hlook' : 3 * (if engine.rechecks then j + 2 else 1) < c.abort.time := by
        rw [Bool.and_eq_true, Call.isAborted_iff] at hseen
        split at hlook
        · rw [if_pos ‹_›]
          have hlate : ¬c.abort.time ≤ 3 * (j + 2) := fun h => hseen ⟨‹_›, h⟩
          omega
        · rwa [if_neg ‹_›]
      have hsent : c.Sent statements j := by
        refine ⟨hdone, ?_⟩
        rwa [Call.lastLook, Nat.min_eq_left (by omega)]
      rw [if_neg hseen, hstep]
      cases hk : (c.answer (j + 2)).result with
      | error e =>
        have hnot : ∀ i, j < i → ¬c.Sent statements i := fun i hlt h =>
          h.1 (j + 2) (by omega) (Call.fails_of_error hk)
        show (c.session statements (j + 1)).durable = [] ↔ _
        refine ⟨fun h => ⟨?_, fun hall => absurd hall (hnot _ hlt)⟩, fun h => h.1 j (Nat.le_refl _) hlt hsent⟩
        intro i hle _ hi
        rcases Nat.eq_or_lt_of_le hle with rfl | hlt'
        · exact h
        · exact absurd hi (hnot i hlt')
      | ok n =>
        show (executeBatchLoop c engine.rechecks (j + 1 + 2) rest _ _).2.durable = [] ↔ _
        by_cases hdurable' : (c.session statements (j + 1)).durable = []
        · have hdone' : ∀ k < j + 1 + 2, ¬c.Fails k := by
            intro k hk'
            rcases Nat.lt_succ_iff_lt_or_eq.mp hk' with hlt' | rfl
            · exact hdone k hlt'
            · exact Call.not_fails hk
          rw [ih hlt hnext hdone' hlook' hdurable']
          refine and_congr_left fun _ => ⟨?_, fun h i hle => h i (Nat.le_of_succ_le hle)⟩
          intro h i hle hi hsenti
          rcases Nat.eq_or_lt_of_le hle with rfl | hlt'
          · exact hdurable'
          · exact h i hlt' hi hsenti
        · refine iff_of_false (executeBatchLoop_durable hdurable') ?_
          rintro ⟨h, -⟩
          exact hdurable' (h j (Nat.le_refl _) hlt hsent)

end Loop

/-! ## The call -/

/-- The call stops: the last look at the flag sees it, or a command fails. -/
def Call.Stops {engine : BatchEngine} (c : Call engine) (statements : List Bytes) : Prop :=
  c.abort.time ≤ 3 * @lastLook engine statements statements.length ∨
    ∃ k < statements.length + 3, c.Fails k

section Statements

variable {engine : BatchEngine} {c : Call engine} {statements : List Bytes}

/-- A call sends no statement, or what it does is what its statements do. -/
theorem executeBatchAbort_cases (hne : statements ≠ []) :
    (∃ e, executeBatchAbort c statements = (.error e, .idle) ∧ c.Stops statements ∧
      ∀ j, ¬c.Sent statements j) ∨
    ((∀ k < 2, ¬c.Fails k) ∧ 3 < c.abort.time ∧ executeBatchAbort c statements =
      executeBatchLoop c engine.rechecks 2 statements [] (c.session statements 0)) := by
  have hfails : ∀ k e, k < 2 → (c.answer k).result = .error e →
      c.Stops statements ∧ ∀ j, ¬c.Sent statements j := by
    intro k e hk he
    exact ⟨Or.inr ⟨k, by omega, Call.fails_of_error he⟩,
      fun j h => h.1 k (by omega) (Call.fails_of_error he)⟩
  have hcall : executeBatchAbort c statements = executeBatch c engine.rechecks statements := rfl
  unfold executeBatch at hcall
  rw [if_neg (by simpa using hne)] at hcall
  cases h0 : (c.answer 0).result with
  | error e =>
    rw [h0] at hcall
    exact Or.inl ⟨e, hcall, hfails 0 e (by omega) h0⟩
  | ok n0 =>
    rw [h0] at hcall
    by_cases hseen : c.isAborted 1 = true
    · simp only [hseen, if_true] at hcall
      rw [Call.isAborted_iff] at hseen
      refine Or.inl ⟨_, hcall, Or.inl ?_, ?_⟩
      · unfold Call.lastLook
        split <;> omega
      · rintro j ⟨-, hj⟩
        unfold Call.lastLook at hj
        split at hj <;> omega
    · simp only [hseen] at hcall
      rw [Call.isAborted_iff] at hseen
      cases h1 : (c.answer 1).result with
      | error e =>
        rw [h1] at hcall
        exact Or.inl ⟨e, hcall, hfails 1 e (by omega) h1⟩
      | ok n1 =>
        rw [h1] at hcall
        refine Or.inr ⟨?_, Nat.lt_of_not_le hseen, hcall⟩
        intro k hk
        rcases Nat.lt_succ_iff_lt_or_eq.mp hk with hk | rfl
        · rw [Nat.lt_one_iff.mp hk]
          exact Call.not_fails h0
        · exact Call.not_fails h1

theorem executeBatchAbort_stops_iff (hne : statements ≠ []) :
    (∃ e, (executeBatchAbort c statements).1 = .error e) ↔ c.Stops statements := by
  have hpos : 0 < statements.length := List.length_pos_iff.mpr hne
  rcases executeBatchAbort_cases hne with ⟨e, he, hstops, -⟩ | ⟨hok, hseen, hloop⟩
  · exact iff_of_true ⟨e, by rw [he]⟩ hstops
  rw [hloop, executeBatchLoop_stops_iff, Call.Stops, Call.lastLook,
    show 2 + statements.length - 1 = statements.length + 1 by omega, Call.isAborted_iff]
  refine or_congr ?_ ⟨?_, ?_⟩
  · split
    · rw [Nat.min_eq_right (Nat.le_succ _)]
      exact ⟨fun h => h.2.2, fun h => ⟨‹_›, hne, h⟩⟩
    · exact iff_of_false (fun h => ‹¬_› h.1) (Nat.not_le.mpr hseen)
  · rintro ⟨i, hi, hfail⟩
    exact ⟨2 + i, by omega, hfail⟩
  · rintro ⟨k, hk, hfail⟩
    have hle : 2 ≤ k := Nat.le_of_not_lt fun hlt => hok k hlt hfail
    exact ⟨k - 2, by omega, by rwa [Nat.add_sub_cancel' hle]⟩

theorem executeBatchAbort_keeps_iff (hne : statements ≠ []) :
    (executeBatchAbort c statements).2.durable = [] ↔ c.KeepsInside statements := by
  rcases executeBatchAbort_cases hne with ⟨e, he, -, hnot⟩ | ⟨hok, hseen, hloop⟩
  · rw [he]
    exact iff_of_true rfl ⟨fun j _ h => absurd h (hnot j), fun h => absurd h (hnot _)⟩
  have hlook : 3 * (if engine.rechecks then 0 + 1 else 1) < c.abort.time := by
    rwa [ite_self]
  rw [hloop]
  refine (executeBatchLoop_keeps_iff (Nat.zero_le _) (@List.drop_zero _ statements) hok
    hlook rfl).trans ?_
  exact and_congr_left fun _ => ⟨fun h j => h j (Nat.zero_le j), fun h j _ => h j⟩

end Statements

/-- Statements that all join the transaction keep inside it. -/
theorem Call.session_joins {c : Call engine}
    (hjoins : ∀ k, (c.answer k).effect = .joins) (j : Nat) :
    (c.session statements j).durable = [] ∧ (c.session statements j).block ≠ none := by
  induction j with
  | zero => exact ⟨rfl, Option.some_ne_none _⟩
  | succ j ih =>
    obtain ⟨work, hblock⟩ := Option.ne_none_iff_exists'.mp ih.2
    unfold Call.session TxSession.execute
    simp only [hjoins, hblock]
    exact ⟨ih.1, Option.some_ne_none _⟩

/-- Where statements only join the transaction, an engine that looks again before
each of them is stopped by every signal raised ahead of its last look. -/
theorem abortHolds_of_rechecks {c : Call engine}
    (hrechecks : engine.rechecks = true) (hne : statements ≠ [])
    (hjoins : ∀ k, (c.answer k).effect = .joins)
    (hlook : c.abort.time ≤ 3 * (statements.length + 1)) : c.AbortHolds statements := by
  have hlast : @Call.lastLook engine statements statements.length =
      statements.length + 1 := by
    rw [Call.lastLook, if_pos hrechecks]
    omega
  refine ⟨(executeBatchAbort_stops_iff hne).mpr (Or.inl (by rwa [hlast])),
    (executeBatchAbort_keeps_iff hne).mpr ⟨?_, ?_⟩⟩
  · exact fun j _ _ => (Call.session_joins hjoins (j + 1)).1
  · rintro ⟨-, hsent⟩
    rw [hlast] at hsent
    omega

/-- **A raised signal stops the batch for good exactly when** the last look at its
flag comes after it, or one of the commands fails, and no statement sent until then
makes work durable by itself. -/
theorem abortHolds_iff {engine : BatchEngine} (c : Call engine) (statements : List Bytes)
    (hbefore : c.BeforeLast statements) :
    c.AbortHolds statements ↔ c.Stops statements ∧ c.KeepsInside statements :=
  and_congr (executeBatchAbort_stops_iff hbefore.1) (executeBatchAbort_keeps_iff hbefore.1)

/-- Two `INSERT`s all of whose commands succeed, and a stop that is pressed between
the two. -/
def gapCall (engine : BatchEngine) : Call engine where
  abort := ⟨3, .beforeLook⟩
  answer _ := ⟨.joins, .ok 1⟩
  reached _ h := by cases h

def twoInserts : List Bytes := [ascii "INSERT INTO t VALUES (1)", ascii "INSERT INTO t VALUES (2)"]

theorem gapCall_postgres :
    (gapCall .postgres).Stops twoInserts ∧ (gapCall .postgres).KeepsInside twoInserts :=
  (abortHolds_iff (gapCall .postgres) twoInserts ⟨List.cons_ne_nil _ _, by decide⟩).mp
    (abortHolds_of_rechecks rfl (List.cons_ne_nil _ _) (fun _ => rfl) (by decide))

/-- **On SQLite the call reports both rows and has committed them.** -/
theorem gapAbort_commits : (gapCall .sqlite).BeforeLast twoInserts ∧
      (executeBatchAbort (gapCall .sqlite) twoInserts).2.durable = twoInserts ∧
      ¬(gapCall .sqlite).AbortHolds twoInserts := by
  refine ⟨⟨List.cons_ne_nil _ _, by decide⟩, rfl, ?_⟩
  rintro ⟨⟨e, he⟩, -⟩
  cases he

end RedDb.Driver
