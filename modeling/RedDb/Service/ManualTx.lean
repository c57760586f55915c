import RedDb.Driver.BatchAbort
import RedDb.Lib.Machine
import RedDb.Sql.Risk

/-!
# RedDb — manual transaction mode

`BeginTransaction` pins a connection with an open transaction to the session, and
the commands that follow it are handled each in its own way: `Execute` runs on the
pinned connection, and counts its statements once all of them went through;
`RunScript` and `ApplyBatch` spawn a task that works through the pooled driver. `step`
is one command, or one statement of a task.

What is promised is `Covered`: nothing that can change data runs beside the
transaction, a rollback would leave nothing of it behind, and the count of writes is
the number of statements executed.

* `executeLoop_cases` — what an `Execute` has run when it ends;
* `covered_step_iff` — the steps that keep the promise;
* `covered_iff` — and so the runs that keep it throughout;
* `editBeside_lands` — a grid edit that a rollback does not take back.
-/

namespace RedDb.Service.ManualTx

open ByteText Driver Sql

/-! ## The commands -/

/-- What the handlers need to know of an engine: its dialect, the statement its
driver renders for an edit, and which statements can change data there. -/
structure Engine where
  dialect : Dialect
  editSql : EditOp → Bytes
  changes : Bytes → Prop

inductive ScriptStop where
  | onError
  | never
  deriving DecidableEq

inductive BatchMode where
  | atomic
  | bestEffort (allowMultiMatch : Bool)
  deriving DecidableEq

/-- A task off the pump: what is left of a script, or a batch of edits. -/
inductive Task where
  | script (pending : List Bytes) (stop : ScriptStop)
  | edits (ops : List EditOp)

/-- How one statement of a script ends, and whether it reached the server. -/
inductive ScriptAnswer where
  | ok
  | failed (sent : Bool)
  | interrupted (sent : Bool)
  deriving DecidableEq

def ScriptAnswer.sends : ScriptAnswer → Bool
  | .ok => true
  | .failed sent => sent
  | .interrupted sent => sent

/-- Does the script go on after it? A user cancel ends it whatever its mode. -/
def ScriptAnswer.stops : ScriptAnswer → ScriptStop → Bool
  | .ok, _ => false
  | .failed _, stop => stop == .onError
  | .interrupted _, _ => true

/-- How `apply_edits` ends: with all of them committed, or rolled back after the
first `sent`. `apply_edits_best_effort` is the same on engines with transactions. -/
inductive EditsAnswer where
  | committed
  | rolledBack (sent : Nat)

def EditsAnswer.sent : EditsAnswer → List EditOp → List EditOp
  | .committed, ops => ops
  | .rolledBack n, ops => ops.take n

def EditsAnswer.landed : EditsAnswer → List EditOp → List EditOp
  | .committed, ops => ops
  | .rolledBack _, _ => []

/-- A session in manual mode. `tx` is the pinned connection since `BEGIN` and
`txWrites` the count it reports. For the record, `executed` counts the statements
executed in the transaction, and `pooled` and `landed` are those that ran beside it
and those of them that are durable. -/
structure Session where
  tx : TxSession
  txWrites : Nat
  executed : Nat
  tasks : List Task
  pooled : List Bytes
  landed : List Bytes

/-- The session once `BeginTransaction` has succeeded. -/
def begun : Session := ⟨.begin, 0, 0, [], [], []⟩

/-- The loop of `Execute` over its statements: what it leaves of the transaction, how
many were executed, and the error that ended it. -/
def executeLoop (answers : Nat → Answer) :
    Nat → List Bytes → TxSession → TxSession × Nat × Option RedError
  | _, [], s => (s, 0, none)
  | k, sql :: rest, s =>
    match (answers k).result with
    | .ok _ =>
      let (t, ran, failed) := executeLoop answers (k + 1) rest (s.execute sql (answers k))
      (t, ran + 1, failed)
    | .error e => (s.execute sql (answers k), 0, some e)

/-- `Execute` inside a transaction. -/
def execute (s : Session) (statements : List Bytes) (answers : Nat → Answer) : Session :=
  let (tx, ran, failed) := executeLoop answers 0 statements s.tx
  { s with
    tx := tx
    executed := s.executed + ran
    txWrites := match failed with
      | some _ => s.txWrites
      | none => s.txWrites + statements.length }

/-- The statements of a script that are run: a trailing read is handed back. -/
def scriptBody (d : Dialect) (statements : List Bytes) : List Bytes :=
  match statements.getLast? with
  | some sql => if (assess sql d).level = .safe then statements.dropLast else statements
  | none => []

inductive Action where
  | execute (sql : Bytes) (answers : Nat → Answer)
  | runScript (statements : List Bytes) (stop : ScriptStop)
  | applyBatch (ops : List EditOp) (mode : BatchMode)
  /-- The next statement of the script at `n` runs. -/
  | scriptStep (n : Nat) (answer : ScriptAnswer)
  /-- The edits of the batch at `n` run. -/
  | editsRun (n : Nat) (answer : EditsAnswer)

section Handlers

variable (engine : Engine)

/-- `driver.execute_abort` on one statement of a script. -/
def scriptStep (s : Session) (n : Nat) (sql : Bytes) (rest : List Bytes) (stop : ScriptStop)
    (answer : ScriptAnswer) : Session :=
  { s with
    tasks := s.tasks.set n (.script (if answer.stops stop then [] else rest) stop)
    pooled := if answer.sends then s.pooled ++ [sql] else s.pooled
    landed := if answer = .ok then s.landed ++ [sql] else s.landed }

/-- `driver.apply_edits`. -/
def editsRun (s : Session) (n : Nat) (ops : List EditOp) (answer : EditsAnswer) : Session :=
  { s with
    tasks := s.tasks.eraseIdx n
    pooled := s.pooled ++ (answer.sent ops).map engine.editSql
    landed := s.landed ++ (answer.landed ops).map engine.editSql }

def step (s : Session) : Action → Option Session
  | .execute sql answers => some (execute s (splitStatements sql engine.dialect) answers)
  | .runScript statements stop =>
    some { s with tasks := s.tasks ++ [.script (scriptBody engine.dialect statements) stop] }
  | .applyBatch ops _ => some { s with tasks := s.tasks ++ [.edits ops] }
  | .scriptStep n answer =>
    match s.tasks[n]? with
    | some (.script (sql :: rest) stop) => some (scriptStep s n sql rest stop answer)
    | _ => none
  | .editsRun n answer =>
    match s.tasks[n]? with
    | some (.edits ops) => some (editsRun engine s n ops answer)
    | _ => none

end Handlers

/-! ## The promise -/

/-- What has become durable since `BEGIN` once the transaction is rolled back. -/
def Session.afterRollback (s : Session) : List Bytes := s.tx.rollback.durable ++ s.landed

/-- What manual mode promises while the transaction is open. -/
structure Covered (engine : Engine) (s : Session) : Prop where
  inside : ∀ sql ∈ s.pooled, ¬engine.changes sql
  undone : ∀ sql ∈ s.afterRollback, ¬engine.changes sql
  counted : s.txWrites = s.executed

/-- The transaction after some statements, up to the first that fails. -/
def through (answers : Nat → Answer) : Nat → List Bytes → TxSession → TxSession
  | _, [], s => s
  | k, sql :: rest, s =>
    match (answers k).result with
    | .ok _ => through answers (k + 1) rest (s.execute sql (answers k))
    | .error _ => s.execute sql (answers k)

/-- An `Execute` fails at its first statement or not at all, and nothing in it that
changes data is made durable by a statement that ends the transaction. A statement of
a script and the edits of a batch that reach the server cannot change data. -/
def Keeps (engine : Engine) (s : Session) : Action → Prop
  | .execute sql answers =>
    let statements := splitStatements sql engine.dialect
    ((∀ k < statements.length, ∃ n, (answers k).result = .ok n) ∨
        ∃ e, (answers 0).result = .error e) ∧
      ∀ x ∈ (through answers 0 statements s.tx).durable, ¬engine.changes x
  | .scriptStep n answer => ∀ sql rest stop,
      s.tasks[n]? = some (.script (sql :: rest) stop) → answer.sends = true → ¬engine.changes sql
  | .editsRun n answer => ∀ ops, s.tasks[n]? = some (.edits ops) →
      ∀ op ∈ answer.sent ops, ¬engine.changes (engine.editSql op)
  | _ => True

/-! ## Execute -/

section Loop

variable {answers : Nat → Answer} {k : Nat} {statements : List Bytes} {s : TxSession}

theorem executeLoop_tx : (executeLoop answers k statements s).1 = through answers k statements s := by
  induction statements generalizing k s with
  | nil => rfl
  | cons sql rest ih =>
    unfold executeLoop through
    split
    · exact ih
    · rfl

/-- **What an `Execute` has run when it ends**: all of its statements, or those ahead
of the one that failed. -/
theorem executeLoop_cases : ((executeLoop answers k statements s).2 = (statements.length, none) ∧
      ∀ i < statements.length, ∃ n, (answers (k + i)).result = .ok n) ∨
    ∃ ran e, (executeLoop answers k statements s).2 = (ran, some e) ∧ ran < statements.length ∧
      (answers (k + ran)).result = .error e ∧ ∀ i < ran, ∃ n, (answers (k + i)).result = .ok n := by
  induction statements generalizing k s with
  | nil => exact Or.inl ⟨rfl, fun i hi => absurd hi (Nat.not_lt_zero i)⟩
  | cons sql rest ih =>
    unfold executeLoop
    cases hk : (answers k).result with
    | error e =>
      exact Or.inr ⟨0, e, rfl, Nat.succ_pos _, hk, fun i hi => absurd hi (Nat.not_lt_zero i)⟩
    | ok n =>
      have hshift : ∀ m, (∀ i < m, ∃ n, (answers (k + 1 + i)).result = .ok n) →
          ∀ i < m + 1, ∃ n, (answers (k + i)).result = .ok n := by
        intro m hm i hi
        cases i with
        | zero => exact ⟨n, hk⟩
        | succ i =>
          rw [show k + (i + 1) = k + 1 + i by omega]
          exact hm i (by omega)
      rcases @ih (k + 1) (s.execute sql (answers k)) with ⟨heq, hall⟩ | ⟨ran, e, heq, hlt, he, hall⟩
      · refine Or.inl ⟨?_, hshift _ hall⟩
        simp only [heq, List.length_cons]
      · refine Or.inr ⟨ran + 1, e, ?_, by simpa using hlt, ?_, hshift _ hall⟩
        · simp only [heq]
        · rwa [show k + (ran + 1) = k + 1 + ran by omega]

end Loop

/-! ## One step -/

section Step

variable {engine : Engine} {s t : Session}

theorem afterRollback_eq (s : Session) : s.afterRollback = s.tx.durable ++ s.landed := rfl

theorem execute_covered_iff {statements : List Bytes} {answers : Nat → Answer}
    (h : Covered engine s) : Covered engine (execute s statements answers) ↔
      ((∀ k < statements.length, ∃ n, (answers k).result = .ok n) ∨
          ∃ e, (answers 0).result = .error e) ∧
        ∀ x ∈ (through answers 0 statements s.tx).durable, ¬engine.changes x := by
  have htx : (execute s statements answers).tx = through answers 0 statements s.tx :=
    executeLoop_tx
  have hundone : (∀ sql ∈ (execute s statements answers).afterRollback, ¬engine.changes sql) ↔
      ∀ x ∈ (through answers 0 statements s.tx).durable, ¬engine.changes x := by
    rw [afterRollback_eq, htx]
    constructor
    · exact fun hall x hx => hall x (List.mem_append_left _ hx)
    · intro hall x hx
      rcases List.mem_append.mp hx with hx | hx
      · exact hall x hx
      · exact h.undone x (List.mem_append_right _ hx)
  have hcounted : (execute s statements answers).txWrites = (execute s statements answers).executed ↔
      (∀ k < statements.length, ∃ n, (answers k).result = .ok n) ∨
        ∃ e, (answers 0).result = .error e := by
    have hsame := h.counted
    unfold execute
    rcases @executeLoop_cases answers 0 statements s.tx with ⟨heq, hall⟩ | ⟨ran, e, heq, hlt, he, hall⟩
    · simp only [heq]
      simp only [Nat.zero_add] at hall
      exact iff_of_true (by omega) (Or.inl hall)
    simp only [heq]
    simp only [Nat.zero_add] at he hall
    constructor
    · intro hran
      obtain rfl : ran = 0 := by omega
      exact Or.inr ⟨e, he⟩
    · rintro (hok | ⟨e', he'⟩)
      · obtain ⟨n, hn⟩ := hok ran hlt
        rw [he] at hn
        cases hn
      · by_contra hne
        obtain ⟨n, hn⟩ := hall 0 (by omega)
        rw [he'] at hn
        cases hn
  constructor
  · exact fun hc => ⟨hcounted.mp hc.counted, hundone.mp hc.undone⟩
  · exact fun hk => ⟨h.inside, hundone.mpr hk.2, hcounted.mpr hk.1⟩

/-- Statements that run beside the transaction. -/
theorem beside_covered_iff (t : Session) (sent landed : List Bytes) (h : Covered engine s)
    (ht : t.tx = s.tx ∧ t.txWrites = s.txWrites ∧ t.executed = s.executed)
    (hpooled : t.pooled = s.pooled ++ sent) (hlanded : t.landed = s.landed ++ landed)
    (hsub : ∀ sql ∈ landed, sql ∈ sent) : Covered engine t ↔ ∀ sql ∈ sent, ¬engine.changes sql := by
  obtain ⟨htx, hwrites, hexecuted⟩ := ht
  constructor
  · intro hc sql hmem
    exact hc.inside sql (hpooled ▸ List.mem_append_right _ hmem)
  · intro hall
    refine ⟨?_, ?_, by rw [hwrites, hexecuted, h.counted]⟩
    · intro sql hmem
      rw [hpooled] at hmem
      rcases List.mem_append.mp hmem with hmem | hmem
      · exact h.inside sql hmem
      · exact hall sql hmem
    · intro sql hmem
      rw [afterRollback_eq, htx, hlanded, ← List.append_assoc] at hmem
      rcases List.mem_append.mp hmem with hmem | hmem
      · exact h.undone sql hmem
      · exact hall sql (hsub sql hmem)

theorem scriptStep_covered_iff {n : Nat} {sql : Bytes} {rest : List Bytes} {stop : ScriptStop}
    {answer : ScriptAnswer} (h : Covered engine s) :
    Covered engine (scriptStep s n sql rest stop answer) ↔
      (answer.sends = true → ¬engine.changes sql) := by
  cases hsends : answer.sends with
  | false =>
    have hok : answer ≠ .ok := by
      rintro rfl
      cases hsends
    refine (beside_covered_iff (scriptStep s n sql rest stop answer) [] [] h
      ⟨rfl, rfl, rfl⟩ ?_ ?_ ?_).trans ?_
    all_goals simp [scriptStep, hsends, hok]
  | true =>
    by_cases hok : answer = .ok
    · subst hok
      refine (beside_covered_iff (scriptStep s n sql rest stop .ok) [sql] [sql] h
        ⟨rfl, rfl, rfl⟩ ?_ ?_ ?_).trans ?_
      all_goals simp [scriptStep, ScriptAnswer.sends]
    · refine (beside_covered_iff (scriptStep s n sql rest stop answer) [sql] [] h
        ⟨rfl, rfl, rfl⟩ ?_ ?_ ?_).trans ?_
      all_goals simp [scriptStep, hsends, hok]

theorem editsRun_covered_iff {n : Nat} {ops : List EditOp} {answer : EditsAnswer}
    (h : Covered engine s) : Covered engine (editsRun engine s n ops answer) ↔
      ∀ op ∈ answer.sent ops, ¬engine.changes (engine.editSql op) := by
  refine (beside_covered_iff (editsRun engine s n ops answer) _ _ h ⟨rfl, rfl, rfl⟩ rfl rfl
    ?_).trans List.forall_mem_map
  intro sql hmem
  cases answer with
  | committed => exact hmem
  | rolledBack sent => cases hmem

/-- **The steps that keep the promise.** -/
theorem covered_step_iff {a : Action} (h : Covered engine s) (hstep : step engine s a = some t) :
    Covered engine t ↔ Keeps engine s a := by
  cases a with
  | execute sql answers =>
    obtain rfl := Option.some.inj hstep
    exact execute_covered_iff h
  | runScript statements stop | applyBatch ops mode =>
    obtain rfl := Option.some.inj hstep
    exact iff_of_true ⟨h.inside, h.undone, h.counted⟩ trivial
  | scriptStep n answer =>
    simp only [step] at hstep
    split at hstep
    · rename_i sql rest stop htask
      obtain rfl := Option.some.inj hstep
      rw [scriptStep_covered_iff h]
      constructor
      · rintro hk sql' rest' stop' htask'
        obtain ⟨⟨rfl, rfl⟩, rfl⟩ := by simpa using htask.symm.trans htask'
        exact hk
      · exact fun hk => hk sql rest stop htask
    · cases hstep
  | editsRun n answer =>
    simp only [step] at hstep
    split at hstep
    · rename_i ops htask
      obtain rfl := Option.some.inj hstep
      rw [editsRun_covered_iff h]
      constructor
      · intro hk ops' htask'
        obtain rfl : ops = ops' := Task.edits.inj (Option.some.inj (htask.symm.trans htask'))
        exact hk
      · exact fun hk => hk ops htask
    · cases hstep

theorem keeps_of_idle {a : Action} (h : step engine s a = none) : Keeps engine s a := by
  cases a with
  | execute sql answers => cases h
  | runScript statements stop => trivial
  | applyBatch ops mode => trivial
  | scriptStep n answer =>
    intro sql rest stop htask
    simp only [step, htask] at h
    cases h
  | editsRun n answer =>
    intro ops htask
    simp only [step, htask] at h
    cases h

end Step

/-- **Manual mode covers every write of a run exactly when** its scripts and grid edits
send no statement that can change data, none of its `Execute`s fails after its first
statement, and no statement of them makes a change durable by ending the transaction. -/
theorem covered_iff (engine : Engine) (acts : List Action) :
    Machine.Always (step engine) (Covered engine) begun acts ↔
      Machine.Meets (step engine) (Keeps engine) begun acts :=
  Machine.always_iff (fun _ _ _ h hstep => covered_step_iff h hstep)
    (fun _ _ h => keeps_of_idle h)
    ⟨fun _ h => (by cases h), fun _ h => (by cases h), rfl⟩

/-- Postgres, where a data statement changes data and nothing else does. -/
def postgres : Engine where
  dialect := .postgres
  editSql op := (Driver.editSql pgQuote pgPlaceholder op).1
  changes sql := [ascii "INSERT", ascii "UPDATE", ascii "DELETE"].any (·.isPrefixOf sql) = true

/-- A grid edit that is staged and applied while the transaction is open. -/
def gridEdit : List EditOp :=
  [.update ⟨none, ascii "t"⟩ [⟨ascii "id", .integer 1, none⟩] [⟨ascii "name", .text (ascii "x"), none⟩]]

def editBeside : List Action := [.applyBatch gridEdit .atomic, .editsRun 0 .committed]

/-- Two statements of which the second fails. -/
def halfExecute : List Action :=
  [.execute (ascii "DELETE FROM t; DELETE FROM u") fun k =>
    if k = 0 then ⟨.joins, .ok 1⟩ else ⟨.joins, .error (.query "relation \"u\" does not exist")⟩]

/-- **The grid edit is durable after a rollback**, and the `Execute` that failed
halfway has executed a statement that the count does not tell. -/
theorem editBeside_lands : (∃ s, Machine.run (step postgres) begun editBeside = some s ∧
        ∃ sql ∈ s.afterRollback, postgres.changes sql) ∧
      (∃ s, Machine.run (step postgres) begun halfExecute = some s ∧
        s.executed = 1 ∧ s.txWrites = 0) ∧
      ¬Machine.Always (step postgres) (Covered postgres) begun editBeside ∧
      ¬Machine.Always (step postgres) (Covered postgres) begun halfExecute := by
  have hedit : ∃ s, Machine.run (step postgres) begun editBeside = some s ∧
      ∃ sql ∈ s.afterRollback, postgres.changes sql :=
    ⟨_, rfl, _, List.mem_singleton_self _, rfl⟩
  have hhalf : ∃ s, Machine.run (step postgres) begun halfExecute = some s ∧
      s.executed = 1 ∧ s.txWrites = 0 := ⟨_, rfl, rfl, rfl⟩
  refine ⟨hedit, hhalf, fun h => ?_, fun h => ?_⟩
  · obtain ⟨s, hs, sql, hmem, hchanges⟩ := hedit
    exact (Machine.always_run h hs).undone sql hmem hchanges
  · obtain ⟨s, hs, hexecuted, hwrites⟩ := hhalf
    have hcounted := (Machine.always_run h hs).counted
    rw [hexecuted, hwrites] at hcounted
    cases hcounted

end RedDb.Service.ManualTx
