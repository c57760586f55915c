import RedDb.Ai.Cursors
import RedDb.Ai.Gate

/-!
# RedDb — what the agent reads while its changes are under review

While a review transaction is open the agent's statements run in it, and what it reads is
promised to be what they have made of the database. `run_select` has the driver open a
cursor, on a connection of its own, and `fetch_more` goes on with the cursor it is given.

* `Right` — a read shows what the transaction sees;
* `Unwritten` — no statement of the transaction has run before it;
* `marked_step` — a database that tells the transaction from what is committed;
* `reads_inside_iff` — the promise is kept exactly for the turns that read first.
-/

namespace RedDb.Ai.ReviewReads

open ByteText RedDb.Sql Review

/-! ## The database and the turn -/

/-- What a query and a statement make of a state of the database: an error is none, and leaves
nothing behind. `render` is a row as a line. -/
structure Engine (Db Row : Type) where
  select : Db → Bytes → Option (List Bytes × List Row)
  execute : Db → Bytes → Option Db
  render : Row → Bytes

structure AiLimits where
  maxRows : Nat
  maxResultBytes : Nat

/-- What a turn in review-transaction mode goes by. -/
structure Turn where
  conversation : ConversationId
  dialect : Dialect
  policy : AiPolicy
  limits : AiLimits

/-! ## A window -/

def fillChunkMax : Nat := 100

def fillChunkProbe : Nat := 10

def rowsPerCursorFactor : Nat := 100

/-- What one window read produced. -/
structure Window (Row : Type) where
  text : Bytes
  rows : List Row
  exhausted : Bool
  hitRowCap : Bool

/-- A window, and where it leaves its cursor. -/
structure Fill (Row : Type) where
  window : Window Row
  cursor : List Row
  rowsRead : Nat

/-- Nine tenths of the budget; `0` is none. -/
def softCap (maxBytes : Nat) : Option Nat :=
  if maxBytes = 0 then none else some (maxBytes - maxBytes / 10)

/-- The size of the next pull, from what a row has cost so far. -/
def nextChunk (cap : Option Nat) (w : Window Row) : Nat :=
  match cap with
  | none => fillChunkMax
  | some cap => min (max ((cap - w.text.length) / max (w.text.length / w.rows.length) 1) 1) fillChunkMax

section Fill

variable {Db Row : Type} (e : Engine Db Row)

/-- One pull: `next_window`, which is exhausted when it yields less than was asked for. -/
def Fill.pull (f : Fill Row) (want : Nat) : Fill Row where
  window :=
    { text := (f.cursor.take want).foldl (fun text row => text ++ e.render row ++ [newline]) f.window.text
      rows := f.window.rows ++ f.cursor.take want
      exhausted := decide (f.cursor.length < want)
      hitRowCap := f.window.hitRowCap }
  cursor := f.cursor.drop want
  rowsRead := f.rowsRead + (f.cursor.take want).length

/-- The loop of `fill_window`. A pull that does not end it takes a row at least, and there is room
for `fuel` of them. -/
def fillRounds (maxRows rowCap : Nat) (cap : Option Nat) : Nat → Nat → Fill Row → Fill Row
  | 0, _, f => f
  | fuel + 1, chunk, f =>
    if maxRows ≤ f.window.rows.length then f
    else if rowCap ≤ f.rowsRead then { f with window := { f.window with hitRowCap := true } }
    else
      let f := f.pull e (min (min (max chunk 1) (maxRows - f.window.rows.length)) (rowCap - f.rowsRead))
      if f.window.exhausted || cap.any fun cap => decide (cap ≤ f.window.text.length) then f
      else fillRounds maxRows rowCap cap fuel (nextChunk cap f.window) f

/-- The columns of a result, as its first line. -/
def header (columns : List Bytes) : Bytes := List.intercalate (ascii " | ") columns ++ [newline]

/-- Fill one window, bounded by rows and bytes. -/
def fillWindow (limits : AiLimits) (entry : AgentCursor Row) (limit : Nat) : Fill Row :=
  fillRounds e (max limit 1) (max limits.maxRows 1 * rowsPerCursorFactor) (softCap limits.maxResultBytes)
    (max limit 1) fillChunkProbe
    { window := { text := header entry.columns, rows := [], exhausted := false, hitRowCap := false }
      cursor := entry.cursor
      rowsRead := entry.rowsRead }

end Fill

/-! ## The calls -/

/-- The service, as far as the turn's tools see it: what is committed, the open transaction, the
statements that have run in it, and the cursors. -/
structure State (Db Row : Type) where
  committed : Db
  tx : Option Db
  ran : List Bytes
  registry : CursorRegistry Row
  now : Nat

/-- At the start of the conversation. -/
def State.init {Db Row : Type} (db : Db) : State Db Row := ⟨db, none, [], .init, 0⟩

/-- A tool call of the turn, and what else goes on with its cursors. `ok` is false of a read that
times out or is refused by the server on the way. -/
inductive Call where
  | runSelect (input : Json) (ok : Bool)
  | fetchMore (input : Json) (ok : Bool)
  /-- A call of another tool; `opens` says whether a transaction could be begun for it. -/
  | write (name : String) (input : Json) (opens : Bool)
  /-- A cursor is evicted for one of another conversation, reaped or cancelled. -/
  | closed (id : CursorId)
  | pass (millis : Nat)

/-- `as_u64`. -/
def asU64 : Json → Option Nat
  | .num n => if 0 ≤ n then some n.toNat else none
  | _ => none

/-- The rows asked for, clamped to the cap. -/
def limitOf (limits : AiLimits) (input : Json) : Nat :=
  min (max ((((input.get "limit").bind asU64)).getD (max limits.maxRows 1)) 1) (max limits.maxRows 1)

def textField (key : String) (input : Json) : Bytes :=
  trim (((input.get key).bind Json.asStr).getD [])

section Calls

variable {Db Row : Type} (t : Turn) (e : Engine Db Row)

/-- The cursor of a query on a state of the database, at its beginning. -/
def openedOn (db : Db) (now : Nat) (sql : Bytes) : Option (AgentCursor Row) :=
  (e.select db sql).map fun result => ⟨t.conversation, result.2, result.1, 0, now, sql⟩

/-- The cursor a call reads from: a query goes to the driver. -/
def reading (s : State Db Row) : Call → Option (AgentCursor Row)
  | .runSelect input ok =>
    let sql := textField "sql" input
    if ok && isReadOnlySelect sql t.dialect then openedOn t e s.committed s.now sql else none
  | .fetchMore input ok =>
    if ok then (s.registry.take (textField "cursor" input)).map Prod.fst else none
  | _ => none

/-- The rows a call asks for. -/
def asked : Call → Nat
  | .runSelect input _ | .fetchMore input _ => limitOf t.limits input
  | _ => 0

/-- The window a read answers with. -/
def reply (s : State Db Row) (call : Call) : Option (Window Row) :=
  (reading t e s call).map fun entry => (fillWindow e t.limits entry (asked t call)).window

/-- `continuation`: a result that is not at its end gets a handle, and its rows counted on. -/
def keepOpen (r : CursorRegistry Row) (now : Nat) (entry : AgentCursor Row) : CursorRegistry Row :=
  let opened := r.openCursor now entry.conversation entry.cursor entry.columns entry.sql
  match opened.1.take opened.2 with
  | some (e, r) => r.putBack now opened.2 { e with rowsRead := entry.rowsRead }
  | none => opened.1

/-- Where a window leaves its cursor. -/
def AgentCursor.moved (entry : AgentCursor Row) (f : Fill Row) : AgentCursor Row :=
  { entry with cursor := f.cursor, rowsRead := f.rowsRead }

def Window.more (w : Window Row) : Bool := !w.exhausted && !w.hitRowCap

/-- The registry behind a `run_select`. -/
def afterSelect (s : State Db Row) (call : Call) : CursorRegistry Row :=
  match reading t e s call with
  | none => s.registry
  | some entry =>
    let f := fillWindow e t.limits entry (asked t call)
    if f.window.more then keepOpen s.registry s.now (AgentCursor.moved entry f) else s.registry

/-- The registry behind a `fetch_more`: what fails or is at its end is not put back. -/
def afterFetch (s : State Db Row) (input : Json) (ok : Bool) : CursorRegistry Row :=
  let handle := textField "cursor" input
  match s.registry.take handle with
  | none => s.registry
  | some (entry, r) =>
    let f := fillWindow e t.limits entry (limitOf t.limits input)
    if ok && f.window.more then r.putBack s.now handle (AgentCursor.moved entry f) else r

/-- The statements of a write that run in the transaction: those of the two `propose_` tools. -/
def statementsOf (name : String) (input : Json) : List Bytes :=
  if name == "propose_write" then [proposedSql input]
  else if name == "propose_changeset" then changesetStatements input
  else []

/-- The statements run until one fails. -/
def runStatements : Db × List Bytes → List Bytes → Db × List Bytes
  | at', [] => at'
  | at', stmt :: rest =>
    match e.execute at'.1 stmt with
    | some db => runStatements (db, at'.2 ++ [stmt]) rest
    | none => at'

/-- The transaction of the turn, begun if there is none yet. -/
def beganTx (s : State Db Row) (opens : Bool) : Option (Db × List Bytes) :=
  match s.tx with
  | some db => some (db, s.ran)
  | none => if opens then some (s.committed, []) else none

/-- A write the gate lets through runs in the transaction. -/
def afterWrite (s : State Db Row) (name : String) (input : Json) (opens : Bool) : State Db Row :=
  match assessWrite (fun _ _ => .notWrite) (fun _ _ => .notWrite) name input t.policy t.dialect with
  | .needsApproval _ =>
    match beganTx s opens with
    | some began =>
      let ran := runStatements e began (statementsOf name input)
      { s with tx := some ran.1, ran := ran.2 }
    | none => s
  | _ => s

def step (s : State Db Row) : Call → Option (State Db Row)
  | .runSelect input ok => some { s with registry := afterSelect t e s (.runSelect input ok) }
  | .fetchMore input ok => some { s with registry := afterFetch t e s input ok }
  | .write name input opens => some (afterWrite t e s name input opens)
  | .closed id => some { s with registry := s.registry.close id }
  | .pass millis => some { s with now := s.now + millis }

/-! ## The promise -/

/-- The cursor as the transaction would have it: its query on the state `db`, as far as it has
been read. -/
def onState (db : Db) (entry : AgentCursor Row) : Option (AgentCursor Row) :=
  (e.select db entry.sql).map fun result =>
    { entry with cursor := result.2.drop entry.rowsRead, columns := result.1 }

/-- The window the transaction would show: its query on the transaction's own state. -/
def inside (s : State Db Row) (call : Call) : Option (Window Row) :=
  match s.tx, call with
  | some db, .runSelect input _ => (openedOn t e db s.now (textField "sql" input)).map fun entry =>
      (fillWindow e t.limits entry (asked t call)).window
  | some db, _ => ((reading t e s call).bind (onState e db)).map fun entry =>
      (fillWindow e t.limits entry (asked t call)).window
  | none, _ => none

/-- **The promise** of a read: what it returns while a transaction is open is what the transaction
sees. -/
def Right (s : State Db Row) (call : Call) : Prop :=
  s.tx.isSome = true → ∀ w, reply t e s call = some w → inside t e s call = some w

/-- A read that is answered comes before the first statement of the transaction. -/
def Unwritten (s : State Db Row) (call : Call) : Prop :=
  s.tx.isSome = true → (reply t e s call).isSome = true → s.ran = []

end Calls

/-! ## Cursors on what is committed -/

section Reads

variable {Db Row : Type} {t : Turn} {e : Engine Db Row} {s s' : State Db Row} {db : Db} {call : Call}
  {entry : AgentCursor Row} {id : CursorId} {p : CursorId × AgentCursor Row} {r : CursorRegistry Row} {now : Nat}

/-- A cursor that is on the state `db`, as far as it has been read. -/
def On (e : Engine Db Row) (db : Db) (entry : AgentCursor Row) : Prop :=
  ∃ rows, e.select db entry.sql = some (entry.columns, rows) ∧ entry.cursor = rows.drop entry.rowsRead

theorem onState_of_on (h : On e db entry) : onState e db entry = some entry := by
  obtain ⟨rows, hselect, hcursor⟩ := h
  rw [onState, hselect, Option.map_some, ← hcursor]

theorem openedOn_on {sql : Bytes} (h : openedOn t e db now sql = some entry) : On e db entry := by
  obtain ⟨result, hselect, rfl⟩ := Option.map_eq_some_iff.mp h
  exact ⟨result.2, hselect, rfl⟩

/-- What a fill keeps: its cursor is what is left of the rows. -/
theorem fillRounds_on {rows : List Row} {maxRows rowCap : Nat} {cap : Option Nat} (fuel : Nat)
    (chunk : Nat) (f : Fill Row) (h : f.cursor = rows.drop f.rowsRead) :
    (fillRounds e maxRows rowCap cap fuel chunk f).cursor =
      rows.drop (fillRounds e maxRows rowCap cap fuel chunk f).rowsRead := by
  induction fuel generalizing chunk f with
  | zero => exact h
  | succ fuel ih =>
    have hpull : ∀ want, (f.pull e want).cursor = rows.drop (f.pull e want).rowsRead := by
      intro want
      show f.cursor.drop want = rows.drop (f.rowsRead + (f.cursor.take want).length)
      rw [List.length_take, ← List.drop_drop, ← h]
      rcases Nat.le_total want f.cursor.length with hle | hle
      · rw [min_eq_left hle]
      · rw [min_eq_right hle, List.drop_eq_nil_of_le hle, List.drop_length]
    rw [fillRounds]
    split
    · exact h
    split
    · exact h
    dsimp only
    split
    · exact hpull _
    · exact ih _ _ (hpull _)

theorem moved_on {limits : AiLimits} {limit : Nat} (h : On e db entry) :
    On e db (AgentCursor.moved entry (fillWindow e limits entry limit)) := by
  obtain ⟨rows, hselect, hcursor⟩ := h
  exact ⟨rows, hselect, fillRounds_on _ _ _ hcursor⟩

theorem mem_insert (h : p ∈ (r.insert id entry).opened) : p ∈ r.opened ∨ p = (id, entry) := by
  rcases List.mem_append.mp h with h | h
  · exact Or.inl (List.mem_filter.mp h).1
  · exact Or.inr (List.mem_singleton.mp h)

theorem take_insert (r : CursorRegistry Row) (id : CursorId) (entry : AgentCursor Row) :
    (r.insert id entry).take id = some (entry, (r.insert id entry).close id) := by
  have hnone : (r.opened.filter fun p => p.1 != id).find? (fun p => p.1 == id) = none :=
    List.find?_eq_none.mpr fun p hp heq =>
      bne_iff_ne.mp (List.mem_filter.mp hp).2 (beq_iff_eq.mp heq)
  show ((List.find? _ (_ ++ [(id, entry)])).map _) = _
  rw [List.find?_append, hnone, Option.none_or, List.find?_singleton, if_pos (beq_self_eq_true id)]
  rfl

theorem take_mem {r' : CursorRegistry Row}
    (h : r.take id = some (entry, r')) : (id, entry) ∈ r.opened ∧ r' = r.close id := by
  obtain ⟨p, hp, heq⟩ := Option.map_eq_some_iff.mp h
  obtain ⟨hentry, hr⟩ := Prod.ext_iff.mp heq
  have hid : p.1 = id := by
    have hfound := List.find?_some hp
    exact beq_iff_eq.mp hfound
  have hmem := List.mem_of_find?_eq_some hp
  obtain ⟨pid, pentry⟩ := p
  obtain rfl : pid = id := hid
  obtain rfl : pentry = entry := hentry
  exact ⟨hmem, hr.symm⟩

/-- The cursors of a registry, and one put back into it. -/
theorem mem_putBack (h : p ∈ (r.putBack now id entry).opened) :
    p ∈ r.opened ∨ p.2 = { entry with lastUsed := now } :=
  (mem_insert h).imp_right fun h => congrArg Prod.snd h

theorem mem_keepOpen (h : p ∈ (keepOpen r now entry).opened) :
    p ∈ r.opened ∨ p.2 = { entry with lastUsed := now } := by
  rw [keepOpen, CursorRegistry.openCursor] at h
  dsimp only at h
  rw [take_insert] at h
  refine (mem_putBack h).imp_left fun h => ?_
  obtain ⟨h, hne⟩ := CursorRegistry.mem_close.mp h
  rcases mem_insert h with h | rfl
  · exact (r.evictFor_sublist entry.conversation).1.subset h
  · exact absurd rfl hne

/-! ## Turns that read first -/

/-- Every cursor is on what is committed, and so is a transaction in which nothing has run. -/
structure Inv (e : Engine Db Row) (s : State Db Row) : Prop where
  view : ∀ v, s.tx = some v → s.ran = [] → v = s.committed
  cursors : ∀ p ∈ s.registry.opened, On e s.committed p.2

theorem Inv.init (db : Db) : Inv e (State.init db) :=
  ⟨fun v hv => (by cases hv), nofun⟩

theorem Inv.reading (h : Inv e s)
    (hreading : reading t e s call = some entry) : On e s.committed entry := by
  cases call with
  | runSelect input ok =>
    obtain ⟨-, hopened⟩ := Option.ite_none_right_eq_some.mp hreading
    exact openedOn_on hopened
  | fetchMore input ok =>
    obtain ⟨-, htaken⟩ := Option.ite_none_right_eq_some.mp hreading
    obtain ⟨taken, htake, rfl⟩ := Option.map_eq_some_iff.mp htaken
    exact h.cursors _ (take_mem htake).1
  | write | closed | pass => cases hreading

/-- Statements that leave no trace have not run. -/
theorem runStatements_of_nil {began : Db × List Bytes} {stmts : List Bytes}
    (h : (runStatements e began stmts).2 = []) : runStatements e began stmts = began := by
  induction stmts generalizing began with
  | nil => rfl
  | cons stmt stmts ih =>
    rw [runStatements] at h ⊢
    split at h
    · have hran := congrArg Prod.snd (ih h)
      rw [h] at hran
      exact absurd hran.symm (List.append_ne_nil_of_right_ne_nil _ (List.cons_ne_nil _ _))
    · rfl

theorem Inv.afterWrite (h : Inv e s) (name : String) (input : Json) (opens : Bool) :
    Inv e (afterWrite t e s name input opens) := by
  rw [ReviewReads.afterWrite]
  split
  · cases hbegan : beganTx s opens with
    | none => exact h
    | some began =>
      refine ⟨fun v hv hran => ?_, h.cursors⟩
      cases hv
      have hsame := runStatements_of_nil (show (runStatements e began _).2 = [] from hran)
      change (runStatements e began (statementsOf name input)).2 = [] at hran
      rw [hsame] at hran
      show (runStatements e began _).1 = s.committed
      rw [hsame]
      cases htx : s.tx with
      | none =>
        rw [beganTx, htx] at hbegan
        obtain ⟨-, hbegan⟩ := Option.ite_none_right_eq_some.mp hbegan
        rw [← Option.some.inj hbegan]
      | some v =>
        rw [beganTx, htx] at hbegan
        rw [← Option.some.inj hbegan] at hran ⊢
        exact h.view v htx hran
  · exact h

theorem Inv.step {call : Call} (h : Inv e s) (hstep : step t e s call = some s') : Inv e s' := by
  cases call with
  | runSelect input ok =>
    cases hstep
    refine ⟨h.view, fun p hp => ?_⟩
    change p ∈ (afterSelect t e s (.runSelect input ok)).opened at hp
    rw [afterSelect] at hp
    split at hp
    · exact h.cursors p hp
    rename_i entry hreading
    dsimp only at hp
    split at hp
    · rcases mem_keepOpen hp with hp | hp
      · exact h.cursors p hp
      · rw [hp]
        exact moved_on (h.reading hreading)
    · exact h.cursors p hp
  | fetchMore input ok =>
    cases hstep
    refine ⟨h.view, fun p hp => ?_⟩
    change p ∈ (afterFetch t e s input ok).opened at hp
    rw [afterFetch] at hp
    dsimp only at hp
    split at hp
    · exact h.cursors p hp
    rename_i entry r htake
    obtain ⟨hmem, rfl⟩ := take_mem htake
    split at hp
    · rcases mem_putBack hp with hp | hp
      · exact h.cursors p (CursorRegistry.mem_close.mp hp).1
      · rw [hp]
        exact moved_on (h.cursors _ hmem)
    · exact h.cursors p (CursorRegistry.mem_close.mp hp).1
  | write name input opens =>
    cases hstep
    exact h.afterWrite name input opens
  | closed id =>
    cases hstep
    exact ⟨h.view, fun p hp => h.cursors p (CursorRegistry.mem_close.mp hp).1⟩
  | pass millis =>
    cases hstep
    exact ⟨h.view, h.cursors⟩

theorem Inv.right (h : Inv e s) (hread : Unwritten t e s call) : Right t e s call := by
  intro htx w hw
  obtain ⟨v, hv⟩ := Option.isSome_iff_exists.mp htx
  obtain rfl := h.view v hv (hread htx (Option.isSome_iff_exists.mpr ⟨w, hw⟩))
  obtain ⟨entry, hreading, rfl⟩ := Option.map_eq_some_iff.mp hw
  cases call with
  | runSelect input ok =>
    obtain ⟨-, hopened⟩ := Option.ite_none_right_eq_some.mp hreading
    unfold inside
    rw [hv]
    dsimp only
    rw [hopened, Option.map_some]
  | fetchMore input ok =>
    unfold inside
    rw [hv]
    dsimp only
    rw [hreading, Option.bind_some, onState_of_on (h.reading hreading), Option.map_some]
  | write | closed | pass => cases hreading

theorem right_of_unwritten {calls : List Call} (h : Inv e s)
    (hmeets : Machine.Meets (step t e) (Unwritten t e) s calls) :
    Machine.Meets (step t e) (Right t e) s calls := by
  induction calls generalizing s with
  | nil => trivial
  | cons call calls ih => exact ⟨h.right hmeets.1, fun s' hs => ih (h.step hs) (hmeets.2 s' hs)⟩

end Reads

/-! ## A database that tells -/

section Marked

variable {Db Row : Type} {t : Turn} {e : Engine Db Row} {s : State Db Row}

/-- The database with a mark that any statement takes away; a query needs it. -/
def marked (e : Engine Db Row) : Engine (Db × Bool) Row where
  select db sql := if db.2 then e.select db.1 sql else none
  execute db stmt := (e.execute db.1 stmt).map fun db => (db, false)
  render := e.render

/-- What is committed is marked, and the transaction as long as nothing has run in it. -/
def lift (s : State Db Row) : State (Db × Bool) Row where
  committed := (s.committed, true)
  tx := s.tx.map fun db => (db, s.ran.isEmpty)
  ran := s.ran
  registry := s.registry
  now := s.now

theorem fillRounds_marked {maxRows rowCap : Nat} {cap : Option Nat} (fuel chunk : Nat)
    (f : Fill Row) :
    fillRounds (marked e) maxRows rowCap cap fuel chunk f = fillRounds e maxRows rowCap cap fuel chunk f := by
  induction fuel generalizing chunk f with
  | zero => rfl
  | succ fuel ih =>
    rw [fillRounds, fillRounds]
    dsimp only
    rw [ih]
    rfl

theorem fillWindow_marked (limits : AiLimits) (entry : AgentCursor Row) (limit : Nat) :
    fillWindow (marked e) limits entry limit = fillWindow e limits entry limit :=
  fillRounds_marked _ _ _

theorem reading_marked (call : Call) : reading t (marked e) (lift s) call = reading t e s call := by
  cases call <;> rfl

theorem reply_marked (call : Call) : reply t (marked e) (lift s) call = reply t e s call := by
  rw [reply, reply, reading_marked]
  simp only [fillWindow_marked]

theorem runStatements_marked (db : Db) (ran stmts : List Bytes) :
    runStatements (marked e) ((db, ran.isEmpty), ran) stmts =
      (((runStatements e (db, ran) stmts).1, (runStatements e (db, ran) stmts).2.isEmpty),
        (runStatements e (db, ran) stmts).2) := by
  induction stmts generalizing db ran with
  | nil => rfl
  | cons stmt stmts ih =>
    rw [runStatements, runStatements]
    cases hrun : e.execute db stmt with
    | none => simp only [marked, hrun, Option.map_none]
    | some next =>
      have hmark : (ran ++ [stmt]).isEmpty = false :=
        List.isEmpty_eq_false_iff.mpr (List.append_ne_nil_of_right_ne_nil _ (List.cons_ne_nil _ _))
      have hnext := ih next (ran ++ [stmt])
      rw [hmark] at hnext
      simp only [marked, hrun, Option.map_some] at hnext ⊢
      exact hnext

theorem beganTx_marked (opens : Bool) :
    beganTx (lift s) opens = (beganTx s opens).map fun began => ((began.1, began.2.isEmpty), began.2) := by
  rw [beganTx, beganTx]
  cases htx : s.tx with
  | none =>
    rw [lift, htx]
    cases opens <;> rfl
  | some db =>
    rw [lift, htx]
    rfl

theorem afterWrite_marked (name : String) (input : Json) (opens : Bool) :
    afterWrite t (marked e) (lift s) name input opens = lift (afterWrite t e s name input opens) := by
  rw [afterWrite, afterWrite, beganTx_marked]
  split
  · cases beganTx s opens with
    | none => rfl
    | some began =>
      dsimp only [Option.map_some]
      rw [runStatements_marked]
      rfl
  · rfl

theorem marked_step (call : Call) :
    step t (marked e) (lift s) call = (step t e s call).map lift := by
  cases call with
  | runSelect input ok =>
    rw [step, step, afterSelect, afterSelect, reading_marked]
    simp only [fillWindow_marked]
    rfl
  | fetchMore input ok =>
    rw [step, step, afterFetch, afterFetch]
    simp only [fillWindow_marked]
    rfl
  | write name input opens =>
    rw [step, step, afterWrite_marked]
    rfl
  | closed id => rfl
  | pass millis => rfl

/-- Behind a statement of the transaction nothing can be read in it. -/
theorem unwritten_of_right (h : Right t (marked e) (lift s) call) : Unwritten t e s call := by
  intro htx hreply
  obtain ⟨db, hdb⟩ := Option.isSome_iff_exists.mp htx
  obtain ⟨w, hw⟩ := Option.isSome_iff_exists.mp hreply
  have hlift : (lift s).tx = some (db, s.ran.isEmpty) := by rw [lift, hdb, Option.map_some]
  have hinside := h (by rw [hlift]; rfl) w ((reply_marked call).trans hw)
  by_contra hran
  rw [List.isEmpty_eq_false_iff.mpr hran] at hlift
  obtain ⟨entry, hreading, -⟩ := Option.map_eq_some_iff.mp hw
  have hnone : inside t (marked e) (lift s) call = none := by
    unfold inside
    rw [hlift]
    cases call with
    | runSelect input ok => rfl
    | fetchMore input ok =>
      dsimp only
      rw [reading_marked, hreading]
      rfl
    | write | closed | pass => cases hreading
  rw [hnone] at hinside
  cases hinside

theorem unwritten_of_marked {calls : List Call}
    (h : Machine.Meets (step t (marked e)) (Right t (marked e)) (lift s) calls) :
    Machine.Meets (step t e) (Unwritten t e) s calls := by
  induction calls generalizing s with
  | nil => trivial
  | cons call calls ih =>
    refine ⟨unwritten_of_right h.1, fun s' hs => ih (h.2 (lift s') ?_)⟩
    rw [marked_step, hs, Option.map_some]

end Marked

/-- **Which turns read what their transaction sees.** -/
theorem reads_inside_iff (t : Turn) (calls : List Call) :
    (∀ (Db Row : Type) (e : Engine Db Row) (db : Db),
      Machine.Meets (step t e) (Unwritten t e) (State.init db) calls →
        Machine.Meets (step t e) (Right t e) (State.init db) calls) ∧
    ((∀ (Db Row : Type) (e : Engine Db Row) (db : Db),
        Machine.Meets (step t e) (Right t e) (State.init db) calls) ↔
      ∀ (Db Row : Type) (e : Engine Db Row) (db : Db),
        Machine.Meets (step t e) (Unwritten t e) (State.init db) calls) := by
  have henough : ∀ (Db Row : Type) (e : Engine Db Row) (db : Db),
      Machine.Meets (step t e) (Unwritten t e) (State.init db) calls →
        Machine.Meets (step t e) (Right t e) (State.init db) calls :=
    fun Db Row e db h => right_of_unwritten (Inv.init db) h
  refine ⟨henough, fun h Db Row e db => ?_, fun h Db Row e db => henough Db Row e db (h Db Row e db)⟩
  exact unwritten_of_marked (e := e) (h (Db × Bool) Row (marked e) (db, true))

/-- Two rows, each the number of statements that have run; only `insert into t values (1)` does. -/
def counter : Engine Nat Nat where
  select db _ := some ([], [db, db])
  execute db stmt := if stmt = ascii "insert into t values (1)" then some (db + 1) else none
  render row := decimal row

def counting : Turn where
  conversation := 0
  dialect := .sqlite
  policy := { tier := .write, readOnly := false }
  limits := { maxRows := 100, maxResultBytes := 0 }

def selectOne : Call :=
  .runSelect (.obj [("sql", .str (ascii "select n from t")), ("limit", .num 1)]) true

def fetchFirst : Call := .fetchMore (.obj [("cursor", .str (ascii "c1")), ("limit", .num 1)]) true

def propose (sql : Bytes) : Call := .write "propose_write" (.obj [("sql", .str sql)]) true

/-- An insert that fails opens the transaction, and what is read before the next one is right. -/
theorem failedInsert_inside :
    Machine.Meets (step counting counter) (Right counting counter) (State.init 0)
      [propose (ascii "insert into u values (1)"), selectOne, fetchFirst,
        propose (ascii "insert into t values (1)")] := by
  refine (reads_inside_iff counting _).1 Nat Nat counter 0 ⟨fun h => (by cases h), ?_⟩
  rintro _ ⟨⟩
  refine ⟨fun _ _ => by decide, ?_⟩
  rintro _ ⟨⟩
  refine ⟨fun _ _ => by decide, ?_⟩
  rintro _ ⟨⟩
  exact ⟨fun _ hreply => (by cases hreply), fun _ _ => trivial⟩

/-- Behind an insert both the query and the cursor still show the row as it was before it. -/
theorem insert_not_inside :
    ¬ Machine.Meets (step counting counter) (Right counting counter) (State.init 0)
        [propose (ascii "insert into t values (1)"), selectOne] ∧
      ¬ Machine.Meets (step counting counter) (Right counting counter) (State.init 0)
        [selectOne, propose (ascii "insert into t values (1)"), fetchFirst] := by
  have hlater : ∀ {s : State Nat Nat} {call : Call}, s.tx.isSome = true →
      (reply counting counter s call).map Window.rows = some [0] →
      (inside counting counter s call).map Window.rows = some [1] → ¬ Right counting counter s call := by
    intro s call htx hreply hinside h
    obtain ⟨w, hw, hrows⟩ := Option.map_eq_some_iff.mp hreply
    rw [h htx w hw, Option.map_some, hrows] at hinside
    cases hinside
  constructor
  · rintro ⟨-, h⟩
    exact hlater rfl (by decide) (by decide) (h _ rfl).1
  · rintro ⟨-, h⟩
    obtain ⟨-, h⟩ := h _ rfl
    exact hlater rfl (by decide) (by decide) (h _ rfl).1

end RedDb.Ai.ReviewReads
