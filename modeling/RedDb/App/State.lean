import RedDb.Ai.Gate
import RedDb.Grid.Staging
import RedDb.Panes.Tree
import RedDb.Service.ManualTx
import RedDb.Transfer.Plan

/-!
# RedDb — the state of the window

The window shows one connection, the foreground one, and keeps others parked warm. Every
command carries the session it is for, and every event the session it is from. A write that
has to be confirmed waits beside all that, stamped with the session it was asked on.

* `connFor_modifyConn` — a connection is changed where it lives, and no other is.
-/

namespace RedDb.App

open ByteText Driver Grid Panes Schema Sql Transfer
open RedDb.Ai (KillMode)
open RedDb.Service.ManualTx (BatchMode ScriptStop)

abbrev SessionId := Nat

/-! ## Connections -/

/-- How one statement of a script ended. -/
inductive ScriptOutcome where
  | ok (affected : Nat)
  | rows
  | failed (error : Bytes)
  | skipped

structure ScriptStep where
  index : Nat
  summary : Bytes
  outcome : ScriptOutcome

structure ScriptSummary where
  ran : Nat
  failed : Nat

/-- The log of a script; it has no summary while the script runs. -/
structure ScriptRun where
  total : Nat
  steps : List ScriptStep
  summary : Option ScriptSummary

def ScriptRun.new (total : Nat) : ScriptRun := ⟨total, [], none⟩

structure ResultGrid where
  label : Bytes
  baseSql : Bytes
  table : Option (Bytes × Bytes)
  epoch : Nat

/-- A tab with the database its queries are bound to, and what its result pane shows: a plan,
a script log or a grid. -/
structure QueryTab where
  pane : PaneId
  ns : Option Bytes
  plan : Option Bytes
  script : Option ScriptRun
  result : Option ResultGrid

def QueryTab.new (pane : PaneId) : QueryTab := ⟨pane, none, none, none, none⟩

structure ConnectionConfig where
  kind : DbKind
  readOnly : Bool
  database : Bytes
  deriving DecidableEq

/-- `namespace_caps().settable`: whether each query can be bound to a database of its own. -/
def settable : DbKind → Bool
  | .mysql | .clickhouse => true
  | .postgres | .sqlite | .redis | .mongo => false

/-- A live connection: its tabs, which of them each pane shows, and the namespace that tabs
without one of their own inherit. -/
structure ActiveConn where
  session : SessionId
  connId : Bytes
  config : ConnectionConfig
  ns : Option Bytes
  tabs : List QueryTab
  focus : PaneId
  activeTab : PaneId → Option Nat
  writeInFlight : Bool
  lastActiveSeq : Nat
  /-- The schema tree: the objects of each schema, and the tables whose columns are loaded. -/
  schemas : List (Bytes × List Bytes)
  details : List (Bytes × Bytes)

namespace ActiveConn

def new (session : SessionId) (connId : Bytes) (config : ConnectionConfig) : ActiveConn where
  session := session
  connId := connId
  config := config
  ns := if !config.database.isEmpty && settable config.kind then some config.database
    else none
  tabs := [QueryTab.new 0]
  focus := 0
  activeTab := fun pane => if pane = 0 then some 0 else none
  writeInFlight := false
  lastActiveSeq := 0
  schemas := []
  details := []

variable (c : ActiveConn)

def firstTabIn (pane : PaneId) : Option Nat := c.tabs.findIdx? fun t => t.pane == pane

/-- The stored tab of a pane while it still is one of the pane's, else the first that is. -/
def paneActive (pane : PaneId) : Option Nat :=
  match c.activeTab pane with
  | some i => if (c.tabs[i]?).any fun t => t.pane == pane then some i else c.firstTabIn pane
  | none => c.firstTabIn pane

def focusedTabIndex : Option Nat := c.paneActive c.focus

/-- `ActiveConn::active`. -/
def active : Option QueryTab := c.focusedTabIndex.bind fun i => c.tabs[i]?

/-- A change to the focused tab, where there is one. -/
def modifyActive (f : QueryTab → QueryTab) : ActiveConn :=
  match c.focusedTabIndex with
  | some i => { c with tabs := c.tabs.modify i f }
  | none => c

variable {c} in
@[simp] theorem modifyActive_session {g : QueryTab → QueryTab} :
    (c.modifyActive g).session = c.session := by
  unfold modifyActive
  split <;> rfl

variable {c} in
@[simp] theorem modifyActive_writeInFlight {g : QueryTab → QueryTab} :
    (c.modifyActive g).writeInFlight = c.writeInFlight := by
  unfold modifyActive
  split <;> rfl

def namespaceForSend : Option Bytes :=
  if !settable c.config.kind then none
  else (c.active.bind QueryTab.ns).orElse fun _ => c.ns

end ActiveConn

structure Connecting where
  session : SessionId
  connId : Bytes
  config : ConnectionConfig
  previous : Option SessionId

inductive Phase where
  | disconnected
  | connecting (k : Connecting)
  | connected (c : ActiveConn)

/-! ## Writes that wait to be confirmed -/

/-- What the preflight says of one statement of a batch. -/
structure OpPlan where
  index : Nat
  blocked : Option Bytes

inductive PendingWrite where
  | editorSql (sql : Bytes)
  | script (statements : List Bytes)
  | batch (ops : List EditOp) (sources : List OpSource) (epoch : Nat) (mode : BatchMode)
      (plan : List OpPlan)
  | importFile (path : Bytes) (format : ImportFormat) (target : Driver.TableRef)
      (mapping : List ColumnMap) (id : Nat)
  | killSession (key : Bytes) (mode : KillMode)
  | copy (id sourceEpoch : Nat) (target : Driver.TableRef) (targetSession : SessionId)
      (mapping : List ColumnMap) (mode : CopyMode) (create : Option (List Schema.ColumnMeta))
  | transfer

structure PendingConfirm where
  session : SessionId
  write : PendingWrite

/-- The box that some confirms want the name of an object typed into. -/
structure ConfirmInput where
  content : Bytes
  expect : Bytes

structure Destination where
  session : SessionId
  ns : Bytes

/-- The transfer wizard, with the connection its items are read from. -/
structure TransferWizard where
  plan : TransferPlan
  source : SessionId
  destinations : List Destination
  destination : Option Nat
  /-- The run that was started from it. -/
  run : Option Nat

def TransferWizard.target (w : TransferWizard) : Option Destination :=
  w.destination.bind fun i => w.destinations[i]?

inductive Command where
  | connect (config : ConnectionConfig)
  | closeSession
  | disconnect
  | setActiveSession (session : Option SessionId)
  | execute (sql : Bytes) (ns : Option Bytes)
  | runScript (statements : List Bytes) (ns : Option Bytes) (stop : ScriptStop)
  | preflightBatch (epoch : Nat) (ops : List EditOp)
  | applyBatch (epoch : Nat) (ops : List EditOp) (mode : BatchMode)
  | killServerSession (key : Bytes) (mode : KillMode)
  | importFile (path : Bytes) (format : ImportFormat) (target : Driver.TableRef)
      (mapping : List ColumnMap) (chunkSize id : Nat)
  | copyToTable (id sourceEpoch : Nat) (target : Driver.TableRef) (targetSession : SessionId)
      (mapping : List ColumnMap) (mode : CopyMode) (create : Option (List Schema.ColumnMeta))
  | runTransfer (id : Nat) (plan : TransferPlan) (targetSession : SessionId)
  | describeTable (schema table : Bytes)
  | openResult (sql : Bytes) (epoch : Nat) (table : Option (Bytes × Bytes)) (ns : Option Bytes)
  deriving DecidableEq

/-- A command on its way to the service; one without a session is for the service itself. -/
structure Sent where
  session : Option SessionId
  command : Command
  deriving DecidableEq

abbrev Parked := AList fun _ : SessionId => ActiveConn

structure AppState where
  phase : Phase
  foregroundSession : Option SessionId
  parked : Parked
  nextSessionId : Nat
  nextActiveSeq : Nat
  nextExportId : Nat
  nextEpoch : Nat
  confirmExec : Option PendingConfirm
  confirmInput : Option ConfirmInput
  pendingBatch : Option PendingWrite
  submittedBatch : Option (Nat × List OpSource)
  transfer : Option TransferWizard
  transferConfirmed : Bool
  /-- The commands sent while the event in hand is handled. -/
  outbox : List Sent

namespace AppState

def init : AppState where
  phase := .disconnected
  foregroundSession := none
  parked := ∅
  nextSessionId := 0
  nextActiveSeq := 0
  nextExportId := 0
  nextEpoch := 0
  confirmExec := none
  confirmInput := none
  pendingBatch := none
  submittedBatch := none
  transfer := none
  transferConfirmed := false
  outbox := []

variable (s : AppState)

def sendTo (session : SessionId) (command : Command) : AppState :=
  { s with outbox := s.outbox ++ [⟨some session, command⟩] }

def sendGlobal (command : Command) : AppState :=
  { s with outbox := s.outbox ++ [⟨none, command⟩] }

/-- To the foreground session, whichever that is. -/
def sendActive (command : Command) : AppState :=
  match s.foregroundSession with
  | some id => s.sendTo id command
  | none => s

/-- The live connection on screen. -/
def shown : Option ActiveConn :=
  match s.phase with
  | .connected c => some c
  | _ => none

/-- The live connection on screen, if it is the session's. -/
def onScreen (id : SessionId) : Option ActiveConn :=
  if s.foregroundSession = some id then s.shown else none

/-- The live connection of a session: the one on screen, or a parked one. -/
def connFor (session : Option SessionId) : Option ActiveConn :=
  session.bind fun id => (s.onScreen id).orElse fun _ => s.parked.lookup id

/-- `conn_mut`, with the change that is made through it. -/
def modifyConn (session : Option SessionId) (f : ActiveConn → ActiveConn) : AppState :=
  match session with
  | none => s
  | some id =>
    match s.onScreen id with
    | some c => { s with phase := .connected (f c) }
    | none =>
      match s.parked.lookup id with
      | some c => { s with parked := s.parked.insert id (f c) }
      | none => s

/-- A change to the live connection on screen. -/
def modifyShown (f : ActiveConn → ActiveConn) : AppState :=
  match s.phase with
  | .connected c => { s with phase := .connected (f c) }
  | _ => s

/-- The namespace that queries on a session's connection resolve against. -/
def namespaceOf (session : SessionId) : Option Bytes :=
  (s.connFor (some session)).bind ActiveConn.namespaceForSend

def sendNamespace : Option Bytes := s.shown.bind ActiveConn.namespaceForSend

/-! ## Where a change lands -/

variable {s} {id other : SessionId} {c : ActiveConn} {f : ActiveConn → ActiveConn}

@[simp] theorem shown_eq_some : s.shown = some c ↔ s.phase = .connected c := by
  unfold shown
  split <;> simp_all

theorem onScreen_eq_some :
    s.onScreen id = some c ↔ s.foregroundSession = some id ∧ s.phase = .connected c := by
  unfold onScreen
  split <;> simp_all

theorem connFor_some : s.connFor (some id) = (s.onScreen id).orElse fun _ => s.parked.lookup id := rfl

theorem connFor_onScreen (h : s.onScreen id = some c) : s.connFor (some id) = some c := by
  rw [connFor_some, h]
  rfl

theorem connFor_parked (h : s.onScreen id = none) : s.connFor (some id) = s.parked.lookup id := by
  rw [connFor_some, h]
  rfl

/-- Of the two places a connection may live in, a change reaches one. -/
theorem connFor_modifyConn (id other : SessionId) :
    (s.modifyConn (some id) f).connFor (some other) =
      if other = id then (s.connFor (some id)).map f else s.connFor (some other) := by
  unfold modifyConn
  dsimp only
  cases hscreen : s.onScreen id with
  | some c =>
    obtain ⟨hid, hphase⟩ := onScreen_eq_some.mp hscreen
    rw [connFor_onScreen hscreen]
    by_cases he : other = id
    · subst he
      rw [if_pos rfl]
      exact connFor_onScreen (onScreen_eq_some.mpr ⟨hid, rfl⟩)
    · have hne : s.foregroundSession ≠ some other := fun h => he (Option.some.inj (h.symm.trans hid))
      simp [connFor_some, onScreen, hne, he]
  | none =>
    rw [connFor_parked hscreen]
    cases hlookup : s.parked.lookup id with
    | none =>
      by_cases he : other = id
      · subst he
        simp [connFor_parked hscreen, hlookup]
      · simp [he]
    | some c =>
      by_cases he : other = id
      · subst he
        rw [if_pos rfl, connFor_parked (by exact hscreen)]
        exact AList.lookup_insert _
      · simp only [if_neg he, connFor_some]
        rw [AList.lookup_insert_ne he]
        rfl

/-- What is on screen changes for the foreground session. -/
theorem modifyShown_eq (h : ∀ c, s.phase = .connected c → s.foregroundSession = some c.session) :
    s.modifyShown f = match s.shown with
      | some c => s.modifyConn (some c.session) f
      | none => s := by
  unfold modifyShown
  cases hphase : s.phase with
  | disconnected | connecting => simp [shown, hphase]
  | connected c =>
    have hscreen : s.onScreen c.session = some c := onScreen_eq_some.mpr ⟨h c hphase, hphase⟩
    simp [shown, hphase, modifyConn, hscreen]

end AppState

end RedDb.App
