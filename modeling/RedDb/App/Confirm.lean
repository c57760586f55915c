import RedDb.App.Sessions

/-!
# RedDb — confirmed writes

A write that is asked about is stamped with the foreground session when the question is
raised. Confirming hands it to the sender of its kind, and each of these picks the session it
sends to by itself: the stamped one, the one that is foreground by then, or the transfer
wizard's. The replies to a script land in the log of the tab that is focused on screen.

* `handle` — what the window does on each event;
* `step` — and the scripts that are still to be answered beside it;
* `routed_step` — whatever happens, a live connection stays where it is looked for.
-/

namespace RedDb.App

open ByteText Driver Grid Panes Schema Sql Transfer
open RedDb.Ai (KillMode)
open RedDb.Service.ManualTx (BatchMode ScriptStop)

/-- The front end's readings of a statement and of a plan: the table that a `SELECT *` browses,
the statement with a limit where it has none, and whether a plan can be run. -/
structure Readings where
  singleTableStar : Bytes → Option (Option Bytes × Bytes)
  autoLimit : Bytes → Option Bytes
  valid : TransferPlan → Bool

variable (r : Readings)

/-- `TransferWizard::runnable`. -/
def TransferWizard.runnable (w : TransferWizard) : Bool :=
  w.destination.isSome && w.run.isNone && r.valid w.plan

/-- A table of the catalog by its name; without a schema the name has to be that of one table. -/
def resolveInCatalog (schemas : List (Bytes × List Bytes)) (hint : Option Bytes) (table : Bytes) :
    Option (Bytes × Bytes) :=
  let objectIn (schema : Bytes × List Bytes) : Option (Bytes × Bytes) :=
    (schema.2.find? fun o => eqIgnoreAsciiCase o table).map fun o => (schema.1, o)
  match hint with
  | some name => (schemas.find? fun schema => eqIgnoreAsciiCase schema.1 name).bind objectIn
  | none =>
    match schemas.filterMap objectIn with
    | [hit] => some hit
    | _ => none

namespace AppState

variable (s : AppState)

/-! ## Raising the question -/

/-- The write stamped with the session it is asked on; nothing is raised without one. -/
def pendingConfirm (write : PendingWrite) : Option PendingConfirm :=
  s.foregroundSession.map fun session => ⟨session, write⟩

/-- The question about a graded statement or script, with a box for the name of the object that
would be lost where the grading asks for one. -/
def openConfirmFor (pending : PendingWrite) (expect : Option Bytes) : AppState :=
  { s with
    confirmInput := expect.map fun name => ⟨[], name⟩
    confirmExec := s.pendingConfirm pending }

/-- The question about any other write. -/
def raise (pending : PendingWrite) : AppState :=
  { s with confirmExec := s.pendingConfirm pending }

/-- Submit the staged edits of the result on screen: asked about at once, or after the preflight
that a batch without a transaction needs. -/
def submitPending (ops : List EditOp) (sources : List OpSource) (epoch : Nat) (mode : BatchMode) :
    AppState :=
  if s.shown.isNone || ops.isEmpty then s
  else
    match mode with
    | .atomic => s.raise (.batch ops sources epoch .atomic [])
    | mode =>
      { s.sendActive (.preflightBatch epoch ops) with
        pendingBatch := some (.batch ops sources epoch mode []) }

def onBatchPreflight (epoch : Nat) (plan : List OpPlan) : AppState :=
  match s.pendingBatch with
  | some (.batch ops sources waiting mode _) =>
    if waiting = epoch then
      { s with pendingBatch := none }.raise (.batch ops sources epoch mode plan)
    else s
  | _ => s

/-- The whole name of the doomed object has been typed, or no box wants it. -/
def confirmTargetMatches : Bool :=
  s.confirmInput.all fun typed => eqIgnoreAsciiCase (trim typed.content) typed.expect

/-- A batch whose every statement the preflight refused would do nothing. -/
def confirmHasWork : Bool :=
  match s.confirmExec.map PendingConfirm.write with
  | some (.batch _ _ _ _ plan) => plan.isEmpty || plan.any fun p => p.blocked.isNone
  | _ => true

def setApplyToAll (granted : Bool) : AppState :=
  match s.confirmExec with
  | some ⟨session, .batch ops sources epoch (.bestEffort _) plan⟩ =>
    { s with confirmExec := some ⟨session, .batch ops sources epoch (.bestEffort granted) plan⟩ }
  | _ => s

/-! ## The senders -/

/-- Mark a write in flight, or the last one answered. -/
def setInFlight (session : Option SessionId) (flying : Bool) : AppState :=
  s.modifyConn session fun c => { c with writeInFlight := flying }

def executeSqlOn (session : SessionId) (sql : Bytes) : AppState :=
  match s.connFor (some session) with
  | none => s
  | some conn =>
    if conn.config.readOnly then s
    else (s.setInFlight (some session) true).sendTo session (.execute sql conn.namespaceForSend)

/-- `execute_sql`: on the connection on screen. -/
def executeSql (sql : Bytes) : AppState :=
  match s.foregroundSession with
  | some session => s.executeSqlOn session sql
  | none => s

/-- The history record of a script is left out. -/
def sendScript (statements : List Bytes) : AppState :=
  match s.foregroundSession with
  | none => s
  | some session =>
    match s.connFor (some session) with
    | none => s
    | some conn =>
      let opened := s.modifyShown fun c => c.modifyActive fun tab =>
        { tab with plan := none, script := some (.new statements.length) }
      (opened.setInFlight (some session) true).sendTo session
        (.runScript statements conn.namespaceForSend .onError)

/-- The batch goes out with the memory of where its statements came from. -/
def applyBatch (session : SessionId) (ops : List EditOp) (sources : List OpSource) (epoch : Nat)
    (mode : BatchMode) : AppState :=
  ({ s with submittedBatch := some (epoch, sources) }.setInFlight (some session) true).sendTo session
    (.applyBatch epoch ops mode)

def runKillSession (session : SessionId) (key : Bytes) (mode : KillMode) : AppState :=
  s.sendTo session (.killServerSession key mode)

/-- `DEFAULT_IMPORT_CHUNK`. -/
def importChunk : Nat := 500

def startImport (path : Bytes) (format : ImportFormat) (target : Driver.TableRef)
    (mapping : List ColumnMap) (id : Nat) : AppState :=
  s.sendActive (.importFile path format target mapping importChunk id)

def startCopy (id sourceEpoch : Nat) (target : Driver.TableRef) (targetSession : SessionId)
    (mapping : List ColumnMap) (mode : CopyMode) (create : Option (List Schema.ColumnMeta)) : AppState :=
  s.sendActive (.copyToTable id sourceEpoch target targetSession mapping mode create)

def sendTransfer (w : TransferWizard) (dryRun : Bool) : AppState :=
  match w.target with
  | none => s
  | some d =>
    { s with
      nextExportId := s.nextExportId + 1
      transfer := some (if dryRun then w else { w with run := some s.nextExportId })
      }.sendTo w.source
      (.runTransfer s.nextExportId { w.plan with options := { w.plan.options with dryRun := dryRun } }
        d.session)

/-- Run the wizard's plan; one that clears or drops something is asked about first. -/
def startTransfer : AppState :=
  match s.transfer with
  | none => s
  | some w =>
    if !w.runnable r then s
    else if w.plan.items.any TransferItem.isDestructive && !s.transferConfirmed then s.raise .transfer
    else { s with transferConfirmed := false }.sendTransfer w false

def confirmedTransfer : AppState := { s with transferConfirmed := true }.startTransfer r

/-! ## The answer -/

/-- Hand a write that is confirmed to its sender. -/
def dispatch (owner : SessionId) : PendingWrite → AppState
  | .editorSql sql => s.executeSqlOn owner sql
  | .script statements => s.sendScript statements
  | .batch ops sources epoch mode _ => s.applyBatch owner ops sources epoch mode
  | .killSession key mode => s.runKillSession owner key mode
  | .importFile path format target mapping id => s.startImport path format target mapping id
  | .transfer => s.confirmedTransfer r
  | .copy id sourceEpoch target targetSession mapping mode create =>
    s.startCopy id sourceEpoch target targetSession mapping mode create

def confirmDestructive : AppState :=
  if !s.confirmTargetMatches || !s.confirmHasWork then s
  else
    match s.confirmExec with
    | some ⟨owner, write⟩ => { s with confirmInput := none, confirmExec := none }.dispatch r owner write
    | none => { s with confirmInput := none }

/-- The buttons of the copy dialog: the copy, under the mode of the button. -/
def confirmCopy (mode : CopyMode) : AppState :=
  match s.confirmExec with
  | some ⟨_, .copy id sourceEpoch target targetSession mapping _ create⟩ =>
    { s with confirmExec := none }.startCopy id sourceEpoch target targetSession mapping mode create
  | _ => { s with confirmExec := none }

def cancelDestructive : AppState :=
  { s with confirmExec := none, pendingBatch := none, confirmInput := none }

/-! ## The transfer wizard -/

/-- A wizard over the connection on screen, where there is something to transfer and somewhere
to transfer it to. -/
def openTransfer (plan : TransferPlan) (destinations : List Destination) (destination : Option Nat) :
    AppState :=
  match s.shown with
  | none => s
  | some c =>
    if plan.items.isEmpty || destinations.isEmpty then s
    else { s with transfer := some ⟨plan, c.session, destinations, destination, none⟩ }

def editTransfer (plan : TransferPlan) (destination : Option Nat) : AppState :=
  { s with transfer := s.transfer.map fun w => { w with plan := plan, destination := destination } }

/-- Not from under a question. -/
def closeTransfer : AppState :=
  if s.confirmExec.isSome then s else { s with transfer := none }

/-! ## The replies to a script -/

/-- The log on screen, where there is one open. -/
def modifyLog (f : ScriptRun → ScriptRun) : AppState :=
  s.modifyShown fun c => c.modifyActive fun tab => { tab with script := tab.script.map f }

def onScriptStep (step : ScriptStep) : AppState :=
  s.modifyLog fun run => { run with steps := run.steps ++ [step] }

def resolveBrowseTable (sql : Bytes) : Option (Bytes × Bytes) :=
  (r.singleTableStar sql).bind fun (hint, table) =>
    s.shown.bind fun c => resolveInCatalog c.schemas hint table

/-- Open a result in the focused tab on screen. -/
def openResult (label sql : Bytes) (table : Option (Bytes × Bytes)) : AppState :=
  match s.shown with
  | none => s
  | some c =>
    if c.active.isNone then s
    else
      let opened := { s.modifyShown fun c => c.modifyActive fun tab =>
          { tab with plan := none, result := some ⟨label, sql, table, s.nextEpoch⟩ } with
        nextEpoch := s.nextEpoch + 1 }
      let described := match table with
        | some t => if t ∈ c.details then opened else opened.sendActive (.describeTable t.1 t.2)
        | none => opened
      described.sendActive (.openResult sql s.nextEpoch table described.sendNamespace)

def onScriptDone (ran failed : Nat) (trailingRead : Option Bytes) : AppState :=
  let settled := (s.setInFlight s.foregroundSession false).modifyLog fun run =>
    { run with summary := some ⟨ran, failed⟩ }
  match trailingRead with
  | none => settled
  | some sql =>
    let table := settled.resolveBrowseTable r sql
    (settled.modifyShown fun c => c.modifyActive fun tab => { tab with script := none }).openResult
      (ascii "script") ((r.autoLimit sql).getD sql) table

/-! ## Work on screen, and other replies -/

/-- A new tab in the focused pane, on an engine that has an editor. -/
def newQuery : AppState :=
  s.modifyShown fun c =>
    if c.config.kind = .redis ∨ c.config.kind = .mongo then c
    else
      { c with
        tabs := c.tabs ++ [.new c.focus]
        activeTab := Function.update c.activeTab c.focus (some c.tabs.length) }

def focusTab (pane : PaneId) (index : Nat) : AppState :=
  s.modifyShown fun c =>
    { c with focus := pane, activeTab := Function.update c.activeTab pane (some index) }

def setTabNamespace (ns : Option Bytes) : AppState :=
  s.modifyShown fun c =>
    if settable c.config.kind then c.modifyActive fun tab => { tab with ns := ns } else c

def closeScript : AppState :=
  s.modifyShown fun c => c.modifyActive fun tab => { tab with script := none }

def onObjectsLoaded (session : SessionId) (schemas : List (Bytes × List Bytes)) : AppState :=
  s.modifyConn (some session) fun c => { c with schemas := schemas }

def onTableDescribed (session : SessionId) (schema table : Bytes) : AppState :=
  s.modifyConn (some session) fun c => { c with details := (schema, table) :: c.details }

end AppState

/-! ## Events -/

inductive Event where
  -- Connections.
  | switchTo (connId : Bytes) (config : ConnectionConfig)
  | switchToPrevious
  | cancelConnect
  | disconnectAll
  | connected (session : SessionId)
  | disconnected (session : SessionId)
  -- Work on screen.
  | newQuery
  | focusTab (pane : PaneId) (index : Nat)
  | setTabNamespace (ns : Option Bytes)
  | closeScript
  | runSql (sql : Bytes)
  | runScript (statements : List Bytes)
  -- Questions and answers.
  | askAbout (pending : PendingWrite) (expect : Option Bytes)
  | ask (pending : PendingWrite)
  | submitPending (ops : List EditOp) (sources : List OpSource) (epoch : Nat) (mode : BatchMode)
  | batchPreflight (epoch : Nat) (plan : List OpPlan)
  | typed (content : Bytes)
  | applyToAll (granted : Bool)
  | confirm
  | confirmCopy (mode : CopyMode)
  | cancel
  -- The transfer wizard.
  | openTransfer (plan : TransferPlan) (destinations : List Destination) (destination : Option Nat)
  | editTransfer (plan : TransferPlan) (destination : Option Nat)
  | closeTransfer
  | startTransfer
  -- Replies.
  | executed (session : SessionId)
  | objectsLoaded (session : SessionId) (schemas : List (Bytes × List Bytes))
  | tableDescribed (session : SessionId) (schema table : Bytes)
  | scriptStep (session : SessionId) (step : ScriptStep)
  | scriptDone (session : SessionId) (ran failed : Nat) (trailingRead : Option Bytes)

/-- The handlers. Those of a script's replies are not given the session the reply is from. -/
def handle (s : AppState) : Event → AppState
  | .switchTo connId config => s.switchToConnection connId config
  | .switchToPrevious => s.switchToPrevious
  | .cancelConnect => s.cancelConnect
  | .disconnectAll => s.disconnectAll
  | .connected session => s.onConnected session
  | .disconnected session => s.onDisconnected session
  | .newQuery => s.newQuery
  | .focusTab pane index => s.focusTab pane index
  | .setTabNamespace ns => s.setTabNamespace ns
  | .closeScript => s.closeScript
  | .runSql sql => s.executeSql sql
  | .runScript statements => s.sendScript statements
  | .askAbout pending expect => s.openConfirmFor pending expect
  | .ask pending => s.raise pending
  | .submitPending ops sources epoch mode => s.submitPending ops sources epoch mode
  | .batchPreflight epoch plan => s.onBatchPreflight epoch plan
  | .typed content =>
    { s with confirmInput := s.confirmInput.map fun typed => { typed with content := content } }
  | .applyToAll granted => s.setApplyToAll granted
  | .confirm => s.confirmDestructive r
  | .confirmCopy mode => s.confirmCopy mode
  | .cancel => s.cancelDestructive
  | .openTransfer plan destinations destination => s.openTransfer plan destinations destination
  | .editTransfer plan destination => s.editTransfer plan destination
  | .closeTransfer => s.closeTransfer
  | .startTransfer => s.startTransfer r
  | .executed session => s.setInFlight (some session) false
  | .objectsLoaded session schemas => s.onObjectsLoaded session schemas
  | .tableDescribed session schema table => s.onTableDescribed session schema table
  | .scriptStep _ step => s.onScriptStep step
  | .scriptDone _ ran failed trailingRead => s.onScriptDone r ran failed trailingRead

/-- The window, and the sessions a script runs on at the service. -/
structure World where
  app : AppState
  scripts : List SessionId

def World.init : World := ⟨.init, []⟩

/-- The session a script is started on. -/
def Sent.script (m : Sent) : Option SessionId :=
  match m.command with
  | .runScript .. => m.session
  | _ => none

/-- A reply comes from a session that a script runs on; every other event may come at any time. -/
def step (w : World) (e : Event) : Option World :=
  let app := handle r { w.app with outbox := [] } e
  let started := app.outbox.filterMap Sent.script
  match e with
  | .scriptStep session _ => if session ∈ w.scripts then some ⟨app, w.scripts ++ started⟩ else none
  | .scriptDone session _ _ _ =>
    if session ∈ w.scripts then some ⟨app, w.scripts.erase session ++ started⟩ else none
  | _ => some ⟨app, w.scripts ++ started⟩

/-! ## The handlers leave the connections where they are -/

namespace AppState

variable {r} {s : AppState}

theorem Routed.modifyTab (hr : s.Routed) (g : QueryTab → QueryTab) :
    (s.modifyShown fun c => c.modifyActive g).Routed :=
  hr.modifyShown fun _ => ActiveConn.modifyActive_session

theorem Routed.setInFlight (hr : s.Routed) (session : Option SessionId) (flying : Bool) :
    (s.setInFlight session flying).Routed := by
  refine hr.modifyConn ?_ session
  exact fun _ => rfl

theorem Routed.executeSqlOn (hr : s.Routed) (session : SessionId) (sql : Bytes) :
    (s.executeSqlOn session sql).Routed := by
  unfold AppState.executeSqlOn
  split
  · exact hr
  · split
    · exact hr
    · exact (hr.setInFlight _ true).sendTo _ _

theorem Routed.sendScript (hr : s.Routed) (statements : List Bytes) :
    (s.sendScript statements).Routed := by
  unfold AppState.sendScript
  split
  · exact hr
  · split
    · exact hr
    · exact ((hr.modifyTab _).setInFlight _ true).sendTo _ _

theorem Routed.startTransfer (hr : s.Routed) : (s.startTransfer r).Routed := by
  unfold AppState.startTransfer
  split
  · exact hr
  split
  · exact hr
  split
  · exact hr.congr rfl rfl rfl rfl
  · unfold AppState.sendTransfer
    split <;> exact hr.congr rfl rfl rfl rfl

theorem Routed.dispatch (hr : s.Routed) (owner : SessionId) (write : PendingWrite) :
    (s.dispatch r owner write).Routed := by
  cases write with
  | editorSql sql => exact hr.executeSqlOn owner sql
  | script statements => exact hr.sendScript statements
  | batch ops sources epoch mode plan =>
    exact (Routed.setInFlight (s := { s with submittedBatch := some (epoch, sources) })
      (hr.congr rfl rfl rfl rfl) _ true).sendTo _ _
  | importFile | copy => exact hr.sendActive _
  | killSession key mode => exact hr.sendTo _ _
  | transfer =>
    exact Routed.startTransfer (s := { s with transferConfirmed := true }) (hr.congr rfl rfl rfl rfl)

theorem Routed.openResult (hr : s.Routed) (label sql : Bytes) (table : Option (Bytes × Bytes)) :
    (s.openResult label sql table).Routed := by
  unfold AppState.openResult
  split
  · exact hr
  split
  · exact hr
  have hopened : ∀ g : QueryTab → QueryTab,
      ({ s.modifyShown (fun c => c.modifyActive g) with nextEpoch := s.nextEpoch + 1 }).Routed :=
    fun g => (hr.modifyTab g).congr rfl rfl rfl rfl
  dsimp only
  split
  · split
    · exact (hopened _).sendActive _
    · exact ((hopened _).sendActive _).sendActive _
  · exact (hopened _).sendActive _

theorem Routed.onScriptDone (hr : s.Routed) (ran failed : Nat) (trailingRead : Option Bytes) :
    (s.onScriptDone r ran failed trailingRead).Routed := by
  have hsettled := (hr.setInFlight s.foregroundSession false).modifyTab
  unfold AppState.onScriptDone
  dsimp only
  split
  · exact hsettled _
  · exact ((hsettled _).modifyTab _).openResult _ _ _

end AppState

/-- Whatever happens, a live connection stays where it is looked for. -/
theorem routed_handle {s : AppState} (hr : s.Routed) (e : Event) : (handle r s e).Routed := by
  cases e with
  | switchTo connId config => exact hr.switchToConnection connId config
  | switchToPrevious => exact hr.switchToPrevious
  | cancelConnect => exact hr.cancelConnect
  | disconnectAll => exact AppState.Routed.disconnectAll s
  | connected session => exact hr.onConnected session
  | disconnected session => exact hr.onDisconnected session
  | newQuery =>
    refine hr.modifyShown fun c => ?_
    split <;> rfl
  | focusTab pane index => exact hr.modifyShown fun _ => rfl
  | setTabNamespace ns =>
    refine hr.modifyShown fun c => ?_
    split
    · exact ActiveConn.modifyActive_session
    · rfl
  | closeScript => exact hr.modifyTab _
  | runSql sql =>
    rw [handle, AppState.executeSql]
    split
    · exact hr.executeSqlOn _ sql
    · exact hr
  | runScript statements => exact hr.sendScript statements
  | askAbout | ask | typed | cancel | editTransfer => exact hr.congr rfl rfl rfl rfl
  | submitPending ops sources epoch mode =>
    show (s.submitPending ops sources epoch mode).Routed
    unfold AppState.submitPending
    split
    · exact hr
    · split
      · exact hr.congr rfl rfl rfl rfl
      · exact (hr.sendActive _).congr rfl rfl rfl rfl
  | batchPreflight epoch plan =>
    rw [handle, AppState.onBatchPreflight]
    split
    · split
      · exact hr.congr rfl rfl rfl rfl
      · exact hr
    · exact hr
  | applyToAll granted =>
    rw [handle, AppState.setApplyToAll]
    split
    · exact hr.congr rfl rfl rfl rfl
    · exact hr
  | confirm =>
    rw [handle, AppState.confirmDestructive]
    split
    · exact hr
    split
    · exact AppState.Routed.dispatch (s := { s with confirmInput := none, confirmExec := none })
        (hr.congr rfl rfl rfl rfl) _ _
    · exact hr.congr rfl rfl rfl rfl
  | confirmCopy mode =>
    rw [handle, AppState.confirmCopy]
    split
    · exact AppState.Routed.sendActive (s := { s with confirmExec := none })
        (hr.congr rfl rfl rfl rfl) _
    · exact hr.congr rfl rfl rfl rfl
  | openTransfer plan destinations destination =>
    rw [handle, AppState.openTransfer]
    split
    · exact hr
    · split
      · exact hr
      · exact hr.congr rfl rfl rfl rfl
  | closeTransfer =>
    rw [handle, AppState.closeTransfer]
    split
    · exact hr
    · exact hr.congr rfl rfl rfl rfl
  | startTransfer => exact hr.startTransfer
  | executed session => exact hr.setInFlight _ false
  | objectsLoaded session schemas =>
    rw [handle, AppState.onObjectsLoaded]
    refine hr.modifyConn ?_ _
    exact fun _ => rfl
  | tableDescribed session schema table =>
    rw [handle, AppState.onTableDescribed]
    refine hr.modifyConn ?_ _
    exact fun _ => rfl
  | scriptStep session step => exact hr.modifyTab _
  | scriptDone session ran failed trailingRead => exact hr.onScriptDone ran failed trailingRead

variable {r}

theorem routed_step {w w' : World} {e : Event} (hr : w.app.Routed) (hstep : step r w e = some w') :
    w'.app.Routed := by
  have hhandled : (handle r { w.app with outbox := [] } e).Routed :=
    routed_handle r (s := { w.app with outbox := [] }) (hr.congr rfl rfl rfl rfl) e
  unfold step at hstep
  dsimp only at hstep
  split at hstep
  · split at hstep <;> cases hstep
    exact hhandled
  · split at hstep <;> cases hstep
    exact hhandled
  · cases hstep
    exact hhandled

end RedDb.App
