import RedDb.App.Confirm

/-!
# RedDb — where a confirmed write goes

What is promised: a write that is confirmed goes to the session it was asked on, in the
namespace of that connection, and a reply to a script changes the connection of the script
and no other. Both the sender of a script, an import or a copy and the handlers of a script's
replies look at the foreground session instead.

* `dispatch_iff` — the writes that go where they were asked;
* `onScriptStep_iff`, `onScriptDone_iff` — the replies that stay with their script;
* `confirmed_iff` — the runs that keep the promise at every step;
* `script_on_the_next` — a script confirmed for one connection runs on another.
-/

namespace RedDb.App

open ByteText Driver Grid Panes Schema Sql Transfer

/-! ## The promise -/

/-- The namespace a command asks for, where it is of a kind that does. -/
def Command.carried : Command → Option (Option Bytes)
  | .execute _ ns | .runScript _ ns _ | .openResult _ _ _ ns => some ns
  | _ => none

/-- Everything that is sent goes to `owner`, in the namespace of its connection. -/
def Delivered (s : AppState) (owner : SessionId) (sent : List Sent) : Prop :=
  ∀ m ∈ sent, m.session = some owner ∧ ∀ ns, m.command.carried = some ns → ns = s.namespaceOf owner

/-- A reply from `session` leaves every other connection as it is, and sends nothing to one. -/
def Confined (session : SessionId) (s t : AppState) : Prop :=
  (∀ other, other ≠ session → t.connFor (some other) = s.connFor (some other)) ∧
    ∀ m ∈ t.outbox, m.session = some session

variable (r : Readings)

/-- What a step has to keep. -/
def Promised (w : World) (e : Event) : Prop :=
  ∀ w', step r w e = some w' →
    match e with
    | .confirm | .confirmCopy _ =>
      ∀ p, w.app.confirmExec = some p → Delivered w.app p.session w'.app.outbox
    | .scriptStep session _ | .scriptDone session .. => Confined session w.app w'.app
    | _ => True

/-! ## When it is kept -/

/-- The sender of the write looks at `owner`: by itself, or because `owner` is where it looks. -/
def Aimed (s : AppState) (owner : SessionId) : PendingWrite → Prop
  | .editorSql _ | .batch .. | .killSession .. => True
  | .script _ => ∀ id, s.foregroundSession = some id → (s.connFor (some id)).isSome → id = owner
  | .importFile .. | .copy .. => ∀ id, s.foregroundSession = some id → id = owner
  | .transfer => ∀ w, s.transfer = some w → w.runnable r → w.target.isSome → w.source = owner

/-- No other connection is on screen with a script log open in its focused tab. -/
def StepUnseen (s : AppState) (session : SessionId) : Prop :=
  ∀ c tab, s.phase = .connected c → c.session ≠ session → c.active = some tab → tab.script = none

/-- No other connection is foreground with a write in flight, or on screen with a focused tab for
the trailing read, or with a log there that this reply would close. -/
def DoneUnseen (s : AppState) (session : SessionId) (summary : ScriptSummary)
    (trailingRead : Option Bytes) : Prop :=
  ∀ id, s.foregroundSession = some id → id ≠ session →
    (∀ c, s.connFor (some id) = some c → c.writeInFlight = false) ∧
    ∀ c tab, s.phase = .connected c → c.active = some tab →
      trailingRead = none ∧ ∀ run, tab.script = some run → run.summary = some summary

/-- The condition on a step. -/
def OnTarget (w : World) : Event → Prop
  | .confirm => w.app.confirmTargetMatches = true → w.app.confirmHasWork = true →
      ∀ p, w.app.confirmExec = some p → Aimed r w.app p.session p.write
  | .confirmCopy _ => ∀ p, w.app.confirmExec = some p → ∀ id sourceEpoch target targetSession mapping
      mode create, p.write = .copy id sourceEpoch target targetSession mapping mode create →
      Aimed r w.app p.session p.write
  | .scriptStep session _ => session ∈ w.scripts → StepUnseen w.app session
  | .scriptDone session ran failed trailingRead =>
      session ∈ w.scripts → DoneUnseen w.app session ⟨ran, failed⟩ trailingRead
  | _ => True

/-! ## Senders -/

variable {r} {s t : AppState} {owner session : SessionId} {f : ActiveConn → ActiveConn}

@[simp] theorem modifyConn_outbox (session : Option SessionId) :
    (s.modifyConn session f).outbox = s.outbox := by
  unfold AppState.modifyConn
  cases session with
  | none => rfl
  | some id =>
    dsimp only
    split
    · rfl
    · split <;> rfl

@[simp] theorem modifyShown_outbox : (s.modifyShown f).outbox = s.outbox := by
  unfold AppState.modifyShown
  split <;> rfl

@[simp] theorem sendTo_outbox (command : Command) :
    (s.sendTo session command).outbox = s.outbox ++ [⟨some session, command⟩] := rfl

theorem sendActive_outbox (command : Command) : (s.sendActive command).outbox =
      s.outbox ++ (s.foregroundSession.map fun id => ⟨some id, command⟩).toList := by
  unfold AppState.sendActive
  cases s.foregroundSession <;> simp

theorem delivered_nil : Delivered s owner [] := fun m hm => by cases hm

theorem delivered_singleton {m : Sent} : Delivered s owner [m] ↔
      m.session = some owner ∧ ∀ ns, m.command.carried = some ns → ns = s.namespaceOf owner :=
  List.forall_mem_singleton

/-- A command that asks for no namespace goes to the foreground session. -/
theorem delivered_sendActive {command : Command} (hout : t.outbox = []) (hcarried : command.carried = none) :
    Delivered s owner (t.sendActive command).outbox ↔ ∀ id, t.foregroundSession = some id → id = owner := by
  rw [sendActive_outbox, hout]
  cases t.foregroundSession with
  | none => exact iff_of_true delivered_nil fun id hid => by cases hid
  | some id => simp [delivered_singleton, hcarried]

theorem executeSqlOn_delivered (hout : s.outbox = []) (sql : Bytes) :
    Delivered s owner (s.executeSqlOn owner sql).outbox := by
  unfold AppState.executeSqlOn
  split
  · rw [hout]
    exact delivered_nil
  next conn hconn =>
    split
    · rw [hout]
      exact delivered_nil
    rw [sendTo_outbox, AppState.setInFlight, modifyConn_outbox, hout, List.nil_append,
      delivered_singleton]
    refine ⟨rfl, ?_⟩
    rintro ns ⟨⟩
    rw [AppState.namespaceOf, hconn]
    rfl

theorem sendScript_iff (hout : s.outbox = []) (statements : List Bytes) :
    Delivered s owner (s.sendScript statements).outbox ↔ Aimed r s owner (.script statements) := by
  unfold AppState.sendScript
  cases hforeground : s.foregroundSession with
  | none =>
    dsimp only
    rw [hout]
    exact iff_of_true delivered_nil fun id hid => by cases hforeground.symm.trans hid
  | some id =>
    dsimp only
    cases hconn : s.connFor (some id) with
    | none =>
      dsimp only
      rw [hout]
      refine iff_of_true delivered_nil ?_
      intro other hother hlive
      obtain ⟨rfl⟩ := hforeground.symm.trans hother
      simp [hconn] at hlive
    | some conn =>
      dsimp only
      rw [sendTo_outbox, AppState.setInFlight, modifyConn_outbox, modifyShown_outbox, hout,
        List.nil_append, delivered_singleton]
      constructor
      · rintro ⟨hsession, -⟩ other hother -
        obtain ⟨rfl⟩ := hforeground.symm.trans hother
        exact Option.some.inj hsession
      · intro haimed
        obtain rfl := haimed id hforeground (by simp [hconn])
        refine ⟨rfl, ?_⟩
        rintro ns ⟨⟩
        rw [AppState.namespaceOf, hconn]
        rfl

theorem sendTransfer_outbox {w : TransferWizard} (hout : s.outbox = []) :
    Delivered t owner (s.sendTransfer w false).outbox ↔ (w.target.isSome → w.source = owner) := by
  unfold AppState.sendTransfer
  cases w.target with
  | none =>
    dsimp only
    rw [hout]
    exact iff_of_true delivered_nil fun hsome => by cases hsome
  | some d => simp [hout, delivered_singleton, Command.carried]

theorem confirmedTransfer_iff (hout : s.outbox = []) :
    Delivered s owner (s.confirmedTransfer r).outbox ↔ Aimed r s owner .transfer := by
  unfold AppState.confirmedTransfer AppState.startTransfer
  dsimp only
  cases hw : s.transfer with
  | none =>
    dsimp only
    rw [hout]
    exact iff_of_true delivered_nil fun w hw' => by cases hw.symm.trans hw'
  | some w =>
    dsimp only
    cases hrunnable : w.runnable r with
    | false =>
      rw [Bool.not_false, if_pos rfl, hout]
      refine iff_of_true delivered_nil fun w' hw' hrun => ?_
      obtain ⟨rfl⟩ := hw.symm.trans hw'
      cases hrunnable.symm.trans hrun
    | true =>
      rw [Bool.not_true, Bool.and_false, if_neg Bool.false_ne_true, if_neg Bool.false_ne_true]
      refine (sendTransfer_outbox (by exact hout)).trans ?_
      simp [Aimed, hw, hrunnable]

/-- The writes that go where they were asked are those whose sender looks there. -/
theorem dispatch_iff (hout : s.outbox = []) (write : PendingWrite) :
    Delivered s owner (s.dispatch r owner write).outbox ↔ Aimed r s owner write := by
  cases write with
  | editorSql sql => exact iff_of_true (executeSqlOn_delivered hout sql) trivial
  | script statements => exact sendScript_iff hout statements
  | batch ops sources epoch mode plan =>
    refine iff_of_true ?_ trivial
    rw [AppState.dispatch, AppState.applyBatch, sendTo_outbox, AppState.setInFlight, modifyConn_outbox]
    dsimp only
    rw [hout, List.nil_append, delivered_singleton]
    exact ⟨rfl, fun ns hns => by cases hns⟩
  | importFile path format target mapping id => exact delivered_sendActive hout rfl
  | killSession key mode =>
    refine iff_of_true ?_ trivial
    rw [AppState.dispatch, AppState.runKillSession, sendTo_outbox, hout, List.nil_append,
      delivered_singleton]
    exact ⟨rfl, fun ns hns => by cases hns⟩
  | copy id sourceEpoch target targetSession mapping mode create => exact delivered_sendActive hout rfl
  | transfer => exact confirmedTransfer_iff hout

/-! ## Replies -/

variable {c : ActiveConn} {g : QueryTab → QueryTab}

theorem modifyActive_eq_self : c.modifyActive g = c ↔ ∀ tab, c.active = some tab → g tab = tab := by
  unfold ActiveConn.modifyActive ActiveConn.active
  cases c.focusedTabIndex with
  | none => simp
  | some i =>
    dsimp only
    rw [Option.bind_some]
    constructor
    · intro heq tab htab
      have hget := congrArg (fun d : ActiveConn => d.tabs[i]?) heq
      simpa [htab] using hget
    · intro hsame
      have htabs : c.tabs.modify i g = c.tabs := by
        refine List.ext_getElem? fun j => ?_
        rw [List.getElem?_modify]
        by_cases hj : i = j
        · subst hj
          cases htab : c.tabs[i]? with
          | none => rfl
          | some tab => simp [hsame tab htab]
        · simp [hj]
      rw [htabs]

/-- A change through one session is seen by no other one just when it changes nothing there. -/
theorem modifyConn_confined (id : SessionId) : (∀ other, other ≠ session →
        (s.modifyConn (some id) f).connFor (some other) = s.connFor (some other)) ↔
      (id ≠ session → ∀ c, s.connFor (some id) = some c → f c = c) := by
  simp only [AppState.connFor_modifyConn]
  constructor
  · intro h hne c hc
    have hid := h id hne
    rw [if_pos rfl, hc] at hid
    exact Option.some.inj hid
  · intro h other hother
    by_cases he : other = id
    · subst he
      rw [if_pos rfl]
      cases hc : s.connFor (some other) with
      | none => rfl
      | some c => rw [Option.map_some, h hother c hc]
    · rw [if_neg he]

theorem modifyShown_confined (hrouted : s.Routed) :
    (∀ other, other ≠ session → (s.modifyShown f).connFor (some other) = s.connFor (some other)) ↔
      ∀ c, s.phase = .connected c → c.session ≠ session → f c = c := by
  rw [AppState.modifyShown_eq fun c hc => (hrouted.shown c hc).1]
  cases hshown : s.shown with
  | none =>
    refine iff_of_true (fun _ _ => rfl) fun c hc => ?_
    cases hshown.symm.trans (AppState.shown_eq_some.mpr hc)
  | some c =>
    have hphase := AppState.shown_eq_some.mp hshown
    have hconn : s.connFor (some c.session) = some c :=
      AppState.connFor_onScreen (AppState.onScreen_eq_some.mpr ⟨(hrouted.shown c hphase).1, hphase⟩)
    dsimp only
    rw [modifyConn_confined, hconn]
    constructor
    · intro h d hd hne
      obtain rfl : c = d := Phase.connected.inj (hphase.symm.trans hd)
      exact h hne c rfl
    · intro h hne d hd
      cases hd
      exact h c hphase hne

theorem onScriptStep_iff (hrouted : s.Routed) (hout : s.outbox = []) (step : ScriptStep) :
    Confined session s (s.onScriptStep step) ↔ StepUnseen s session := by
  have hsent : ∀ m ∈ (s.onScriptStep step).outbox, m.session = some session := by
    intro m hm
    simp [AppState.onScriptStep, AppState.modifyLog, hout] at hm
  rw [Confined, and_iff_left hsent, AppState.onScriptStep, AppState.modifyLog,
    modifyShown_confined hrouted]
  simp only [modifyActive_eq_self]
  have htab : ∀ tab : QueryTab, ({ tab with script := tab.script.map fun run =>
      { run with steps := run.steps ++ [step] } } = tab) ↔ tab.script = none := by
    have hgrown : ∀ run : ScriptRun, { run with steps := run.steps ++ [step] } ≠ run := fun run heq => by
      simpa using congrArg (fun r : ScriptRun => r.steps.length) heq
    rintro ⟨pane, ns, plan, script, result⟩
    cases script with
    | none => simp
    | some run => simp [hgrown run]
  simp only [htab]
  exact ⟨fun h c tab hc hne htab => h c hc hne tab htab, fun h c hc hne tab htab => h c tab hc hne htab⟩

/-- What a handler does on the connection of `id` only. -/
structure Touches (id : SessionId) (s t : AppState) : Prop where
  routed : t.Routed
  foreground : t.foregroundSession = s.foregroundSession
  others : ∀ other, other ≠ id → t.connFor (some other) = s.connFor (some other)
  sent : ∀ m ∈ t.outbox, m ∈ s.outbox ∨ m.session = some id

variable {id : SessionId} {u : AppState}

theorem Touches.trans (h : Touches id s t) (h' : Touches id t u) : Touches id s u where
  routed := h'.routed
  foreground := h'.foreground.trans h.foreground
  others := fun other hne => (h'.others other hne).trans (h.others other hne)
  sent := fun m hm => (h'.sent m hm).elim (h.sent m) Or.inr

theorem touches_modifyConn (hrouted : s.Routed) (hf : ∀ c, (f c).session = c.session) :
    Touches id s (s.modifyConn (some id) f) := by
  refine ⟨hrouted.modifyConn hf _, ?_, ?_, fun m hm => .inl (by simpa using hm)⟩
  · unfold AppState.modifyConn
    dsimp only
    split
    · rfl
    · split <;> rfl
  · exact modifyConn_confined id |>.mpr fun hne => absurd rfl hne

theorem touches_modifyShown (hrouted : s.Routed) (hforeground : s.foregroundSession = some id)
    (hf : ∀ c, (f c).session = c.session) : Touches id s (s.modifyShown f) := by
  refine ⟨hrouted.modifyShown hf, ?_, ?_, fun m hm => .inl (by simpa using hm)⟩
  · unfold AppState.modifyShown
    split <;> rfl
  · refine (modifyShown_confined hrouted).mpr fun c hc hne => ?_
    exact absurd (Option.some.inj ((hrouted.shown c hc).1.symm.trans hforeground)) hne

theorem touches_sendActive (hrouted : s.Routed) (hforeground : s.foregroundSession = some id)
    (command : Command) : Touches id s (s.sendActive command) := by
  refine ⟨hrouted.sendActive command, ?_, fun other hne => ?_, fun m hm => ?_⟩
  · unfold AppState.sendActive
    split <;> rfl
  · unfold AppState.sendActive
    split <;> rfl
  · rw [sendActive_outbox, hforeground] at hm
    rcases List.mem_append.mp hm with hm | hm
    · exact .inl hm
    · obtain rfl := List.mem_singleton.mp hm
      exact .inr rfl

theorem touches_openResult (hrouted : s.Routed) (hforeground : s.foregroundSession = some id)
    (label sql : Bytes) (table : Option (Bytes × Bytes)) :
    Touches id s (s.openResult label sql table) := by
  have hrefl : Touches id s s := ⟨hrouted, rfl, fun _ _ => rfl, fun m hm => .inl hm⟩
  unfold AppState.openResult
  split
  · exact hrefl
  split
  · exact hrefl
  have hopen := touches_modifyShown (f := fun c => c.modifyActive fun tab =>
    { tab with plan := none, result := some ⟨label, sql, table, s.nextEpoch⟩ }) hrouted hforeground
    fun c => ActiveConn.modifyActive_session
  have hcounted : Touches id s { s.modifyShown (fun c => c.modifyActive fun tab =>
      { tab with plan := none, result := some ⟨label, sql, table, s.nextEpoch⟩ }) with
      nextEpoch := s.nextEpoch + 1 } :=
    ⟨hopen.routed.congr rfl rfl rfl rfl, hopen.foreground, hopen.others, hopen.sent⟩
  have hsend : ∀ {t : AppState} (_ : Touches id s t) (command : Command),
      Touches id s (t.sendActive command) := fun ht command =>
    ht.trans (touches_sendActive ht.routed (ht.foreground.trans hforeground) command)
  dsimp only
  split
  · split
    · exact hsend hcounted _
    · exact hsend (hsend hcounted _) _
  · exact hsend hcounted _

/-- The handler of a script's end works on the foreground connection. -/
theorem touches_onScriptDone (hrouted : s.Routed) (hforeground : s.foregroundSession = some id)
    (ran failed : Nat) (trailingRead : Option Bytes) :
    Touches id s (s.onScriptDone r ran failed trailingRead) := by
  have hquiet : Touches id s (s.setInFlight (some id) false) :=
    touches_modifyConn hrouted fun _ => rfl
  have hlog := hquiet.trans (touches_modifyShown (f := fun c => c.modifyActive fun tab =>
    { tab with script := tab.script.map fun run => { run with summary := some ⟨ran, failed⟩ } })
    hquiet.routed (hquiet.foreground.trans hforeground) fun c => ActiveConn.modifyActive_session)
  unfold AppState.onScriptDone
  rw [hforeground]
  dsimp only
  split
  · exact hlog
  have hclosed := hlog.trans (touches_modifyShown
    (f := fun c => c.modifyActive fun tab => { tab with script := none })
    hlog.routed (hlog.foreground.trans hforeground) fun c => ActiveConn.modifyActive_session)
  exact hclosed.trans (touches_openResult hclosed.routed (hclosed.foreground.trans hforeground) _ _ _)

theorem quieted_eq_self : { c with writeInFlight := false } = c ↔ c.writeInFlight = false := by
  constructor
  · intro heq
    exact (congrArg ActiveConn.writeInFlight heq).symm
  · intro hquiet
    rw [← hquiet]

/-- Settling a log and the mark changes nothing just where both are settled already. -/
theorem settled_eq_self :
    ActiveConn.modifyActive { c with writeInFlight := false } g = c ↔
      c.writeInFlight = false ∧ ∀ tab, c.active = some tab → g tab = tab := by
  constructor
  · intro heq
    have hquiet : c.writeInFlight = false := by
      have hmark := congrArg ActiveConn.writeInFlight heq
      rw [ActiveConn.modifyActive_writeInFlight] at hmark
      exact hmark.symm
    rw [quieted_eq_self.mpr hquiet] at heq
    exact ⟨hquiet, modifyActive_eq_self.mp heq⟩
  · rintro ⟨hquiet, hsame⟩
    rw [quieted_eq_self.mpr hquiet]
    exact modifyActive_eq_self.mpr hsame

theorem summarized_eq_self {tab : QueryTab} {summary : ScriptSummary} :
    { tab with script := tab.script.map fun run => { run with summary := some summary } } = tab ↔
      ∀ run, tab.script = some run → run.summary = some summary := by
  obtain ⟨pane, ns, plan, script, result⟩ := tab
  cases script with
  | none => simp
  | some run =>
    obtain ⟨total, steps, was⟩ := run
    simp [eq_comm]

/-- A change to the focused tab that leaves it in its pane leaves it the focused one. -/
theorem modifyActive_active (hg : ∀ tab, (g tab).pane = tab.pane) :
    (c.modifyActive g).active = c.active.map g := by
  have hpanes : ∀ i, (c.tabs.modify i g).map QueryTab.pane = c.tabs.map QueryTab.pane := by
    intro i
    refine List.ext_getElem? fun j => ?_
    rw [List.getElem?_map, List.getElem?_map, List.getElem?_modify]
    by_cases hj : i = j
    · subst hj
      cases c.tabs[i]? <;> simp [hg]
    · simp [hj]
  have hfirst : ∀ (tabs : List QueryTab) (pane : PaneId),
      (tabs.findIdx? fun t => t.pane == pane) = (tabs.map QueryTab.pane).findIdx? (· == pane) := by
    intro tabs pane
    rw [List.findIdx?_map]
    rfl
  have hany : ∀ (tabs : List QueryTab) (i : Nat) (pane : PaneId),
      ((tabs[i]?).any fun t => t.pane == pane) = ((tabs.map QueryTab.pane)[i]?).any (· == pane) := by
    intro tabs i pane
    rw [List.getElem?_map]
    cases tabs[i]? <;> rfl
  have hindex : (c.modifyActive g).focusedTabIndex = c.focusedTabIndex := by
    unfold ActiveConn.modifyActive
    split
    · unfold ActiveConn.focusedTabIndex ActiveConn.paneActive ActiveConn.firstTabIn
      simp only [hfirst, hany, hpanes]
    · rfl
  unfold ActiveConn.active
  rw [hindex]
  unfold ActiveConn.modifyActive
  cases hi : c.focusedTabIndex with
  | none => rfl
  | some i => simp

theorem modifyShown_hidden (hshown : s.shown = none) : s.modifyShown f = s := by
  unfold AppState.modifyShown
  split
  next c hc => cases hshown.symm.trans (AppState.shown_eq_some.mpr hc)
  · rfl

theorem modifyConn_hidden (hshown : s.shown = none) (session : Option SessionId) :
    (s.modifyConn session f).shown = none := by
  cases session with
  | none => exact hshown
  | some id =>
    have hscreen : s.onScreen id = none := by
      unfold AppState.onScreen
      split
      · exact hshown
      · rfl
    unfold AppState.modifyConn
    dsimp only
    rw [hscreen]
    dsimp only
    split <;> exact hshown

theorem openResult_hidden (hshown : s.shown = none) (label sql : Bytes)
    (table : Option (Bytes × Bytes)) : s.openResult label sql table = s := by
  unfold AppState.openResult
  rw [hshown]

/-- With no connection on screen, only the mark of a parked one is taken back. -/
theorem onScriptDone_hidden (hshown : s.shown = none) (ran failed : Nat) (trailingRead : Option Bytes) :
    s.onScriptDone r ran failed trailingRead = s.setInFlight s.foregroundSession false := by
  have hquiet : (s.setInFlight s.foregroundSession false).shown = none := modifyConn_hidden hshown _
  unfold AppState.onScriptDone AppState.modifyLog
  rw [modifyShown_hidden hquiet]
  cases trailingRead with
  | none => rfl
  | some sql =>
    dsimp only
    rw [modifyShown_hidden hquiet, openResult_hidden hquiet]

/-- The connection on screen, with the mark of its write and the log of its focused tab settled. -/
theorem settled_shown {ran failed : Nat} (hphase : s.phase = .connected c)
    (hforeground : s.foregroundSession = some c.session) :
    ((s.setInFlight s.foregroundSession false).modifyLog fun run =>
        { run with summary := some ⟨ran, failed⟩ }) =
      { s with phase := .connected (ActiveConn.modifyActive { c with writeInFlight := false }
        fun tab => { tab with script := tab.script.map fun run =>
          { run with summary := some ⟨ran, failed⟩ } }) } := by
  have hscreen : s.onScreen c.session = some c := AppState.onScreen_eq_some.mpr ⟨hforeground, hphase⟩
  have hquiet : s.setInFlight (some c.session) false =
      { s with phase := .connected { c with writeInFlight := false } } := by
    rw [AppState.setInFlight, AppState.modifyConn, hscreen]
  rw [(congrArg (fun session => s.setInFlight session false) hforeground).trans hquiet]
  rfl

theorem sendActive_ne_nil {command : Command} (hforeground : s.foregroundSession = some id) :
    (s.sendActive command).outbox ≠ [] := by
  simp [sendActive_outbox, hforeground]

theorem openResult_ne_nil {label sql : Bytes} {table : Option (Bytes × Bytes)}
    (hphase : s.phase = .connected c) (hactive : c.active ≠ none)
    (hforeground : s.foregroundSession = some id) : (s.openResult label sql table).outbox ≠ [] := by
  have hshown : s.shown = some c := AppState.shown_eq_some.mpr hphase
  have hsome : c.active.isNone = false := by simpa [Option.isSome_iff_ne_none] using hactive
  have hkept : ∀ {t : AppState} (command : Command), t.foregroundSession = some id →
      (t.sendActive command).foregroundSession = some id := by
    intro t command ht
    unfold AppState.sendActive
    split <;> exact ht
  have hopened : ∀ f : ActiveConn → ActiveConn, (s.modifyShown f).foregroundSession = some id := by
    intro f
    unfold AppState.modifyShown
    split <;> exact hforeground
  unfold AppState.openResult
  rw [hshown]
  dsimp only
  rw [hsome, if_neg Bool.false_ne_true]
  split
  · split
    · exact sendActive_ne_nil (hopened _)
    · exact sendActive_ne_nil (hkept _ (hopened _))
  · exact sendActive_ne_nil (hopened _)

/-- Of a handler that works on one connection, what is confined to another. -/
theorem Touches.confined_iff (htouches : Touches id s t) (hout : s.outbox = []) (hne : id ≠ session) :
    Confined session s t ↔ t.connFor (some id) = s.connFor (some id) ∧ t.outbox = [] := by
  constructor
  · rintro ⟨hothers, hsent⟩
    refine ⟨hothers id hne, List.eq_nil_iff_forall_not_mem.mpr fun m hm => ?_⟩
    have hid := (htouches.sent m hm).resolve_left (by simp [hout])
    exact hne (Option.some.inj (hid.symm.trans (hsent m hm)))
  · rintro ⟨hconn, hnil⟩
    refine ⟨fun other _ => ?_, fun m hm => by simp [hnil] at hm⟩
    by_cases he : other = id
    · rw [he, hconn]
    · exact htouches.others other he

theorem hidden_iff (hout : s.outbox = []) :
    ((s.setInFlight (some id) false).connFor (some id) = s.connFor (some id) ∧
        (s.setInFlight (some id) false).outbox = []) ↔
      ∀ c, s.connFor (some id) = some c → c.writeInFlight = false := by
  have hnil : (s.setInFlight (some id) false).outbox = [] := by
    rw [AppState.setInFlight, modifyConn_outbox, hout]
  rw [and_iff_left hnil, AppState.setInFlight, AppState.connFor_modifyConn, if_pos rfl]
  cases hconn : s.connFor (some id) with
  | none => simp
  | some c =>
    rw [Option.map_some, Option.some_inj, quieted_eq_self]
    simp

theorem connFor_put (d : ActiveConn) (hforeground : s.foregroundSession = some id) :
    { s with phase := .connected d }.connFor (some id) = some d :=
  AppState.connFor_onScreen (AppState.onScreen_eq_some.mpr ⟨hforeground, rfl⟩)

theorem modifyShown_put (d : ActiveConn) :
    { s with phase := .connected d }.modifyShown f = { s with phase := .connected (f d) } := rfl

/-- The reply leaves the connection on screen as it was just where there is nothing to settle and
no tab for a trailing read. -/
theorem shown_iff (hphase : s.phase = .connected c) (hforeground : s.foregroundSession = some c.session)
    (hout : s.outbox = []) (ran failed : Nat) (trailingRead : Option Bytes) :
    ((s.onScriptDone r ran failed trailingRead).connFor (some c.session) = s.connFor (some c.session) ∧
        (s.onScriptDone r ran failed trailingRead).outbox = []) ↔
      c.writeInFlight = false ∧ ∀ tab, c.active = some tab →
        trailingRead = none ∧ ∀ run, tab.script = some run → run.summary = some ⟨ran, failed⟩ := by
  have hconn : s.connFor (some c.session) = some c :=
    AppState.connFor_onScreen (AppState.onScreen_eq_some.mpr ⟨hforeground, hphase⟩)
  unfold AppState.onScriptDone
  dsimp only
  rw [settled_shown hphase hforeground, hconn]
  cases trailingRead with
  | none =>
    dsimp only
    rw [connFor_put _ hforeground, and_iff_left hout, Option.some_inj, settled_eq_self]
    simp [summarized_eq_self]
  | some sql =>
    dsimp only
    rw [modifyShown_put]
    -- A change to the focused tab changes nothing where there is none.
    have hquiet : ({ c with writeInFlight := false } : ActiveConn).active = c.active := rfl
    cases hactive : c.active with
    | none =>
      have hsame : ∀ g : QueryTab → QueryTab,
          ActiveConn.modifyActive { c with writeInFlight := false } g =
            { c with writeInFlight := false } := fun g =>
        modifyActive_eq_self.mpr fun tab htab => by cases hactive.symm.trans (hquiet.symm.trans htab)
      rw [hsame, hsame, AppState.openResult]
      dsimp only [AppState.shown]
      rw [hquiet, hactive, Option.isNone_none, if_pos rfl, connFor_put _ hforeground, and_iff_left hout,
        Option.some_inj, quieted_eq_self]
      simp
    | some tab =>
      refine iff_of_false (fun ⟨_, hnil⟩ => ?_) fun ⟨_, hnone⟩ => by cases (hnone tab rfl).1
      refine absurd hnil (openResult_ne_nil rfl ?_ hforeground)
      rw [modifyActive_active, modifyActive_active, hquiet, hactive]
      · exact Option.some_ne_none _
      · exact fun _ => rfl
      · exact fun _ => rfl

theorem onScriptDone_iff (hrouted : s.Routed) (hout : s.outbox = []) (ran failed : Nat)
    (trailingRead : Option Bytes) : Confined session s (s.onScriptDone r ran failed trailingRead) ↔
      DoneUnseen s session ⟨ran, failed⟩ trailingRead := by
  cases hforeground : s.foregroundSession with
  | none =>
    have hshown : s.shown = none := by
      cases hc : s.shown with
      | none => rfl
      | some c =>
        have hphase := AppState.shown_eq_some.mp hc
        cases hforeground.symm.trans (hrouted.shown c hphase).1
    rw [onScriptDone_hidden hshown, hforeground]
    refine iff_of_true ⟨fun _ _ => rfl, fun m hm => ?_⟩ fun id hid => by
      cases hforeground.symm.trans hid
    exact absurd hm (by rw [AppState.setInFlight, modifyConn_outbox, hout]; exact List.not_mem_nil)
  | some id =>
    have htouches := touches_onScriptDone (r := r) hrouted hforeground ran failed trailingRead
    by_cases hne : id = session
    · subst hne
      refine iff_of_true ⟨htouches.others, fun m hm => ?_⟩ fun other hother hne => ?_
      · exact (htouches.sent m hm).resolve_left (by simp [hout])
      · exact absurd (Option.some.inj (hother.symm.trans hforeground)) hne
    have hunseen : DoneUnseen s session ⟨ran, failed⟩ trailingRead ↔
        (∀ c, s.connFor (some id) = some c → c.writeInFlight = false) ∧
        ∀ c tab, s.phase = .connected c → c.active = some tab →
          trailingRead = none ∧ ∀ run, tab.script = some run → run.summary = some ⟨ran, failed⟩ := by
      constructor
      · exact fun h => h id hforeground hne
      · intro h other hother _
        obtain ⟨rfl⟩ := hforeground.symm.trans hother
        exact h
    rw [htouches.confined_iff hout hne, hunseen]
    cases hshown : s.shown with
    | none =>
      rw [onScriptDone_hidden hshown, hforeground, hidden_iff hout]
      refine (and_iff_left fun c tab hc => ?_).symm
      cases hshown.symm.trans (AppState.shown_eq_some.mpr hc)
    | some c =>
      have hphase := AppState.shown_eq_some.mp hshown
      have hc := (hrouted.shown c hphase).1
      obtain ⟨rfl⟩ := hc.symm.trans hforeground
      have hconn : s.connFor (some c.session) = some c :=
        AppState.connFor_onScreen (AppState.onScreen_eq_some.mpr ⟨hc, hphase⟩)
      refine (shown_iff hphase hc hout ran failed trailingRead).trans (and_congr ⟨?_, ?_⟩ ⟨?_, ?_⟩)
      · intro hquiet d hd
        obtain ⟨rfl⟩ := hconn.symm.trans hd
        exact hquiet
      · exact fun hall => hall c hconn
      · intro hall d tab hd
        obtain rfl : c = d := Phase.connected.inj (hphase.symm.trans hd)
        exact hall tab
      · exact fun hall tab => hall c tab hphase

/-! ## Answers -/

theorem confirmDestructive_iff (hout : s.outbox = []) {p : PendingConfirm} (hp : s.confirmExec = some p) :
    Delivered s p.session (s.confirmDestructive r).outbox ↔
      (s.confirmTargetMatches = true → s.confirmHasWork = true → Aimed r s p.session p.write) := by
  unfold AppState.confirmDestructive
  split
  next hrefused =>
    rw [hout]
    refine iff_of_true delivered_nil fun hmatches hwork => ?_
    simp [hmatches, hwork] at hrefused
  next hgranted =>
    rw [hp]
    obtain ⟨hmatches, hwork⟩ : s.confirmTargetMatches = true ∧ s.confirmHasWork = true := by
      simpa using hgranted
    exact (dispatch_iff (s := { s with confirmInput := none, confirmExec := none }) hout p.write).trans
      ⟨fun haimed _ _ => haimed, fun haimed => haimed hmatches hwork⟩

theorem confirmCopy_iff (hout : s.outbox = []) (mode : CopyMode) {p : PendingConfirm}
    (hp : s.confirmExec = some p) : Delivered s p.session (s.confirmCopy mode).outbox ↔
      ∀ id sourceEpoch target targetSession mapping mode create,
        p.write = .copy id sourceEpoch target targetSession mapping mode create →
        Aimed r s p.session p.write := by
  unfold AppState.confirmCopy
  rw [hp]
  obtain ⟨owner, write⟩ := p
  cases write with
  | copy id sourceEpoch target targetSession mapping was create =>
    refine (delivered_sendActive (t := { s with confirmExec := none }) hout rfl).trans
      ⟨fun haimed _ _ _ _ _ _ _ _ => haimed, fun haimed => ?_⟩
    exact haimed id sourceEpoch target targetSession mapping was create rfl
  | editorSql | script | batch | importFile | killSession | transfer =>
    dsimp only
    rw [hout]
    refine iff_of_true delivered_nil ?_
    rintro _ _ _ _ _ _ _ ⟨⟩

/-! ## Runs -/

theorem promised_iff {w : World} (hrouted : w.app.Routed) (e : Event) :
    Promised r w e ↔ OnTarget r w e := by
  have hcleared : ({ w.app with outbox := [] } : AppState).Routed := hrouted.congr rfl rfl rfl rfl
  have hguarded {g : Prop} [Decidable g] {v : World} {P : World → Prop} :
      (∀ w', (if g then some v else none) = some w' → P w') ↔ (g → P v) := by simp
  cases e with
  | confirm =>
    have hiff : Promised r w .confirm ↔ ∀ p, w.app.confirmExec = some p →
        Delivered w.app p.session (handle r { w.app with outbox := [] } .confirm).outbox :=
      ⟨fun hkept => hkept _ rfl, fun hkept w' hstep => by cases hstep; exact hkept⟩
    rw [hiff, OnTarget]
    constructor
    · intro hsent hmatches hwork p hp
      exact (confirmDestructive_iff (s := { w.app with outbox := [] }) rfl hp).mp (hsent p hp) hmatches hwork
    · intro haimed p hp
      refine (confirmDestructive_iff (r := r) (s := { w.app with outbox := [] }) rfl hp).mpr ?_
      exact fun hmatches hwork => haimed hmatches hwork p hp
  | confirmCopy mode =>
    have hiff : Promised r w (.confirmCopy mode) ↔ ∀ p, w.app.confirmExec = some p →
        Delivered w.app p.session (handle r { w.app with outbox := [] } (.confirmCopy mode)).outbox :=
      ⟨fun hkept => hkept _ rfl, fun hkept w' hstep => by cases hstep; exact hkept⟩
    rw [hiff, OnTarget]
    exact forall₂_congr fun p hp => confirmCopy_iff (s := { w.app with outbox := [] }) rfl mode hp
  | scriptStep session step =>
    exact hguarded.trans (imp_congr_right fun _ => onScriptStep_iff hcleared rfl step)
  | scriptDone session ran failed trailingRead =>
    exact hguarded.trans
      (imp_congr_right fun _ => onScriptDone_iff (r := r) hcleared rfl ran failed trailingRead)
  | _ => exact iff_of_true (fun _ _ => trivial) trivial

/-- **Confirmed writes.** The runs at whose every step the promise is kept are those at whose every
step the condition holds. -/
theorem confirmed_iff (r : Readings) (events : List Event) :
    Machine.Meets (step r) (Promised r) .init events ↔ Machine.Meets (step r) (OnTarget r) .init events :=
  Machine.meets_iff_of_inv (I := fun w : World => w.app.Routed) (fun _ _ _ hw hstep => routed_step hw hstep)
    (fun _ e hw => promised_iff hw e) AppState.Routed.init

/-! ## The next connection -/

def plainly : Readings := ⟨fun _ => none, fun _ => none, fun _ => false⟩

def mysqlOn (database : String) : ConnectionConfig := ⟨.mysql, false, ascii database⟩

def emptyTables : List Bytes := [ascii "TRUNCATE orders", ascii "TRUNCATE payments"]

/-- A script is asked about on the second of two connections, which then goes away. -/
def scratchGone : List Event :=
  [.switchTo (ascii "a") (mysqlOn "production"), .connected 1,
    .switchTo (ascii "b") (mysqlOn "scratch"), .connected 2,
    .askAbout (.script emptyTables) none, .disconnected 2]

/-- Confirming it runs it on the first. -/
theorem script_on_the_next :
    ¬ Machine.Meets (step plainly) (Promised plainly) .init (scratchGone ++ [.confirm]) ∧
      (Machine.run (step plainly) .init (scratchGone ++ [.confirm])).map (fun w => w.app.outbox) =
        some [⟨some 1, .runScript emptyTables (some (ascii "production")) .onError⟩] := by
  refine ⟨fun hmeets => ?_, by decide⟩
  have hlast := ((Machine.meets_append.mp hmeets).2 _ rfl).1
  have hsent := hlast _ rfl ⟨2, .script emptyTables⟩ rfl
  have hsession := (hsent ⟨some 1, .runScript emptyTables (some (ascii "production")) .onError⟩
    (by decide)).1
  cases hsession

end RedDb.App
