import RedDb.App.State
import Mathlib.Data.List.MinMax

/-!
# RedDb — sessions

Connections come and go: one is dialled while the last is parked, a parked one is brought
back, the one on screen disconnects and the most recent parked one takes its place. At most
eight are kept parked; beyond that the one that was longest away is closed.

* `Routed` — a live connection is kept once, under its own session;
* `Routed.onConnected`, `Routed.onDisconnected`, … — and stays so, whichever step is taken;
* `evictLruParked_room` — the evictions make room for one more.
-/

namespace RedDb.App

open ByteText

/-- `MAX_PARKED_SESSIONS`. -/
def maxParkedSessions : Nat := 8

namespace AppState

variable (s : AppState)

/-! ## Parking -/

/-- The parked session that was on screen last. -/
def parkedMru : Option SessionId :=
  (s.parked.entries.argmax fun e => e.2.lastActiveSeq).map Sigma.fst

def parkedFull : Bool := decide (maxParkedSessions ≤ s.parked.entries.length)

/-- Close the parked session that was on screen longest ago. -/
def evictOne : AppState :=
  match s.parked.entries.argmin fun e => e.2.lastActiveSeq with
  | some e => { s with parked := s.parked.erase e.1 }.sendTo e.1 .closeSession
  | none => s

/-- Until there is room for one more. -/
def evictLruParked : AppState :=
  WhileLoop.run parkedFull evictOne s.parked.entries.length s

/-- Park the connection on screen; what takes its place is the caller's. -/
def parkForeground : AppState × Option SessionId :=
  match s.phase with
  | .connected c =>
    let t := evictLruParked
      { s with phase := .disconnected, nextActiveSeq := s.nextActiveSeq + 1 }
    ({ t with parked := t.parked.insert c.session { c with lastActiveSeq := t.nextActiveSeq } },
      some c.session)
  | _ => (s, none)

/-- Bring a parked session to the foreground, and whether it was there to bring. -/
def foregroundParked (id : SessionId) : AppState × Bool :=
  match s.parked.lookup id with
  | none => (s, false)
  | some c =>
    ({ s with parked := s.parked.erase id, foregroundSession := some id, phase := .connected c
        }.sendGlobal (.setActiveSession (some id)), true)

/-! ## Connecting -/

/-- No connection on screen. -/
def showWelcome : AppState :=
  { s.sendGlobal (.setActiveSession none) with phase := .disconnected }

def startConnect (connId : Bytes) (config : ConnectionConfig) : AppState :=
  let (t, previous) := s.parkForeground
  let session := t.nextSessionId + 1
  let t := { t with nextSessionId := session, foregroundSession := some session }
  let t := (t.sendTo session (.connect config)).sendGlobal (.setActiveSession (some session))
  { t with phase := .connecting ⟨session, connId, config, previous⟩ }

/-- `Event::Connected`; a session that nobody waits for is closed. The loads a fresh workspace
starts with are left out. -/
def onConnected (id : SessionId) : AppState :=
  match s.phase with
  | .connecting k =>
    if k.session = id then
      { s with phase := .connected (.new id k.connId k.config), foregroundSession := some id }
    else s.sendTo id .closeSession
  | _ => s.sendTo id .closeSession

/-- `Event::Disconnected`; where that was the session on screen, the most recent parked one
comes to the foreground. -/
def onDisconnected (id : SessionId) : AppState :=
  let s := { s with parked := s.parked.erase id }
  if s.foregroundSession = some id then
    let s := { s with foregroundSession := none }
    match s.parkedMru with
    | some other => (s.foregroundParked other).1
    | none => s.showWelcome
  else s

/-- The connection that was on screen before, if it is parked still. -/
def restore (previous : Option SessionId) : AppState :=
  match previous with
  | some id => if (s.foregroundParked id).2 then (s.foregroundParked id).1 else s.showWelcome
  | none => s.showWelcome

/-- Abandon the session that is being dialled. -/
def cancelConnect : AppState :=
  let (s, previous) := match s.phase with
    | .connecting k => (s.sendTo k.session .closeSession, k.previous)
    | _ => (s, none)
  { s with foregroundSession := none }.restore previous

/-- `disconnect`: close everything, for the welcome screen. -/
def disconnectAll : AppState :=
  let s := s.parked.keys.foldl (fun t id => t.sendTo id .closeSession) s
  let s := { s with parked := ∅ }
  let s := match s.foregroundSession with
    | some id => s.sendTo id .disconnect
    | none => s
  { s with foregroundSession := none }.showWelcome

/-! ## Switching -/

def switchToWarm (id : SessionId) : AppState := (s.parkForeground.1.foregroundParked id).1

def switchToPrevious : AppState :=
  match s.parkedMru with
  | some id => s.switchToWarm id
  | none => s

/-- To a saved connection, by its id: the one on screen stays, a parked one is brought back,
any other is dialled. -/
def switchToConnection (connId : Bytes) (config : ConnectionConfig) : AppState :=
  if s.shown.any fun c => c.connId == connId then s
  else
    match s.parked.entries.find? fun e => e.2.connId == connId with
    | some e => s.switchToWarm e.1
    | none => s.startConnect connId config

/-! ## One place for each connection -/

/-- Parked connections are kept under their own sessions, which are minted ones. -/
def Kept (parked : Parked) (minted : Nat) : Prop :=
  ∀ id c, parked.lookup id = some c → c.session = id ∧ id ≤ minted

/-- A live connection is kept under its own session, on screen or parked but not both, and no
session is in use before it is minted. -/
structure Routed : Prop where
  shown : ∀ c, s.phase = .connected c →
    s.foregroundSession = some c.session ∧ s.parked.lookup c.session = none
  dialling : ∀ k, s.phase = .connecting k →
    s.foregroundSession = some k.session ∧ s.parked.lookup k.session = none
  kept : Kept s.parked s.nextSessionId
  minted : ∀ id, s.foregroundSession = some id → id ≤ s.nextSessionId

variable {s} {t : AppState} {id : SessionId} {c : ActiveConn} {parked : Parked} {n : Nat}

theorem Kept.empty (n : Nat) : Kept ∅ n := by
  intro id c h
  simp at h

theorem Kept.erase (h : Kept parked n) (id : SessionId) : Kept (parked.erase id) n := by
  intro other c hlookup
  by_cases he : other = id
  · subst he
    simp at hlookup
  · rw [AList.lookup_erase_ne he] at hlookup
    exact h other c hlookup

theorem Kept.insert (h : Kept parked n) (hsession : c.session = id) (hid : id ≤ n) :
    Kept (parked.insert id c) n := by
  intro other d hlookup
  by_cases he : other = id
  · subst he
    rw [AList.lookup_insert] at hlookup
    cases hlookup
    exact ⟨hsession, hid⟩
  · rw [AList.lookup_insert_ne he] at hlookup
    exact h other d hlookup

theorem lookup_of_mem_entries {e : Σ _ : SessionId, ActiveConn} (h : e ∈ parked.entries) :
    parked.lookup e.1 = some e.2 := AList.mem_lookup_iff.mpr h

theorem lookup_of_parkedMru (h : s.parkedMru = some id) : ∃ c, s.parked.lookup id = some c := by
  obtain ⟨e, he, rfl⟩ := Option.map_eq_some_iff.mp h
  exact ⟨e.2, lookup_of_mem_entries (List.argmax_mem he)⟩

theorem Routed.init : init.Routed where
  shown := fun c h => by cases h
  dialling := fun k h => by cases h
  kept := Kept.empty _
  minted := fun id h => by cases h

/-- What is written beside the connections leaves them where they are. -/
theorem Routed.congr (h : s.Routed) (hphase : t.phase = s.phase)
    (hforeground : t.foregroundSession = s.foregroundSession) (hparked : t.parked = s.parked)
    (hnext : t.nextSessionId = s.nextSessionId) : t.Routed where
  shown := by simpa only [hphase, hforeground, hparked] using h.shown
  dialling := by simpa only [hphase, hforeground, hparked] using h.dialling
  kept := by simpa only [hparked, hnext] using h.kept
  minted := by simpa only [hforeground, hnext] using h.minted

theorem Routed.sendTo (h : s.Routed) (id : SessionId) (command : Command) :
    (s.sendTo id command).Routed := h.congr rfl rfl rfl rfl

theorem Routed.sendActive (h : s.Routed) (command : Command) : (s.sendActive command).Routed := by
  unfold AppState.sendActive
  split
  · exact h.sendTo _ command
  · exact h

theorem Routed.modifyConn {f : ActiveConn → ActiveConn} (h : s.Routed)
    (hf : ∀ c, (f c).session = c.session) (session : Option SessionId) :
    (s.modifyConn session f).Routed := by
  unfold AppState.modifyConn
  cases session with
  | none => exact h
  | some id =>
    dsimp only
    split
    next c hscreen =>
      obtain ⟨hid, hphase⟩ := onScreen_eq_some.mp hscreen
      refine ⟨?_, fun k hk => ?_, h.kept, h.minted⟩
      · rintro d ⟨⟩
        rw [hf]
        exact h.shown c hphase
      · cases hk
    next hscreen =>
      split
      next c hlookup =>
        obtain ⟨hsession, hle⟩ := h.kept id c hlookup
        have hother : ∀ other, s.parked.lookup other = none →
            (s.parked.insert id (f c)).lookup other = none := by
          intro other hnone
          have hne : other ≠ id := by
            rintro rfl
            cases hnone.symm.trans hlookup
          rw [AList.lookup_insert_ne hne]
          exact hnone
        exact ⟨fun d hd => ⟨(h.shown d hd).1, hother _ (h.shown d hd).2⟩,
          fun k hk => ⟨(h.dialling k hk).1, hother _ (h.dialling k hk).2⟩,
          h.kept.insert ((hf c).trans hsession) hle, h.minted⟩
      · exact h

theorem Routed.modifyShown {f : ActiveConn → ActiveConn} (h : s.Routed)
    (hf : ∀ c, (f c).session = c.session) : (s.modifyShown f).Routed := by
  rw [modifyShown_eq fun c hc => (h.shown c hc).1]
  split
  · exact h.modifyConn hf _
  · exact h

/-! ## Parking keeps it -/

/-- Eviction only takes connections away. -/
structure Shed (s t : AppState) : Prop where
  phase : t.phase = s.phase
  foreground : t.foregroundSession = s.foregroundSession
  next : t.nextSessionId = s.nextSessionId
  parked : ∀ id c, t.parked.lookup id = some c → s.parked.lookup id = some c

theorem Shed.refl (s : AppState) : Shed s s := ⟨rfl, rfl, rfl, fun _ _ h => h⟩

theorem Shed.evictOne (h : Shed s t) : Shed s t.evictOne := by
  unfold AppState.evictOne
  split
  next e he =>
    refine ⟨h.phase, h.foreground, h.next, fun id c hlookup => h.parked id c ?_⟩
    have hne : id ≠ e.1 := by
      rintro rfl
      have hnone := AList.lookup_erase e.1 t.parked
      cases hnone.symm.trans hlookup
    rwa [← AList.lookup_erase_ne hne]
  · exact h

theorem shed_evictLruParked (s : AppState) : Shed s s.evictLruParked := by
  unfold AppState.evictLruParked
  exact (WhileLoop.visits_run _ s).inv (fun t _ h => h.evictOne) (Shed.refl s)

/-- The evictions end with room for one more. -/
theorem evictLruParked_room (s : AppState) : s.evictLruParked.parkedFull = false := by
  have hshrink : ∀ t : AppState, t.parkedFull = true →
      t.evictOne.parked.entries.length < t.parked.entries.length := by
    intro t hfull
    unfold AppState.evictOne
    split
    next e he =>
      have hmem : e.1 ∈ t.parked.keys := List.mem_map_of_mem (List.argmin_mem he)
      have hlength : (t.parked.erase e.1).entries.length = t.parked.entries.length - 1 := by
        have hkeys : (t.parked.erase e.1).keys.length = t.parked.keys.length - 1 := by
          rw [AList.keys_erase, List.length_erase_of_mem hmem]
        simpa [AList.keys, List.keys] using hkeys
      have hpos := List.length_pos_of_mem (List.argmin_mem he)
      show (t.parked.erase e.1).entries.length < _
      omega
    next he =>
      rw [List.argmin_eq_none] at he
      simp [parkedFull, he, maxParkedSessions] at hfull
  exact WhileLoop.run_done (μ := fun t : AppState => t.parked.entries.length) hshrink (Nat.le_refl _)

theorem Routed.parkForeground (h : s.Routed) : s.parkForeground.1.Routed := by
  unfold AppState.parkForeground
  split
  next c hphase =>
    have hshed := shed_evictLruParked
      { s with phase := .disconnected, nextActiveSeq := s.nextActiveSeq + 1 }
    dsimp only at hshed ⊢
    generalize evictLruParked _ = t at hshed ⊢
    have hkept : Kept t.parked t.nextSessionId := by
      intro id d hlookup
      rw [hshed.next]
      exact h.kept id d (hshed.parked id d hlookup)
    have hid := h.minted c.session (h.shown c hphase).1
    refine ⟨fun d hd => ?_, fun k hk => ?_, hkept.insert rfl (hshed.next ▸ hid), ?_⟩
    · cases hshed.phase.symm.trans hd
    · cases hshed.phase.symm.trans hk
    · intro id hforeground
      rw [hshed.next]
      exact h.minted id (hshed.foreground ▸ hforeground)
  · exact h

theorem routed_showWelcome (hkept : Kept s.parked s.nextSessionId)
    (hminted : ∀ id, s.foregroundSession = some id → id ≤ s.nextSessionId) : s.showWelcome.Routed where
  shown := fun c h => by cases h
  dialling := fun k h => by cases h
  kept := hkept
  minted := hminted

/-- A connection that was parked is on screen, and there only. -/
theorem routed_foregroundParked (hkept : Kept s.parked s.nextSessionId)
    (hlookup : s.parked.lookup id = some c) : (s.foregroundParked id).1.Routed := by
  obtain ⟨hsession, hle⟩ := hkept id c hlookup
  unfold AppState.foregroundParked
  rw [hlookup]
  dsimp only
  refine ⟨?_, (fun k hk => by cases hk), hkept.erase id, ?_⟩
  · rintro d ⟨⟩
    rw [hsession]
    exact ⟨rfl, AList.lookup_erase _ _⟩
  · rintro other ⟨⟩
    exact hle

theorem foregroundParked_false (h : (s.foregroundParked id).2 = false) :
    (s.foregroundParked id).1 = s := by
  unfold foregroundParked at h ⊢
  split
  · rfl
  next c hc => simp [hc] at h

theorem lookup_of_foregroundParked (h : (s.foregroundParked id).2 = true) :
    ∃ c, s.parked.lookup id = some c := by
  unfold foregroundParked at h
  cases hlookup : s.parked.lookup id with
  | none => simp [hlookup] at h
  | some c => exact ⟨c, rfl⟩

theorem Routed.foregroundParked (h : s.Routed) (id : SessionId) :
    (s.foregroundParked id).1.Routed := by
  cases hback : (s.foregroundParked id).2 with
  | false => rwa [foregroundParked_false hback]
  | true =>
    obtain ⟨c, hc⟩ := lookup_of_foregroundParked hback
    exact routed_foregroundParked h.kept hc

/-! ## The steps keep it -/

theorem Routed.startConnect (h : s.Routed) (connId : Bytes) (config : ConnectionConfig) :
    (s.startConnect connId config).Routed := by
  have hpark := h.parkForeground
  unfold AppState.startConnect
  generalize s.parkForeground = r at hpark ⊢
  obtain ⟨t, previous⟩ := r
  dsimp only at hpark ⊢
  refine ⟨(fun c hc => by cases hc), ?_, fun id c hlookup => ?_, ?_⟩
  · rintro k ⟨⟩
    refine ⟨rfl, ?_⟩
    -- The session is one more than every session there is.
    cases hlookup : t.parked.lookup (t.nextSessionId + 1) with
    | none => exact hlookup
    | some c =>
      exact absurd (hpark.kept _ c hlookup).2 (Nat.not_succ_le_self _)
  · obtain ⟨hsession, hle⟩ := hpark.kept id c hlookup
    exact ⟨hsession, Nat.le_succ_of_le hle⟩
  · rintro id ⟨⟩
    exact Nat.le_refl _

theorem Routed.onConnected (h : s.Routed) (id : SessionId) : (s.onConnected id).Routed := by
  unfold AppState.onConnected
  split
  next k hphase =>
    split
    next hk =>
      subst hk
      obtain ⟨hforeground, hlookup⟩ := h.dialling k hphase
      refine ⟨?_, (fun k hk => by cases hk), h.kept, ?_⟩
      · rintro c ⟨⟩
        exact ⟨rfl, hlookup⟩
      · rintro other ⟨⟩
        exact h.minted k.session hforeground
    · exact h.sendTo id .closeSession
  · exact h.sendTo id .closeSession

theorem Routed.onDisconnected (h : s.Routed) (id : SessionId) : (s.onDisconnected id).Routed := by
  have hnone : ∀ other, s.parked.lookup other = none → (s.parked.erase id).lookup other = none := by
    intro other hlookup
    by_cases he : other = id
    · rw [he]
      exact AList.lookup_erase _ _
    · rwa [AList.lookup_erase_ne he]
  unfold AppState.onDisconnected
  dsimp only
  split
  · split
    next other hmru =>
      obtain ⟨c, hc⟩ := lookup_of_parkedMru hmru
      exact routed_foregroundParked (h.kept.erase id) hc
    · exact routed_showWelcome (h.kept.erase id) fun _ hid => by cases hid
  · exact ⟨fun c hc => ⟨(h.shown c hc).1, hnone _ (h.shown c hc).2⟩,
      fun k hk => ⟨(h.dialling k hk).1, hnone _ (h.dialling k hk).2⟩, h.kept.erase id, h.minted⟩

theorem routed_restore (hkept : Kept s.parked s.nextSessionId) (hforeground : s.foregroundSession = none)
    (previous : Option SessionId) : (s.restore previous).Routed := by
  have hwelcome : s.showWelcome.Routed :=
    routed_showWelcome hkept fun id hid => by cases hforeground.symm.trans hid
  unfold restore
  split
  · split
    next hid =>
      obtain ⟨c, hc⟩ := lookup_of_foregroundParked hid
      exact routed_foregroundParked hkept hc
    · exact hwelcome
  · exact hwelcome

theorem Routed.cancelConnect (h : s.Routed) : s.cancelConnect.Routed := by
  have hkept : Kept { s with foregroundSession := none }.parked s.nextSessionId := h.kept
  unfold AppState.cancelConnect
  cases s.phase with
  | connecting k =>
    exact routed_restore (s := { s.sendTo k.session .closeSession with foregroundSession := none })
      hkept rfl _
  | disconnected | connected =>
    exact routed_restore (s := { s with foregroundSession := none }) hkept rfl _

theorem Routed.disconnectAll (s : AppState) : s.disconnectAll.Routed := by
  unfold AppState.disconnectAll
  refine routed_showWelcome ?_ fun id hid => by cases hid
  dsimp only
  split
  · exact Kept.empty _
  · exact Kept.empty _

theorem Routed.switchToWarm (h : s.Routed) (id : SessionId) : (s.switchToWarm id).Routed :=
  h.parkForeground.foregroundParked id

theorem Routed.switchToPrevious (h : s.Routed) : s.switchToPrevious.Routed := by
  unfold AppState.switchToPrevious
  split
  · exact h.switchToWarm _
  · exact h

theorem Routed.switchToConnection (h : s.Routed) (connId : Bytes) (config : ConnectionConfig) :
    (s.switchToConnection connId config).Routed := by
  unfold AppState.switchToConnection
  split
  · exact h
  · split
    · exact h.switchToWarm _
    · exact h.startConnect connId config

end AppState

end RedDb.App
