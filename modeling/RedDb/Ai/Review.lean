import Mathlib.Logic.Function.Basic
import RedDb.Lib.Machine

/-!
# RedDb — review transactions

A turn in review-transaction mode runs its writes in a transaction of its own, which it
opens at the first of them and registers under its session. It is committed or rolled
back when the user answers; a turn that ends well arms a deadline that rolls it back if
nobody does. The registry is keyed by session, a deadline by session and conversation.

What is promised of every state is `Held`: a registered transaction has a running turn
of its conversation or a pending deadline armed for it, and no deadline has rolled back
another transaction than its own.

* `held_step_iff` — the steps that keep the promise;
* `held_iff` — and so the runs that keep it throughout;
* `orphan_left` — a turn that fails after its first write, and a deadline that
  outlives its transaction.
-/

namespace RedDb.Ai.Review

abbrev SessionId := Nat
abbrev ConversationId := Nat
abbrev TurnId := Nat

/-- A transaction, numbered in the order they were begun. -/
abbrev Sandbox := Nat

/-! ## The service's state -/

structure SandboxSlot where
  sandbox : Sandbox
  conversation : ConversationId

/-- A running turn. `sandbox` is the handle it has got hold of since it started, and
`opening` says that it waits for the engine to begin one. -/
structure Turn where
  session : SessionId
  conversation : ConversationId
  sandboxMode : Bool
  sandbox : Option Sandbox
  opening : Bool

/-- A timer of `arm_sandbox_deadline`. It knows a session and a conversation only;
`armedFor` is the transaction on the card that was shown with it, for the record. -/
structure Deadline where
  session : SessionId
  conversation : ConversationId
  armedFor : Option Sandbox

/-- A deadline has rolled `sandbox` back. -/
structure Expiry where
  sandbox : Sandbox
  armedFor : Option Sandbox

structure Service where
  connected : SessionId → Bool
  sandboxes : SessionId → Option SandboxSlot
  turns : TurnId → Option Turn
  deadlines : List Deadline
  begun : Nat
  expired : List Expiry

def Service.init : Service := ⟨fun _ => false, fun _ => none, fun _ => none, [], 0, []⟩

/-- How the tool loop of a turn ends. A cancel is an error like another, unless it
comes after the loop has looked for it the last time. -/
inductive Ending where
  | ok
  | error
  | cancelled

def Ending.isOk : Ending → Bool
  | .ok => true
  | _ => false

/-- A resolve or a forget that finds no transaction of its conversation changes
nothing here, and is no action. -/
inductive Action where
  /-- `Connect`: a session under the same id is torn down. -/
  | connect (x : SessionId)
  | connectOutcome (x : SessionId)
  /-- `Disconnect` and `CloseSession`. -/
  | disconnect (x : SessionId)
  | evictIdle (x : SessionId)
  | aiTurn (i : TurnId) (x : SessionId) (c : ConversationId) (sandboxMode : Bool)
  /-- A write of turn `i` passed the gate and needs the transaction. -/
  | openSandbox (i : TurnId)
  /-- `begin_sandbox` returns. -/
  | beginSandbox (i : TurnId) (ok : Bool)
  | finish (i : TurnId) (ending : Ending)
  /-- The user commits or rolls back the one that conversation `c` has at `x`. -/
  | resolve (c : ConversationId) (x : SessionId)
  | forget (c : ConversationId) (x : SessionId)
  /-- The deadline at `k` fires. -/
  | fire (k : Nat)

/-! ## The steps -/

namespace Service

variable (s : Service)

/-- Its answer is not needed here: the transaction is resolved by whoever took it. -/
def takeSandbox (x : SessionId) : Service :=
  { s with sandboxes := Function.update s.sandboxes x none }

/-- `take_sandbox_for_conversation`, where it finds the slot of session `x`. -/
def takeForConversation (c : ConversationId) (x : SessionId) : Option Service :=
  match s.sandboxes x with
  | some slot => if slot.conversation = c then some (s.takeSandbox x) else none
  | none => none

def setTurn (i : TurnId) (t : Option Turn) : Service :=
  { s with turns := Function.update s.turns i t }

def aiTurn (i : TurnId) (x : SessionId) (c : ConversationId) (sandboxMode : Bool) :
    Option Service :=
  if s.turns i = none ∧ s.connected x then
    some (s.setTurn i (some ⟨x, c, sandboxMode, none, false⟩))
  else none

/-- The turn takes over the transaction of its session if its conversation owns it, and
is refused if another does. -/
def openSandbox (i : TurnId) (t : Turn) : Option Service :=
  if t.sandboxMode = true ∧ t.sandbox = none ∧ t.opening = false then
    match s.sandboxes t.session with
    | some slot =>
      if slot.conversation = t.conversation then
        some (s.setTurn i (some { t with sandbox := some slot.sandbox }))
      else some s
    | none => some (s.setTurn i (some { t with opening := true }))
  else none

/-- The engine has begun a transaction or not. One that finds the session taken by now
is rolled back at once. -/
def beginSandbox (i : TurnId) (t : Turn) (ok : Bool) : Option Service :=
  if t.opening = true then
    if ok then
      let s' := { s with begun := s.begun + 1 }
      match s.sandboxes t.session with
      | some _ => some (s'.setTurn i (some { t with opening := false }))
      | none => some { s'.setTurn i (some { t with opening := false, sandbox := some s.begun }) with
          sandboxes := Function.update s.sandboxes t.session (some ⟨s.begun, t.conversation⟩) }
    else some (s.setTurn i (some { t with opening := false }))
  else none

/-- The deadline that the end of turn `t` arms. The card shows what is registered for
the session. -/
def armedBy (t : Turn) (ending : Ending) : List Deadline :=
  match s.sandboxes t.session with
  | some slot =>
    if ending.isOk && t.sandbox.isSome then
      [⟨t.session, t.conversation,
        if slot.conversation = t.conversation then some slot.sandbox else none⟩]
    else []
  | none => []

def finish (i : TurnId) (t : Turn) (ending : Ending) : Option Service :=
  if t.opening = false then
    some { s.setTurn i none with deadlines := s.deadlines ++ s.armedBy t ending }
  else none

/-- The timer looks at the owner before it takes the slot. -/
def fire (k : Nat) (d : Deadline) : Service :=
  let s' := { s with deadlines := s.deadlines.eraseIdx k }
  match s.sandboxes d.session with
  | some slot =>
    if slot.conversation = d.conversation then
      { s'.takeSandbox d.session with expired := s.expired ++ [⟨slot.sandbox, d.armedFor⟩] }
    else s'
  | none => s'

end Service

def step (s : Service) : Action → Option Service
  | .connect x =>
    if s.connected x then
      some { s.takeSandbox x with connected := Function.update s.connected x false }
    else some s
  | .connectOutcome x => some { s with connected := Function.update s.connected x true }
  | .disconnect x => some { s.takeSandbox x with connected := Function.update s.connected x false }
  | .evictIdle x => some { s with connected := Function.update s.connected x false }
  | .aiTurn i x c sandboxMode => s.aiTurn i x c sandboxMode
  | .openSandbox i => (s.turns i).bind fun t => s.openSandbox i t
  | .beginSandbox i ok => (s.turns i).bind fun t => s.beginSandbox i t ok
  | .finish i ending => (s.turns i).bind fun t => s.finish i t ending
  | .resolve c x => s.takeForConversation c x
  | .forget c x => s.takeForConversation c x
  | .fire k => (s.deadlines[k]?).map fun d => s.fire k d

/-! ## The promise -/

def Service.Running (s : Service) (c : ConversationId) : Prop :=
  ∃ i t, s.turns i = some t ∧ t.conversation = c

/-- The deadline will take this transaction, and was armed for it. -/
structure Deadline.IsFor (d : Deadline) (x : SessionId) (slot : SandboxSlot) : Prop where
  session : d.session = x
  conversation : d.conversation = slot.conversation
  armedFor : d.armedFor = some slot.sandbox

def Service.Covered (s : Service) (x : SessionId) (slot : SandboxSlot) : Prop :=
  s.Running slot.conversation ∨ ∃ d ∈ s.deadlines, d.IsFor x slot

structure Held (s : Service) : Prop where
  covered : ∀ x slot, s.sandboxes x = some slot → s.Covered x slot
  aimed : ∀ e ∈ s.expired, e.armedFor = some e.sandbox

/-- The turn's end leaves no transaction of its conversation alone: where there is one
without another turn and without its deadline, the turn ends well, holds a transaction
and is of that very session. -/
def Settles (s : Service) (i : TurnId) (t : Turn) (ending : Ending) : Prop :=
  ∀ x slot, s.sandboxes x = some slot → slot.conversation = t.conversation →
    (∀ j u, j ≠ i → s.turns j = some u → u.conversation ≠ t.conversation) →
    (∀ d ∈ s.deadlines, ¬d.IsFor x slot) →
      ending.isOk = true ∧ t.sandbox.isSome = true ∧ x = t.session

/-- A turn settles what it leaves behind, and a deadline fires on no transaction of its
conversation but the one it was armed for. -/
def Keeps (s : Service) : Action → Prop
  | .finish i ending => ∀ t, s.turns i = some t → t.opening = false → Settles s i t ending
  | .fire k => ∀ d slot, s.deadlines[k]? = some d → s.sandboxes d.session = some slot →
      slot.conversation = d.conversation → d.armedFor = some slot.sandbox
  | _ => True

variable {c : ConversationId} {d : Deadline} {k : Nat} {slot : SandboxSlot} {x : SessionId}
    {u : Turn} {i : TurnId}

section Proofs

variable {s t : Service}

theorem Service.Running.setTurn
    (h : s.Running c) (hsame : ∀ v, s.turns i = some v → v.conversation = u.conversation) :
    (s.setTurn i (some u)).Running c := by
  obtain ⟨j, v, hv, hc⟩ := h
  by_cases hji : j = i
  · subst hji
    exact ⟨j, u, Function.update_self _ _ _, (hsame v hv).symm.trans hc⟩
  · exact ⟨j, v, (Function.update_of_ne hji _ _).trans hv, hc⟩

/-- A turn that starts or goes on covers what was covered. -/
theorem Held.setTurn (h : Held s)
    (hsame : ∀ v, s.turns i = some v → v.conversation = u.conversation) (begun : Nat) :
    Held { s.setTurn i (some u) with begun := begun } where
  covered x slot hx := (h.covered x slot hx).imp (fun hr => hr.setTurn hsame) id
  aimed := h.aimed

theorem takeSandbox_some {y : SessionId}
    (h : (s.takeSandbox x).sandboxes y = some slot) : y ≠ x ∧ s.sandboxes y = some slot := by
  by_cases hyx : y = x
  · subst hyx
    have hnone : (s.takeSandbox y).sandboxes y = none := Function.update_self _ _ _
    rw [hnone] at h
    cases h
  · exact ⟨hyx, (Function.update_of_ne hyx _ _).symm.trans h⟩

/-- What is taken out needs no cover. -/
theorem Held.takeSandbox (h : Held s) (x : SessionId) : Held (s.takeSandbox x) where
  covered y slot hy := h.covered y slot (takeSandbox_some hy).2
  aimed := h.aimed

theorem Held.withConnected (h : Held s) (connected : SessionId → Bool) :
    Held { s with connected := connected } := ⟨h.covered, h.aimed⟩

theorem Held.takeForConversation (h : Held s)
    (ht : s.takeForConversation c x = some t) : Held t := by
  unfold Service.takeForConversation at ht
  split at ht
  · obtain ⟨-, ⟨⟩⟩ := Option.ite_none_right_eq_some.mp ht
    exact h.takeSandbox x
  · cases ht

theorem same_conversation (hu : s.turns i = some u) : ∀ v, s.turns i = some v → v.conversation = u.conversation :=
  fun v hv => by rw [Option.some.inj (hv.symm.trans hu)]

theorem Held.openSandbox (h : Held s) (hu : s.turns i = some u)
    (ht : s.openSandbox i u = some t) : Held t := by
  obtain ⟨-, ht⟩ := Option.ite_none_right_eq_some.mp ht
  have hsame := same_conversation hu
  split at ht
  · rename_i slot hslot
    split at ht
    · cases ht
      exact h.setTurn (u := { u with sandbox := some slot.sandbox }) hsame s.begun
    · cases ht
      exact h
  · cases ht
    exact h.setTurn (u := { u with opening := true }) hsame s.begun

theorem Held.beginSandbox (h : Held s) {ok : Bool}
    (hu : s.turns i = some u) (ht : s.beginSandbox i u ok = some t) : Held t := by
  obtain ⟨-, ht⟩ := Option.ite_none_right_eq_some.mp ht
  have hsame := same_conversation hu
  split at ht
  · simp only at ht
    split at ht
    · cases ht
      exact h.setTurn (u := { u with opening := false }) hsame (s.begun + 1)
    cases ht
    have hset := h.setTurn (u := { u with opening := false, sandbox := some s.begun }) hsame
      (s.begun + 1)
    refine ⟨fun y slot hy => ?_, hset.aimed⟩
    by_cases hyx : y = u.session
    · -- the one just registered: its turn is running
      subst hyx
      have hself := Function.update_self u.session (some ⟨s.begun, u.conversation⟩) s.sandboxes
      obtain ⟨rfl⟩ := hself.symm.trans hy
      exact Or.inl ⟨i, _, Function.update_self _ _ _, rfl⟩
    · have hrest := Function.update_of_ne hyx (some ⟨s.begun, u.conversation⟩) s.sandboxes
      exact hset.covered y slot (hrest.symm.trans hy)
  · cases ht
    exact h.setTurn (u := { u with opening := false }) hsame s.begun

/-! ## The end of a turn -/

theorem mem_armedBy_isFor {ending : Ending}
    (hx : s.sandboxes x = some slot) (hc : slot.conversation = u.conversation) :
    (∃ d ∈ s.armedBy u ending, d.IsFor x slot) ↔
      ending.isOk = true ∧ u.sandbox.isSome = true ∧ x = u.session := by
  constructor
  · rintro ⟨d, hd, hfor⟩
    unfold Service.armedBy at hd
    split at hd
    · split at hd
      · rename_i hcond
        rw [List.mem_singleton] at hd
        subst hd
        exact ⟨(Bool.and_eq_true_iff.mp hcond).1, (Bool.and_eq_true_iff.mp hcond).2,
          hfor.session.symm⟩
      · cases hd
    · cases hd
  · rintro ⟨hok, hsome, rfl⟩
    refine ⟨⟨u.session, u.conversation, some slot.sandbox⟩, ?_, rfl, hc.symm, rfl⟩
    unfold Service.armedBy
    simp only [hx, hok, hsome, Bool.and_self, if_true, hc, List.mem_singleton]

theorem running_setTurn_none :
    (s.setTurn i none).Running c ↔ ∃ j u, j ≠ i ∧ s.turns j = some u ∧ u.conversation = c := by
  constructor
  · rintro ⟨j, u, hu, hc⟩
    by_cases hji : j = i
    · subst hji
      have hnone : (s.setTurn j none).turns j = none := Function.update_self _ _ _
      exact absurd (hnone.symm.trans hu).symm (Option.some_ne_none u)
    · exact ⟨j, u, hji, (Function.update_of_ne hji _ _).symm.trans hu, hc⟩
  · rintro ⟨j, u, hji, hu, hc⟩
    exact ⟨j, u, (Function.update_of_ne hji _ _).trans hu, hc⟩

/-- The turn's end keeps the promise exactly when it settles. -/
theorem finish_held_iff (h : Held s) {ending : Ending}
    (hu : s.turns i = some u) (ht : s.finish i u ending = some t) :
    Held t ↔ Settles s i u ending := by
  obtain ⟨-, ⟨⟩⟩ := Option.ite_none_right_eq_some.mp ht
  constructor
  · intro ht x slot hx hc hlast hnone
    rcases ht.covered x slot hx with hrun | ⟨d, hd, hfor⟩
    · obtain ⟨j, v, hji, hv, hvc⟩ := running_setTurn_none.mp hrun
      exact absurd (hvc.trans hc) (hlast j v hji hv)
    · rcases List.mem_append.mp hd with hd | hd
      · exact absurd hfor (hnone d hd)
      · exact (mem_armedBy_isFor hx hc).mp ⟨d, hd, hfor⟩
  · intro hsettles
    refine ⟨fun x slot hx => ?_, h.aimed⟩
    rcases h.covered x slot hx with ⟨j, v, hv, hvc⟩ | ⟨d, hd, hfor⟩
    · by_cases hother : ∃ j v, j ≠ i ∧ s.turns j = some v ∧ v.conversation = slot.conversation
      · exact Or.inl (running_setTurn_none.mpr hother)
      -- it was this turn that covered it
      have hji : j = i := by
        by_contra hne
        exact hother ⟨j, v, hne, hv, hvc⟩
      subst hji
      have hc : slot.conversation = u.conversation := by
        rw [← hvc, Option.some.inj (hv.symm.trans hu)]
      by_cases hdead : ∃ d ∈ s.deadlines, d.IsFor x slot
      · obtain ⟨d, hd, hfor⟩ := hdead
        exact Or.inr ⟨d, List.mem_append_left _ hd, hfor⟩
      have hsettled := hsettles x slot hx hc
        (fun k w hk hw hwc => hother ⟨k, w, hk, hw, hwc.trans hc.symm⟩)
        (fun d hd hfor => hdead ⟨d, hd, hfor⟩)
      obtain ⟨d, hd, hfor⟩ := (mem_armedBy_isFor hx hc).mpr hsettled
      exact Or.inr ⟨d, List.mem_append_right _ hd, hfor⟩
    · exact Or.inr ⟨d, List.mem_append_left _ hd, hfor⟩

/-! ## A deadline -/

theorem mem_eraseIdx_or {e : Deadline} {ds : List Deadline}
    (hk : ds[k]? = some d) (he : e ∈ ds) : e = d ∨ e ∈ ds.eraseIdx k := by
  obtain ⟨j, hj⟩ := List.mem_iff_getElem?.mp he
  by_cases hjk : j = k
  · subst hjk
    exact Or.inl (Option.some.inj (hj.symm.trans hk))
  · exact Or.inr (List.mem_eraseIdx_iff_getElem?.mpr ⟨j, hjk, hj⟩)

/-- What is left when the deadline is gone is covered as before, if the deadline was
not for it. -/
theorem Service.Covered.eraseIdx
    (h : s.Covered x slot) (hk : s.deadlines[k]? = some d) (hnot : ¬d.IsFor x slot) :
    Service.Covered { s with deadlines := s.deadlines.eraseIdx k } x slot := by
  refine h.imp id ?_
  rintro ⟨e, he, hfor⟩
  rcases mem_eraseIdx_or hk he with rfl | he
  · exact absurd hfor hnot
  · exact ⟨e, he, hfor⟩

/-- A deadline keeps the promise exactly when it finds no transaction of its
conversation, or the one it was armed for. -/
theorem fire_held_iff (h : Held s) (hk : s.deadlines[k]? = some d) :
    Held (s.fire k d) ↔ ∀ slot, s.sandboxes d.session = some slot →
      slot.conversation = d.conversation → d.armedFor = some slot.sandbox := by
  unfold Service.fire
  cases hslot : s.sandboxes d.session with
  | none =>
    refine iff_of_true ⟨fun x slot hx => ?_, h.aimed⟩ (fun slot hs => by cases hs)
    refine (h.covered x slot hx).eraseIdx hk fun hfor => ?_
    rw [hfor.session] at hslot
    exact absurd (hslot.symm.trans hx).symm (Option.some_ne_none slot)
  | some slot =>
    by_cases hc : slot.conversation = d.conversation
    · simp only [if_pos hc]
      constructor
      · intro hheld slot' hs' _
        cases hs'
        exact hheld.aimed ⟨slot.sandbox, d.armedFor⟩ List.mem_append_cons_self
      · intro haimed
        refine ⟨fun x slot' hx => ?_, fun e he => ?_⟩
        · obtain ⟨hne, hx⟩ := takeSandbox_some (s := s) hx
          exact (h.covered x slot' hx).eraseIdx hk fun hfor => hne hfor.session.symm
        · rcases List.mem_append.mp he with he | he
          · exact h.aimed e he
          · rw [List.mem_singleton.mp he]
            exact haimed slot rfl hc
    · simp only [if_neg hc]
      refine iff_of_true ⟨fun x slot' hx => ?_, h.aimed⟩ ?_
      · refine (h.covered x slot' hx).eraseIdx hk fun hfor => ?_
        rw [hfor.session] at hslot
        have hsame : slot = slot' := Option.some.inj (hslot.symm.trans hx)
        exact hc (hsame ▸ hfor.conversation.symm)
      · intro slot' hs' hc'
        cases hs'
        exact absurd hc' hc

/-! ## Steps and runs -/

/-- **The steps that keep the promise.** -/
theorem held_step_iff {a : Action} (h : Held s) (hstep : step s a = some t) :
    Held t ↔ Keeps s a := by
  cases a with
  | connect x =>
    refine iff_of_true ?_ trivial
    simp only [step] at hstep
    split at hstep
    · cases hstep
      exact (h.takeSandbox x).withConnected _
    · cases hstep
      exact h
  | connectOutcome x =>
    cases hstep
    exact iff_of_true (h.withConnected _) trivial
  | disconnect x =>
    cases hstep
    exact iff_of_true ((h.takeSandbox x).withConnected _) trivial
  | evictIdle x =>
    cases hstep
    exact iff_of_true (h.withConnected _) trivial
  | aiTurn i x c sandboxMode =>
    obtain ⟨⟨hfree, -⟩, ⟨⟩⟩ := Option.ite_none_right_eq_some.mp hstep
    refine iff_of_true (h.setTurn (fun v hv => ?_) s.begun) trivial
    exact absurd (hfree.symm.trans hv).symm (Option.some_ne_none v)
  | openSandbox i =>
    obtain ⟨u, hu, hstep⟩ := Option.bind_eq_some_iff.mp hstep
    exact iff_of_true (h.openSandbox hu hstep) trivial
  | beginSandbox i ok =>
    obtain ⟨u, hu, hstep⟩ := Option.bind_eq_some_iff.mp hstep
    exact iff_of_true (h.beginSandbox hu hstep) trivial
  | finish i ending =>
    obtain ⟨u, hu, hstep⟩ := Option.bind_eq_some_iff.mp hstep
    refine (finish_held_iff h hu hstep).trans ⟨fun hsettles v hv _ => ?_, fun hk => ?_⟩
    · rw [Option.some.inj (hv.symm.trans hu)]
      exact hsettles
    · exact hk u hu (Option.ite_none_right_eq_some.mp hstep).1
  | resolve c x | forget c x => exact iff_of_true (h.takeForConversation hstep) trivial
  | fire k =>
    obtain ⟨d, hd, rfl⟩ := Option.map_eq_some_iff.mp hstep
    refine (fire_held_iff h hd).trans ⟨fun haimed e slot he => ?_, fun hk slot => hk d slot hd⟩
    rw [Option.some.inj (he.symm.trans hd)]
    exact haimed slot

theorem keeps_of_idle {a : Action} (h : step s a = none) : Keeps s a := by
  cases a with
  | finish i ending =>
    intro u hu hopening
    simp only [step, hu, Option.bind_some, Service.finish, hopening, if_true] at h
    cases h
  | fire k =>
    intro d slot hd
    simp only [step, hd, Option.map_some] at h
    cases h
  | _ => trivial

theorem held_init : Held .init where
  covered x slot hx := by cases hx
  aimed e he := by cases he

end Proofs

/-- **No transaction is orphaned and no deadline hits another than its own exactly
when** every turn settles what it leaves behind, and no deadline fires on a transaction
of its conversation that was opened after the one it was armed for. -/
theorem held_iff (acts : List Action) :
    Machine.Always step Held .init acts ↔ Machine.Meets step Keeps .init acts :=
  Machine.always_iff (fun _ _ _ h hstep => held_step_iff h hstep) (fun _ _ h => keeps_of_idle h)
    held_init

/-- A turn that opens its transaction and fails. -/
def failedTurn : List Action :=
  [.connectOutcome 0, .aiTurn 0 0 0 true, .openSandbox 0, .beginSandbox 0 true, .finish 0 .error]

/-- A reviewed turn, answered in time, and another of the same conversation that is
under review when the first deadline runs out. -/
def lateDeadline : List Action :=
  [.connectOutcome 0, .aiTurn 0 0 0 true, .openSandbox 0, .beginSandbox 0 true, .finish 0 .ok,
    .resolve 0 0, .aiTurn 1 0 0 true, .openSandbox 1, .beginSandbox 1 true, .finish 1 .ok,
    .fire 0]

/-- **The failed turn leaves its transaction with nothing to end it**, and the late
deadline rolls back transaction 1, though it was armed for transaction 0. -/
theorem orphan_left :
    (∃ s, Machine.run step .init failedTurn = some s ∧ s.sandboxes 0 = some ⟨0, 0⟩ ∧
        ¬s.Covered 0 ⟨0, 0⟩) ∧
      (∃ s, Machine.run step .init lateDeadline = some s ∧ ⟨1, some 0⟩ ∈ s.expired) ∧
      ¬Machine.Always step Held .init failedTurn ∧
      ¬Machine.Always step Held .init lateDeadline := by
  have hfailed : ∃ s, Machine.run step .init failedTurn = some s ∧
      s.sandboxes 0 = some ⟨0, 0⟩ ∧ ¬s.Covered 0 ⟨0, 0⟩ := by
    refine ⟨_, rfl, rfl, ?_⟩
    rintro (⟨i, t, ht, -⟩ | ⟨d, hd, -⟩)
    · rcases i with - | i
      · cases ht
      · cases ht
    · cases hd
  have hlate : ∃ s, Machine.run step .init lateDeadline = some s ∧ ⟨1, some 0⟩ ∈ s.expired :=
    ⟨_, rfl, List.mem_cons_self⟩
  refine ⟨hfailed, hlate, fun h => ?_, fun h => ?_⟩
  · obtain ⟨s, hs, hslot, hnot⟩ := hfailed
    exact hnot ((Machine.always_run h hs).covered 0 _ hslot)
  · obtain ⟨s, hs, hmem⟩ := hlate
    have haimed := (Machine.always_run h hs).aimed _ hmem
    exact absurd (Option.some.inj haimed) Nat.zero_ne_one

end RedDb.Ai.Review
