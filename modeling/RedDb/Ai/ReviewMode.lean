import RedDb.Ai.ReadTools
import RedDb.Ai.ReviewLog

/-!
# RedDb — review-transaction mode

In review-transaction mode a write that passes the gate is not put to the user: it is
to run in the transaction, which the user commits or rolls back in the end. Whether a
prompt is skipped is decided by the gate's verdict and the mode, where a tool runs by
its name: the two `propose_` tools through the turn's handle on the transaction, all
others through the driver. The registry is that of `Review`.

`Promise` is what the mode promises: what runs without a prompt takes effect in the
open transaction or changes nothing, and only the user's commit makes it durable.

* `CallInv.step` — a proposed write without a prompt has a handle;
* `promise_step_iff` — the steps that keep the promise;
* `promise_iff` — and so the runs that keep it throughout;
* `unprompted_effects` — an index that is built unasked, and a write after the commit.
-/

namespace RedDb.Ai.ReviewMode

open ByteText RedDb.Sql Review ReviewLog

/-! ## What a tool executes -/

/-- The engine: in a transaction `contains` says of a statement that its effects stay
in it. -/
structure Engine where
  kind : DbKind
  server : Server
  contains : Bytes → Prop
  probes : Bytes → List Bytes

/-- Does the handle of a transaction that has ended still run statements? The MySQL and
SQLite handles have given their connection away by then. -/
def outlives : DbKind → Bool
  | .postgres => true
  | _ => false

/-- One thing that a tool has the server do. -/
inductive Exec where
  | write (stmt : Bytes)
  | createIndex (args : IndexArgs)
  | kill (key : Bytes) (mode : KillMode)
  | read (stmt : Bytes)

def Exec.isRead : Exec → Bool
  | .read _ => true
  | _ => false

def Exec.isWrite : Exec → Bool
  | .write _ => true
  | _ => false

def killExecs (input : Json) : List Exec :=
  match input.trimmedField "key", killMode input with
  | some key, .ok mode => [.kill key mode]
  | _, _ => []

def indexExecs (input : Json) : List Exec :=
  match indexArgs input with
  | .ok args => [.createIndex args]
  | .error _ => []

/-- What `run_tool` executes. The reads of the other tools are the driver's own. -/
def toolExecs (engine : Engine) (sandbox : Option Sandbox) (name : String) (input : Json) :
    List Exec :=
  let probes := if sandbox.isSome then fun _ => [] else engine.probes
  let reads := fun tool => (sends probes engine.server engine.kind tool input).map Exec.read
  if name == "propose_write" then [.write (proposedSql input)]
  else if name == "propose_changeset" then (changesetStatements input).map Exec.write
  else if name == "create_index" then indexExecs input
  else if name == "kill_session" then killExecs input
  else if name == "run_select" then reads .runSelect
  else if name == "explain" then reads .explain
  else if name == "suggest_index" then reads .suggestIndex
  else []

/-! ## The state -/

/-- A tool call in flight. `approved` says that the user has been asked and allowed it. -/
structure Call where
  approved : Bool
  sandbox : Option Sandbox
  pending : List Exec

/-- Where something was executed: in an open transaction, through the handle of one that
had ended, or by the driver. -/
inductive Place where
  | inside
  | afterEnd
  | driver
  deriving DecidableEq

structure Ran where
  approved : Bool
  exec : Exec
  place : Place

/-- The service. `ended` are the transactions committed or rolled back, `taken` those on
their way there; `ran` and `durable` are for the record. -/
structure State where
  service : Service
  ended : Sandbox → Bool
  taken : List (Sandbox × Taker)
  calls : List Call
  ran : List Ran
  durable : List (Sandbox × Taker)

def State.init : State := ⟨.init, fun _ => false, [], [], [], []⟩

inductive Action where
  /-- A step of the registry; `commit` is what a resolve asks for. -/
  | registry (a : Review.Action) (commit : Bool)
  /-- Turn `i` calls a tool; `allowed` is the answer to a prompt, if there is one. -/
  | call (i : TurnId) (name : String) (input : Json) (policy : AiPolicy) (allowed : Bool)
  /-- The next thing that the call at `k` has to do. -/
  | run (k : Nat) (ok : Bool)
  /-- `COMMIT` or `ROLLBACK` of the one taken at `j`. -/
  | settle (j : Nat) (ok : Bool)

/-! ## The steps -/

/-- The transaction registered for a session, on its way out. -/
def slotAt (s : Service) (x : SessionId) (taker : Taker) : List (Sandbox × Taker) :=
  match s.sandboxes x with
  | some slot => [(slot.sandbox, taker)]
  | none => []

/-- What a step of the registry takes out, and on whose behalf. -/
def takenBy (s : Service) (a : Review.Action) (commit : Bool) : List (Sandbox × Taker) :=
  match a with
  | .connect x => if s.connected x then slotAt s x .teardown else []
  | .disconnect x => slotAt s x .teardown
  | .resolve _ x => slotAt s x (.user commit)
  | .forget _ x => slotAt s x .teardown
  | .fire k =>
    match s.deadlines[k]? with
    | some d =>
      match s.sandboxes d.session with
      | some slot => if slot.conversation = d.conversation then [(slot.sandbox, .deadline)] else []
      | none => []
    | none => []
  | _ => []

section Steps

variable (engine : Engine)

/-- The gate on a SQL connection. -/
def verdict (name : String) (input : Json) (policy : AiPolicy) : WriteAssessment :=
  assessWrite (fun _ _ => .notWrite) (fun _ _ => .notWrite) name input policy (.of engine.kind)

/-- The call that a turn makes, if it gets that far: a write that the gate lets through
needs the transaction in review-transaction mode, and the user's permission otherwise. -/
def turnCall (t : Turn) (name : String) (input : Json) (policy : AiPolicy) (allowed : Bool) :
    Option Call :=
  let execs := toolExecs engine t.sandbox name input
  match verdict engine name input policy with
  | .reject _ => none
  | .notWrite => some ⟨false, t.sandbox, execs⟩
  | .needsApproval _ =>
    if t.sandboxMode then
      if t.sandbox.isSome then some ⟨false, t.sandbox, execs⟩ else none
    else if allowed then some ⟨true, t.sandbox, execs⟩ else none

def placeOf (s : State) (c : Call) (exec : Exec) : Place :=
  match exec, c.sandbox with
  | .write _, some h => if s.ended h then .afterEnd else .inside
  | _, _ => .driver

/-- Is it executed at all? What fails leaves nothing behind, but is sent all the same to
the connection of a transaction that has ended. -/
def executed (place : Place) (ok : Bool) : Bool :=
  match place with
  | .afterEnd => outlives engine.kind
  | _ => ok

/-- A call goes on as long as everything succeeds. -/
def runExec (s : State) (k : Nat) (c : Call) (exec : Exec) (rest : List Exec) (ok : Bool) : State :=
  let ran := executed engine (placeOf s c exec) ok
  { s with
    calls := if ran && ok then s.calls.set k { c with pending := rest } else s.calls.eraseIdx k
    ran := if ran then s.ran ++ [⟨c.approved, exec, placeOf s c exec⟩] else s.ran }

def settle (s : State) (j : Nat) (h : Sandbox) (taker : Taker) (ok : Bool) : State :=
  { s with
    ended := Function.update s.ended h true
    taken := s.taken.eraseIdx j
    durable := if taker.commits && ok then s.durable ++ [(h, taker)] else s.durable }

def step (s : State) : Action → Option State
  | .registry a commit => (Review.step s.service a).map fun t =>
      { s with service := t, taken := s.taken ++ takenBy s.service a commit }
  | .call i name input policy allowed => (s.service.turns i).map fun t =>
      match turnCall engine t name input policy allowed with
      | some c => { s with calls := s.calls ++ [c] }
      | none => s
  | .run k ok => (s.calls[k]?).bind fun c =>
      match c.pending with
      | exec :: rest => some (runExec engine s k c exec rest ok)
      | [] => none
  | .settle j ok => (s.taken[j]?).map fun (h, taker) => settle s j h taker ok

/-! ## The promise -/

/-- It took effect where it may: in the open transaction if it stays there, by the
driver if it was allowed or changes nothing. -/
def Ran.Kept (r : Ran) : Prop :=
  match r.place, r.exec with
  | .inside, .write stmt => engine.contains stmt
  | .inside, _ => False
  | .afterEnd, _ => False
  | .driver, .read stmt => ¬engine.server.writes stmt
  | .driver, _ => r.approved = true

structure Promise (s : State) : Prop where
  ran : ∀ r ∈ s.ran, r.Kept engine
  durable : ∀ d ∈ s.durable, d.2 = .user true

/-- What a call does next: a proposed write that has a handle finds its transaction open
on Postgres and stays in it; an index is built and a session killed only by permission;
a read does not write. -/
def Keeps (s : State) : Action → Prop
  | .run k ok => ∀ c exec rest, s.calls[k]? = some c → c.pending = exec :: rest →
      match exec with
      | .write stmt => ∀ h, c.sandbox = some h →
          (s.ended h = true → outlives engine.kind = false) ∧
            (s.ended h = false → ok = true → engine.contains stmt)
      | .createIndex _ | .kill _ _ => ok = true → c.approved = true
      | .read stmt => ok = true → ¬engine.server.writes stmt
  | _ => True

end Steps

/-! ## The gate and the dispatcher -/

/-- A proposed write that the user was not asked about has a handle to run through. -/
def CallInv (s : State) : Prop :=
  ∀ c ∈ s.calls, c.approved = false → ∀ exec ∈ c.pending, exec.isWrite = true →
    c.sandbox.isSome = true

variable {ok : Bool} {c : Call} {exec : Exec} {input : Json} {name : String}

section Proofs

variable {engine : Engine} {s t : State}

/-- Only the `propose_` tools have statements that are to run in the transaction. -/
theorem toolExecs_write {sandbox : Option Sandbox}
    (h : exec ∈ toolExecs engine sandbox name input) (hw : exec.isWrite = true) :
    name = "propose_write" ∨ name = "propose_changeset" := by
  have hread : ∀ {execs : List Bytes}, exec ∉ execs.map Exec.read := by
    intro execs hmem
    obtain ⟨stmt, -, rfl⟩ := List.mem_map.mp hmem
    cases hw
  unfold toolExecs at h
  simp only at h
  split at h
  · exact Or.inl (beq_iff_eq.mp ‹_›)
  split at h
  · exact Or.inr (beq_iff_eq.mp ‹_›)
  split at h
  · unfold indexExecs at h
    split at h
    · rw [List.mem_singleton.mp h] at hw
      cases hw
    · cases h
  split at h
  · unfold killExecs at h
    split at h
    · rw [List.mem_singleton.mp h] at hw
      cases hw
    · cases h
  split at h
  · exact absurd h hread
  split at h
  · exact absurd h hread
  split at h
  · exact absurd h hread
  · cases h

theorem assessChangeset_ne_notWrite (input : Json) (d : Dialect) :
    assessChangeset input d ≠ .notWrite := by
  unfold assessChangeset
  simp only
  split
  · exact fun h => WriteAssessment.noConfusion h
  · split
    · exact fun h => WriteAssessment.noConfusion h
    · exact fun h => WriteAssessment.noConfusion h

/-- The gate takes a proposal for a write. -/
theorem verdict_proposal {policy : AiPolicy}
    (hname : name = "propose_write" ∨ name = "propose_changeset") :
    verdict engine name input policy ≠ .notWrite := by
  have hwrite : isWriteTool name = true := by rcases hname with rfl | rfl <;> decide
  have hkv : kvWriteTools.contains name = false := by rcases hname with rfl | rfl <;> decide
  have hdoc : docWriteTools.contains name = false := by rcases hname with rfl | rfl <;> decide
  intro h
  unfold verdict assessWrite at h
  rw [hwrite, hkv, hdoc] at h
  simp only [Bool.not_true, Bool.false_eq_true, if_false] at h
  split at h
  · cases h
  split at h
  · cases h
  split at h
  · exact assessChangeset_ne_notWrite _ _ h
  rename_i hnot
  have hwriteName : name = "propose_write" :=
    hname.resolve_right fun heq => hnot (beq_iff_eq.mpr heq)
  rw [if_neg (by rw [hwriteName]; decide), if_neg (by rw [hwriteName]; decide)] at h
  split at h
  · cases h
  · cases h
  · cases h

/-- A call without a prompt is a read, or has a handle. -/
theorem turnCall_handle {u : Turn} {policy : AiPolicy}
    {allowed : Bool} (h : turnCall engine u name input policy allowed = some c)
    (happroved : c.approved = false) (hexec : exec ∈ c.pending)
    (hw : exec.isWrite = true) : c.sandbox.isSome = true := by
  unfold turnCall at h
  simp only at h
  split at h
  · cases h
  · rename_i hverdict
    cases h
    exact absurd hverdict (verdict_proposal (toolExecs_write hexec hw))
  · split at h
    · split at h
      · rename_i hsome
        cases h
        exact hsome
      · cases h
    · split at h
      · cases h
        cases happroved
      · cases h

theorem CallInv.step {a : Action} (h : CallInv s) (hstep : step engine s a = some t) :
    CallInv t := by
  cases a with
  | registry a commit =>
    obtain ⟨u, -, rfl⟩ := Option.map_eq_some_iff.mp hstep
    exact h
  | call i name input policy allowed =>
    obtain ⟨u, -, rfl⟩ := Option.map_eq_some_iff.mp hstep
    cases hcall : turnCall engine u name input policy allowed with
    | none => exact h
    | some c =>
      intro d hd happroved exec hexec hw
      rcases List.mem_append.mp hd with hd | hd
      · exact h d hd happroved exec hexec hw
      · obtain rfl := List.mem_singleton.mp hd
        exact turnCall_handle hcall happroved hexec hw
  | run k ok =>
    obtain ⟨c, hk, hstep⟩ := Option.bind_eq_some_iff.mp hstep
    have hmem := List.mem_of_getElem? hk
    cases hp : c.pending with
    | nil =>
      simp only [hp] at hstep
      cases hstep
    | cons exec rest =>
      simp only [hp] at hstep
      cases hstep
      intro d hd happroved next hnext hw
      change d ∈ (if executed engine (placeOf s c exec) ok && ok then
        s.calls.set k { c with pending := rest } else s.calls.eraseIdx k) at hd
      split at hd
      · rcases List.mem_or_eq_of_mem_set hd with hd | rfl
        · exact h d hd happroved next hnext hw
        · exact h c hmem happroved next (hp ▸ List.mem_cons_of_mem exec hnext) hw
      · exact h d (List.mem_of_mem_eraseIdx hd) happroved next hnext hw
  | settle j ok =>
    obtain ⟨d, -, rfl⟩ := Option.map_eq_some_iff.mp hstep
    exact h

/-! ## The steps that keep the promise -/

theorem kept_write_iff {stmt : Bytes} (hhandle : c.approved = false → c.sandbox.isSome = true) :
    (executed engine (placeOf s c (.write stmt)) ok = true →
        Ran.Kept engine ⟨c.approved, .write stmt, placeOf s c (.write stmt)⟩) ↔
      ∀ h, c.sandbox = some h → (s.ended h = true → outlives engine.kind = false) ∧
        (s.ended h = false → ok = true → engine.contains stmt) := by
  cases hsandbox : c.sandbox with
  | none =>
    refine iff_of_true (fun _ => ?_) (fun h hh => by cases hh)
    have happroved : c.approved = true := by
      by_contra hnot
      have hsome := hhandle (Bool.eq_false_iff.mpr hnot)
      rw [hsandbox] at hsome
      cases hsome
    have hplace : placeOf s c (.write stmt) = .driver := by
      unfold placeOf
      rw [hsandbox]
    rw [hplace]
    exact happroved
  | some h =>
    have hplace : placeOf s c (.write stmt) = if s.ended h then .afterEnd else .inside := by
      unfold placeOf
      rw [hsandbox]
    rw [hplace]
    cases hended : s.ended h with
    | true =>
      rw [if_pos rfl]
      constructor
      · intro hnot h' hh
        cases hh
        refine ⟨fun _ => Bool.eq_false_iff.mpr fun hout => hnot hout, fun hopen => ?_⟩
        rw [hended] at hopen
        cases hopen
      · intro hall hout
        have hno := (hall h rfl).1 hended
        exact absurd (hno.symm.trans hout) Bool.false_ne_true
    | false =>
      rw [if_neg Bool.false_ne_true]
      constructor
      · intro hkept h' hh
        cases hh
        refine ⟨fun hend => ?_, fun _ hok => hkept hok⟩
        rw [hended] at hend
        cases hend
      · exact fun hall hok => (hall h rfl).2 hended hok

/-- What one execution adds to the record. -/
theorem runExec_promise_iff (h : Promise engine s) {k : Nat} {rest : List Exec} :
    Promise engine (runExec engine s k c exec rest ok) ↔
      (executed engine (placeOf s c exec) ok = true →
        Ran.Kept engine ⟨c.approved, exec, placeOf s c exec⟩) := by
  constructor
  · intro ht hexecuted
    refine ht.ran _ ?_
    show _ ∈ (if executed engine (placeOf s c exec) ok then _ else s.ran)
    rw [if_pos hexecuted]
    exact List.mem_append_cons_self
  · intro hkept
    refine ⟨fun r hr => ?_, h.durable⟩
    change r ∈ (if executed engine (placeOf s c exec) ok then _ else s.ran) at hr
    split at hr
    · rcases List.mem_append.mp hr with hr | hr
      · exact h.ran r hr
      · rw [List.mem_singleton.mp hr]
        exact hkept ‹_›
    · exact h.ran r hr

/-- Only the user's commit makes anything durable. -/
theorem settle_promise (h : Promise engine s) (j : Nat) (sandbox : Sandbox) (taker : Taker)
    (ok : Bool) : Promise engine (settle s j sandbox taker ok) := by
  refine ⟨h.ran, fun d hd => ?_⟩
  change d ∈ (if taker.commits && ok then _ else s.durable) at hd
  split at hd
  · rename_i hcommits
    rcases List.mem_append.mp hd with hd | hd
    · exact h.durable d hd
    rw [List.mem_singleton.mp hd]
    cases taker with
    | user commit =>
      obtain rfl : commit = true := (Bool.and_eq_true_iff.mp hcommits).1
      rfl
    | deadline | teardown => cases hcommits
  · exact h.durable d hd

theorem run_keeps_iff {k : Nat} {rest : List Exec}
    (hinv : CallInv s) (hk : s.calls[k]? = some c) (hp : c.pending = exec :: rest) :
    (executed engine (placeOf s c exec) ok = true →
        Ran.Kept engine ⟨c.approved, exec, placeOf s c exec⟩) ↔ Keeps engine s (.run k ok) := by
  have honly : ∀ {P : Call → Exec → Prop}, (∀ d e r, s.calls[k]? = some d →
      d.pending = e :: r → P d e) ↔ P c exec := by
    intro P
    refine ⟨fun hall => hall c exec rest hk hp, ?_⟩
    intro hc d e r hd he
    obtain rfl : c = d := Option.some.inj (hk.symm.trans hd)
    obtain ⟨rfl, -⟩ := List.cons.inj (hp.symm.trans he)
    exact hc
  refine Iff.trans ?_ honly.symm
  have hexec : exec ∈ c.pending := hp ▸ List.mem_cons_self
  cases exec with
  | write stmt =>
    exact kept_write_iff fun happroved =>
      hinv c (List.mem_of_getElem? hk) happroved (.write stmt) hexec rfl
  | createIndex args | kill key mode | read stmt => exact Iff.rfl

/-- **The steps that keep the promise.** -/
theorem promise_step_iff {a : Action} (hinv : CallInv s) (h : Promise engine s)
    (hstep : step engine s a = some t) : Promise engine t ↔ Keeps engine s a := by
  cases a with
  | registry a commit =>
    obtain ⟨u, -, rfl⟩ := Option.map_eq_some_iff.mp hstep
    exact iff_of_true ⟨h.ran, h.durable⟩ trivial
  | call i name input policy allowed =>
    obtain ⟨u, -, rfl⟩ := Option.map_eq_some_iff.mp hstep
    refine iff_of_true ?_ trivial
    split
    · exact ⟨h.ran, h.durable⟩
    · exact h
  | run k ok =>
    obtain ⟨c, hk, hstep⟩ := Option.bind_eq_some_iff.mp hstep
    cases hp : c.pending with
    | nil =>
      simp only [hp] at hstep
      cases hstep
    | cons exec rest =>
      simp only [hp] at hstep
      cases hstep
      exact (runExec_promise_iff h).trans (run_keeps_iff hinv hk hp)
  | settle j ok =>
    obtain ⟨⟨sandbox, taker⟩, -, rfl⟩ := Option.map_eq_some_iff.mp hstep
    exact iff_of_true (settle_promise h j sandbox taker ok) trivial

theorem keeps_of_idle {a : Action} (h : step engine s a = none) : Keeps engine s a := by
  cases a with
  | run k ok =>
    intro c exec rest hk hp
    simp only [step, hk, Option.bind_some, hp] at h
    cases h
  | _ => trivial

end Proofs

/-- **Review-transaction mode keeps its promise exactly in the runs in which** no index
is built and no session killed without a prompt, no read writes, what runs in the
transaction stays in it, and on Postgres nothing runs through its handle once it has
ended. -/
theorem promise_iff (engine : Engine) (acts : List Action) :
    Machine.Always (step engine) (Promise engine) .init acts ↔
      Machine.Meets (step engine) (Keeps engine) .init acts :=
  Machine.always_iff_of_inv (fun _ _ _ hinv hstep => hinv.step hstep)
    (fun _ _ _ hinv h hstep => promise_step_iff hinv h hstep) (fun _ _ h => keeps_of_idle h)
    nofun
    ⟨nofun, fun _ hd => absurd hd List.not_mem_nil⟩

/-! ## What runs unasked -/

/-- Postgres, with no literals and comments in a statement. -/
def plainEngine : Engine := ⟨.postgres, plainServer, fun _ => True, fun _ => []⟩

/-- A turn in review-transaction mode opens its transaction. -/
def opening : List Action :=
  [.registry (.connectOutcome 0) false, .registry (.aiTurn 0 0 0 true) false,
    .registry (.openSandbox 0) false, .registry (.beginSandbox 0 true) false]

def indexOnT : Json :=
  .obj [("table", .str (ascii "t")), ("name", .str (ascii "t_a")),
    ("columns", .arr [.str (ascii "a")])]

def indexRun : List Action :=
  opening ++ [.call 0 "create_index" indexOnT ⟨.write, false⟩ false, .run 0 true]

/-- The user commits while the turn is at work, and the turn goes on writing. -/
def lateRun : List Action :=
  opening ++ [.registry (.resolve 0 0) true, .settle 0 true,
    .call 0 "propose_write" insertA ⟨.write, false⟩ false, .run 0 true]

/-- What the driver did unasked has to be a read. -/
theorem kept_driver {engine : Engine} {r : Ran} (h : r.Kept engine) (hplace : r.place = .driver)
    (happroved : r.approved = false) : r.exec.isRead = true := by
  obtain ⟨approved, exec, place⟩ := r
  obtain rfl : approved = false := happroved
  obtain rfl : place = .driver := hplace
  cases exec with
  | read stmt => rfl
  | _ => exact absurd h Bool.false_ne_true

/-- **What runs unasked outside the transaction.** An index is built by the driver, and
a write reaches the connection of a transaction that the user has committed. -/
theorem unprompted_effects : (Machine.run (step plainEngine) .init indexRun).map
        (fun s => s.ran.map fun r => (r.approved, r.exec.isRead, r.place)) =
          some [(false, false, .driver)] ∧ (Machine.run (step plainEngine) .init lateRun).map
        (fun s => (s.durable, s.ran.map fun r => (r.approved, r.exec.isRead, r.place))) =
          some ([(0, .user true)], [(false, false, .afterEnd)]) ∧
      ¬Machine.Always (step plainEngine) (Promise plainEngine) .init indexRun ∧
      ¬Machine.Always (step plainEngine) (Promise plainEngine) .init lateRun := by
  have hindex : (Machine.run (step plainEngine) .init indexRun).map
      (fun s => s.ran.map fun r => (r.approved, r.exec.isRead, r.place)) =
        some [(false, false, .driver)] := by decide
  have hlate : (Machine.run (step plainEngine) .init lateRun).map
      (fun s => (s.durable, s.ran.map fun r => (r.approved, r.exec.isRead, r.place))) =
        some ([(0, .user true)], [(false, false, .afterEnd)]) := by decide
  refine ⟨hindex, hlate, fun h => ?_, fun h => ?_⟩
  · obtain ⟨s, hs, hran⟩ := Option.map_eq_some_iff.mp hindex
    obtain ⟨r, hr, hfields⟩ : ∃ r ∈ s.ran, (r.approved, r.exec.isRead, r.place) =
        (false, false, .driver) := List.mem_map.mp (hran ▸ List.mem_cons_self)
    simp only [Prod.mk.injEq] at hfields
    have hkept := (Machine.always_run h hs).ran r hr
    have hread := kept_driver hkept hfields.2.2 hfields.1
    rw [hfields.2.1] at hread
    exact Bool.false_ne_true hread
  · obtain ⟨s, hs, hstate⟩ := Option.map_eq_some_iff.mp hlate
    obtain ⟨-, hran⟩ := Prod.mk.inj hstate
    obtain ⟨r, hr, hfields⟩ : ∃ r ∈ s.ran, (r.approved, r.exec.isRead, r.place) =
        (false, false, .afterEnd) := List.mem_map.mp (hran ▸ List.mem_cons_self)
    simp only [Prod.mk.injEq] at hfields
    have hkept := (Machine.always_run h hs).ran r hr
    unfold Ran.Kept at hkept
    rw [hfields.2.2] at hkept
    exact hkept

end RedDb.Ai.ReviewMode
