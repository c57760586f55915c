import Mathlib.Logic.Function.Basic
import RedDb.Lib.Machine

/-!
# RedDb — cancels over a shared connection pool

One-shot fetches and cursors borrow connections of a driver's pool, and each can be
cancelled out of band: by a request that names the connection and stops whatever
runs there when it arrives. What keeps a request off a connection that has moved on
is a flag of the operation, `alive` in MySQL and `done` in Postgres, to be cleared
before the connection is given back. `leavingOf` lists the ways an operation ends and
what each does about flag and connection.

`step` is one move of the pool, and `hits` records each interruption: the operation
the cancel was raised for, and the one whose statement it stopped.

* `leavingOf_settles` — the exits that clear the flag or close the connection;
* `PoolInv.step` — while no cancel of another exit arrives, a live cancel names
  a connection its operation holds, or a closed one;
* `cancels_hit_own` — so that in such a run every cancel hits its own operation;
* `staleCancel_hits` — the exits of the two drivers that break it.
-/

namespace RedDb.Driver.Cancel

/-! ## Operations -/

/-- The drivers with a pool. -/
inductive Engine where
  | postgres
  | mysql

inductive Kind where
  | oneShot
  | cursor
  deriving DecidableEq

/-- How an operation ends. -/
inductive Exit where
  /-- A one-shot returns, with a result or an error. -/
  | returned
  /-- A one-shot's future, or a Postgres cursor ahead of its last row, is dropped. -/
  | dropped
  /-- A cursor cannot be opened: it has no token yet. -/
  | openFailed
  /-- The pump of a MySQL cursor finds that the query fails when executed. -/
  | executeFailed
  /-- The pump of a MySQL cursor is over: the last row, an error, or nobody listens. -/
  | pumped
  /-- A Postgres cursor is dropped after its last row. -/
  | exhausted
  deriving DecidableEq

/-- What an exit does: clear the flag, fire the cancel, give the connection back. -/
structure Leaving where
  clears : Bool
  cancels : Bool
  returns : Bool

/-- The exits of each driver. `with_fetch_conn` and `KillGuard` clear the flag of a
one-shot; a future dropped in Postgres takes its connection along, as a cursor does
that is dropped early. `pg_cancel_token` has no flag to clear, and the pump of
`open_cursor` returns ahead of `alive.store(false)` when `exec_iter` fails. -/
def leavingOf : Engine → Kind → Exit → Option Leaving
  | .postgres, .oneShot, .returned => some ⟨true, false, true⟩
  | .postgres, .oneShot, .dropped => some ⟨false, false, false⟩
  | .postgres, .cursor, .openFailed => some ⟨false, false, false⟩
  | .postgres, .cursor, .exhausted => some ⟨false, false, true⟩
  | .postgres, .cursor, .dropped => some ⟨false, true, false⟩
  | .mysql, .oneShot, .returned => some ⟨true, false, true⟩
  | .mysql, .oneShot, .dropped => some ⟨true, false, true⟩
  | .mysql, .cursor, .openFailed => some ⟨false, false, true⟩
  | .mysql, .cursor, .executeFailed => some ⟨false, false, true⟩
  | .mysql, .cursor, .pumped => some ⟨true, false, true⟩
  | _, _, _ => none

/-- The exits that give a connection back with its cancel still live. -/
def Exit.leavesLive : Exit → Bool
  | .executeFailed => true
  | .exhausted => true
  | _ => false

/-- Every other exit of an operation that has a token clears its flag or closes the
connection. -/
theorem leavingOf_settles {engine : Engine} {kind : Kind} {exit : Exit} {l : Leaving}
    (h : leavingOf engine kind exit = some l) (hlive : exit.leavesLive = false)
    (hopen : exit ≠ .openFailed) : l.clears = true ∨ l.returns = false := by
  cases engine <;> cases kind <;> cases exit <;> cases h <;> simp_all [Exit.leavesLive]

/-- How far an operation is with its connection. -/
inductive Tenure where
  | held
  | leaving (exit : Exit)
  | ended (exit : Exit)
  deriving DecidableEq

/-- An operation. `token` is its flag once its cancel exists, and `requests` are the
cancels raised for it that are under way. -/
structure Operation where
  kind : Kind
  conn : Nat
  tenure : Tenure
  token : Option Bool
  requests : Nat

/-- Has it not given its connection away? -/
def Operation.Holds (o : Operation) : Prop := ∀ exit, o.tenure ≠ .ended exit

/-! ## The pool -/

/-- The pool of a driver: its free connections, how many were ever opened, the closed
ones, and whose statement runs on each. -/
structure Pool where
  ops : Nat → Option Operation
  free : List Nat
  opened : Nat
  closed : List Nat
  executing : Nat → Option Nat
  hits : List (Nat × Nat)

namespace Pool

def init : Pool := ⟨fun _ => none, [], 0, [], fun _ => none, []⟩

def put (s : Pool) (i : Nat) (o : Operation) : Pool :=
  { s with ops := Function.update s.ops i (some o) }

def setExecuting (s : Pool) (c : Nat) (i : Option Nat) : Pool :=
  { s with executing := Function.update s.executing c i }

end Pool

inductive Action where
  /-- Operation `i` takes the free connection named, or opens one. -/
  | borrow (i : Nat) (kind : Kind) (source : Option Nat)
  /-- Its cancel is created. -/
  | arm (i : Nat)
  | start (i : Nat)
  | finish (i : Nat)
  /-- It ends: what its exit does to the flag. -/
  | leave (i : Nat) (exit : Exit)
  /-- What its exit does to the connection. The pool may be full. -/
  | giveBack (i : Nat) (full : Bool)
  /-- Its cancel is fired, by whoever has its signal or a clone of its token. -/
  | raise (i : Nat)
  /-- A request looks at the flag and is sent. `again` keeps it for another round. -/
  | deliver (i : Nat) (again : Bool)

def borrow (s : Pool) (i : Nat) (kind : Kind) : Option Nat → Option Pool
  | some c =>
    if s.ops i = none ∧ c ∈ s.free then
      some ({ s with free := s.free.filter fun d => d != c }.put i ⟨kind, c, .held, none, 0⟩)
    else none
  | none =>
    if s.ops i = none then
      some ({ s with opened := s.opened + 1 }.put i ⟨kind, s.opened, .held, none, 0⟩)
    else none

def arm (s : Pool) (i : Nat) (o : Operation) : Option Pool :=
  if o.tenure = .held ∧ o.token = none then some (s.put i { o with token := some true }) else none

def start (s : Pool) (i : Nat) (o : Operation) : Option Pool :=
  if o.tenure = .held ∧ s.executing o.conn = none then some (s.setExecuting o.conn (some i))
  else none

def finish (s : Pool) (i : Nat) (o : Operation) : Option Pool :=
  if s.executing o.conn = some i then some (s.setExecuting o.conn none) else none

/-- The token exists at every exit but those of an operation that could not start. -/
def leave (engine : Engine) (s : Pool) (i : Nat) (o : Operation) (exit : Exit) : Option Pool :=
  match leavingOf engine o.kind exit with
  | none => none
  | some l =>
    if o.tenure = .held ∧ (exit = .openFailed → o.token = none) then
      some (s.put i { o with
        tenure := .leaving exit
        token := if l.clears then o.token.map fun _ => false else o.token
        requests := if l.cancels then o.requests + 1 else o.requests })
    else none

/-- A connection is reusable once the server has answered on it. -/
def giveBack (engine : Engine) (s : Pool) (i : Nat) (o : Operation) (full : Bool) : Option Pool :=
  match o.tenure with
  | .leaving exit =>
    match leavingOf engine o.kind exit with
    | none => none
    | some l =>
      let s' := s.put i { o with tenure := .ended exit }
      if l.returns && !full then
        if s.executing o.conn = none then some { s' with free := s.free ++ [o.conn] } else none
      else
        some ({ s' with closed := s.closed ++ [o.conn] }.setExecuting o.conn none)
  | _ => none

/-- A one-shot is disarmed as it leaves; the token of a cursor can be cloned. -/
def raise (s : Pool) (i : Nat) (o : Operation) : Option Pool :=
  if o.token ≠ none ∧ (o.kind = .cursor ∨ o.tenure = .held) then
    some (s.put i { o with requests := o.requests + 1 })
  else none

/-- A request goes out only if the flag still says so, and stops the statement it
finds on the connection. -/
def deliver (s : Pool) (i : Nat) (o : Operation) (again : Bool) : Option Pool :=
  if o.requests = 0 then none
  else
    let live := o.token == some true
    let s' := s.put i { o with requests := if live && again then o.requests else o.requests - 1 }
    if live then
      match s.executing o.conn with
      | some j => some ({ s' with hits := s.hits ++ [(i, j)] }.setExecuting o.conn none)
      | none => some s'
    else some s'

def step (engine : Engine) (s : Pool) : Action → Option Pool
  | .borrow i kind source => borrow s i kind source
  | .arm i => (s.ops i).bind (arm s i)
  | .start i => (s.ops i).bind (start s i)
  | .finish i => (s.ops i).bind (finish s i)
  | .leave i exit => (s.ops i).bind fun o => leave engine s i o exit
  | .giveBack i full => (s.ops i).bind fun o => giveBack engine s i o full
  | .raise i => (s.ops i).bind (raise s i)
  | .deliver i again => (s.ops i).bind fun o => deliver s i o again

/-- No request is delivered for an operation that gave its connection back with its
cancel live. -/
def Guarded (s : Pool) : Action → Prop
  | .deliver i _ => ∀ o exit, s.ops i = some o → o.tenure = .ended exit → exit.leavesLive = false
  | _ => True

/-- Every cancel so far has hit the operation it was raised for. -/
def HitsOwn (s : Pool) : Prop := ∀ h ∈ s.hits, h.1 = h.2

/-! ## The invariant -/

/-- What the pool keeps while no stale cancel arrives. -/
structure PoolInv (engine : Engine) (s : Pool) : Prop where
  held : ∀ i o, s.ops i = some o → o.Holds →
    o.conn < s.opened ∧ o.conn ∉ s.free ∧ o.conn ∉ s.closed
  unique : ∀ i j o p, s.ops i = some o → s.ops j = some p → o.Holds → p.Holds →
    o.conn = p.conn → i = j
  executing : ∀ c i, s.executing c = some i → ∃ o, s.ops i = some o ∧ o.Holds ∧ o.conn = c
  free : ∀ c ∈ s.free, c < s.opened ∧ c ∉ s.closed
  closed : ∀ c ∈ s.closed, c < s.opened
  leaving : ∀ i o exit, s.ops i = some o → o.tenure = .leaving exit → o.token = some true →
    exit.leavesLive = true ∨ ∃ l, leavingOf engine o.kind exit = some l ∧ l.returns = false
  ended : ∀ i o exit, s.ops i = some o → o.tenure = .ended exit → o.token = some true →
    exit.leavesLive = true ∨ o.conn ∈ s.closed
  own : HitsOwn s

section Invariant

variable {engine : Engine} {s t : Pool} {i : Nat} {o : Operation}

theorem put_ops_iff {j : Nat} {p : Operation} :
    (s.put i o).ops j = some p ↔ (j = i ∧ o = p) ∨ (j ≠ i ∧ s.ops j = some p) := by
  show Function.update s.ops i (some o) j = some p ↔ _
  by_cases h : j = i
  · subst h
    simp
  · simp [h]

theorem setExecuting_iff {c d : Nat} {who : Option Nat} {j : Nat} :
    (s.setExecuting c who).executing d = some j ↔
      (d = c ∧ who = some j) ∨ (d ≠ c ∧ s.executing d = some j) := by
  show Function.update s.executing c who d = some j ↔ _
  by_cases h : d = c
  · subst h
    simp
  · simp [h]

theorem PoolInv.init : PoolInv engine .init := by
  constructor <;> simp [Pool.init, HitsOwn]

/-- What an operation owes the pool once it is leaving: a flag that is still live
goes with a stale exit, or with a connection that closes. -/
structure Owes (engine : Engine) (s : Pool) (o : Operation) : Prop where
  leaving : ∀ exit, o.tenure = .leaving exit → o.token = some true →
    exit.leavesLive = true ∨ ∃ l, leavingOf engine o.kind exit = some l ∧ l.returns = false
  ended : ∀ exit, o.tenure = .ended exit → o.token = some true →
    exit.leavesLive = true ∨ o.conn ∈ s.closed

theorem PoolInv.owes (h : PoolInv engine s) (ho : s.ops i = some o) : Owes engine s o :=
  ⟨fun exit => h.leaving i o exit ho, fun exit => h.ended i o exit ho⟩

/-- An operation changes, and keeps its connection. -/
theorem PoolInv.put (h : PoolInv engine s) {o' : Operation} (ho : s.ops i = some o)
    (hconn : o'.conn = o.conn) (hholds : o'.Holds ↔ o.Holds) (howes : Owes engine s o') :
    PoolInv engine (s.put i o') := by
  -- whoever holds a connection in the new pool did so in the old one
  have hold : ∀ j p, (s.put i o').ops j = some p → p.Holds →
      ∃ q, s.ops j = some q ∧ q.conn = p.conn ∧ q.Holds := by
    intro j p hp hh
    rcases put_ops_iff.mp hp with ⟨rfl, rfl⟩ | ⟨-, hp⟩
    · exact ⟨o, ho, hconn.symm, hholds.mp hh⟩
    · exact ⟨p, hp, rfl, hh⟩
  constructor
  case held =>
    intro j p hp hh
    obtain ⟨q, hq, hc, hqh⟩ := hold j p hp hh
    rw [← hc]
    exact h.held j q hq hqh
  case unique =>
    intro j k p q hp hq hph hqh hpq
    obtain ⟨p', hp', hc, hph'⟩ := hold j p hp hph
    obtain ⟨q', hq', hd, hqh'⟩ := hold k q hq hqh
    exact h.unique j k p' q' hp' hq' hph' hqh' (by rw [hc, hd, hpq])
  case executing =>
    intro c j hj
    obtain ⟨p, hp, hh, hc⟩ := h.executing c j hj
    by_cases hji : j = i
    · subst hji
      obtain rfl : o = p := Option.some.inj (ho.symm.trans hp)
      exact ⟨o', put_ops_iff.mpr (Or.inl ⟨rfl, rfl⟩), hholds.mpr hh, hconn.trans hc⟩
    · exact ⟨p, put_ops_iff.mpr (Or.inr ⟨hji, hp⟩), hh, hc⟩
  case free => exact h.free
  case closed => exact h.closed
  case leaving =>
    intro j p exit hp ht hlive
    rcases put_ops_iff.mp hp with ⟨-, rfl⟩ | ⟨-, hp⟩
    · exact howes.leaving exit ht hlive
    · exact h.leaving j p exit hp ht hlive
  case ended =>
    intro j p exit hp ht hlive
    rcases put_ops_iff.mp hp with ⟨-, rfl⟩ | ⟨-, hp⟩
    · exact howes.ended exit ht hlive
    · exact h.ended j p exit hp ht hlive
  case own => exact h.own

theorem PoolInv.stopped (h : PoolInv engine s) (c : Nat) : PoolInv engine (s.setExecuting c none) :=
  { h with
    executing := by
      intro d j hj
      rcases setExecuting_iff.mp hj with ⟨-, hj⟩ | ⟨-, hj⟩
      · cases hj
      · exact h.executing d j hj }

/-- An operation joins the pool with a connection that nobody else has. -/
theorem PoolInv.joined (h : PoolInv engine s) {kind : Kind} {c : Nat} (hi : s.ops i = none)
    (hopened : c < s.opened) (hfree : c ∉ s.free) (hclosed : c ∉ s.closed)
    (hnobody : ∀ j p, s.ops j = some p → p.Holds → p.conn ≠ c) :
    PoolInv engine (s.put i ⟨kind, c, .held, none, 0⟩) := by
  constructor
  case held =>
    intro j p hp hh
    rcases put_ops_iff.mp hp with ⟨-, rfl⟩ | ⟨-, hp⟩
    · exact ⟨hopened, hfree, hclosed⟩
    · exact h.held j p hp hh
  case unique =>
    intro j k p q hp hq hph hqh hpq
    rcases put_ops_iff.mp hp with ⟨hj, rfl⟩ | ⟨-, hp'⟩
    · rcases put_ops_iff.mp hq with ⟨hk, -⟩ | ⟨-, hq'⟩
      · exact hj.trans hk.symm
      · exact absurd hpq.symm (hnobody k q hq' hqh)
    · rcases put_ops_iff.mp hq with ⟨-, rfl⟩ | ⟨-, hq'⟩
      · exact absurd hpq (hnobody j p hp' hph)
      · exact h.unique j k p q hp' hq' hph hqh hpq
  case executing =>
    intro d j hj
    obtain ⟨p, hp, hh, hd⟩ := h.executing d j hj
    have hji : j ≠ i := by
      rintro rfl
      rw [hi] at hp
      cases hp
    exact ⟨p, put_ops_iff.mpr (Or.inr ⟨hji, hp⟩), hh, hd⟩
  case free => exact h.free
  case closed => exact h.closed
  case leaving =>
    intro j p exit hp ht hlive
    rcases put_ops_iff.mp hp with ⟨-, rfl⟩ | ⟨-, hp⟩
    · cases ht
    · exact h.leaving j p exit hp ht hlive
  case ended =>
    intro j p exit hp ht hlive
    rcases put_ops_iff.mp hp with ⟨-, rfl⟩ | ⟨-, hp⟩
    · cases ht
    · exact h.ended j p exit hp ht hlive
  case own => exact h.own

theorem PoolInv.borrow {kind : Kind} {source : Option Nat} (h : PoolInv engine s)
    (hstep : borrow s i kind source = some t) : PoolInv engine t := by
  cases source with
  | some c =>
    obtain ⟨⟨hi, hc⟩, ⟨⟩⟩ := Option.ite_none_right_eq_some.mp hstep
    have hrest : PoolInv engine { s with free := s.free.filter fun d => d != c } :=
      { h with
        held := fun j p hp hh => by
          obtain ⟨hlt, hfree, hclosed⟩ := h.held j p hp hh
          exact ⟨hlt, fun hmem => hfree (List.mem_filter.mp hmem).1, hclosed⟩
        free := fun d hd => h.free d (List.mem_filter.mp hd).1 }
    refine hrest.joined hi (h.free c hc).1 ?_ (h.free c hc).2 ?_
    · intro hmem
      exact bne_iff_ne.mp (List.mem_filter.mp hmem).2 rfl
    · rintro j p hp hh rfl
      exact (h.held j p hp hh).2.1 hc
  | none =>
    obtain ⟨hi, ⟨⟩⟩ := Option.ite_none_right_eq_some.mp hstep
    have hmore : PoolInv engine { s with opened := s.opened + 1 } :=
      { h with
        held := fun j p hp hh => by
          obtain ⟨hlt, hrest⟩ := h.held j p hp hh
          exact ⟨Nat.lt_succ_of_lt hlt, hrest⟩
        free := fun d hd => ⟨Nat.lt_succ_of_lt (h.free d hd).1, (h.free d hd).2⟩
        closed := fun d hd => Nat.lt_succ_of_lt (h.closed d hd) }
    refine hmore.joined hi (Nat.lt_succ_self _) ?_ ?_ ?_
    · exact fun hmem => Nat.lt_irrefl _ (h.free _ hmem).1
    · exact fun hmem => Nat.lt_irrefl _ (h.closed _ hmem)
    · rintro j p hp hh heq
      have hlt := (h.held j p hp hh).1
      omega

theorem PoolInv.start (h : PoolInv engine s) (ho : s.ops i = some o)
    (hstep : start s i o = some t) : PoolInv engine t := by
  obtain ⟨⟨hheld, -⟩, ⟨⟩⟩ := Option.ite_none_right_eq_some.mp hstep
  exact { h with
    executing := by
      intro d j hj
      rcases setExecuting_iff.mp hj with ⟨hd, hwho⟩ | ⟨-, hd⟩
      · obtain rfl : i = j := Option.some.inj hwho
        exact ⟨o, ho, fun exit he => Tenure.noConfusion (hheld.symm.trans he), hd.symm⟩
      · exact h.executing d j hd }

theorem holds_of_held {o : Operation} (h : o.tenure = .held) : o.Holds :=
  fun _ he => Tenure.noConfusion (h.symm.trans he)

theorem PoolInv.leave {exit : Exit} (h : PoolInv engine s) (ho : s.ops i = some o)
    (hstep : leave engine s i o exit = some t) : PoolInv engine t := by
  unfold Cancel.leave at hstep
  cases hl : leavingOf engine o.kind exit with
  | none =>
    rw [hl] at hstep
    cases hstep
  | some l =>
    rw [hl] at hstep
    obtain ⟨⟨hheld, hopen⟩, hstep⟩ := Option.ite_none_right_eq_some.mp hstep
    have hh := holds_of_held hheld
    obtain rfl := Option.some.inj hstep
    refine h.put ho rfl (iff_of_true (fun _ he => Tenure.noConfusion he) hh) ⟨?_, ?_⟩
    · intro exit' ht hlive
      obtain rfl : exit = exit' := Tenure.leaving.inj ht
      cases hstale : exit.leavesLive with
      | true => exact Or.inl rfl
      | false =>
        refine Or.inr ⟨l, hl, ?_⟩
        by_cases hclears : l.clears = true
        · simp [hclears] at hlive
        simp only [hclears] at hlive
        refine (leavingOf_settles hl hstale ?_).resolve_left hclears
        intro he
        rw [hopen he] at hlive
        cases hlive
    · exact fun _ ht => Tenure.noConfusion ht

/-- An operation gives its connection away, and nothing runs there. `d` are the
closed connections afterwards. -/
theorem PoolInv.released (h : PoolInv engine s) (exit : Exit) {d : List Nat}
    (ho : s.ops i = some o) (hh : o.Holds) (hidle : s.executing o.conn = none)
    (hsub : ∀ c ∈ s.closed, c ∈ d) (hd : ∀ c ∈ d, c ∈ s.closed ∨ c = o.conn)
    (hended : o.token = some true → exit.leavesLive = true ∨ o.conn ∈ d) :
    PoolInv engine ({ s with closed := d }.put i { o with tenure := .ended exit }) := by
  obtain ⟨hlt, hfree, -⟩ := h.held i o ho hh
  have hother : ∀ j p, ({ s with closed := d }.put i { o with tenure := .ended exit }).ops j =
      some p → p.Holds → j ≠ i ∧ s.ops j = some p := by
    intro j p hp hph
    rcases put_ops_iff.mp hp with ⟨-, rfl⟩ | hp
    · exact absurd rfl (hph exit)
    · exact hp
  constructor
  case held =>
    intro j p hp hph
    obtain ⟨hji, hp⟩ := hother j p hp hph
    obtain ⟨hplt, hpfree, hpclosed⟩ := h.held j p hp hph
    refine ⟨hplt, hpfree, fun hmem => ?_⟩
    rcases hd _ hmem with hmem | heq
    · exact hpclosed hmem
    · exact hji (h.unique j i p o hp ho hph hh heq)
  case unique =>
    intro j k p q hp hq hph hqh hpq
    exact h.unique j k p q (hother j p hp hph).2 (hother k q hq hqh).2 hph hqh hpq
  case executing =>
    intro c j hj
    obtain ⟨p, hp, hph, hc⟩ := h.executing c j hj
    refine ⟨p, put_ops_iff.mpr (Or.inr ⟨?_, hp⟩), hph, hc⟩
    rintro rfl
    obtain rfl : o = p := Option.some.inj (ho.symm.trans hp)
    have hrun : s.executing o.conn = some j := by rwa [hc]
    rw [hidle] at hrun
    cases hrun
  case free =>
    intro c hc
    refine ⟨(h.free c hc).1, fun hmem => ?_⟩
    rcases hd c hmem with hmem | rfl
    · exact (h.free c hc).2 hmem
    · exact hfree hc
  case closed =>
    intro c hc
    rcases hd c hc with hc | rfl
    · exact h.closed c hc
    · exact hlt
  case leaving =>
    intro j p exit' hp ht hlive
    rcases put_ops_iff.mp hp with ⟨-, rfl⟩ | ⟨-, hp⟩
    · cases ht
    · exact h.leaving j p exit' hp ht hlive
  case ended =>
    intro j p exit' hp ht hlive
    rcases put_ops_iff.mp hp with ⟨-, rfl⟩ | ⟨-, hp⟩
    · obtain rfl : exit = exit' := Tenure.ended.inj ht
      exact hended hlive
    · exact (h.ended j p exit' hp ht hlive).imp_right (hsub _)
  case own => exact h.own

/-- A connection that nobody holds and that is open joins the free ones. -/
theorem PoolInv.freed (h : PoolInv engine s) {c : Nat} (hlt : c < s.opened)
    (hclosed : c ∉ s.closed) (hnobody : ∀ j p, s.ops j = some p → p.Holds → p.conn ≠ c) :
    PoolInv engine { s with free := s.free ++ [c] } :=
  { h with
    held := by
      intro j p hp hh
      obtain ⟨hplt, hpfree, hpclosed⟩ := h.held j p hp hh
      refine ⟨hplt, fun hmem => ?_, hpclosed⟩
      rcases List.mem_append.mp hmem with hmem | hmem
      · exact hpfree hmem
      · exact hnobody j p hp hh (List.mem_singleton.mp hmem)
    free := by
      intro d hd
      rcases List.mem_append.mp hd with hd | hd
      · exact h.free d hd
      · rw [List.mem_singleton.mp hd]
        exact ⟨hlt, hclosed⟩ }

theorem PoolInv.giveBack {full : Bool} (h : PoolInv engine s) (ho : s.ops i = some o)
    (hstep : giveBack engine s i o full = some t) : PoolInv engine t := by
  unfold Cancel.giveBack at hstep
  cases ht : o.tenure with
  | held | ended exit =>
    rw [ht] at hstep
    cases hstep
  | leaving exit =>
    have hh : o.Holds := fun _ he => Tenure.noConfusion (ht.symm.trans he)
    obtain ⟨hlt, -, hclosed⟩ := h.held i o ho hh
    rw [ht] at hstep
    cases hl : leavingOf engine o.kind exit with
    | none =>
      simp only [hl] at hstep
      cases hstep
    | some l =>
      simp only [hl] at hstep
      split at hstep
      · -- back to the free ones, with a flag that is cleared or a stale one
        obtain ⟨hidle, ⟨⟩⟩ := Option.ite_none_right_eq_some.mp hstep
        have hreturns : l.returns = true := by simp_all
        have hput := h.released exit ho hh hidle (fun _ => id) (fun _ => Or.inl) ?_
        · refine hput.freed hlt hclosed ?_
          intro j p hp hph heq
          rcases put_ops_iff.mp hp with ⟨-, rfl⟩ | ⟨hji, hp⟩
          · exact hph exit rfl
          · exact hji (h.unique j i p o hp ho hph hh heq)
        · intro hlive
          refine (h.leaving i o exit ho ht hlive).imp_right ?_
          rintro ⟨l', hl', hkept⟩
          obtain rfl : l = l' := Option.some.inj (hl.symm.trans hl')
          rw [hreturns] at hkept
          cases hkept
      · obtain rfl := Option.some.inj hstep
        refine (h.stopped o.conn).released (d := s.closed ++ [o.conn]) exit ho hh ?_ ?_ ?_ ?_
        · exact Function.update_self _ _ _
        · exact fun c hc => List.mem_append_left _ hc
        · intro c hc
          exact (List.mem_append.mp hc).imp_right List.mem_singleton.mp
        · exact fun _ => Or.inr (List.mem_append_right _ (List.mem_singleton_self _))

theorem PoolInv.deliver {again : Bool} (h : PoolInv engine s) (ho : s.ops i = some o)
    (hguard : ∀ exit, o.tenure = .ended exit → exit.leavesLive = false)
    (hstep : deliver s i o again = some t) : PoolInv engine t := by
  unfold Cancel.deliver at hstep
  obtain ⟨-, hstep⟩ := Option.ite_none_left_eq_some.mp hstep
  have hput : ∀ n, PoolInv engine (s.put i { o with requests := n }) := fun n =>
    h.put ho rfl Iff.rfl ⟨(h.owes ho).leaving, (h.owes ho).ended⟩
  by_cases hlive : (o.token == some true) = true
  · simp only [hlive, if_true] at hstep
    cases hrun : s.executing o.conn with
    | none =>
      rw [hrun] at hstep
      obtain rfl := Option.some.inj hstep
      exact hput _
    | some j =>
      rw [hrun] at hstep
      obtain rfl := Option.some.inj hstep
      -- the statement found there is the operation's own
      have hown : i = j := by
        obtain ⟨p, hp, hph, hc⟩ := h.executing o.conn j hrun
        refine h.unique i j o p ho hp ?_ hph hc.symm
        intro exit he
        rcases h.ended i o exit ho he (by simpa using hlive) with hstale | hclosed
        · rw [hguard exit he] at hstale
          cases hstale
        · rw [← hc] at hclosed
          exact (h.held j p hp hph).2.2 hclosed
      refine PoolInv.stopped ?_ o.conn
      exact { hput _ with
        own := by
          intro hit hmem
          rcases List.mem_append.mp hmem with hmem | hmem
          · exact h.own hit hmem
          · rw [List.mem_singleton.mp hmem]
            exact hown }
  · simp only [hlive] at hstep
    obtain rfl := Option.some.inj hstep
    exact hput _

/-- **A move of the pool that is no stale cancel keeps the invariant.** -/
theorem PoolInv.step {a : Action} (h : PoolInv engine s) (hguard : Guarded s a)
    (hstep : step engine s a = some t) : PoolInv engine t := by
  cases a with
  | borrow i kind source => exact h.borrow hstep
  | arm i =>
    obtain ⟨o, ho, hstep⟩ := Option.bind_eq_some_iff.mp hstep
    obtain ⟨⟨hheld, -⟩, ⟨⟩⟩ := Option.ite_none_right_eq_some.mp hstep
    exact h.put ho rfl Iff.rfl ⟨fun _ ht => Tenure.noConfusion (hheld.symm.trans ht),
      fun _ ht => Tenure.noConfusion (hheld.symm.trans ht)⟩
  | start i =>
    obtain ⟨o, ho, hstep⟩ := Option.bind_eq_some_iff.mp hstep
    exact h.start ho hstep
  | finish i =>
    obtain ⟨o, -, hstep⟩ := Option.bind_eq_some_iff.mp hstep
    obtain ⟨-, ⟨⟩⟩ := Option.ite_none_right_eq_some.mp hstep
    exact h.stopped o.conn
  | leave i exit =>
    obtain ⟨o, ho, hstep⟩ := Option.bind_eq_some_iff.mp hstep
    exact h.leave ho hstep
  | giveBack i full =>
    obtain ⟨o, ho, hstep⟩ := Option.bind_eq_some_iff.mp hstep
    exact h.giveBack ho hstep
  | raise i =>
    obtain ⟨o, ho, hstep⟩ := Option.bind_eq_some_iff.mp hstep
    obtain ⟨-, ⟨⟩⟩ := Option.ite_none_right_eq_some.mp hstep
    exact h.put ho rfl Iff.rfl ⟨(h.owes ho).leaving, (h.owes ho).ended⟩
  | deliver i again =>
    obtain ⟨o, ho, hstep⟩ := Option.bind_eq_some_iff.mp hstep
    exact h.deliver ho (fun exit => hguard o exit ho) hstep

end Invariant

/-- **In a run without a stale cancel every cancel hits its own operation.** -/
theorem cancels_hit_own {engine : Engine} {acts : List Action} {s : Pool}
    (hrun : Machine.run (step engine) .init acts = some s)
    (hguard : Machine.Meets (step engine) Guarded .init acts) : HitsOwn s :=
  (Machine.run_invariant (fun _ _ _ h hg hs => PoolInv.step h hg hs) PoolInv.init hguard hrun).own

/-- A one-shot and its own cancel. -/
def ownRun : List Action :=
  [.borrow 0 .oneShot none, .arm 0, .start 0, .raise 0, .deliver 0 false]

theorem ownCancel_hits :
    ∃ s, Machine.run (step .mysql) .init ownRun = some s ∧ s.hits = [(0, 0)] ∧ HitsOwn s := by
  have hmeets : Machine.Meets (step .mysql) Guarded .init ownRun := by
    refine Machine.meets_cons rfl trivial (Machine.meets_cons rfl trivial
      (Machine.meets_cons rfl trivial (Machine.meets_cons rfl trivial
        (Machine.meets_cons rfl ?_ trivial))))
    intro o exit ho ht
    obtain rfl := Option.some.inj ho
    cases ht
  obtain ⟨s, hs⟩ : ∃ s, Machine.run (step .mysql) .init ownRun = some s := ⟨_, rfl⟩
  have hits : s.hits = [(0, 0)] := by
    obtain rfl := Option.some.inj hs
    rfl
  exact ⟨s, hs, hits, cancels_hit_own hs hmeets⟩

/-- Operation 0 is a cursor that is cancelled while its query runs, and whose exit
leaves the cancel live. Operation 1 is a write that borrows the connection after it,
and the request arrives there. -/
def staleRun (exit : Exit) : List Action :=
  [.borrow 0 .cursor none, .arm 0, .start 0, .raise 0, .finish 0, .leave 0 exit,
    .giveBack 0 false, .borrow 1 .oneShot (some 0), .arm 1, .start 1, .deliver 0 false]

/-- **The cancel of a MySQL cursor whose query failed, and of a Postgres cursor that
was read to its end, stops the write of another operation.** -/
theorem staleCancel_hits :
    (∃ s, Machine.run (step .mysql) .init (staleRun .executeFailed) = some s ∧ ¬HitsOwn s) ∧
      ∃ s, Machine.run (step .postgres) .init (staleRun .exhausted) = some s ∧ ¬HitsOwn s := by
  refine ⟨⟨_, rfl, ?_⟩, ⟨_, rfl, ?_⟩⟩
  · intro h
    have hit : (0 : Nat) = 1 := h (0, 1) (List.mem_singleton_self _)
    cases hit
  · intro h
    have hit : (0 : Nat) = 1 := h (0, 1) (List.mem_singleton_self _)
    cases hit

end RedDb.Driver.Cancel
