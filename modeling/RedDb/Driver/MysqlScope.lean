import Mathlib.Logic.Function.Basic
import RedDb.Lib.ByteText
import RedDb.Lib.Machine

/-!
# RedDb — databases over the MySQL pool

A MySQL connection sits in the database of its last `USE`, and the pool hands it out
again as it is. A handle is scoped to a namespace, and `conn` binds every connection
it borrows to that namespace; a handle without one leaves the connection alone, unless
the shared flag `rebind` says that some handle over the pool has moved connections off
the database that was dialled. A manual transaction pins the connection it has
borrowed, and the commands inside it run there.

`ran` records each operation: the database it was to run in, and the one it did.

* `ScopeInv.step` — while `rebind` is unset only user statements move connections;
* `inPlace_iff` — the runs in which every operation runs where it should;
* `strayUse_misplaces` — a user's `USE`, and a command inside a transaction.
-/

namespace RedDb.Driver.MysqlScope

open ByteText

abbrev Db := Bytes

/-! ## Handles -/

/-- A driver over the shared pool, as far as its namespace `ns` goes. -/
structure Handle where
  ns : Option Db

/-- The namespace a command carries; an empty name is none. -/
def requested (ns : Option Db) : Option Db := ns.filter fun n => !n.isEmpty

/-- `MysqlDriver::scoped`, and whether it sets `rebind`. The database that was dialled
is stored as no namespace. -/
def Handle.scoped (self : Handle) (defaultDb ns : Option Db) : Handle × Bool :=
  let wanted := requested ns
  if wanted = self.ns then (self, false)
  else
    let kept := wanted.filter fun n => some n != defaultDb
    (⟨kept⟩, kept.isSome)

/-- Where an operation through the handle is to run: nowhere in particular if neither
the handle nor the connection string names a database. -/
def Handle.wants (self : Handle) (defaultDb : Option Db) : Option Db :=
  self.ns.or defaultDb

/-- A handle that leaves the database dialled has set the flag. -/
theorem scoped_sets {self : Handle} {defaultDb ns : Option Db}
    (h : (self.scoped defaultDb ns).1.ns ≠ none) :
    (self.scoped defaultDb ns).1 = self ∨ (self.scoped defaultDb ns).2 = true := by
  unfold Handle.scoped at *
  by_cases hsame : requested ns = self.ns
  · rw [if_pos hsame]
    exact Or.inl rfl
  · rw [if_neg hsame] at *
    exact Or.inr (Option.isSome_iff_ne_none.mpr h)

/-! ## The pool -/

/-- Who named the database a connection sits in. -/
inductive Mover where
  | dial
  | handle
  | user
  deriving DecidableEq

/-- An operation that holds a connection. A manual transaction is one too. -/
structure Operation where
  handle : Handle
  conn : Nat
  bound : Bool

/-- Where an operation was to run, and where it ran. -/
structure Ran where
  wants : Option Db
  db : Option Db

def Ran.InPlace (r : Ran) : Prop := ∀ d, r.wants = some d → r.db = some d

structure Pool where
  handles : List Handle
  rebind : Bool
  opened : Nat
  free : List Nat
  db : Nat → Option Db
  mover : Nat → Mover
  ops : Nat → Option Operation
  ran : List Ran

inductive Action where
  /-- A handle is scoped off the one at `k`. -/
  | scope (k : Nat) (ns : Option Db)
  /-- `get_conn`: operation `i` through the handle at `k`. -/
  | take (i k : Nat) (source : Option Nat)
  /-- The rest of `conn`; the `USE` may fail. -/
  | bind (i : Nat) (ok : Bool)
  /-- A statement of the operation is itself a `USE`. -/
  | use (i : Nat) (db : Db)
  /-- A command that carries a namespace, inside the transaction of operation `i`. -/
  | execute (i : Nat) (ns : Option Db)
  | giveBack (i : Nat)

section Step

variable (defaultDb : Option Db)

/-- The pool once the driver has connected. -/
def Pool.init : Pool where
  handles := [⟨none⟩]
  rebind := false
  opened := 0
  free := []
  db := fun _ => defaultDb
  mover := fun _ => .dial
  ops := fun _ => none
  ran := []

def scope (s : Pool) (h : Handle) (ns : Option Db) : Pool :=
  let (h', sets) := h.scoped defaultDb ns
  { s with handles := s.handles ++ [h'], rebind := s.rebind || sets }

def take (s : Pool) (i : Nat) (h : Handle) : Option Nat → Option Pool
  | some c =>
    if s.ops i = none ∧ c ∈ s.free then
      some { s with
        free := s.free.filter fun d => d != c
        ops := Function.update s.ops i (some ⟨h, c, false⟩) }
    else none
  | none =>
    if s.ops i = none then
      some { s with
        opened := s.opened + 1
        ops := Function.update s.ops i (some ⟨h, s.opened, false⟩) }
    else none

/-- The database `conn` binds, if it binds one. -/
def bindOf (s : Pool) (h : Handle) : Option Db :=
  match h.ns with
  | some db => some db
  | none => if s.rebind then defaultDb else none

/-- A `USE` on connection `c`. -/
def Pool.moved (s : Pool) (c : Nat) (db : Db) (who : Mover) : Pool :=
  { s with db := Function.update s.db c (some db), mover := Function.update s.mover c who }

/-- The operation runs, where its connection is. -/
def Pool.run (s : Pool) (wants : Option Db) (c : Nat) : Pool :=
  { s with ran := s.ran ++ [⟨wants, s.db c⟩] }

def bind (s : Pool) (i : Nat) (o : Operation) (ok : Bool) : Option Pool :=
  if o.bound then none
  else
    let s' := { s with ops := Function.update s.ops i (some { o with bound := true }) }
    match bindOf defaultDb s o.handle with
    | some db => if ok then some ((s'.moved o.conn db .handle).run (o.handle.wants defaultDb) o.conn)
        else some { s with ops := Function.update s.ops i none, free := s.free ++ [o.conn] }
    | none => some (s'.run (o.handle.wants defaultDb) o.conn)

def step (s : Pool) : Action → Option Pool
  | .scope k ns => (s.handles[k]?).map fun h => scope defaultDb s h ns
  | .take i k source => (s.handles[k]?).bind fun h => take s i h source
  | .bind i ok => (s.ops i).bind fun o => bind defaultDb s i o ok
  | .use i db => (s.ops i).bind fun o =>
    if o.bound then some (s.moved o.conn db .user) else none
  | .execute i ns => (s.ops i).bind fun o =>
    if o.bound then some (s.run ((requested ns).or defaultDb) o.conn) else none
  | .giveBack i => (s.ops i).bind fun o =>
    if o.bound then
      some { s with ops := Function.update s.ops i none, free := s.free ++ [o.conn] }
    else none

/-- Every operation so far has run where it was to. -/
def InPlace (s : Pool) : Prop := ∀ r ∈ s.ran, r.InPlace

/-- An operation without a namespace does not borrow, while `rebind` is unset, a
connection that a user's `USE` has moved to another database. A command inside a
transaction finds the pinned connection in the database it is to run in. -/
def Keeps (s : Pool) : Action → Prop
  | .bind i _ => ∀ o, s.ops i = some o → o.bound = false → o.handle.ns = none →
      s.rebind = false → defaultDb ≠ none →
        s.mover o.conn = .user → s.db o.conn = defaultDb
  | .execute i ns => ∀ o, s.ops i = some o → o.bound = true →
      ∀ d, (requested ns).or defaultDb = some d → s.db o.conn = some d
  | _ => True

end Step

/-! ## What the flag is worth -/

/-- Handles that leave the database dialled have set the flag; and while it is unset,
a connection has left it only by a user's statement. -/
structure ScopeInv (defaultDb : Option Db) (s : Pool) : Prop where
  flagged : ∀ h ∈ s.handles, h.ns ≠ none → s.rebind = true
  known : ∀ i o, s.ops i = some o → o.handle ∈ s.handles
  still : s.rebind = false → ∀ c, s.mover c ≠ .user → s.db c = defaultDb

section Invariant

variable {defaultDb : Option Db} {s t : Pool}

theorem ScopeInv.init : ScopeInv defaultDb (.init defaultDb) where
  flagged h hmem hne := by
    rw [List.mem_singleton.mp hmem] at hne
    exact absurd rfl hne
  known i o ho := by cases ho
  still _ _ _ := rfl

/-- Operations come and go, with handles that exist. -/
theorem ScopeInv.withOps (h : ScopeInv defaultDb s) {ops : Nat → Option Operation}
    (hops : ∀ i o, ops i = some o → o.handle ∈ s.handles) (free : List Nat) (opened : Nat) :
    ScopeInv defaultDb { s with ops := ops, free := free, opened := opened } :=
  ⟨h.flagged, hops, h.still⟩

theorem ScopeInv.update (h : ScopeInv defaultDb s) {i : Nat} {o : Option Operation}
    (ho : ∀ p, o = some p → p.handle ∈ s.handles) :
    ∀ j p, Function.update s.ops i o j = some p → p.handle ∈ s.handles := by
  intro j p hp
  by_cases hji : j = i
  · subst hji
    rw [Function.update_self] at hp
    exact ho p hp
  · rw [Function.update_of_ne hji] at hp
    exact h.known j p hp

/-- A connection that is moved while the flag is set, or by a user. -/
theorem ScopeInv.moved (h : ScopeInv defaultDb s) (c : Nat) (db : Db) (who : Mover)
    (hwho : s.rebind = true ∨ who = .user) : ScopeInv defaultDb (s.moved c db who) :=
  { h with
    still := by
      intro hunset d hd
      have huser : who = .user := by
        refine hwho.resolve_left fun hset => ?_
        exact Bool.false_ne_true (hunset.symm.trans hset)
      by_cases hdc : d = c
      · subst hdc
        exact absurd ((Function.update_self _ _ _).trans huser) hd
      show Function.update s.db c (some db) d = defaultDb
      have hd' : Function.update s.mover c who d ≠ .user := hd
      rw [Function.update_of_ne hdc] at hd' ⊢
      exact h.still hunset d hd' }

theorem ScopeInv.scope (h : ScopeInv defaultDb s) {hd : Handle} (hmem : hd ∈ s.handles)
    (ns : Option Db) : ScopeInv defaultDb (scope defaultDb s hd ns) where
  flagged := by
    intro h' hh' hne
    show (s.rebind || (hd.scoped defaultDb ns).2) = true
    rcases List.mem_append.mp hh' with hh' | hh'
    · rw [h.flagged h' hh' hne, Bool.true_or]
    rw [List.mem_singleton.mp hh'] at hne
    rcases scoped_sets hne with hself | hsets
    · rw [h.flagged hd hmem (hself ▸ hne), Bool.true_or]
    · rw [hsets, Bool.or_true]
  known i o ho := List.mem_append_left _ (h.known i o ho)
  still := by
    intro hunset
    exact h.still (Bool.or_eq_false_iff.mp hunset).1

theorem bindOf_cases {h : Handle} {db : Db} (hdb : bindOf defaultDb s h = some db) :
    h.wants defaultDb = some db ∧ (h.ns ≠ none ∨ s.rebind = true) := by
  unfold bindOf at hdb
  unfold Handle.wants
  split at hdb
  · rename_i ns hns
    rw [hns]
    exact ⟨hdb, Or.inl (Option.some_ne_none _)⟩
  · rename_i hns
    obtain ⟨hset, hdb⟩ := Option.ite_none_right_eq_some.mp hdb
    rw [hns]
    exact ⟨hdb, Or.inr hset⟩

/-- **Every step keeps it**, whatever the users' statements are. -/
theorem ScopeInv.step {a : Action} (h : ScopeInv defaultDb s)
    (hstep : step defaultDb s a = some t) : ScopeInv defaultDb t := by
  cases a with
  | scope k ns =>
    obtain ⟨hd, hk, rfl⟩ := Option.map_eq_some_iff.mp hstep
    exact h.scope (List.mem_of_getElem? hk) ns
  | take i k source =>
    obtain ⟨hd, hk, hstep⟩ := Option.bind_eq_some_iff.mp hstep
    have hops : ∀ c j p, Function.update s.ops i (some ⟨hd, c, false⟩) j = some p →
        p.handle ∈ s.handles := by
      refine fun c => h.update fun p hp => ?_
      rw [← Option.some.inj hp]
      exact List.mem_of_getElem? hk
    cases source with
    | some c =>
      obtain ⟨-, ⟨⟩⟩ := Option.ite_none_right_eq_some.mp hstep
      exact h.withOps (hops c) _ _
    | none =>
      obtain ⟨-, ⟨⟩⟩ := Option.ite_none_right_eq_some.mp hstep
      exact h.withOps (hops s.opened) _ _
  | bind i ok =>
    obtain ⟨o, ho, hstep⟩ := Option.bind_eq_some_iff.mp hstep
    obtain ⟨-, hstep⟩ := Option.ite_none_left_eq_some.mp hstep
    have hbound := h.withOps (h.update (i := i) (o := some { o with bound := true })
      fun p hp => Option.some.inj hp ▸ h.known i o ho) s.free s.opened
    cases hdb : bindOf defaultDb s o.handle with
    | none =>
      simp only [hdb] at hstep
      obtain rfl := Option.some.inj hstep
      exact ⟨hbound.flagged, hbound.known, hbound.still⟩
    | some db =>
      simp only [hdb] at hstep
      have hset : s.rebind = true :=
        (bindOf_cases hdb).2.elim (h.flagged _ (h.known i o ho)) id
      split at hstep
      · obtain rfl := Option.some.inj hstep
        have hmoved := hbound.moved o.conn db .handle (Or.inl hset)
        exact ⟨hmoved.flagged, hmoved.known, hmoved.still⟩
      · obtain rfl := Option.some.inj hstep
        exact h.withOps (h.update fun p hp => by cases hp) _ _
  | use i db =>
    obtain ⟨o, -, hstep⟩ := Option.bind_eq_some_iff.mp hstep
    obtain ⟨-, ⟨⟩⟩ := Option.ite_none_right_eq_some.mp hstep
    exact h.moved o.conn db .user (Or.inr rfl)
  | execute i ns =>
    obtain ⟨o, -, hstep⟩ := Option.bind_eq_some_iff.mp hstep
    obtain ⟨-, ⟨⟩⟩ := Option.ite_none_right_eq_some.mp hstep
    exact ⟨h.flagged, h.known, h.still⟩
  | giveBack i =>
    obtain ⟨o, -, hstep⟩ := Option.bind_eq_some_iff.mp hstep
    obtain ⟨-, ⟨⟩⟩ := Option.ite_none_right_eq_some.mp hstep
    exact h.withOps (h.update fun p hp => by cases hp) _ _

/-! ## Where operations run -/

theorem inPlace_append {r : Ran} {ran : List Ran} (h : ∀ r ∈ ran, r.InPlace) :
    (∀ q ∈ ran ++ [r], q.InPlace) ↔ r.InPlace := by
  constructor
  · exact fun hall => hall r (List.mem_append_right _ (List.mem_singleton_self r))
  · intro hr q hq
    rcases List.mem_append.mp hq with hq | hq
    · exact h q hq
    · rw [List.mem_singleton.mp hq]
      exact hr

theorem bind_inPlace_iff {i : Nat} {o : Operation} {ok : Bool} (hinv : ScopeInv defaultDb s)
    (h : InPlace s) (ho : s.ops i = some o) (hstep : bind defaultDb s i o ok = some t) :
    InPlace t ↔ Keeps defaultDb s (.bind i ok) := by
  obtain ⟨hbound, hstep⟩ := Option.ite_none_left_eq_some.mp hstep
  have hkeeps : Keeps defaultDb s (.bind i ok) ↔ (o.handle.ns = none → s.rebind = false →
      defaultDb ≠ none → s.mover o.conn = .user → s.db o.conn = defaultDb) := by
    constructor
    · exact fun hk => hk o ho (by simpa using hbound)
    · intro hk o' ho' _
      obtain rfl : o = o' := Option.some.inj (ho.symm.trans ho')
      exact hk
  rw [hkeeps]
  cases hdb : bindOf defaultDb s o.handle with
  | some db =>
    obtain ⟨hwants, hwhy⟩ := bindOf_cases hdb
    simp only [hdb] at hstep
    have hvacuous : o.handle.ns = none → s.rebind = false → defaultDb ≠ none →
        s.mover o.conn = .user → s.db o.conn = defaultDb := by
      intro hns hunset
      rcases hwhy with hns' | hset
      · exact absurd hns hns'
      · exact absurd (hunset.symm.trans hset) Bool.false_ne_true
    refine iff_of_true ?_ hvacuous
    split at hstep
    · -- the `USE` has put the connection where the operation is to run
      obtain rfl := Option.some.inj hstep
      refine (inPlace_append h).mpr fun d hd => ?_
      have hdb' : d = db := Option.some.inj (hd.symm.trans hwants)
      rw [hdb']
      exact Function.update_self _ _ _
    · obtain rfl := Option.some.inj hstep
      exact h
  | none =>
    simp only [hdb] at hstep
    obtain rfl := Option.some.inj hstep
    refine (inPlace_append h).trans ?_
    have hns : o.handle.ns = none := by
      unfold bindOf at hdb
      split at hdb
      · cases hdb
      · assumption
    have hwants : o.handle.wants defaultDb = defaultDb := by
      unfold Handle.wants
      rw [hns, Option.none_or]
    constructor
    · intro hr _ _ hne _
      obtain ⟨d, hd⟩ := Option.ne_none_iff_exists'.mp hne
      rw [hd]
      exact hr d (hwants.trans hd)
    · intro hk d hd
      have hd' : defaultDb = some d := hwants.symm.trans hd
      have hne : defaultDb ≠ none := hd' ▸ Option.some_ne_none d
      have hunset : s.rebind = false := by
        cases hr : s.rebind with
        | false => rfl
        | true =>
          unfold bindOf at hdb
          simp only [hns, hr, if_true] at hdb
          exact absurd hdb hne
      show s.db o.conn = some d
      rw [← hd']
      by_cases hmover : s.mover o.conn = .user
      · exact hk hns hunset hne hmover
      · exact hinv.still hunset o.conn hmover

/-- **The steps after which every operation has run where it was to.** -/
theorem inPlace_step_iff {a : Action} (hinv : ScopeInv defaultDb s) (h : InPlace s)
    (hstep : step defaultDb s a = some t) : InPlace t ↔ Keeps defaultDb s a := by
  cases a with
  | scope k ns =>
    obtain ⟨hd, -, rfl⟩ := Option.map_eq_some_iff.mp hstep
    exact iff_of_true h trivial
  | take i k source =>
    obtain ⟨hd, -, hstep⟩ := Option.bind_eq_some_iff.mp hstep
    cases source with
    | some c | none =>
      obtain ⟨-, ⟨⟩⟩ := Option.ite_none_right_eq_some.mp hstep
      exact iff_of_true h trivial
  | bind i ok =>
    obtain ⟨o, ho, hstep⟩ := Option.bind_eq_some_iff.mp hstep
    exact bind_inPlace_iff hinv h ho hstep
  | use i db =>
    obtain ⟨o, -, hstep⟩ := Option.bind_eq_some_iff.mp hstep
    obtain ⟨-, ⟨⟩⟩ := Option.ite_none_right_eq_some.mp hstep
    exact iff_of_true h trivial
  | execute i ns =>
    obtain ⟨o, ho, hstep⟩ := Option.bind_eq_some_iff.mp hstep
    obtain ⟨hbound, ⟨⟩⟩ := Option.ite_none_right_eq_some.mp hstep
    refine (inPlace_append h).trans ⟨?_, fun hk => hk o ho hbound⟩
    intro hr o' ho' _
    obtain rfl : o = o' := Option.some.inj (ho.symm.trans ho')
    exact hr
  | giveBack i =>
    obtain ⟨o, -, hstep⟩ := Option.bind_eq_some_iff.mp hstep
    obtain ⟨-, ⟨⟩⟩ := Option.ite_none_right_eq_some.mp hstep
    exact iff_of_true h trivial

theorem keeps_of_idle {a : Action} (h : step defaultDb s a = none) : Keeps defaultDb s a := by
  cases a with
  | bind i ok =>
    intro o ho hbound
    simp only [step, ho, Option.bind_some, bind, hbound, Bool.false_eq_true, if_false] at h
    split at h
    · split at h
      · cases h
      · cases h
    · cases h
  | execute i ns =>
    intro o ho hbound
    simp only [step, ho, Option.bind_some, hbound, if_true] at h
    cases h
  | _ => trivial

end Invariant

/-- **Every operation of a run goes to its database exactly when** none without a
namespace borrows a connection that a user's `USE` has left elsewhere before any
handle set `rebind`, and every command inside a transaction carries the namespace its
pinned connection sits in. -/
theorem inPlace_iff (defaultDb : Option Db) (acts : List Action) :
    Machine.Always (step defaultDb) InPlace (.init defaultDb) acts ↔
      Machine.Meets (step defaultDb) (Keeps defaultDb) (.init defaultDb) acts :=
  Machine.always_iff_of_inv (fun _ _ _ hinv hstep => hinv.step hstep)
    (fun _ _ _ hinv h hstep => inPlace_step_iff hinv h hstep) (fun _ _ h => keeps_of_idle h)
    ScopeInv.init (fun _ hr => by cases hr)

/-- A statement that is a `USE`, and an operation that borrows its connection next. -/
def strayUse : List Action :=
  [.take 0 0 none, .bind 0 true, .use 0 (ascii "other"), .giveBack 0, .take 1 0 (some 0),
    .bind 1 true]

/-- A command with a namespace, executed inside a manual transaction. -/
def pinned : List Action := [.take 0 0 none, .bind 0 true, .execute 0 (some (ascii "other"))]

/-- **Over a connection string that names `app`, the second operation runs in `other`**,
and the command that asks for `other` runs in `app`. -/
theorem strayUse_misplaces :
    (∃ s, Machine.run (step (some (ascii "app"))) (.init (some (ascii "app"))) strayUse = some s ∧
        ⟨some (ascii "app"), some (ascii "other")⟩ ∈ s.ran) ∧
      (∃ s, Machine.run (step (some (ascii "app"))) (.init (some (ascii "app"))) pinned = some s ∧
        ⟨some (ascii "other"), some (ascii "app")⟩ ∈ s.ran) ∧
      ¬Machine.Always (step (some (ascii "app"))) InPlace (.init (some (ascii "app"))) strayUse ∧
      ¬Machine.Always (step (some (ascii "app"))) InPlace (.init (some (ascii "app"))) pinned := by
  have hstray : ∃ s, Machine.run (step (some (ascii "app"))) (.init (some (ascii "app"))) strayUse =
      some s ∧ ⟨some (ascii "app"), some (ascii "other")⟩ ∈ s.ran :=
    ⟨_, rfl, List.mem_cons_of_mem _ List.mem_cons_self⟩
  have hpinned : ∃ s, Machine.run (step (some (ascii "app"))) (.init (some (ascii "app"))) pinned =
      some s ∧ ⟨some (ascii "other"), some (ascii "app")⟩ ∈ s.ran :=
    ⟨_, rfl, List.mem_cons_of_mem _ List.mem_cons_self⟩
  have hne : ascii "app" ≠ ascii "other" := by decide
  refine ⟨hstray, hpinned, fun h => ?_, fun h => ?_⟩
  · obtain ⟨s, hs, hmem⟩ := hstray
    have hdb := Machine.always_run h hs _ hmem _ rfl
    exact hne (Option.some.inj hdb).symm
  · obtain ⟨s, hs, hmem⟩ := hpinned
    have hdb := Machine.always_run h hs _ hmem _ rfl
    exact hne (Option.some.inj hdb)

end RedDb.Driver.MysqlScope
