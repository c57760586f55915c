import Mathlib.Logic.Relation
import RedDb.Lib.Interaction
import RedDb.Driver.Edits

/-!
# RedDb — write batches over the pooled Postgres connections

`apply_edits` and `insert_rows` borrow a connection of the free list, run
`BEGIN`, their statements and `COMMIT` on it and hand it back, whichever way they
end. Batches run side by side, each on a connection of its own, and the next
borrower of a connection finds the session as the last one left it. `Step` is one
exchange of one batch, or a move of the pool.

What happens inside Postgres is a `Backend`: a parameter with the documented
behaviour of transaction blocks as its laws. Statements carry the number of the
batch that issued them, so that a commit shows whose work it makes durable.

* `onClient_settles` — a batch whose values can all be bound ends with no open block;
* `Step.sound` — so every move keeps the pool's promise, `Clean`;
* `pool_clean_iff` — which holds of all runs exactly for such batches;
* `cappedEdit_leaks` — a run with a capped value, and what the next batch commits.
-/

namespace RedDb.Driver

open ByteText

/-! ## Sessions -/

/-- What a write batch sends on its connection. -/
inductive Command (Stmt : Type) where
  | begin
  | commit
  | rollback
  | execute (stmt : Stmt)

def Command.map {Stmt Stmt' : Type} (f : Stmt → Stmt') : Command Stmt → Command Stmt'
  | begin => begin
  | commit => commit
  | rollback => rollback
  | execute stmt => execute (f stmt)

/-- The client library's answer: the rows affected, or its error. -/
inductive Reply where
  | done (affected : Nat)
  | failed (e : PgError)

/-- Postgres sessions, as far as transaction blocks go. `block` holds the
statements a `COMMIT` would make durable, none outside a block; `exec` also says
what the command made durable. A session that lost its connection is `dead`: the
server has rolled back, and nothing reaches it any more. -/
structure Backend (Stmt : Type) where
  Session : Type
  dead : Session → Prop
  isClosed : Session → Bool
  fresh : Session → Prop
  block : Session → Option (List Stmt)
  exec : Session → Command Stmt → Reply → Session → List Stmt → Prop
  fresh_block : ∀ {s}, fresh s → block s = none
  dead_block : ∀ {s}, dead s → block s = none
  dead_exec : ∀ {s c r t d}, dead s → exec s c r t d → dead t ∧ d = []
  /-- `BEGIN` makes nothing durable and adds nothing to a block already open. -/
  begin_held : ∀ {s r t d}, exec s .begin r t d →
    d = [] ∧ ∀ x ∈ (block t).getD [], x ∈ (block s).getD []
  begin_done : ∀ {s n t d}, exec s .begin (.done n) t d → dead t ∨ block t ≠ none
  begin_failed : ∀ {s e t d}, exec s .begin (.failed e) t d → block s = none → block t = none
  /-- A statement of a block joins it, or fails and spoils it; the block stays open. -/
  execute_held : ∀ {s x r t d}, exec s (.execute x) r t d → block s ≠ none →
    d = [] ∧ (dead t ∨ block t ≠ none) ∧ ∀ y ∈ (block t).getD [], y = x ∨ y ∈ (block s).getD []
  /-- `COMMIT` ends the block even when it fails, and makes durable what the block holds. -/
  commit_block : ∀ {s r t d}, exec s .commit r t d →
    block t = none ∧ ∀ x ∈ d, x ∈ (block s).getD []
  rollback_block : ∀ {s r t d}, exec s .rollback r t d → block t = none ∧ d = []

/-! ## The two write batches -/

/-- A rendered statement and its bound parameters. -/
structure Statement where
  sql : Bytes
  params : List Param

/-- A program on one borrowed connection. -/
abbrev OnClient (α : Type) := Prog (Command Statement) Reply (Except RedError α)

/-- `client.batch_execute(..).await.map_err(map_pg_err)?`. -/
def batchExecute (c : Command Statement) : OnClient Unit :=
  .call c fun
    | .done _ => .pure (.ok ())
    | .failed e => .pure (.error (mapPgErr e))

/-- `ROLLBACK`, a failure of which is only logged, then the error. -/
def rollbackWith {α : Type} (e : RedError) : OnClient α :=
  .call .rollback fun _ => .pure (.error e)

/-- The statements of a batch of edits. A value that cannot be bound ends it then
and there. -/
def applyEditsLoop : List EditOp → Nat → OnClient Nat
  | [], total => .pure (.ok total)
  | op :: ops, total =>
    let rendered := editSql pgQuote pgPlaceholder op
    match pgParams rendered.2 with
    | .error e => .pure (.error e)
    | .ok boxed =>
      .call (.execute ⟨rendered.1, boxed⟩) fun
        | .done affected =>
          if affected ≠ 1 then rollbackWith (editCountErr op affected)
          else applyEditsLoop ops (total + affected)
        | .failed e => rollbackWith (mapPgErr e)

def applyEdits (ops : List EditOp) : OnClient Nat :=
  (batchExecute .begin).andThen fun _ =>
    (applyEditsLoop ops 0).andThen fun total =>
      (batchExecute .commit).andThen fun _ => .pure (.ok total)

/-- The statements of a bulk insert, one for each chunk of rows. -/
def insertRowsLoop (table : TableRef) (columns : List Column) :
    List (List (List Value)) → Nat → OnClient Nat
  | [], total => .pure (.ok total)
  | chunk :: rest, total =>
    let rendered := insertSql pgQuote pgPlaceholder table columns chunk
    match pgParams rendered.2 with
    | .error e => .pure (.error e)
    | .ok boxed =>
      .call (.execute ⟨rendered.1, boxed⟩) fun
        | .done affected => insertRowsLoop table columns rest (total + affected)
        | .failed e => rollbackWith (mapPgErr e)

def insertRows (table : TableRef) (columns : List Column) (rows : List (List Value)) :
    OnClient Nat :=
  (batchExecute .begin).andThen fun _ =>
    let max := insertChunkRows columns.length pgParamCap
    (insertRowsLoop table columns (chunks max rows) 0).andThen fun total =>
      (batchExecute .commit).andThen fun _ => .pure (.ok total)

/-- A call of one of the two. -/
inductive Batch where
  | edits (ops : List EditOp)
  | insert (table : TableRef) (columns : List Column) (rows : List (List Value))

/-- What runs on the borrowed connection; an empty batch borrows none. -/
def Batch.onClient : Batch → Option (OnClient Nat)
  | .edits ops => if ops.isEmpty then none else some (applyEdits ops)
  | .insert table columns rows =>
    if rows.isEmpty then none else some (insertRows table columns rows)

/-- The `column = value` pairs of a batch. -/
def Batch.pairs : Batch → List ColumnValue
  | .edits ops => ops.flatMap EditOp.pairs
  | .insert _ columns rows => rows.flatMap (cells columns)

/-- Every value of the batch can be bound. -/
def Batch.Whole (batch : Batch) : Prop := ∀ cv ∈ batch.pairs, cv.value.isCapped = false

instance (batch : Batch) : Decidable batch.Whole :=
  List.decidableBAll (fun cv : ColumnValue => cv.value.isCapped = false) batch.pairs

/-! ## A batch on its connection -/

variable {batch : Batch} {p : OnClient Nat}

section OnClient

variable (B : Backend (Nat × Statement)) (id : Nat)

/-- The connection as batch `id` uses it: a statement runs only inside a block,
for outside one it would be durable at once. -/
def clientEnv : Prog.Env (Command Statement) Reply B.Session where
  serve s c r t := ∃ d, B.exec s (c.map (Prod.mk id)) r t d
  allowed s c := ∀ x, c = .execute x → B.dead s ∨ B.block s ≠ none

/-- What the statements of a batch owe the rest of it: an error leaves no block. -/
def Unwound {α : Type} (a : Except RedError α) (t : B.Session) : Prop :=
  ∀ e, a = .error e → B.block t = none

variable {B id} {s : B.Session}

theorem rollbackWith_unwound {α : Type} (e : RedError) :
    Prog.wp (clientEnv B id) (Unwound B) (rollbackWith (α := α) e) s := by
  refine ⟨fun _ hx => (by cases hx), ?_⟩
  rintro r t ⟨d, hd⟩ e' -
  exact (B.rollback_block hd).1

/-- One statement of a batch. What is left when it failed is `rollbackWith`. -/
theorem execute_unwound {x : Statement} {k : Reply → OnClient Nat}
    (hblock : B.dead s ∨ B.block s ≠ none) (hdone : ∀ n t, B.dead t ∨ B.block t ≠ none →
      Prog.wp (clientEnv B id) (Unwound B) (k (.done n)) t)
    (hfailed : ∀ e, k (.failed e) = rollbackWith (mapPgErr e)) :
    Prog.wp (clientEnv B id) (Unwound B) (.call (.execute x) k) s := by
  refine ⟨fun _ _ => hblock, ?_⟩
  rintro r t ⟨d, hd⟩
  cases r with
  | failed e =>
    rw [hfailed e]
    exact rollbackWith_unwound (mapPgErr e)
  | done n =>
    refine hdone n t ?_
    rcases hblock with hdead | hopen
    · exact Or.inl (B.dead_exec hdead hd).1
    · exact (B.execute_held hd hopen).2.1

theorem applyEditsLoop_unwound {ops : List EditOp} (total : Nat)
    (hwhole : ∀ op ∈ ops, ∀ cv ∈ op.pairs, cv.value.isCapped = false)
    (hblock : B.dead s ∨ B.block s ≠ none) :
    Prog.wp (clientEnv B id) (Unwound B) (applyEditsLoop ops total) s := by
  induction ops generalizing s total with
  | nil =>
    rintro e ⟨⟩
  | cons op ops ih =>
    rw [List.forall_mem_cons] at hwhole
    obtain ⟨ps, hps⟩ := (pgParams_bound_isOk_iff op.pairs).mpr hwhole.1
    rw [← editSql_params pgQuote pgPlaceholder op] at hps
    unfold applyEditsLoop
    simp only [hps]
    refine execute_unwound hblock ?_ fun _ => rfl
    intro n t ht
    simp only
    split
    · exact rollbackWith_unwound _
    · exact ih _ hwhole.2 ht

theorem insertRowsLoop_unwound {table : TableRef} {columns : List Column}
    {chunks : List (List (List Value))} (total : Nat)
    (hwhole : ∀ chunk ∈ chunks, ∀ cv ∈ chunk.flatMap (cells columns), cv.value.isCapped = false)
    (hblock : B.dead s ∨ B.block s ≠ none) :
    Prog.wp (clientEnv B id) (Unwound B) (insertRowsLoop table columns chunks total) s := by
  induction chunks generalizing s total with
  | nil =>
    rintro e ⟨⟩
  | cons chunk rest ih =>
    rw [List.forall_mem_cons] at hwhole
    obtain ⟨ps, hps⟩ := (pgParams_bound_isOk_iff (chunk.flatMap (cells columns))).mpr hwhole.1
    rw [← insertSql_params pgQuote pgPlaceholder table columns chunk] at hps
    unfold insertRowsLoop
    simp only [hps]
    refine execute_unwound hblock ?_ fun _ => rfl
    intro n t ht
    exact ih _ hwhole.2 ht

/-- `BEGIN`, statements that unwind on an error, `COMMIT`: no block is left. -/
theorem transaction_settles (hidle : B.block s = none)
    (hp : ∀ t, B.dead t ∨ B.block t ≠ none → Prog.wp (clientEnv B id) (Unwound B) p t) :
    Prog.wp (clientEnv B id) (fun _ t => B.block t = none)
      ((batchExecute .begin).andThen fun _ => p.andThen fun total =>
        (batchExecute .commit).andThen fun _ => .pure (.ok total)) s := by
  refine Prog.wp_andThen ⟨fun _ hx => (by cases hx), ?_⟩
  rintro r t ⟨d, hd⟩
  cases r with
  | failed e => exact B.begin_failed hd hidle
  | done n =>
    refine Prog.wp_andThen (Prog.wp_mono (hp t (B.begin_done hd)) ?_)
    intro a u hu
    cases a with
    | error e => exact hu e rfl
    | ok total =>
      refine Prog.wp_andThen ⟨fun _ hx => (by cases hx), ?_⟩
      rintro r v ⟨d', hd'⟩
      have hend := (B.commit_block hd').1
      cases r with
      | done n | failed e => exact hend

/-- **A batch whose values can all be bound ends with no open block**, however the
server answers. -/
theorem onClient_settles (hp : batch.onClient = some p)
    (hwhole : batch.Whole) (hidle : B.block s = none) :
    Prog.wp (clientEnv B id) (fun _ t => B.block t = none) p s := by
  cases batch with
  | edits ops =>
    obtain ⟨-, ⟨⟩⟩ := Option.ite_none_left_eq_some.mp hp
    refine transaction_settles hidle fun t ht => applyEditsLoop_unwound 0 ?_ ht
    intro op hop cv hcv
    exact hwhole cv (List.mem_flatMap.mpr ⟨op, hop, hcv⟩)
  | insert table columns rows =>
    obtain ⟨-, ⟨⟩⟩ := Option.ite_none_left_eq_some.mp hp
    refine transaction_settles hidle fun t ht => insertRowsLoop_unwound 0 ?_ ht
    intro chunk hchunk cv hcv
    obtain ⟨row, hrow, hcv⟩ := List.mem_flatMap.mp hcv
    exact hwhole cv (List.mem_flatMap.mpr ⟨row, mem_chunks_iff.mp ⟨chunk, hchunk, hrow⟩, hcv⟩)

end OnClient

/-! ## Batches side by side over the pool -/

/-- A batch that holds a connection, and what it has left to do there. -/
structure Held (B : Backend (Nat × Statement)) where
  id : Nat
  prog : OnClient Nat
  conn : B.Session

/-- What one command of batch `id` made durable. -/
structure Commit where
  id : Nat
  durable : List (Nat × Statement)

/-- The free list, last released first; the batches at work; how many have been
issued; and what was committed and reported so far. -/
structure Pool (B : Backend (Nat × Statement)) where
  free : List B.Session
  held : List (Held B)
  issued : Nat
  log : List Commit
  reports : List (Nat × Except RedError Nat)

section Steps

variable (B : Backend (Nat × Statement))

def Pool.init : Pool B := ⟨[], [], 0, [], []⟩

/-- Pop a live connection; the closed ones above it are dropped. -/
def popLive : List B.Session → Option B.Session × List B.Session
  | [] => (none, [])
  | c :: rest => if B.isClosed c then popLive rest else (some c, rest)

def fetchPoolCap : Nat := 4

def releaseTo (free : List B.Session) (client : B.Session) : List B.Session :=
  if B.isClosed client then free
  else if free.length < fetchPoolCap then client :: free
  else free

/-- `acquire`: a pooled connection, or a fresh one when the free list has none. -/
inductive Acquires (free : List B.Session) : B.Session → List B.Session → Prop where
  | pooled {c rest} (h : popLive B free = (some c, rest)) : Acquires free c rest
  | opened {c rest} (h : popLive B free = (none, rest)) (hfresh : B.fresh c) : Acquires free c rest

/-- One move of the batches and their pool. `ok` says which batches are issued. -/
inductive Step (ok : Batch → Prop) (S : Pool B) : Pool B → Prop where
  /-- An empty batch is done before it borrows a connection. -/
  | empty (batch : Batch) (hok : ok batch) (h : batch.onClient = none) :
      Step ok S { S with issued := S.issued + 1, reports := S.reports ++ [(S.issued, .ok 0)] }
  | start (batch : Batch) (hok : ok batch) {p conn free} (h : batch.onClient = some p)
      (hconn : Acquires B S.free conn free) :
      Step ok S { S with free := free, held := S.held ++ [⟨S.issued, p, conn⟩],
                         issued := S.issued + 1 }
  /-- No connection could be opened. -/
  | refused (batch : Batch) (hok : ok batch) {p free} (h : batch.onClient = some p)
      (hnone : popLive B S.free = (none, free)) (msg : String) :
      Step ok S { S with free := free, issued := S.issued + 1,
                         reports := S.reports ++ [(S.issued, .error (.connect msg))] }
  /-- One batch exchanges one command with its server. -/
  | exchange {pre post : List (Held B)} {id c k conn r conn' d}
      (h : S.held = pre ++ ⟨id, .call c k, conn⟩ :: post)
      (hexec : B.exec conn (c.map (Prod.mk id)) r conn' d) :
      Step ok S { S with held := pre ++ ⟨id, k r, conn'⟩ :: post, log := S.log ++ [⟨id, d⟩] }
  /-- A batch that is through hands its connection back and reports. -/
  | finish {pre post : List (Held B)} {id a conn}
      (h : S.held = pre ++ ⟨id, .pure a, conn⟩ :: post) :
      Step ok S { S with free := releaseTo B S.free conn, held := pre ++ post,
                         reports := S.reports ++ [(id, a)] }
  /-- A batch is dropped midway, and its connection with it. -/
  | hangup {pre post : List (Held B)} {call} (h : S.held = pre ++ call :: post) :
      Step ok S { S with held := pre ++ post }
  /-- An idle connection is lost. -/
  | lost {pre post : List B.Session} {c c'} (h : S.free = pre ++ c :: post) (hdead : B.dead c') :
      Step ok S { S with free := pre ++ c' :: post }

/-- The pools some sequence of moves leads to. -/
abbrev Reaches (ok : Batch → Prop) : Pool B → Prop :=
  Relation.ReflTransGen (Step B ok) (Pool.init B)

end Steps

/-- **The promise of the pool**: no free connection is inside a transaction, and
whatever became durable was made so by the batch that issued it. -/
structure Clean {B : Backend (Nat × Statement)} (S : Pool B) : Prop where
  idle : ∀ c ∈ S.free, B.block c = none
  own : ∀ e ∈ S.log, ∀ x ∈ e.durable, x.1 = e.id

/-- A batch at work will leave no block, and the open one holds its statements only. -/
structure Held.Sound {B : Backend (Nat × Statement)} (h : Held B) : Prop where
  settles : Prog.wp (clientEnv B h.id) (fun _ t => B.block t = none) h.prog h.conn
  own : ∀ x ∈ (B.block h.conn).getD [], x.1 = h.id

structure Pool.Sound {B : Backend (Nat × Statement)} (S : Pool B) : Prop extends Clean S where
  held : ∀ h ∈ S.held, h.Sound

variable {id : Nat}

section Invariant

variable {B : Backend (Nat × Statement)} {S S' : Pool B}

theorem popLive_subset (free : List B.Session) :
    (∀ c, (popLive B free).1 = some c → c ∈ free) ∧ ∀ c ∈ (popLive B free).2, c ∈ free := by
  induction free with
  | nil => exact ⟨fun c h => (by cases h), fun c h => h⟩
  | cons c rest ih =>
    unfold popLive
    split
    · exact ⟨fun x hx => List.mem_cons_of_mem _ (ih.1 x hx),
        fun x hx => List.mem_cons_of_mem _ (ih.2 x hx)⟩
    · refine ⟨?_, fun x hx => List.mem_cons_of_mem _ hx⟩
      rintro x ⟨⟩
      exact List.mem_cons_self ..

theorem mem_releaseTo {free : List B.Session} {c x : B.Session} (h : x ∈ releaseTo B free c) :
    x = c ∨ x ∈ free := by
  unfold releaseTo at h
  split at h
  · exact Or.inr h
  · split at h
    · exact List.mem_cons.mp h
    · exact Or.inr h

/-- What a connection is like when it is acquired from a clean free list. -/
theorem Acquires.idle {free free' : List B.Session} {c : B.Session}
    (h : Acquires B free c free') (hidle : ∀ c ∈ free, B.block c = none) :
    B.block c = none ∧ ∀ c ∈ free', B.block c = none := by
  have hsub := popLive_subset free
  cases h with
  | pooled hpop =>
    rw [hpop] at hsub
    exact ⟨hidle c (hsub.1 c rfl), fun x hx => hidle x (hsub.2 x hx)⟩
  | opened hpop hfresh =>
    rw [hpop] at hsub
    exact ⟨B.fresh_block hfresh, fun x hx => hidle x (hsub.2 x hx)⟩

/-- **One exchange** of a sound batch leaves it sound and commits only what is its own. -/
theorem Held.Sound.exchange {c : Command Statement} {k : Reply → OnClient Nat}
    {conn conn' : B.Session} {r : Reply} {d : List (Nat × Statement)}
    (h : Held.Sound (B := B) ⟨id, .call c k, conn⟩)
    (hexec : B.exec conn (c.map (Prod.mk id)) r conn' d) :
    Held.Sound (B := B) ⟨id, k r, conn'⟩ ∧ ∀ x ∈ d, x.1 = id := by
  obtain ⟨hsettles, hown⟩ := h
  simp only at hsettles hown
  have hnext := Prog.wp_reply hsettles ⟨d, hexec⟩
  have hnil : ∀ {s : B.Session}, B.block s = none → ∀ x ∈ (B.block s).getD [], x.1 = id := by
    intro s hs x hx
    rw [hs] at hx
    exact absurd hx List.not_mem_nil
  cases c with
  | begin =>
    obtain ⟨rfl, hheld⟩ := B.begin_held hexec
    exact ⟨⟨hnext, fun x hx => hown x (hheld x hx)⟩, fun x hx => absurd hx List.not_mem_nil⟩
  | commit =>
    obtain ⟨hend, hdur⟩ := B.commit_block hexec
    exact ⟨⟨hnext, hnil hend⟩, fun x hx => hown x (hdur x hx)⟩
  | rollback =>
    obtain ⟨hend, rfl⟩ := B.rollback_block hexec
    exact ⟨⟨hnext, hnil hend⟩, fun x hx => absurd hx List.not_mem_nil⟩
  | execute x =>
    rcases hsettles.1 x rfl with hdead | hopen
    · obtain ⟨hdead', rfl⟩ := B.dead_exec hdead hexec
      exact ⟨⟨hnext, hnil (B.dead_block hdead')⟩, fun x hx => absurd hx List.not_mem_nil⟩
    obtain ⟨rfl, -, hheld⟩ := B.execute_held hexec hopen
    refine ⟨⟨hnext, fun y hy => ?_⟩, fun x hx => absurd hx List.not_mem_nil⟩
    rcases hheld y hy with rfl | hy
    · rfl
    · exact hown y hy

theorem held_mem_middle {h h' : Held B} {pre post : List (Held B)}
    (hh : ∀ x ∈ pre ++ h :: post, x.Sound) (hnew : h'.Sound) : ∀ x ∈ pre ++ h' :: post, x.Sound := by
  intro x hx
  rcases List.mem_append.mp hx with hx | hx
  · exact hh x (List.mem_append_left _ hx)
  · rcases List.mem_cons.mp hx with rfl | hx
    · exact hnew
    · exact hh x (List.mem_append_right _ (List.mem_cons_of_mem _ hx))

theorem held_mem_erase {h : Held B} {pre post : List (Held B)}
    (hh : ∀ x ∈ pre ++ h :: post, x.Sound) : ∀ x ∈ pre ++ post, x.Sound := by
  intro x hx
  rcases List.mem_append.mp hx with hx | hx
  · exact hh x (List.mem_append_left _ hx)
  · exact hh x (List.mem_append_right _ (List.mem_cons_of_mem _ hx))

/-- Every move keeps the pool sound, as long as the batches issued are whole. -/
theorem Step.sound {ok : Batch → Prop} (hok : ∀ batch, ok batch → batch.Whole) (hS : S.Sound)
    (h : Step B ok S S') : S'.Sound := by
  cases h with
  | empty batch hbatch hnone => exact ⟨⟨hS.idle, hS.own⟩, hS.held⟩
  | start batch hbatch hp hconn =>
    obtain ⟨hc, hfree⟩ := hconn.idle hS.idle
    refine ⟨⟨hfree, hS.own⟩, ?_⟩
    intro x hx
    rcases List.mem_append.mp hx with hx | hx
    · exact hS.held x hx
    rw [List.mem_singleton.mp hx]
    refine ⟨onClient_settles hp (hok batch hbatch) hc, fun y hy => ?_⟩
    simp only [hc, Option.getD_none] at hy
    exact absurd hy List.not_mem_nil
  | refused batch hbatch hp hnone msg =>
    have hfree := (popLive_subset S.free).2
    rw [hnone] at hfree
    exact ⟨⟨fun c hc => hS.idle c (hfree c hc), hS.own⟩, hS.held⟩
  | exchange hheld hexec =>
    have hall := hS.held
    rw [hheld] at hall
    have hthis := hall _ (List.mem_append_right _ (List.mem_cons_self ..))
    obtain ⟨hnext, hown⟩ := hthis.exchange hexec
    refine ⟨⟨hS.idle, ?_⟩, held_mem_middle hall hnext⟩
    intro e he
    rcases List.mem_append.mp he with he | he
    · exact hS.own e he
    · rw [List.mem_singleton.mp he]
      exact hown
  | finish hheld =>
    have hall := hS.held
    rw [hheld] at hall
    have hthis := hall _ (List.mem_append_right _ (List.mem_cons_self ..))
    refine ⟨⟨?_, hS.own⟩, held_mem_erase hall⟩
    intro c hc
    rcases mem_releaseTo hc with rfl | hc
    · exact hthis.settles
    · exact hS.idle c hc
  | hangup hheld =>
    have hall := hS.held
    rw [hheld] at hall
    exact ⟨⟨hS.idle, hS.own⟩, held_mem_erase hall⟩
  | lost hfree hdead =>
    refine ⟨⟨?_, hS.own⟩, hS.held⟩
    intro c hc
    have hidle := hS.idle
    rw [hfree] at hidle
    rcases List.mem_append.mp hc with hc | hc
    · exact hidle c (List.mem_append_left _ hc)
    · rcases List.mem_cons.mp hc with rfl | hc
      · exact B.dead_block hdead
      · exact hidle c (List.mem_append_right _ (List.mem_cons_of_mem _ hc))

theorem sound_init : (Pool.init B).Sound :=
  ⟨⟨fun _ hc => absurd hc List.not_mem_nil, fun _ he => absurd he List.not_mem_nil⟩,
    fun _ hh => absurd hh List.not_mem_nil⟩

end Invariant

/-- Batches of bindable values keep the promise, in any order and however the
server answers each command. -/
theorem clean_of_whole {B : Backend (Nat × Statement)} {ok : Batch → Prop}
    (hok : ∀ batch, ok batch → batch.Whole) {S : Pool B} (h : Reaches B ok S) : Clean S := by
  have hsound : S.Sound := by
    induction h with
    | refl => exact sound_init
    | tail _ hstep ih => exact hstep.sound hok ih
  exact hsound.toClean

/-! ## A server that accepts everything -/

/-- The answer of a server that refuses no statement; the state is the open block. -/
def obligingAnswer (s : Option (List (Nat × Statement))) :
    Command (Nat × Statement) →
      Reply × Option (List (Nat × Statement)) × List (Nat × Statement)
  | .begin => (.done 0, some (s.getD []), [])
  | .commit => (.done 0, none, s.getD [])
  | .rollback => (.done 0, none, [])
  | .execute x =>
    match s with
    | none => (.done 1, none, [x])
    | some block => (.done 1, some (block ++ [x]), [])

abbrev obliging : Backend (Nat × Statement) where
  Session := Option (List (Nat × Statement))
  dead _ := False
  isClosed _ := false
  fresh s := s = none
  block s := s
  exec s c r t d := obligingAnswer s c = (r, t, d)
  fresh_block h := h
  dead_block h := h.elim
  dead_exec h := h.elim
  begin_held := by
    rintro s r t d ⟨⟩
    exact ⟨rfl, fun x hx => hx⟩
  begin_done := by
    rintro s n t d ⟨⟩
    exact Or.inr (Option.some_ne_none _)
  begin_failed := by
    rintro s e t d ⟨⟩
  execute_held := by
    rintro (_ | block) x r t d ⟨⟩ hopen
    · exact absurd rfl hopen
    · refine ⟨rfl, Or.inr (Option.some_ne_none _), ?_⟩
      intro y hy
      exact (List.mem_append.mp hy).symm.imp_left List.mem_singleton.mp
  commit_block := by
    rintro s r t d ⟨⟩
    exact ⟨rfl, fun x hx => hx⟩
  rollback_block := by
    rintro s r t d ⟨⟩
    exact ⟨rfl, rfl⟩

section Serial

/-- A program served to its end: the answer, the session it leaves, the commits. -/
def obligingRun {α : Type} (id : Nat) : OnClient α → Option (List (Nat × Statement)) →
    Except RedError α × Option (List (Nat × Statement)) × List Commit
  | .pure a, s => (a, s, [])
  | .call c k, s =>
    let (r, t, d) := obligingAnswer s (c.map (Prod.mk id))
    let (a, u, log) := obligingRun id (k r) t
    (a, u, ⟨id, d⟩ :: log)

/-- One batch from start to finish, with no other at work. -/
def submit (batch : Batch) (S : Pool obliging) : Pool obliging :=
  match batch.onClient with
  | none => { S with issued := S.issued + 1, reports := S.reports ++ [(S.issued, .ok 0)] }
  | some p =>
    let conn := S.free.head?.getD none
    let ended := obligingRun S.issued p conn
    { free := releaseTo obliging S.free.tail ended.2.1, held := [], issued := S.issued + 1,
      log := S.log ++ ended.2.2, reports := S.reports ++ [(S.issued, ended.1)] }

variable {ok : Batch → Prop}

theorem obligingRun_steps {conn : obliging.Session}
    {S : Pool obliging} (h : S.held = [⟨id, p, conn⟩]) :
    Relation.ReflTransGen (Step obliging ok) S
      { S with free := releaseTo obliging S.free (obligingRun id p conn).2.1, held := [],
               log := S.log ++ (obligingRun id p conn).2.2,
               reports := S.reports ++ [(id, (obligingRun id p conn).1)] } := by
  induction p generalizing S conn with
  | pure a =>
    have hlast : S.held = [] ++ ⟨id, .pure a, conn⟩ :: [] := h
    simp only [obligingRun, List.append_nil]
    exact .single (.finish hlast)
  | call c k ih =>
    rcases hans : obligingAnswer conn (c.map (Prod.mk id)) with ⟨r, t, d⟩
    have hone : S.held = [] ++ ⟨id, .call c k, conn⟩ :: [] := h
    have hrest := ih r (S := { S with held := [⟨id, k r, t⟩], log := S.log ++ [⟨id, d⟩] }) rfl
    simp only [obligingRun, hans]
    rw [List.append_cons]
    exact .head (.exchange hone hans) hrest

theorem submit_steps {S : Pool obliging} (hok : ok batch) (h : S.held = []) :
    Relation.ReflTransGen (Step obliging ok) S (submit batch S) := by
  unfold submit
  split
  · rename_i hnone
    exact .single (.empty batch hok hnone)
  rename_i p hp
  have hconn : Acquires obliging S.free (S.free.head?.getD none) S.free.tail := by
    cases hfree : S.free with
    | nil => exact .opened rfl rfl
    | cons c rest => exact .pooled rfl
  refine .head (.start batch hok hp hconn) (obligingRun_steps ?_)
  rw [h, List.nil_append]

/-- A program that fails takes what follows the `?` with it. -/
theorem obligingRun_andThen {α : Type} {p : OnClient α} {f : α → OnClient Nat}
    {s : Option (List (Nat × Statement))} {e : RedError} (h : (obligingRun id p s).1 = .error e) :
    (obligingRun id (p.andThen f) s).2.1 = (obligingRun id p s).2.1 := by
  unfold Prog.andThen
  induction p generalizing s with
  | pure a =>
    obtain rfl : a = .error e := h
    rfl
  | call c k ih => exact ih _ h

/-- The first edit that cannot be bound ends the statements inside the block. -/
theorem applyEditsLoop_refused {ops : List EditOp} (total : Nat)
    (block : List (Nat × Statement)) (h : ∃ op ∈ ops, ∃ cv ∈ op.pairs, cv.value.isCapped = true) :
    ∃ e, (obligingRun id (applyEditsLoop ops total) (some block)).1 = .error e ∧
      (obligingRun id (applyEditsLoop ops total) (some block)).2.1 ≠ none := by
  induction ops generalizing total block with
  | nil => simp at h
  | cons op ops ih =>
    unfold applyEditsLoop
    cases hps : pgParams (editSql pgQuote pgPlaceholder op).2 with
    | error e =>
      simp only [hps]
      exact ⟨e, rfl, Option.some_ne_none _⟩
    | ok ps =>
      simp only [hps]
      rw [editSql_params] at hps
      have hop := (pgParams_bound_isOk_iff op.pairs).mp ⟨ps, hps⟩
      refine ih (total + 1) (block ++ [(id, _)]) ?_
      obtain ⟨op', hop', cv, hcv, hcapped⟩ := h
      rcases List.mem_cons.mp hop' with rfl | hop'
      · rw [hop cv hcv] at hcapped
        exact absurd hcapped Bool.false_ne_true
      · exact ⟨op', hop', cv, hcv, hcapped⟩

/-- So does the first chunk of rows that cannot. -/
theorem insertRowsLoop_refused {table : TableRef} {columns : List Column}
    {chunks : List (List (List Value))} (total : Nat) (block : List (Nat × Statement))
    (h : ∃ chunk ∈ chunks, ∃ cv ∈ chunk.flatMap (cells columns), cv.value.isCapped = true) :
    ∃ e, (obligingRun id (insertRowsLoop table columns chunks total) (some block)).1 = .error e ∧
      (obligingRun id (insertRowsLoop table columns chunks total) (some block)).2.1 ≠ none := by
  induction chunks generalizing total block with
  | nil => simp at h
  | cons chunk rest ih =>
    unfold insertRowsLoop
    cases hps : pgParams (insertSql pgQuote pgPlaceholder table columns chunk).2 with
    | error e =>
      simp only [hps]
      exact ⟨e, rfl, Option.some_ne_none _⟩
    | ok ps =>
      simp only [hps]
      rw [insertSql_params] at hps
      have hchunk := (pgParams_bound_isOk_iff (chunk.flatMap (cells columns))).mp ⟨ps, hps⟩
      refine ih (total + 1) (block ++ [(id, _)]) ?_
      obtain ⟨chunk', hchunk', cv, hcv, hcapped⟩ := h
      rcases List.mem_cons.mp hchunk' with rfl | hchunk'
      · rw [hchunk cv hcv] at hcapped
        exact absurd hcapped Bool.false_ne_true
      · exact ⟨chunk', hchunk', cv, hcv, hcapped⟩

/-- Statements that end in an error inside their block leave the block open. -/
theorem transaction_left
    (h : ∃ e, (obligingRun id p (some [])).1 = .error e ∧ (obligingRun id p (some [])).2.1 ≠ none) :
    (obligingRun id ((batchExecute .begin).andThen fun _ => p.andThen fun total =>
      (batchExecute .commit).andThen fun _ => .pure (.ok total)) none).2.1 ≠ none := by
  obtain ⟨e, he, hopen⟩ := h
  have hp := obligingRun_andThen (f := fun total =>
    (batchExecute .commit).andThen fun _ => .pure (.ok total)) he
  intro hnone
  exact hopen (hp.symm.trans hnone)

/-- A batch with a capped value hands back a connection inside a transaction. -/
theorem submit_not_clean (h : ¬ batch.Whole) : ¬ Clean (submit batch (.init obliging)) := by
  obtain ⟨cv, hcv, hcapped⟩ : ∃ cv ∈ batch.pairs, cv.value.isCapped = true := by
    simpa [Batch.Whole] using h
  obtain ⟨p, hp, hleft⟩ : ∃ p, batch.onClient = some p ∧ (obligingRun 0 p none).2.1 ≠ none := by
    cases batch with
    | edits ops =>
      obtain ⟨op, hop, hcv⟩ := List.mem_flatMap.mp hcv
      refine ⟨applyEdits ops, ?_, transaction_left
        (applyEditsLoop_refused 0 [] ⟨op, hop, cv, hcv, hcapped⟩)⟩
      exact if_neg (by simpa using List.ne_nil_of_mem hop)
    | insert table columns rows =>
      obtain ⟨row, hrow, hcv⟩ := List.mem_flatMap.mp hcv
      obtain ⟨chunk, hchunk, hrow'⟩ :=
        (mem_chunks_iff (n := insertChunkRows columns.length pgParamCap)).mpr hrow
      refine ⟨insertRows table columns rows, ?_, transaction_left (insertRowsLoop_refused 0 []
        ⟨chunk, hchunk, cv, List.mem_flatMap.mpr ⟨row, hrow', hcv⟩, hcapped⟩)⟩
      exact if_neg (by simpa using List.ne_nil_of_mem hrow)
  intro hclean
  refine hleft (hclean.idle _ ?_)
  unfold submit
  rw [hp]
  exact List.mem_singleton_self _

end Serial

/-- **The pool keeps its promise exactly for batches whose values can all be
bound**: over every server, in every pool they lead to, no free connection is
inside a transaction and no batch commits another's statement. -/
theorem pool_clean_iff (ok : Batch → Prop) :
    (∀ (B : Backend (Nat × Statement)) (S : Pool B), Reaches B ok S → Clean S) ↔
      ∀ batch, ok batch → batch.Whole := by
  constructor
  · intro h batch hbatch
    by_contra hcapped
    exact submit_not_clean hcapped (h obliging _ (submit_steps hbatch rfl))
  · intro hok B S h
    exact clean_of_whole hok h

section Example

def users : TableRef := ⟨none, ascii "users"⟩

def hasId (n : Int) : ColumnValue := ⟨ascii "id", .integer n, none⟩

/-- An edit that runs, and one of a cell the grid has clipped. -/
def cappedBatch : Batch :=
  .edits [.update users [hasId 1] [⟨ascii "name", .text (ascii "new"), none⟩],
    .update users [hasId 2] [⟨ascii "note", .capped ⟨ascii "head", 9000, false⟩, none⟩]]

def laterBatch : Batch := .edits [.delete users [hasId 3]]

/-- The capped cell ends its batch without a rollback: the connection goes back
inside the open transaction, and the next batch commits the update of the one
that reported failure. -/
theorem cappedEdit_leaks :
    ∃ S S', Reaches obliging (fun batch => batch = cappedBatch ∨ batch = laterBatch) S ∧
      S.reports = [(0, .error (.query "null seek bound"))] ∧
      (∃ c ∈ S.free, obliging.block c ≠ none) ∧
      Relation.ReflTransGen
        (Step obliging fun batch => batch = cappedBatch ∨ batch = laterBatch) S S' ∧
      ∃ e ∈ S'.log, e.id = 1 ∧ ∃ x ∈ e.durable, x.1 = 0 := by
  refine ⟨submit cappedBatch (.init obliging), submit laterBatch (submit cappedBatch (.init obliging)),
    submit_steps (Or.inl rfl) rfl, rfl, ?_, submit_steps (Or.inr rfl) rfl, by decide⟩
  exact ⟨_, List.mem_singleton_self _, Option.some_ne_none _⟩

end Example

end RedDb.Driver
