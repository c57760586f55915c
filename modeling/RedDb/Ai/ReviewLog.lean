import Mathlib.Data.List.Perm.Basic
import Mathlib.Logic.Function.Basic
import RedDb.Ai.RanStatements
import RedDb.Ai.Review

/-!
# RedDb — the log of a review transaction

The registry keeps with each review transaction a log of what ran in it, for the card
on which the user answers. The log is written by the tool calls that succeed, after
the fact; the transaction is the server's. On Postgres a statement that fails aborts
it: nothing that ran in it lasts, and its `COMMIT` rolls back and reports no error.

`Truthful` is what the card and its resolution promise: the log lists what a commit
would make durable, and a commit that is reported has made that durable.

* `ReviewInv` — what holds of log, transaction and calls in flight throughout;
* `ReviewInv.step` — the steps that keep it;
* `truthful_runs` — so the runs on which the card tells the truth;
* `lostCommit_lies` — a commit reported of a transaction that had failed.
-/

namespace RedDb.Ai.ReviewLog

open ByteText Review

/-! ## A transaction on the server -/

/-- Where the transaction of a `PgSandbox` stands. -/
inductive Block where
  | active (effects : List SandboxEntry)
  | aborted
  | ended
  deriving DecidableEq

/-- What a commit would make durable. -/
def Block.effects : Block → List SandboxEntry
  | .active effects => effects
  | _ => []

/-- A statement on its connection: what the server would answer is the number of rows
affected, or an error. Once it is ended, the statement runs on its own. -/
def Block.execute : Block → Bytes → Option Nat → Block × Option Nat
  | .active effects, sql, some n => (.active (effects ++ [⟨sql, n⟩]), some n)
  | .active _, _, none => (.aborted, none)
  | .aborted, _, _ => (.aborted, none)
  | .ended, _, answer => (.ended, answer)

/-- `finish`: what becomes durable, and whether it reports no error. -/
def Block.finish : Block → (commit ok : Bool) → List SandboxEntry × Bool
  | .active effects, commit, ok => (if commit && ok then effects else [], ok)
  | .aborted, _, ok => ([], ok)
  | .ended, _, _ => ([], true)

/-! ## The service's state -/

structure Slot where
  sandbox : Sandbox
  log : List SandboxEntry
  deriving DecidableEq

def Slot.noted (slot : Slot) (entries : List SandboxEntry) : Slot :=
  { slot with log := slot.log ++ entries }

/-- A call of a write tool, through the handle its turn holds. `ran` are the statements
that went through so far. -/
structure Call where
  session : SessionId
  sandbox : Sandbox
  tool : ReviewTool
  input : Json
  maxResultBytes : Nat
  pending : List Bytes
  ran : List SandboxEntry

/-- The call with one more statement gone through. -/
def Call.did (c : Call) (rest : List Bytes) (e : SandboxEntry) : Call :=
  { c with pending := rest, ran := c.ran ++ [e] }

/-- Who takes a transaction out of the registry. -/
inductive Taker where
  | user (commit : Bool)
  | deadline
  | teardown
  deriving DecidableEq

def Taker.commits : Taker → Bool
  | .user commit => commit
  | _ => false

/-- A transaction on its way to `COMMIT` or `ROLLBACK`. -/
structure Taken where
  sandbox : Sandbox
  log : List SandboxEntry
  taker : Taker

/-- `AiSandboxResolved`; `durable` and `log` are for the record. -/
structure Resolved where
  committed : Bool
  rows : Nat
  failed : Bool
  log : List SandboxEntry
  durable : List SandboxEntry
  deriving DecidableEq

structure Reviews where
  begun : Nat
  home : Sandbox → SessionId
  block : Sandbox → Block
  sandboxes : SessionId → Option Slot
  calls : List Call
  taken : List Taken
  resolved : List Resolved

def Reviews.init : Reviews := ⟨0, fun _ => 0, fun _ => .ended, fun _ => none, [], [], []⟩

inductive Action where
  /-- A transaction is begun and registered. Setting its timeout may fail. -/
  | openSandbox (x : SessionId) (timeoutSet : Bool)
  | call (x : SessionId) (h : Sandbox) (tool : ReviewTool) (input : Json) (policy : AiPolicy)
      (maxResultBytes : Nat)
  /-- The next statement of the call at `k`. -/
  | execute (k : Nat) (answer : Option Nat)
  /-- The call at `k` has run them all, and its result is recorded. -/
  | record (k : Nat)
  | take (x : SessionId) (taker : Taker)
  /-- `resolve_sandbox` of the one taken at `j`. -/
  | finish (j : Nat) (ok : Bool)

/-! ## The steps -/

/-- The gate; the names of the two tools never reach the graders of the other seams. -/
def gate (tool : ReviewTool) (input : Json) (policy : AiPolicy) : WriteAssessment :=
  assessWrite (fun _ _ => .notWrite) (fun _ _ => .notWrite) tool.name input policy .postgres

/-- The result of a call that ran all its statements. -/
def Call.content (c : Call) : Bytes :=
  capResultBytes (resultText c.tool c.ran.length (totalRows c.ran)) c.maxResultBytes

namespace Reviews

variable (s : Reviews)

def openSandbox (x : SessionId) (timeoutSet : Bool) : Reviews :=
  { s with
    begun := s.begun + 1
    home := Function.update s.home s.begun x
    block := Function.update s.block s.begun (if timeoutSet then .active [] else .aborted)
    sandboxes := Function.update s.sandboxes x (some ⟨s.begun, []⟩) }

def call (x : SessionId) (h : Sandbox) (tool : ReviewTool) (input : Json) (policy : AiPolicy)
    (maxResultBytes : Nat) : Option Reviews :=
  if h < s.begun ∧ s.home h = x then
    match gate tool input policy with
    | .needsApproval _ => some { s with
        calls := s.calls ++ [⟨x, h, tool, input, maxResultBytes, submitted tool.name input, []⟩] }
    | _ => none
  else none

/-- The call ends at the first statement that fails, and is not recorded. -/
def execute (k : Nat) (c : Call) (answer : Option Nat) : Option Reviews :=
  match c.pending with
  | [] => none
  | sql :: rest =>
    let (block, affected) := (s.block c.sandbox).execute sql answer
    let s' := { s with block := Function.update s.block c.sandbox block }
    match affected with
    | some n => some { s' with
        calls := s.calls.set k (c.did rest ⟨sql, n⟩) }
    | none => some { s' with calls := s.calls.eraseIdx k }

/-- `record_sandbox_write` goes by the session. -/
def recordWrites (x : SessionId) (entries : List SandboxEntry) : Reviews :=
  match s.sandboxes x with
  | some slot =>
    { s with
      sandboxes := Function.update s.sandboxes x (some (slot.noted entries)) }
  | none => s

def record (k : Nat) (c : Call) : Option Reviews :=
  match c.pending with
  | [] => some (Reviews.recordWrites { s with calls := s.calls.eraseIdx k } c.session
      (ranStatements c.tool c.input c.content))
  | _ => none

def take (x : SessionId) (taker : Taker) : Option Reviews :=
  (s.sandboxes x).map fun slot =>
    { s with
      sandboxes := Function.update s.sandboxes x none
      taken := s.taken ++ [⟨slot.sandbox, slot.log, taker⟩] }

/-- A teardown reports nothing. -/
def finish (j : Nat) (t : Taken) (ok : Bool) : Reviews :=
  let out := (s.block t.sandbox).finish t.taker.commits ok
  { s with
    block := Function.update s.block t.sandbox .ended
    taken := s.taken.eraseIdx j
    resolved := if t.taker = .teardown then s.resolved
      else s.resolved ++ [⟨t.taker.commits && out.2, totalRows t.log, !out.2, t.log, out.1⟩] }

end Reviews

def step (s : Reviews) : Action → Option Reviews
  | .openSandbox x timeoutSet =>
    if s.sandboxes x = none then some (s.openSandbox x timeoutSet) else none
  | .call x h tool input policy maxResultBytes => s.call x h tool input policy maxResultBytes
  | .execute k answer => (s.calls[k]?).bind fun c => s.execute k c answer
  | .record k => (s.calls[k]?).bind fun c => s.record k c
  | .take x taker => s.take x taker
  | .finish j ok => (s.taken[j]?).map fun t => s.finish j t ok

/-! ## The promise -/

/-- What a call has run on transaction `h`. -/
def Call.ranOn (c : Call) (h : Sandbox) : List SandboxEntry := if c.sandbox = h then c.ran else []

/-- What has run on it and is not recorded yet. -/
def unrecorded (calls : List Call) (h : Sandbox) : List SandboxEntry :=
  calls.flatMap fun c => c.ranOn h

/-- The log lists the statements with their rows. -/
def Lists (log effects : List SandboxEntry) : Prop := (log.map SandboxEntry.trimmed).Perm effects

structure Truthful (s : Reviews) : Prop where
  card : ∀ x slot, s.sandboxes x = some slot → unrecorded s.calls slot.sandbox = [] →
    Lists slot.log (s.block slot.sandbox).effects
  resolution : ∀ r ∈ s.resolved, r.committed = true →
    Lists r.log r.durable ∧ r.rows = totalRows r.durable

/-- The result of the call still reports its rows, and they are its first statement's. -/
structure Call.Reports (c : Call) : Prop where
  fits : c.maxResultBytes = 0 ∨
    (counted c.tool c.ran.length (totalRows c.ran)).length ≤ c.maxResultBytes
  first : ∀ e ∈ c.ran.tail, e.rows = 0

/-- A statement runs while its transaction is registered, and fails only where nothing
has run but what its own call did. A call is recorded in the log of its own transaction
and reports its rows. No call has anything unrecorded on a transaction that the user
commits. -/
def Keeps (s : Reviews) : Action → Prop
  | .execute k answer => ∀ c, s.calls[k]? = some c → c.pending ≠ [] →
      ∃ slot, s.sandboxes c.session = some slot ∧ slot.sandbox = c.sandbox ∧
        (answer = none → slot.log = [] ∧ unrecorded (s.calls.eraseIdx k) c.sandbox = [])
  | .record k => ∀ c, s.calls[k]? = some c → c.pending = [] →
      ∀ slot, s.sandboxes c.session = some slot → slot.sandbox = c.sandbox ∧ c.Reports
  | .take x (.user true) => ∀ slot, s.sandboxes x = some slot →
      unrecorded s.calls slot.sandbox = []
  | _ => True

/-! ## The invariant -/

/-- A call has the statements of its proposal, run or pending. -/
structure Call.Formed (begun : Nat) (home : Sandbox → SessionId) (c : Call) : Prop where
  old : c.sandbox < begun
  at_home : home c.sandbox = c.session
  statements : c.ran.map SandboxEntry.sql ++ c.pending = submitted c.tool.name c.input
  text : c.tool = .proposeWrite → ∃ sql, (c.input.get "sql").bind Json.asStr = some sql

structure ReviewInv (s : Reviews) : Prop where
  slotBegun : ∀ x slot, s.sandboxes x = some slot → slot.sandbox < s.begun
  slotHome : ∀ x slot, s.sandboxes x = some slot → s.home slot.sandbox = x
  running : ∀ x slot, s.sandboxes x = some slot → s.block slot.sandbox ≠ .ended
  takenBegun : ∀ t ∈ s.taken, t.sandbox < s.begun
  takenOut : ∀ t ∈ s.taken, ∀ x slot, s.sandboxes x = some slot → slot.sandbox ≠ t.sandbox
  takenOnce : s.taken.Pairwise fun t u => t.sandbox ≠ u.sandbox
  formed : ∀ c ∈ s.calls, c.Formed s.begun s.home
  logged : ∀ x slot, s.sandboxes x = some slot → (s.block slot.sandbox).effects.Perm
    (slot.log.map SandboxEntry.trimmed ++ unrecorded s.calls slot.sandbox)
  answered : ∀ t ∈ s.taken, t.taker.commits = true → Lists t.log (s.block t.sandbox).effects
  told : ∀ r ∈ s.resolved, r.committed = true → Lists r.log r.durable ∧ r.rows = totalRows r.durable

variable {c : Call} {calls : List Call} {k : Nat} {g : Sandbox} {x : SessionId} {slot : Slot}

section Invariant

variable {s t : Reviews}

theorem ReviewInv.init : ReviewInv .init where
  slotBegun x slot hx := by cases hx
  slotHome x slot hx := by cases hx
  running x slot hx := by cases hx
  takenBegun t ht := absurd ht List.not_mem_nil
  takenOut t ht := absurd ht List.not_mem_nil
  takenOnce := List.Pairwise.nil
  formed c hc := absurd hc List.not_mem_nil
  logged x slot hx := by cases hx
  answered t ht := absurd ht List.not_mem_nil
  told r hr := absurd hr List.not_mem_nil

/-- Two registered slots of one transaction are one slot. -/
theorem ReviewInv.slot_unique (h : ReviewInv s) {y : SessionId} {slot' : Slot}
    (hx : s.sandboxes x = some slot) (hy : s.sandboxes y = some slot')
    (hsame : slot.sandbox = slot'.sandbox) : x = y := by
  rw [← h.slotHome x slot hx, ← h.slotHome y slot' hy, hsame]

theorem ReviewInv.truthful (h : ReviewInv s) : Truthful s where
  card x slot hx hnone := by
    have hlog := h.logged x slot hx
    rw [hnone, List.append_nil] at hlog
    exact hlog.symm
  resolution := h.told

/-! ## Calls in flight -/

theorem unrecorded_append (calls : List Call) (c : Call) (h : Sandbox) (hran : c.ran = []) :
    unrecorded (calls ++ [c]) h = unrecorded calls h := by
  unfold unrecorded Call.ranOn
  rw [List.flatMap_append, List.flatMap_singleton, hran, ite_self, List.append_nil]

theorem perm_eraseIdx {α : Type*} {as : List α} {a : α} (hk : as[k]? = some a) :
    as.Perm (a :: as.eraseIdx k) := by
  obtain ⟨hlt, rfl⟩ := List.getElem?_eq_some_iff.mp hk
  exact (List.getElem_cons_eraseIdx_perm hlt).symm

/-- Set one call apart from the others. -/
theorem unrecorded_erase (hk : calls[k]? = some c)
    (h : Sandbox) : (unrecorded calls h).Perm (c.ranOn h ++ unrecorded (calls.eraseIdx k) h) :=
  (perm_eraseIdx hk).flatMap_right _

theorem unrecorded_set (hk : calls[k]? = some c) (c' : Call) (h : Sandbox) :
    (unrecorded (calls.set k c') h).Perm (c'.ranOn h ++ unrecorded (calls.eraseIdx k) h) := by
  obtain ⟨hlt, -⟩ := List.getElem?_eq_some_iff.mp hk
  exact (List.set_perm_cons_eraseIdx hlt c').flatMap_right _

theorem unrecorded_fresh (h : ReviewInv s) : unrecorded s.calls s.begun = [] := by
  unfold unrecorded Call.ranOn
  rw [List.flatMap_eq_nil_iff]
  intro c hc
  exact if_neg (Nat.ne_of_lt (h.formed c hc).old)

theorem Call.Formed.mono (h : c.Formed s.begun s.home) (hbegun : s.begun ≤ t.begun)
    (hhome : ∀ g, g < s.begun → t.home g = s.home g) : c.Formed t.begun t.home :=
  ⟨Nat.lt_of_lt_of_le h.old hbegun, (hhome _ h.old).trans h.at_home, h.statements, h.text⟩

/-! ## Beginning and calling -/

theorem openSandbox_slot {y : SessionId} {timeoutSet : Bool}
    (hy : (s.openSandbox x timeoutSet).sandboxes y = some slot) :
    y = x ∧ slot = ⟨s.begun, []⟩ ∨ y ≠ x ∧ s.sandboxes y = some slot := by
  by_cases hyx : y = x
  · subst hyx
    have hself : (s.openSandbox y timeoutSet).sandboxes y = some ⟨s.begun, []⟩ :=
      Function.update_self _ _ _
    exact Or.inl ⟨rfl, (Option.some.inj (hself.symm.trans hy)).symm⟩
  · exact Or.inr ⟨hyx, (Function.update_of_ne hyx _ _).symm.trans hy⟩

theorem openSandbox_block {timeoutSet : Bool} (hg : g < s.begun) :
    (s.openSandbox x timeoutSet).block g = s.block g ∧
      (s.openSandbox x timeoutSet).home g = s.home g :=
  ⟨Function.update_of_ne (Nat.ne_of_lt hg) _ _, Function.update_of_ne (Nat.ne_of_lt hg) _ _⟩

theorem openSandbox_begun (x : SessionId) (timeoutSet : Bool) :
    (s.openSandbox x timeoutSet).block s.begun = (if timeoutSet then .active [] else .aborted) ∧
      (s.openSandbox x timeoutSet).home s.begun = x :=
  ⟨Function.update_self _ _ _, Function.update_self _ _ _⟩

theorem ReviewInv.openSandbox (h : ReviewInv s) (x : SessionId) (timeoutSet : Bool) :
    ReviewInv (s.openSandbox x timeoutSet) where
  slotBegun y slot hy := by
    rcases openSandbox_slot hy with ⟨-, rfl⟩ | ⟨-, hy⟩
    · exact Nat.lt_succ_self s.begun
    · exact Nat.lt_succ_of_lt (h.slotBegun y slot hy)
  slotHome y slot hy := by
    rcases openSandbox_slot hy with ⟨rfl, rfl⟩ | ⟨-, hy⟩
    · exact (openSandbox_begun y timeoutSet).2
    · exact (openSandbox_block (h.slotBegun y slot hy)).2.trans (h.slotHome y slot hy)
  running y slot hy := by
    rcases openSandbox_slot hy with ⟨rfl, rfl⟩ | ⟨-, hy⟩
    · rw [(openSandbox_begun y timeoutSet).1]
      cases timeoutSet <;> decide
    · rw [(openSandbox_block (h.slotBegun y slot hy)).1]
      exact h.running y slot hy
  takenBegun t ht := Nat.lt_succ_of_lt (h.takenBegun t ht)
  takenOut t ht y slot hy := by
    rcases openSandbox_slot hy with ⟨-, rfl⟩ | ⟨-, hy⟩
    · exact Nat.ne_of_gt (h.takenBegun t ht)
    · exact h.takenOut t ht y slot hy
  takenOnce := h.takenOnce
  formed c hc :=
    (h.formed c hc).mono (Nat.le_succ s.begun) fun _ hg => (openSandbox_block hg).2
  logged y slot hy := by
    rcases openSandbox_slot hy with ⟨rfl, rfl⟩ | ⟨-, hy⟩
    · show (((s.openSandbox y timeoutSet).block s.begun).effects).Perm
        ([] ++ unrecorded s.calls s.begun)
      rw [(openSandbox_begun y timeoutSet).1, unrecorded_fresh h]
      cases timeoutSet <;> exact List.Perm.refl []
    · rw [(openSandbox_block (h.slotBegun y slot hy)).1]
      exact h.logged y slot hy
  answered t ht hcommit := by
    rw [(openSandbox_block (h.takenBegun t ht)).1]
    exact h.answered t ht hcommit
  told := h.told

theorem ReviewInv.call (h : ReviewInv s) {tool : ReviewTool}
    {input : Json} {policy : AiPolicy} {maxResultBytes : Nat}
    (ht : s.call x g tool input policy maxResultBytes = some t) : ReviewInv t := by
  obtain ⟨⟨hbegun, hhome⟩, ht⟩ := Option.ite_none_right_eq_some.mp ht
  split at ht
  · rename_i body hgate
    cases ht
    refine { h with
      formed := ?_
      logged := fun y slot hy => ?_ }
    · intro c hc
      rcases List.mem_append.mp hc with hc | hc
      · exact h.formed c hc
      rw [List.mem_singleton.mp hc]
      refine ⟨hbegun, hhome, rfl, ?_⟩
      rintro rfl
      exact proposedSql_some hgate
    · rw [unrecorded_append _ _ _ rfl]
      exact h.logged y slot hy
  · cases ht

/-! ## A statement -/

/-- Only a registered transaction moves, and it keeps up with its log. -/
theorem ReviewInv.advance (h : ReviewInv s) {block : Block}
    (hx : s.sandboxes c.session = some slot) (hsame : slot.sandbox = c.sandbox)
    (hrun : block ≠ .ended) (hformed : ∀ c ∈ calls, c.Formed s.begun s.home)
    (hothers : ∀ g, g ≠ c.sandbox → (unrecorded s.calls g).Perm (unrecorded calls g))
    (hlog : block.effects.Perm
      (slot.log.map SandboxEntry.trimmed ++ unrecorded calls c.sandbox)) :
    ReviewInv { s with block := Function.update s.block c.sandbox block, calls := calls } where
  slotBegun := h.slotBegun
  slotHome := h.slotHome
  running y slot' hy := by
    show Function.update s.block c.sandbox block slot'.sandbox ≠ .ended
    by_cases hg : slot'.sandbox = c.sandbox
    · rw [hg, Function.update_self]
      exact hrun
    · rw [Function.update_of_ne hg]
      exact h.running y slot' hy
  takenBegun := h.takenBegun
  takenOut := h.takenOut
  takenOnce := h.takenOnce
  formed := hformed
  logged y slot' hy := by
    show (Function.update s.block c.sandbox block slot'.sandbox).effects.Perm _
    by_cases hg : slot'.sandbox = c.sandbox
    · obtain rfl : y = c.session := h.slot_unique hy hx (hg.trans hsame.symm)
      obtain rfl : slot' = slot := Option.some.inj (hy.symm.trans hx)
      rw [hg, Function.update_self]
      exact hlog
    · rw [Function.update_of_ne hg]
      exact (h.logged y slot' hy).trans ((hothers _ hg).append_left _)
  answered u hu hcommit := by
    have hne : u.sandbox ≠ c.sandbox := fun hg => h.takenOut u hu _ slot hx (hsame.trans hg.symm)
    show Lists u.log (Function.update s.block c.sandbox block u.sandbox).effects
    rw [Function.update_of_ne hne]
    exact h.answered u hu hcommit
  told := h.told

theorem ranOn_self (c : Call) : c.ranOn c.sandbox = c.ran := if_pos rfl

theorem ranOn_other (hg : g ≠ c.sandbox) : c.ranOn g = [] :=
  if_neg hg.symm

/-- A call that ends takes nothing of the other transactions with it. -/
theorem unrecorded_erase_other (hk : calls[k]? = some c) (hg : g ≠ c.sandbox) :
    (unrecorded calls g).Perm (unrecorded (calls.eraseIdx k) g) := by
  have h := unrecorded_erase hk g
  rwa [ranOn_other hg, List.nil_append] at h

/-- The transaction is aborted and the call ends, with nothing else run in it. -/
theorem ReviewInv.abort (h : ReviewInv s)
    (hk : s.calls[k]? = some c) (hx : s.sandboxes c.session = some slot)
    (hsame : slot.sandbox = c.sandbox) (hempty : slot.log = [])
    (hnone : unrecorded (s.calls.eraseIdx k) c.sandbox = []) : ReviewInv { s with
      block := Function.update s.block c.sandbox .aborted, calls := s.calls.eraseIdx k } := by
  refine h.advance hx hsame (by decide) (fun d hd => h.formed d (List.mem_of_mem_eraseIdx hd))
    (fun g hg => unrecorded_erase_other hk hg) ?_
  rw [hempty, hnone]
  exact List.Perm.refl []

theorem ReviewInv.execute (h : ReviewInv s) {answer : Option Nat}
    (hk : s.calls[k]? = some c) (hkeeps : Keeps s (.execute k answer))
    (ht : s.execute k c answer = some t) : ReviewInv t := by
  cases hp : c.pending with
  | nil =>
    simp only [Reviews.execute, hp] at ht
    cases ht
  | cons sql rest =>
    obtain ⟨slot, hx, hsame, hfail⟩ := hkeeps c hk (hp ▸ List.cons_ne_nil sql rest)
    have hlog := h.logged _ slot hx
    rw [hsame] at hlog
    simp only [Reviews.execute, hp] at ht
    cases hb : s.block c.sandbox with
    | ended => exact absurd (hsame ▸ hb) (h.running _ slot hx)
    | aborted =>
      simp only [hb, Block.execute] at ht
      cases ht
      -- nothing lasts in it, so the log is empty
      rw [hb] at hlog
      obtain ⟨hempty, hnone⟩ := List.append_eq_nil_iff.mp hlog.nil_eq.symm
      have herase := unrecorded_erase hk c.sandbox
      rw [hnone] at herase
      exact h.abort hk hx hsame (List.map_eq_nil_iff.mp hempty)
        (List.append_eq_nil_iff.mp herase.nil_eq.symm).2
    | active effects =>
      rw [hb] at hlog
      cases answer with
      | none =>
        simp only [hb, Block.execute] at ht
        cases ht
        exact h.abort hk hx hsame (hfail rfl).1 (hfail rfl).2
      | some n =>
        simp only [hb, Block.execute] at ht
        cases ht
        have hc := h.formed c (List.mem_of_getElem? hk)
        have hset := unrecorded_set hk (c.did rest ⟨sql, n⟩)
        refine h.advance hx hsame (fun hend => by cases hend) ?_ (fun g hg => ?_) ?_
        · intro d hd
          rcases List.mem_or_eq_of_mem_set hd with hd | rfl
          · exact h.formed d hd
          refine ⟨hc.old, hc.at_home, ?_, hc.text⟩
          have hstatements := hc.statements
          rw [hp] at hstatements
          show (c.ran ++ [(⟨sql, n⟩ : SandboxEntry)]).map SandboxEntry.sql ++ rest = _
          rw [List.map_append, List.append_assoc]
          exact hstatements
        · have hother := hset g
          rw [ranOn_other (c := c.did rest ⟨sql, n⟩) hg, List.nil_append] at hother
          exact (unrecorded_erase_other hk hg).trans hother.symm
        · have hself := hset c.sandbox
          have hran : (c.did rest ⟨sql, n⟩).ranOn c.sandbox = c.ran ++ [⟨sql, n⟩] := if_pos rfl
          rw [hran] at hself
          have hbefore := unrecorded_erase hk c.sandbox
          rw [ranOn_self] at hbefore
          have hthen : (effects ++ [(⟨sql, n⟩ : SandboxEntry)]).Perm (slot.log.map SandboxEntry.trimmed ++
              (c.ran ++ unrecorded (s.calls.eraseIdx k) c.sandbox) ++ [⟨sql, n⟩]) :=
            (hlog.trans (hbefore.append_left _)).append_right _
          refine hthen.trans (List.Perm.trans ?_ (hself.symm.append_left _))
          rw [List.append_assoc, List.append_assoc, List.append_assoc]
          exact (List.perm_append_comm.append_left _).append_left _

/-! ## The log -/

/-- What a call whose result still reports its rows puts into the log. -/
theorem Call.entries (hc : c.Formed s.begun s.home) (hp : c.pending = []) (hreports : c.Reports) :
    (ranStatements c.tool c.input c.content).map SandboxEntry.trimmed = c.ran := by
  have hstatements := hc.statements
  rw [hp, List.append_nil] at hstatements
  exact ranStatements_exact hstatements hc.text (rowsReported_resultText c.tool hreports.fits)
    hreports.first

theorem ReviewInv.record (h : ReviewInv s) (hk : s.calls[k]? = some c)
    (hkeeps : Keeps s (.record k)) (ht : s.record k c = some t) : ReviewInv t := by
  have hc := h.formed c (List.mem_of_getElem? hk)
  have hformed : ∀ d ∈ s.calls.eraseIdx k, d.Formed s.begun s.home := fun d hd =>
    h.formed d (List.mem_of_mem_eraseIdx hd)
  unfold Reviews.record at ht
  split at ht
  · rename_i hp
    unfold Reviews.recordWrites at ht
    cases hx : s.sandboxes c.session with
    | none =>
      simp only [hx] at ht
      cases ht
      refine { h with
        formed := hformed
        logged := fun y slot hy => ?_ }
      have hne : slot.sandbox ≠ c.sandbox := by
        intro hsame
        have hyc : y = c.session := by rw [← h.slotHome y slot hy, hsame, hc.at_home]
        rw [hyc, hx] at hy
        cases hy
      exact (h.logged y slot hy).trans ((unrecorded_erase_other hk hne).append_left _)
    | some slot =>
      simp only [hx] at ht
      cases ht
      obtain ⟨hsame, hreports⟩ := hkeeps c hk hp slot hx
      have hslots : ∀ y slot', Function.update s.sandboxes c.session
            (some (slot.noted (ranStatements c.tool c.input c.content))) y = some slot' →
          ∃ old, s.sandboxes y = some old ∧ slot'.sandbox = old.sandbox := by
        intro y slot' hy
        by_cases hyc : y = c.session
        · subst hyc
          rw [Function.update_self] at hy
          exact ⟨slot, hx, (congrArg Slot.sandbox (Option.some.inj hy)).symm⟩
        · rw [Function.update_of_ne hyc] at hy
          exact ⟨slot', hy, rfl⟩
      refine { h with
        slotBegun := fun y slot' hy => ?_
        slotHome := fun y slot' hy => ?_
        running := fun y slot' hy => ?_
        takenOut := fun u hu y slot' hy => ?_
        formed := hformed
        logged := fun y slot' hy => ?_ }
      · obtain ⟨old, hold, hsb⟩ := hslots y slot' hy
        exact hsb ▸ h.slotBegun y old hold
      · obtain ⟨old, hold, hsb⟩ := hslots y slot' hy
        exact hsb ▸ h.slotHome y old hold
      · obtain ⟨old, hold, hsb⟩ := hslots y slot' hy
        exact hsb ▸ h.running y old hold
      · obtain ⟨old, hold, hsb⟩ := hslots y slot' hy
        exact hsb ▸ h.takenOut u hu y old hold
      · by_cases hyc : y = c.session
        · subst hyc
          have hself := Function.update_self c.session
            (some (slot.noted (ranStatements c.tool c.input c.content))) s.sandboxes
          obtain ⟨rfl⟩ := hself.symm.trans hy
          have hlog := h.logged _ slot hx
          have hbefore := unrecorded_erase hk c.sandbox
          rw [ranOn_self, ← Call.entries hc hp hreports] at hbefore
          rw [hsame] at hlog
          show (s.block slot.sandbox).effects.Perm
            ((slot.log ++ ranStatements c.tool c.input c.content).map SandboxEntry.trimmed ++
              unrecorded (s.calls.eraseIdx k) slot.sandbox)
          rw [hsame, List.map_append, List.append_assoc]
          exact hlog.trans (hbefore.append_left _)
        · have hold : s.sandboxes y = some slot' := (Function.update_of_ne hyc _ _).symm.trans hy
          have hne : slot'.sandbox ≠ c.sandbox := fun hg =>
            hyc (h.slot_unique hold hx (hg.trans hsame.symm))
          exact (h.logged y slot' hold).trans ((unrecorded_erase_other hk hne).append_left _)
  · cases ht

/-! ## The end -/

theorem ReviewInv.take (h : ReviewInv s) {taker : Taker}
    (hkeeps : Keeps s (.take x taker)) (ht : s.take x taker = some t) : ReviewInv t := by
  obtain ⟨slot, hx, rfl⟩ := Option.map_eq_some_iff.mp ht
  have hslots : ∀ y slot', Function.update s.sandboxes x none y = some slot' →
      y ≠ x ∧ s.sandboxes y = some slot' := by
    intro y slot' hy
    by_cases hyx : y = x
    · subst hyx
      rw [Function.update_self] at hy
      cases hy
    · exact ⟨hyx, (Function.update_of_ne hyx _ _).symm.trans hy⟩
  refine { h with
    slotBegun := fun y slot' hy => h.slotBegun y slot' (hslots y slot' hy).2
    slotHome := fun y slot' hy => h.slotHome y slot' (hslots y slot' hy).2
    running := fun y slot' hy => h.running y slot' (hslots y slot' hy).2
    takenBegun := ?_
    takenOut := ?_
    takenOnce := ?_
    formed := h.formed
    logged := fun y slot' hy => h.logged y slot' (hslots y slot' hy).2
    answered := ?_ }
  · intro u hu
    rcases List.mem_append.mp hu with hu | hu
    · exact h.takenBegun u hu
    · rw [List.mem_singleton.mp hu]
      exact h.slotBegun x slot hx
  · intro u hu y slot' hy
    obtain ⟨hyx, hy⟩ := hslots y slot' hy
    rcases List.mem_append.mp hu with hu | hu
    · exact h.takenOut u hu y slot' hy
    · rw [List.mem_singleton.mp hu]
      exact fun hsame => hyx (h.slot_unique hy hx hsame)
  · refine List.pairwise_append.mpr ⟨h.takenOnce, List.pairwise_singleton _ _, ?_⟩
    intro u hu v hv
    rw [List.mem_singleton.mp hv]
    exact (h.takenOut u hu x slot hx).symm
  · intro u hu hcommit
    rcases List.mem_append.mp hu with hu | hu
    · exact h.answered u hu hcommit
    rw [List.mem_singleton.mp hu] at hcommit ⊢
    have hlog := h.logged x slot hx
    have hnone : unrecorded s.calls slot.sandbox = [] := by
      cases taker with
      | user commit =>
        obtain rfl : commit = true := hcommit
        exact hkeeps slot hx
      | deadline | teardown => cases hcommit
    rw [hnone, List.append_nil] at hlog
    exact hlog.symm

theorem Block.finish_durable {b : Block} {ok : Bool} (h : (b.finish true ok).2 = true) :
    (b.finish true ok).1 = b.effects := by
  cases b with
  | active effects =>
    obtain rfl : ok = true := h
    rfl
  | aborted => rfl
  | ended => rfl

theorem totalRows_perm {log effects : List SandboxEntry} (h : Lists log effects) :
    totalRows log = totalRows effects := by
  have hsame : totalRows (log.map SandboxEntry.trimmed) = totalRows log := by
    unfold totalRows
    rw [List.map_map]
    rfl
  rw [← hsame]
  exact (h.map SandboxEntry.rows).sum_nat

theorem ReviewInv.finish (h : ReviewInv s) {j : Nat} {u : Taken} (hj : s.taken[j]? = some u)
    (ok : Bool) : ReviewInv (s.finish j u ok) := by
  have hmem := List.mem_of_getElem? hj
  have hne : ∀ v ∈ s.taken.eraseIdx j, v.sandbox ≠ u.sandbox := by
    have hpair := ((perm_eraseIdx hj).pairwise_iff fun hvw => hvw.symm).mp h.takenOnce
    exact fun v hv => ((List.pairwise_cons.mp hpair).1 v hv).symm
  have hblock : ∀ g, g ≠ u.sandbox →
      Function.update s.block u.sandbox .ended g = s.block g := fun g hg =>
    Function.update_of_ne hg _ _
  refine { h with
    running := fun y slot hy => ?_
    takenBegun := fun v hv => h.takenBegun v (List.mem_of_mem_eraseIdx hv)
    takenOut := fun v hv => h.takenOut v (List.mem_of_mem_eraseIdx hv)
    takenOnce := h.takenOnce.sublist (List.eraseIdx_sublist _ _)
    formed := h.formed
    logged := fun y slot hy => ?_
    answered := fun v hv hcommit => ?_
    told := ?_ }
  · show Function.update s.block u.sandbox .ended slot.sandbox ≠ .ended
    rw [hblock _ (h.takenOut u hmem y slot hy)]
    exact h.running y slot hy
  · show (Function.update s.block u.sandbox .ended slot.sandbox).effects.Perm _
    rw [hblock _ (h.takenOut u hmem y slot hy)]
    exact h.logged y slot hy
  · show Lists v.log (Function.update s.block u.sandbox .ended v.sandbox).effects
    rw [hblock _ (hne v hv)]
    exact h.answered v (List.mem_of_mem_eraseIdx hv) hcommit
  · intro r hr hcommitted
    change r ∈ (if u.taker = .teardown then s.resolved else _) at hr
    split at hr
    · exact h.told r hr hcommitted
    rcases List.mem_append.mp hr with hr | hr
    · exact h.told r hr hcommitted
    rw [List.mem_singleton.mp hr] at hcommitted ⊢
    obtain ⟨hcommit, hdone⟩ := Bool.and_eq_true_iff.mp hcommitted
    have hlists := h.answered u hmem hcommit
    rw [hcommit] at hdone
    have hdurable : ((s.block u.sandbox).finish u.taker.commits ok).1 =
        (s.block u.sandbox).effects := hcommit ▸ Block.finish_durable hdone
    show Lists u.log ((s.block u.sandbox).finish u.taker.commits ok).1 ∧
      totalRows u.log = totalRows ((s.block u.sandbox).finish u.taker.commits ok).1
    rw [hdurable]
    exact ⟨hlists, totalRows_perm hlists⟩

/-- **The steps that keep it.** -/
theorem ReviewInv.step {a : Action} (h : ReviewInv s) (hkeeps : Keeps s a)
    (hstep : step s a = some t) : ReviewInv t := by
  cases a with
  | openSandbox x timeoutSet =>
    obtain ⟨-, ⟨⟩⟩ := Option.ite_none_right_eq_some.mp hstep
    exact h.openSandbox x timeoutSet
  | call x g tool input policy maxResultBytes => exact h.call hstep
  | execute k answer =>
    obtain ⟨c, hk, hstep⟩ := Option.bind_eq_some_iff.mp hstep
    exact h.execute hk hkeeps hstep
  | record k =>
    obtain ⟨c, hk, hstep⟩ := Option.bind_eq_some_iff.mp hstep
    exact h.record hk hkeeps hstep
  | take x taker => exact h.take hkeeps hstep
  | finish j ok =>
    obtain ⟨u, hj, rfl⟩ := Option.map_eq_some_iff.mp hstep
    exact h.finish hj ok

end Invariant

/-- **The card and its resolution tell the truth in every run** whose statements fail
only where nothing else has run, and run while their transaction is registered, whose
calls report their rows, and whose commits wait for the calls in flight. -/
theorem truthful_runs (acts : List Action) (hkeeps : Machine.Meets step Keeps .init acts) :
    Machine.Always step Truthful .init acts :=
  Machine.always_of_inv (fun _ _ _ h hk hstep => h.step hk hstep) (fun _ h => h.truthful)
    ReviewInv.init hkeeps

def insertA : Json := .obj [("sql", .str (ascii "INSERT INTO a VALUES (1)"))]

def insertB : Json := .obj [("sql", .str (ascii "INSERT INTO b VALUES (1)"))]

/-- A write that is reviewed and committed. -/
def oneWrite : List Action :=
  [.openSandbox 0 true, .call 0 0 .proposeWrite insertA ⟨.write, false⟩ 0, .execute 0 (some 1),
    .record 0, .take 0 (.user true), .finish 0 true]

/-- One that is followed by another that fails. -/
def failedWrite : List Action :=
  [.openSandbox 0 true, .call 0 0 .proposeWrite insertA ⟨.write, false⟩ 0, .execute 0 (some 1),
    .record 0, .call 0 0 .proposeWrite insertB ⟨.write, false⟩ 0, .execute 0 none]

def insertedA : List SandboxEntry := [⟨ascii "INSERT INTO a VALUES (1)", 1⟩]

/-- The one write meets the conditions, and its commit is reported with its row. -/
theorem oneWrite_told : (Machine.run step .init oneWrite).map Reviews.resolved =
        some [⟨true, 1, false, insertedA, insertedA⟩] ∧
      Machine.Always step Truthful .init oneWrite := by
  refine ⟨by decide, truthful_runs oneWrite ?_⟩
  have hcall : step (Reviews.init.openSandbox 0 true)
      (.call 0 0 .proposeWrite insertA ⟨.write, false⟩ 0) =
        some { Reviews.init.openSandbox 0 true with
          calls := [⟨0, 0, .proposeWrite, insertA, 0, [ascii "INSERT INTO a VALUES (1)"], []⟩] } := by
    have hgate : gate .proposeWrite insertA ⟨.write, false⟩ =
        .needsApproval (ascii "INSERT INTO a VALUES (1)") := by decide
    have hsub : submitted ReviewTool.proposeWrite.name insertA =
        [ascii "INSERT INTO a VALUES (1)"] := by decide
    simp only [step, Reviews.call, hgate, hsub]
    rfl
  refine Machine.meets_cons rfl trivial (Machine.meets_cons hcall trivial ?_)
  refine Machine.meets_cons rfl ?_ (Machine.meets_cons rfl ?_ (Machine.meets_cons rfl ?_
    (Machine.meets_cons rfl trivial trivial)))
  · intro c hc _
    cases hc
    exact ⟨⟨0, []⟩, rfl, rfl, fun h => by cases h⟩
  · intro c hc _ slot hslot
    cases hc
    cases hslot
    exact ⟨rfl, Or.inl rfl, nofun⟩
  · intro slot _
    rfl

/-- **A commit reported of a transaction that had failed.** The card lists a row, the
resolution says that it is committed, and nothing is. -/
theorem lostCommit_lies : (Machine.run step .init failedWrite).map
        (fun s => (s.sandboxes 0, s.block 0, s.calls.length)) =
          some (some ⟨0, insertedA⟩, .aborted, 0) ∧
      (Machine.run step .init (failedWrite ++ [.take 0 (.user true), .finish 0 true])).map
        Reviews.resolved = some [⟨true, 1, false, insertedA, []⟩] ∧
      ¬Machine.Always step Truthful .init failedWrite ∧ ¬Machine.Always step Truthful .init
        (failedWrite ++ [.take 0 (.user true), .finish 0 true]) := by
  have hcard : (Machine.run step .init failedWrite).map
      (fun s => (s.sandboxes 0, s.block 0, s.calls.length)) =
        some (some ⟨0, insertedA⟩, .aborted, 0) := by decide
  have hresolved : (Machine.run step .init
      (failedWrite ++ [.take 0 (.user true), .finish 0 true])).map Reviews.resolved =
        some [⟨true, 1, false, insertedA, []⟩] := by decide
  have hlie : ¬Lists insertedA [] := fun h => absurd h.length_eq (by decide)
  refine ⟨hcard, hresolved, fun h => ?_, fun h => ?_⟩
  · obtain ⟨s, hs, hstate⟩ := Option.map_eq_some_iff.mp hcard
    simp only [Prod.mk.injEq] at hstate
    obtain ⟨hslot, hblock, hcalls⟩ := hstate
    have hnone : unrecorded s.calls 0 = [] := by
      rw [List.length_eq_zero_iff.mp hcalls]
      rfl
    have hlists := (Machine.always_run h hs).card 0 _ hslot hnone
    rw [hblock] at hlists
    exact hlie hlists
  · obtain ⟨s, hs, hr⟩ := Option.map_eq_some_iff.mp hresolved
    have hmem : ⟨true, 1, false, insertedA, []⟩ ∈ s.resolved := hr ▸ List.mem_cons_self
    exact hlie ((Machine.always_run h hs).resolution _ hmem rfl).1


end RedDb.Ai.ReviewLog
