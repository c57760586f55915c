import Mathlib.Data.List.MinMax
import RedDb.Ai.Review
import RedDb.Lib.Numerals
import RedDb.Lib.WhileLoop

/-!
# RedDb — the registry of the agent's cursors

`run_select` leaves the cursor of a result that did not fit in a registry, under a
short handle that the agent passes to `fetch_more`. A cursor is taken out of it for a
read and put back afterwards. The registry makes room before it takes in a new one, the
least recently used first; `open` is the only way in that does.

* `evictFor_room` — there is room for one more of the conversation;
* `handle_injective` — no two numbers have the same handle;
* `closeWhere_none` — what is closed is gone.
-/

namespace RedDb.Ai

open ByteText Review

abbrev CursorId := Bytes

/-- A live cursor: `cursor` are the rows that it has yet to yield. -/
structure AgentCursor (Row : Type*) where
  conversation : ConversationId
  cursor : List Row
  columns : List Bytes
  rowsRead : Nat
  lastUsed : Nat
  sql : Bytes

/-- The handles are the keys of a map. -/
structure CursorRegistry (Row : Type*) where
  opened : List (CursorId × AgentCursor Row)
  next : Nat

def maxPerConversation : Nat := 4

def maxTotal : Nat := 16

/-- Five minutes, in milliseconds. -/
def idleTimeout : Nat := 5 * 60 * 1000

/-- `c1`, `c2` and so on. -/
def handle (n : Nat) : CursorId := 99 :: decimal n

namespace CursorRegistry

variable {Row : Type*}

def init : CursorRegistry Row := ⟨[], 0⟩

section Operations

variable (r : CursorRegistry Row)

/-- `close`, and the removal in `take`. -/
def close (id : CursorId) : CursorRegistry Row :=
  { r with opened := r.opened.filter fun e => e.1 != id }

def insert (id : CursorId) (entry : AgentCursor Row) : CursorRegistry Row :=
  { r with opened := (r.opened.filter fun e => e.1 != id) ++ [(id, entry)] }

def count (c : ConversationId) : Nat := r.opened.countP fun e => e.2.conversation == c

/-- Of two cursors used last at the same instant it is the first here, and either in a
hash map. -/
def oldest (conversation : Option ConversationId) : Option CursorId :=
  ((r.opened.filter fun e => conversation.all fun c => e.2.conversation == c).argmin
    fun e => e.2.lastUsed).map Prod.fst

def evictOldest (conversation : Option ConversationId) : CursorRegistry Row :=
  match r.oldest conversation with
  | some id => r.close id
  | none => r

def evictOwn (c : ConversationId) : CursorRegistry Row :=
  WhileLoop.run (fun r => decide (maxPerConversation ≤ r.count c)) (evictOldest · (some c))
    r.opened.length r

def evictTotal : CursorRegistry Row :=
  WhileLoop.run (fun r => decide (maxTotal ≤ r.opened.length)) (evictOldest · none)
    r.opened.length r

def evictFor (c : ConversationId) : CursorRegistry Row := (r.evictOwn c).evictTotal

/-- `open`. -/
def openCursor (now : Nat) (c : ConversationId) (cursor : List Row) (columns : List Bytes)
    (sql : Bytes) : CursorRegistry Row × CursorId :=
  let r := r.evictFor c
  let id := handle (r.next + 1)
  ({ r with next := r.next + 1 }.insert id ⟨c, cursor, columns, 0, now, sql⟩, id)

def take (id : CursorId) : Option (AgentCursor Row × CursorRegistry Row) :=
  (r.opened.find? fun e => e.1 == id).map fun e => (e.2, r.close id)

def putBack (now : Nat) (id : CursorId) (entry : AgentCursor Row) : CursorRegistry Row :=
  r.insert id { entry with lastUsed := now }

/-- The handles of the cursors that `p` holds of are listed first, and closed then. -/
def closeWhere (p : AgentCursor Row → Bool) : CursorRegistry Row :=
  ((r.opened.filter fun e => p e.2).map Prod.fst).foldl close r

def closeConversation (c : ConversationId) : CursorRegistry Row :=
  r.closeWhere fun e => e.conversation == c

/-- Its answer, how many went, is only logged. -/
def reapIdle (now : Nat) : CursorRegistry Row :=
  r.closeWhere fun e => decide (idleTimeout ≤ now - e.lastUsed)

end Operations

/-! ## What closes -/

variable {r : CursorRegistry Row}

theorem close_sublist (r : CursorRegistry Row) (id : CursorId) :
    (r.close id).opened.Sublist r.opened := List.filter_sublist

theorem mem_close {id : CursorId} {e : CursorId × AgentCursor Row} :
    e ∈ (r.close id).opened ↔ e ∈ r.opened ∧ e.1 ≠ id := by
  show e ∈ r.opened.filter _ ↔ _
  rw [List.mem_filter, bne_iff_ne]

theorem closeAll_spec (ids : List CursorId) (r : CursorRegistry Row) :
    (ids.foldl close r).opened.Sublist r.opened ∧ (ids.foldl close r).next = r.next ∧
      ∀ e ∈ (ids.foldl close r).opened, e.1 ∉ ids := by
  induction ids generalizing r with
  | nil => exact ⟨List.Sublist.refl _, rfl, fun _ _ => List.not_mem_nil⟩
  | cons id ids ih =>
    obtain ⟨hsub, hnext, hids⟩ := ih (r.close id)
    refine ⟨hsub.trans (r.close_sublist id), hnext, fun e he hmem => ?_⟩
    rcases List.mem_cons.mp hmem with heq | hmem
    · exact (mem_close.mp (hsub.subset he)).2 heq
    · exact hids e he hmem

theorem closeWhere_sublist (r : CursorRegistry Row) (p : AgentCursor Row → Bool) :
    (r.closeWhere p).opened.Sublist r.opened := (closeAll_spec _ r).1

theorem closeWhere_next (r : CursorRegistry Row) (p : AgentCursor Row → Bool) :
    (r.closeWhere p).next = r.next := (closeAll_spec _ r).2.1

/-- What is closed is gone. -/
theorem closeWhere_none {p : AgentCursor Row → Bool} {e : CursorId × AgentCursor Row}
    (he : e ∈ (r.closeWhere p).opened) : p e.2 = false := by
  obtain ⟨hsub, -, hids⟩ := closeAll_spec ((r.opened.filter fun e => p e.2).map Prod.fst) r
  by_contra hp
  have hlisted : e ∈ r.opened.filter fun e => p e.2 :=
    List.mem_filter.mpr ⟨hsub.subset he, by simpa using hp⟩
  exact hids e he (List.mem_map_of_mem hlisted)

/-! ## Making room -/

theorem evictOldest_sublist (r : CursorRegistry Row) (of : Option ConversationId) :
    (r.evictOldest of).opened.Sublist r.opened ∧ (r.evictOldest of).next = r.next := by
  unfold evictOldest
  split
  · exact ⟨r.close_sublist _, rfl⟩
  · exact ⟨List.Sublist.refl _, rfl⟩

/-- Where there is a cursor to evict, one goes. -/
theorem evictOldest_length {of : Option ConversationId} {e : CursorId × AgentCursor Row}
    (he : e ∈ r.opened) (hof : (of.all fun c => e.2.conversation == c) = true) :
    (r.evictOldest of).opened.length < r.opened.length := by
  have hmem : e ∈ r.opened.filter fun e => of.all fun c => e.2.conversation == c :=
    List.mem_filter.mpr ⟨he, hof⟩
  obtain ⟨oldest, holdest⟩ : ∃ oldest, (r.opened.filter fun e =>
      of.all fun c => e.2.conversation == c).argmin (fun e => e.2.lastUsed) = some oldest := by
    refine Option.ne_none_iff_exists'.mp fun hnone => ?_
    rw [List.argmin_eq_none.mp hnone] at hmem
    cases hmem
  have hin : oldest ∈ r.opened := (List.mem_filter.mp (List.argmin_mem holdest)).1
  have hid : r.oldest of = some oldest.1 := by
    unfold CursorRegistry.oldest
    rw [holdest]
    rfl
  unfold evictOldest
  rw [hid]
  refine lt_of_le_of_ne (r.close_sublist oldest.1).length_le fun heq => ?_
  have hall := (r.close_sublist oldest.1).eq_of_length heq
  exact (mem_close.mp (hall ▸ hin)).2 rfl

theorem evictLoop_sublist (cond : CursorRegistry Row → Bool) (of : Option ConversationId)
    (fuel : Nat) (r : CursorRegistry Row) :
    (WhileLoop.run cond (evictOldest · of) fuel r).opened.Sublist r.opened ∧
      (WhileLoop.run cond (evictOldest · of) fuel r).next = r.next := by
  refine WhileLoop.Visits.inv (I := fun s => s.opened.Sublist r.opened ∧ s.next = r.next) ?_
    (WhileLoop.visits_run fuel r) ⟨List.Sublist.refl _, rfl⟩
  rintro s - ⟨hsub, hnext⟩
  obtain ⟨hstep, hsame⟩ := s.evictOldest_sublist of
  exact ⟨hstep.trans hsub, hsame.trans hnext⟩

/-- A loop that asks for more than there is to evict comes to its end. -/
theorem evictLoop_done (cond : CursorRegistry Row → Bool) (of : Option ConversationId)
    (r : CursorRegistry Row)
    (hsome : ∀ s, cond s = true → ∃ e ∈ s.opened, (of.all fun c => e.2.conversation == c) = true) :
    cond (WhileLoop.run cond (evictOldest · of) r.opened.length r) = false := by
  refine WhileLoop.run_done (μ := fun s => s.opened.length) ?_ (Nat.le_refl _)
  intro s hs
  obtain ⟨e, he, hof⟩ := hsome s hs
  exact evictOldest_length he hof

theorem evictFor_sublist (r : CursorRegistry Row) (c : ConversationId) :
    (r.evictFor c).opened.Sublist r.opened ∧ (r.evictFor c).next = r.next := by
  obtain ⟨hown, hnext⟩ := evictLoop_sublist (fun r => decide (maxPerConversation ≤ r.count c))
    (some c) r.opened.length r
  obtain ⟨htotal, hsame⟩ := evictLoop_sublist (fun r => decide (maxTotal ≤ r.opened.length)) none
    (r.evictOwn c).opened.length (r.evictOwn c)
  exact ⟨htotal.trans hown, hsame.trans hnext⟩

/-- **There is room** for one more cursor of the conversation. -/
theorem evictFor_room (r : CursorRegistry Row) (c : ConversationId) :
    (r.evictFor c).count c < maxPerConversation ∧ (r.evictFor c).opened.length < maxTotal := by
  have hown : (r.evictOwn c).count c < maxPerConversation := by
    have hdone := evictLoop_done (fun r => decide (maxPerConversation ≤ r.count c)) (some c) r ?_
    · exact not_le.mp (of_decide_eq_false hdone)
    intro s hs
    have hpos : 0 < s.count c := Nat.lt_of_lt_of_le (by decide) (of_decide_eq_true hs)
    exact List.countP_pos_iff.mp hpos
  have htotal : (r.evictFor c).opened.length < maxTotal := by
    have hdone := evictLoop_done (fun r => decide (maxTotal ≤ r.opened.length)) none
      (r.evictOwn c) ?_
    · exact not_le.mp (of_decide_eq_false hdone)
    intro s hs
    have hpos : 0 < s.opened.length := Nat.lt_of_lt_of_le (by decide) (of_decide_eq_true hs)
    obtain ⟨e, he⟩ := List.exists_mem_of_length_pos hpos
    exact ⟨e, he, rfl⟩
  refine ⟨Nat.lt_of_le_of_lt ?_ hown, htotal⟩
  exact (evictLoop_sublist _ none _ (r.evictOwn c)).1.countP_le

end CursorRegistry

/-! ## Handles -/

theorem handle_injective {m n : Nat} (h : handle m = handle n) : m = n := by
  have hdigits : decimal m = decimal n := (List.cons.inj h).2
  rw [← ofDigits_decimal m, hdigits, ofDigits_decimal]

end RedDb.Ai
