import Mathlib.Data.List.Perm.Basic
import Mathlib.Data.List.Perm.Subperm
import RedDb.Ai.Cursors

/-!
# RedDb — who holds a cursor

A read takes its cursor out of the registry, awaits the engine, and puts it back or
drops it. Meanwhile others open cursors, close a conversation or let the idle ones go.
None of these sees a cursor that is out, and what comes back is not checked again.

`Safe` is what the registry is for: its caps, one owner for each handle, and no cursor
of a closed conversation. It is read in two ways: of the cursors in the registry, or of
these and the ones that are out, whose connections are held as well.

* `IdInv.step` — no handle has two owners, whatever happens;
* `safe_step_iff` — the steps that stay safe;
* `safe_iff` — and so the runs that do;
* `fetch_breaks` — a fetch in flight during four opens, and during a close.
-/

namespace RedDb.Ai.CursorOwners

open ByteText Review CursorRegistry

variable {Row : Type}

abbrev Entry (Row : Type) := CursorId × AgentCursor Row

/-! ## The state -/

/-- The registry and the cursors out of it. `closed` are the conversations closed since
they last opened a cursor, for the record. -/
structure State (Row : Type) where
  registry : CursorRegistry Row
  taken : List (Entry Row)
  closed : ConversationId → Bool
  now : Nat

def State.init : State Row := ⟨.init, [], fun _ => false, 0⟩

inductive Action (Row : Type) where
  | openCursor (c : ConversationId) (cursor : List Row) (columns : List Bytes) (sql : Bytes)
  | take (id : CursorId)
  /-- The cursor out at `k` comes back after a read. -/
  | putBack (k : Nat) (cursor : List Row) (rowsRead : Nat)
  /-- It does not: it is read to the end, or the read has failed. -/
  | drop (k : Nat)
  | closeConversation (c : ConversationId)
  | reapIdle
  | pass (millis : Nat)

def step (s : State Row) : Action Row → Option (State Row)
  | .openCursor c cursor columns sql => some { s with
      registry := (s.registry.openCursor s.now c cursor columns sql).1
      closed := Function.update s.closed c false }
  | .take id =>
    match s.registry.take id with
    | some (entry, registry) => some { s with
        registry := registry, taken := s.taken ++ [(id, entry)] }
    | none => some s
  | .putBack k cursor rowsRead => (s.taken[k]?).map fun e => { s with
      registry := s.registry.putBack s.now e.1 { e.2 with cursor := cursor, rowsRead := rowsRead }
      taken := s.taken.eraseIdx k }
  | .drop k => (s.taken[k]?).map fun _ => { s with taken := s.taken.eraseIdx k }
  | .closeConversation c => some { s with
      registry := s.registry.closeConversation c
      closed := Function.update s.closed c true }
  | .reapIdle => some { s with registry := s.registry.reapIdle s.now }
  | .pass millis => some { s with now := s.now + millis }

/-! ## The promise -/

def conversations (es : List (Entry Row)) : List ConversationId :=
  es.map fun e => e.2.conversation

def handles (es : List (Entry Row)) : List CursorId := es.map Prod.fst

def State.owned (s : State Row) : List (Entry Row) := s.registry.opened ++ s.taken

/-- The conversations of the live cursors, with those that are out or without. -/
def State.live (s : State Row) (inFlight : Bool) : List ConversationId :=
  conversations (if inFlight then s.owned else s.registry.opened)

structure Safe (inFlight : Bool) (s : State Row) : Prop where
  perConversation : ∀ c, (s.live inFlight).count c ≤ maxPerConversation
  total : (s.live inFlight).length ≤ maxTotal
  owners : (handles s.owned).Nodup
  closed : ∀ c ∈ s.live inFlight, s.closed c = false

/-- A cursor comes back to a registry with room for it, whose conversation has not been
closed. Where those that are out count as live, a cursor is opened only while the room
that is made is enough for these as well, and a conversation closed only while none of
its cursors is out. -/
def Keeps (inFlight : Bool) (s : State Row) : Action Row → Prop
  | .openCursor c _ _ _ => inFlight = true →
      (s.registry.evictFor c).count c + (conversations s.taken).count c < maxPerConversation ∧
        (s.registry.evictFor c).opened.length + s.taken.length < maxTotal
  | .putBack k _ _ => inFlight = false → ∀ e, s.taken[k]? = some e →
      s.closed e.2.conversation = false ∧
        s.registry.count e.2.conversation < maxPerConversation ∧
          s.registry.opened.length < maxTotal
  | .closeConversation c => inFlight = true → c ∉ conversations s.taken
  | _ => True

/-- A handle has one owner, and has been given out. -/
structure IdInv (s : State Row) : Prop where
  owners : (handles s.owned).Nodup
  issued : ∀ id ∈ handles s.owned, ∃ n ≤ s.registry.next, id = handle n

variable {c : ConversationId} {id : CursorId} {e : Entry Row} {cursor : List Row}

section Proofs

variable {s t : State Row} {inFlight : Bool}

/-! ## The registry as a list -/

theorem count_conversations (r : CursorRegistry Row) (c : ConversationId) :
    r.count c = (conversations r.opened).count c := by
  unfold CursorRegistry.count conversations List.count
  rw [List.countP_map]
  rfl

theorem filter_absent {es : List (Entry Row)} (h : id ∉ handles es) :
    (es.filter fun e => e.1 != id) = es := by
  refine List.filter_eq_self.mpr fun e he => bne_iff_ne.mpr fun heq => h ?_
  exact heq ▸ List.mem_map_of_mem he

/-- What is taken out is the only one with its handle. -/
theorem filter_present {es : List (Entry Row)} (hnodup : (handles es).Nodup)
    (he : e ∈ es) : es.Perm (e :: es.filter fun d => d.1 != e.1) := by
  induction es with
  | nil => exact absurd he List.not_mem_nil
  | cons d es ih =>
    obtain ⟨hd, hnodup⟩ := List.nodup_cons.mp hnodup
    rcases List.mem_cons.mp he with rfl | he
    · have hself : ((e :: es).filter fun x => x.1 != e.1) = es.filter fun x => x.1 != e.1 :=
        List.filter_cons_of_neg (by simp)
      rw [hself, filter_absent hd]
    · have hne : d.1 ≠ e.1 := fun heq => hd (heq ▸ List.mem_map_of_mem he)
      have hkept : ((d :: es).filter fun x => x.1 != e.1) = d :: es.filter fun x => x.1 != e.1 :=
        List.filter_cons_of_pos (bne_iff_ne.mpr hne)
      rw [hkept]
      exact ((ih hnodup he).cons d).trans (List.Perm.swap e d _)

theorem putBack_opened {r : CursorRegistry Row} (now : Nat)
    (entry : AgentCursor Row) (h : id ∉ handles r.opened) :
    (r.putBack now id entry).opened = r.opened ++ [(id, { entry with lastUsed := now })] := by
  show (r.opened.filter fun e => e.1 != id) ++ _ = _
  rw [filter_absent h]

theorem take_some {r r' : CursorRegistry Row} {entry : AgentCursor Row}
    (h : r.take id = some (entry, r')) : (id, entry) ∈ r.opened ∧ r' = r.close id := by
  obtain ⟨⟨key, found⟩, hfind, heq⟩ := Option.map_eq_some_iff.mp h
  cases heq
  obtain rfl : key = id := by simpa using List.find?_some hfind
  exact ⟨List.mem_of_find?_eq_some hfind, rfl⟩

/-- A cursor that is out, and the others. -/
theorem taken_split {k : Nat} (h : s.taken[k]? = some e) :
    s.taken.Perm (e :: s.taken.eraseIdx k) := by
  obtain ⟨hk, rfl⟩ := List.getElem?_eq_some_iff.mp h
  exact (List.getElem_cons_eraseIdx_perm hk).symm

/-! ## Owners -/

theorem IdInv.init : IdInv (State.init : State Row) :=
  ⟨List.nodup_nil, nofun⟩

theorem IdInv.of_subperm (h : IdInv s) (hnext : s.registry.next ≤ t.registry.next)
    (hsub : List.Subperm (handles t.owned) (handles s.owned)) : IdInv t where
  owners := by
    obtain ⟨ids, hperm, hsub⟩ := hsub
    exact hperm.nodup_iff.mp (h.owners.sublist hsub)
  issued id hid := by
    obtain ⟨n, hn, heq⟩ := h.issued id (hsub.subset hid)
    exact ⟨n, hn.trans hnext, heq⟩

/-- The next handle is not yet given out. -/
theorem IdInv.fresh (h : IdInv s) : handle (s.registry.next + 1) ∉ handles s.owned := by
  intro hmem
  obtain ⟨n, hn, heq⟩ := h.issued _ hmem
  have hsame := handle_injective heq
  omega

theorem openCursor_opened (h : IdInv s) {columns : List Bytes} {sql : Bytes} :
    (s.registry.openCursor s.now c cursor columns sql).1.opened = (s.registry.evictFor c).opened ++
        [(handle (s.registry.next + 1), ⟨c, cursor, columns, 0, s.now, sql⟩)] := by
  obtain ⟨hsub, hnext⟩ := s.registry.evictFor_sublist c
  show ((s.registry.evictFor c).opened.filter fun e =>
    e.1 != handle ((s.registry.evictFor c).next + 1)) ++ _ = _
  rw [hnext, filter_absent]
  intro hmem
  have hold : handle (s.registry.next + 1) ∈ handles s.registry.opened :=
    (hsub.map Prod.fst).subset hmem
  exact h.fresh (((List.sublist_append_left _ _).map Prod.fst).subset hold)

/-- What the registry holds besides the handle that is put back into it. -/
theorem absent_of_taken (h : IdInv s) (he : e ∈ s.taken) : e.1 ∉ handles s.registry.opened := by
  intro hmem
  have howners := h.owners
  unfold handles State.owned at howners
  rw [List.map_append] at howners
  have hdisjoint := (List.nodup_append.mp howners).2.2
  exact hdisjoint e.1 hmem e.1 (List.mem_map_of_mem he) rfl

/-- **A handle never has two owners.** -/
theorem IdInv.step {a : Action Row} (h : IdInv s) (hstep : step s a = some t) : IdInv t := by
  cases a with
  | openCursor c cursor columns sql =>
    cases hstep
    obtain ⟨hsub, hnext⟩ := s.registry.evictFor_sublist c
    have hnew : (s.registry.openCursor s.now c cursor columns sql).1.next =
        s.registry.next + 1 := congrArg (· + 1) hnext
    have hrest : (handles ((s.registry.evictFor c).opened ++ s.taken)).Sublist
        (handles s.owned) := (hsub.append_right s.taken).map Prod.fst
    have hperm : (handles ((s.registry.openCursor s.now c cursor columns sql).1.opened ++
        s.taken)).Perm (handle (s.registry.next + 1) ::
          handles ((s.registry.evictFor c).opened ++ s.taken)) := by
      rw [openCursor_opened h, List.append_assoc]
      exact (List.perm_middle.map Prod.fst)
    constructor
    · refine hperm.nodup_iff.mpr (List.nodup_cons.mpr ⟨fun hmem => ?_, h.owners.sublist hrest⟩)
      exact h.fresh (hrest.subset hmem)
    · intro id hid
      show ∃ n ≤ (s.registry.openCursor s.now c cursor columns sql).1.next, _
      rw [hnew]
      rcases List.mem_cons.mp (hperm.subset hid) with rfl | hid
      · exact ⟨_, Nat.le_refl _, rfl⟩
      · obtain ⟨n, hn, heq⟩ := h.issued id (hrest.subset hid)
        exact ⟨n, Nat.le_succ_of_le hn, heq⟩
  | take id =>
    simp only [CursorOwners.step] at hstep
    split at hstep
    · rename_i entry registry htake
      cases hstep
      obtain ⟨hmem, rfl⟩ := take_some htake
      have hopened := h.owners.sublist ((List.sublist_append_left _ _).map Prod.fst)
      have hperm := (filter_present hopened hmem).append_right s.taken
      refine h.of_subperm (Nat.le_refl _) (List.Perm.subperm ?_)
      refine List.Perm.map Prod.fst (List.Perm.trans ?_ hperm.symm)
      show ((s.registry.close id).opened ++ (s.taken ++ [(id, entry)])).Perm _
      rw [← List.append_assoc]
      exact (List.perm_append_singleton _ _)
    · cases hstep
      exact h
  | putBack k cursor rowsRead =>
    obtain ⟨e, he, rfl⟩ := Option.map_eq_some_iff.mp hstep
    have habsent := absent_of_taken h (List.mem_of_getElem? he)
    refine h.of_subperm (Nat.le_refl _) (List.Perm.subperm ?_)
    show (handles ((s.registry.putBack _ _ _).opened ++ s.taken.eraseIdx k)).Perm _
    rw [putBack_opened _ _ habsent]
    have hperm := ((taken_split he).append_left s.registry.opened).map Prod.fst
    refine List.Perm.trans (List.Perm.of_eq ?_) hperm.symm
    simp [handles]
  | drop k =>
    obtain ⟨e, -, rfl⟩ := Option.map_eq_some_iff.mp hstep
    refine h.of_subperm (Nat.le_refl _) (List.Sublist.subperm (List.Sublist.map Prod.fst ?_))
    exact (List.eraseIdx_sublist s.taken k).append_left s.registry.opened
  | closeConversation _ | reapIdle =>
    cases hstep
    refine h.of_subperm (s.registry.closeWhere_next _).ge
      (List.Sublist.subperm (List.Sublist.map Prod.fst ?_))
    exact (s.registry.closeWhere_sublist _).append_right s.taken
  | pass millis =>
    cases hstep
    exact ⟨h.owners, h.issued⟩

/-! ## The steps that stay safe -/

/-- Fewer live cursors are as safe. -/
theorem Safe.of_subperm (h : Safe inFlight s) (hids : IdInv t)
    (hlive : List.Subperm (t.live inFlight) (s.live inFlight))
    (hclosed : ∀ c ∈ t.live inFlight, t.closed c = s.closed c) : Safe inFlight t where
  perConversation c := (hlive.count_le c).trans (h.perConversation c)
  total := hlive.length_le.trans h.total
  owners := hids.owners
  closed c hc := (hclosed c hc).trans (h.closed c (hlive.subset hc))

/-- The live cursors besides those of the registry. -/
def State.aside (s : State Row) (inFlight : Bool) : List ConversationId :=
  if inFlight then conversations s.taken else []

theorem live_eq (s : State Row) (inFlight : Bool) :
    s.live inFlight = conversations s.registry.opened ++ s.aside inFlight := by
  cases inFlight with
  | false => exact (List.append_nil _).symm
  | true => exact List.map_append

theorem openCursor_live (inFlight : Bool) (hids : IdInv s) (c : ConversationId) (cursor : List Row)
    (columns : List Bytes) (sql : Bytes) (closed : ConversationId → Bool) :
    (State.live ⟨(s.registry.openCursor s.now c cursor columns sql).1, s.taken, closed, s.now⟩
      inFlight).Perm (c :: (conversations (s.registry.evictFor c).opened ++ s.aside inFlight)) := by
  rw [live_eq]
  show (conversations (s.registry.openCursor s.now c cursor columns sql).1.opened ++
    s.aside inFlight).Perm _
  rw [openCursor_opened hids]
  unfold conversations
  rw [List.map_append, List.append_assoc]
  exact List.perm_middle

theorem openCursor_safe_iff (h : Safe inFlight s) (hids : IdInv s)
    {columns : List Bytes} {sql : Bytes}
    (hstep : step s (.openCursor c cursor columns sql) = some t) :
    Safe inFlight t ↔ Keeps inFlight s (.openCursor c cursor columns sql) := by
  have hidt := hids.step hstep
  cases hstep
  have hperm := openCursor_live inFlight hids c cursor columns sql
    (Function.update s.closed c false)
  obtain ⟨hroom, hspace⟩ := s.registry.evictFor_room c
  have hsub : (conversations (s.registry.evictFor c).opened ++ s.aside inFlight).Sublist
      (s.live inFlight) := by
    rw [live_eq]
    exact ((s.registry.evictFor_sublist c).1.map _).append_right _
  rw [count_conversations] at hroom
  have hlength : (conversations (s.registry.evictFor c).opened).length =
      (s.registry.evictFor c).opened.length := List.length_map _
  constructor
  · rintro ht rfl
    have hcount := ht.perConversation c
    have htotal := ht.total
    rw [hperm.count_eq, List.count_cons_self, List.count_append] at hcount
    rw [hperm.length_eq, List.length_cons, List.length_append, hlength] at htotal
    rw [count_conversations]
    have haside : (s.aside true).length = s.taken.length := List.length_map _
    exact ⟨hcount, haside ▸ htotal⟩
  · intro hkeeps
    have hfits : (conversations (s.registry.evictFor c).opened).count c +
        (s.aside inFlight).count c < maxPerConversation ∧
          (s.registry.evictFor c).opened.length + (s.aside inFlight).length < maxTotal := by
      cases inFlight with
      | false => exact ⟨hroom, hspace⟩
      | true =>
        have haside : (s.aside true).length = s.taken.length := List.length_map _
        rw [← count_conversations, haside]
        exact hkeeps rfl
    refine ⟨fun d => ?_, ?_, hidt.owners, fun d hd => ?_⟩
    · rw [hperm.count_eq]
      by_cases hdc : c = d
      · subst hdc
        rw [List.count_cons_self, List.count_append]
        exact hfits.1
      · rw [List.count_cons_of_ne hdc]
        exact (hsub.count_le d).trans (h.perConversation d)
    · rw [hperm.length_eq, List.length_cons, List.length_append, hlength]
      exact hfits.2
    · show Function.update s.closed c false d = false
      by_cases hdc : d = c
      · rw [hdc, Function.update_self]
      rw [Function.update_of_ne hdc]
      rcases List.mem_cons.mp (hperm.subset hd) with heq | hd
      · exact absurd heq hdc
      · exact h.closed d (hsub.subset hd)

theorem putBack_safe_iff (h : Safe inFlight s) (hids : IdInv s) {k : Nat}
    {rowsRead : Nat} (hstep : step s (.putBack k cursor rowsRead) = some t) :
    Safe inFlight t ↔ Keeps inFlight s (.putBack k cursor rowsRead) := by
  have hidt := hids.step hstep
  obtain ⟨e, he, rfl⟩ := Option.map_eq_some_iff.mp hstep
  have hopened := putBack_opened s.now { e.2 with cursor := cursor, rowsRead := rowsRead }
    (absent_of_taken hids (List.mem_of_getElem? he))
  have hconversations : (conversations (s.registry.putBack s.now e.1
      { e.2 with cursor := cursor, rowsRead := rowsRead }).opened).Perm
        (e.2.conversation :: conversations s.registry.opened) := by
    rw [hopened]
    unfold conversations
    rw [List.map_append]
    exact List.perm_append_singleton _ _
  cases inFlight with
  | true =>
    refine iff_of_true (h.of_subperm hidt (List.Perm.subperm ?_) fun _ _ => rfl) (fun hf => ?_)
    · have htaken : (conversations s.taken).Perm
          (e.2.conversation :: conversations (s.taken.eraseIdx k)) := (taken_split he).map _
      rw [live_eq, live_eq]
      refine (hconversations.append_right _).trans ?_
      exact List.perm_middle.symm.trans (htaken.symm.append_left _)
    · cases hf
  | false =>
    have hkeeps : Keeps false s (.putBack k cursor rowsRead) ↔
        s.closed e.2.conversation = false ∧
          s.registry.count e.2.conversation < maxPerConversation ∧
            s.registry.opened.length < maxTotal := by
      constructor
      · exact fun hk => hk rfl e he
      · intro hk _ d hd
        obtain ⟨rfl⟩ := he.symm.trans hd
        exact hk
    have hlength : (conversations s.registry.opened).length = s.registry.opened.length :=
      List.length_map _
    rw [hkeeps, count_conversations]
    constructor
    · intro ht
      have hcount := ht.perConversation e.2.conversation
      have htotal := ht.total
      rw [State.live, if_neg Bool.false_ne_true, hconversations.count_eq,
        List.count_cons_self] at hcount
      rw [State.live, if_neg Bool.false_ne_true, hconversations.length_eq, List.length_cons,
        hlength] at htotal
      refine ⟨ht.closed _ ?_, hcount, htotal⟩
      exact hconversations.symm.subset List.mem_cons_self
    · rintro ⟨hclosed, hcount, htotal⟩
      refine ⟨fun d => ?_, ?_, hidt.owners, fun d hd => ?_⟩
      · rw [State.live, if_neg Bool.false_ne_true, hconversations.count_eq]
        by_cases hde : e.2.conversation = d
        · rw [← hde, List.count_cons_self]
          exact hcount
        · rw [List.count_cons_of_ne hde]
          exact h.perConversation d
      · rw [State.live, if_neg Bool.false_ne_true, hconversations.length_eq, List.length_cons,
          hlength]
        exact htotal
      · rcases List.mem_cons.mp (hconversations.subset hd) with rfl | hd
        · exact hclosed
        · exact h.closed d hd

theorem closeConversation_safe_iff (h : Safe inFlight s) (hids : IdInv s)
    (hstep : step s (.closeConversation c) = some t) :
    Safe inFlight t ↔ Keeps inFlight s (.closeConversation c) := by
  have hidt := hids.step hstep
  cases hstep
  have hsub := (s.registry.closeWhere_sublist fun e => e.conversation == c)
  have hgone : c ∉ conversations (s.registry.closeConversation c).opened := by
    intro hmem
    obtain ⟨e, he, heq⟩ := List.mem_map.mp hmem
    have hnot := closeWhere_none he
    rw [heq, beq_self_eq_true] at hnot
    exact Bool.noConfusion hnot
  have hlive : ((conversations (s.registry.closeConversation c).opened) ++
      s.aside inFlight).Sublist (s.live inFlight) := by
    rw [live_eq]
    exact (hsub.map _).append_right _
  constructor
  · rintro ht rfl hmem
    have hclosed := ht.closed c (by rw [live_eq]; exact List.mem_append_right _ hmem)
    have hset : Function.update s.closed c true c = true := Function.update_self _ _ _
    exact Bool.noConfusion (hset.symm.trans hclosed)
  · intro hkeeps
    have hnone : c ∉ s.aside inFlight := by
      cases inFlight with
      | false => exact List.not_mem_nil
      | true => exact hkeeps rfl
    refine h.of_subperm hidt (by rw [live_eq]; exact hlive.subperm) fun d hd => ?_
    rw [live_eq] at hd
    have hdc : d ≠ c := by
      rintro rfl
      rcases List.mem_append.mp hd with hd | hd
      · exact hgone hd
      · exact hnone hd
    exact Function.update_of_ne hdc _ _

theorem take_safe (h : Safe inFlight s) (hids : IdInv s)
    (hstep : step s (.take id) = some t) : Safe inFlight t := by
  have hidt := hids.step hstep
  simp only [step] at hstep
  split at hstep
  · rename_i entry registry htake
    cases hstep
    obtain ⟨hmem, rfl⟩ := take_some htake
    refine h.of_subperm hidt ?_ fun _ _ => rfl
    cases inFlight with
    | false => exact ((s.registry.close_sublist id).map _).subperm
    | true =>
      have hopened := hids.owners.sublist ((List.sublist_append_left _ _).map Prod.fst)
      have hperm := (filter_present hopened hmem).append_right s.taken
      refine List.Perm.subperm (List.Perm.map _ (List.Perm.trans ?_ hperm.symm))
      show ((s.registry.close id).opened ++ (s.taken ++ [(id, entry)])).Perm _
      rw [← List.append_assoc]
      exact List.perm_append_singleton _ _
  · cases hstep
    exact h

/-- **The steps that stay safe.** -/
theorem safe_step_iff (hids : IdInv s) (h : Safe inFlight s) {a : Action Row}
    (hstep : step s a = some t) : Safe inFlight t ↔ Keeps inFlight s a := by
  cases a with
  | openCursor c cursor columns sql => exact openCursor_safe_iff h hids hstep
  | take id => exact iff_of_true (take_safe h hids hstep) trivial
  | putBack k cursor rowsRead => exact putBack_safe_iff h hids hstep
  | drop k =>
    refine iff_of_true ?_ trivial
    have hidt := hids.step hstep
    obtain ⟨e, -, rfl⟩ := Option.map_eq_some_iff.mp hstep
    refine h.of_subperm hidt (List.Sublist.subperm ?_) fun _ _ => rfl
    cases inFlight with
    | false => exact List.Sublist.refl _
    | true => exact ((List.eraseIdx_sublist s.taken k).append_left s.registry.opened).map _
  | closeConversation c => exact closeConversation_safe_iff h hids hstep
  | reapIdle =>
    refine iff_of_true ?_ trivial
    have hidt := hids.step hstep
    cases hstep
    refine h.of_subperm hidt (List.Sublist.subperm ?_) fun _ _ => rfl
    rw [live_eq, live_eq]
    exact ((s.registry.closeWhere_sublist _).map _).append_right _
  | pass millis =>
    cases hstep
    exact iff_of_true ⟨h.perConversation, h.total, h.owners, h.closed⟩ trivial

theorem keeps_of_idle {a : Action Row} (h : step s a = none) : Keeps inFlight s a := by
  cases a with
  | putBack k cursor rowsRead =>
    intro _ e he
    exact absurd (Option.map_eq_none_iff.mp h) (by rw [he]; exact Option.some_ne_none e)
  | openCursor c cursor columns sql | closeConversation c => exact absurd h (Option.some_ne_none _)
  | _ => trivial

end Proofs

/-- **The registry is safe exactly in the runs in which** nothing comes back too late,
with the cursors that are out or without. -/
theorem safe_iff (inFlight : Bool) (acts : List (Action Row)) :
    Machine.Always step (Safe inFlight) .init acts ↔
      Machine.Meets step (Keeps inFlight) .init acts := by
  refine Machine.always_iff_of_inv (I := IdInv) (fun _ _ _ hids hstep => hids.step hstep)
    (fun _ _ _ hids h hstep => safe_step_iff hids h hstep) (fun _ _ h => keeps_of_idle h)
    IdInv.init ?_
  refine ⟨fun _ => ?_, ?_, List.nodup_nil, fun _ h => ?_⟩
  · cases inFlight <;> exact Nat.zero_le _
  · cases inFlight <;> exact Nat.zero_le _
  · cases inFlight <;> exact absurd h List.not_mem_nil

/-! ## A fetch in flight -/

def openOne : Action Unit := .openCursor 0 [] [] []

/-- Four cursors, one of them out while a fifth is opened. -/
def fifthRun : List (Action Unit) :=
  [openOne, openOne, openOne, openOne, .take (handle 1), openOne, .putBack 0 [] 0]

/-- A cursor that is out while its conversation is closed. -/
def closeRun : List (Action Unit) :=
  [openOne, .take (handle 1), .closeConversation 0, .putBack 0 [] 0]

theorem fifthRun_breaks (inFlight : Bool) :
    ¬Machine.Always step (Safe inFlight) .init fifthRun := by
  have hfifth : (Machine.run step .init fifthRun).map
      (fun s => (s.live inFlight).count 0) = some 5 := by
    cases inFlight <;> decide
  intro h
  obtain ⟨s, hs, hcount⟩ := Option.map_eq_some_iff.mp hfifth
  have hcap := (Machine.always_run h hs).perConversation 0
  rw [hcount] at hcap
  exact absurd hcap (by decide)

theorem closeRun_breaks (inFlight : Bool) :
    ¬Machine.Always step (Safe inFlight) .init closeRun := by
  have hclose : (Machine.run step .init closeRun).map
      (fun s => (s.live inFlight, s.closed 0)) = some ([0], true) := by
    cases inFlight <;> decide
  intro h
  obtain ⟨s, hs, hstate⟩ := Option.map_eq_some_iff.mp hclose
  obtain ⟨hlive, hclosed⟩ := Prod.mk.inj hstate
  have hopen := (Machine.always_run h hs).closed 0 (hlive ▸ List.mem_cons_self)
  rw [hclosed] at hopen
  exact Bool.noConfusion hopen

/-- **What comes back too late.** A fifth cursor of a conversation, and one of a
conversation that has been closed, in either reading. -/
theorem fetch_breaks : (¬Machine.Always step (Safe false) .init fifthRun ∧
        ¬Machine.Always step (Safe true) .init fifthRun) ∧
      ¬Machine.Always step (Safe false) .init closeRun ∧
        ¬Machine.Always step (Safe true) .init closeRun :=
  ⟨⟨fifthRun_breaks false, fifthRun_breaks true⟩, closeRun_breaks false, closeRun_breaks true⟩

end RedDb.Ai.CursorOwners
