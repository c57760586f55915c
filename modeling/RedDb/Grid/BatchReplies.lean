import RedDb.Grid.Staging

/-!
# RedDb — what a reply does to the staged changes

A batch is submitted, the user goes on staging, the reply comes. What the batch carries and
nobody touched since is in flight, and a reply is to remove exactly what is in flight and
landed.

* `reply_exact_iff` — it does exactly when nothing else is staged that the reply takes away:
  a reply that reloads the grid or reports a whole batch takes everything, any other one
  the rows that landed.
-/

namespace RedDb.Grid

open ByteText RedDb.Driver

inductive BatchReply where
  | applied
  | partly (status : Nat → OpStatus)

namespace EditGrid

variable (g : EditGrid) (ops : List StagingOp)

/-- One outcome for each statement of the batch. -/
def outcomes (status : Nat → OpStatus) : List OpOutcome :=
  g.buildEditBatch.ops.zipIdx.map fun (op, i) => ⟨i, editVerb op, status i⟩

/-- The grid after the batch of `g` was submitted, `ops` were staged and the reply came. -/
def answered (epoch : Nat) (reply : BatchReply) : Handled :=
  let p := (g.stageAll ops).pending
  match reply with
  | .applied => onBatchApplied p
  | .partly status =>
    onBatchPartial p (some (epoch, g.buildEditBatch.sources)) epoch (g.outcomes status)

/-- The staged changes of the batch that landed. -/
def landed : BatchReply → List OpSource
  | .applied => g.buildEditBatch.sources
  | .partly status => landedSources g.buildEditBatch.sources
      (((g.outcomes status).filter fun o => !o.status.unfinished).map (·.index))

/-! ## What is in flight -/

/-- The batch carries the cell. -/
def carries (key : RowKey) (col : Nat) : Bool :=
  match g.pending.updates.lookup key with
  | some u =>
    match u.cells.lookup col with
    | some cell => cell.foreign.isSome || (col < g.columns.length && !u.keyValues.isEmpty)
    | none => false
  | none => false

def touchesCell (key : RowKey) (col : Nat) : StagingOp → Bool
  | .stageCell _ c keyValues _ _ _ => RowKey.fromValues keyValues == some key && c == col
  | _ => false

def touchesMark (key : RowKey) : StagingOp → Bool
  | .toggleDelete rows => rows.any fun r => RowKey.fromValues r.2 == some key
  | _ => false

def cellInFlight (key : RowKey) (col : Nat) : Bool :=
  g.carries key col && !ops.any (touchesCell key col)

def markInFlight (key : RowKey) : Bool := !ops.any (touchesMark key)

/-- What is known of a draft row: its place in the batch, and the cells set since. -/
structure DraftTrace where
  origin : Option Nat
  edited : List Nat

def trackDraft (addable : Bool) (traces : List DraftTrace) : StagingOp → List DraftTrace
  | .stageDraft index col _ => traces.modify index fun t => { t with edited := col :: t.edited }
  | .addDraft => if addable then traces ++ [⟨none, []⟩] else traces
  | .removeDraft index => traces.eraseIdx index
  | .stageCell .. | .toggleDelete _ => traces

def submittedDrafts : List DraftTrace :=
  (List.range g.pending.inserts.length).map fun i => ⟨some i, []⟩

def draftTraces : List DraftTrace :=
  ops.foldl (trackDraft g.table.isSome) g.submittedDrafts

/-- The cells of a draft row that did not go with it when it landed. -/
def cellsLeft (trace : DraftTrace) (draft : DraftRow) : AList fun _ : Nat => Value :=
  let gone := draft.cells.keys.filter fun col =>
    col < g.columns.length && !trace.edited.contains col
  gone.foldl (fun m col => m.erase col) draft.cells

def draftLeft (landed : List OpSource) (trace : DraftTrace) (draft : DraftRow) :
    Option DraftRow :=
  match trace.origin with
  | none => some draft
  | some index =>
    if .insert index ∈ landed then
      let cells := g.cellsLeft trace draft
      if cells.entries.isEmpty then none else some ⟨cells⟩
    else some draft

/-! ## What is promised -/

/-- The staged value of a cell. -/
def cellAt (p : PendingChanges) (key : RowKey) (col : Nat) : Option StagedCell :=
  (p.updates.lookup key).bind fun u => u.cells.lookup col

/-- Exactly what was in flight and landed is gone, and every other change is still staged as
the user left it. -/
structure Exact (reply : BatchReply) (after : PendingChanges) : Prop where
  cells : ∀ key col, cellAt after key col =
    if .update key ∈ g.landed reply ∧ g.cellInFlight ops key col = true then none
    else cellAt (g.stageAll ops).pending key col
  marks : ∀ key, after.deletes.lookup key =
    if .delete key ∈ g.landed reply ∧ markInFlight ops key = true then none
    else (g.stageAll ops).pending.deletes.lookup key
  drafts : after.inserts =
    ((g.draftTraces ops).zip (g.stageAll ops).pending.inserts).filterMap fun (trace, draft) =>
      g.draftLeft (g.landed reply) trace draft

/-- The reply takes every staged change with it. -/
def takesAll (p : PendingChanges) : BatchReply → Bool
  | .applied => true
  | .partly status => movesRows (g.outcomes status) || p.hasForeign

/-- Nothing is staged that the reply takes away without having landed. -/
def TakesOnlyLanded (reply : BatchReply) : Prop :=
  let p := (g.stageAll ops).pending
  (∀ key col, (cellAt p key col).isSome →
    (g.takesAll p reply = true ∨ .update key ∈ g.landed reply) →
      .update key ∈ g.landed reply ∧ g.cellInFlight ops key col = true) ∧
  (g.takesAll p reply = true →
    (∀ key ∈ p.deletes, .delete key ∈ g.landed reply ∧ markInFlight ops key = true) ∧
    ∀ trace draft, (trace, draft) ∈ (g.draftTraces ops).zip p.inserts →
      (∃ index, trace.origin = some index ∧ .insert index ∈ g.landed reply) ∧
        ∀ col ∈ draft.cells, col < g.columns.length ∧ col ∉ trace.edited)

variable {g ops}

/-! ## The batch and its outcomes -/

/-- Each statement is of the kind its source says. -/
def verbOf : OpSource → String
  | .update _ => "Update"
  | .delete _ => "Delete"
  | .insert _ => "Insert"

theorem entry_verb {entry : EditOp × OpSource} (h : entry ∈ g.buildEditBatch.entries) :
    editVerb entry.1 = verbOf entry.2 := by
  unfold buildEditBatch at h
  split at h
  · cases h
  rcases List.mem_append.mp h with h | h
  · rcases List.mem_append.mp h with h | h
    · obtain ⟨e, -, h⟩ := List.mem_flatMap.mp h
      obtain ⟨op, hop, rfl⟩ := List.mem_map.mp h
      rcases List.mem_append.mp hop with hop | hop
      · obtain ⟨cell, -, hop⟩ := List.mem_filterMap.mp hop
        obtain ⟨f, -, rfl⟩ := Option.map_eq_some_iff.mp hop
        rfl
      · split at hop
        · cases hop
        · rw [List.mem_singleton.mp hop]
          rfl
    · obtain ⟨e, -, h⟩ := List.mem_flatMap.mp h
      unfold deleteOps at h
      dsimp only at h
      split at h
      · cases h
      · rw [List.mem_singleton.mp h]
        rfl
  · obtain ⟨e, -, h⟩ := List.mem_flatMap.mp h
    unfold insertOps at h
    dsimp only at h
    split at h
    · cases h
    · rw [List.mem_singleton.mp h]
      rfl

/-- Where no row moved, only updates landed. -/
theorem landed_update {status : Nat → OpStatus} (h : movesRows (g.outcomes status) = false)
    {source : OpSource} (hs : source ∈ g.landed (.partly status)) :
    verbOf source = "Update" := by
  obtain ⟨hmem, hfinished⟩ := List.mem_filter.mp hs
  obtain ⟨i, hi⟩ := List.mem_iff_getElem?.mp hmem
  obtain ⟨entry, hentry, rfl⟩ := Option.map_eq_some_iff.mp ((List.getElem?_map ..).symm.trans hi)
  have hdone : (entry.2 != entry.2 || List.contains _ i) = true :=
    List.all_eq_true.mp hfinished (entry.2, i) (List.mem_zipIdx_iff_getElem?.mpr hi)
  rw [bne_self_eq_false, Bool.false_or, List.contains_iff_mem] at hdone
  obtain ⟨o, ho, hindex⟩ := List.mem_map.mp hdone
  obtain ⟨ho, hstatus⟩ := List.mem_filter.mp ho
  obtain ⟨⟨op, j⟩, hop, rfl⟩ := List.mem_map.mp ho
  obtain rfl : j = i := hindex
  have hop : (g.buildEditBatch.entries.map Prod.fst)[j]? = some op :=
    List.mem_zipIdx_iff_getElem?.mp hop
  rw [List.getElem?_map, hentry, Option.map_some, Option.some_inj] at hop
  have hverb : editVerb op = verbOf entry.2 := hop ▸ entry_verb (List.mem_of_getElem? hentry)
  have hstays := List.any_eq_false.mp h _ ho
  rw [hstatus, Bool.true_and] at hstays
  have hstays : ¬ (editVerb op == "Delete" || editVerb op == "Insert") = true := hstays
  rw [hverb] at hstays
  cases hsource : entry.2 with
  | update key => rfl
  | delete key | insert index =>
    rw [hsource] at hstays
    exact absurd rfl hstays

/-! ## Draft rows and their traces -/

theorem track_length (op : StagingOp) {traces : List DraftTrace}
    (h : traces.length = g.pending.inserts.length) :
    (trackDraft g.table.isSome traces op).length = (g.stage op).pending.inserts.length := by
  cases op with
  | stageCell row col keyValues original value foreign =>
    show traces.length = (g.pending.stageExisting _ _ _ _ _ _).inserts.length
    rw [PendingChanges.stageExisting_inserts, h]
  | stageDraft index col value =>
    show (traces.modify _ _).length = (g.pending.inserts.modify _ _).length
    rw [List.length_modify, List.length_modify, h]
  | addDraft =>
    show (if _ then _ else _ : List DraftTrace).length = (ite _ _ _ : PendingChanges).inserts.length
    split
    · simp [h]
    · exact h
  | removeDraft index =>
    show (traces.eraseIdx index).length = (g.pending.inserts.eraseIdx index).length
    rw [List.length_eraseIdx, List.length_eraseIdx, h]
  | toggleDelete rows =>
    show traces.length = (rows.foldl _ g.pending).inserts.length
    rw [h]
    generalize g.pending = p
    induction rows generalizing p with
    | nil => rfl
    | cons r rows ih => rw [List.foldl_cons, ← ih, PendingChanges.toggleDelete_inserts]

theorem stage_table (op : StagingOp) : (g.stage op).table = g.table := rfl

theorem traces_length : (g.draftTraces ops).length = (g.stageAll ops).pending.inserts.length := by
  have hrun : ∀ (ops : List StagingOp) (g : EditGrid) (traces : List DraftTrace),
      traces.length = g.pending.inserts.length →
        (ops.foldl (trackDraft g.table.isSome) traces).length =
          (g.stageAll ops).pending.inserts.length := by
    intro ops
    induction ops with
    | nil => exact fun _ _ h => h
    | cons op ops ih =>
      intro g traces h
      rw [List.foldl_cons, ← stage_table (g := g) op]
      exact ih (g.stage op) _ (track_length op h)
  refine hrun ops g _ ?_
  rw [submittedDrafts, List.length_map, List.length_range]

/-- Erasing keys leaves the others. -/
theorem lookup_eraseAll {α β : Type*} [DecidableEq α] (keys : List α) (m : AList fun _ : α => β)
    (key : α) : (keys.foldl (fun m key => m.erase key) m).lookup key =
      if key ∈ keys then none else m.lookup key := by
  induction keys generalizing m with
  | nil => rw [if_neg List.not_mem_nil, List.foldl_nil]
  | cons k keys ih =>
    rw [List.foldl_cons, ih]
    by_cases hmem : key ∈ keys
    · rw [if_pos hmem, if_pos (List.mem_cons_of_mem _ hmem)]
    rw [if_neg hmem]
    by_cases hk : key = k
    · rw [if_pos (by rw [hk]; exact List.mem_cons_self), hk, AList.lookup_erase]
    · rw [if_neg (by simp [hk, hmem]), AList.lookup_erase_ne hk]

theorem mem_eraseAll {α β : Type*} [DecidableEq α] {keys : List α} {m : AList fun _ : α => β}
    {key : α} : key ∈ keys.foldl (fun m key => m.erase key) m ↔ key ∈ m ∧ key ∉ keys := by
  rw [← AList.lookup_isSome, lookup_eraseAll, ← AList.lookup_isSome]
  split
  · rename_i hmem
    exact iff_of_false Bool.false_ne_true fun h => h.2 hmem
  · rename_i hmem
    exact (and_iff_left hmem).symm

theorem entries_isEmpty_iff {β : Type*} (m : AList fun _ : Nat => β) :
    m.entries.isEmpty = true ↔ ∀ col, col ∉ m := by
  rw [List.isEmpty_iff]
  constructor
  · intro h col hmem
    rw [AList.mem_keys, AList.keys, h] at hmem
    cases hmem
  · intro h
    cases hentries : m.entries with
    | nil => rfl
    | cons e rest =>
      refine absurd ?_ (h e.1)
      rw [AList.mem_keys, AList.keys, hentries]
      exact List.mem_cons_self

theorem mem_cellsLeft {trace : DraftTrace} {draft : DraftRow} {col : Nat} :
    col ∈ g.cellsLeft trace draft ↔
      col ∈ draft.cells ∧ ¬ (col < g.columns.length ∧ col ∉ trace.edited) := by
  rw [cellsLeft, mem_eraseAll, List.mem_filter, ← AList.mem_keys, Bool.and_eq_true,
    decide_eq_true_eq, Bool.not_eq_true', List.contains_eq_mem, decide_eq_false_iff_not]
  tauto

theorem cellsLeft_isEmpty_iff {trace : DraftTrace} {draft : DraftRow} :
    (g.cellsLeft trace draft).entries.isEmpty = true ↔
      ∀ col ∈ draft.cells, col < g.columns.length ∧ col ∉ trace.edited := by
  rw [entries_isEmpty_iff]
  refine forall_congr' fun col => ?_
  rw [mem_cellsLeft, not_and, not_not]

theorem draftLeft_eq_none {landed : List OpSource} {trace : DraftTrace} {draft : DraftRow} :
    g.draftLeft landed trace draft = none ↔
      (∃ index, trace.origin = some index ∧ .insert index ∈ landed) ∧
        ∀ col ∈ draft.cells, col < g.columns.length ∧ col ∉ trace.edited := by
  rw [← cellsLeft_isEmpty_iff]
  unfold draftLeft
  cases horigin : trace.origin with
  | none => simp
  | some index =>
    by_cases hlanded : .insert index ∈ landed <;> simp [hlanded]

theorem draftLeft_of_not_landed {landed : List OpSource} {trace : DraftTrace} {draft : DraftRow}
    (h : ∀ index, .insert index ∉ landed) : g.draftLeft landed trace draft = some draft := by
  unfold draftLeft
  split
  · rfl
  · rw [if_neg (h _)]

/-! ## The replies -/

theorem answered_takesAll {epoch : Nat} {reply : BatchReply}
    (h : g.takesAll (g.stageAll ops).pending reply = true) :
    (g.answered ops epoch reply).pending = .empty := by
  cases reply with
  | applied =>
    show (onBatchApplied _).pending = .empty
    unfold onBatchApplied
    dsimp only
    split <;> rfl
  | partly status =>
    show (onBatchPartial _ _ _ _).pending = .empty
    rw [onBatchPartial, if_pos (show (movesRows _ || PendingChanges.hasForeign _) = true from h)]

theorem answered_partly {epoch : Nat} {status : Nat → OpStatus}
    (h : g.takesAll (g.stageAll ops).pending (.partly status) = false) :
    (g.answered ops epoch (.partly status)).pending =
      unstageFinished (g.stageAll ops).pending g.buildEditBatch.sources
        (((g.outcomes status).filter fun o => !o.status.unfinished).map (·.index)) := by
  have h : ¬ (movesRows (g.outcomes status) || (g.stageAll ops).pending.hasForeign) = true :=
    Bool.eq_false_iff.mp h
  show (onBatchPartial _ (some (epoch, _)) epoch _).pending = _
  rw [onBatchPartial, if_neg h]
  dsimp only
  rw [if_pos rfl]

/-- A reply that takes everything is exact where everything staged is in flight and landed. -/
theorem exact_empty_iff {reply : BatchReply}
    (h : g.takesAll (g.stageAll ops).pending reply = true) :
    g.Exact ops reply .empty ↔ g.TakesOnlyLanded ops reply := by
  constructor
  · rintro ⟨hcells, hmarks, hdrafts⟩
    refine ⟨fun key col hstaged _ => ?_, fun _ => ⟨fun key hstaged => ?_, fun trace draft hmem => ?_⟩⟩
    · by_contra hstays
      have hcell := hcells key col
      rw [if_neg hstays] at hcell
      rw [← hcell] at hstaged
      cases hstaged
    · by_contra hstays
      have hmark := hmarks key
      rw [if_neg hstays] at hmark
      rw [← AList.lookup_isSome, ← hmark] at hstaged
      cases hstaged
    · have hnone := List.filterMap_eq_nil_iff.mp hdrafts.symm (trace, draft) hmem
      exact draftLeft_eq_none.mp hnone
  · rintro ⟨hcells, hrest⟩
    obtain ⟨hmarks, hdrafts⟩ := hrest h
    refine ⟨fun key col => ?_, fun key => ?_, ?_⟩
    · show none = _
      split
      · rfl
      · rename_i hstays
        by_contra hne
        exact hstays (hcells key col (Option.isSome_iff_ne_none.mpr (Ne.symm hne)) (Or.inl h))
    · show none = _
      split
      · rfl
      · rename_i hstays
        by_contra hne
        exact hstays (hmarks key (AList.lookup_isSome.mp (Option.isSome_iff_ne_none.mpr (Ne.symm hne))))
    · refine (List.filterMap_eq_nil_iff.mpr ?_).symm
      rintro ⟨trace, draft⟩ hmem
      exact draftLeft_eq_none.mpr (hdrafts trace draft hmem)

/-- A reply that takes the rows that landed is exact where nothing else is staged in them. -/
theorem exact_unstaged_iff {status : Nat → OpStatus}
    (h : g.takesAll (g.stageAll ops).pending (.partly status) = false) :
    g.Exact ops (.partly status) (unstageFinished (g.stageAll ops).pending g.buildEditBatch.sources
        (((g.outcomes status).filter fun o => !o.status.unfinished).map (·.index))) ↔
      g.TakesOnlyLanded ops (.partly status) := by
  have honly : ∀ source ∈ g.landed (.partly status), verbOf source = "Update" :=
    fun source => landed_update (Bool.or_eq_false_iff.mp h).1
  have hnodelete : ∀ key, .delete key ∉ g.landed (.partly status) := by
    intro key hmem
    have : "Delete" = "Update" := honly _ hmem
    exact absurd this (by decide)
  have hnoinsert : ∀ index, .insert index ∉ g.landed (.partly status) := by
    intro index hmem
    have : "Insert" = "Update" := honly _ hmem
    exact absurd this (by decide)
  have hkeys : ∀ key, key ∈ (g.landed (.partly status)).filterMap OpSource.updateKey ↔
      .update key ∈ g.landed (.partly status) := by
    simp [List.mem_filterMap]
  have hcell : ∀ key col,
      cellAt (unstageFinished (g.stageAll ops).pending g.buildEditBatch.sources
        (((g.outcomes status).filter fun o => !o.status.unfinished).map (·.index))) key col =
        if .update key ∈ g.landed (.partly status) then none
        else cellAt (g.stageAll ops).pending key col := by
    intro key col
    show (AList.lookup key (List.foldl _ _
      ((g.landed (.partly status)).filterMap OpSource.updateKey))).bind _ = _
    rw [lookup_eraseAll]
    by_cases hmem : .update key ∈ g.landed (.partly status)
    · rw [if_pos hmem, if_pos ((hkeys key).mpr hmem), Option.bind_none]
    · rw [if_neg hmem, if_neg fun h => hmem ((hkeys key).mp h)]
      rfl
  constructor
  · rintro ⟨hcells, -, -⟩
    refine ⟨fun key col hstaged htaken => ?_, fun hall => ?_⟩
    · have hlanded : .update key ∈ g.landed (.partly status) :=
        htaken.resolve_left (by rw [h]; exact Bool.false_ne_true)
      refine ⟨hlanded, ?_⟩
      by_contra hstays
      have heq := hcells key col
      rw [hcell, if_pos hlanded, if_neg fun hc => hstays hc.2] at heq
      rw [← heq] at hstaged
      cases hstaged
    · rw [h] at hall
      cases hall
  · rintro ⟨hcells, -⟩
    refine ⟨fun key col => ?_, fun key => ?_, ?_⟩
    · rw [hcell]
      by_cases hlanded : .update key ∈ g.landed (.partly status)
      · rw [if_pos hlanded]
        split
        · rfl
        · rename_i hstays
          by_contra hne
          exact hstays (hcells key col (Option.isSome_iff_ne_none.mpr (Ne.symm hne)) (Or.inr hlanded))
      · rw [if_neg hlanded, if_neg fun hc => hlanded hc.1]
    · rw [if_neg fun hc => hnodelete key hc.1]
      show AList.lookup key (List.foldl _ _
        ((g.landed (.partly status)).filterMap OpSource.deleteKey)) = _
      rw [lookup_eraseAll, if_neg]
      simpa [List.mem_filterMap] using hnodelete key
    · have hnone : (g.landed (.partly status)).filterMap OpSource.insertIndex = [] := by
        rw [List.filterMap_eq_nil_iff]
        intro source hsource
        cases source with
        | insert index => exact absurd hsource (hnoinsert index)
        | update key => rfl
        | delete key => rfl
      show List.foldl List.eraseIdx _ ((((g.landed (.partly status)).filterMap
        OpSource.insertIndex).mergeSort _).dedup.reverse) = _
      rw [hnone]
      have hkept : ∀ e ∈ (g.draftTraces ops).zip (g.stageAll ops).pending.inserts,
          g.draftLeft (g.landed (.partly status)) e.1 e.2 = some e.2 :=
        fun e _ => draftLeft_of_not_landed hnoinsert
      rw [List.filterMap_congr hkept, ← Function.comp_def some Prod.snd, List.filterMap_eq_map,
        List.map_snd_zip (Nat.le_of_eq traces_length.symm), List.mergeSort_nil]
      rfl

/-- **Replies to a batch.** -/
theorem reply_exact_iff (g : EditGrid) (ops : List StagingOp) (epoch : Nat) (reply : BatchReply) :
    g.Exact ops reply (g.answered ops epoch reply).pending ↔ g.TakesOnlyLanded ops reply := by
  cases htakes : g.takesAll (g.stageAll ops).pending reply with
  | true => rw [answered_takesAll htakes, exact_empty_iff htakes]
  | false =>
    cases reply with
    | applied => cases htakes
    | partly status => rw [answered_partly htakes, exact_unstaged_iff htakes]

/-- `users(id, name)` with the name of row 1 staged. -/
def usersGrid : EditGrid where
  table := some (ascii "main", ascii "users")
  columns := [⟨ascii "id", some (ascii "int")⟩, ⟨ascii "name", some (ascii "text")⟩]
  pending := { PendingChanges.empty with
    updates := (∅ : AList _).insert [(ascii "id", .int 1)]
      ⟨[(ascii "id", .integer 1)], 0, (∅ : AList _).insert 1 ⟨.text (ascii "Ann"), none⟩⟩ }

/-- The name of row 2 is staged while the batch is on its way. -/
def renamesNext : List StagingOp :=
  [.stageCell 1 1 [(ascii "id", .integer 2)] (.text (ascii "Bob")) (.text (ascii "Rob")) none]

/-- The reply that row 1 landed drops the change to row 2. -/
theorem usersGrid_loses :
    ¬ usersGrid.Exact renamesNext .applied (usersGrid.answered renamesNext 0 .applied).pending := by
  intro h
  have hcell := h.cells [(ascii "id", .int 2)] 1
  have hstays : ¬ (.update [(ascii "id", .int 2)] ∈ usersGrid.landed .applied ∧
      usersGrid.cellInFlight renamesNext [(ascii "id", .int 2)] 1 = true) := by
    decide
  have hgone : cellAt (usersGrid.answered renamesNext 0 .applied).pending
      [(ascii "id", .int 2)] 1 = none := by
    decide
  have hstaged : (cellAt (usersGrid.stageAll renamesNext).pending
      [(ascii "id", .int 2)] 1).isSome = true := by
    decide
  rw [if_neg hstays, hgone] at hcell
  rw [← hcell] at hstaged
  cases hstaged

end EditGrid

end RedDb.Grid
