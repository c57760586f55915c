import RedDb.Docs.Seek
import RedDb.Docs.Writes

/-!
# RedDb — exporting and copying a collection

Both jobs read a collection forward in windows of 500 documents, each from behind the
last `_id` of the one before, until a window is empty. The export hands every document
to a sink; the copy writes window after window to another collection.

* `exportLoop_pages`, `docCopyLoop_pages` — what a job has visited when it reports success
  are the pages of a keyset scan;
* `visits_iff` — it has then visited every document once exactly when every `_id`
  that ends a window matches, as a bound, exactly the ids behind it;
* `copies_iff` — when a drop-and-insert copy leaves the source's documents, and no
  others.
-/

namespace RedDb.Docs

open RedDb.Driver

variable {κ : Type*} [LinearOrder κ]

/-- What a job meets while it reads: the answers of its cancel flag, poll by poll, and
the reads that fail. -/
structure Reading where
  cancel : Nat → Bool
  reads : Nat → Option RedError

/-- Nothing stands in the way. -/
def Reading.Quiet (r : Reading) : Prop := (∀ k, r.cancel k = false) ∧ ∀ k, r.reads k = none

/-! ## The export -/

def exportWindow : Nat := 500

/-- The writing half of an export, whatever its format. -/
structure Sink (σ ω : Type*) where
  write : σ → Document → Except RedError σ
  finish : σ → Except RedError ω

/-- The state between two windows. `visited` are the documents the sink was given. -/
structure ExportState (σ : Type*) where
  sink : σ
  polls : Nat
  reads : Nat
  visited : List Stored

variable {S : Server κ} {coll : Collection S} {filter : Option DocValue} {visited : List Stored}
  {fuel size : Nat}

section Export

variable [Decimals] {σ ω : Type*} (ops : Sink σ ω) (r : Reading)

/-- The documents of one window, the flag polled before each. -/
def exportDocs : List Stored → ExportState σ → Except RedError (ExportState σ)
  | [], st => .ok st
  | d :: ds, st =>
    if r.cancel st.polls then .error .interrupted
    else
      match ops.write st.sink (splitDocument d.wire) with
      | .error e => .error e
      | .ok sink => exportDocs ds
          { st with sink := sink, polls := st.polls + 1, visited := st.visited ++ [d] }

@[grind =] def exportLoop (S : Server κ) (coll : Collection S) (filter : Option DocValue) :
    Nat → Option DocValue → ExportState σ → Option (Except RedError (ω × List Stored))
  | 0, _, _ => none
  | fuel + 1, after, st =>
    if r.cancel st.polls then some (.error .interrupted)
    else
      match r.reads st.reads with
      | some e => some (.error e)
      | none =>
        let window := findSeek S coll.docs filter (.forward after) exportWindow
        if window.isEmpty then
          match ops.finish st.sink with
          | .error e => some (.error e)
          | .ok outcome => some (.ok (outcome, st.visited))
        else
          match exportDocs ops r window { st with polls := st.polls + 1, reads := st.reads + 1 } with
          | .error e => some (.error e)
          | .ok st => exportLoop S coll filter fuel (window.getLast?.map Stored.docId) st

/-- The export from its sink's beginning on. -/
def runDocExport (S : Server κ) (coll : Collection S) (filter : Option DocValue)
    (begin : Except RedError σ) (fuel : Nat) : Option (Except RedError (ω × List Stored)) :=
  match begin with
  | .error e => some (.error e)
  | .ok sink => exportLoop ops r S coll filter fuel none ⟨sink, 0, 0, []⟩

variable {ops r}

theorem exportDocs_visited {window : List Stored} {st st' : ExportState σ}
    (h : exportDocs ops r window st = .ok st') : st'.visited = st.visited ++ window := by
  induction window generalizing st with
  | nil =>
    cases h
    rw [List.append_nil]
  | cons d ds ih =>
    rw [exportDocs] at h
    split at h
    · cases h
    split at h
    · cases h
    · rw [ih h, List.append_assoc]
      rfl

/-- A window read and passed on: the next one is read behind its last document. -/
theorem window_step (S : Server κ) (coll : Collection S) (filter : Option DocValue)
    (after : Option Stored) (hsize : 0 < size) :
    let window := findSeek S coll.docs filter (.forward (after.map Stored.docId)) size
    window = Keyset.page S.seeks S.sort size (coll.matching filter) after ∧
      (window = [] ∨ ∃ last, window.getLast? = some last) := by
  intro window
  refine ⟨findSeek_forward S coll filter after hsize, ?_⟩
  cases h : window.getLast? with
  | none => exact Or.inl (List.getLast?_eq_none_iff.mp h)
  | some last => exact Or.inr ⟨last, rfl⟩

/-- What an export has visited when it reports its outcome. -/
theorem exportLoop_pages (after : Option Stored) {st : ExportState σ} {outcome : ω}
    (h : exportLoop ops r S coll filter fuel (after.map Stored.docId) st =
      some (.ok (outcome, visited))) :
    ∃ out, Keyset.Pages S.seeks S.sort exportWindow (coll.matching filter) after out ∧
      visited = st.visited ++ out := by
  induction fuel generalizing after st with
  | zero => cases h
  | succ fuel ih =>
    obtain ⟨hpage, hwindow⟩ := window_step S coll filter after
      (show 0 < exportWindow by decide)
    rw [exportLoop] at h
    simp only at h
    split at h
    · cases h
    split at h
    · cases h
    rcases hwindow with hnil | ⟨last, hlast⟩
    · rw [hnil] at h
      have hv : visited = st.visited := by
        simp only [List.isEmpty_nil, if_true] at h
        split at h
        · cases h
        · cases h
          rfl
      exact ⟨[], .done (hpage ▸ hnil), by rw [hv, List.append_nil]⟩
    · have hne : (findSeek S coll.docs filter (.forward (after.map Stored.docId))
          exportWindow).isEmpty = false := by
        rw [List.isEmpty_eq_false_iff]
        rintro hnil
        rw [hnil] at hlast
        cases hlast
      rw [hne] at h
      simp only [Bool.false_eq_true, if_false] at h
      split at h
      · cases h
      rename_i st' hdocs
      rw [hlast] at h
      obtain ⟨out, hout, rfl⟩ := ih (some last) h
      refine ⟨_, .more (hpage ▸ hlast) hout, ?_⟩
      rw [exportDocs_visited hdocs, List.append_assoc, ← hpage]

/-- A sink that never fails. -/
def Sink.Sound (ops : Sink σ ω) : Prop :=
  (∀ s d, ∃ s', ops.write s d = .ok s') ∧ ∀ s, ∃ o, ops.finish s = .ok o

theorem exportDocs_ok (hops : ops.Sound) (hr : r.Quiet) (window : List Stored) (st : ExportState σ) :
    ∃ st', exportDocs ops r window st = .ok st' := by
  induction window generalizing st with
  | nil => exact ⟨st, rfl⟩
  | cons d ds ih =>
    obtain ⟨sink, hsink⟩ := hops.1 st.sink (splitDocument d.wire)
    rw [exportDocs, hr.1, hsink]
    exact ih _

/-- An export that nothing stands in the way of ends where the scan does. -/
theorem exportLoop_ends
    (hops : ops.Sound) (hr : r.Quiet) {after : Option Stored} {out : List Stored}
    (hout : Keyset.Pages S.seeks S.sort exportWindow (coll.matching filter) after out)
    (st : ExportState σ) :
    ∃ fuel o, exportLoop ops r S coll filter fuel (after.map Stored.docId) st =
      some (.ok (o, st.visited ++ out)) := by
  induction hout generalizing st with
  | @done after hnil =>
    obtain ⟨o, ho⟩ := hops.2 st.sink
    refine ⟨1, o, ?_⟩
    rw [exportLoop, hr.1, hr.2, findSeek_forward S coll filter after (by decide), hnil,
      List.append_nil]
    simp only [Bool.false_eq_true, if_false, List.isEmpty_nil, if_true, ho]
  | @more after last rest hlast _ ih =>
    have hne : (Keyset.page S.seeks S.sort exportWindow (coll.matching filter) after).isEmpty =
        false := by
      rw [List.isEmpty_eq_false_iff]
      rintro hnil
      rw [hnil] at hlast
      cases hlast
    obtain ⟨st', hdocs⟩ := exportDocs_ok hops hr
      (Keyset.page S.seeks S.sort exportWindow (coll.matching filter) after)
      { st with polls := st.polls + 1, reads := st.reads + 1 }
    obtain ⟨fuel, o, h⟩ := ih st'
    refine ⟨fuel + 1, o, ?_⟩
    rw [exportLoop, hr.1, hr.2, findSeek_forward S coll filter after (by decide)]
    simp only [Bool.false_eq_true, if_false, hne, hdocs, hlast]
    rw [← List.append_assoc, ← exportDocs_visited hdocs]
    exact h

end Export

/-! ## The copy -/

inductive DocCopyMode where
  | append
  | upsertOnId
  | dropAndInsert
  deriving DecidableEq

def docCopyWindow : Nat := 500

def DocCopyMode.onId : DocCopyMode → Bool
  | .upsertOnId => true
  | _ => false

/-- A copy so far, and what it ends as: the count and the error it returns, the target,
and the documents whose windows were written. -/
structure CopyRun where
  written : Nat
  error : Option RedError
  target : Target
  visited : List Stored

section Copy

variable [Decimals]

variable (r : Reading) (m : Mongo) (onId : Bool)

@[grind =] def docCopyLoop (S : Server κ) (coll : Collection S) (filter : Option DocValue) :
    Nat → Option DocValue → Nat → CopyRun → Option CopyRun
  | 0, _, _, _ => none
  | fuel + 1, after, k, run =>
    if r.cancel k then some { run with error := some .interrupted }
    else
      match r.reads k with
      | some e => some { run with error := some e }
      | none =>
        let window := findSeek S coll.docs filter (.forward after) docCopyWindow
        if window.isEmpty then some run
        else
          match write m onId (documents window) run.target with
          | (.error e, t) => some { run with target := t, error := some e }
          | (.ok n, t) =>
            docCopyLoop S coll filter fuel (window.getLast?.map Stored.docId) (k + 1)
              { run with written := run.written + n, target := t, visited := run.visited ++ window }

/-- `drop_collection`: the server empties the target or answers with an error. -/
def dropCollection (reply : Option RedError) (t : Target) : Except RedError Unit × Target :=
  match refuseIfReadOnly m.readOnly with
  | .error e => (.error e, t)
  | .ok () =>
    match reply with
    | some e => (.error e, t)
    | none => (.ok (), { t with docs := [] })

/-- The target as the scan finds it. A drop that fails is logged and passed over, and so
is a `create_collection`, which leaves the documents alone. -/
def prepareTarget (mode : DocCopyMode) (drop : Option RedError) (t : Target) : Target :=
  if mode = .dropAndInsert then (dropCollection m drop t).2 else t

def docCopyJob (mode : DocCopyMode) (drop : Option RedError) (S : Server κ) (coll : Collection S)
    (filter : Option DocValue) (fuel : Nat) (t : Target) : Option CopyRun :=
  docCopyLoop r m mode.onId S coll filter fuel none 0 ⟨0, none, prepareTarget m mode drop t, []⟩

/-- The windows a copy asks for, whatever becomes of them, and what ends the asking:
nothing yet, or the end of the collection, or an error. -/
@[grind =] def copyWindows (S : Server κ) (coll : Collection S) (filter : Option DocValue) :
    Nat → Option DocValue → Nat → List (List Stored) × Option (Option RedError)
  | 0, _, _ => ([], none)
  | fuel + 1, after, k =>
    if r.cancel k then ([], some (some .interrupted))
    else
      match r.reads k with
      | some e => ([], some (some e))
      | none =>
        let window := findSeek S coll.docs filter (.forward after) docCopyWindow
        if window.isEmpty then ([], some none)
        else
          let rest := copyWindows S coll filter fuel (window.getLast?.map Stored.docId) (k + 1)
          (window :: rest.1, rest.2)

/-- The chunks of a copy. -/
def copyChunks (S : Server κ) (coll : Collection S) (filter : Option DocValue) (fuel : Nat)
    (after : Option DocValue) (k : Nat) : List (List Document) :=
  (copyWindows r S coll filter fuel after k).1.map documents

variable {r m onId}

/-- A copy writes its chunks, and ends as the writing or else the reading does. -/
theorem docCopyLoop_eq (S : Server κ) (coll : Collection S) (filter : Option DocValue) (fuel : Nat)
    (after : Option DocValue) (k : Nat) {run run' : CopyRun} (herr : run.error = none)
    (h : docCopyLoop r m onId S coll filter fuel after k run = some run') :
    let done := writeChunks m onId (copyChunks r S coll filter fuel after k) run.written run.target
    run'.written = done.1.1 ∧ run'.target = done.2 ∧
      (done.1.2 = none → some run'.error = (copyWindows r S coll filter fuel after k).2 ∧
        run'.visited = run.visited ++ (copyWindows r S coll filter fuel after k).1.flatten) ∧
      (∀ e, done.1.2 = some e → run'.error = some e) := by
  induction fuel generalizing after k run with
  | zero => cases h
  | succ fuel ih =>
    rw [docCopyLoop] at h
    rw [copyChunks, copyWindows]
    split at h
    · rename_i hc
      cases h
      rw [if_pos hc]
      exact ⟨rfl, rfl, fun _ => ⟨rfl, (List.append_nil _).symm⟩, by intro e he; cases he⟩
    rename_i hc
    rw [if_neg hc]
    cases hread : r.reads k with
    | some e =>
      rw [hread] at h
      cases h
      exact ⟨rfl, rfl, fun _ => ⟨rfl, (List.append_nil _).symm⟩, by intro e he; cases he⟩
    | none =>
      rw [hread] at h
      simp only at h ⊢
      split at h
      · rename_i hempty
        cases h
        rw [if_pos hempty]
        refine ⟨rfl, rfl, fun _ => ⟨?_, (List.append_nil _).symm⟩, by intro e he; cases he⟩
        rw [herr]
      rename_i hempty
      rw [if_neg hempty]
      simp only [List.map_cons, List.flatten_cons]
      rw [writeChunks]
      generalize findSeek S coll.docs filter (.forward after) docCopyWindow = window at h ⊢
      cases hwrite : write m onId (documents window) run.target with
      | mk res t =>
        rw [hwrite] at h
        cases res with
        | error e =>
          cases h
          refine ⟨rfl, rfl, ?_, fun e he => he⟩
          show some e = none → _
          rintro ⟨⟩
        | ok n =>
          have hnext : (CopyRun.mk (run.written + n) run.error t
              (run.visited ++ window)).error = none := herr
          obtain ⟨h1, h2, h3, h4⟩ := ih _ _ hnext h
          refine ⟨h1, h2, fun hn => ?_, h4⟩
          obtain ⟨h5, h6⟩ := h3 hn
          refine ⟨h5, ?_⟩
          rw [h6, List.append_assoc]

/-- A copy whose asking for windows ends returns. -/
theorem docCopyLoop_returns (m : Mongo) (onId : Bool) (S : Server κ) (coll : Collection S) (filter : Option DocValue)
    (fuel : Nat) (after : Option DocValue) (k : Nat) (run : CopyRun)
    (h : (copyWindows r S coll filter fuel after k).2 ≠ none) :
    ∃ run', docCopyLoop r m onId S coll filter fuel after k run = some run' := by
  induction fuel generalizing after k run with
  | zero => exact absurd rfl h
  | succ fuel ih =>
    rw [copyWindows] at h
    rw [docCopyLoop]
    split at h
    · rename_i hc
      exact ⟨_, if_pos hc⟩
    rename_i hc
    rw [if_neg hc]
    cases hread : r.reads k with
    | some e => exact ⟨_, rfl⟩
    | none =>
      rw [hread] at h
      simp only at h ⊢
      split at h
      · rename_i hempty
        exact ⟨_, if_pos hempty⟩
      rename_i hempty
      rw [if_neg hempty]
      split
      · exact ⟨_, rfl⟩
      · exact ih _ _ _ h

/-- The windows of a reading that came to the end of the collection. -/
theorem copyWindows_pages
    (after : Option Stored) {k : Nat}
    (h : (copyWindows r S coll filter fuel (after.map Stored.docId) k).2 = some none) :
    Keyset.Pages S.seeks S.sort docCopyWindow (coll.matching filter) after
      (copyWindows r S coll filter fuel (after.map Stored.docId) k).1.flatten := by
  induction fuel generalizing after k with
  | zero => cases h
  | succ fuel ih =>
    obtain ⟨hpage, hwindow⟩ := window_step S coll filter after
      (show 0 < docCopyWindow by decide)
    rw [copyWindows] at h ⊢
    split at h
    · cases h
    rename_i hc
    rw [if_neg hc]
    cases hread : r.reads k with
    | some e => rw [hread] at h; cases h
    | none =>
      rw [hread] at h
      simp only at h ⊢
      rcases hwindow with hnil | ⟨last, hlast⟩
      · rw [hnil]
        exact .done (hpage ▸ hnil)
      have hne : (findSeek S coll.docs filter (.forward (after.map Stored.docId))
          docCopyWindow).isEmpty = false := by
        rw [List.isEmpty_eq_false_iff]
        rintro hnil
        rw [hnil] at hlast
        cases hlast
      rw [hne] at h ⊢
      simp only [Bool.false_eq_true, if_false, hlast, List.flatten_cons] at h ⊢
      rw [hpage]
      exact .more (hpage ▸ hlast) (ih (some last) h)

/-- A reading that nothing stands in the way of comes to the end of the scan. -/
theorem copyWindows_ends
    (hr : r.Quiet) {after : Option Stored} {out : List Stored}
    (hout : Keyset.Pages S.seeks S.sort docCopyWindow (coll.matching filter) after out) (k : Nat) :
    ∃ fuel, (copyWindows r S coll filter fuel (after.map Stored.docId) k).2 = some none := by
  induction hout generalizing k with
  | @done after hnil =>
    refine ⟨1, ?_⟩
    rw [copyWindows, hr.1, hr.2, findSeek_forward S coll filter after (by decide), hnil]
    rfl
  | @more after last rest hlast _ ih =>
    have hne : (Keyset.page S.seeks S.sort docCopyWindow (coll.matching filter) after).isEmpty =
        false := by
      rw [List.isEmpty_eq_false_iff]
      rintro hnil
      rw [hnil] at hlast
      cases hlast
    obtain ⟨fuel, h⟩ := ih (k + 1)
    refine ⟨fuel + 1, ?_⟩
    rw [copyWindows, hr.1, hr.2, findSeek_forward S coll filter after (by decide)]
    simp only [Bool.false_eq_true, if_false, hne, hlast]
    exact h

/-- What a copy has visited and written when it reports success. -/
theorem docCopyLoop_pages
    {t : Target} {run : CopyRun}
    (h : docCopyLoop r m onId S coll filter fuel none 0 ⟨0, none, t, []⟩ = some run)
    (herr : run.error = none) :
    Keyset.Pages S.seeks S.sort docCopyWindow (coll.matching filter) none run.visited ∧
      ∃ chunks : List (List Stored), chunks.flatten = run.visited ∧
        writeChunks m onId (chunks.map documents) 0 t = ((run.written, none), run.target) := by
  obtain ⟨h1, h2, h3, h4⟩ := docCopyLoop_eq S coll filter fuel none 0 rfl h
  have hdone : (writeChunks m onId (copyChunks r S coll filter fuel none 0) 0 t).1.2 = none := by
    cases hd : (writeChunks m onId (copyChunks r S coll filter fuel none 0) 0 t).1.2 with
    | none => rfl
    | some e =>
      rw [h4 e hd] at herr
      cases herr
  obtain ⟨h5, h6⟩ := h3 hdone
  rw [List.nil_append] at h6
  rw [herr] at h5
  refine ⟨?_, _, h6.symm, ?_⟩
  · rw [h6]
    exact copyWindows_pages none h5.symm
  · rw [h1, h2, ← hdone]
    rfl

end Copy

/-! ## What the jobs visit -/

section Visits

variable [Decimals]

/-- The documents that an export or a copy has visited when it reports success. -/
inductive Completes (S : Server κ) (coll : Collection S) (filter : Option DocValue) :
    List Stored → Prop where
  | exported {σ ω : Type} {ops : Sink σ ω} {r : Reading} {begin : Except RedError σ} {fuel : Nat}
      {outcome : ω} {visited : List Stored}
      (h : runDocExport ops r S coll filter begin fuel = some (.ok (outcome, visited))) :
      Completes S coll filter visited
  | copied {r : Reading} {m : Mongo} {mode : DocCopyMode} {drop : Option RedError} {fuel : Nat}
      {t : Target} {run : CopyRun} (h : docCopyJob r m mode drop S coll filter fuel t = some run)
      (herr : run.error = none) : Completes S coll filter run.visited

theorem Completes.pages (h : Completes S coll filter visited) :
    Keyset.Pages S.seeks S.sort 500 (coll.matching filter) none visited := by
  cases h with
  | @exported σ ω ops r begin fuel outcome visited h =>
    cases begin with
    | error e => cases h
    | ok sink =>
      obtain ⟨out, hout, rfl⟩ := exportLoop_pages none h
      exact hout
  | copied h herr => exact (docCopyLoop_pages h herr).1

/-- The scan of a collection of plain ids has visited every document once only where its
bounds are right. -/
theorem Collection.seekable_of_pages (coll : Collection S) (hsize : 0 < size)
    (hplain : ∀ d ∈ coll.matching filter, S.Plain d.id)
    (hpages : Keyset.Pages S.seeks S.sort size (coll.matching filter) none visited)
    (hperm : visited.Perm (coll.matching filter)) : coll.Seekable filter size :=
  (coll.lawful filter hsize).cut_of_pages (fun hd => S.seeks_self (hplain _ hd))
    (fun _ hd _ hcd hde => S.seeks_trans (hplain _ hd) hcd hde) hpages hperm

theorem Collection.pages_of_seekable (coll : Collection S)
    (hsize : 0 < size) (h : coll.Seekable filter size) :
    ∃ out, Keyset.Pages S.seeks S.sort size (coll.matching filter) none out ∧
      out.Perm (coll.matching filter) := by
  obtain ⟨out, hpages, hperm, -⟩ := (coll.lawful filter hsize).pages_of_cut h
  exact ⟨out, hpages, hperm⟩

/-- **Every document once.** When a job reports success it has visited every matching
document once, if every `_id` that ends a window of 500 matches as a bound exactly the
ids behind it, and only then; and such a collection is read to its end. -/
theorem visits_iff (S : Server κ) (coll : Collection S) (filter : Option DocValue) :
    (coll.Seekable filter 500 →
      (∀ visited, Completes S coll filter visited → visited.Perm (coll.matching filter)) ∧
        (∀ (σ ω : Type) (ops : Sink σ ω) (r : Reading) (sink : σ), ops.Sound → r.Quiet →
          ∃ fuel o visited,
            runDocExport ops r S coll filter (.ok sink) fuel = some (.ok (o, visited))) ∧
        ∀ (r : Reading) (m : Mongo) (mode : DocCopyMode) (drop : Option RedError) (t : Target),
          r.Quiet → ∃ fuel run, docCopyJob r m mode drop S coll filter fuel t = some run) ∧
      ((∀ d ∈ coll.matching filter, S.Plain d.id) → ∀ visited, Completes S coll filter visited →
        (visited.Perm (coll.matching filter) ↔ coll.Seekable filter 500)) := by
  have hperm : coll.Seekable filter 500 → ∀ visited, Completes S coll filter visited →
      visited.Perm (coll.matching filter) := by
    intro hseek visited hdone
    obtain ⟨out, hpages, hout⟩ := coll.pages_of_seekable (by decide) hseek
    rw [hdone.pages.unique hpages]
    exact hout
  refine ⟨fun hseek => ⟨hperm hseek, ?_, ?_⟩, fun hplain visited hdone => ⟨?_, ?_⟩⟩
  · intro σ ω ops r sink hops hr
    obtain ⟨out, hpages, -⟩ := coll.pages_of_seekable (show 0 < exportWindow by decide) hseek
    obtain ⟨fuel, o, h⟩ := exportLoop_ends hops hr hpages ⟨sink, 0, 0, []⟩
    exact ⟨fuel, o, _, h⟩
  · intro r m mode drop t hr
    obtain ⟨out, hpages, -⟩ := coll.pages_of_seekable (show 0 < docCopyWindow by decide) hseek
    obtain ⟨fuel, hend⟩ := copyWindows_ends hr hpages 0
    have h : (copyWindows r S coll filter fuel none 0).2 = some none := hend
    obtain ⟨run, hrun⟩ := docCopyLoop_returns m mode.onId S coll filter fuel none 0
      ⟨0, none, prepareTarget m mode drop t, []⟩ (by rw [h]; simp)
    exact ⟨fuel, run, hrun⟩
  · exact coll.seekable_of_pages (by decide) hplain hdone.pages
  · intro hseek
    exact hperm hseek visited hdone

/-! ## What a drop-and-insert copy leaves -/

omit [Decimals] in
theorem prepareTarget_docs (m : Mongo) (drop : Option RedError) (t : Target) :
    (prepareTarget m .dropAndInsert drop t).docs = [] ↔
      t.docs = [] ∨ (drop = none ∧ m.readOnly = false) := by
  unfold prepareTarget dropCollection refuseIfReadOnly
  rw [if_pos rfl]
  cases m.readOnly with
  | true => simp
  | false => cases drop <;> simp

/-- **An exact copy.** A drop-and-insert copy that reports success leaves the matching
documents of the source, and counts them, exactly when the target is empty once the drop
has been tried, every document is one that comes over whole, and the scan sees them all. -/
theorem copies_iff {S : Server κ} {coll : Collection S} {filter : Option DocValue} {r : Reading}
    {m : Mongo} {drop : Option RedError} {fuel : Nat} {t : Target} {run : CopyRun}
    (h : docCopyJob r m .dropAndInsert drop S coll filter fuel t = some run)
    (herr : run.error = none) :
    (run.target.docs.Perm (coll.matching filter) ∧
        run.written = (coll.matching filter).length) ↔
      (t.docs = [] ∨ (drop = none ∧ m.readOnly = false)) ∧
        (∀ d ∈ coll.matching filter, d.Whole) ∧ coll.Seekable filter 500 := by
  obtain ⟨hpages, chunks, hchunks, hdone⟩ := docCopyLoop_pages h herr
  rw [← prepareTarget_docs]
  generalize prepareTarget m .dropAndInsert drop t = t' at hdone ⊢
  have hwrite : writeChunks m false (chunks.map documents) 0 t' =
      ((run.written, none), run.target) := hdone
  have hnone : (writeChunks m false (chunks.map documents) 0 t').1.2 = none := by rw [hwrite]
  have hcount := writeChunks_ok m false _ hnone
  have hdocs := writeChunks_docs m _ hnone
  have hflat : (chunks.map documents).flatten = documents run.visited := by
    rw [← hchunks, documents, List.map_flatten]
    rfl
  rw [hwrite, hflat] at hcount hdocs
  obtain ⟨hwhole, hlen⟩ := keepAll_whole m t'.written run.visited
  have hvisited : run.written = run.visited.length := by
    rw [show run.written = _ from hcount, documents, List.length_map, Nat.zero_add]
  have htarget : run.target.docs = t'.docs ++
      m.keepAll t'.written ((documents run.visited).map insertDocumentToBson) := hdocs
  constructor
  · rintro ⟨hperm, hwritten⟩
    have hempty : t'.docs = [] := by
      have hl := hperm.length_eq
      rw [htarget, List.length_append, hlen] at hl
      exact List.eq_nil_of_length_eq_zero (by omega)
    rw [htarget, hempty, List.nil_append] at hperm
    have hall : ∀ d ∈ coll.matching filter, d.Whole := fun d hd =>
      hwhole d (hperm.mem_iff.mpr hd)
    have hmem : ∀ d ∈ run.visited, d.Whole := fun d hd =>
      hall d ((coll.lawful filter (by decide)).pages_mem hpages hd)
    rw [keepAll_of_whole m _ hmem] at hperm
    exact ⟨hempty, hall, coll.seekable_of_pages (by decide)
      (fun d hd => Or.inr ⟨by rw [(hall d hd).1], by rw [(hall d hd).1]⟩) hpages hperm⟩
  · rintro ⟨hempty, hall, hseek⟩
    obtain ⟨out, hout, hperm⟩ := coll.pages_of_seekable (show 0 < docCopyWindow by decide) hseek
    obtain rfl := hpages.unique hout
    have hmem : ∀ d ∈ run.visited, d.Whole := fun d hd => hall d (hperm.mem_iff.mp hd)
    rw [htarget, hempty, List.nil_append, keepAll_of_whole m _ hmem]
    exact ⟨hperm, hvisited.trans hperm.length_eq⟩

end Visits

/-! ## A collection of mixed ids -/

/-- The order of a server as far as integers go: by bracket, and integers by value. -/
def sampleRank (b : Bson) : Int :=
  (b.bracket : Int) * 2 ^ 70 + match b with
    | .int32 n => n.toInt
    | .int64 n => n.toInt
    | _ => 0

@[grind =] def sampleHolds : BsonDocument → Stored → Bool
  | [], _ => true
  | [("$and", .array [.document p, .document q])], d => sampleHolds p d && sampleHolds q d
  | [("_id", .document [("$gt", v)])], d =>
    true && d.id.bracket == v.bracket && decide (sampleRank v < sampleRank d.id)
  | _, _ => false

def sampleServer : Server Int where
  rank := sampleRank
  ordered _ := true
  holds := sampleHolds
  sort docs := docs.mergeSort fun d e => decide (sampleRank d.id ≤ sampleRank e.id)
  holds_empty d := by rw [sampleHolds]
  holds_and p q d := by rw [sampleHolds]
  holds_gt v d := by rw [sampleHolds]
  sort_perm docs := List.mergeSort_perm docs _
  sort_sorted docs := by
    have h : (docs.mergeSort fun d e => decide (sampleRank d.id ≤ sampleRank e.id)).Pairwise
        fun d e => decide (sampleRank d.id ≤ sampleRank e.id) = true :=
      List.pairwise_mergeSort (fun a b c hab hbc => by simp only [decide_eq_true_eq] at *; omega)
        (fun a b => by simp only [Bool.or_eq_true, decide_eq_true_eq]; omega) docs
    simpa only [decide_eq_true_eq] using h

/-- Decimals that no sample holds. -/
@[reducible]
def noDecimals : Decimals where
  parse _ := none
  print _ := ""
  parse_print h := by cases h

/-- A document of nothing but an integer `_id`. -/
def intDoc (n : Nat) : Stored := ⟨.int32 (Int32.ofNat n), [], by simp⟩

/-- A document of nothing but a text for an `_id`. -/
def textDoc : Stored := ⟨.string "a", [], by simp⟩

theorem sampleRank_intDoc {n : Nat} (h : n < 500) : sampleRank (intDoc n).id = 3 * 2 ^ 70 + n := by
  show (3 : Int) * 2 ^ 70 + (Int32.ofNat n).toInt = _
  rw [Int32.toInt_ofNat_of_lt (by omega)]

theorem sampleRank_textDoc : sampleRank textDoc.id = 4 * 2 ^ 70 := by
  show (4 : Int) * 2 ^ 70 + 0 = _
  omega

/-- 500 integer ids and a text. -/
def mixedDocs : List Stored := (List.range 500).map intDoc ++ [textDoc]

theorem mixedDocs_sorted : mixedDocs.Pairwise fun d e => sampleRank d.id < sampleRank e.id := by
  rw [mixedDocs, List.pairwise_append]
  refine ⟨?_, List.pairwise_singleton _ _, ?_⟩
  · rw [List.pairwise_map]
    refine List.pairwise_lt_range.imp_of_mem fun {m n} hm hn hlt => ?_
    rw [sampleRank_intDoc (List.mem_range.mp hm), sampleRank_intDoc (List.mem_range.mp hn)]
    omega
  · intro d hd e he
    obtain ⟨n, hn, rfl⟩ := List.mem_map.mp hd
    have hn := List.mem_range.mp hn
    obtain rfl := List.mem_singleton.mp he
    rw [sampleRank_intDoc hn, sampleRank_textDoc]
    omega

def mixedCollection : Collection sampleServer where
  docs := mixedDocs
  unique := by
    rw [List.Nodup, List.pairwise_map]
    exact mixedDocs_sorted.imp fun h => ne_of_lt h

theorem mixed_sort (p : Stored → Bool) :
    sampleServer.sort (mixedDocs.filter p) = mixedDocs.filter p := by
  refine List.mergeSort_of_pairwise ?_
  refine (mixedDocs_sorted.sublist List.filter_sublist).imp fun h => ?_
  exact decide_eq_true h.le

section Mixed

local instance : Decimals := noDecimals

theorem mixed_matching : mixedCollection.matching none = mixedDocs.filter fun _ => true := by
  show mixedDocs.filter (sampleHolds []) = _
  refine List.filter_congr fun d _ => ?_
  rw [sampleHolds]

/-- The scan ends behind the last integer: the bound made of it lets no text through. -/
theorem mixed_pages :
    Keyset.Pages sampleServer.seeks sampleServer.sort 500 (mixedCollection.matching none) none
      ((List.range 500).map intDoc) := by
  have hfirst : Keyset.page sampleServer.seeks sampleServer.sort 500
      (mixedCollection.matching none) none = (List.range 500).map intDoc := by
    rw [mixed_matching, Keyset.page, mixed_sort, List.filter_true, mixedDocs]
    rw [List.take_append_of_le_length (by simp), List.take_of_length_le (by simp)]
  have hsecond : Keyset.page sampleServer.seeks sampleServer.sort 500
      (mixedCollection.matching none) (some (intDoc 499)) = [] := by
    have hnone : (mixedCollection.matching none).filter (sampleServer.seeks (intDoc 499)) = [] := by
      rw [List.filter_eq_nil_iff]
      intro e he
      rw [Server.seeks_eq]
      have he := List.mem_of_mem_filter (mixed_matching ▸ he)
      rcases List.mem_append.mp he with he | he
      · obtain ⟨n, hn, rfl⟩ := List.mem_map.mp he
        have hn := List.mem_range.mp hn
        have hrank : ¬ sampleRank (intDoc 499).id < sampleRank (intDoc n).id := by
          rw [sampleRank_intDoc hn, sampleRank_intDoc (by omega)]
          omega
        have hfalse : decide (sampleServer.rank (recode (intDoc 499).id) <
            sampleServer.rank (intDoc n).id) = false := decide_eq_false hrank
        rw [hfalse, Bool.and_false]
        exact Bool.false_ne_true
      · obtain rfl := List.mem_singleton.mp he
        exact Bool.false_ne_true
    rw [Keyset.page, hnone, (sampleServer.sort_perm []).eq_nil, List.take_nil]
  have hlast : ((List.range 500).map intDoc).getLast? = some (intDoc 499) := by
    rw [List.getLast?_map, List.getLast?_range]
    rfl
  have hpages := Keyset.Pages.more (hfirst ▸ hlast) (.done hsecond)
  rwa [hfirst, List.append_nil] at hpages

/-- No `$gt` leads from the integers to the text. -/
theorem mixed_not_seekable : ¬ mixedCollection.Seekable none 500 := by
  have hids : ∀ d ∈ mixedCollection.matching none,
      recode d.id = d.id ∧ sampleServer.ordered d.id = true := by
    intro d hd
    rw [mixed_matching, List.filter_true, mixedDocs, List.mem_append, List.mem_singleton] at hd
    rcases hd with hd | rfl
    · obtain ⟨n, -, rfl⟩ := List.mem_map.mp hd
      exact ⟨rfl, rfl⟩
    · exact ⟨rfl, rfl⟩
  intro h
  have hone := (seekable_iff mixedCollection none (by decide) hids).mp h (intDoc 499) textDoc
  rw [mixed_matching, mixed_sort, List.filter_true, mixedDocs] at hone
  have hbracket : textDoc.id.bracket = (intDoc 499).id.bracket := hone (by simp) (by simp)
  exact absurd hbracket (by decide)

/-- A sink that takes everything. -/
def takeAll : Sink Unit Unit := ⟨fun _ _ => .ok (), fun _ => .ok ()⟩

/-- The export of the mixed collection reports success without the text's document. -/
theorem visits_misses : ¬ ∀ visited, Completes sampleServer mixedCollection none visited →
    visited.Perm (mixedCollection.matching none) := by
  intro h
  have hops : takeAll.Sound := ⟨fun _ _ => ⟨(), rfl⟩, fun _ => ⟨(), rfl⟩⟩
  have hr : Reading.Quiet ⟨fun _ => false, fun _ => none⟩ := ⟨fun _ => rfl, fun _ => rfl⟩
  obtain ⟨fuel, o, hloop⟩ := exportLoop_ends hops hr mixed_pages ⟨(), 0, 0, []⟩
  have hrun : runDocExport takeAll ⟨fun _ => false, fun _ => none⟩ sampleServer mixedCollection none
      (.ok ()) fuel = some (.ok (o, [] ++ (List.range 500).map intDoc)) := hloop
  have hperm := h _ (Completes.exported hrun)
  have := hperm.length_eq
  rw [mixed_matching, List.filter_true, mixedDocs, List.length_append] at this
  simp at this

def emptyCollection : Collection sampleServer := ⟨[], List.nodup_nil⟩

/-- A server that takes every write. -/
def takesWrites : Mongo := ⟨false, fun _ => none, fun _ => Vector.replicate 12 0, fun _ _ => false⟩

/-- The first window of an empty collection. -/
theorem empty_window : findSeek sampleServer emptyCollection.docs none (.forward none)
    docCopyWindow = [] := by
  have h := findSeek_forward sampleServer emptyCollection none none (show 0 < docCopyWindow by decide)
  refine h.trans ?_
  show (sampleServer.sort []).take docCopyWindow = []
  rw [(sampleServer.sort_perm []).eq_nil, List.take_nil]

/-- The drop is refused, the copy of an empty collection reports success, and the target
holds what it held. -/
theorem copy_keepsOld : ∃ run, docCopyJob ⟨fun _ => false, fun _ => none⟩ takesWrites .dropAndInsert
    (some (.query "not authorized to drop")) sampleServer emptyCollection none 1
      ⟨[textDoc], 0, 0⟩ = some run ∧ run.error = none ∧ run.written = 0 ∧
    run.target.docs = [textDoc] ∧ emptyCollection.matching none = [] := by
  refine ⟨⟨0, none, ⟨[textDoc], 0, 0⟩, []⟩, ?_, rfl, rfl, rfl, rfl⟩
  show docCopyLoop _ _ _ _ _ _ 1 none 0 ⟨0, none, ⟨[textDoc], 0, 0⟩, []⟩ = _
  rw [docCopyLoop, empty_window]
  rfl

/-- Where the drop is done the same copy empties the target. -/
theorem copy_empties : ∃ run, docCopyJob ⟨fun _ => false, fun _ => none⟩ takesWrites .dropAndInsert
    none sampleServer emptyCollection none 1 ⟨[textDoc], 0, 0⟩ = some run ∧
    run.target.docs.Perm (emptyCollection.matching none) ∧
    run.written = (emptyCollection.matching none).length := by
  have hrun : docCopyJob ⟨fun _ => false, fun _ => none⟩ takesWrites .dropAndInsert none
      sampleServer emptyCollection none 1 ⟨[textDoc], 0, 0⟩ =
        some ⟨0, none, ⟨[], 0, 0⟩, []⟩ := by
    show docCopyLoop _ _ _ _ _ _ 1 none 0 ⟨0, none, ⟨[], 0, 0⟩, []⟩ = _
    rw [docCopyLoop, empty_window]
    rfl
  have hmatching : emptyCollection.matching none = [] := rfl
  have hseek : emptyCollection.Seekable none 500 := by
    intro i d hd
    rw [hmatching, (sampleServer.sort_perm []).eq_nil] at hd
    cases hd
  refine ⟨_, hrun, (copies_iff hrun rfl).mpr ⟨Or.inr ⟨rfl, rfl⟩, ?_, hseek⟩⟩
  rw [hmatching]
  exact fun d hd => (List.not_mem_nil hd).elim

end Mixed

end RedDb.Docs
