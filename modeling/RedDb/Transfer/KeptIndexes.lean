import RedDb.Transfer.Job

/-!
# RedDb — the indexes of a transfer

Behind the last item the indexes of every created table are made anew, but for those taken
for the primary key's own. One is lost without a word when it is taken for that and is not,
has no columns, or keeps a name that the target has already: making it then does nothing.

* `deferIndex_kept` — what one index comes to;
* `deferredIndexes_kept` — no index is lost in a run that never comes to such a one.
-/

namespace RedDb.Transfer

open ByteText RedDb.Driver RedDb.Schema

structure MadeIndex where
  table : TableRef
  name : Bytes
  unique : Bool
  columns : List Bytes
  deriving DecidableEq

/-- The index is the primary key's that the table was created with, column by column. -/
def implementsKey (plan : TransferPlan) (detail : TableDetail) (idx : IndexMeta) : Bool :=
  let keys := (applyShapeOptions detail.columns plan.options.primaryKeys).filter ColumnMeta.primaryKey
  idx.unique && !keys.isEmpty && idx.columns.map asciiLower == keys.map fun c => asciiLower c.name

def renamesTold : Bytes := ascii "indexes renamed to stay unique in this namespace: "

def renameLabel (plan : TransferPlan) (item : TransferItem) (name : Bytes) : Bytes :=
  name ++ ascii " -> " ++ indexNameFor plan item name

/-- A warning of an index: the target refused it, or it got another name. -/
def Warns (plan : TransferPlan) (item : TransferItem) (name warning : Bytes) : Prop :=
  (∃ text, warning = indexLabel (indexNameFor plan item name) ++ ascii ": " ++ text) ∨
    ∃ renames, warning = renamesTold ++ commaJoined renames ∧ renameLabel plan item name ∈ renames

def Warned (plan : TransferPlan) (item : TransferItem) (name : Bytes) (summary : TransferSummary) : Prop :=
  ∃ r ∈ summary.items, r.table = item.targetName ∧ ∃ w ∈ r.warnings, Warns plan item name w

section Warnings

variable {plan : TransferPlan} {item : TransferItem} {name table warning : Bytes} {summary : TransferSummary}

theorem noteReport_tables (reports : List ItemReport) :
    (noteReport table warning reports).map ItemReport.table = reports.map ItemReport.table := by
  induction reports with
  | nil => rfl
  | cons r reports ih =>
    rw [noteReport]
    split
    · rfl
    · rw [List.map_cons, List.map_cons, ih]

theorem noteReport_keeps {reports : List ItemReport} {r : ItemReport} (hr : r ∈ reports) :
    ∃ r' ∈ noteReport table warning reports, r'.table = r.table ∧ r.warnings ⊆ r'.warnings := by
  induction reports with
  | nil => cases hr
  | cons first reports ih =>
    rw [noteReport]
    rcases List.mem_cons.mp hr with rfl | hr
    · split
      · exact ⟨_, List.mem_cons_self, rfl, List.subset_append_left ..⟩
      · exact ⟨_, List.mem_cons_self, rfl, List.Subset.refl _⟩
    · split
      · exact ⟨r, List.mem_cons_of_mem _ hr, rfl, List.Subset.refl _⟩
      · obtain ⟨r', hr', hkept⟩ := ih hr
        exact ⟨r', List.mem_cons_of_mem _ hr', hkept⟩

theorem noteReport_warns {reports : List ItemReport} (h : table ∈ reports.map ItemReport.table) :
    ∃ r ∈ noteReport table warning reports, r.table = table ∧ warning ∈ r.warnings := by
  induction reports with
  | nil => cases h
  | cons first reports ih =>
    rw [noteReport]
    split
    · rename_i heq
      exact ⟨_, List.mem_cons_self, heq, List.mem_append_right _ (List.mem_singleton.mpr rfl)⟩
    · rename_i hne
      obtain ⟨r, hr, hwarns⟩ := ih ((List.mem_cons.mp h).resolve_left fun heq => hne heq.symm)
      exact ⟨r, List.mem_cons_of_mem _ hr, hwarns⟩

theorem Warned.note (h : Warned plan item name summary) : Warned plan item name (note summary table warning) := by
  obtain ⟨r, hr, htable, w, hw, hwarns⟩ := h
  obtain ⟨r', hr', hsame, hkept⟩ := noteReport_keeps hr
  exact ⟨r', hr', hsame.trans htable, w, hkept hw, hwarns⟩

theorem warned_note (h : item.targetName ∈ summary.items.map ItemReport.table) (hwarns : Warns plan item name warning) :
    Warned plan item name (note summary item.targetName warning) := by
  obtain ⟨r, hr, htable, hw⟩ := noteReport_warns h
  exact ⟨r, hr, htable, warning, hw, hwarns⟩

end Warnings

section Run

variable {σ : Type} (job : TransferJob σ) (made : σ → List MadeIndex) (taken : σ → TableRef → Bytes → Bool)

/-- What the target's state shows of its indexes: a refused one leaves them, one whose name is taken
as well, another one comes to them. The job is not cancelled. -/
structure Shown : Prop where
  refuses : ∀ {s table name unique columns e s'},
    job.servers.createIndex s table name unique columns = (some e, s') → made s' = made s
  makes : ∀ {s table name unique columns s'},
    job.servers.createIndex s table name unique columns = (none, s') →
      made s' = if taken s table name then made s else made s ++ [⟨table, name, unique, columns⟩]
  live : ∀ s, (job.servers.cancelled s).1 = false ∧ made (job.servers.cancelled s).2 = made s

/-- The index is the key's own, stands on the target, or is named by a warning. -/
def KeptIndex (c : CreatedTable) (idx : IndexMeta) (d : Deferred σ) : Prop :=
  implementsKey job.plan c.detail idx = true ∨
    (⟨job.plan.targetRef c.item, indexNameFor job.plan c.item idx.name, idx.unique, idx.columns⟩ : MadeIndex) ∈
      made d.state ∨
    Warned job.plan c.item idx.name d.summary

/-- The pass goes about an index and gives it another name, or finds its name free, or is refused. -/
def Makes (c : CreatedTable) (idx : IndexMeta) (d : Deferred σ) : Prop :=
  deferred c.detail idx = true ∧ (indexNameFor job.plan c.item idx.name ≠ idx.name ∨
    taken d.state (job.plan.targetRef c.item) (indexNameFor job.plan c.item idx.name) = false ∨
    (job.servers.createIndex d.state (job.plan.targetRef c.item) (indexNameFor job.plan c.item idx.name) idx.unique
      idx.columns).1 ≠ none)

def MeetsOf (c : CreatedTable) : List IndexMeta → Deferred σ → Prop
  | [], _ => True
  | idx :: rest, d => (KeptIndex job made c idx d ∨ Makes job taken c idx d) ∧ MeetsOf c rest (deferIndex job c d idx)

/-- Every index, as the pass comes to it, is kept already or is one it makes. -/
def Meets : List CreatedTable → Deferred σ → Prop
  | [], _ => True
  | c :: created, d =>
    let d := { d with state := (job.servers.cancelled d.state).2 }
    MeetsOf job made taken c c.detail.indexes d ∧ Meets created (deferIndexesOf job c d)

def Told (created : List CreatedTable) (d : Deferred σ) : Prop :=
  ∀ c ∈ created, c.item.targetName ∈ d.summary.items.map ItemReport.table

variable {job made taken}

/-- What a step leaves of the run before it: the indexes made, the warnings and whom they are told of. -/
structure Grows (job : TransferJob σ) (made : σ → List MadeIndex) (d d' : Deferred σ) : Prop where
  made : made d.state ⊆ made d'.state
  named : ∀ {item name}, Warned job.plan item name d.summary → Warned job.plan item name d'.summary
  tables : d'.summary.items.map ItemReport.table = d.summary.items.map ItemReport.table

theorem Grows.refl (d : Deferred σ) : Grows job made d d := ⟨List.Subset.refl _, id, rfl⟩

theorem Grows.trans {d d' d'' : Deferred σ} (h : Grows job made d d') (h' : Grows job made d' d'') :
    Grows job made d d'' :=
  ⟨List.Subset.trans h.made h'.made, h'.named ∘ h.named, h'.tables.trans h.tables⟩

theorem Grows.note (d : Deferred σ) (lost : List Loss) (table warning : Bytes) :
    Grows job made d ⟨note d.summary table warning, lost, d.state⟩ :=
  ⟨List.Subset.refl _, Warned.note, noteReport_tables _⟩

theorem KeptIndex.grows {c : CreatedTable} {idx : IndexMeta} {d d' : Deferred σ} (h : KeptIndex job made c idx d)
    (hgrows : Grows job made d d') : KeptIndex job made c idx d' :=
  h.imp_right (.imp (fun hmade => hgrows.made hmade) hgrows.named)

theorem deferIndex_grows (h : Shown job made taken) (c : CreatedTable) (d : Deferred σ) (idx : IndexMeta) :
    Grows job made d (deferIndex job c d idx) := by
  unfold deferIndex
  split
  · dsimp only
    split <;> rename_i s hcreate
    · refine ⟨?_, id, rfl⟩
      rw [h.makes hcreate]
      split
      · exact List.Subset.refl _
      · exact List.subset_append_left ..
    · exact ⟨(h.refuses hcreate).symm ▸ List.Subset.refl _, Warned.note, noteReport_tables _⟩
  · split <;> exact ⟨List.Subset.refl _, id, rfl⟩

/-- One index the pass does not make leaves everything as it was. -/
theorem deferIndex_idle (h : Shown job made taken) {c : CreatedTable} {d : Deferred σ} {idx : IndexMeta}
    (hmakes : ¬ Makes job taken c idx d) :
    made (deferIndex job c d idx).state = made d.state ∧ (deferIndex job c d idx).summary = d.summary := by
  unfold deferIndex
  split
  · rename_i hdeferred
    dsimp only
    split <;> rename_i s hcreate
    · rw [h.makes hcreate, if_pos]
      · exact ⟨rfl, rfl⟩
      · exact Bool.not_eq_false _ ▸ fun hfree => hmakes ⟨hdeferred, .inr (.inl hfree)⟩
    · exact absurd ⟨hdeferred, .inr (.inr (by rw [hcreate]; exact Option.some_ne_none _))⟩ hmakes
  · split <;> exact ⟨rfl, rfl⟩

theorem deferIndex_kept (h : Shown job made taken) {c : CreatedTable} {d : Deferred σ} {idx : IndexMeta}
    (htold : c.item.targetName ∈ d.summary.items.map ItemReport.table) :
    KeptIndex job made c idx (deferIndex job c d idx) ∨
        (deferred c.detail idx = true ∧ indexNameFor job.plan c.item idx.name ≠ idx.name) ↔
      KeptIndex job made c idx d ∨ Makes job taken c idx d := by
  constructor
  · rintro (hkept | ⟨hdeferred, hrenamed⟩)
    · refine or_iff_not_imp_right.mpr fun hmakes => ?_
      obtain ⟨hmade, hsummary⟩ := deferIndex_idle h hmakes
      rwa [KeptIndex, hmade, hsummary] at hkept
    · exact .inr ⟨hdeferred, .inl hrenamed⟩
  · rintro (hkept | ⟨hdeferred, hrenamed | hmakes⟩)
    · exact .inl (hkept.grows (deferIndex_grows h c d idx))
    · exact .inr ⟨hdeferred, hrenamed⟩
    · refine .inl (.inr ?_)
      rw [deferIndex, if_pos hdeferred]
      dsimp only
      split <;> rename_i s hcreate
      · have hfree := hmakes.resolve_right fun hrefused => hrefused (by rw [hcreate])
        rw [h.makes hcreate, hfree]
        exact .inl (List.mem_append_right _ (List.mem_singleton.mpr rfl))
      · exact .inr (warned_note htold (.inl ⟨_, rfl⟩))

theorem indexes_kept (h : Shown job made taken) (c : CreatedTable) (indexes : List IndexMeta) (d : Deferred σ)
    (htold : c.item.targetName ∈ d.summary.items.map ItemReport.table) :
    Grows job made d (indexes.foldl (deferIndex job c) d) ∧ (MeetsOf job made taken c indexes d → ∀ idx ∈ indexes,
      KeptIndex job made c idx (indexes.foldl (deferIndex job c) d) ∨
        (deferred c.detail idx = true ∧ indexNameFor job.plan c.item idx.name ≠ idx.name)) := by
  induction indexes generalizing d with
  | nil => exact ⟨.refl d, fun _ _ hidx => by cases hidx⟩
  | cons first rest ih =>
    have hstep := deferIndex_grows h c d first
    obtain ⟨hgrows, hrest⟩ := ih (deferIndex job c d first) (hstep.tables.symm ▸ htold)
    refine ⟨hstep.trans hgrows, fun hmeets idx hidx => ?_⟩
    rcases List.mem_cons.mp hidx with rfl | hidx
    · exact ((deferIndex_kept h htold).mpr hmeets.1).imp_left fun hkept => hkept.grows hgrows
    · exact hrest hmeets.2 idx hidx

theorem deferIndexesOf_kept (h : Shown job made taken) (c : CreatedTable) (d : Deferred σ)
    (htold : c.item.targetName ∈ d.summary.items.map ItemReport.table) :
    Grows job made d (deferIndexesOf job c d) ∧ (MeetsOf job made taken c c.detail.indexes d →
      ∀ idx ∈ c.detail.indexes, KeptIndex job made c idx (deferIndexesOf job c d)) := by
  obtain ⟨hgrows, hkept⟩ := indexes_kept h c c.detail.indexes d htold
  have hrenames {idx} (hidx : idx ∈ c.detail.indexes) (hdeferred : deferred c.detail idx = true)
      (hrenamed : indexNameFor job.plan c.item idx.name ≠ idx.name) :
      renameLabel job.plan c.item idx.name ∈ indexRenames job.plan c :=
    List.mem_map_of_mem (List.mem_filter.mpr ⟨List.mem_filter.mpr ⟨hidx, hdeferred⟩, bne_iff_ne.mpr hrenamed⟩)
  unfold deferIndexesOf
  dsimp only
  split
  · rename_i hnone
    refine ⟨hgrows, fun hmeets idx hidx => (hkept hmeets idx hidx).resolve_right fun ⟨hdeferred, hrenamed⟩ => ?_⟩
    have hlabel := hrenames hidx hdeferred hrenamed
    rw [List.isEmpty_iff.mp hnone] at hlabel
    cases hlabel
  · have hnote : Grows job made _ _ := Grows.note (c.detail.indexes.foldl (deferIndex job c) d)
      (c.detail.indexes.foldl (deferIndex job c) d).lost c.item.targetName
      (renamesTold ++ commaJoined (indexRenames job.plan c))
    refine ⟨hgrows.trans hnote, fun hmeets idx hidx => ?_⟩
    rcases hkept hmeets idx hidx with hidx | ⟨hdeferred, hrenamed⟩
    · exact hidx.grows hnote
    · refine .inr (.inr (warned_note (hgrows.tables.symm ▸ htold) (.inr ⟨_, rfl, hrenames hidx hdeferred hrenamed⟩)))

theorem deferredIndexes_kept (h : Shown job made taken) (created : List CreatedTable) (d : Deferred σ)
    (htold : Told created d) :
    Grows job made d (deferredIndexes job created d) ∧ (Meets job made taken created d →
      ∀ c ∈ created, ∀ idx ∈ c.detail.indexes, KeptIndex job made c idx (deferredIndexes job created d)) := by
  induction created generalizing d with
  | nil => exact ⟨.refl d, fun _ _ hc => by cases hc⟩
  | cons first created ih =>
    obtain ⟨hlive, hsame⟩ := h.live d.state
    rw [deferredIndexes]
    cases hcancelled : job.servers.cancelled d.state with
    | mk stop s =>
      rw [hcancelled] at hlive hsame
      obtain rfl : stop = false := hlive
      dsimp only
      have hstate : Grows job made d { d with state := s } :=
        ⟨(show made s = made d.state from hsame) ▸ List.Subset.refl _, id, rfl⟩
      obtain ⟨hgrows, hkept⟩ := deferIndexesOf_kept h first { d with state := s } (htold _ List.mem_cons_self)
      obtain ⟨hrest, hothers⟩ := ih (deferIndexesOf job first { d with state := s })
        fun c hc => hgrows.tables.symm ▸ htold c (List.mem_cons_of_mem _ hc)
      refine ⟨(hstate.trans hgrows).trans hrest, fun hmeets c hc idx hidx => ?_⟩
      rw [Meets, hcancelled] at hmeets
      rcases List.mem_cons.mp hc with rfl | hc
      · exact (hkept hmeets.1 idx hidx).grows hrest
      · exact hothers hmeets.2 c hc idx hidx

/-- In a run that only comes to indexes which are kept already or which it makes, none is lost without a
word; any other index it comes to is passed over, with nothing made and nothing told. -/
theorem indexes_survive (h : Shown job made taken) (created : List CreatedTable) (d : Deferred σ)
    (htold : Told created d) : (Meets job made taken created d →
        ∀ c ∈ created, ∀ idx ∈ c.detail.indexes, KeptIndex job made c idx (deferredIndexes job created d)) ∧
      ∀ (c : CreatedTable) (idx : IndexMeta) (d : Deferred σ), Told [c] d →
        (KeptIndex job made c idx (deferIndex job c d idx) ∨
            (deferred c.detail idx = true ∧ indexNameFor job.plan c.item idx.name ≠ idx.name) ↔
          KeptIndex job made c idx d ∨ Makes job taken c idx d) :=
  ⟨(deferredIndexes_kept h created d htold).2, fun _ _ _ htold => deferIndex_kept h (htold _ List.mem_cons_self)⟩

end Run

/-- An index name is used once in the database; making it again does nothing. -/
def nameTaken (indexes : List MadeIndex) (_ : TableRef) (name : Bytes) : Bool := indexes.any fun i => i.name == name

def indexingServers : Servers (List MadeIndex) where
  srcKind := .postgres
  dstKind := .sqlite
  foreignKeys _ := .ok []
  describeSource _ _ _ := .ok peopleDetail
  openCursor _ _ := .error .interrupted
  describeTarget _ _ _ := .ok peopleDetail
  dropTable s _ := (none, s)
  createTable s _ _ := (none, s)
  clearTable s _ := (none, s)
  insertRows s _ _ rows := (.ok rows.length, s)
  createIndex s table name unique columns :=
    (none, if nameTaken s table name then s else s ++ [⟨table, name, unique, columns⟩])
  addForeignKey s _ _ _ _ := (none, s)
  cancelled s := (false, s)

def indexingJob : TransferJob (List MadeIndex) :=
  ⟨indexingServers, ⟨some (ascii "public"), none, [], ⟨true, true, true, .stop, false⟩⟩, fun _ => none⟩

theorem indexing_shown : Shown indexingJob id nameTaken :=
  ⟨fun h => (by cases h), fun h => (Prod.mk.inj h).2.symm, fun _ => ⟨rfl, rfl⟩⟩

/-- The table `people` with its index `by_a`, as it was created. -/
def createdPeople : CreatedTable := ⟨0, peopleItem .create, peopleDetail⟩

def peopleReported (indexes : List MadeIndex) : Deferred (List MadeIndex) :=
  ⟨⟨[⟨ascii "people", .created, 0, []⟩], 0⟩, [], indexes⟩

theorem people_told (indexes : List MadeIndex) : Told [createdPeople] (peopleReported indexes) := by
  intro c hc
  rw [List.mem_singleton.mp hc]
  exact List.mem_singleton.mpr rfl

theorem indexes_survive_people :
    KeptIndex indexingJob id createdPeople ⟨ascii "by_a", false, [ascii "a"]⟩
      (deferredIndexes indexingJob [createdPeople] (peopleReported [])) :=
  (indexes_survive indexing_shown [createdPeople] (peopleReported []) (people_told [])).1
    ⟨⟨.inr ⟨by decide, .inr (.inl (by decide))⟩, trivial⟩, trivial⟩
    _ List.mem_cons_self _ List.mem_cons_self

/-- Where another table has an index `by_a`, `people` gets none, and nothing is told. -/
theorem taken_name_lost :
    (deferredIndexes indexingJob [createdPeople] (peopleReported [⟨⟨none, ascii "pets"⟩, ascii "by_a", false, []⟩])).state =
        [⟨⟨none, ascii "pets"⟩, ascii "by_a", false, []⟩] ∧
      ¬ KeptIndex indexingJob id createdPeople ⟨ascii "by_a", false, [ascii "a"]⟩
        (deferredIndexes indexingJob [createdPeople]
          (peopleReported [⟨⟨none, ascii "pets"⟩, ascii "by_a", false, []⟩])) := by
  have hrun : deferredIndexes indexingJob [createdPeople]
      (peopleReported [⟨⟨none, ascii "pets"⟩, ascii "by_a", false, []⟩]) =
        peopleReported [⟨⟨none, ascii "pets"⟩, ascii "by_a", false, []⟩] := by rfl
  rw [hrun]
  refine ⟨rfl, ?_⟩
  rintro (hkey | hmade | ⟨r, hr, -, w, hw, -⟩)
  · exact absurd hkey (by decide)
  · exact absurd hmade (by decide)
  · rw [List.mem_singleton.mp hr] at hw
    cases hw

end RedDb.Transfer
