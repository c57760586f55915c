import RedDb.Config.QueryHeader

/-!
# RedDb — saves that are faithful

A save is faithful if what is loaded from its file is what was saved, for the engine that
executes a SQL text or the library that reads a JSON one, and if the file was not another
query's.

* `loaded_sql`, `loaded_doc`  — when the entry is what was saved;
* `saves_iff` — exactly when a save is faithful;
* `customers_overwritten` — two names with one slug.
-/

namespace RedDb.Config.Queries

open TextCodec JsonText Delimited
open RedDb.Transfer (isWhite number_white)

/-! ## Faithful saves -/

/-- What a SQL text says to an engine, as far as comments in front of it go. Every engine ends a
line comment at a line feed, some at a carriage return too. -/
structure Engine (σ : Type) where
  executes : Text → List σ
  endsAtReturn : Bool
  remark : ∀ t rest, '\n' ∉ t → (endsAtReturn = true → '\r' ∉ t) →
    executes ("-- ".toList ++ t ++ '\n' :: rest) = executes rest
  blankLine : ∀ rest, executes ('\n' :: rest) = executes rest

/-- The character ends a line comment. -/
def Engine.EndsComment {σ : Type} (E : Engine σ) (c : Char) : Prop :=
  c = '\n' ∨ E.endsAtReturn = true ∧ c = '\r'

section Spec

variable {σ : Type} (E : Engine σ) (L : Libraries)

/-- The entry is what was saved. -/
structure Loaded (s : Save) (q : SavedQuery) : Prop where
  path : q.path = s.fileName
  name : q.name = trim s.name
  description : q.description = filled s.description
  tags : ∀ o, s.opened = some o → q.tags = o.tags
  header : s.kind = .sql → ∀ line ∈ headerLines q.sql, ∀ c ∈ line, ¬E.EndsComment c
  statements : s.kind = .sql → E.executes q.sql = E.executes s.text
  ns : s.kind = .doc → q.ns = filled s.ns
  json : s.kind = .doc → ∀ v, L.fromStr s.text = some v → L.fromStr q.sql = some v

/-- What is saved is loaded again, and the file of no query of another name was overwritten. -/
def Faithful (pid : Text) (dir : Dir) (s : Save) : Prop :=
  ∀ dir', save L pid dir s = some dir' →
    (∃ q ∈ load L dir', Loaded E L s q) ∧
      ∀ q ∈ load L dir, q.path = s.fileName → q.name = trim s.name

/-- The name is not blank, the header's texts stay in their comments, the text says the same
without what is rewritten of it, no tags are to be kept, and the file is not another query's. -/
structure Sound (dir : Dir) (s : Save) : Prop where
  named : trim s.name ≠ []
  quietName : s.kind = .sql → ∀ c ∈ trim s.name, ¬E.EndsComment c
  quietDescription : s.kind = .sql → ∀ d ∈ filled s.description, ∀ c ∈ d, ¬E.EndsComment c
  rewritten : s.kind = .sql → E.executes (body s.text) = E.executes s.text
  numbers : s.kind = .doc → ∀ v, L.fromStr s.text = some v → L.kept (L.kept v) = v
  untagged : ∀ o, s.opened = some o → o.tags = []
  alone : ∀ q ∈ load L dir, q.path = s.fileName → q.name = trim s.name

/-- The query is written at all. -/
def Accepted (s : Save) : Prop := s.kind = .doc → (L.fromStr (trim s.text)).isSome

end Spec

/-! ## Files -/

section Files

variable {L : Libraries} {pid : Text} {dir : Dir} {s : Save} {q : SavedQuery} {f : File} {contents : Text}

theorem mem_load : q ∈ load L dir ↔ ∃ f ∈ dir, loadFile L f = some q := by
  unfold load
  rw [List.mem_mergeSort, List.mem_filterMap]

theorem loadFile_path (h : loadFile L f = some q) : q.path = f.name := by
  unfold loadFile at h
  dsimp only at h
  split at h
  · cases h
  obtain ⟨contents, -, h⟩ := Option.bind_eq_some_iff.mp h
  split at h
  · obtain ⟨value, -, h⟩ := Option.bind_eq_some_iff.mp h
    obtain ⟨obj, -, h⟩ := Option.bind_eq_some_iff.mp h
    obtain ⟨query, -, rfl⟩ := Option.map_eq_some_iff.mp h
    rfl
  · cases h
    rfl

/-- The file that is written is the only one of its name. -/
theorem mem_written {fileName : Text} :
    f ∈ writeQueryFile pid dir fileName contents ∧ f.name = fileName ↔ f = ⟨fileName, some contents⟩ := by
  unfold writeQueryFile Dir.put
  dsimp only
  rw [List.mem_append, List.mem_filter, List.mem_singleton]
  constructor
  · rintro ⟨⟨-, hne⟩ | rfl, hname⟩
    · exact absurd hname (by simpa using hne)
    · rfl
  · rintro rfl
    exact ⟨.inr rfl, rfl⟩

/-- The entry that is loaded of the file just written. -/
theorem exists_loaded {fileName : Text} {P : SavedQuery → Prop} (hpath : ∀ q, P q → q.path = fileName) :
    (∃ q ∈ load L (writeQueryFile pid dir fileName contents), P q) ↔
      ∃ q, loadFile L ⟨fileName, some contents⟩ = some q ∧ P q := by
  constructor
  · rintro ⟨q, hq, hP⟩
    obtain ⟨f, hf, hload⟩ := mem_load.mp hq
    have hname : f.name = fileName := (loadFile_path hload).symm.trans (hpath q hP)
    rw [mem_written.mp ⟨hf, hname⟩] at hload
    exact ⟨q, hload, hP⟩
  · rintro ⟨q, hload, hP⟩
    exact ⟨q, mem_load.mpr ⟨_, (mem_written.mpr rfl).1, hload⟩, hP⟩

theorem dot_slug (name : Text) : '.' ∉ slug name := slug_clear (by decide) (by decide) name

theorem loadFile_sql (name contents : Text) : loadFile L ⟨slug name ++ sqlSuffix, some contents⟩ =
      some (parseSavedQuery (slug name) contents (slug name ++ sqlSuffix)) := by
  have hdoc : ¬docSuffix <:+ slug name ++ sqlSuffix := by
    rintro ⟨t, ht⟩
    have hlast := congrArg List.getLast? ht
    rw [List.getLast?_append_of_ne_nil _ (by decide), List.getLast?_append_of_ne_nil _ (by decide)] at hlast
    exact absurd hlast (by decide)
  have hsplit : splitExtension (slug name ++ sqlSuffix) = (slug name, some "sql".toList) := by
    unfold splitExtension
    rw [show sqlSuffix = '.' :: "sql".toList by decide, rsplitOnce_append (slug name) (by decide)]
    exact if_neg (slug_ne_nil name)
  have hstem : stripSuffix ".mongo".toList (slug name) = none := by
    refine if_neg ?_
    rintro ⟨t, ht⟩
    exact dot_slug name (ht ▸ List.mem_append_right t (by decide))
  unfold loadFile
  dsimp only
  rw [hsplit, decide_eq_false hdoc, hstem]
  rfl

theorem loadFile_doc (name contents : Text) :
    loadFile L ⟨slug name ++ docSuffix, some contents⟩ =
      parseDocQuery L (slug name) contents (slug name ++ docSuffix) := by
  have hsplit : splitExtension (slug name ++ docSuffix) = (slug name ++ ".mongo".toList, some "json".toList) := by
    unfold splitExtension
    rw [show docSuffix = ".mongo".toList ++ '.' :: "json".toList by decide, ← List.append_assoc,
      rsplitOnce_append _ (by decide)]
    exact if_neg (by simp [slug_ne_nil name])
  have hstem : stripSuffix ".mongo".toList (slug name ++ ".mongo".toList) = some (slug name) := by
    unfold stripSuffix
    rw [if_pos (List.suffix_append _ _), List.length_append, Nat.add_sub_cancel, List.take_left]
  unfold loadFile
  dsimp only
  rw [hsplit, decide_eq_true (List.suffix_append (slug name) docSuffix), hstem]
  rfl

end Files

/-! ## SQL queries -/

section Entries

variable {σ : Type} {E : Engine σ} {L : Libraries} {pid : Text} {dir : Dir} {s : Save}

theorem quiet_lineFeed {t : Text} (h : ∀ c ∈ t, ¬E.EndsComment c) : '\n' ∉ t :=
  fun hmem => h _ hmem (.inl rfl)

/-- A line whose text ends no comment says nothing. -/
theorem executes_remark {t : Text} (h : ∀ c ∈ t, ¬E.EndsComment c) (rest : Text) :
    E.executes ("-- ".toList ++ t ++ '\n' :: rest) = E.executes rest :=
  E.remark t rest (quiet_lineFeed h) fun hends hmem => h _ hmem (.inr ⟨hends, rfl⟩)

theorem quiet_append {p t : Text} (hp : ∀ c ∈ p, c ≠ '\n' ∧ c ≠ '\r') (h : ∀ c ∈ t, ¬E.EndsComment c) :
    ∀ c ∈ p ++ t, ¬E.EndsComment c := by
  intro c hc
  rcases List.mem_append.mp hc with hc | hc
  · rintro (rfl | ⟨-, rfl⟩)
    · exact (hp _ hc).1 rfl
    · exact (hp _ hc).2 rfl
  · exact h c hc

theorem executes_contents {name : Text} {description : Option Text} (sql : Text)
    (hname : ∀ c ∈ trim name, ¬E.EndsComment c)
    (hdescription : ∀ d ∈ filled description, ∀ c ∈ d, ¬E.EndsComment c) :
    E.executes (sqlContents name description sql) = E.executes (body sql) := by
  have hrow (rest : Text) : E.executes ("-- name: ".toList ++ trim name ++ '\n' :: rest) = E.executes rest :=
    executes_remark (t := "name: ".toList ++ trim name) (quiet_append (by decide) hname) rest
  rw [sqlContents_rows, hrow]
  cases hd : filled description with
  | none => rw [Option.elim_none, E.blankLine]
  | some d =>
    have hrow' (rest : Text) : E.executes ("-- description: ".toList ++ d ++ '\n' :: rest) = E.executes rest :=
      executes_remark (t := "description: ".toList ++ d) (quiet_append (by decide) (hdescription d hd)) rest
    rw [Option.elim_some, hrow', E.blankLine]

/-- The entry that is loaded from the SQL file of a save. -/
def Save.sqlEntry (s : Save) : SavedQuery :=
  parseSavedQuery (slug s.name) (sqlContents s.name s.description s.text) s.fileName

theorem sqlEntry_eq (hname : '\n' ∉ trim s.name) (hne : trim s.name ≠ [])
    (hdescription : ∀ d ∈ filled s.description, '\n' ∉ d) :
    s.sqlEntry = ⟨trim s.name, filled s.description, [], sqlContents s.name s.description s.text, .sql, none,
      s.fileName⟩ := by
  unfold Save.sqlEntry parseSavedQuery
  rw [readHeader_saved s.text hname hdescription]
  dsimp only
  rw [Option.filter_some, if_pos (by simpa using hne), Option.getD_some]

/-- Whatever was saved, the entry has a name, and its name and description are one line each. -/
theorem sqlEntry_clear (s : Save) :
    s.sqlEntry.name ≠ [] ∧ '\n' ∉ s.sqlEntry.name ∧ ∀ d ∈ s.sqlEntry.description, '\n' ∉ d := by
  obtain ⟨hclear, hclear'⟩ := readHeader_lines_clear (sqlContents s.name s.description s.text)
  have hslug : '\n' ∉ slug s.name := slug_clear (by decide) (by decide) s.name
  unfold Save.sqlEntry parseSavedQuery
  dsimp only
  obtain ⟨hne, hname⟩ := shownName_spec (slug_ne_nil s.name) hslug hclear
  exact ⟨hne, hname, hclear'⟩

theorem loaded_sql (hkind : s.kind = .sql) :
    Loaded E L s s.sqlEntry ↔ trim s.name ≠ [] ∧ (∀ c ∈ trim s.name, ¬E.EndsComment c) ∧
      (∀ d ∈ filled s.description, ∀ c ∈ d, ¬E.EndsComment c) ∧
      E.executes (body s.text) = E.executes s.text ∧ ∀ o, s.opened = some o → o.tags = [] := by
  have hdoc : s.kind ≠ .doc := by rw [hkind]; decide
  constructor
  · intro h
    obtain ⟨hne, hname, hdescription⟩ := sqlEntry_clear s
    rw [h.name] at hne hname
    rw [h.description] at hdescription
    have heq := sqlEntry_eq hname hne hdescription
    have hheader := h.header hkind
    rw [heq, headerLines_saved s.text hname hdescription] at hheader
    have hrows : ∀ line ∈ headerRows s.name s.description, ∀ c ∈ line, ¬E.EndsComment c :=
      fun line hline => hheader line (List.mem_append_left _ hline)
    have hquiet : ∀ c ∈ trim s.name, ¬E.EndsComment c := fun c hc =>
      hrows _ (name_row s.name s.description) c (List.mem_append_right _ hc)
    have hquiet' : ∀ d ∈ filled s.description, ∀ c ∈ d, ¬E.EndsComment c := fun d hd c hc =>
      hrows _ (description_row s.name hd) c (List.mem_append_right _ hc)
    refine ⟨hne, hquiet, hquiet', ?_, fun o ho => ?_⟩
    · have hsays := h.statements hkind
      rw [heq] at hsays
      rw [← executes_contents s.text hquiet hquiet']
      exact hsays
    · have htags := h.tags o ho
      rw [heq] at htags
      exact htags.symm
  · rintro ⟨hne, hquiet, hquiet', hbody, htags⟩
    have hdescription : ∀ d ∈ filled s.description, '\n' ∉ d := fun d hd => quiet_lineFeed (hquiet' d hd)
    have hname := quiet_lineFeed hquiet
    rw [sqlEntry_eq hname hne hdescription]
    refine ⟨rfl, rfl, rfl, fun o ho => (htags o ho).symm, fun _ line hline => ?_, fun _ => ?_,
      fun h => absurd h hdoc, fun h => absurd h hdoc⟩
    · dsimp only at hline
      rw [headerLines_saved s.text hname hdescription] at hline
      rcases List.mem_append.mp hline with hline | hline
      · rcases headerRows_cases hline with rfl | ⟨d, hd, rfl⟩
        · exact quiet_append (by decide) hquiet
        · exact quiet_append (by decide) (hquiet' d hd)
      have hnil : line = [] := by
        rcases List.mem_cons.mp hline with rfl | hline
        · rfl
        · exact headerLines_body s.text hline
      rw [hnil]
      exact fun c hc => absurd hc List.not_mem_nil
    · exact (executes_contents s.text hquiet hquiet').trans hbody

/-! ## Document queries -/

theorem value_wrapper (name : Text) (description ns : Option Text) {parsed : Json} (h : L.Value parsed) :
    ((wrapper name description ns parsed).map Prod.fst).Nodup ∧
      ∀ m ∈ wrapper name description ns parsed, L.Value m.2 := by
  unfold wrapper
  constructor
  · cases filled description <;> cases filled ns <;> simp
  · intro m hm
    simp only [List.mem_append, List.mem_singleton, Option.mem_toList, Option.map_eq_some_iff] at hm
    rcases hm with ((rfl | ⟨d, -, rfl⟩) | ⟨n, -, rfl⟩) | rfl
    · exact L.value_string _
    · exact L.value_string _
    · exact L.value_string _
    · exact h

/-- What is read back of a document file. -/
theorem fromStr_wrapper (name : Text) (description ns : Option Text) {parsed : Json} (h : L.Value parsed) :
    L.fromStr (L.pretty (.object (wrapper name description ns parsed)) ++ ['\n']) =
      some (.object (wrapper name description ns (L.kept parsed))) := by
  obtain ⟨hnodup, hvalues⟩ := value_wrapper name description ns h
  rw [L.fromStr_line (L.value_object hnodup hvalues), L.kept_object hnodup]
  unfold wrapper
  cases filled description <;> cases filled ns <;> simp [L.kept_string]

theorem get_wrapper (name : Text) (description ns : Option Text) (query : Json) :
    (get "name" (wrapper name description ns query)).bind asStr = some (trim name) ∧
      (get "description" (wrapper name description ns query)).bind asStr = filled description ∧
      (get "namespace" (wrapper name description ns query)).bind asStr = filled ns ∧
      get "tags" (wrapper name description ns query) = none ∧
      get "query" (wrapper name description ns query) = some query := by
  unfold wrapper get
  cases filled description <;> cases filled ns <;> simp [asStr]

/-- The entry that is loaded from the document file of a save. -/
def Save.docEntry (L : Libraries) (s : Save) (parsed : Json) : SavedQuery :=
  { name := ((some (trim s.name)).filter fun n => !n.isEmpty).getD (unslug (slug s.name))
    description := filled s.description
    tags := []
    sql := L.pretty (L.kept parsed)
    kind := .doc
    ns := filled s.ns
    path := s.fileName }

theorem filled_filter (t : Option Text) : ((filled t).filter fun d => !d.isEmpty) = filled t := by
  cases h : filled t with
  | none => rfl
  | some d => rw [Option.filter_some, if_pos (by simpa using (filled_spec h).2)]

theorem parseDocQuery_saved {parsed : Json} (h : L.Value parsed) : parseDocQuery L (slug s.name)
        (L.pretty (.object (wrapper s.name s.description s.ns parsed)) ++ ['\n']) s.fileName =
      some (s.docEntry L parsed) := by
  obtain ⟨hname, hdescription, hns, htags, hquery⟩ := get_wrapper s.name s.description s.ns (L.kept parsed)
  unfold parseDocQuery Save.docEntry
  rw [fromStr_wrapper s.name s.description s.ns h]
  dsimp only [Option.bind_some, asObject]
  rw [hquery, Option.map_some, hname, hdescription, hns, htags, filled_filter]
  rfl

theorem loaded_doc (hkind : s.kind = .doc) {parsed : Json} (hparsed : L.fromStr (trim s.text) = some parsed) :
    Loaded E L s (s.docEntry L parsed) ↔ trim s.name ≠ [] ∧
      (∀ v, L.fromStr s.text = some v → L.kept (L.kept v) = v) ∧ ∀ o, s.opened = some o → o.tags = [] := by
  have hsql : s.kind ≠ .sql := by rw [hkind]; decide
  have hread : L.fromStr (L.pretty (L.kept parsed)) = some (L.kept (L.kept parsed)) :=
    L.fromStr_pretty (L.value_kept (L.value_fromStr hparsed))
  have hsame {v : Json} (hv : L.fromStr s.text = some v) : parsed = v :=
    Option.some.inj (hparsed.symm.trans (L.fromStr_trim hv))
  constructor
  · intro h
    refine ⟨fun hnil => ?_, fun v hv => ?_, fun o ho => (h.tags o ho).symm⟩
    · have hname := h.name
      unfold Save.docEntry at hname
      rw [hnil] at hname
      exact unslug_ne_nil (slug_ne_nil s.name) hname
    · have hjson := (h.json hkind v hv).symm.trans hread
      rw [hsame hv] at hjson
      exact (Option.some.inj hjson).symm
  · rintro ⟨hne, hnumbers, htags⟩
    have hname : (s.docEntry L parsed).name = trim s.name := by
      unfold Save.docEntry
      rw [Option.filter_some, if_pos (by simpa using hne), Option.getD_some]
    refine ⟨rfl, hname, rfl, fun o ho => (htags o ho).symm, fun h => absurd h hsql, fun h => absurd h hsql,
      fun _ => rfl, fun _ v hv => ?_⟩
    rw [← hnumbers v hv, ← hsame hv]
    exact hread

/-! ## Any save -/

/-- A save is faithful and overwrites no other query's file just if it is sound, or is refused. -/
theorem saves_iff {σ : Type} (E : Engine σ) (L : Libraries) (pid : Text) (dir : Dir) (s : Save) :
    Faithful E L pid dir s ↔ (Accepted L s → Sound E L dir s) := by
  have hpath : ∀ q, Loaded E L s q → q.path = s.fileName := fun q h => h.path
  unfold Faithful save Accepted
  cases hkind : s.kind with
  | sql =>
    have hdoc : s.kind ≠ .doc := by rw [hkind]; decide
    have hfile : s.fileName = slug s.name ++ sqlSuffix := by unfold Save.fileName; rw [hkind]
    have hload : loadFile L ⟨s.fileName, some (sqlContents s.name s.description s.text)⟩ = some s.sqlEntry := by
      rw [hfile, loadFile_sql, ← hfile]
      rfl
    have hentry : (∃ q ∈ load L (writeQueryFile pid dir s.fileName (sqlContents s.name s.description s.text)),
        Loaded E L s q) ↔ Loaded E L s s.sqlEntry := by
      rw [exists_loaded hpath, hload]
      exact ⟨fun ⟨q, hq, h⟩ => Option.some.inj hq ▸ h, fun h => ⟨_, rfl, h⟩⟩
    constructor
    · intro h _
      obtain ⟨hloaded, halone⟩ := h _ rfl
      obtain ⟨hne, hquiet, hquiet', hbody, htags⟩ := (loaded_sql hkind).mp (hentry.mp hloaded)
      exact ⟨hne, fun _ => hquiet, fun _ => hquiet', fun _ => hbody, fun h => absurd h hdoc, htags, halone⟩
    · rintro h dir' ⟨⟩
      obtain ⟨hne, hquiet, hquiet', hbody, -, htags, halone⟩ := h fun h => absurd h (by decide)
      exact ⟨hentry.mpr ((loaded_sql hkind).mpr ⟨hne, hquiet hkind, hquiet' hkind, hbody hkind, htags⟩), halone⟩
  | doc =>
    have hsql : s.kind ≠ .sql := by rw [hkind]; decide
    have hfile : s.fileName = slug s.name ++ docSuffix := by unfold Save.fileName; rw [hkind]
    unfold docContents
    cases hparsed : L.fromStr (trim s.text) with
    | none => exact iff_of_true (fun _ h => absurd h.symm (Option.some_ne_none _)) fun h => absurd (h rfl) Bool.false_ne_true
    | some parsed =>
      have hload : loadFile L ⟨s.fileName,
          some (L.pretty (.object (wrapper s.name s.description s.ns parsed)) ++ ['\n'])⟩ =
          some (s.docEntry L parsed) := by
        rw [hfile, loadFile_doc, ← hfile]
        exact parseDocQuery_saved (L.value_fromStr hparsed)
      have hentry : (∃ q ∈ load L (writeQueryFile pid dir s.fileName
          (L.pretty (.object (wrapper s.name s.description s.ns parsed)) ++ ['\n'])), Loaded E L s q) ↔
          Loaded E L s (s.docEntry L parsed) := by
        rw [exists_loaded hpath, hload]
        exact ⟨fun ⟨q, hq, h⟩ => Option.some.inj hq ▸ h, fun h => ⟨_, rfl, h⟩⟩
      constructor
      · intro h _
        obtain ⟨hloaded, halone⟩ := h _ rfl
        obtain ⟨hne, hnumbers, htags⟩ := (loaded_doc hkind hparsed).mp (hentry.mp hloaded)
        exact ⟨hne, fun h => absurd h hsql, fun h => absurd h hsql, fun h => absurd h hsql, fun _ => hnumbers,
          htags, halone⟩
      · rintro h dir' ⟨⟩
        obtain ⟨hne, -, -, -, hnumbers, htags, halone⟩ := h fun _ => rfl
        exact ⟨hentry.mpr ((loaded_doc hkind hparsed).mpr ⟨hne, hnumbers hkind, htags⟩), halone⟩

end Entries

/-! ## Two names with one slug -/

/-- The text behind the comments and blanks in front of it; `inside` a comment. -/
def codeOf (inside : Bool) : Text → Text
  | [] => []
  | c :: rest =>
    if inside then
      if c = '\n' ∨ c = '\r' then codeOf false rest else codeOf true rest
    else if isWhite c then codeOf false rest
    else if c = '-' ∧ rest.head? = some '-' then codeOf true rest
    else c :: rest

theorem codeOf_comment {t : Text} (hn : '\n' ∉ t) (hr : '\r' ∉ t) (rest : Text) :
    codeOf true (t ++ '\n' :: rest) = codeOf false rest := by
  induction t with
  | nil => rfl
  | cons c t ih =>
    obtain ⟨hcn, hn⟩ := not_or.mp (List.mem_cons.not.mp hn)
    obtain ⟨hcr, hr⟩ := not_or.mp (List.mem_cons.not.mp hr)
    rw [List.cons_append, codeOf, if_pos rfl, if_neg (not_or.mpr ⟨Ne.symm hcn, Ne.symm hcr⟩)]
    exact ih hn hr

/-- An engine that runs the whole text as one statement. -/
def wholeText : Engine Text where
  executes t := [codeOf false t]
  endsAtReturn := true
  remark t rest hn hr := by
    have hshape : "-- ".toList ++ t ++ '\n' :: rest = '-' :: (('-' :: ' ' :: t) ++ '\n' :: rest) := rfl
    rw [hshape, codeOf, if_neg Bool.false_ne_true, if_neg (by decide), if_pos ⟨rfl, rfl⟩]
    exact congrArg (fun u => [u]) (codeOf_comment (by simpa using hn) (by simpa using hr rfl) rest)
  blankLine rest := rfl

theorem lexicalMembers {ms : List (String × Json)} (h : ∀ m ∈ ms, Lexical m.2) : LexicalMembers ms := by
  induction ms with
  | nil => rw [LexicalMembers]; trivial
  | cons m ms ih =>
    rw [LexicalMembers]
    exact ⟨h m List.mem_cons_self, ih fun m' hm => h m' (List.mem_cons_of_mem m hm)⟩

theorem trim_compact {j : Json} (h : Lexical j) : trim (compact j) = compact j := by
  have hends (c d : Char) (t : Text) (hc : isWhite c = false) (hd : isWhite d = false) :
      trim (c :: t ++ [d]) = c :: t ++ [d] := by
    refine TextLines.trim_ends ?_ ?_
    · rintro e ⟨⟩
      exact hc
    · intro e he
      rw [List.getLast?_concat] at he
      cases he
      exact hd
  cases j with
  | null => decide
  | bool b => cases b <;> decide
  | number token =>
    rw [Lexical] at h
    rw [compact]
    exact TextLines.trim_ends (fun c hc => number_white (h.2 c (List.mem_of_head? hc)))
      fun c hc => number_white (h.2 c (List.mem_of_getLast? hc))
  | string s =>
    rw [compact, quote]
    exact hends _ _ _ (by decide) (by decide)
  | array items | object members =>
    rw [compact]
    exact hends _ _ _ (by decide) (by decide)

open Classical in
/-- JSON in its compact text, with the numbers as they are spelled. -/
noncomputable def compactJson : Libraries where
  toLowercase t := t.map Char.toLower
  fromStr t := (parse (trim t)).filter fun j => decide (Lexical j)
  pretty := compact
  kept j := j
  Value := Lexical
  value_fromStr h := of_decide_eq_true (Option.filter_eq_some_iff.mp h).2
  value_object _ h := by
    rw [Lexical]
    exact lexicalMembers h
  value_string s := by
    rw [Lexical] <;> simp
  value_kept h := h
  fromStr_pretty h := by
    rw [trim_compact h, parse_compact h, Option.filter_some, if_pos (decide_eq_true h)]
  fromStr_line {j} h := by
    have htrim : trim (compact j ++ ['\n']) = compact j :=
      (TextLines.trim_append (by decide)).trans (trim_compact h)
    rw [htrim, parse_compact h, Option.filter_some, if_pos (decide_eq_true h)]
  fromStr_trim {t j} h := by rwa [trim_trim]
  kept_object _ := by simp
  kept_string _ := rfl

def customers : File := ⟨"query.sql".toList, some (sqlContents "客户".toList none "SELECT 1".toList)⟩

def saveOrders : Save :=
  { kind := .sql
    name := "订单".toList
    description := none
    ns := none
    text := "SELECT 2".toList
    opened := none }

/-- The file of one name is overwritten under another, since neither has a letter that a slug keeps. -/
theorem customers_overwritten : ¬Faithful wholeText compactJson "1".toList [customers] saveOrders := by
  intro h
  obtain ⟨-, halone⟩ := h _ rfl
  have hload : loadFile compactJson customers =
      some ⟨"客户".toList, none, [], sqlContents "客户".toList none "SELECT 1".toList, .sql, none,
        "query.sql".toList⟩ := by decide
  have hname := halone _ (mem_load.mpr ⟨_, List.mem_singleton_self _, hload⟩) (by decide)
  exact absurd hname (by decide)

end RedDb.Config.Queries
