import RedDb.Approval.DocWrites
import RedDb.Approval.KvBinding

/-!
# RedDb — what the prompt of a MongoDB write binds

The prompt of a document tool names a collection as `db.coll`, so the two can be told apart only when
neither has a point that the other might have; a filter is shown whole and ends where its braces are
closed; of what is written the beginning is shown. The name of an index is not shown at all.

* `clearNames_iff` — the names that `db.coll` tells;
* `doc_bound` — which calls of the document tools their prompts bind.
-/

namespace RedDb.Approval

open TextCodec JsonText Delimited
open RedDb.Docs (DocValue)

/-! ## Namespaces -/

/-- A name as a prompt shows it. -/
def shown (t : Text) : Text := if t = [] then ['?'] else t

def dotted (db coll : Text) : Text := shown db ++ '.' :: shown coll

/-- Names that can be told from `db.coll`. -/
structure ClearNames (db coll : Text) : Prop where
  db_named : db ≠ [] ∧ db ≠ ['?']
  coll_named : coll ≠ [] ∧ coll ≠ ['?']
  db_plain : '.' ∉ db.tail
  coll_plain : '.' ∉ coll.dropLast

theorem shown_ne_nil (t : Text) : shown t ≠ [] := by
  unfold shown
  split
  · exact List.cons_ne_nil _ _
  · assumption

theorem shown_eq {t u : Text} (hu : u ≠ [] ∧ u ≠ ['?']) (h : shown t = u) : t = u := by
  unfold shown at h
  split at h
  · exact absurd h.symm hu.2
  · exact h

theorem ClearNames.inj {db coll db' coll' : Text} (hclear : ClearNames db coll)
    (h : dotted db' coll' = dotted db coll) : db' = db ∧ coll' = coll := by
  have hdb : shown db = db := if_neg hclear.db_named.1
  have hcoll : shown coll = coll := if_neg hclear.coll_named.1
  rw [dotted, dotted, hdb, hcoll] at h
  obtain ⟨z, hz, hrest⟩ | ⟨z, hz, hrest⟩ := List.append_eq_append_iff.mp h
  · cases z with
    | nil =>
      rw [List.append_nil] at hz
      exact ⟨shown_eq hclear.db_named hz.symm, shown_eq hclear.coll_named (List.cons.inj hrest).2⟩
    | cons c z =>
      -- a point behind the first character of the database
      obtain ⟨rfl, -⟩ := List.cons.inj hrest
      refine absurd ?_ hclear.db_plain
      rw [hz]
      cases hd : shown db' with
      | nil => exact absurd hd (shown_ne_nil db')
      | cons d ds => simp
  · cases z with
    | nil =>
      rw [List.append_nil] at hz
      exact ⟨shown_eq hclear.db_named hz, shown_eq hclear.coll_named (List.cons.inj hrest).2.symm⟩
    | cons c z =>
      -- a point ahead of the last character of the collection
      have hend : coll = z ++ '.' :: shown coll' := by
        obtain ⟨rfl, hend⟩ := List.cons.inj hrest
        exact hend
      refine absurd ?_ hclear.coll_plain
      rw [hend, List.dropLast_append_of_ne_nil (List.cons_ne_nil _ _)]
      cases hc : shown coll' with
      | nil => exact absurd hc (shown_ne_nil coll')
      | cons d ds => simp [List.dropLast_cons_of_ne_nil]

/-- Other names have the same text, where the names are not clear. -/
theorem exists_other_names {db coll : Text} (h : ¬ ClearNames db coll) :
    ∃ db' coll', dotted db' coll' = dotted db coll ∧ (db', coll') ≠ (db, coll) := by
  by_contra hnone
  have hsame : ∀ db' coll', dotted db' coll' = dotted db coll → db' = db ∧ coll' = coll := by
    intro db' coll' heq
    by_contra hne
    exact hnone ⟨db', coll', heq, fun hpair => hne (Prod.mk.inj hpair)⟩
  refine h ⟨⟨?_, ?_⟩, ⟨?_, ?_⟩, ?_, ?_⟩
  · rintro rfl
    exact absurd (hsame ['?'] coll rfl).1 (by simp)
  · rintro rfl
    exact absurd (hsame [] coll rfl).1 (by simp)
  · rintro rfl
    exact absurd (hsame db ['?'] rfl).2 (by simp)
  · rintro rfl
    exact absurd (hsame db [] rfl).2 (by simp)
  · intro hpoint
    cases db with
    | nil => exact absurd hpoint (by simp)
    | cons d ds =>
      obtain ⟨a, b, rfl⟩ := List.append_of_mem hpoint
      have hshorter := (hsame (d :: a) (b ++ '.' :: shown coll) (by simp [dotted, shown])).1
      simp at hshorter
  · intro hpoint
    obtain ⟨a, b, hab⟩ := List.append_of_mem hpoint
    cases hlast : coll.getLast? with
    | none =>
      rw [List.getLast?_eq_none_iff.mp hlast] at hpoint
      cases hpoint
    | some c =>
      obtain ⟨init, rfl⟩ := List.getLast?_eq_some_iff.mp hlast
      rw [List.dropLast_concat] at hab
      have hshorter := (hsame (shown db ++ '.' :: a) (b ++ [c]) (by simp [dotted, shown, hab])).2
      have hlength := congrArg List.length hshorter
      simp only [hab, List.length_append, List.length_cons] at hlength
      omega

/-! ## The end of a prompt -/

def noteOf (many : Bool) : Text := if many then " (many: ALL matches)".toList else []

theorem closed_ne_ellipsis {t : Text} (h : Closed t) : t.getLast? ≠ some '…' := fun hlast =>
  (h.last hlast).elim (by decide) (by decide)

/-- A filter and whether many are meant are told from the end of a prompt. -/
theorem filter_inj {y y' f f' : Text} {m m' : Bool} (hf : Closed f) (hf' : Closed f') (hne : f ≠ [])
    (hne' : f' ≠ []) (h : y ++ ' ' :: (f ++ noteOf m) = y' ++ ' ' :: (f' ++ noteOf m')) :
    y = y' ∧ f = f' ∧ m = m' := by
  have hlast {y f : Text} {m : Bool} (hf : Closed f) (hne : f ≠ []) :
      (y ++ ' ' :: (f ++ noteOf m)).getLast? = some ')' ↔ m = true := by
    cases m with
    | true =>
      have hnote : noteOf true = " (many: ALL matches".toList ++ [')'] := by decide
      rw [hnote, ← List.append_assoc, ← List.cons_append, ← List.append_assoc, List.getLast?_concat]
      exact iff_of_true rfl rfl
    | false =>
      have hbare : f.getLast? ≠ some ')' := fun hlast => (hf.last hlast).elim (by decide) (by decide)
      cases hc : f.getLast? with
      | none => exact absurd (List.getLast?_eq_none_iff.mp hc) hne
      | some c =>
        rw [hc] at hbare
        rw [noteOf, if_neg Bool.false_ne_true, List.append_nil, List.getLast?_append, List.getLast?_cons, hc]
        simpa using hbare
  have hmany : m = m' := by
    rw [Bool.eq_iff_iff, ← hlast (y := y) hf hne, ← hlast (y := y') hf' hne', h]
  subst hmany
  rw [← List.cons_append, ← List.cons_append, ← List.append_assoc, ← List.append_assoc,
    List.append_cancel_right_eq] at h
  have hinner {f f' z : Text} (hf : Closed f) (hf' : Closed f') (h : ' ' :: f = z ++ ' ' :: f') :
      z = [] ∧ f = f' := by
    cases z with
    | nil => exact ⟨rfl, (List.cons.inj h).2⟩
    | cons c z =>
      rw [(List.cons.inj h).2] at hf
      have hf : Closed (z ++ ' ' :: (f' ++ [])) := by
        rw [List.append_nil]
        exact hf
      exact (hf.no_inner hf' List.not_mem_nil List.not_mem_nil).elim
  obtain ⟨z, rfl, hz⟩ | ⟨z, rfl, hz⟩ := List.append_eq_append_iff.mp h
  · obtain ⟨rfl, rfl⟩ := hinner hf hf' hz
    exact ⟨(List.append_nil y).symm, rfl, rfl⟩
  · obtain ⟨rfl, rfl⟩ := hinner hf' hf hz
    exact ⟨List.append_nil y', rfl, rfl⟩

theorem noteOf_plain (m : Bool) : '"' ∉ noteOf m ∧ '\\' ∉ noteOf m ∧ '\n' ∉ noteOf m := by
  cases m <;> decide

/-- What stands on the last line is told from the whole. -/
theorem last_line_inj {x x' p p' : Text} (hp : '\n' ∉ p) (hp' : '\n' ∉ p') (h : x ++ '\n' :: p = x' ++ '\n' :: p') :
    x = x' ∧ p = p' := by
  have hsplit := congrArg (rsplitOnce '\n') h
  rw [rsplitOnce_append x hp, rsplitOnce_append x' hp'] at hsplit
  exact Prod.mk.inj (Option.some.inj hsplit)

/-- A payload is not the end of a prompt that shows none. -/
theorem payload_ne_filter {x p y f : Text} {m : Bool} (hp : Closed p) (hf : Closed f) :
    x ++ '\n' :: p ≠ y ++ ' ' :: (f ++ noteOf m) := by
  intro h
  obtain ⟨hquote, hbackslash, hnewline⟩ := noteOf_plain m
  have hline : '\n' ∉ ' ' :: (f ++ noteOf m) := by
    rw [List.mem_cons, List.mem_append, not_or, not_or]
    exact ⟨by decide, hf.line, hnewline⟩
  obtain ⟨z, -, hz⟩ | ⟨z, -, hz⟩ := List.append_eq_append_iff.mp h
  · cases z with
    | nil => exact absurd (List.cons.inj hz).1 (by decide)
    | cons c z =>
      rw [(List.cons.inj hz).2] at hp
      exact hp.no_inner hf hquote hbackslash
  · refine hline ?_
    rw [hz]
    simp

/-- What is shown of a payload, when all of it is. -/
theorem shown_payload_inj {v v' : Json} (hv : Lexical v) (hv' : Lexical v')
    (hwhole : (compact v).length ≤ docPayloadChars)
    (h : truncateSummary (compact v') docPayloadChars = truncateSummary (compact v) docPayloadChars) : v' = v := by
  have htext := truncateSummary_whole hwhole (closed_ne_ellipsis (closed_compact hv)) h
  have hparse := congrArg parse htext
  rw [parse_compact hv, parse_compact hv'] at hparse
  exact Option.some.inj hparse

theorem truncateSummary_line {t : Text} (h : '\n' ∉ t) (max : Nat) : '\n' ∉ truncateSummary t max := by
  unfold truncateSummary
  split
  · exact h
  · rw [List.mem_append, not_or]
    exact ⟨fun hmem => h (List.mem_of_mem_take hmem), by decide⟩

/-! ## Documents -/

section Doc

variable (parseExtJson : Text → Option DocValue)

/-- The op of a proposal. -/
def opField (input : Json) : Text := (strField "op" input).getD []

/-- What the prompt of a kill says of an operation that is not described. -/
def unsaidNote : Text :=
  ("\nThe agent did not say what this operation is; read doc_current_op before " ++ "allowing.").toList

/-- What the prompt of a kill can say of the operation. -/
inductive RunningNote : Text → Prop where
  | unsaid : RunningNote unsaidNote
  | running {cmd : Text} (h : cmd ≠ []) : RunningNote ("\nRunning: ".toList ++ truncateSummary cmd docPayloadChars)

/-- The place that an operation is claimed to be at is followed by the warning in one way only. -/
def OnePlace (input : Json) : Prop :=
  ∀ place, filledField "namespace" input = some place → ∀ place' note, place' ≠ [] → RunningNote note →
    place' ++ (killWarning ++ note) = place ++ (killWarning ++ runningNote input) → place' = place

/-- What is written is shown to its end. -/
def PayloadWhole (input : Json) : Prop :=
  ∀ key v, (opField input = "update".toList ∧ key = "update" ∨ opField input = "replace".toList ∧ key = "document") →
    get key input = some v → (compact v).length ≤ docPayloadChars

/-- The inputs whose prompt says what they do. -/
def DocLegible : DocTool → Json → Prop
  | .docWrite, input => opField input ≠ "insert".toList ∧ ClearNames (rawName "db" input) (rawName "coll" input) ∧
      PayloadWhole input
  | .index, _ => False
  | .collectionOp, input => ClearNames (rawName "db" input) (rawName "coll" input)
  | .killOp, input => OnePlace input

variable {parseExtJson} {tool : DocTool} {input other : Json} {call : DocCall}

theorem docRunTool_some (h : docRunTool parseExtJson tool input = some call) :
    (∀ why, assessDocWrite tool input ≠ .reject why) ∧ docCall parseExtJson tool input = some call := by
  unfold docRunTool at h
  split at h
  · cases h
  · rename_i hverdict
    exact ⟨hverdict, h⟩

theorem docRunTool_eq (h : ∀ why, assessDocWrite tool input ≠ .reject why) :
    docRunTool parseExtJson tool input = docCall parseExtJson tool input := by
  unfold docRunTool
  split
  · exact absurd ‹_› (h _)
  · rfl

/-- Another input with the same prompt makes the same call, when the prompt binds. -/
theorem docCall_of_bound (hrun : docRunTool parseExtJson tool input = some call)
    (hbound : Bound (assessDocWrite tool) (docRunTool parseExtJson tool) input) (hlex : Lexical other)
    (hassess : assessDocWrite tool other = assessDocWrite tool input) :
    docCall parseExtJson tool other = some call := by
  have hother := hbound other hlex hassess
  rwa [hrun, docRunTool_eq fun why => hassess ▸ (docRunTool_some hrun).1 why] at hother

theorem filledField_getD (key : String) (input : Json) :
    (filledField key input).getD [] = (strField key input).getD [] := by
  rw [filledField]
  cases strField key input with
  | none => rfl
  | some t => cases t <;> rfl

theorem shownName_eq (key : String) (input : Json) : shownName key input = shown (rawName key input) := by
  rw [shownName, filledField, rawName, shown]
  cases strField key input with
  | none => rfl
  | some t => cases t <;> rfl

theorem shownPlace_eq (input : Json) :
    shownPlace input = dotted (rawName "db" input) (rawName "coll" input) := by
  rw [shownPlace, shownName_eq, shownName_eq, List.append_assoc]
  rfl

/-- The input with other names. -/
def renamed (db coll : Text) (input : Json) : Json :=
  put "coll" (.string (String.ofList coll)) (put "db" (.string (String.ofList db)) input)

theorem rawName_renamed (db coll : Text) (h : (asObject input).isSome) :
    rawName "db" (renamed db coll input) = db ∧ rawName "coll" (renamed db coll input) = coll := by
  constructor
  · rw [rawName, renamed, strField_put_ne (by decide), strField, get_put_same h, Option.bind_some, asStr,
      String.toList_ofList, Option.getD_some]
  · rw [rawName, renamed, strField, get_put_same (isObject_put h), Option.bind_some, asStr, String.toList_ofList,
      Option.getD_some]

theorem lexical_renamed (db coll : Text) (h : Lexical input) : Lexical (renamed db coll input) :=
  lexical_put "coll" (lexical_put "db" h trivial) trivial

theorem get_renamed {key : String} (db coll : Text) (hdb : key ≠ "db") (hcoll : key ≠ "coll") (input : Json) :
    get key (renamed db coll input) = get key input := by
  rw [renamed, get_put_ne hcoll, get_put_ne hdb]

theorem index_not_bound (hlex : Lexical input) (hrun : docRunTool parseExtJson .index input = some call) :
    ¬ Bound (assessDocWrite .index) (docRunTool parseExtJson .index) input := by
  intro hbound
  obtain ⟨-, hcall⟩ := docRunTool_some hrun
  obtain ⟨spec, hspec, rfl⟩ := Option.map_eq_some_iff.mp hcall
  have hget : get "keys" (padField "name" input) = get "keys" input := get_put_ne (by decide) _ _
  have hunique : uniqueField (padField "name" input) = uniqueField input := by
    rw [uniqueField, boolField_put_ne (by decide), uniqueField]
  have hother := docCall_of_bound hrun hbound (lexical_padField "name" hlex) (by
    simp only [assessDocWrite, assessIndex, shownPlace, shownName, hget, hunique]
    rw [filledField_put_ne (by decide), filledField_put_ne (by decide)])
  obtain ⟨spec', hspec', heq⟩ := Option.map_eq_some_iff.mp hother
  obtain ⟨-, -, rfl⟩ := DocCall.createIndex.inj heq
  have hname {i : Json} {s : IndexSpec} (h : docIndexSpec i = some s) :
      s.name = strField "name" i ∧ (asObject i).isSome := by
    unfold docIndexSpec at h
    split at h
    · cases h
    · cases h
    · rename_i keys _ hkeys
      obtain ⟨v, hv, -⟩ := Option.bind_eq_some_iff.mp hkeys
      rw [← Option.some.inj h]
      exact ⟨rfl, isObject_of_get (Option.isSome_of_eq_some hv)⟩
  obtain ⟨hraw, hobject⟩ := hname hspec
  have hpadded : strField "name" (padField "name" input) = some (pad ((strField "name" input).getD [])) :=
    strField_padField hobject
  rw [← (hname hspec').1, hraw] at hpadded
  exact pad_ne _ (congrArg (fun t => t.getD []) hpadded).symm

theorem opField_eq (input : Json) : (filledField "op" input).getD [] = opField input := filledField_getD "op" input

theorem opField_renamed (db coll : Text) (input : Json) : opField (renamed db coll input) = opField input := by
  rw [opField, strField, get_renamed db coll (by decide) (by decide), opField, strField]

theorem shownPlace_renamed {db coll : Text} (hobject : (asObject input).isSome)
    (h : dotted db coll = dotted (rawName "db" input) (rawName "coll" input)) :
    shownPlace (renamed db coll input) = shownPlace input := by
  obtain ⟨hdb, hcoll⟩ := rawName_renamed db coll hobject
  rw [shownPlace_eq, shownPlace_eq, hdb, hcoll, h]

theorem isObject_of_op (h : opField input ≠ []) : (asObject input).isSome := by
  rw [opField] at h
  cases hop : strField "op" input with
  | none =>
    rw [hop] at h
    exact absurd rfl h
  | some t => exact isObject_of_strField hop

theorem collectionOp_bound_iff (hlex : Lexical input)
    (hrun : docRunTool parseExtJson .collectionOp input = some call) :
    Bound (assessDocWrite .collectionOp) (docRunTool parseExtJson .collectionOp) input ↔
      ClearNames (rawName "db" input) (rawName "coll" input) := by
  obtain ⟨hverdict, hcall⟩ := docRunTool_some hrun
  have hcreate : "CREATE collection ".toList ≠ [] := by decide
  rw [docCall, ← opField] at hcall
  constructor
  · intro hbound
    by_contra hclear
    obtain ⟨db, coll, hdotted, hne⟩ := exists_other_names hclear
    have hobject : (asObject input).isSome := isObject_of_op fun hnil => by
      rw [hnil] at hcall
      cases hcall
    obtain ⟨hdb, hcoll⟩ := rawName_renamed db coll hobject
    have hother := docCall_of_bound hrun hbound (lexical_renamed db coll hlex) (by
      simp only [assessDocWrite, assessCollectionOp, opField_eq, opField_renamed,
        shownPlace_renamed hobject hdotted])
    rw [docCall, ← opField, opField_renamed, hdb, hcoll, ← hcall] at hother
    refine hne ?_
    split_ifs at hother with hop hdrop
    · obtain ⟨rfl, rfl⟩ := DocCall.createCollection.inj (Option.some.inj hother)
      rfl
    · obtain ⟨rfl, rfl⟩ := DocCall.dropCollection.inj (Option.some.inj hother)
      rfl
    · rw [if_neg hop, if_neg hdrop] at hcall
      cases hcall
  · intro hclear other _ hassess
    have hverdict' : ∀ why, assessDocWrite .collectionOp other ≠ .reject why := fun why => hassess ▸ hverdict why
    rw [docRunTool_eq hverdict, docRunTool_eq hverdict', docCall, docCall, ← opField, ← opField]
    have hplace {i : Json} {t : Text} (h : assessCollectionOp i = .needsApproval t) :
        (opField i = "create".toList ∧ t = "CREATE collection ".toList ++ shownPlace i) ∨
          (opField i = "drop".toList ∧ t = "DROP collection ".toList ++ shownPlace i ++
            " — destructive, cannot be undone".toList) := by
      unfold assessCollectionOp at h
      dsimp only at h
      rw [opField_eq] at h
      split_ifs at h with hop hdrop
      · exact Or.inl ⟨hop, (WriteAssessment.needsApproval.inj h).symm⟩
      · exact Or.inr ⟨hdrop, (WriteAssessment.needsApproval.inj h).symm⟩
    obtain ⟨t, ht⟩ : ∃ t, assessCollectionOp input = .needsApproval t := by
      have hverdict : ∀ why, assessCollectionOp input ≠ .reject why := hverdict
      unfold assessCollectionOp at hverdict ⊢
      dsimp only at hverdict ⊢
      split_ifs at hverdict ⊢
      · exact ⟨_, rfl⟩
      · exact ⟨_, rfl⟩
      · exact absurd rfl (hverdict _)
    have hnames (h : shownPlace other = shownPlace input) :
        rawName "db" other = rawName "db" input ∧ rawName "coll" other = rawName "coll" input := by
      rw [shownPlace_eq, shownPlace_eq] at h
      exact hclear.inj h
    obtain ⟨hop, rfl⟩ | ⟨hop, rfl⟩ := hplace ht
    · obtain ⟨hop', htext⟩ | ⟨-, htext⟩ := hplace (hassess.trans ht)
      · obtain ⟨hdb, hcoll⟩ := hnames (List.append_cancel_left htext).symm
        rw [hop, hop', hdb, hcoll]
      · rw [List.append_assoc] at htext
        exact absurd (prefix_of_append_eq htext) (by decide)
    · obtain ⟨-, htext⟩ | ⟨hop', htext⟩ := hplace (hassess.trans ht)
      · rw [List.append_assoc] at htext
        exact absurd (prefix_of_append_eq htext) (by decide)
      · rw [List.append_assoc, List.append_assoc] at htext
        obtain ⟨hdb, hcoll⟩ := hnames (List.append_cancel_right (List.append_cancel_left htext)).symm
        rw [hop, hop', hdb, hcoll]

/-! ## Kills -/

theorem runningNote_note (input : Json) : RunningNote (runningNote input) := by
  unfold runningNote
  split
  · rename_i cmd hcmd
    refine .running fun hnil => ?_
    obtain ⟨-, hfilled⟩ := Option.filter_eq_some_iff.mp hcmd
    rw [hnil] at hfilled
    cases hfilled
  · exact .unsaid

/-- The input of a kill at a place, with this said of the operation. -/
theorem exists_kill {opid : Int} (hopid : -2 ^ 63 ≤ opid ∧ opid < 2 ^ 63) {place note : Text} (hplace : place ≠ [])
    (hnote : RunningNote note) : ∃ other, Lexical other ∧ intField "opid" other = some opid ∧
      filledField "namespace" other = some place ∧ runningNote other = note := by
  have hid (members : List (String × Json)) :
      intField "opid" (.object (("opid", .number (intText opid)) :: members)) = some opid := by
    have hget : get "opid" (.object (("opid", .number (intText opid)) :: members)) =
        some (.number (intText opid)) := rfl
    rw [intField, hget, Option.bind_some, asI64, intOfText_intText, Option.filter_some, if_pos (by simpa using hopid)]
  have hfilled {t : Text} (ht : t ≠ []) : (some (String.ofList t).toList).filter (fun t => !t.isEmpty) = some t := by
    rw [String.toList_ofList, Option.filter_some, if_pos (by simpa using ht)]
  have hlexical : Lexical (.number (intText opid)) := RedDb.Docs.lexical_intText opid
  cases hnote with
  | unsaid =>
    exact ⟨.object [("opid", .number (intText opid)), ("namespace", .string (String.ofList place))],
      ⟨hlexical, trivial, trivial⟩, hid _, hfilled hplace, rfl⟩
  | @running cmd hcmd =>
    refine ⟨.object [("opid", .number (intText opid)), ("namespace", .string (String.ofList place)),
      ("command", .string (String.ofList cmd))], ⟨hlexical, trivial, trivial, trivial⟩, hid _, hfilled hplace, ?_⟩
    have hcommand : filledField "command" (.object [("opid", .number (intText opid)),
        ("namespace", .string (String.ofList place)), ("command", .string (String.ofList cmd))]) = some cmd :=
      hfilled hcmd
    rw [runningNote, hcommand]

theorem killOp_bound_iff (hrun : docRunTool parseExtJson .killOp input = some call) :
    Bound (assessDocWrite .killOp) (docRunTool parseExtJson .killOp) input ↔ OnePlace input := by
  obtain ⟨hverdict, hcall⟩ := docRunTool_some hrun
  obtain ⟨opid, hopid, rfl⟩ := Option.map_eq_some_iff.mp hcall
  have hassess {i : Json} {n : Int} (h : intField "opid" i = some n) : assessDocWrite .killOp i =
      .needsApproval ("KILL operation ".toList ++ (intText n ++
        (((filledField "namespace" i).map fun place => " on ".toList ++ place).getD [] ++
          (killWarning ++ runningNote i)))) := by
    rw [assessDocWrite, assessKillOp, h]
    dsimp only
    cases filledField "namespace" i <;> simp only [List.append_assoc] <;> rfl
  constructor
  · intro hbound place hplace place' note hne hnote htext
    obtain ⟨v, -, hi64⟩ := Option.bind_eq_some_iff.mp hopid
    have hrange : -2 ^ 63 ≤ opid ∧ opid < 2 ^ 63 := by
      cases v with
      | number token => simpa using (Option.filter_eq_some_iff.mp hi64).2
      | null | bool _ | string _ | array _ | object _ => exact absurd hi64 (by simp [asI64])
    obtain ⟨other, hlexical, hid, hfield, hrunning⟩ := exists_kill hrange hne hnote
    have hother := docCall_of_bound hrun hbound hlexical (by
      rw [hassess hid, hassess hopid, hfield, hplace, hrunning]
      simp only [Option.map_some, Option.getD_some, List.append_assoc, htext])
    rw [docCall, hid, Option.map_some] at hother
    have hclaimed := (DocCall.killOp.inj (Option.some.inj hother)).2
    rw [hfield, hplace] at hclaimed
    exact Option.some.inj hclaimed
  · intro hone other _ hsame
    have hverdict' : ∀ why, assessDocWrite .killOp other ≠ .reject why := fun why => hsame ▸ hverdict why
    obtain ⟨opid', hopid'⟩ : ∃ n, intField "opid" other = some n := by
      cases h : intField "opid" other with
      | none => exact absurd (by rw [assessDocWrite, assessKillOp, h]) (hverdict' _)
      | some n => exact ⟨n, rfl⟩
    have htext := List.append_cancel_left (WriteAssessment.needsApproval.inj
      ((hassess hopid').symm.trans (hsame.trans (hassess hopid))))
    have hends (i : Json) : ∀ c ∈ (((filledField "namespace" i).map fun place => " on ".toList ++ place).getD [] ++
        (killWarning ++ runningNote i)).head?, (c == '-' || c.isDigit) = false := by
      cases filledField "namespace" i with
      | none | some place => exact fun c hc => Option.some.inj hc ▸ by decide
    have hdigits (n : Int) : ∀ c ∈ intText n, (c == '-' || c.isDigit) = true := fun c hc => by
      obtain rfl | hdigit := intText_chars hc
      · rfl
      · rw [hdigit, Bool.or_true]
    obtain ⟨hid, hrest⟩ := run_append_inj (hdigits opid') (hdigits opid) (hends other) (hends input) htext
    have hint : opid' = opid := by
      have hread := congrArg intOfText hid
      rw [intOfText_intText, intOfText_intText] at hread
      exact Option.some.inj hread
    have hwarning : killWarning = '\n' :: killWarning.tail := by decide
    have hon : " on ".toList = ' ' :: "on ".toList := by decide
    have hclaimed : filledField "namespace" other = filledField "namespace" input := by
      cases hother : filledField "namespace" other with
      | none =>
        cases hplace : filledField "namespace" input with
        | none => rfl
        | some place =>
          rw [hother, hplace, Option.map_none, Option.map_some, Option.getD_none, Option.getD_some, List.nil_append,
            hwarning, hon] at hrest
          cases hrest
      | some place' =>
        cases hplace : filledField "namespace" input with
        | none =>
          rw [hother, hplace, Option.map_none, Option.map_some, Option.getD_none, Option.getD_some, List.nil_append,
            hwarning, hon] at hrest
          cases hrest
        | some place =>
          rw [hother, hplace, Option.map_some, Option.map_some, Option.getD_some, Option.getD_some, List.append_assoc,
            List.append_assoc] at hrest
          have hne : place' ≠ [] := fun hnil => by
            obtain ⟨-, hfilled⟩ := Option.filter_eq_some_iff.mp hother
            rw [hnil] at hfilled
            cases hfilled
          rw [hone place hplace place' _ hne (runningNote_note other) (List.append_cancel_left hrest)]
    rw [docRunTool_eq hverdict, docRunTool_eq hverdict', docCall, docCall, hopid, hopid', hint, hclaimed]

/-! ## Writes -/

/-- A prompt from its filter on. -/
def matching (place f : Text) (many : Bool) (rest : Text) : Text :=
  place ++ " matching".toList ++ ' ' :: (f ++ noteOf many) ++ rest

/-- The prompts of the writes, each with what the gate has found in the input. -/
inductive WritePrompt (input : Json) : Text → Prop where
  | insert (hop : opField input = "insert".toList) :
      WritePrompt input ("INSERT one document into ".toList ++ (shownPlace input ++ payload "document" input))
  | replace {f : Json} (hop : opField input = "replace".toList) (hfilter : get "filter" input = some f) :
      WritePrompt input ("REPLACE document in ".toList ++
        matching (shownPlace input) (compact f) false (payload "document" input))
  | update {f : Json} (hop : opField input = "update".toList) (hfilter : get "filter" input = some f) :
      WritePrompt input ("UPDATE ".toList ++
        matching (shownPlace input) (compact f) (manyField input) (payload "update" input))
  | delete {f : Json} (hop : opField input = "delete".toList) (hfilter : get "filter" input = some f) :
      WritePrompt input ("DELETE from ".toList ++ matching (shownPlace input) (compact f) (manyField input) [])

theorem assessWriteOp_prompt {sql : Text} (h : assessWriteOp input = .needsApproval sql) : WritePrompt input sql := by
  have hwords : " matching ".toList = " matching".toList ++ [' '] := by decide
  have hfilter (hhas : hasFilter input = true) : ∃ f, get "filter" input = some f ∧ filterText input = compact f := by
    cases hget : get "filter" input with
    | none =>
      rw [hasFilter, hget] at hhas
      cases hhas
    | some f => exact ⟨f, rfl, by rw [filterText, hget]; rfl⟩
  have hmatching {f : Json} (hf : filterText input = compact f) (many : Bool) (rest : Text) :
      shownPlace input ++ " matching ".toList ++ filterText input ++ noteOf many ++ rest =
        matching (shownPlace input) (compact f) many rest := by
    rw [hf, hwords, matching]
    simp only [List.append_assoc, List.cons_append, List.nil_append]
  have hnote : manyNote input = noteOf (manyField input) := rfl
  unfold assessWriteOp at h
  dsimp only at h
  rw [opField_eq] at h
  split at h
  · rename_i hop
    rw [← WriteAssessment.needsApproval.inj h, List.append_assoc]
    exact .insert hop
  split at h
  · rename_i hop
    split at h
    · cases h
    rename_i hhas
    obtain ⟨f, hget, hf⟩ := hfilter (by simpa using hhas)
    have htext := hmatching hf false (payload "document" input)
    rw [noteOf, if_neg Bool.false_ne_true, List.append_nil] at htext
    rw [← WriteAssessment.needsApproval.inj h]
    have hprompt := WritePrompt.replace hop hget
    rw [← htext] at hprompt
    simpa only [List.append_assoc] using hprompt
  split at h
  · rename_i hop
    split at h
    · cases h
    rename_i hhas
    obtain ⟨f, hget, hf⟩ := hfilter (by simpa using hhas)
    rw [← WriteAssessment.needsApproval.inj h, hnote]
    have hprompt := WritePrompt.update hop hget
    rw [← hmatching hf] at hprompt
    simpa only [List.append_assoc] using hprompt
  split at h
  · rename_i hop
    split at h
    · cases h
    rename_i hhas
    obtain ⟨f, hget, hf⟩ := hfilter (by simpa using hhas)
    rw [← WriteAssessment.needsApproval.inj h, hnote]
    have hprompt := WritePrompt.delete hop hget
    rw [← hmatching hf] at hprompt
    simpa only [List.append_assoc, List.append_nil] using hprompt
  · cases h

theorem compact_ne_nil {j : Json} (h : Lexical j) : compact j ≠ [] := by
  cases j with
  | null => exact List.cons_ne_nil _ _
  | bool b => cases b <;> exact List.cons_ne_nil _ _
  | number token => exact h.1
  | string s | array items | object members => exact List.cons_ne_nil _ _

theorem compact_inj {a b : Json} (ha : Lexical a) (hb : Lexical b) (h : compact a = compact b) : a = b := by
  have hparse := congrArg parse h
  rw [parse_compact ha, parse_compact hb] at hparse
  exact Option.some.inj hparse

/-- From its filter on a prompt with the whole payload is told. -/
theorem matching_inj {place place' : Text} {f f' v : Json} {m m' : Bool} {key : String} (hlex : Lexical input)
    (hlex' : Lexical other) (hf : Lexical f) (hf' : Lexical f') (hv : get key input = some v)
    (hwhole : (compact v).length ≤ docPayloadChars)
    (h : matching place (compact f) m (payload key input) = matching place' (compact f') m' (payload key other)) :
    place = place' ∧ f = f' ∧ m = m' ∧ get key other = some v := by
  have hpayload : payload key input = '\n' :: compact v := by
    rw [payload, hv]
    dsimp only
    rw [truncateSummary, if_pos hwhole]
  rw [hpayload] at h
  have hlv := lexical_get hlex hv
  unfold matching at h
  cases hv' : get key other with
  | none =>
    rw [payload, hv'] at h
    dsimp only at h
    rw [List.append_nil] at h
    exact absurd h (payload_ne_filter (closed_compact hlv) (closed_compact hf'))
  | some v' =>
    rw [payload, hv'] at h
    dsimp only at h
    have hlv' := lexical_get hlex' hv'
    obtain ⟨hhead, htail⟩ := last_line_inj (closed_compact hlv).line
      (truncateSummary_line (closed_compact hlv').line _) h
    obtain ⟨hplace, hcompact, hmany⟩ := filter_inj (closed_compact hf) (closed_compact hf') (compact_ne_nil hf)
      (compact_ne_nil hf') hhead
    refine ⟨List.append_cancel_right hplace, compact_inj hf hf' hcompact, hmany, ?_⟩
    have hshown : truncateSummary (compact v') docPayloadChars = truncateSummary (compact v) docPayloadChars := by
      rw [← htail, truncateSummary, if_pos hwhole]
    rw [shown_payload_inj hlv hlv' hwhole hshown]

theorem docArgValue_congr {key : String} (h : get key other = get key input) :
    docArgValue parseExtJson key other = docArgValue parseExtJson key input := by
  rw [docArgValue, h, docArgValue]

theorem get_of_docArgValue {key : String} {v : DocValue} (h : docArgValue parseExtJson key input = some v) :
    ∃ j, get key input = some j := by
  cases hget : get key input with
  | none =>
    rw [docArgValue, hget] at h
    cases h
  | some j => exact ⟨j, rfl⟩

theorem docApplyWrite_some {call : DocCall} (h : docApplyWrite parseExtJson input = some call) :
    ∃ w, proposedWrite parseExtJson input = some w ∧ call = .write w := by
  obtain ⟨w, hw, hcall⟩ := Option.bind_eq_some_iff.mp h
  refine ⟨w, hw, ?_⟩
  split at hcall
  · cases hcall
  · exact (Option.some.inj hcall).symm

/-- Where a write goes. -/
def DocWrite.place : DocWrite → Text × Text
  | .insert db coll _ | .update db coll _ _ _ | .replace db coll _ _ | .delete db coll _ _ => (db, coll)

theorem proposedWrite_place {w : DocWrite} (h : proposedWrite parseExtJson input = some w) :
    w.place = (rawName "db" input, rawName "coll" input) := by
  unfold proposedWrite at h
  dsimp only at h
  split_ifs at h
  · obtain ⟨doc, -, rfl⟩ := Option.map_eq_some_iff.mp h
    rfl
  · obtain ⟨filter, -, h⟩ := Option.bind_eq_some_iff.mp h
    obtain ⟨patch, -, rfl⟩ := Option.map_eq_some_iff.mp h
    rfl
  · obtain ⟨id, -, h⟩ := Option.bind_eq_some_iff.mp h
    obtain ⟨doc, -, rfl⟩ := Option.map_eq_some_iff.mp h
    rfl
  · obtain ⟨filter, -, rfl⟩ := Option.map_eq_some_iff.mp h
    rfl

theorem opField_of_proposed {w : DocWrite} (h : proposedWrite parseExtJson input = some w) : opField input ≠ [] := by
  intro hnil
  unfold proposedWrite at h
  dsimp only at h
  rw [← opField, hnil] at h
  cases h

/-- An input with this op and these names only. -/
def bareInput (op db coll : Text) : Json :=
  .object [("op", .string (String.ofList op)), ("db", .string (String.ofList db)),
    ("coll", .string (String.ofList coll))]

/-- An insert has the prompt of one that has no document but the whole of it in its name. -/
theorem insert_not_bound (hop : opField input = "insert".toList)
    (hrun : docRunTool parseExtJson .docWrite input = some call) :
    ¬ Bound (assessDocWrite .docWrite) (docRunTool parseExtJson .docWrite) input := by
  intro hbound
  have hfield (key : String) (t : Text) (i : Json) (h : get key i = some (.string (String.ofList t))) :
      rawName key i = t := by
    rw [rawName, strField, h, Option.bind_some, asStr, String.toList_ofList, Option.getD_some]
  have hassess {i : Json} (hi : opField i = "insert".toList) : assessDocWrite .docWrite i =
      .needsApproval ("INSERT one document into ".toList ++ shownPlace i ++ payload "document" i) := by
    rw [assessDocWrite, assessWriteOp, opField_eq, if_pos hi]
  have hcoll : shown (rawName "coll" input) ++ payload "document" input ≠ [] :=
    List.append_ne_nil_of_left_ne_nil (shown_ne_nil _) _
  have hopother : opField (bareInput "insert".toList (shown (rawName "db" input))
      (shown (rawName "coll" input) ++ payload "document" input)) = "insert".toList := rfl
  have hother : docCall parseExtJson .docWrite (bareInput "insert".toList (shown (rawName "db" input))
      (shown (rawName "coll" input) ++ payload "document" input)) = some call :=
    docCall_of_bound hrun hbound ⟨trivial, trivial, trivial, trivial⟩ (by
    rw [hassess hopother, hassess hop, shownPlace_eq, shownPlace_eq, hfield "db" _ _ rfl, hfield "coll" _ _ rfl]
    have hshown (t : Text) : shown (shown t) = shown t := if_neg (shown_ne_nil t)
    have hpayload : payload "document" (bareInput "insert".toList (shown (rawName "db" input))
      (shown (rawName "coll" input) ++ payload "document" input)) = [] := rfl
    have hlonger : shown (shown (rawName "coll" input) ++ payload "document" input) =
        shown (rawName "coll" input) ++ payload "document" input := if_neg hcoll
    rw [hpayload, dotted, dotted, hshown, hlonger]
    simp only [List.append_assoc, List.cons_append, List.append_nil])
  obtain ⟨w, hw, -⟩ := docApplyWrite_some hother
  unfold proposedWrite at hw
  dsimp only at hw
  rw [← opField, hopother, if_pos rfl] at hw
  obtain ⟨doc, hdoc, -⟩ := Option.map_eq_some_iff.mp hw
  obtain ⟨v, hv, -⟩ := Option.bind_eq_some_iff.mp hdoc
  obtain ⟨j, hj⟩ := get_of_docArgValue hv
  exact absurd hj (by simp [get, bareInput])

theorem assessWriteOp_renamed {db coll : Text} (hobject : (asObject input).isSome)
    (h : dotted db coll = dotted (rawName "db" input) (rawName "coll" input)) :
    assessWriteOp (renamed db coll input) = assessWriteOp input := by
  have hget {key : String} (hdb : key ≠ "db") (hcoll : key ≠ "coll") := get_renamed db coll hdb hcoll input
  have hfilter : hasFilter (renamed db coll input) = hasFilter input := by
    rw [hasFilter, hget (by decide) (by decide), hasFilter]
  have htext : filterText (renamed db coll input) = filterText input := by
    rw [filterText, hget (by decide) (by decide), filterText]
  have hmany : manyNote (renamed db coll input) = manyNote input := by
    rw [manyNote, manyField, boolField, hget (by decide) (by decide), manyNote, manyField, boolField]
  have hdocument : payload "document" (renamed db coll input) = payload "document" input := by
    rw [payload, hget (by decide) (by decide), payload]
  have hupdate : payload "update" (renamed db coll input) = payload "update" input := by
    rw [payload, hget (by decide) (by decide), payload]
  unfold assessWriteOp
  rw [opField_eq, opField_eq, opField_renamed, shownPlace_renamed hobject h, hfilter, htext, hmany, hdocument,
    hupdate]

theorem clear_of_bound (hlex : Lexical input) (hrun : docRunTool parseExtJson .docWrite input = some call)
    (hbound : Bound (assessDocWrite .docWrite) (docRunTool parseExtJson .docWrite) input) :
    ClearNames (rawName "db" input) (rawName "coll" input) := by
  obtain ⟨-, hcall⟩ := docRunTool_some hrun
  obtain ⟨w, hw, rfl⟩ := docApplyWrite_some hcall
  have hobject := isObject_of_op (opField_of_proposed hw)
  by_contra hclear
  obtain ⟨db, coll, hdotted, hne⟩ := exists_other_names hclear
  obtain ⟨hdb, hcoll⟩ := rawName_renamed db coll hobject
  have hother := docCall_of_bound hrun hbound (lexical_renamed db coll hlex) (assessWriteOp_renamed hobject hdotted)
  obtain ⟨w', hw', heq⟩ := docApplyWrite_some hother
  have hplace := proposedWrite_place hw'
  rw [hdb, hcoll, ← DocCall.write.inj heq, proposedWrite_place hw] at hplace
  exact hne hplace.symm

/-- A write whose names are clear and whose payload is shown to its end is bound, unless it is an insert. -/
theorem write_bound (hlex : Lexical input) (hrun : docRunTool parseExtJson .docWrite input = some call)
    (hlegible : DocLegible .docWrite input) :
    Bound (assessDocWrite .docWrite) (docRunTool parseExtJson .docWrite) input := by
  obtain ⟨hinsert, hclear, hwhole⟩ := hlegible
  obtain ⟨hverdict, hcall⟩ := docRunTool_some hrun
  obtain ⟨w, hw, rfl⟩ := docApplyWrite_some hcall
  intro other hlex' hsame
  obtain ⟨sql, hsql⟩ : ∃ sql, assessWriteOp input = .needsApproval sql := by
    have hverdict : ∀ why, assessWriteOp input ≠ .reject why := hverdict
    unfold assessWriteOp at hverdict ⊢
    dsimp only at hverdict ⊢
    split_ifs at hverdict ⊢ <;> first | exact ⟨_, rfl⟩ | exact absurd rfl (hverdict _)
  have hsame' : assessWriteOp other = assessWriteOp input := hsame
  rw [docRunTool_eq hverdict, docRunTool_eq fun why => hsame ▸ hverdict why]
  suffices hproposed : proposedWrite parseExtJson other = proposedWrite parseExtJson input by
    rw [docCall, docCall, docApplyWrite, docApplyWrite, hproposed, hsame']
  have hprompt := assessWriteOp_prompt hsql
  have hother := assessWriteOp_prompt (hsame'.trans hsql)
  have hnames (h : shownPlace input = shownPlace other) :
      rawName "db" other = rawName "db" input ∧ rawName "coll" other = rawName "coll" input := by
    rw [shownPlace_eq, shownPlace_eq] at h
    exact hclear.inj h.symm
  have hverb {a b x y : Text} (h : a ++ x = b ++ y) (hab : ¬ (a <+: b ∨ b <+: a)) : False :=
    hab (prefix_of_append_eq h)
  cases hprompt with
  | insert hop => exact absurd hop hinsert
  | @replace f hop hfilter =>
    have hdocument : ∃ v, get "document" input = some v := by
      rw [proposedWrite, ← opField, hop] at hw
      obtain ⟨id, -, hw⟩ := Option.bind_eq_some_iff.mp hw
      obtain ⟨doc, hdoc, -⟩ := Option.map_eq_some_iff.mp hw
      obtain ⟨v, hv, -⟩ := Option.bind_eq_some_iff.mp hdoc
      exact get_of_docArgValue hv
    obtain ⟨v, hv⟩ := hdocument
    generalize hrest : "REPLACE document in ".toList ++ matching (shownPlace input) (compact f) false
      (payload "document" input) = rest at hother
    cases hother with
    | insert _ | update _ _ | delete _ _ => exact (hverb hrest (by decide)).elim
    | @replace f' hop' hfilter' =>
      obtain ⟨hplace, rfl, -, hv'⟩ := matching_inj hlex hlex' (lexical_get hlex hfilter) (lexical_get hlex' hfilter') hv
        (hwhole _ v (Or.inr ⟨hop, rfl⟩) hv) (List.append_cancel_left hrest)
      obtain ⟨hdb, hcoll⟩ := hnames hplace
      rw [proposedWrite, proposedWrite, ← opField, ← opField, hop, hop', hdb, hcoll,
        docArgValue_congr (hv'.trans hv.symm), docArgValue_congr (hfilter'.trans hfilter.symm)]
      rfl
  | @update f hop hfilter =>
    have hupdate : ∃ v, get "update" input = some v := by
      rw [proposedWrite, ← opField, hop] at hw
      obtain ⟨filter, -, hw⟩ := Option.bind_eq_some_iff.mp hw
      obtain ⟨patch, hpatch, -⟩ := Option.map_eq_some_iff.mp hw
      exact get_of_docArgValue hpatch
    obtain ⟨v, hv⟩ := hupdate
    generalize hrest : "UPDATE ".toList ++ matching (shownPlace input) (compact f) (manyField input)
      (payload "update" input) = rest at hother
    cases hother with
    | insert _ | replace _ _ | delete _ _ => exact (hverb hrest (by decide)).elim
    | @update f' hop' hfilter' =>
      obtain ⟨hplace, rfl, hmany, hv'⟩ := matching_inj hlex hlex' (lexical_get hlex hfilter)
        (lexical_get hlex' hfilter') hv (hwhole _ v (Or.inl ⟨hop, rfl⟩) hv) (List.append_cancel_left hrest)
      obtain ⟨hdb, hcoll⟩ := hnames hplace
      rw [proposedWrite, proposedWrite, ← opField, ← opField, hop, hop', hdb, hcoll, ← hmany,
        docArgValue_congr (hv'.trans hv.symm), docArgValue_congr (hfilter'.trans hfilter.symm)]
      rfl
  | @delete f hop hfilter =>
    generalize hrest : "DELETE from ".toList ++ matching (shownPlace input) (compact f) (manyField input) [] = rest
      at hother
    cases hother with
    | insert _ | replace _ _ | update _ _ => exact (hverb hrest (by decide)).elim
    | @delete f' hop' hfilter' =>
      have hf := lexical_get hlex hfilter
      have hf' := lexical_get hlex' hfilter'
      have htail := List.append_cancel_left hrest
      rw [matching, matching, List.append_nil, List.append_nil] at htail
      obtain ⟨hplace, hcompact, hmany⟩ := filter_inj (closed_compact hf) (closed_compact hf') (compact_ne_nil hf)
        (compact_ne_nil hf') htail
      obtain ⟨hdb, hcoll⟩ := hnames (List.append_cancel_right hplace)
      obtain rfl := compact_inj hf hf' hcompact
      rw [proposedWrite, proposedWrite, ← opField, ← opField, hop, hop', hdb, hcoll, ← hmany,
        docArgValue_congr (hfilter'.trans hfilter.symm)]
      rfl

/-- **Which calls of the document tools their prompts bind**. -/
theorem doc_bound (hlex : Lexical input) (hrun : docRunTool parseExtJson tool input = some call) :
    (DocLegible tool input → Bound (assessDocWrite tool) (docRunTool parseExtJson tool) input) ∧
      (Bound (assessDocWrite tool) (docRunTool parseExtJson tool) input →
        DocLegible tool input ∨ tool = .docWrite ∧ ¬ PayloadWhole input) := by
  cases tool with
  | docWrite =>
    refine ⟨write_bound hlex hrun, fun hbound => ?_⟩
    by_cases hwhole : PayloadWhole input
    · exact Or.inl ⟨fun hop => insert_not_bound hop hrun hbound, clear_of_bound hlex hrun hbound, hwhole⟩
    · exact Or.inr ⟨rfl, hwhole⟩
  | index => exact ⟨False.elim, fun hbound => (index_not_bound hlex hrun hbound).elim⟩
  | collectionOp =>
    exact ⟨(collectionOp_bound_iff hlex hrun).mpr, fun h => Or.inl ((collectionOp_bound_iff hlex hrun).mp h)⟩
  | killOp => exact ⟨(killOp_bound_iff hrun).mpr, fun h => Or.inl ((killOp_bound_iff hrun).mp h)⟩

end Doc

end RedDb.Approval
