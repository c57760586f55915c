import RedDb.Sql.CountPreflight

/-!
# RedDb — the rows a proposed write would change

`write_target` is the other scanner that reads a statement for its table and its predicate:
the preview the user approves the agent's write on is a `SELECT` of the two. It takes what
stands behind the first `WHERE` up to the next `ORDER` or `RETURNING`, or else up to the end.

* `writeTarget` — the table and the predicate;
* `writeTarget_eq_none_iff` — when there is no preview;
* `Write.writeTarget_script` — what is read of a statement, and of what stands behind it.
-/

namespace RedDb.Sql

open ByteText

/-! ## The target -/

/-- The table a write names, and the text of its predicate. -/
structure WriteTarget where
  table : Bytes
  predicate : Bytes
  deriving DecidableEq

/-- The predicate as it stands between two offsets, trimmed and without a last `;`. -/
def tidy (b : Bytes) : Bytes := trim (trimEndMatches semicolon (trim b))

/-- Whether the text in front of the `WHERE` has one table in it only. -/
def oneTableHead (verb lower head : Bytes) : Bool :=
  if verb == ascii "update" then
    match topLevelWord head (ascii "set") with
    | none => false
    | some setAt => (topLevelWord head (ascii "from")).isNone &&
        (topLevelComma (lower.take setAt)).isNone
  else (topLevelComma head).isNone

/-- The first offset behind the `WHERE` at which the predicate is cut off. -/
def predicateEnd (lower : Bytes) (whereAt : Nat) : Nat :=
  ((([ascii "returning", ascii "order"].filterMap (topLevelWord lower)).filter fun at' =>
    decide (whereAt < at')).min?).getD lower.length

/-- The table and the predicate of a single write, or none where there is no preview. -/
def writeTarget (sql : Bytes) (d : Dialect) : Option WriteTarget :=
  let lower := copy d sql
  let verb := asciiLower (firstKeyword (stripNoise sql d))
  if verb != ascii "update" && verb != ascii "delete" then none
  else (topLevelWord lower (ascii "where")).bind fun whereAt =>
    let head := lower.take whereAt
    if (topLevelWord head (ascii "join")).isSome || (topLevelWord head (ascii "using")).isSome then none
    else if !oneTableHead verb lower head then none
    else if (topLevelWord lower (ascii "limit")).any fun at' => decide (whereAt < at') then none
    else
      let predicate := tidy (slice sql (whereAt + 5) (predicateEnd lower whereAt))
      if predicate.isEmpty then none
      else (targetObject sql).map fun table => { table := table, predicate := predicate }

/-- The query of the preview. -/
def WriteTarget.preview (t : WriteTarget) : Bytes :=
  ascii "SELECT * FROM " ++ (t.table ++ (ascii " WHERE " ++ t.predicate))

/-! ## No preview -/

/-- The reasons for which there is no preview, each by what the scanners find. -/
def NoTarget (d : Dialect) (sql : Bytes) : Prop :=
  (asciiLower (firstKeyword (stripNoise sql d)) ≠ ascii "update" ∧
    asciiLower (firstKeyword (stripNoise sql d)) ≠ ascii "delete") ∨
  targetObject sql = none ∨
  ∀ whereAt ∈ topLevelWord (copy d sql) (ascii "where"),
    (topLevelWord ((copy d sql).take whereAt) (ascii "join")).isSome = true ∨
    (topLevelWord ((copy d sql).take whereAt) (ascii "using")).isSome = true ∨
    oneTableHead (asciiLower (firstKeyword (stripNoise sql d))) (copy d sql)
      ((copy d sql).take whereAt) = false ∨
    (∃ at' ∈ topLevelWord (copy d sql) (ascii "limit"), whereAt < at') ∨
    tidy (slice sql (whereAt + 5) (predicateEnd (copy d sql) whereAt)) = []

theorem writeTarget_eq_none_iff {sql : Bytes} {d : Dialect} :
    writeTarget sql d = none ↔ NoTarget d sql := by
  unfold writeTarget NoTarget
  dsimp only
  by_cases hverb : (asciiLower (firstKeyword (stripNoise sql d)) != ascii "update" &&
      asciiLower (firstKeyword (stripNoise sql d)) != ascii "delete") = true
  · rw [if_pos hverb]
    rw [Bool.and_eq_true, bne_iff_ne, bne_iff_ne] at hverb
    exact ⟨fun _ => Or.inl hverb, fun _ => rfl⟩
  rw [if_neg hverb]
  rw [Bool.and_eq_true, bne_iff_ne, bne_iff_ne] at hverb
  rw [or_iff_right hverb, Option.bind_eq_none_iff]
  constructor
  · intro h
    by_cases hobject : targetObject sql = none
    · exact Or.inl hobject
    refine Or.inr fun whereAt hwhere => ?_
    have hnone := h whereAt hwhere
    split at hnone
    · rename_i hwords
      rw [Bool.or_eq_true] at hwords
      exact hwords.elim Or.inl fun husing => Or.inr (Or.inl husing)
    split at hnone
    · rename_i hhead
      exact Or.inr (Or.inr (Or.inl (Bool.not_eq_true' _ |>.mp hhead)))
    split at hnone
    · rename_i hlimit
      rw [Option.any_eq_true] at hlimit
      obtain ⟨at', hat, hlt⟩ := hlimit
      exact Or.inr (Or.inr (Or.inr (Or.inl ⟨at', hat, of_decide_eq_true hlt⟩)))
    split at hnone
    · rename_i hempty
      exact Or.inr (Or.inr (Or.inr (Or.inr (List.isEmpty_iff.mp hempty))))
    · exact absurd (Option.map_eq_none_iff.mp hnone) hobject
  · rintro (hobject | h) whereAt hwhere
    · rw [hobject]
      split_ifs <;> rfl
    · -- the reasons, in the order in which they are asked
      by_cases hwords : ((topLevelWord ((copy d sql).take whereAt) (ascii "join")).isSome ||
          (topLevelWord ((copy d sql).take whereAt) (ascii "using")).isSome) = true
      · rw [if_pos hwords]
      rw [if_neg hwords]
      by_cases hhead : (!oneTableHead (asciiLower (firstKeyword (stripNoise sql d))) (copy d sql)
          ((copy d sql).take whereAt)) = true
      · rw [if_pos hhead]
      rw [if_neg hhead]
      by_cases hlimit : ((topLevelWord (copy d sql) (ascii "limit")).any fun at' =>
          decide (whereAt < at')) = true
      · rw [if_pos hlimit]
      rw [if_neg hlimit]
      rw [Bool.or_eq_true, not_or] at hwords
      rcases h whereAt hwhere with hjoin | husing | hno | ⟨at', hat, hlt⟩ | hempty
      · exact absurd hjoin hwords.1
      · exact absurd husing hwords.2
      · rw [hno] at hhead
        exact absurd rfl hhead
      · rw [Option.any_eq_true] at hlimit
        exact absurd ⟨at', hat, decide_eq_true hlt⟩ hlimit
      · rw [hempty]
        rfl

/-! ## What is left of a predicate -/

/-- What may stand behind a predicate and is taken off: blanks, and one run of `;` among them. -/
def Closing (b : Bytes) : Prop :=
  ∃ lead k trail, Blank lead ∧ Blank trail ∧ b = lead ++ (List.replicate k semicolon ++ trail)

/-- Only what stands behind a predicate is taken off. -/
theorem tidy_eq {s : UInt8} (hs : s ∈ separators) {p : Bytes} (hne : p ≠ []) (htrim : trim p = p)
    (hlast : p.getLast? ≠ some semicolon) {rest : Bytes} (hrest : ∀ c ∈ rest.head?, c < 0x80) :
    tidy (s :: (p ++ rest)) = p ++ trimEnd (trimEndMatches semicolon (trimEnd rest)) := by
  have hblank : Blank [s] := by
    refine Blank.cons (IsBlank.one ?_) Blank.nil
    revert s
    decide
  have hend := trimEnd_of_trim htrim
  have hfirst : trim (s :: (p ++ rest)) = p ++ trimEnd rest := by
    rw [trim, ← List.singleton_append, trimStart_append hblank, trimStart_ascii hne htrim hrest,
      trimEnd_ascii hend hrest]
  have hcut : ∀ c ∈ (trimEndMatches semicolon (trimEnd rest)).head?, c < 0x80 := by
    obtain ⟨q, -, hspec⟩ := trimEnd_spec rest
    obtain ⟨k, hk⟩ := trimEndMatches_spec semicolon (trimEnd rest)
    intro c hc
    refine hrest c ?_
    rw [hspec, hk, List.append_assoc, List.head?_append, Option.mem_def.mp hc]
    rfl
  rw [tidy, hfirst, trimEndMatches_append hlast, trim, trimStart_ascii hne htrim hcut,
    trimEnd_ascii hend hcut]

/-- **A predicate is left as it is** exactly if nothing but a closing stands behind it. -/
theorem closing_iff {rest : Bytes} :
    trimEnd (trimEndMatches semicolon (trimEnd rest)) = [] ↔ Closing rest := by
  constructor
  · intro h
    obtain ⟨q, hq, hspec⟩ := trimEnd_spec rest
    obtain ⟨k, hk⟩ := trimEndMatches_spec semicolon (trimEnd rest)
    obtain ⟨q', hq', hspec'⟩ := trimEnd_spec (trimEndMatches semicolon (trimEnd rest))
    rw [h, List.nil_append] at hspec'
    refine ⟨_, k, q, hspec' ▸ hq', hq, ?_⟩
    rw [← List.append_assoc, ← hk, ← hspec]
  · rintro ⟨lead, k, trail, hlead, htrail, rfl⟩
    have hgone : trimEnd lead = [] := by
      have := trimEnd_append hlead []
      rwa [List.nil_append] at this
    have hkeep : lead.getLast? ≠ some semicolon := by
      intro hlast
      have := hlead.bytes semicolon (List.mem_of_getLast? hlast)
      exact absurd this (by decide)
    rw [← List.append_assoc, trimEnd_append htrail]
    cases k with
    | zero =>
      rw [List.replicate_zero, List.append_nil, hgone]
      rfl
    | succ k =>
      have hsemi : trimEnd (lead ++ List.replicate (k + 1) semicolon) =
          lead ++ List.replicate (k + 1) semicolon := by
        obtain ⟨t', q, -, hnil, htrim⟩ := trimEnd_behind (lead ++ List.replicate k semicolon)
          (c := semicolon) (by decide) []
        rw [(List.append_eq_nil_iff.mp hnil.symm).1] at htrim
        rw [List.replicate_succ', ← List.append_assoc]
        exact htrim
      have hall : trimEndMatches semicolon (List.replicate (k + 1) semicolon) = [] := by
        unfold trimEndMatches
        rw [List.reverse_replicate, List.dropWhile_eq_nil_iff.mpr]
        · rfl
        · intro x hx
          rw [(List.mem_replicate.mp hx).2]
          rfl
      rw [hsemi, trimEndMatches_append hkeep, hall, List.append_nil, hgone]

/-! ## The target of a statement -/

/-- The words that cut a predicate off, in what stands behind it. -/
def clauseCut (d : Dialect) (rest : Bytes) : Nat :=
  (([ascii "returning", ascii "order"].filterMap (topLevelWord (copy d rest))).min?).getD rest.length

/-- No comment stands between the predicate and what is around it: one that does is part of the
predicate. -/
structure Layout.Close (l : Layout) : Prop where
  predicate : (l.gap .predicate).comments = []
  order : (l.gap .order).comments = []
  returning : (l.gap .returning).comments = []

namespace Write

/-- What stands behind the predicate. -/
def afterPredicate (l : Layout) (w : Write) (ending : List (UInt8 × Bytes)) : Bytes :=
  tails (w.tail l ++ ending)

/-- The statements without a preview, of those with a filter: a `DELETE` with a modifier, a name of
which nothing can be read, an `UPDATE` whose assignments say `FROM`, and a `LIMIT` behind the
predicate. -/
def Untargeted (d : Dialect) (l : Layout) (w : Write) (ending : List (UInt8 × Bytes)) : Prop :=
  (w.assignments = none ∧ w.modifiers ≠ []) ∨
    (w.modifiers = [] ∧ BreaksOff w.table.first w.table.rest) ∨
    (∃ a ∈ w.assignments, (topLevelWord (copy d a) (ascii "from")).isSome = true) ∨
    (topLevelWord (copy d (w.afterPredicate l ending)) (ascii "limit")).isSome = true

section Script

variable {d : Dialect} {l : Layout} {w : Write} {ending : List (UInt8 × Bytes)} {p : Bytes}
  (hl : l.WellFormed d) (hw : w.WellFormed d) (hend : Stretched d ending)
  (hfilter : w.filter = some p)

include hl hw hend

theorem verb_script : asciiLower (firstKeyword (stripNoise (w.script l ending) d)) = w.verb.name := by
  obtain ⟨v, hv, hled⟩ := (led hl hw hend).of_lower
  have hletters : ∀ c ∈ w.verb.name, isAsciiAlphabetic c = true := by
    unfold verb
    split <;> decide
  have hletters' : ∀ c ∈ v, isAsciiAlphabetic c = true := by
    intro c hc
    rw [← isAsciiAlphabetic_lower]
    exact hletters _ (hv ▸ List.mem_map_of_mem hc)
  have hkeyword : IsKeyword v := by
    refine ⟨⟨?_, fun c hc => ?_⟩, fun c hc => hletters' c (List.mem_of_mem_head? hc)⟩
    · rintro rfl
      revert hv
      unfold verb
      split <;> decide
    · simp [isWordByte, isAsciiAlphanumeric, hletters' c hc]
  rw [hled.firstKeyword hkeyword, List.takeWhile_eq_self_iff.mpr hletters', hv]

include hfilter

/-- The text in front of the `WHERE`, as its scanners see it. -/
theorem head_script : (copy d (w.script l ending)).take
        ((behind l.lead (spaced (l.word w.verb) (w.whereFront l))).length + 1) =
      copy d (behind l.lead (spaced (l.word w.verb)
        (w.whereFront l ++ [((l.gap .whereRows).blank, [])]))) ∧
      Sound d l.lead (l.word w.verb) (w.whereFront l ++ [((l.gap .whereRows).blank, [])]) := by
  have hsound := sound_script hl hw hend
  rw [pieces_where hfilter] at hsound
  rw [script, pieces_where hfilter]
  exact hsound.take_copy

theorem head_quiet {word : Bytes} (hword : word ∈ clauseWords)
    (hset : word = ascii "set" → w.assignments = none)
    (hfrom : word = ascii "from" → w.assignments.isSome = true ∧
      ∀ a ∈ w.assignments, topLevelWord (copy d a) word = none) :
    topLevelWord ((copy d (w.script l ending)).take
      ((behind l.lead (spaced (l.word w.verb) (w.whereFront l))).length + 1)) word = none := by
  obtain ⟨htake, hsound⟩ := head_script hl hw hend hfilter
  rw [htake]
  refine hsound.word_none (verb_quiet hl hword) ((whereFront_quiet hl hw hword hset hfrom).append ?_)
  intro q hq
  rw [List.mem_singleton.mp hq]
  rfl

omit hl hw hend hfilter in
theorem whereFront_set {a : Bytes} (hset : w.assignments = some a) :
    w.whereFront l = w.setFront l ++ ((l.gap .setColumns).blank, l.word .setColumns) ::
      (l.piece .assignments a ++ l.remarks .whereRows) := by
  rw [whereFront, setFront, setClause, hset, Option.elim_some, Layout.piece_eq l .setColumns]
  simp only [List.append_assoc, List.cons_append, List.nil_append]

/-- **One table in front of the `WHERE`:** what can hide another is a `FROM` of the assignments. -/
theorem oneTableHead_script :
    oneTableHead w.verb.name (copy d (w.script l ending)) ((copy d (w.script l ending)).take
        ((behind l.lead (spaced (l.word w.verb) (w.whereFront l))).length + 1)) = true ↔
      ∀ a ∈ w.assignments, topLevelWord (copy d a) (ascii "from") = none := by
  obtain ⟨htake, hsound⟩ := head_script hl hw hend hfilter
  cases hset : w.assignments with
  | none =>
    have hverb : (w.verb.name == ascii "update") = false := by
      rw [verb, hset]
      decide
    have hsingle : Single d (w.whereFront l ++ [((l.gap .whereRows).blank, [])]) := by
      refine (((((beforeTable_single hl hw).append ((piece_single hl .table hw.table.noComma).append
        (behindTable_single hl hw)))).append ?_).append (remarks_single hl .whereRows)).append ?_
      · unfold setClause
        rw [hset]
        exact single_nil
      · intro q hq
        rw [List.mem_singleton.mp hq]
        rfl
    unfold oneTableHead
    rw [hverb, if_neg Bool.false_ne_true, htake, hsound.comma_none (word_single hl _) hsingle]
    exact ⟨fun _ a ha => (Option.some_ne_none a ha.symm).elim, fun _ => rfl⟩
  | some a =>
    have hverb : (w.verb.name == ascii "update") = true := by
      rw [verb, hset]
      rfl
    have hat : topLevelWord ((copy d (w.script l ending)).take
        ((behind l.lead (spaced (l.word w.verb) (w.whereFront l))).length + 1)) (ascii "set") =
          some ((behind l.lead (spaced (l.word w.verb) (w.setFront l))).length + 1) := by
      rw [htake]
      rw [whereFront_set hset, List.append_assoc, List.cons_append] at hsound ⊢
      refine hsound.word_at (i := 0) (verb_quiet hl (by decide))
        (setFront_quiet hl hw (by decide) fun h => absurd h (by decide)) ?_
      rw [hl.copy_word]
      decide
    have hcomma : topLevelComma ((copy d (w.script l ending)).take
        ((behind l.lead (spaced (l.word w.verb) (w.setFront l))).length + 1)) = none := by
      have hwhole := sound_script hl hw hend
      have hsplit : w.pieces l ++ ending = w.setFront l ++
          ((l.gap .setColumns).blank, l.word .setColumns) ::
            (l.piece .assignments a ++ (w.whereClause l ++ w.tail l) ++ ending) := by
        rw [pieces_set hset, List.append_assoc, List.cons_append]
      rw [hsplit] at hwhole
      obtain ⟨htakeSet, hfront⟩ := hwhole.take_copy
      rw [script, hsplit, htakeSet]
      refine hfront.comma_none (word_single hl _) ((setFront_single hl hw).append fun q hq => ?_)
      rw [List.mem_singleton.mp hq]
      rfl
    have hfromIff : (topLevelWord ((copy d (w.script l ending)).take
        ((behind l.lead (spaced (l.word w.verb) (w.whereFront l))).length + 1))
          (ascii "from")).isNone = true ↔ topLevelWord (copy d a) (ascii "from") = none := by
      rw [Option.isNone_iff_eq_none]
      constructor
      · intro hnone
        rw [htake, ← Option.not_isSome_iff_eq_none, hsound.word_isSome] at hnone
        rw [← Option.not_isSome_iff_eq_none]
        intro hsaid
        refine hnone (Or.inr ⟨((l.gap .assignments).blank, a), ?_, hsaid⟩)
        refine List.mem_append_left _ (List.mem_append_left _ (List.mem_append_right _ ?_))
        unfold setClause
        rw [hset]
        exact List.mem_append_right _ (mem_piece l .assignments a)
      · intro hnone
        refine head_quiet hl hw hend hfilter (by decide) (fun h => absurd h (by decide)) fun _ => ?_
        rw [hset]
        exact ⟨rfl, fun b hb => Option.some.inj hb ▸ hnone⟩
    unfold oneTableHead
    rw [if_pos hverb, hat]
    dsimp only
    rw [hcomma, Option.isNone_none, Bool.and_true, hfromIff]
    exact ⟨fun h b hb => Option.some.inj hb ▸ h, fun h => h a rfl⟩

variable (hclose : l.Close)

include hclose

omit hl hw hend in
/-- The text up to the predicate, and from there on. -/
theorem script_predicate :
    w.pieces l ++ ending = (w.whereFront l ++ [((l.gap .whereRows).blank, l.word .whereRows)]) ++
      ((l.gap .predicate).blank, p) :: (w.tail l ++ ending) := by
  rw [pieces_where hfilter, Layout.piece_eq, Layout.remarks, hclose.predicate]
  simp

omit hw hend hfilter hclose in
theorem length_where : (behind l.lead (spaced (l.word w.verb)
      (w.whereFront l ++ [((l.gap .whereRows).blank, l.word .whereRows)]))).length =
        (behind l.lead (spaced (l.word w.verb) (w.whereFront l))).length + 1 + 5 := by
  have hword : (l.word .whereRows).length = 5 := by
    have := congrArg List.length (hl.word .whereRows)
    rwa [asciiLower, List.length_map] at this
  rw [spaced_append, behind_append, List.length_append, List.length_cons, spaced, hword]

/-- A word of the clauses behind the predicate. -/
theorem word_after {word : Bytes}
    (hword : word = ascii "returning" ∨ word = ascii "order" ∨ word = ascii "limit") :
    topLevelWord (copy d (w.script l ending)) word =
      (topLevelWord (copy d (w.afterPredicate l ending)) word).map
        ((behind l.lead (spaced (l.word w.verb) (w.whereFront l))).length + 1 + 5 + 1 + p.length + ·) := by
  have hclause : word ∈ clauseWords := by rcases hword with rfl | rfl | rfl <;> decide
  have hne : word ≠ ascii "set" ∧ word ≠ ascii "from" ∧ word ≠ ascii "where" := by
    rcases hword with rfl | rfl | rfl <;> decide
  have hsound := sound_script hl hw hend
  rw [script_predicate hfilter hclose] at hsound
  rw [script, script_predicate hfilter hclose, hsound.word_behind (verb_quiet hl hclause) ?_ ?_,
    length_where hl]
  · rfl
  · refine (whereFront_quiet hl hw hclause (fun h => absurd h hne.1)
      fun h => absurd h hne.2.1).append fun q hq => ?_
    rw [List.mem_singleton.mp hq]
    exact word_quiet hl _ hclause hne.2.2
  · exact (hw.filter p hfilter).lacks word (expression_of_clause hclause hne.2.1)

/-- **Where the predicate is cut off.** -/
theorem predicateEnd_script : predicateEnd (copy d (w.script l ending))
        ((behind l.lead (spaced (l.word w.verb) (w.whereFront l))).length + 1) =
      (behind l.lead (spaced (l.word w.verb) (w.whereFront l))).length + 1 + 5 + 1 + p.length +
        clauseCut d (w.afterPredicate l ending) := by
  have hlen : (copy d (w.script l ending)).length =
      (behind l.lead (spaced (l.word w.verb) (w.whereFront l))).length + 1 + 5 + 1 + p.length +
        (w.afterPredicate l ending).length := by
    rw [length_copy, script, script_predicate hfilter hclose, spaced_append, behind_append,
      List.length_append, length_where hl, List.length_cons, spaced_eq p, List.length_append]
    unfold afterPredicate
    omega
  unfold predicateEnd clauseCut
  rw [List.filterMap_cons, List.filterMap_cons, List.filterMap_cons, List.filterMap_cons,
    word_after hl hw hend hfilter hclose (Or.inl rfl),
    word_after hl hw hend hfilter hclose (Or.inr (Or.inl rfl)), hlen]
  have hlt : ∀ m, decide ((behind l.lead (spaced (l.word w.verb) (w.whereFront l))).length + 1 <
      (behind l.lead (spaced (l.word w.verb) (w.whereFront l))).length + 1 + 5 + 1 + p.length + m) =
        true := by
    intro m
    exact decide_eq_true (by omega)
  cases topLevelWord (copy d (w.afterPredicate l ending)) (ascii "returning") with
  | none =>
    cases topLevelWord (copy d (w.afterPredicate l ending)) (ascii "order") with
    | none => rfl
    | some n => simp only [Option.map_none, Option.map_some, List.filterMap_nil, List.filter_cons,
        hlt, if_true, List.filter_nil, List.min?_singleton, Option.getD_some]
  | some m =>
    cases topLevelWord (copy d (w.afterPredicate l ending)) (ascii "order") with
    | none => simp only [Option.map_none, Option.map_some, List.filterMap_nil, List.filter_cons,
        hlt, if_true, List.filter_nil, List.min?_singleton, Option.getD_some]
    | some n =>
      simp only [Option.map_some, List.filterMap_nil, List.filter_cons, hlt, if_true,
        List.filter_nil, List.min?_cons, List.min?_nil, Option.elim_none, Option.elim_some,
        Option.getD_some]
      omega

omit hw hend in
/-- **What is read for the predicate**, before it is tidied. -/
theorem slice_script (cut : Nat) : slice (w.script l ending)
        ((behind l.lead (spaced (l.word w.verb) (w.whereFront l))).length + 1 + 5)
        ((behind l.lead (spaced (l.word w.verb) (w.whereFront l))).length + 1 + 5 + 1 + p.length +
          cut) = (l.gap .predicate).blank :: (p ++ (w.afterPredicate l ending).take cut) := by
  have hshape : w.script l ending = behind l.lead (spaced (l.word w.verb)
      (w.whereFront l ++ [((l.gap .whereRows).blank, l.word .whereRows)])) ++
        ((l.gap .predicate).blank :: (p ++ w.afterPredicate l ending)) := by
    rw [script, script_predicate hfilter hclose, spaced_append, behind_append, spaced_eq p]
    rfl
  have hlen := length_where (w := w) hl
  rw [hshape, slice, ← hlen, List.take_append, List.take_of_length_le (by omega),
    List.drop_left]
  have htake : (behind l.lead (spaced (l.word w.verb) (w.whereFront l ++
      [((l.gap .whereRows).blank, l.word .whereRows)]))).length + 1 + p.length + cut -
        (behind l.lead (spaced (l.word w.verb) (w.whereFront l ++
          [((l.gap .whereRows).blank, l.word .whereRows)]))).length = (p.length + cut) + 1 := by
    omega
  rw [htake, List.take_succ_cons, List.take_append, List.take_of_length_le (by omega),
    Nat.add_sub_cancel_left]

/-- The predicate, with what behind it is not taken off. -/
theorem tidy_script : tidy (slice (w.script l ending)
        ((behind l.lead (spaced (l.word w.verb) (w.whereFront l))).length + 1 + 5)
        (predicateEnd (copy d (w.script l ending))
          ((behind l.lead (spaced (l.word w.verb) (w.whereFront l))).length + 1))) =
      p ++ trimEnd (trimEndMatches semicolon (trimEnd ((w.afterPredicate l ending).take
        (clauseCut d (w.afterPredicate l ending))))) := by
  have hp := hw.filter p hfilter
  have hascii : ∀ s ∈ followers, s < 0x80 := by decide
  rw [predicateEnd_script hl hw hend hfilter hclose, slice_script hl hfilter hclose]
  refine tidy_eq (hl.gap .predicate).blank hp.nonempty hp.trimmed hp.noSemicolon fun c hc => ?_
  have hafter : Stretched d (w.tail l ++ ending) := (tail_stretched hl hw).append hend
  unfold afterPredicate at hc
  cases hxs : w.tail l ++ ending with
  | nil =>
    rw [hxs, tails, List.take_nil] at hc
    cases hc
  | cons q more =>
    rw [hxs] at hafter hc
    have hq := hascii _ (hafter q List.mem_cons_self).1
    cases hcut : clauseCut d (tails (q :: more)) with
    | zero =>
      rw [hcut] at hc
      cases hc
    | succ k =>
      rw [hcut] at hc
      rw [← Option.some.inj hc]
      exact hq

variable (hdot : NoDot ending)

include hdot

/-- **A statement without a preview.** -/
theorem writeTarget_untargeted (h : w.Untargeted d l ending) :
    writeTarget (w.script l ending) d = none := by
  rw [writeTarget_eq_none_iff]
  unfold NoTarget
  rw [verb_script hl hw hend, targetObject_script hl hw hend hdot]
  rcases h with ⟨hdelete, hmodifiers⟩ | ⟨hnone, hbreaks⟩ | ⟨a, ha, hfrom⟩ | hlimit
  · refine Or.inr (Or.inl ?_)
    unfold objectRead
    cases hms : w.modifiers with
    | nil => exact absurd hms hmodifiers
    | cons m ms =>
      rw [hdelete]
      rfl
  · refine Or.inr (Or.inl ?_)
    rw [objectRead, hnone]
    exact spelled_eq_none_iff.mpr hbreaks
  · refine Or.inr (Or.inr fun whereAt hwhere => ?_)
    rw [where_at hl hw hfilter hend, Option.mem_some_iff] at hwhere
    subst hwhere
    refine Or.inr (Or.inr (Or.inl ?_))
    rw [Bool.eq_false_iff, ne_eq, oneTableHead_script hl hw hend hfilter]
    intro hall
    rw [hall a ha] at hfrom
    exact Bool.noConfusion hfrom
  · refine Or.inr (Or.inr fun whereAt hwhere => ?_)
    rw [where_at hl hw hfilter hend, Option.mem_some_iff] at hwhere
    subst hwhere
    obtain ⟨n, hn⟩ := Option.isSome_iff_exists.mp hlimit
    refine Or.inr (Or.inr (Or.inr (Or.inl ⟨(behind l.lead (spaced (l.word w.verb)
      (w.whereFront l))).length + 1 + 5 + 1 + p.length + n, ?_, ?_⟩)))
    · rw [word_after hl hw hend hfilter hclose (Or.inr (Or.inr rfl)), hn]
      rfl
    · omega

/-- **A statement with a preview**, and what is read of it. -/
theorem writeTarget_script (h : ¬ w.Untargeted d l ending) :
    ∃ table ∈ w.objectRead, writeTarget (w.script l ending) d = some
      { table := table
        predicate := p ++ trimEnd (trimEndMatches semicolon (trimEnd ((w.afterPredicate l ending).take
          (clauseCut d (w.afterPredicate l ending))))) } := by
  unfold Untargeted at h
  rw [not_or, not_or, not_or] at h
  obtain ⟨hdelete, hbreaks, hfrom, hlimit⟩ := h
  obtain ⟨table, htable⟩ : ∃ table, w.objectRead = some table :=
    Option.ne_none_iff_exists'.mp fun hnone => (objectRead_eq_none_iff.mp hnone).elim hdelete hbreaks
  refine ⟨table, htable, ?_⟩
  have hverb : ¬ (w.verb.name != ascii "update" && w.verb.name != ascii "delete") = true := by
    unfold verb
    split <;> decide
  have hhead := (oneTableHead_script hl hw hend hfilter).mpr fun a ha => by
    rw [← Option.not_isSome_iff_eq_none]
    exact fun hsaid => hfrom ⟨a, ha, hsaid⟩
  have hnolimit : topLevelWord (copy d (w.script l ending)) (ascii "limit") = none := by
    rw [word_after hl hw hend hfilter hclose (Or.inr (Or.inr rfl)),
      Option.not_isSome_iff_eq_none.mp hlimit]
    rfl
  have hp := hw.filter p hfilter
  unfold writeTarget
  dsimp only
  rw [verb_script hl hw hend, if_neg hverb, where_at hl hw hfilter hend, Option.bind_some,
    head_quiet hl hw hend hfilter (by decide) (fun h => absurd h (by decide))
      (fun h => absurd h (by decide)),
    head_quiet hl hw hend hfilter (by decide) (fun h => absurd h (by decide))
      (fun h => absurd h (by decide)), hhead, hnolimit, tidy_script hl hw hend hfilter hclose,
    targetObject_script hl hw hend hdot, htable]
  obtain ⟨c, u, hcons⟩ := List.exists_cons_of_ne_nil hp.nonempty
  rw [hcons]
  rfl

end Script

end Write

end RedDb.Sql
