import RedDb.Ai.Gate
import RedDb.Sql.WriteTarget

/-!
# RedDb — the preview a write is approved on

In front of the prompt the user answers, `preview_statement` counts and samples the rows of
`SELECT * FROM <table> WHERE <predicate>`, the two of which `write_target` has cut out of the
agent's statement. What is shown is measured against the rows an engine would change.

* `Refused` — what a statement is refused for by its words;
* `Previewed` — the promise of the prompt;
* `writeTarget_previews_iff` — for which statements it is kept.
-/

namespace RedDb.Ai

open ByteText RedDb.Sql

/-! ## Statements that are refused -/

/-- A second table in front of the `WHERE`: a `JOIN`, a `USING`, in an `UPDATE` a `FROM` or a comma
in front of the `SET`, in a `DELETE` a comma; or a `LIMIT` behind the `WHERE`. -/
def Refused (d : Dialect) (sql : Bytes) : Prop :=
  ∃ whereAt ∈ topLevelWord (copy d sql) (ascii "where"),
    (topLevelWord ((copy d sql).take whereAt) (ascii "join")).isSome = true ∨
    (topLevelWord ((copy d sql).take whereAt) (ascii "using")).isSome = true ∨
    (asciiLower (firstKeyword (stripNoise sql d)) = ascii "update" ∧
      ((topLevelWord ((copy d sql).take whereAt) (ascii "from")).isSome = true ∨
        ∃ setAt ∈ topLevelWord ((copy d sql).take whereAt) (ascii "set"),
          (topLevelComma ((copy d sql).take setAt)).isSome = true)) ∨
    (asciiLower (firstKeyword (stripNoise sql d)) = ascii "delete" ∧
      (topLevelComma ((copy d sql).take whereAt)).isSome = true) ∨
    ∃ at' ∈ topLevelWord (copy d sql) (ascii "limit"), whereAt < at'

/-- A statement with a second table, or with a limit, has no preview. -/
theorem writeTarget_refused {sql : Bytes} {d : Dialect} (h : Refused d sql) :
    writeTarget sql d = none := by
  obtain ⟨whereAt, hwhere, hwhy⟩ := h
  rw [writeTarget_eq_none_iff]
  refine Or.inr (Or.inr fun whereAt' hwhere' => ?_)
  obtain rfl : whereAt = whereAt' := Option.some.inj (hwhere.symm.trans hwhere')
  rcases hwhy with hjoin | husing | ⟨hverb, hsecond⟩ | ⟨hverb, hcomma⟩ | hlimit
  · exact Or.inl hjoin
  · exact Or.inr (Or.inl husing)
  · refine Or.inr (Or.inr (Or.inl ?_))
    rw [hverb, oneTableHead, if_pos (by decide)]
    rcases hsecond with hfrom | ⟨setAt, hset, hcomma⟩
    · obtain ⟨n, hn⟩ := Option.isSome_iff_exists.mp hfrom
      rw [hn]
      split <;> rfl
    · obtain ⟨n, hn⟩ := Option.isSome_iff_exists.mp hcomma
      rw [Option.mem_def.mp hset]
      dsimp only
      rw [hn, Option.isNone_some, Bool.and_false]
  · refine Or.inr (Or.inr (Or.inl ?_))
    obtain ⟨n, hn⟩ := Option.isSome_iff_exists.mp hcomma
    rw [hverb, oneTableHead, if_neg (by decide), hn, Option.isNone_some]
  · exact Or.inr (Or.inr (Or.inr (Or.inl hlimit)))

/-! ## The promise -/

/-- What is promised of a preview: its predicate is that of the statement, and where the statement
passes the gate its query is one over a table that on every engine and in every state of its
database has the rows the statement touches. -/
def Previewed (d : Dialect) (w : Write) (sql : Bytes) : Prop :=
  ∀ t, writeTarget sql d = some t → w.filter = some t.predicate ∧
    (writeShape sql d = .ok → ∃ table : Name, table.WellFormed ∧
      t.preview = ascii "SELECT * FROM " ++ (table.text ++ (ascii " WHERE " ++ t.predicate)) ∧
      ∀ (Db Row : Type) (e : Engine Db Row) (db : Db) (rows : List Row),
        e.chosen db w.selection = some rows →
          e.chosen db ({ table := table, filter := w.filter } : CountQuery).selection = some rows)

section Statement

variable {d : Dialect} {l : Layout} {w : Write} {ending : List (UInt8 × Bytes)} {p : Bytes}
  (hl : l.WellFormed d) (hw : w.WellFormed d) (hclose : l.Close) (hend : Ending d ending)

/-- What of the text behind the predicate is read for it. -/
def behindPredicate (d : Dialect) (l : Layout) (w : Write) (ending : List (UInt8 × Bytes)) : Bytes :=
  (w.afterPredicate l ending).take (clauseCut d (w.afterPredicate l ending))

/-- A statement without a preview is promised nothing. -/
theorem previewed_of_none {sql : Bytes} (h : writeTarget sql d = none) : Previewed d w sql := by
  intro t ht
  rw [h] at ht
  cases ht

include hl hw hclose hend

/-- A statement with a limit is one without a preview. -/
theorem limit_none (hfilter : w.filter = some p) (h : ¬ w.Untargeted d l ending) :
    w.limit = none := by
  cases hlimit : w.limit with
  | none => rfl
  | some t =>
    refine absurd (Or.inr (Or.inr (Or.inr ?_))) h
    have hsaid : (topLevelWord (copy d (w.script l ending)) (ascii "limit")).isSome = true := by
      refine ((Write.sound_script hl hw hend.stretched).word_isSome _).mpr
        (Or.inr ⟨((l.gap .limit).blank, t), ?_, ?_⟩)
      · unfold Write.pieces Write.tail
        rw [hlimit]
        simp only [List.mem_append, Layout.optional, Option.elim_some]
        exact Or.inl (Or.inr (Or.inr (Or.inr (Or.inr (Or.inr (Or.inr (Or.inl
          (Write.mem_piece l .limit t))))))))
      · rw [(hw.limit t hlimit).leads]
        rfl
    rwa [Write.word_after hl hw hend.stretched hfilter hclose (Or.inr (Or.inr rfl)),
      Option.isSome_map] at hsaid

theorem previewed_of_kept (hfilter : w.filter = some p) (h : ¬ w.Untargeted d l ending)
    (hclosing : Closing (behindPredicate d l w ending))
    (hkept : writeShape (w.script l ending) d = .ok → w.Kept) :
    Previewed d w (w.script l ending) := by
  obtain ⟨table, htable, htarget⟩ :=
    Write.writeTarget_script hl hw hend.stretched hfilter hclose hend.noDot h
  intro t ht
  rw [htarget] at ht
  cases ht
  have hgone : trimEnd (trimEndMatches semicolon (trimEnd ((w.afterPredicate l ending).take
      (clauseCut d (w.afterPredicate l ending))))) = [] := closing_iff.mpr hclosing
  refine ⟨?_, fun hok => ⟨w.table, hw.table.wellFormed, ?_, fun Db Row e db rows hrows => ?_⟩⟩
  · dsimp only
    rw [hgone, List.append_nil, hfilter]
  · have hwhole := (hkept hok).whole
    rw [Write.objectRead, (hkept hok).modifiers] at htable
    have hname := spelled_eq_some_iff.mpr hwhole
    rw [Option.mem_def, hname] at htable
    rw [WriteTarget.preview, ← Option.some.inj htable]
    rfl
  · rw [← (hkept hok).chosen_eq (limit_none hl hw hclose hend hfilter h)]
    exact hrows

theorem kept_of_previewed (hfilter : w.filter = some p) (h : ¬ w.Untargeted d l ending)
    (hpreviewed : Previewed d w (w.script l ending)) :
    Closing (behindPredicate d l w ending) ∧ (writeShape (w.script l ending) d = .ok → w.Kept) := by
  obtain ⟨table, htable, htarget⟩ :=
    Write.writeTarget_script hl hw hend.stretched hfilter hclose hend.noDot h
  obtain ⟨hpredicate, hrows⟩ := hpreviewed _ htarget
  constructor
  · rw [hfilter] at hpredicate
    have hsame := Option.some.inj hpredicate
    dsimp only at hsame
    exact closing_iff.mp (List.append_right_eq_self.mp hsame.symm)
  · intro hok
    obtain ⟨name, -, hquery, hchosen⟩ := hrows hok
    have hname : table = name.text :=
      List.append_cancel_right (List.append_cancel_left hquery)
    rw [Option.mem_def, hname] at htable
    refine Write.kept_of_counts hw (limit_none hl hw hclose hend hfilter h) htable
      fun Db Row e db n hn => ?_
    obtain ⟨rows, hrows, hlength⟩ := Option.map_eq_some_iff.mp hn
    rw [Engine.count, hchosen Db Row e db rows hrows, Option.map_some, hlength]

end Statement

/-- **Which previews are of the rows that change.** -/
theorem writeTarget_previews_iff (d : Dialect) :
    (∀ {sql : Bytes}, Refused d sql → writeTarget sql d = none) ∧
    ∀ {l : Layout} {w : Write} {ending : List (UInt8 × Bytes)}, l.WellFormed d →
      w.WellFormed d → l.Close → Ending d ending →
        (w.filter.isSome = true → (Previewed d w (w.script l ending) ↔ w.Untargeted d l ending ∨
          (Closing (behindPredicate d l w ending) ∧
            (writeShape (w.script l ending) d = .ok → w.Kept)))) ∧
        (w.filter = none → (Previewed d w (w.script l ending) ↔ NoTarget d (w.script l ending))) := by
  refine ⟨writeTarget_refused, fun {l w ending} hl hw hclose hend => ⟨fun hsome => ?_, fun hnone => ?_⟩⟩
  · obtain ⟨p, hfilter⟩ := Option.isSome_iff_exists.mp hsome
    by_cases h : w.Untargeted d l ending
    · have hnone := Write.writeTarget_untargeted hl hw hend.stretched hfilter hclose hend.noDot h
      exact ⟨fun _ => Or.inl h, fun _ => previewed_of_none hnone⟩
    · rw [or_iff_right h]
      exact ⟨kept_of_previewed hl hw hclose hend hfilter h,
        fun hkept => previewed_of_kept hl hw hclose hend hfilter h hkept.1 hkept.2⟩
  · rw [← writeTarget_eq_none_iff]
    refine ⟨fun h => ?_, previewed_of_none⟩
    cases htarget : writeTarget (w.script l ending) d with
    | none => rfl
    | some t =>
      have hpredicate := (h t htarget).1
      rw [hnone] at hpredicate
      cases hpredicate

/-- `;` -/
theorem ending_semicolon (d : Dialect) : Ending d [(semicolon, [])] where
  stretched q hq := by
    rw [List.mem_singleton.mp hq]
    exact ⟨by decide, by cases d <;> decide⟩
  divided := ⟨[], _, rfl, nofun, Or.inr ⟨[], [], rfl⟩⟩

theorem updateWhere_previewed :
    Previewed .postgres updateWhere (ascii "update t set a = 1 where b = 'x';") ∧
      writeTarget (ascii "delete from a using b where a.id = b.id") .postgres = none :=
  ⟨(((writeTarget_previews_iff _).2 (oneSpace_wellFormed _) updateWhere_wellFormed ⟨rfl, rfl, rfl⟩
      (ending_semicolon _)).1 rfl).mpr (Or.inr ⟨⟨[], 1, [], Blank.nil, Blank.nil, by decide⟩,
        fun _ => ⟨rfl, rfl, rfl, by decide, fun a ha => by cases ha⟩⟩),
    (writeTarget_previews_iff .postgres).1 ⟨22, by decide, by decide⟩⟩

/-- `delete from only t where b = 1` -/
def deleteOnly : Write where
  assignments := none
  modifiers := []
  only := true
  table := { first := .bare (ascii "t"), rest := [] }
  partition := none
  called := none
  filter := some (ascii "b = 1")
  order := none
  limit := none
  returning := none

theorem deleteOnly_wellFormed : deleteOnly.WellFormed .postgres where
  modifiers m hm := absurd hm List.not_mem_nil
  table := bareT_free _
  partition t ht := by cases ht
  called a ha := by cases ha
  assignments a ha := by cases ha
  filter p hp := by
    cases hp
    exact ⟨⟨by decide, by decide⟩, by decide, by decide, by decide,
      by decide⟩
  order t ht := by cases ht
  limit t ht := by cases ht
  returning t ht := by cases ht

/-- Of a chain, all but the first statement's head is taken for its predicate; and of a table the
statement takes alone, the preview has the rows of those that inherit from it too. -/
theorem deleteOnly_not_previewed :
    deleteOnly.WellFormed .postgres ∧
      (deleteOnly.script oneSpace [(semicolon, []), (space, ascii "delete from c where d = 2")] =
        ascii "delete from only t where b = 1; delete from c where d = 2" ∧
      writeTarget (ascii "delete from only t where b = 1; delete from c where d = 2") .postgres =
        some { table := ascii "t", predicate := ascii "b = 1; delete from c where d = 2" } ∧
      ¬ Previewed .postgres deleteOnly
        (ascii "delete from only t where b = 1; delete from c where d = 2")) ∧
      deleteOnly.script oneSpace [] = ascii "delete from only t where b = 1" ∧
      writeShape (ascii "delete from only t where b = 1") .postgres = .ok ∧
      writeTarget (ascii "delete from only t where b = 1") .postgres =
        some { table := ascii "t", predicate := ascii "b = 1" } ∧
      ¬ Previewed .postgres deleteOnly (ascii "delete from only t where b = 1") := by
  have hchain : writeTarget (ascii "delete from only t where b = 1; delete from c where d = 2")
      .postgres = some { table := ascii "t", predicate := ascii "b = 1; delete from c where d = 2" } := by
    decide
  have halone : writeTarget (ascii "delete from only t where b = 1") .postgres =
      some { table := ascii "t", predicate := ascii "b = 1" } := by decide
  have hok : writeShape (ascii "delete from only t where b = 1") .postgres = .ok := by decide
  refine ⟨deleteOnly_wellFormed, ⟨by decide, hchain, fun h => ?_⟩, by decide, hok, halone,
    fun h => ?_⟩
  · exact absurd (h _ hchain).1 (by decide)
  · obtain ⟨table, -, hquery, hrows⟩ := (h _ halone).2 hok
    -- an engine on which the table alone has no row, and with its children one
    have hname : ascii "t" = table.text := List.append_cancel_right (List.append_cancel_left hquery)
    have hnone := hrows Unit Unit (oneRow { only := false, table := table, partition := none }) () []
      rfl
    have hone : (oneRow { only := false, table := table, partition := none }).chosen ()
        ({ table := table, filter := deleteOnly.filter } : CountQuery).selection = some [()] := by
      have hrows : (oneRow { only := false, table := table, partition := none }).rows ()
          ({ table := table, filter := deleteOnly.filter } : CountQuery).selection.source =
            some [()] := congrArg some (if_pos rfl)
      rw [Engine.chosen, hrows]
      rfl
    rw [hone] at hnone
    cases hnone

end RedDb.Ai
