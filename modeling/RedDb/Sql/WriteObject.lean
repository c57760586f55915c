import RedDb.Sql.WriteText

/-!
# RedDb — the table that is read of a statement

`target_object` walks a statement's own tokens, not those of its copy. Of an `UPDATE` it reads
the word behind the verb, whatever that is, unless it is one of a few it skips; of a `DELETE`
the word behind its `FROM`.

* `Write.targetObject_text` — what is read of a statement (`Write.objectRead`).
-/

namespace RedDb.Sql

open ByteText

/-! ## Tokens of stretches -/

theorem startsClear_tails {d : Dialect} {xs : List (UInt8 × Bytes)} (h : Stretched d xs) :
    StartsClear (tails xs) := by
  cases xs with
  | nil =>
    intro c hc
    cases hc
  | cons p rest => exact startsClear_follower (h p List.mem_cons_self).1 _

theorem refs_behind {d : Dialect} {lead : List (Comment × UInt8)}
    (h : ∀ c ∈ lead, c.1.WellFormed d ∧ c.2 ∈ separators) (b : Bytes) :
    refs (behind lead b) = refs b := by
  induction lead with
  | nil => rfl
  | cons c rest ih =>
    obtain ⟨⟨hends, -, -⟩, hs⟩ := h c List.mem_cons_self
    rw [behind, refs_comment hends hs, ih fun x hx => h x (List.mem_cons_of_mem c hx)]

/-- The tokens of what follows are not a dot first. -/
def NoDot (xs : List (UInt8 × Bytes)) : Prop := (refs (tails xs)).head? ≠ some .dot

theorem noDot_nil : NoDot [] := by
  intro h
  cases h

/-- Behind a statement stands no dot: blanks, or a `;`. -/
theorem Ending.noDot {d : Dialect} {ending : List (UInt8 × Bytes)} (h : Ending d ending) :
    NoDot ending := by
  obtain ⟨blanks, rest, rfl, hblanks, hrest⟩ := h.divided
  have hskip : refs (tails (blanks ++ rest)) = refs (tails rest) := by
    clear h
    induction blanks with
    | nil => rfl
    | cons p ps ih =>
      obtain ⟨s, y⟩ := p
      obtain ⟨hs, rfl⟩ := hblanks (s, y) List.mem_cons_self
      rw [List.cons_append, tails, refs_separator hs, spaced_eq, List.nil_append]
      exact ih fun q hq => hblanks q (List.mem_cons_of_mem _ hq)
  rw [NoDot, hskip]
  rcases hrest with rfl | ⟨y, more, rfl⟩
  · exact noDot_nil
  · rw [tails, refs_plain (by decide) (by decide) (by decide) (by decide) (by decide)]
    exact fun heq => Ref.noConfusion (Option.some.inj heq)

theorem refs_lettered {x : Bytes} (h : Lettered x) (rest : Bytes) :
    ∃ w ts, refs (x ++ rest) = .ident w :: ts := by
  obtain ⟨c, hc, hletter⟩ := h
  obtain ⟨u, rfl⟩ : ∃ u, x = c :: u := by
    cases x with
    | nil => cases hc
    | cons y u => exact ⟨u, by rw [← Option.some.inj hc]⟩
  have hstart : isNameStart c = true := by
    rw [isNameStart, hletter]
    rfl
  rw [List.cons_append, refs_named hstart]
  exact ⟨_, _, rfl⟩

section Pieces

variable {d : Dialect} {l : Layout} (hl : l.WellFormed d)

include hl

/-- The comments in front of a token are skipped. -/
theorem refs_piece (slot : Slot) (text : Bytes) (rest : List (UInt8 × Bytes)) :
    refs (tails (l.piece slot text ++ rest)) = refs (text ++ tails rest) := by
  rw [Layout.piece_eq, Layout.remarks, List.append_assoc, List.singleton_append]
  have hgap := (hl.gap slot).comments
  generalize (l.gap slot).comments = comments at hgap
  induction comments with
  | nil =>
    rw [List.map_nil, List.nil_append, tails_cons, refs_separator (hl.gap slot).blank]
  | cons c more ih =>
    obtain ⟨hs, hends, -, -⟩ := hgap c List.mem_cons_self
    have hmore := ih fun x hx => hgap x (List.mem_cons_of_mem c hx)
    rw [List.map_cons, List.cons_append, tails_cons, refs_separator hs, ← hmore]
    obtain ⟨s, b, hb, hsep⟩ : ∃ s b, tails (more.map (fun c => (c.1, c.2.text)) ++
        ((l.gap slot).blank, text) :: rest) = s :: b ∧ s ∈ separators := by
      cases more with
      | nil => exact ⟨_, _, rfl, (hl.gap slot).blank⟩
      | cons c' more => exact ⟨_, _, rfl, (hgap c' (by simp)).1⟩
    rw [hb, refs_comment hends hsep, refs_separator hsep]

theorem refs_piece_word (slot : Slot) {word : Bytes} (hword : IsWord word)
    (hstart : ∀ c ∈ word.head?, isNameStart c = true) {rest : List (UInt8 × Bytes)}
    (hrest : Stretched d rest) :
    refs (tails (l.piece slot word ++ rest)) = .ident word :: refs (tails rest) := by
  rw [refs_piece hl, refs_word hword hstart (startsClear_tails hrest)]

theorem noDot_piece (slot : Slot) {text : Bytes} (h : Lettered text) (rest : List (UInt8 × Bytes)) :
    NoDot (l.piece slot text ++ rest) := by
  obtain ⟨w, ts, hrefs⟩ := refs_lettered h (tails rest)
  rw [NoDot, refs_piece hl, hrefs]
  exact fun heq => Ref.noConfusion (Option.some.inj heq)

theorem noDot_optional (slot : Slot) {text : Option Bytes} (h : ∀ t ∈ text, Lettered t)
    {rest : List (UInt8 × Bytes)} (hrest : NoDot rest) : NoDot (l.optional slot text ++ rest) := by
  cases text with
  | none => exact hrest
  | some t => exact noDot_piece hl slot (h t rfl) rest

theorem word_lettered (k : Keyword) : Lettered (l.word k) := by
  obtain ⟨c, u, hcons⟩ := List.exists_cons_of_ne_nil (hl.isWord k).nonempty
  refine ⟨c, by rw [hcons]; rfl, ?_⟩
  have hname := hl.word k
  rw [hcons] at hname
  rw [← isAsciiAlphabetic_lower]
  have hhead : k.name.head? = some (toAsciiLower c) := by
    rw [← hname]
    rfl
  have hletters : ∀ k : Keyword, ∀ x ∈ k.name.head?, isAsciiAlphabetic x = true := by
    intro k
    cases k <;> decide
  exact hletters k _ hhead

theorem word_start (k : Keyword) : ∀ c ∈ (l.word k).head?, isNameStart c = true := by
  obtain ⟨c, hc, hletter⟩ := word_lettered hl k
  intro x hx
  rw [Option.mem_unique hx hc, isNameStart, hletter]
  rfl

end Pieces

/-! ## The object of a statement -/

/-- What is read for the table of a statement. -/
def Write.objectRead (w : Write) : Option Bytes :=
  match w.modifiers with
  | [] => spelled w.table.first w.table.rest
  | m :: _ => if w.assignments.isSome then some m else none

theorem Write.objectRead_eq_none_iff {w : Write} : w.objectRead = none ↔
    (w.assignments = none ∧ w.modifiers ≠ []) ∨ (w.modifiers = [] ∧ BreaksOff w.table.first w.table.rest) := by
  unfold Write.objectRead
  cases w.modifiers with
  | nil => simp [spelled_eq_none_iff]
  | cons m ms => cases w.assignments <;> simp

namespace Write

section Object

variable {d : Dialect} {l : Layout} {w : Write} {ending : List (UInt8 × Bytes)}
  (hl : l.WellFormed d) (hw : w.WellFormed d) (hend : Stretched d ending) (hdot : NoDot ending)

include hl hw hend hdot

/-- Behind the table stands no dot. -/
theorem noDot_behind :
    NoDot (w.behindTable l ++ (w.setClause l ++ (w.whereClause l ++ (w.tail l ++ ending)))) := by
  have htail : NoDot (w.tail l ++ ending) := by
    unfold tail
    rw [List.append_assoc, List.append_assoc]
    exact noDot_optional hl .order (fun t ht => (hw.order t ht).lettered)
      (noDot_optional hl .limit (fun t ht => (hw.limit t ht).lettered)
        (noDot_optional hl .returning (fun t ht => (hw.returning t ht).lettered) hdot))
  have hwhere : NoDot (w.whereClause l ++ (w.tail l ++ ending)) := by
    unfold whereClause
    cases w.filter with
    | none => exact htail
    | some p =>
      rw [Option.elim_some, List.append_assoc]
      exact noDot_piece hl .whereRows (word_lettered hl _) _
  have hset : NoDot (w.setClause l ++ (w.whereClause l ++ (w.tail l ++ ending))) := by
    unfold setClause
    cases w.assignments with
    | none => exact hwhere
    | some a =>
      rw [Option.elim_some, List.append_assoc]
      exact noDot_piece hl .setColumns (word_lettered hl _) _
  unfold behindTable
  rw [List.append_assoc]
  refine noDot_optional hl .partition (fun t ht => (hw.partition t ht).1) ?_
  cases hcalled : w.called with
  | none => exact hset
  | some a =>
    rw [Option.elim_some, List.append_assoc]
    split
    · exact noDot_piece hl .asName (word_lettered hl _) _
    rw [List.nil_append, NoDot, refs_piece hl]
    have hrest : Stretched d (w.setClause l ++ (w.whereClause l ++ (w.tail l ++ ending))) :=
      (setClause_stretched hl hw).append ((whereClause_stretched hl hw).append
        ((tail_stretched hl hw).append hend))
    obtain ⟨ts, hts⟩ := refs_dotted_head [] (hw.called a hcalled).1
      (startsClear_tails hrest)
    rw [dotted] at hts
    rw [hts]
    split
    · exact fun heq => Ref.noConfusion (Option.some.inj heq)
    · exact fun heq => Ref.noConfusion (Option.some.inj heq)

/-- The table itself, read behind what is skipped. -/
theorem readRef_table :
    readRef (dropModifiers (refs (tails (l.piece .table w.table.text ++ (w.behindTable l ++
      (w.setClause l ++ (w.whereClause l ++ (w.tail l ++ ending)))))))) = spelled w.table.first w.table.rest := by
  have hrest : Stretched d (w.behindTable l ++ (w.setClause l ++ (w.whereClause l ++ (w.tail l ++ ending)))) :=
    (behindTable_stretched hl hw).append ((setClause_stretched hl hw).append
      ((whereClause_stretched hl hw).append ((tail_stretched hl hw).append hend)))
  have hends : NameEnds (tails (w.behindTable l ++ (w.setClause l ++ (w.whereClause l ++ (w.tail l ++ ending))))) :=
    ⟨startsClear_tails hrest, noDot_behind hl hw hend hdot⟩
  have hread := readRef_dotted hw.table.wellFormed.1 hw.table.wellFormed.2 hends
  obtain ⟨ts, hts⟩ := refs_dotted_head w.table.rest hw.table.wellFormed.1 hends.clear
  rw [refs_piece hl, Name.text, ← hread, hts]
  refine congrArg readRef ?_
  split
  · rw [dropModifiers, if_neg]
    rw [List.contains_iff_mem]
    exact hw.table.notSkipped
  · rfl

omit hw hend hdot in
theorem dropModifiers_only {ts : List Ref} :
    dropModifiers (.ident (l.word .onlyTable) :: ts) = dropModifiers ts := by
  rw [dropModifiers, hl.word .onlyTable, if_pos (by rfl)]

/-- The table behind `ONLY`, which is skipped. -/
theorem readRef_only :
    readRef (dropModifiers (refs (tails ((if w.only then l.piece .onlyTable (l.word .onlyTable)
      else []) ++ (l.piece .table w.table.text ++ (w.behindTable l ++ (w.setClause l ++
        (w.whereClause l ++ (w.tail l ++ ending))))))))) = spelled w.table.first w.table.rest := by
  have hrest : Stretched d (l.piece .table w.table.text ++ (w.behindTable l ++ (w.setClause l ++
      (w.whereClause l ++ (w.tail l ++ ending))))) :=
    (piece_stretched hl .table hw.table.balanced).append ((behindTable_stretched hl hw).append
      ((setClause_stretched hl hw).append ((whereClause_stretched hl hw).append
        ((tail_stretched hl hw).append hend))))
  split
  · rw [refs_piece_word hl .onlyTable (hl.isWord _) (word_start hl _) hrest,
      dropModifiers_only hl, readRef_table hl hw hend hdot]
  · rw [List.nil_append, readRef_table hl hw hend hdot]

end Object

end Write

/-- An `UPDATE` is read behind its verb. -/
theorem targetObject_update {stmt v : Bytes} {ts : List Ref} (h : refs stmt = .ident v :: ts)
    (hv : asciiLower v = ascii "update") : targetObject stmt = readRef (dropModifiers ts) := by
  have hlex : lexRefs stmt.length stmt = .ident v :: ts := h
  unfold targetObject
  simp only [hlex, List.getElem?_cons_zero, hv, List.drop_one, List.tail_cons]
  rfl

/-- A `DELETE` is read behind its `FROM`. -/
theorem targetObject_delete {stmt v u : Bytes} {ts : List Ref}
    (h : refs stmt = .ident v :: .ident u :: ts) (hv : asciiLower v = ascii "delete") :
    targetObject stmt =
      if asciiLower u = ascii "into" ∨ asciiLower u = ascii "from" then readRef (dropModifiers ts)
      else none := by
  have hlex : lexRefs stmt.length stmt = .ident v :: .ident u :: ts := h
  unfold targetObject
  simp only [hlex, List.getElem?_cons_zero, List.getElem?_cons_succ, hv, List.drop_succ_cons,
    List.drop_zero]
  rw [if_neg (by decide), if_pos (by decide)]
  simp only [Bool.or_eq_true, beq_iff_eq, Option.some.injEq]

/-- The modifiers are words. -/
theorem modifier_word {m : Bytes} (h : asciiLower m ∈ modifierWords) : IsWord m ∧ Lettered m := by
  have hall : ∀ x ∈ modifierWords, IsWord x ∧ Lettered x := by decide
  obtain ⟨hword, c, hc, hletter⟩ := hall _ h
  cases m with
  | nil => exact absurd rfl hword.nonempty
  | cons y u =>
    refine ⟨⟨List.cons_ne_nil y u, fun x hx => ?_⟩, y, rfl, ?_⟩
    · rw [← isWordByte_lower]
      exact hword.bytes _ (List.mem_map_of_mem hx)
    · rw [← Option.some.inj hc, isAsciiAlphabetic_lower] at hletter
      exact hletter

namespace Write

section Object

variable {d : Dialect} {l : Layout} {w : Write} {ending : List (UInt8 × Bytes)}
  (hl : l.WellFormed d) (hw : w.WellFormed d) (hend : Stretched d ending) (hdot : NoDot ending)

include hl hw hend hdot

omit hdot in
/-- The stretches from the table on. -/
theorem fromTable_stretched : Stretched d (l.piece .table w.table.text ++ (w.behindTable l ++
    (w.setClause l ++ (w.whereClause l ++ (w.tail l ++ ending))))) :=
  (piece_stretched hl .table hw.table.balanced).append ((behindTable_stretched hl hw).append
    ((setClause_stretched hl hw).append ((whereClause_stretched hl hw).append
      ((tail_stretched hl hw).append hend))))

omit hw hend hdot in
theorem only_stretched : Stretched d (if w.only then l.piece .onlyTable (l.word .onlyTable) else []) := by
  split
  · exact piece_stretched hl .onlyTable (hl.balanced _)
  · exact stretched_nil

omit hdot in
/-- Behind a modifier stands no dot. -/
theorem noDot_modifiers (ms : List Bytes) (hms : ∀ m ∈ ms, asciiLower m ∈ modifierWords) :
    NoDot (ms.flatMap (l.piece .modifier) ++ ((if w.only then l.piece .onlyTable (l.word .onlyTable)
      else []) ++ (l.piece .table w.table.text ++ (w.behindTable l ++ (w.setClause l ++
        (w.whereClause l ++ (w.tail l ++ ending))))))) := by
  cases ms with
  | cons m ms =>
    rw [List.flatMap_cons, List.append_assoc]
    exact noDot_piece hl .modifier (modifier_word (hms m List.mem_cons_self)).2 _
  | nil =>
    rw [List.flatMap_nil, List.nil_append]
    split
    · exact noDot_piece hl .onlyTable (word_lettered hl _) _
    have hrest : Stretched d (w.behindTable l ++ (w.setClause l ++ (w.whereClause l ++
        (w.tail l ++ ending)))) :=
      fun p hp => fromTable_stretched hl hw hend p (List.mem_append_right _ hp)
    obtain ⟨ts, hts⟩ := refs_dotted_head w.table.rest hw.table.wellFormed.1
      (startsClear_tails hrest)
    rw [List.nil_append, NoDot, refs_piece hl, Name.text, hts]
    split
    · exact fun heq => Ref.noConfusion (Option.some.inj heq)
    · exact fun heq => Ref.noConfusion (Option.some.inj heq)

omit hend hdot in
theorem modifiers_stretched (ms : List Bytes) (hms : ∀ m ∈ ms, m ∈ w.modifiers) :
    Stretched d (ms.flatMap (l.piece .modifier)) := by
  intro p hp
  obtain ⟨m, hm, hp⟩ := List.mem_flatMap.mp hp
  exact piece_stretched hl .modifier (hw.modifiers m (hms m hm)).2.balanced p hp

/-- **What is read for the table** of a statement. -/
theorem targetObject_script : targetObject (w.script l ending) = w.objectRead := by
  have hpieces : Stretched d (w.pieces l ++ ending) := (sound_script hl hw hend).rest
  have hverb : refs (w.script l ending) =
      .ident (l.word w.verb) :: refs (tails (w.pieces l ++ ending)) := by
    rw [script, refs_behind hl.lead, spaced_eq, refs_word (hl.isWord _) (word_start hl _)
      (startsClear_tails hpieces)]
  have hlettered : ∀ m ∈ w.modifiers, ∀ c ∈ m.head?, isNameStart c = true := by
    intro m hm c hc
    obtain ⟨-, x, hx, hletter⟩ := modifier_word (hw.modifiers m hm).1
    rw [Option.mem_unique hc hx, isNameStart, hletter]
    rfl
  cases hset : w.assignments with
  | some a =>
    have hupdate : asciiLower (l.word w.verb) = ascii "update" := by
      rw [hl.word, verb, hset]
      rfl
    have hfront : w.pieces l ++ ending = w.modifiers.flatMap (l.piece .modifier) ++
        ((if w.only then l.piece .onlyTable (l.word .onlyTable) else []) ++
          (l.piece .table w.table.text ++ (w.behindTable l ++ (w.setClause l ++
            (w.whereClause l ++ (w.tail l ++ ending)))))) := by
      rw [pieces, beforeTable, hset, Option.isSome_some, if_pos rfl, List.nil_append]
      simp only [List.append_assoc]
    rw [targetObject_update hverb hupdate, hfront, objectRead]
    cases hms : w.modifiers with
    | nil => exact readRef_only hl hw hend hdot
    | cons m ms =>
      have hm : m ∈ w.modifiers := by
        rw [hms]
        exact List.mem_cons_self
      have hmore : ∀ x ∈ ms, x ∈ w.modifiers := by
        intro x hx
        rw [hms]
        exact List.mem_cons_of_mem m hx
      have hrest := (modifiers_stretched hl hw ms hmore).append ((only_stretched (w := w) hl).append
        (fromTable_stretched hl hw hend))
      have hskip : asciiLower m ∉ skippedWords :=
        (show ∀ x ∈ modifierWords, x ∉ skippedWords by decide) _ (hw.modifiers m hm).1
      have hnodot := noDot_modifiers hl hw hend ms fun x hx => (hw.modifiers x (hmore x hx)).1
      rw [List.flatMap_cons, List.append_assoc,
        refs_piece_word hl .modifier (modifier_word (hw.modifiers m hm).1).1 (hlettered m hm) hrest,
        dropModifiers, if_neg (by rw [List.contains_iff_mem]; exact hskip), hset]
      unfold NoDot at hnodot
      cases hrefs : refs (tails (ms.flatMap (l.piece .modifier) ++
        ((if w.only then l.piece .onlyTable (l.word .onlyTable) else []) ++
          (l.piece .table w.table.text ++ (w.behindTable l ++ (w.setClause l ++
            (w.whereClause l ++ (w.tail l ++ ending)))))))) with
      | nil => rfl
      | cons t ts =>
        cases t with
        | dot =>
          rw [hrefs] at hnodot
          exact absurd rfl hnodot
        | ident u => rfl
        | other => rfl
  | none =>
    have hdelete : asciiLower (l.word w.verb) = ascii "delete" := by
      rw [hl.word, verb, hset]
      rfl
    have hfront : w.pieces l ++ ending = w.modifiers.flatMap (l.piece .modifier) ++
        (l.piece .fromTable (l.word .fromTable) ++
          ((if w.only then l.piece .onlyTable (l.word .onlyTable) else []) ++
            (l.piece .table w.table.text ++ (w.behindTable l ++ (w.setClause l ++
              (w.whereClause l ++ (w.tail l ++ ending))))))) := by
      rw [pieces, beforeTable, hset, Option.isSome_none, if_neg Bool.false_ne_true]
      simp only [List.append_assoc]
    have hbehind := (only_stretched (w := w) hl).append (fromTable_stretched hl hw hend)
    rw [objectRead]
    rw [hfront] at hverb
    cases hms : w.modifiers with
    | nil =>
      rw [hms, List.flatMap_nil, List.nil_append,
        refs_piece_word hl .fromTable (hl.isWord _) (word_start hl _) hbehind] at hverb
      have hfrom : Keyword.fromTable.name = ascii "into" ∨ Keyword.fromTable.name = ascii "from" :=
        Or.inr rfl
      rw [targetObject_delete hverb hdelete, hl.word, if_pos hfrom]
      exact readRef_only hl hw hend hdot
    | cons m ms =>
      have hm : m ∈ w.modifiers := by
        rw [hms]
        exact List.mem_cons_self
      have hmore : ∀ x ∈ ms, x ∈ w.modifiers := by
        intro x hx
        rw [hms]
        exact List.mem_cons_of_mem m hx
      have hrest := (modifiers_stretched hl hw ms hmore).append
        ((piece_stretched hl .fromTable (hl.balanced .fromTable)).append hbehind)
      rw [hms, List.flatMap_cons, List.append_assoc,
        refs_piece_word hl .modifier (modifier_word (hw.modifiers m hm).1).1 (hlettered m hm)
          hrest] at hverb
      have hno := (show ∀ x ∈ modifierWords, ¬ (x = ascii "into" ∨ x = ascii "from") by decide) _
        (hw.modifiers m hm).1
      rw [targetObject_delete hverb hdelete, if_neg hno, hset]
      rfl

end Object

/-- What is read for the table of a statement that stands alone. -/
theorem targetObject_text {d : Dialect} {l : Layout} {w : Write} (hl : l.WellFormed d)
    (hw : w.WellFormed d) : targetObject (w.text l) = w.objectRead := by
  rw [← script_nil, targetObject_script hl hw stretched_nil noDot_nil]

end Write

end RedDb.Sql
