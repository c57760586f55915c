import RedDb.Sql.Passages

/-!
# RedDb — scripts written line by line

A generated script is lines: blank ones, comments, and statements with their `;`. Where no
comment's text holds a line feed, no statement's text leaves a lexeme open or holds a live `;`,
and each statement begins with the words of a definition, the splitter finds the statements,
each behind the comments in front of it, and nothing else.

* `splitStatements_script` — what the splitter makes of the lines.
-/

namespace RedDb.Sql

open ByteText

/-- A line of a script. -/
inductive Line where
  | blank
  | remark (t : Bytes)
  | live (x : Bytes)

def Line.text : Line → Bytes
  | .blank => [newline]
  | .remark t => dash :: dash :: space :: t ++ [newline]
  | .live x => x ++ [semicolon, newline]

/-- What the stripper leaves of a line. -/
def Line.copy (d : Dialect) : Line → Bytes
  | .blank => [newline]
  | .remark t => List.replicate (t.length + 3) space ++ [newline]
  | .live x => stripNoise x d ++ [semicolon, newline]

def scriptText (ls : List Line) : Bytes := ls.flatMap Line.text

/-- The words the statements begin with. -/
def statementHeads : List Bytes :=
  [ascii "ALTER TABLE ", ascii "CREATE INDEX ", ascii "CREATE UNIQUE INDEX ", ascii "DROP TABLE ",
    ascii "DROP INDEX "]

/-- A statement that leaves nothing open, and has no live `;` of its own. -/
structure Enclosing (d : Dialect) (x : Bytes) : Prop where
  passes : ∀ rest, Follows rest → Passes d x (stripNoise x d) rest
  flat : semicolon ∉ stripNoise x d
  head : ∃ p ∈ statementHeads, p <+: x

def Line.Clean (d : Dialect) : Line → Prop
  | .blank => True
  | .remark t => newline ∉ t
  | .live x => Enclosing d x

/-- The statements of the lines, each behind the text in front of it; the last has none. -/
@[grind =] def chunks (lead : Bytes) : List Line → List (Bytes × Option Bytes)
  | [] => [(lead, none)]
  | .live x :: rest => (lead, some x) :: chunks [newline] rest
  | l :: rest => chunks (lead ++ l.text) rest

def chunkText (p : Bytes × Option Bytes) : Bytes := p.1 ++ p.2.getD []

section Lines

variable {d : Dialect} {l : Line} {ls : List Line}

theorem follows_semicolon (rest : Bytes) : Follows (semicolon :: rest) := by
  intro c hc
  rw [← Option.some.inj hc]
  decide

theorem opens_concat {x : Bytes} {c : UInt8} (h : isWordByte c = false) : Opens (x ++ [c]) := by
  intro e he
  rw [List.getLast?_concat] at he
  rw [← Option.some.inj he, h]

theorem Line.opens (l : Line) : Opens l.text := by
  cases l with
  | blank => exact opens_concat (x := []) (by decide)
  | remark t => exact opens_concat (by decide)
  | live x =>
    have hshape : x ++ [semicolon, newline] = (x ++ [semicolon]) ++ [newline] := by simp
    show Opens (x ++ [semicolon, newline])
    rw [hshape]
    exact opens_concat (by decide)

theorem blankSpan_spaces {x rest : Bytes} (h : newline ∉ x) :
    blankSpan (x ++ rest) 0 x.length = List.replicate x.length space := by
  unfold blankSpan slice
  rw [List.take_left, List.drop_zero, List.eq_replicate_iff, List.length_map]
  refine ⟨rfl, fun c hc => ?_⟩
  obtain ⟨e, he, rfl⟩ := List.mem_map.mp hc
  refine if_neg fun heq => h ?_
  have heq : e = newline := beq_iff_eq.mp heq
  exact heq ▸ he

/-- The stripper leaves a comment its length in blanks. -/
theorem passes_comment {t : Bytes} (ht : newline ∉ t) (rest : Bytes) :
    Passes d (dash :: dash :: space :: t) (List.replicate (t.length + 3) space) (newline :: rest) := by
  have hline : newline ∉ dash :: dash :: space :: t := by
    simp only [List.mem_cons, not_or]
    exact ⟨by decide, by decide, by decide, ht⟩
  have hpasses := passes_remark (d := d) ht rest
  have hspaces : blankSpan (dash :: dash :: space :: t ++ newline :: rest) 0 (t.length + 3) =
      List.replicate (t.length + 3) space := blankSpan_spaces hline
  rwa [hspaces] at hpasses

theorem Line.Clean.passes (h : l.Clean d) (rest : Bytes) : Passes d l.text (l.copy d) rest := by
  cases l with
  | blank => exact passes_calm (by decide) rest
  | remark t => exact (passes_comment h rest).append_calm (p := [newline]) (by decide)
  | live x =>
    exact (h.passes _ (follows_semicolon _)).append_calm (p := [semicolon, newline]) (by decide)

/-- What the stripper leaves of the script is what it leaves of the lines. -/
theorem script_passes (h : ∀ l ∈ ls, l.Clean d) (rest : Bytes) :
    Passes d (scriptText ls) (ls.flatMap (Line.copy d)) rest := by
  induction ls with
  | nil => exact passes_calm (fun c hc => absurd hc List.not_mem_nil) rest
  | cons l ls ih =>
    exact ((h l List.mem_cons_self).passes _).append l.opens
      (ih fun l' hl' => h l' (List.mem_cons_of_mem l hl'))

/-! ## Heads -/

/-- No directive stands at `i`, and no routine is declared there. -/
def PlainHead (b : Bytes) (i : Nat) : Prop := directiveAt b i = false ∧ routineDdlAt b i = false

theorem plainHead_shift (pre b : Bytes) (i : Nat) :
    PlainHead (pre ++ b) (pre.length + i) ↔ PlainHead b i := by
  unfold PlainHead directiveAt
  rw [wordEnd_shift, slice_shift, routineDdlAt_shift]

theorem plainHead_end (b : Bytes) : PlainHead b b.length := by
  have hword : nextWord b b.length = none := by
    unfold nextWord
    rw [List.drop_length, List.takeWhile_nil, List.length_nil]
    dsimp only
    rw [Nat.add_zero, List.getElem?_eq_none (Nat.le_refl _)]
  refine ⟨?_, by rw [routineDdlAt, hword]⟩
  have hend : wordEnd b b.length = b.length :=
    Nat.le_antisymm (wordEnd_le (Nat.le_refl _)) (le_wordEnd _ _)
  unfold directiveAt
  rw [hend, slice_done (Nat.le_refl _)]
  decide

/-- A word that ends inside the text is the next one whatever follows. -/
theorem word_append {p w : Bytes} {i n e : Nat} (hc : ∃ c, p[i + n]? = some c)
    (h : (slice p (i + n) (wordEnd p (i + n)), wordEnd p (i + n)) = (w, e)) (he : e < p.length)
    (t : Bytes) :
    (slice (p ++ t) (i + n) (wordEnd (p ++ t) (i + n)), wordEnd (p ++ t) (i + n)) = (w, e) := by
  obtain ⟨c, hc⟩ := hc
  have hlt := lt_of_getElem?_eq_some hc
  have hend : wordEnd p (i + n) = e := congrArg Prod.snd h
  rw [wordEnd_append t (by omega) (by omega), slice_append t (by omega), h]

theorem nextWord_append {p w : Bytes} {i e : Nat} (h : nextWord p i = some (w, e)) (he : e < p.length)
    (t : Bytes) : nextWord (p ++ t) i = some (w, e) := by
  unfold nextWord at h ⊢
  dsimp only at h ⊢
  set n := ((p.drop i).takeWhile isAsciiWhitespace).length with hn
  cases hc : p[i + n]? with
  | none => rw [hc] at h; cases h
  | some c =>
    have hlt := lt_of_getElem?_eq_some hc
    have hrun : ((p ++ t).drop i).takeWhile isAsciiWhitespace = (p.drop i).takeWhile isAsciiWhitespace := by
      rw [drop_take (by omega), takeWhile_append_of_lt]
      rw [List.length_drop]
      omega
    rw [hc] at h
    dsimp only at h
    obtain ⟨hword, h⟩ := Option.ite_none_right_eq_some.mp h
    rw [hrun, ← hn, getElem?_take hlt, hc]
    dsimp only
    rw [if_pos hword, word_append ⟨c, hc⟩ (Option.some.inj h) he]

theorem nextHeaderWord_append {p w : Bytes} {i e : Nat} (h : nextHeaderWord p i = some (w, e))
    (he : e < p.length) (t : Bytes) : nextHeaderWord (p ++ t) i = some (w, e) := by
  unfold nextHeaderWord at h ⊢
  dsimp only at h ⊢
  set n := ((p.drop i).takeWhile fun c => !isWordByte c && c != openParen).length with hn
  cases hc : p[i + n]? with
  | none => rw [hc] at h; cases h
  | some c =>
    have hlt := lt_of_getElem?_eq_some hc
    have hrun : ((p ++ t).drop i).takeWhile (fun c => !isWordByte c && c != openParen) =
        (p.drop i).takeWhile fun c => !isWordByte c && c != openParen := by
      rw [drop_take (by omega), takeWhile_append_of_lt]
      rw [List.length_drop]
      omega
    rw [hc] at h
    dsimp only at h
    obtain ⟨hparen, h⟩ := Option.ite_none_left_eq_some.mp h
    rw [hrun, ← hn, getElem?_take hlt, hc]
    dsimp only
    rw [if_neg hparen, word_append ⟨c, hc⟩ (Option.some.inj h) he]

/-- None of the heads is a routine's: the kind of object each names is none. -/
theorem routineDdlAt_head {p v k : Bytes} {i j : Nat} (hverb : nextWord p 0 = some (v, i))
    (hkind : nextHeaderWord p i = some (k, j)) (hi : i < p.length) (hj : j < p.length)
    (hroutine : [ascii "trigger", ascii "procedure", ascii "function", ascii "event"].any
      (eqIgnoreAsciiCase k) = false)
    (hobject : [ascii "table", ascii "view", ascii "index", ascii "database", ascii "schema",
      ascii "sequence", ascii "user", ascii "role"].any (eqIgnoreAsciiCase k) = true) (t : Bytes) :
    routineDdlAt (p ++ t) 0 = false := by
  have hnames : headerNamesRoutine (p ++ t) headerWords i = false := by
    rw [headerWords, headerNamesRoutine, nextHeaderWord_append hkind hj]
    dsimp only
    rw [hroutine, hobject, if_neg Bool.false_ne_true, if_pos rfl]
  rw [routineDdlAt, nextWord_append hverb hi]
  dsimp only
  rw [hnames]
  split <;> rfl

theorem routineDdlAt_unique (t : Bytes) : routineDdlAt (ascii "CREATE UNIQUE INDEX " ++ t) 0 = false := by
  have hverb : nextWord (ascii "CREATE UNIQUE INDEX ") 0 = some (ascii "CREATE", 6) := by decide
  have hunique : nextHeaderWord (ascii "CREATE UNIQUE INDEX ") 6 = some (ascii "UNIQUE", 13) := by
    decide
  have hindex : nextHeaderWord (ascii "CREATE UNIQUE INDEX ") 13 = some (ascii "INDEX", 19) := by
    decide
  have hnames : headerNamesRoutine (ascii "CREATE UNIQUE INDEX " ++ t) headerWords 6 = false := by
    rw [headerWords, headerNamesRoutine, nextHeaderWord_append hunique (by decide)]
    dsimp only
    rw [if_neg (by decide), if_neg (by decide), headerNamesRoutine,
      nextHeaderWord_append hindex (by decide)]
    dsimp only
    rw [if_neg (by decide), if_pos (by decide)]
  rw [routineDdlAt, nextWord_append hverb (by decide)]
  dsimp only
  rw [hnames]
  split <;> rfl

/-- None of the heads is a directive's or a routine's. -/
theorem plainHead_head {p : Bytes} (hp : p ∈ statementHeads) (t : Bytes) : PlainHead (p ++ t) 0 := by
  simp only [statementHeads, List.mem_cons, List.not_mem_nil, or_false] at hp
  rcases hp with rfl | rfl | rfl | rfl | rfl
  · exact ⟨rfl, routineDdlAt_head (v := ascii "ALTER") (i := 5) (k := ascii "TABLE") (j := 11)
      (by decide) (by decide) (by decide) (by decide)
      (by decide) (by decide) t⟩
  · exact ⟨rfl, routineDdlAt_head (v := ascii "CREATE") (i := 6) (k := ascii "INDEX") (j := 12)
      (by decide) (by decide) (by decide) (by decide)
      (by decide) (by decide) t⟩
  · exact ⟨rfl, routineDdlAt_unique t⟩
  · exact ⟨rfl, routineDdlAt_head (v := ascii "DROP") (i := 4) (k := ascii "TABLE") (j := 10)
      (by decide) (by decide) (by decide) (by decide)
      (by decide) (by decide) t⟩
  · exact ⟨rfl, routineDdlAt_head (v := ascii "DROP") (i := 4) (k := ascii "INDEX") (j := 10)
      (by decide) (by decide) (by decide) (by decide)
      (by decide) (by decide) t⟩

theorem not_lead_head {p : Bytes} (hp : p ∈ statementHeads) (t : Bytes) :
    isLead d (p ++ t) 0 = false := by
  simp only [statementHeads, List.mem_cons, List.not_mem_nil, or_false] at hp
  rcases hp with rfl | rfl | rfl | rfl | rfl <;> rfl

/-! ## The splitter -/

theorem statementHead_blank {b : Bytes} {i : Nat} (h : b[i]? = some newline) :
    statementHead d b i = statementHead d b (i + 1) := by
  have hlead : isLead d b i = true := by
    unfold isLead
    rw [h]
    cases d <;> rfl
  rw [statementHead_next hlead, lexNext, noiseEnd_calm h (by decide), Option.getD_none]

theorem getElem?_behind (pre : Bytes) (e : UInt8) (rest : Bytes) :
    (pre ++ e :: rest)[pre.length]? = some e := by
  rw [List.getElem?_append_right (Nat.le_refl _), Nat.sub_self]
  rfl

/-- At a blank or a comment in front of a statement the head lies behind it. -/
theorem statementHead_line {pre : Bytes} (hpre : Opens pre) (hl : l.Clean d) (hlive : ∀ x, l ≠ .live x)
    (rest : Bytes) : statementHead d (pre ++ (l.text ++ rest)) pre.length =
      statementHead d (pre ++ (l.text ++ rest)) (pre.length + l.text.length) := by
  cases l with
  | blank => exact statementHead_blank (getElem?_behind pre newline rest)
  | remark t =>
    have hshape : (Line.remark t).text ++ rest = dash :: dash :: space :: t ++ newline :: rest := by
      simp [Line.text]
    have hnoise := noiseEnd_remark (d := d) (show newline ∉ t from hl) rest
    have hlead : isLead d (pre ++ (dash :: dash :: space :: t ++ newline :: rest)) pre.length = true := by
      rw [← Nat.add_zero pre.length, isLead_shift hpre, isLead, hnoise]
      cases d <;> rfl
    have hnext : lexNext d (pre ++ (dash :: dash :: space :: t ++ newline :: rest))
        (pre ++ (dash :: dash :: space :: t ++ newline :: rest)).length pre.length =
          pre.length + (t.length + 3) := by
      have hshift := lexNext_shift (d := d) (y := dash :: dash :: space :: t ++ newline :: rest) hpre 0
      rwa [Nat.add_zero, lexNext, lexNext, hnoise, Option.getD_some] at hshift
    have hfeed : (pre ++ (dash :: dash :: space :: t ++ newline :: rest))[pre.length + (t.length + 3)]? =
        some newline := by
      rw [getElem?_shift]
      exact getElem?_behind (dash :: dash :: space :: t) newline rest
    rw [hshape, statementHead_next hlead, hnext, statementHead_blank hfeed]
    simp [Line.text, Nat.add_assoc]
  | live x => exact absurd rfl (hlive x)

theorem offsetsOf_none {base : Nat} {b : Bytes} (h : semicolon ∉ b) : offsetsOf semicolon base b = [] := by
  induction b generalizing base with
  | nil => rfl
  | cons c b ih =>
    have hne : ¬(c == semicolon) = true := fun heq => h (beq_iff_eq.mp heq ▸ List.mem_cons_self)
    rw [offsetsOf, if_neg hne, ih fun hmem => h (List.mem_cons_of_mem c hmem)]

theorem offsets_live {x : Bytes} (h : Enclosing d x) (base : Nat) (more : Bytes) :
    offsetsOf semicolon base ((Line.live x).copy d ++ more) =
      (base + x.length) :: offsetsOf semicolon (base + x.length + 2) more := by
  show offsetsOf semicolon base (stripNoise x d ++ [semicolon, newline] ++ more) = _
  rw [List.append_assoc, offsetsOf_append, offsetsOf_none h.flat, length_stripNoise]
  rfl

theorem Line.length_copy (d : Dialect) (l : Line) : (l.copy d).length = l.text.length := by
  cases l with
  | blank => rfl
  | remark t => simp [Line.copy, Line.text]
  | live x => simp [Line.copy, Line.text, length_stripNoise]

theorem offsets_rest (hlive : ∀ x, l ≠ .live x) (base : Nat) (more : Bytes) :
    offsetsOf semicolon base (l.copy d ++ more) = offsetsOf semicolon (base + l.text.length) more := by
  have hnone : semicolon ∉ l.copy d := by
    cases l with
    | blank => exact (by decide : semicolon ∉ [newline])
    | remark t =>
      intro hmem
      rcases List.mem_append.mp hmem with hmem | hmem
      · exact absurd (List.eq_of_mem_replicate hmem) (by decide)
      · exact absurd hmem (by decide)
    | live x => exact absurd rfl (hlive x)
  rw [offsetsOf_append, offsetsOf_none hnone, List.nil_append, Line.length_copy]

theorem chunks_rest (hlive : ∀ x, l ≠ .live x) (lead : Bytes) (ls : List Line) :
    chunks lead (l :: ls) = chunks (lead ++ l.text) ls := by
  cases l with
  | blank | remark => rfl
  | live x => exact absurd rfl (hlive x)

/-- The stretches of the lines from behind `pre` on, the text `lead` standing in front of them. -/
theorem stretches_script (ls : List Line) (h : ∀ l ∈ ls, l.Clean d) (pre lead : Bytes) :
    (stretches (pre ++ (lead ++ scriptText ls)).length pre.length
      (offsetsOf semicolon (pre.length + lead.length) (ls.flatMap (Line.copy d)))).map
        (fun r => slice (pre ++ (lead ++ scriptText ls)) r.1 r.2) = (chunks lead ls).map chunkText := by
  induction ls generalizing pre lead with
  | nil =>
    show [slice (pre ++ (lead ++ [])) pre.length (pre ++ (lead ++ [])).length] = [lead ++ []]
    rw [slice, List.take_length, List.drop_left]
  | cons l ls ih =>
    have hrest : ∀ l' ∈ ls, l'.Clean d := fun l' hl' => h l' (List.mem_cons_of_mem l hl')
    by_cases hlive : ∃ x, l = .live x
    · obtain ⟨x, rfl⟩ := hlive
      have hx : Enclosing d x := h _ List.mem_cons_self
      have hnext := ih hrest (pre ++ (lead ++ x) ++ [semicolon]) [newline]
      have hshape : pre ++ (lead ++ scriptText (.live x :: ls)) =
          pre ++ (lead ++ x) ++ [semicolon] ++ ([newline] ++ scriptText ls) := by
        show pre ++ (lead ++ (x ++ [semicolon, newline] ++ scriptText ls)) = _
        simp
      have hlen : (pre ++ (lead ++ x) ++ [semicolon]).length = pre.length + lead.length + x.length + 1 := by
        simp only [List.length_append, List.length_singleton, Nat.add_assoc]
      rw [List.flatMap_cons, offsets_live hx, hshape]
      rw [hlen] at hnext
      show slice _ _ _ :: _ = (lead ++ x) :: _
      refine congrArg₂ List.cons ?_ hnext
      have hslice := slice_append_append pre (lead ++ x) ([semicolon] ++ ([newline] ++ scriptText ls))
      rw [List.length_append, ← Nat.add_assoc, ← List.append_assoc] at hslice
      exact hslice
    · have hlive : ∀ x, l ≠ .live x := fun x hx => hlive ⟨x, hx⟩
      have hnext := ih hrest pre (lead ++ l.text)
      rw [List.append_assoc, show (lead ++ l.text).length = lead.length + l.text.length from
        List.length_append, ← Nat.add_assoc] at hnext
      rw [List.flatMap_cons, offsets_rest hlive, chunks_rest hlive]
      exact hnext

/-- Every stretch begins with a head that is plain. -/
theorem plainHead_script (ls : List Line) (h : ∀ l ∈ ls, l.Clean d) (pre lead : Bytes) (hpre : Opens pre)
    (hlead : statementHead d (pre ++ (lead ++ scriptText ls)) pre.length =
      statementHead d (pre ++ (lead ++ scriptText ls)) (pre.length + lead.length))
    (hopens : Opens (pre ++ lead)) {r : Nat × Nat}
    (hr : r ∈ stretches (pre ++ (lead ++ scriptText ls)).length pre.length
      (offsetsOf semicolon (pre.length + lead.length) (ls.flatMap (Line.copy d)))) :
    PlainHead (pre ++ (lead ++ scriptText ls)) (statementHead d (pre ++ (lead ++ scriptText ls)) r.1) := by
  induction ls generalizing pre lead with
  | nil =>
    obtain rfl := List.mem_singleton.mp hr
    have hend : pre.length + lead.length = (pre ++ (lead ++ scriptText [])).length := by
      simp [scriptText]
    have hnot : isLead d (pre ++ (lead ++ scriptText [])) (pre.length + lead.length) = false := by
      rw [isLead, List.getElem?_eq_none (Nat.le_of_eq hend.symm)]
      rfl
    dsimp only
    rw [hlead, statementHead_self hnot, hend]
    exact plainHead_end _
  | cons l ls ih =>
    have hrest : ∀ l' ∈ ls, l'.Clean d := fun l' hl' => h l' (List.mem_cons_of_mem l hl')
    by_cases hlive : ∃ x, l = .live x
    · obtain ⟨x, rfl⟩ := hlive
      have hx : Enclosing d x := h _ List.mem_cons_self
      obtain ⟨p, hp, t, rfl⟩ := hx.head
      rw [List.flatMap_cons, offsets_live hx] at hr
      rcases List.mem_cons.mp hr with rfl | hr
      · -- the head of the statement itself
        have hshape : pre ++ (lead ++ scriptText (.live (p ++ t) :: ls)) =
            (pre ++ lead) ++ (p ++ (t ++ [semicolon, newline] ++ scriptText ls)) := by
          show pre ++ (lead ++ (p ++ t ++ [semicolon, newline] ++ scriptText ls)) = _
          simp
        have hlen : pre.length + lead.length = (pre ++ lead).length := List.length_append.symm
        have hself : isLead d (pre ++ (lead ++ scriptText (.live (p ++ t) :: ls)))
            (pre.length + lead.length) = false := by
          rw [hshape, hlen, ← Nat.add_zero (pre ++ lead).length, isLead_shift hopens]
          exact not_lead_head hp _
        dsimp only
        rw [hlead, statementHead_self hself, hshape, hlen, ← Nat.add_zero (pre ++ lead).length,
          plainHead_shift]
        exact plainHead_head hp _
      · have hshape : pre ++ (lead ++ scriptText (.live (p ++ t) :: ls)) =
            pre ++ (lead ++ (p ++ t)) ++ [semicolon] ++ ([newline] ++ scriptText ls) := by
          show pre ++ (lead ++ (p ++ t ++ [semicolon, newline] ++ scriptText ls)) = _
          simp
        have hlen : (pre ++ (lead ++ (p ++ t)) ++ [semicolon]).length =
            pre.length + lead.length + (p ++ t).length + 1 := by
          simp only [List.length_append, List.length_singleton, Nat.add_assoc]
        rw [hshape] at hr ⊢
        refine ih hrest _ _ (opens_concat (by decide)) ?_ ?_ ?_
        · exact statementHead_blank (getElem?_behind _ newline _)
        · exact opens_concat (by decide)
        · rw [hlen]
          exact hr
    · have hlive : ∀ x, l ≠ .live x := fun x hx => hlive ⟨x, hx⟩
      have hshape : pre ++ (lead ++ scriptText (l :: ls)) = pre ++ (lead ++ l.text ++ scriptText ls) := by
        rw [List.append_assoc lead]
        rfl
      have hline := statementHead_line hopens (h l List.mem_cons_self) hlive (scriptText ls)
      rw [List.append_assoc, List.length_append] at hline
      rw [List.flatMap_cons, offsets_rest hlive] at hr
      rw [hshape] at hr hlead ⊢
      refine ih hrest _ _ hpre ?_ ?_ ?_
      · rw [hlead, List.length_append, ← Nat.add_assoc, List.append_assoc lead]
        exact hline
      · rw [← List.append_assoc]
        intro c hc
        refine l.opens c ?_
        have hne : l.text ≠ [] := by cases l <;> simp [Line.text]
        rwa [List.getLast?_append_of_ne_nil _ hne] at hc
      · rw [show (lead ++ l.text).length = lead.length + l.text.length from List.length_append,
          ← Nat.add_assoc]
        exact hr

/-- **What the splitter makes of the lines**: the statements, each behind the comments in front of
it. -/
theorem splitStatements_script (h : ∀ l ∈ ls, l.Clean d) : splitStatements (scriptText ls) d =
      ((chunks [] ls).map fun p => trim (chunkText p)).filter fun s => !s.isEmpty := by
  obtain ⟨hcopy, hexec⟩ := (script_passes h []).whole
  have hheads : ∀ r ∈ semicolonStretches (scriptText ls) d,
      PlainHead (scriptText ls) (statementHead d (scriptText ls) r.1) := by
    intro r hr
    rw [semicolonStretches, hcopy] at hr
    exact plainHead_script ls h [] [] (fun c hc => by cases hc) rfl (fun c hc => by cases hc) hr
  have hsame := (sameStructure_iff (fun r hr => (hheads r hr).1) hexec).mpr fun r hr hroutine => by
    rw [(hheads r (List.dropLast_subset _ hr)).2] at hroutine
    exact Bool.noConfusion hroutine
  have hslices := stretches_script ls h [] []
  rw [← hcopy] at hslices
  unfold splitStatements
  rw [hsame.1]
  refine congrArg (List.filter fun s : Bytes => !s.isEmpty) ?_
  have hmapped := congrArg (List.map trim) hslices
  rwa [List.map_map, List.map_map] at hmapped

end Lines

end RedDb.Sql
