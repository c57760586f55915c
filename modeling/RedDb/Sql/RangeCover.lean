import RedDb.Sql.CharBounds
import RedDb.Sql.Compose

/-!
# RedDb — what the statement ranges leave out

The splitter pushes a range at every separator it stands on and one for what is left. A
`DELIMITER` line is pushed nowhere, nor are the blanks and comments between it and the separator
before it: `start` moves behind the line, a comment above a statement being no part of it.

* `Covers` — the ranges read off a text, with what stands between two of them;
* `scanRun_covers` — the splitter's ranges are;
* `Covers.ordered` — in bounds, one behind the other;
* `Covers.boundaries` — they cut a text between characters.
-/

namespace RedDb.Sql

open ByteText Utf8

/-- Blanks and comments only, from `i` to `j`. -/
abbrev Lead (d : Dialect) (b : Bytes) : Nat → Nat → Prop :=
  Relation.ReflTransGen fun i j => isLead d b i = true ∧ j = lexNext d b b.length i

/-- The ranges of the text from `lo` on, `delim` being the separator: behind each one but the
last stands the separator, and before one may stand `DELIMITER` lines with their leads. -/
inductive Covers (Ahead : Nat → Nat → Prop) (b : Bytes) : Delimiter → Nat → List (Nat × Nat) → Prop
  | last {delim : Delimiter} {lo : Nat} : lo ≤ b.length → Covers Ahead b delim lo [(lo, b.length)]
  | cut {delim : Delimiter} {lo hi : Nat} {ranges : List (Nat × Nat)} :
    lo ≤ hi → delim.token <+: b.drop hi → Covers Ahead b delim (hi + delim.token.length) ranges →
    Covers Ahead b delim lo ((lo, hi) :: ranges)
  | directive {delim : Delimiter} {lo word : Nat} {ranges : List (Nat × Nat)} :
    Ahead lo word → eqIgnoreAsciiCase (slice b word (wordEnd b word)) (ascii "delimiter") = true →
    Covers Ahead b (delim.ofLine (restOfLine b (wordEnd b word)).1) (restOfLine b (wordEnd b word)).2 ranges →
    Covers Ahead b delim lo ranges

section Leads

variable {d : Dialect} {b : Bytes} {i j : Nat}

theorem Lead.le (h : Lead d b i j) : i ≤ j := by
  induction h with
  | refl => exact Nat.le_refl _
  | tail _ hround ih =>
    obtain ⟨hlead, rfl⟩ := hround
    have := (lexNext_bounds (Nat.le_refl b.length) (d := d) (lt_of_isLead hlead)).1
    omega

end Leads

/-! ## The splitter's ranges -/

section Rounds

variable {d : Dialect} {b : Bytes} {s t : Scan}

/-- What a round does to the range being read. -/
theorem scanStep_range (hi : s.i < b.length) :
    atDelimiter b s = true ∧ scanStep d b s = s.cut ∨
      onDirective b s = true ∧ scanStep d b s =
        { s with
          delim := s.delim.ofLine (restOfLine b (wordEnd b s.i)).1
          i := (restOfLine b (wordEnd b s.i)).2
          start := (restOfLine b (wordEnd b s.i)).2 } ∨
      (scanStep d b s).start = s.start ∧ (scanStep d b s).delim = s.delim ∧ (scanStep d b s).out = s.out ∧
        ((scanStep d b s).fresh = true →
          s.fresh = true ∧ isLead d b s.i = true ∧ (scanStep d b s).i = lexNext d b b.length s.i) := by
  cases hat : atDelimiter b s with
  | true => exact Or.inl ⟨rfl, scanStep_cut hat⟩
  | false =>
    have hc : b[s.i]? = some b[s.i] := List.getElem?_eq_getElem hi
    cases hw : isWordByte b[s.i] with
    | false =>
      rw [scanStep_lexeme hat hc hw]
      refine Or.inr (Or.inr ⟨rfl, rfl, rfl, fun hfresh => ?_⟩)
      obtain ⟨hf, hlead⟩ := Bool.and_eq_true_iff.mp hfresh
      exact ⟨hf, hlead, rfl⟩
    | true =>
      have hplain : isPlain b[s.i] = true := by simp [isPlain, hw]
      rw [scanStep_eq hat hc, noiseEnd_plain hc hplain]
      simp only [hw, if_true]
      cases hdir : onDirective b s with
      | true =>
        refine Or.inr (Or.inl ⟨rfl, ?_⟩)
        unfold wordStep
        unfold onDirective at hdir
        simp only [hdir, if_true]
      | false =>
        rw [wordStep_eq hdir]
        refine Or.inr (Or.inr ?_)
        unfold Scan.afterWord
        split
        · exact ⟨rfl, rfl, rfl, fun hfresh => Bool.noConfusion hfresh⟩
        · exact ⟨rfl, rfl, rfl, fun hfresh => Bool.noConfusion hfresh⟩

/-- What holds whenever the loop comes round: the text up to `start` is covered, and until a
statement's first word only its lead has been read. -/
structure Reading (d : Dialect) (b : Bytes) (s : Scan) : Prop where
  start_le : s.start ≤ s.i
  i_le : s.i ≤ b.length
  lead : s.fresh = true → Lead d b s.start s.i
  covered : ∀ ranges, Covers (Lead d b) b s.delim s.start ranges →
    Covers (Lead d b) b .semicolon 0 (s.out ++ ranges)

theorem Reading.step (h : Reading d b s) (hi : s.i < b.length) : Reading d b (scanStep d b s) := by
  obtain ⟨hmore, hle⟩ := scanStep_bounds (d := d) hi
  obtain ⟨hat, heq⟩ | ⟨hdir, heq⟩ | ⟨hstart, hdelim, hout, hfresh⟩ := scanStep_range (d := d) hi
  · rw [heq] at hle ⊢
    have hdelim := List.isPrefixOf_iff_prefix.mp (Bool.and_eq_true_iff.mp hat).2
    refine ⟨Nat.le_refl _, hle, fun _ => Relation.ReflTransGen.refl, fun ranges hranges => ?_⟩
    simp only [Scan.cut] at hranges ⊢
    rw [List.append_assoc]
    exact h.covered _ (.cut h.start_le hdelim hranges)
  · rw [heq] at hle ⊢
    obtain ⟨hfresh, hword⟩ := Bool.and_eq_true_iff.mp hdir
    exact ⟨Nat.le_refl _, hle, fun _ => Relation.ReflTransGen.refl,
      fun ranges hranges => h.covered ranges (.directive (h.lead hfresh) hword hranges)⟩
  · refine ⟨by have := h.start_le; omega, hle, fun hf => ?_, ?_⟩
    · obtain ⟨hwas, hlead, hnext⟩ := hfresh hf
      rw [hstart, hnext]
      exact (h.lead hwas).tail ⟨hlead, rfl⟩
    · rw [hstart, hdelim, hout]
      exact h.covered

/-- **Coverage.** -/
theorem scanRun_covers (d : Dialect) (b : Bytes) :
    Covers (Lead d b) b .semicolon 0 (statementRanges b d) := by
  have hinit : Reading d b .init :=
    ⟨Nat.le_refl _, Nat.zero_le _, fun _ => Relation.ReflTransGen.refl, fun ranges h => h⟩
  have hend := WhileLoop.Visits.inv (I := Reading d b) (fun s hs h => h.step (of_decide_eq_true hs))
    (scanRun_visits d b .init) hinit
  exact hend.covered _ (.last (Nat.le_trans hend.start_le hend.i_le))

end Rounds

/-! ## Covering ranges -/

section Covering

variable {d : Dialect} {b : Bytes} {delim : Delimiter} {lo : Nat} {ranges : List (Nat × Nat)}

theorem le_restOfLine (start : Nat) (h : start ≤ b.length) : start ≤ (restOfLine b start).2 := by
  unfold restOfLine
  simp only
  omega

theorem directive_le {word : Nat}
    (h : eqIgnoreAsciiCase (slice b word (wordEnd b word)) (ascii "delimiter") = true) :
    word < wordEnd b word ∧ wordEnd b word ≤ b.length := by
  have hlen : (slice b word (wordEnd b word)).length = 9 := by
    have heq := congrArg List.length (beq_iff_eq.mp h)
    unfold asciiLower at heq
    rw [List.length_map, List.length_map] at heq
    exact heq
  unfold slice at hlen
  rw [List.length_drop, List.length_take] at hlen
  have hword : word ≤ b.length := by omega
  exact ⟨by omega, wordEnd_le hword⟩

/-- The ranges lie in the text, each behind the one before. -/
theorem Covers.ordered (h : Covers (Lead d b) b delim lo ranges) :
    (∀ r ∈ ranges, lo ≤ r.1 ∧ r.1 ≤ r.2 ∧ r.2 ≤ b.length) ∧ ranges.Pairwise fun r s => r.2 < s.1 := by
  induction h with
  | last hlo =>
    refine ⟨fun r hr => ?_, List.pairwise_singleton _ _⟩
    obtain rfl := List.mem_singleton.mp hr
    exact ⟨Nat.le_refl _, hlo, Nat.le_refl _⟩
  | @cut delim lo hi ranges hle hdelim _ ih =>
    have hlen := hdelim.length_le
    have hpos := List.length_pos_iff.mpr delim.nonempty
    rw [List.length_drop] at hlen
    refine ⟨fun r hr => ?_, List.pairwise_cons.mpr ⟨fun r hr => ?_, ih.2⟩⟩
    · rcases List.mem_cons.mp hr with rfl | hr
      · exact ⟨Nat.le_refl _, hle, by simp only; omega⟩
      · have := ih.1 r hr
        omega
    · have := (ih.1 r hr).1
      simp only
      omega
  | directive hlead hword _ ih =>
    have hle := Lead.le hlead
    obtain ⟨hlt, hend⟩ := directive_le hword
    have hline := le_restOfLine _ hend
    refine ⟨fun r hr => ?_, ih.2⟩
    have := ih.1 r hr
    omega

end Covering

section Text

variable {d : Dialect} {t : List Char} {delim : Delimiter} {lo : Nat} {ranges : List (Nat × Nat)}

/-- Where a separator stands a character begins, and one behind it. -/
theorem boundary_delim {hi : Nat} (htoken : ∃ u, delim.token = encode u) (hdelim : delim.token <+: (encode t).drop hi) :
    Boundary (encode t) hi ∧ Boundary (encode t) (hi + delim.token.length) := by
  obtain ⟨u, hu⟩ := htoken
  obtain ⟨behind, hbehind⟩ := hdelim
  have hpos := List.length_pos_iff.mpr delim.nonempty
  have hlen := congrArg List.length hbehind
  rw [List.length_append, List.length_drop] at hlen
  have hfirst : Boundary (encode t) hi := by
    intro c hc
    rw [← Nat.add_zero hi, ← List.getElem?_drop, ← hbehind, List.getElem?_append_left hpos, hu] at hc
    exact boundary_zero u c hc
  obtain ⟨v, hv⟩ := drop_text hfirst (by omega)
  rw [hu, hv] at hbehind
  obtain ⟨w, rfl, -⟩ := encode_append_inj hbehind.symm
  refine ⟨hfirst, fun c hc => ?_⟩
  rw [← List.getElem?_drop, hv, encode_append, hu, List.getElem?_append_right (Nat.le_refl _), Nat.sub_self] at hc
  exact boundary_zero w c hc

theorem boundary_restOfLine {start : Nat} (h : start ≤ (encode t).length) :
    Boundary (encode t) (restOfLine (encode t) start).2 := by
  unfold restOfLine
  simp only
  have hle := takeWhile_length_le (· != newline) ((encode t).drop start)
  rw [List.length_drop] at hle
  rcases Nat.lt_or_ge (((encode t).drop start).takeWhile (· != newline)).length ((encode t).drop start).length with hlt | hge
  · obtain ⟨c, hc, hstop⟩ := takeWhile_stop hlt
    obtain rfl : c = newline := by simpa using hstop
    rw [List.getElem?_drop] at hc
    have hend := lt_of_getElem?_eq_some hc
    rw [Nat.min_eq_left hend]
    exact boundary_after hc (by decide)
  · rw [List.length_drop] at hge
    rw [Nat.min_eq_right (by omega)]
    exact boundary_end

/-- The separator of a directive's line is text. -/
theorem ofLine_text {start : Nat} (h : start ≤ (encode t).length) (hstart : Boundary (encode t) start)
    (htoken : ∃ u, delim.token = encode u) : ∃ u, (delim.ofLine (restOfLine (encode t) start).1).token = encode u := by
  obtain ⟨v, hv⟩ := drop_text hstart h
  obtain ⟨line, hline⟩ := takeWhile_text (p := (· != newline))
    (fun c hc => newline_ascii hc) v
  obtain ⟨behind, hbehind⟩ := dropWhile_text (p := isAsciiWhitespace) (fun c hc => whitespace_ascii hc) line
  obtain ⟨token, htok⟩ := takeWhile_text (p := fun c => !isAsciiWhitespace c)
    (fun c hc => whitespace_ascii (by simpa using hc)) behind
  unfold Delimiter.ofLine restOfLine
  simp only
  split
  · exact htoken
  · exact ⟨token, by simp only; rw [hv, hline, hbehind, htok]⟩

/-- The ranges of a text begin and end between its characters. -/
theorem Covers.boundaries (h : Covers (Lead d (encode t)) (encode t) delim lo ranges) (hlo : Boundary (encode t) lo)
    (htoken : ∃ u, delim.token = encode u) :
    ∀ r ∈ ranges, Boundary (encode t) r.1 ∧ Boundary (encode t) r.2 := by
  induction h with
  | last _ =>
    intro r hr
    obtain rfl := List.mem_singleton.mp hr
    exact ⟨hlo, boundary_end⟩
  | cut _ hdelim _ ih =>
    obtain ⟨hhi, hnext⟩ := boundary_delim htoken hdelim
    intro r hr
    rcases List.mem_cons.mp hr with rfl | hr
    · exact ⟨hlo, hhi⟩
    · exact ih hnext htoken r hr
  | @directive delim lo word ranges _ hword _ ih =>
    obtain ⟨hlt, hle⟩ := directive_le hword
    obtain ⟨c, hc, hp⟩ : ∃ c, (encode t)[wordEnd (encode t) word - 1]? = some c ∧ isWordByte c = true := by
      refine takeWhile_span (show word ≤ wordEnd (encode t) word - 1 by omega) ?_
      unfold wordEnd at hlt ⊢
      omega
    have hbehind := boundary_after hc (word_ascii hp)
    rw [Nat.sub_add_cancel (by omega)] at hbehind
    exact ih (boundary_restOfLine hle) (ofLine_text hle hbehind htoken)

end Text

/-! ## The two scanners -/

/-- **The scans are total and keep to the text.** The stripper's copy is text, byte for byte the
text or a space, line feeds staying where they are; the splitter's ranges lie in the text one
behind the other, begin and end between characters, and leave out separators, `DELIMITER` lines
and what leads up to those. -/
theorem scans_cover (d : Dialect) (t : List Char) :
    (∃ copy, stripNoise (encode t) d = encode copy) ∧
      (stripNoise (encode t) d).length = (encode t).length ∧
      List.Forall₂ Dimmed (stripNoise (encode t) d) (encode t) ∧ (∀ fuel, (encode t).length ≤ fuel →
        stripInto d (encode t) fuel 0 (encode t).length = stripNoise (encode t) d) ∧
      scanning (encode t) (scanRun d (encode t) .init) = false ∧
      (∀ fuel start, (encode t).length < fuel →
        thenFollowsFrom d (encode t) fuel start 0 = thenFollows (encode t) start d) ∧
      (∀ r ∈ statementRanges (encode t) d,
        r.1 ≤ r.2 ∧ r.2 ≤ (encode t).length ∧ Boundary (encode t) r.1 ∧ Boundary (encode t) r.2) ∧
      (statementRanges (encode t) d).Pairwise (fun r s => r.2 < s.1) ∧
      Covers (Lead d (encode t)) (encode t) .semicolon 0 (statementRanges (encode t) d) := by
  have hcovers := scanRun_covers d (encode t)
  have hbounds := hcovers.boundaries (boundary_zero t) ⟨[';'], rfl⟩
  refine ⟨stripNoise_text d t, length_stripNoise _ d, stripNoise_dimmed _ d, fun fuel hfuel => ?_, ?_,
    fun fuel start hfuel => thenFollowsFrom_fuel _ _ _ _ (by omega) (by omega), fun r hr => ?_, hcovers.ordered.2, hcovers⟩
  · exact stripInto_fuel _ _ _ _ (Nat.le_refl _) (by omega) (by omega)
  · rw [scanning, scanRun_done d (encode t) .init (Nat.zero_le _)]
    exact decide_eq_false (Nat.lt_irrefl _)
  · exact ⟨(hcovers.ordered.1 r hr).2.1, (hcovers.ordered.1 r hr).2.2, hbounds r hr⟩

/-- A comment above a `DELIMITER` line is in no range, and it is not blank. -/
theorem remark_uncovered :
    ¬ Covers (fun lo word => (slice (ascii "-- a\nDELIMITER $$\n") lo word).all isAsciiWhitespace = true)
      (ascii "-- a\nDELIMITER $$\n") .semicolon 0 (statementRanges (ascii "-- a\nDELIMITER $$\n") .generic) := by
  have hranges : statementRanges (ascii "-- a\nDELIMITER $$\n") .generic = [(18, 18)] := by decide
  rw [hranges]
  intro h
  generalize hlo : (0 : Nat) = lo at h
  cases h with
  | last | cut => exact absurd hlo (by decide)
  | @directive _ _ word _ hlead hword _ =>
    subst hlo
    rcases Nat.eq_zero_or_pos word with rfl | hpos
    · exact absurd hword (by decide)
    have hdash : slice (ascii "-- a\nDELIMITER $$\n") 0 word = dash :: ((ascii "- a\nDELIMITER $$\n").take (word - 1)) := by
      obtain ⟨k, rfl⟩ : ∃ k, word = k + 1 := ⟨word - 1, by omega⟩
      rfl
    rw [hdash] at hlead
    exact absurd (Bool.and_eq_true_iff.mp hlead).1 (by decide)

end RedDb.Sql
