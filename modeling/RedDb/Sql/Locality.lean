import RedDb.Sql.Split

/-!
# RedDb — splitting from left to right

A script `p` that ends at its separator, outside any block, is a run of whole
statements. Whether text `q` after it can move one of its boundaries is decided
by the lookaheads of the splitter: `routine_ddl_at`, `opens_block`, the kind word
after an `END`, and the tag of a `$`. All but the last read past the statement
they are about, and stop at a `;` if at all, never at the separator in force.

* `scanStep_append_iff` — a round on `p` is the same round on `p ++ q` exactly
  when its lookaheads are (`LooksLocal`);
* `statementRanges_append` — then the statements of `p` come first in `p ++ q`;
* `dropIfExists_not_local` — a `DROP … IF EXISTS` under `DELIMITER $$` that a later
  routine reopens.
-/

namespace RedDb.Sql

open ByteText

/-! ## Lexemes that end before the text does -/

variable {u : Bytes}

theorem quotedLen_append_of_lt {q : UInt8} {escapes : Bool} (v : Bytes)
    (h : quotedLen q escapes u < u.length) :
    quotedLen q escapes (u ++ v) = quotedLen q escapes u := by
  fun_induction quotedLen q escapes u with
  | case1 => simp at h
  | case2 c hc => simp at h
  | case3 c hc e rest he ih =>
    simp only [List.length_cons] at h
    simp [quotedLen, hc, he, ih (by omega)]
  | case4 c hc e rest he => simp [quotedLen, hc, he]
  | case5 c hc he => simp at h
  | case6 c hc he e rest ih =>
    simp only [List.length_cons] at h
    simp [quotedLen, hc, he, ih (by omega)]
  | case7 c rest hc he ih =>
    simp only [List.length_cons] at h
    rw [List.cons_append, quotedLen_plain hc he, ih (by omega)]

theorem blockLen_append_of_lt {nests second : Bool} {depth : Nat} (v : Bytes)
    (h : blockLen nests second depth u < u.length) :
    blockLen nests second depth (u ++ v) = blockLen nests second depth u := by
  have := blockLen_append nests second depth u v
  omega

theorem takeWhile_append_of_lt {p : UInt8 → Bool} (v : Bytes)
    (h : (u.takeWhile p).length < u.length) : (u ++ v).takeWhile p = u.takeWhile p := by
  induction u with
  | nil => simp at h
  | cons a u ih =>
    rw [List.takeWhile_cons] at h
    rw [List.cons_append, List.takeWhile_cons, List.takeWhile_cons]
    split
    · rename_i ha
      rw [if_pos ha, List.length_cons, List.length_cons] at h
      rw [ih (by omega)]
    · rfl

theorem takeWhile_stop {p : UInt8 → Bool} (h : (u.takeWhile p).length < u.length) :
    ∃ c, u[(u.takeWhile p).length]? = some c ∧ p c = false := by
  induction u with
  | nil => simp at h
  | cons a u ih =>
    rw [List.takeWhile_cons] at h ⊢
    cases ha : p a with
    | false => exact ⟨a, rfl, ha⟩
    | true =>
      rw [ha] at h
      simp only [if_true, List.length_cons] at h ⊢
      exact ih (by omega)

variable {d : Dialect} {i : Nat} {c : UInt8}

section Append

variable {p : Bytes} (q : Bytes)

theorem wordEnd_append (hi : i ≤ p.length) (h : wordEnd p i < p.length) :
    wordEnd (p ++ q) i = wordEnd p i := by
  unfold wordEnd at h ⊢
  rw [drop_take hi, takeWhile_append_of_lt]
  rw [List.length_drop]
  omega

theorem slice_append {j : Nat} (hj : j ≤ p.length) : slice (p ++ q) i j = slice p i j := by
  unfold slice
  rw [List.take_append_of_le_length hj]

theorem skipQuoted_append {escapes : Bool} (hi : i < p.length)
    (h : skipQuoted p i c escapes < p.length) :
    skipQuoted (p ++ q) i c escapes = skipQuoted p i c escapes := by
  unfold skipQuoted at h ⊢
  rw [drop_take (by omega), quotedLen_append_of_lt]
  rw [List.length_drop]
  omega

theorem lineCommentEnd_append {s : Nat} (h : lineCommentEnd p s < p.length) :
    lineCommentEnd (p ++ q) s = lineCommentEnd p s := by
  unfold lineCommentEnd at h ⊢
  have hs : s ≤ p.length := by omega
  rw [drop_take hs, takeWhile_append_of_lt]
  · rw [List.length_append]
    omega
  · rw [List.length_drop]
    omega

theorem skipBlockComment_append (hi : i + 1 < p.length) (h : skipBlockComment p i d < p.length) :
    skipBlockComment (p ++ q) i d = skipBlockComment p i d := by
  unfold skipBlockComment at h ⊢
  rw [drop_take (by omega), blockLen_append_of_lt]
  rw [List.length_drop]
  omega

theorem dashCommentAt_append (hi : i + 1 < p.length)
    (h : d.dashCommentAt p i = true → lineCommentEnd p (i + 2) < p.length) :
    d.dashCommentAt (p ++ q) i = d.dashCommentAt p i := by
  by_cases h2 : i + 2 < p.length
  · unfold Dialect.dashCommentAt
    rw [getElem?_take (by omega), getElem?_take hi, getElem?_take h2]
  -- a `--` that ends the text is a comment in every dialect
  have hend : ¬ lineCommentEnd p (i + 2) < p.length := by
    unfold lineCommentEnd
    omega
  have hno : d.dashCommentAt p i = false := by
    cases hd : d.dashCommentAt p i with
    | false => rfl
    | true => exact absurd (h hd) hend
  have hdash : (p[i]? == some dash && p[i + 1]? == some dash) = false := by
    unfold Dialect.dashCommentAt at hno
    rw [List.getElem?_eq_none (show p.length ≤ i + 2 by omega)] at hno
    cases d <;> simpa using hno
  rw [hno]
  unfold Dialect.dashCommentAt
  rw [getElem?_take (by omega), getElem?_take hi, hdash, Bool.false_and]

/-- The end of the lexeme at `i` is the same in a longer text, dollar quotes aside. -/
theorem noiseEnd_append (hi : i + 1 < p.length)
    (hnext : lexNext d p p.length i < p.length)
    (hdollar : p[i]? = some dollar → d.dollarQuotes = true →
      dollarQuoteEnd (p ++ q) i = dollarQuoteEnd p i) :
    noiseEnd d (p ++ q) (p ++ q).length i = noiseEnd d p p.length i := by
  have hlen : p.length ≤ (p ++ q).length := by rw [List.length_append]; omega
  have key : ∀ f, min f p.length < p.length → min f (p ++ q).length = min f p.length :=
    fun f hf => by omega
  have key' : ∀ f, min f p.length < p.length → f < p.length := fun f hf => by omega
  have hdash : d.dashCommentAt p i = true → lineCommentEnd p (i + 2) < p.length := by
    intro hd
    have hc : p[i]? = some dash := by
      simp only [Dialect.dashCommentAt, Bool.and_eq_true, beq_iff_eq] at hd
      exact hd.1.1
    unfold lexNext noiseEnd at hnext
    rw [hc] at hnext
    simp only at hnext
    rw [if_neg (by decide), if_pos hd] at hnext
    exact key' _ hnext
  unfold lexNext at hnext
  unfold noiseEnd at hnext ⊢
  rw [getElem?_take (by omega), getElem?_take hi, dashCommentAt_append q hi hdash]
  cases hc : p[i]? with
  | none => rfl
  | some c =>
    rw [hc] at hnext
    simp only [quoteEscapes_take (show i < p.length by omega)] at hnext ⊢
    by_cases hq : isQuote c = true
    · rw [if_pos hq] at hnext ⊢
      rw [if_pos hq, skipQuoted_append q (by omega) (key' _ hnext), key _ hnext]
    rw [if_neg hq] at hnext ⊢
    rw [if_neg hq]
    by_cases hd : d.dashCommentAt p i = true
    · rw [if_pos hd] at hnext ⊢
      rw [if_pos hd, lineCommentEnd_append q (key' _ hnext), key _ hnext]
    rw [if_neg hd] at hnext ⊢
    rw [if_neg hd]
    by_cases hh : (c == hash && d.hashComments) = true
    · rw [if_pos hh] at hnext ⊢
      rw [if_pos hh, lineCommentEnd_append q (key' _ hnext), key _ hnext]
    rw [if_neg hh] at hnext ⊢
    rw [if_neg hh]
    simp only [hi, show i + 1 < (p ++ q).length by omega, decide_true, Bool.and_true]
      at hnext ⊢
    by_cases hb : (c == slash && p[i + 1]? == some star) = true
    · rw [if_pos hb] at hnext ⊢
      rw [if_pos hb, skipBlockComment_append q hi (key' _ hnext), key _ hnext]
    rw [if_neg hb] at hnext ⊢
    rw [if_neg hb]
    by_cases hs : (c == dollar && d.dollarQuotes) = true
    · obtain ⟨hs1, hs2⟩ := Bool.and_eq_true_iff.mp hs
      rw [if_pos hs] at hnext ⊢
      rw [if_pos hs, hdollar (by rw [hc, beq_iff_eq.mp hs1]) hs2]
      cases he : dollarQuoteEnd p i with
      | none => rfl
      | some e =>
        rw [he] at hnext
        simp only [Option.map_some]
        rw [key _ hnext]
    · rw [if_neg hs, if_neg hs]

theorem lexNext_append (hi : i + 1 < p.length)
    (hnext : lexNext d p p.length i < p.length)
    (hdollar : p[i]? = some dollar → d.dollarQuotes = true →
      dollarQuoteEnd (p ++ q) i = dollarQuoteEnd p i) :
    lexNext d (p ++ q) (p ++ q).length i = lexNext d p p.length i := by
  rw [lexNext, noiseEnd_append q hi hnext hdollar, lexNext]

theorem restOfLine_append (hi : i ≤ p.length) (h : (restOfLine p i).2 < p.length) :
    restOfLine (p ++ q) i = restOfLine p i := by
  unfold restOfLine at h ⊢
  simp only at h ⊢
  have hlt : ((p.drop i).takeWhile (· != newline)).length < (p.drop i).length := by
    rw [List.length_drop]
    omega
  rw [drop_take hi, takeWhile_append_of_lt q hlt, List.length_append]
  congr 1
  omega

end Append

/-! ## One round with more text behind it -/

/-- The lookaheads of a round that is no cut answer on `p ++ q` as they do on `p`. -/
structure LooksLocal (d : Dialect) (p q : Bytes) (s : Scan) : Prop where
  /-- the header window of a statement's first word -/
  header : (p[s.i]?).any isWordByte = true → onDirective p s = false → s.fresh = true →
    routineDdlAt (p ++ q) s.i = routineDdlAt p s.i
  /-- what a word of a routine body opens or closes -/
  body : (p[s.i]?).any isWordByte = true → onDirective p s = false → bodyMode p s = true →
    bodyWord d (p ++ q) s.i s.depth = bodyWord d p s.i s.depth
  /-- the tag and the end of a dollar quote -/
  dollar : p[s.i]? = some ByteText.dollar → d.dollarQuotes = true →
    dollarQuoteEnd (p ++ q) s.i = dollarQuoteEnd p s.i

variable {b : Bytes}

theorem dollarQuoteEnd_gt {e : Nat} (h : dollarQuoteEnd b i = some e) : i + 1 < e := by
  have hw := le_wordEnd b (i + 1)
  unfold dollarQuoteEnd at h
  simp only at h
  split at h
  · rename_i hd
    have hlt := lt_of_getElem?_eq_some (by simpa using hd)
    split at h
    · obtain rfl := Option.some.inj h
      omega
    · obtain rfl := Option.some.inj h
      omega
  · cases h

section Round

variable {d : Dialect} {p q : Bytes} {s : Scan}

/-- A round at a `$`. -/
theorem scanStep_dollar (hat : atDelimiter b s = false)
    (hc : b[s.i]? = some dollar) (hd : d.dollarQuotes = true) :
    scanStep d b s = { s with i := (dollarQuoteEnd b s.i).getD (s.i + 1), fresh := false } := by
  unfold scanStep
  rw [hat, hc]
  simp [isQuote, dollar, singleQuote, doubleQuote, backtick, Dialect.dashCommentAt, hc, dash,
    ByteText.hash, slash, hd]

/-- A round at a directive. -/
theorem scanStep_directive (hat : atDelimiter b s = false)
    (hc : b[s.i]? = some c) (hw : isWordByte c = true) (hdir : onDirective b s = true) :
    scanStep d b s =
      { s with
        delim := s.delim.ofLine (restOfLine b (wordEnd b s.i)).1
        i := (restOfLine b (wordEnd b s.i)).2
        start := (restOfLine b (wordEnd b s.i)).2 } := by
  rw [scanStep_eq hat hc, noiseEnd_plain hc (by simp [isPlain, hw])]
  simp only [if_pos hw]
  unfold wordStep
  unfold onDirective at hdir
  simp only [hdir, if_true]

/-- A round at a word that is no directive. -/
theorem scanStep_word (hat : atDelimiter b s = false)
    (hc : b[s.i]? = some c) (hw : isWordByte c = true) (hdir : onDirective b s = false) :
    scanStep d b s = s.afterWord (bodyMode b s) (bodyWord d b s.i s.depth) (wordEnd b s.i) := by
  rw [scanStep_eq hat hc, noiseEnd_plain hc (by simp [isPlain, hw])]
  simp only [if_pos hw]
  exact wordStep_eq hdir

/-- The lexeme round, which looks ahead at a `$` only. -/
theorem scanStep_append_lexeme (hat : atDelimiter p s = false)
    (hat' : atDelimiter (p ++ q) s = false) (hi : s.i < p.length)
    (hw : isWordByte p[s.i] = false) (hnext : (scanStep d p s).i < p.length) :
    scanStep d (p ++ q) s = scanStep d p s ↔ LooksLocal d p q s := by
  have hi1 : s.i + 1 < p.length := by
    have := (scanStep_bounds (d := d) hi).1
    omega
  have hc : p[s.i]? = some p[s.i] := List.getElem?_eq_getElem hi
  have hc' : (p ++ q)[s.i]? = some p[s.i] := by rw [getElem?_take hi, hc]
  have hstep := scanStep_lexeme (d := d) hat hc hw
  constructor
  · intro heq
    have hnw : ¬ (p[s.i]?).any isWordByte = true := by simp [hc, hw]
    refine ⟨fun h => absurd h hnw, fun h => absurd h hnw, fun hd hq => ?_⟩
    have hi' := congrArg Scan.i heq
    rw [scanStep_dollar hat hd hq, scanStep_dollar hat' (by rw [getElem?_take hi, hd]) hq] at hi'
    simp only at hi'
    cases h1 : dollarQuoteEnd (p ++ q) s.i with
    | none =>
      cases h2 : dollarQuoteEnd p s.i with
      | none => rfl
      | some e =>
        have := dollarQuoteEnd_gt h2
        rw [h1, h2, Option.getD_none, Option.getD_some] at hi'
        omega
    | some e' =>
      cases h2 : dollarQuoteEnd p s.i with
      | none =>
        have := dollarQuoteEnd_gt h1
        rw [h1, h2, Option.getD_none, Option.getD_some] at hi'
        omega
      | some e =>
        rw [h1, h2, Option.getD_some, Option.getD_some] at hi'
        rw [hi']
  · intro h
    rw [hstep] at hnext
    have hnoise := noiseEnd_append q hi1 hnext h.dollar
    have hlead : isLead d (p ++ q) s.i = isLead d p s.i := by
      unfold isLead
      rw [getElem?_take hi, hnoise]
    rw [scanStep_lexeme hat' hc' hw, hstep, lexNext_append q hi1 hnext h.dollar, hlead]

/-- The end of a word is passed by its round. -/
theorem wordEnd_le_scanStep (hat : atDelimiter p s = false) (hi : s.i < p.length)
    (hw : isWordByte p[s.i] = true) : wordEnd p s.i ≤ (scanStep d p s).i := by
  have hc : p[s.i]? = some p[s.i] := List.getElem?_eq_getElem hi
  cases hdir : onDirective p s with
  | false =>
    rw [scanStep_word hat hc hw hdir, Scan.afterWord]
    split
    · exact (bodyWord_spec s.depth (Nat.le_of_lt hi)).1
    · exact Nat.le_refl _
  | true =>
    have := wordEnd_le (Nat.le_of_lt hi)
    rw [scanStep_directive hat hc hw hdir]
    simp only [restOfLine]
    omega

/-- The round of a directive, which looks at nothing past its own line. -/
theorem scanStep_append_directive (hat : atDelimiter p s = false)
    (hat' : atDelimiter (p ++ q) s = false) (hi : s.i < p.length)
    (hw : isWordByte p[s.i] = true) (hdir : onDirective p s = true)
    (hdir' : onDirective (p ++ q) s = true) (hword : wordEnd (p ++ q) s.i = wordEnd p s.i)
    (hnext : (scanStep d p s).i < p.length) : scanStep d (p ++ q) s = scanStep d p s := by
  have hc : p[s.i]? = some p[s.i] := List.getElem?_eq_getElem hi
  have hc' : (p ++ q)[s.i]? = some p[s.i] := by rw [getElem?_take hi, hc]
  have hstep := scanStep_directive (d := d) hat hc hw hdir
  rw [hstep] at hnext
  rw [scanStep_directive hat' hc' hw hdir', hstep, hword,
    restOfLine_append q (wordEnd_le (Nat.le_of_lt hi)) hnext]

/-- The round of a word that is no directive. -/
theorem scanStep_append_word (hat : atDelimiter p s = false)
    (hat' : atDelimiter (p ++ q) s = false) (hi : s.i < p.length)
    (hw : isWordByte p[s.i] = true) (hdir : onDirective p s = false)
    (hdir' : onDirective (p ++ q) s = false) (hword : wordEnd (p ++ q) s.i = wordEnd p s.i) :
    scanStep d (p ++ q) s = scanStep d p s ↔ LooksLocal d p q s := by
  have hc : p[s.i]? = some p[s.i] := List.getElem?_eq_getElem hi
  have hc' : (p ++ q)[s.i]? = some p[s.i] := by rw [getElem?_take hi, hc]
  have hany : (p[s.i]?).any isWordByte = true := by simp [hc, hw]
  rw [scanStep_word (d := d) hat hc hw hdir, scanStep_word hat' hc' hw hdir', hword]
  constructor
  · intro heq
    obtain ⟨hmode, hbody⟩ := Scan.afterWord_inj heq
    refine ⟨fun _ _ hf => ?_, fun _ _ hm => hbody (hmode.trans hm), fun hd => ?_⟩
    · simpa [bodyMode, hf] using hmode
    · rw [(List.getElem?_eq_some_iff.mp hd).2] at hw
      exact absurd hw (by decide)
  · intro h
    have hmode : bodyMode (p ++ q) s = bodyMode p s := by
      unfold bodyMode
      by_cases hf : s.fresh = true
      · rw [if_pos hf, if_pos hf, h.header hany hdir hf]
      · rw [if_neg hf, if_neg hf]
    rw [hmode]
    by_cases hm : bodyMode p s = true
    · rw [h.body hany hdir hm]
    · unfold Scan.afterWord
      rw [if_neg hm, if_neg hm]

/-- **A round with more text behind it** is the same round exactly when its
lookaheads are local. -/
theorem scanStep_append_iff (hat : atDelimiter p s = false)
    (hat' : atDelimiter (p ++ q) s = false) (hi : s.i < p.length)
    (hnext : (scanStep d p s).i < p.length) :
    scanStep d (p ++ q) s = scanStep d p s ↔ LooksLocal d p q s := by
  cases hw : isWordByte p[s.i] with
  | false => exact scanStep_append_lexeme hat hat' hi hw hnext
  | true =>
    have hend := wordEnd_le_scanStep (d := d) hat hi hw
    have hword := wordEnd_append q (Nat.le_of_lt hi) (by omega)
    have hdir' : onDirective (p ++ q) s = onDirective p s := by
      unfold onDirective
      rw [hword, slice_append q (wordEnd_le (Nat.le_of_lt hi))]
    cases hdir : onDirective p s with
    | true =>
      refine iff_of_true (scanStep_append_directive hat hat' hi hw hdir (hdir'.trans hdir) hword
        hnext) ⟨fun _ h => ?_, fun _ h => ?_, fun hd => ?_⟩
      · rw [hdir] at h
        cases h
      · rw [hdir] at h
        cases h
      · rw [(List.getElem?_eq_some_iff.mp hd).2] at hw
        exact absurd hw (by decide)
    | false => exact scanStep_append_word hat hat' hi hw hdir (hdir'.trans hdir) hword

end Round

/-! ## The run -/

/-- The text ends exactly at the separator in force, outside blocks, literals and
comments: the loop's last round is a cut. -/
def EndsAtDelimiter (d : Dialect) (p : Bytes) : Prop :=
  ∃ s, ScanVisits d p .init s ∧ s.i < p.length ∧ atDelimiter p s = true ∧
    s.i + s.delim.token.length = p.length

/-- The lookaheads of all rounds on `p` are local. -/
def LooksLocalRun (d : Dialect) (p q : Bytes) : Prop :=
  ∀ s, ScanVisits d p .init s → s.i < p.length → atDelimiter p s = false → LooksLocal d p q s

section Run

variable {d : Dialect} {p q : Bytes}

/-- A separator fits in front of any blank. -/
theorem atDelimiter_append {s : Scan} (hfit : s.i + s.delim.token.length ≤ p.length ∨
      ∃ e c, s.i ≤ e ∧ p[e]? = some c ∧ isAsciiWhitespace c = true) :
    atDelimiter (p ++ q) s = atDelimiter p s := by
  unfold atDelimiter
  congr 1
  rw [Bool.eq_iff_iff, List.isPrefixOf_iff_prefix, List.isPrefixOf_iff_prefix]
  by_cases hi : s.i ≤ p.length
  · rw [drop_take hi]
    constructor
    · intro h
      refine List.prefix_of_prefix_length_le h (List.prefix_append _ _) ?_
      rw [List.length_drop]
      rcases hfit with hfit | ⟨e, c, he, hc, hb⟩
      · omega
      -- the token has no blank, so it stops before the one at `e`
      have hlt := lt_of_getElem?_eq_some hc
      by_contra hlong
      have hk : e - s.i < s.delim.token.length := by omega
      have htok := h.getElem hk
      have hget : (p.drop s.i ++ q)[e - s.i]? = some c := by
        rw [getElem?_take (by rw [List.length_drop]; omega), List.getElem?_drop,
          Nat.add_sub_cancel' he, hc]
      have heq : s.delim.token[e - s.i] = c := by
        rw [htok]
        exact (List.getElem?_eq_some_iff.mp hget).2
      have hub := List.all_eq_true.mp s.delim.unbroken _ (List.getElem_mem hk)
      rw [heq, hb] at hub
      cases hub
    · exact fun h => h.trans (List.prefix_append _ _)
  · rcases hfit with hfit | ⟨e, c, he, hc, hb⟩
    · omega
    · have := lt_of_getElem?_eq_some hc
      omega

/-- The separator changes only across a line break. -/
theorem ScanVisits.delim {s t : Scan} (h : ScanVisits d p s t) : s.i ≤ t.i ∧ (t.delim = s.delim ∨
      (∃ e c, s.i ≤ e ∧ p[e]? = some c ∧ isAsciiWhitespace c = true) ∨ t.i = p.length) := by
  refine WhileLoop.Visits.inv (I := fun t => s.i ≤ t.i ∧ (t.delim = s.delim ∨
      (∃ e c, s.i ≤ e ∧ p[e]? = some c ∧ isAsciiWhitespace c = true) ∨ t.i = p.length)) ?_ h
    ⟨Nat.le_refl _, Or.inl rfl⟩
  rintro u hu ⟨hle, hdelim⟩
  have hi : u.i < p.length := of_decide_eq_true hu
  have hb := scanStep_bounds (d := d) hi
  refine ⟨by omega, ?_⟩
  have hc : p[u.i]? = some p[u.i] := List.getElem?_eq_getElem hi
  rcases hdelim with hdelim | hdelim | hdelim
  · cases hat : atDelimiter p u with
    | true =>
      rw [scanStep_cut hat]
      exact Or.inl hdelim
    | false =>
      cases hw : isWordByte p[u.i] with
      | false =>
        rw [scanStep_lexeme hat hc hw]
        exact Or.inl hdelim
      | true =>
        cases hdir : onDirective p u with
        | false =>
          rw [scanStep_word hat hc hw hdir, Scan.afterWord]
          split
          · exact Or.inl hdelim
          · exact Or.inl hdelim
        | true =>
          have hword := lt_wordEnd hc hw
          have hwle := wordEnd_le (Nat.le_of_lt hi)
          rw [scanStep_directive hat hc hw hdir]
          simp only [restOfLine]
          by_cases hend : ((p.drop (wordEnd p u.i)).takeWhile (· != newline)).length <
              (p.drop (wordEnd p u.i)).length
          · obtain ⟨c, hc', hnl⟩ := takeWhile_stop hend
            refine Or.inr (Or.inl ⟨wordEnd p u.i +
              ((p.drop (wordEnd p u.i)).takeWhile (· != newline)).length, c, by omega, ?_, ?_⟩)
            · rwa [List.getElem?_drop] at hc'
            · obtain rfl : c = newline := by simpa using hnl
              rfl
          · rw [List.length_drop] at hend
            exact Or.inr (Or.inr (by omega))
  · exact Or.inr (Or.inl hdelim)
  · omega

/-- Up to its last cut the run on `p` is the run on `p ++ q`. -/
theorem scanVisits_append {s₀ : Scan} (hv₀ : ScanVisits d p .init s₀) (hi₀ : s₀.i < p.length)
    (hat₀ : atDelimiter p s₀ = true) (hlen : s₀.i + s₀.delim.token.length = p.length)
    (hlocal : LooksLocalRun d p q) : ScanVisits d (p ++ q) .init s₀.cut := by
  have hsame : ∀ s, ScanVisits d p s s₀ → atDelimiter (p ++ q) s = atDelimiter p s := by
    intro s hs
    obtain ⟨hle, hdelim⟩ := ScanVisits.delim hs
    refine atDelimiter_append ?_
    rcases hdelim with hdelim | hdelim | hdelim
    · exact Or.inl (by rw [← hdelim]; omega)
    · exact Or.inr hdelim
    · omega
  have hrun : ∀ s, ScanVisits d p .init s → ScanVisits d p s s₀ →
      ScanVisits d (p ++ q) .init s := by
    intro s hs
    induction hs with
    | refl => exact fun _ => Relation.ReflTransGen.refl
    | @tail u t hu hr ih =>
      intro ht
      have hut : ScanVisits d p u s₀ := Relation.ReflTransGen.head hr ht
      refine (ih hut).tail ?_
      obtain ⟨hlt, rfl⟩ := hr
      have hi : u.i < p.length := of_decide_eq_true hlt
      have hnext : (scanStep d p u).i < p.length := by
        have := ht.out.1
        omega
      refine ⟨decide_eq_true (by rw [List.length_append]; omega), ?_⟩
      have hat' := hsame u hut
      cases hat : atDelimiter p u with
      | true => rw [scanStep_cut hat, scanStep_cut (hat'.trans hat)]
      | false =>
        exact ((scanStep_append_iff hat (hat'.trans hat) hi hnext).mpr
          (hlocal u hu hi hat)).symm
  refine (hrun s₀ hv₀ Relation.ReflTransGen.refl).tail
    ⟨decide_eq_true (by rw [List.length_append]; omega), ?_⟩
  rw [scanStep_cut ((hsame s₀ Relation.ReflTransGen.refl).trans hat₀)]

/-- **Splitting is local** to a script that ends at its separator, as far as the
lookaheads of its rounds are: its statements come first in any longer script. -/
theorem statementRanges_append (hend : EndsAtDelimiter d p) (hlocal : LooksLocalRun d p q) :
    (statementRanges p d).dropLast <+: statementRanges (p ++ q) d := by
  obtain ⟨s₀, hv₀, hi₀, hat₀, hlen⟩ := hend
  have hcut₀ : ScanVisits d p s₀ s₀.cut := by
    have : ScanVisits d p s₀ (scanStep d p s₀) := WhileLoop.Visits.single (decide_eq_true hi₀)
    rwa [scanStep_cut hat₀] at this
  have hp : scanRun d p .init = s₀.cut := by
    rw [scanRun_of_visits (hv₀.trans hcut₀)]
    exact WhileLoop.run_of_done _ (decide_eq_false (by simp only [Scan.cut]; omega))
  rw [statementRanges, hp, List.dropLast_concat, statementRanges,
    scanRun_of_visits (scanVisits_append hv₀ hi₀ hat₀ hlen hlocal)]
  exact (scanRun_visits d (p ++ q) s₀.cut).out_kept.trans (List.prefix_append _ _)

end Run

/-- A script that changes its separator. -/
def delimiterScript : Bytes := ascii "DELIMITER $$\na$$"

/-- Nothing a script goes on with changes the statement before the new separator. -/
theorem delimiterScript_local :
    (statementRanges delimiterScript .mySql).dropLast <+:
      statementRanges (delimiterScript ++ ascii "\nDROP TABLE t$$") .mySql := by
  have h1 : scanStep .mySql delimiterScript .init =
      ⟨13, 13, ⟨[dollar, dollar], by decide, by decide⟩, 0, false, true, []⟩ := by decide
  have h2 : scanStep .mySql delimiterScript
        ⟨13, 13, ⟨[dollar, dollar], by decide, by decide⟩, 0, false, true, []⟩ =
      ⟨14, 13, ⟨[dollar, dollar], by decide, by decide⟩, 0, false, false, []⟩ := by decide
  have hrun : WhileLoop.run (scanning delimiterScript) (scanStep .mySql delimiterScript) 2 .init =
      ⟨14, 13, ⟨[dollar, dollar], by decide, by decide⟩, 0, false, false, []⟩ := by
    rw [WhileLoop.run_succ _ rfl, h1, WhileLoop.run_succ _ rfl, h2]
    rfl
  refine statementRanges_append ⟨_, hrun ▸ WhileLoop.visits_run 2 Scan.init, by decide, by decide,
    by decide⟩ ?_
  intro s hs hi hat
  rcases Relation.ReflTransGen.cases_head hs with rfl | ⟨_, ⟨-, rfl⟩, hs⟩
  · exact ⟨fun _ h => absurd h (by decide), fun _ h => absurd h (by decide),
      fun h => absurd h (by decide)⟩
  rw [h1] at hs
  rcases Relation.ReflTransGen.cases_head hs with rfl | ⟨_, ⟨-, rfl⟩, hs⟩
  · exact ⟨fun _ _ _ => by decide, fun _ _ h => absurd h (by decide),
      fun h => absurd h (by decide)⟩
  rw [h2] at hs
  rcases Relation.ReflTransGen.cases_head hs with rfl | ⟨_, ⟨-, rfl⟩, hs⟩
  · exact absurd hat (by decide)
  have hle := (ScanVisits.out hs).1
  rw [scanStep_cut (by decide)] at hle
  have hlen : delimiterScript.length = 16 := by decide
  simp only [Scan.cut, List.length_cons, List.length_nil] at hle
  omega

/-- The script on which the header of a DROP reopens. -/
def dropIfExists : Bytes := ascii "DELIMITER $$\nDROP PROCEDURE IF EXISTS p$$"

/-- Under `DELIMITER $$` the `IF EXISTS` of a DROP looks for its THEN in the next
routine, finds it, and opens a block no END of its own closes. -/
theorem dropIfExists_not_local :
    EndsAtDelimiter .mySql dropIfExists ∧
      ¬ (statementRanges dropIfExists .mySql).dropLast <+:
        statementRanges (dropIfExists ++
          ascii "\nCREATE PROCEDURE p(x INT) IF x THEN SELECT 1; END IF$$") .mySql := by
  have hrun : WhileLoop.run (scanning dropIfExists) (scanStep .mySql dropIfExists) 10 .init =
      ⟨39, 13, ⟨[dollar, dollar], by decide, by decide⟩, 0, true, false, []⟩ := by decide
  refine ⟨⟨_, hrun ▸ WhileLoop.visits_run 10 Scan.init, ?_, ?_, ?_⟩, ?_⟩
  · decide
  · decide
  · decide
  · decide

end RedDb.Sql
