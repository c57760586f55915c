import RedDb.Sql.Lexemes

/-!
# RedDb — stripping noise from a SQL text

`strip_noise` is the copy of a text every gate scans: literals, quoted
identifiers and comments blanked byte for byte, so that an offset in the copy is
an offset in the text. The body of a MySQL executable comment is stripped as
live SQL between its blanked markers.

The `from_utf8` fallback of the source is not part of `stripNoise`: blanked
spans begin and end at ASCII bytes, so the copy of a valid text is valid.

* `strip_live` / `strip_noise` / `strip_exec` — the stripper at one position;
* `length_strip` — one output byte per input byte.
-/

namespace RedDb.Sql

open ByteText

/-- Blank `b[i..j]` as spaces, keeping newlines. -/
def blankSpan (b : Bytes) (i j : Nat) : Bytes :=
  (slice b i j).map fun c => if c == newline then newline else space

/-- Strip `b[i..stop]`; `fuel` bounds the rounds and `stop - i` is enough. -/
@[grind =] def stripInto (d : Dialect) (b : Bytes) : Nat → Nat → Nat → Bytes
  | 0, _, _ => []
  | fuel + 1, i, stop =>
    if stop ≤ i then []
    else match b[i]? with
      | none => []
      | some c =>
        if isQuote c then
          let e := min (skipQuoted b i c (quoteEscapes b i c d)) stop
          blankSpan b i e ++ stripInto d b fuel e stop
        else if d.dashCommentAt b i then
          let e := min (lineCommentEnd b (i + 2)) stop
          blankSpan b i e ++ stripInto d b fuel e stop
        else if c == hash && d.hashComments then
          let e := min (lineCommentEnd b (i + 1)) stop
          blankSpan b i e ++ stripInto d b fuel e stop
        else if d.executableCommentAt b i then
          let close := min (skipBlockComment b i d) stop
          let body := min (execCommentBody b i) close
          -- unterminated: there is no `*/` to blank, so the body runs to the end
          let bodyEnd := max (if [star, slash].isSuffixOf (b.take close) then close - 2 else close)
            body
          blankSpan b i body ++ stripInto d b fuel body bodyEnd ++ blankSpan b bodyEnd close ++
            stripInto d b fuel close stop
        else if c == slash && i + 1 < stop && b[i + 1]? == some star then
          let e := min (skipBlockComment b i d) stop
          blankSpan b i e ++ stripInto d b fuel e stop
        else if c == dollar && d.dollarQuotes then
          match dollarQuoteEnd b i with
          | some e => blankSpan b i (min e stop) ++ stripInto d b fuel (min e stop) stop
          | none => dollar :: stripInto d b fuel (i + 1) stop
        else c :: stripInto d b fuel (i + 1) stop

/-- A copy of `sql` with everything that is not SQL structure blanked to spaces. -/
def stripNoise (sql : Bytes) (d : Dialect) : Bytes :=
  stripInto d sql sql.length 0 sql.length

/-- Whether `word` appears in `haystack` as a whole word. -/
def hasWord (haystack word : Bytes) : Bool :=
  (haystack.splitOnP fun c => !isWordByte c).contains word

/-- The text after the line it is in. -/
def afterLine (s : Bytes) : Bytes := (s.dropWhile (· != newline)).drop 1

/-- Skip the line and block comments a trimmed text begins with; an unterminated
block comment leaves nothing. -/
def skipLeadingComments : Nat → Bytes → Bytes
  | 0, s => s
  | fuel + 1, s =>
    if [dash, dash].isPrefixOf s then skipLeadingComments fuel (trimStart (afterLine (s.drop 2)))
    else if s.head? == some hash then
      skipLeadingComments fuel (trimStart (afterLine (s.drop 1)))
    else if [slash, star].isPrefixOf s then
      match findBytes [star, slash] (s.drop 2) with
      | some off => skipLeadingComments fuel (trimStart (s.drop (off + 4)))
      | none => []
    else s

/-- The leading keyword of `sql`, empty when it has no leading word. -/
def firstKeyword (sql : Bytes) : Bytes :=
  (skipLeadingComments sql.length (trimStart sql)).takeWhile isAsciiAlphabetic

/-! ## The stripper at one position -/

/-- The two ends of an executable comment's body. -/
def execBody (d : Dialect) (b : Bytes) (i stop : Nat) : Nat × Nat :=
  let close := min (skipBlockComment b i d) stop
  let body := min (execCommentBody b i) close
  (body, max (if [star, slash].isSuffixOf (b.take close) then close - 2 else close) body)

variable {b : Bytes} {d : Dialect} {i : Nat}

theorem executableCommentAt_bytes (h : d.executableCommentAt b i = true) :
    d = .mySql ∧ b[i]? = some slash ∧ b[i + 1]? = some star ∧ b[i + 2]? = some bang := by
  simp only [Dialect.executableCommentAt, Bool.and_eq_true, beq_iff_eq,
    List.isPrefixOf_iff_prefix] at h
  obtain ⟨hd, t, ht⟩ := h
  refine ⟨hd, ?_, ?_, ?_⟩
  · have h0 : (b.drop i)[0]? = some slash := by rw [← ht]; rfl
    simpa using h0
  · have h1 : (b.drop i)[1]? = some star := by rw [← ht]; rfl
    simpa using h1
  · have h2 : (b.drop i)[2]? = some bang := by rw [← ht]; rfl
    simpa using h2

variable {c : UInt8}

theorem exec_of_ne_slash (hc : b[i]? = some c)
    (h : c ≠ slash) : d.executableCommentAt b i = false := by
  cases hx : d.executableCommentAt b i with
  | false => rfl
  | true =>
    have h0 := (executableCommentAt_bytes hx).2.1
    rw [hc] at h0
    exact absurd (Option.some.inj h0) h

variable {stop : Nat}

/-- An executable comment is noise to a scanner that keeps it whole. -/
theorem noiseEnd_of_exec (hi : i + 1 < stop) (h : d.executableCommentAt b i = true) :
    noiseEnd d b stop i = some (min (skipBlockComment b i d) stop) := by
  obtain ⟨rfl, h0, h1, -⟩ := executableCommentAt_bytes h
  have hdash : Dialect.dashCommentAt .mySql b i = false := by
    simp [Dialect.dashCommentAt, h0, slash, dash]
  simp [noiseEnd, h0, h1, hi, hdash, isQuote, slash, singleQuote, doubleQuote, backtick,
    Dialect.hashComments, ByteText.hash]

/-- One round of the stripper, arm by arm. -/
theorem stripInto_succ {fuel : Nat} (hi : i < stop)
    (hc : b[i]? = some c) :
    stripInto d b (fuel + 1) i stop =
      if d.executableCommentAt b i then
        blankSpan b i (execBody d b i stop).1 ++
          stripInto d b fuel (execBody d b i stop).1 (execBody d b i stop).2 ++
          blankSpan b (execBody d b i stop).2 (min (skipBlockComment b i d) stop) ++
          stripInto d b fuel (min (skipBlockComment b i d) stop) stop
      else match noiseEnd d b stop i with
        | some e => blankSpan b i e ++ stripInto d b fuel e stop
        | none => c :: stripInto d b fuel (i + 1) stop := by
  have hle : ¬ stop ≤ i := by omega
  by_cases hx : d.executableCommentAt b i = true
  · obtain ⟨rfl, h0, h1, -⟩ := executableCommentAt_bytes hx
    obtain rfl : c = slash := by
      rw [hc] at h0
      exact Option.some.inj h0
    have hdash : Dialect.dashCommentAt .mySql b i = false := by
      simp [Dialect.dashCommentAt, h0, slash, dash]
    simp only [stripInto, hle, if_false, hc, hx, hdash, if_true, execBody]
    simp [isQuote, slash, singleQuote, doubleQuote, backtick, ByteText.hash]
  · simp only [stripInto, hle, hc, hx, noiseEnd, if_false, Bool.false_eq_true]
    split_ifs with hq hd hh hb hs
    · rfl
    · rfl
    · rfl
    · rfl
    · cases dollarQuoteEnd b i with
      | some e => rfl
      | none =>
        simp only [Bool.and_eq_true, beq_iff_eq] at hs
        simp [hs.1]
    · rfl

/-- A body lies inside its comment, after the opening bytes. -/
theorem execBody_bounds (hi : i < stop) :
    i < (execBody d b i stop).1 ∧ (execBody d b i stop).1 ≤ (execBody d b i stop).2 ∧
      (execBody d b i stop).2 ≤ min (skipBlockComment b i d) stop := by
  unfold execBody execCommentBody skipBlockComment
  refine ⟨by simp only; omega, by simp only; omega, ?_⟩
  simp only
  split_ifs <;> omega

/-- A body ends before the `*/` of its comment, or is empty; only an unterminated
comment's runs to the end. -/
theorem execBody_end (hlen : i + 2 ≤ b.length) (hs : stop ≤ b.length) :
    (execBody d b i stop).2 = stop ∨
      (execBody d b i stop).2 + 2 ≤ min (skipBlockComment b i d) stop ∨
      (execBody d b i stop).2 = (execBody d b i stop).1 := by
  by_cases hsuf : [star, slash].isSuffixOf (b.take (min (skipBlockComment b i d) stop)) = true
  · have h2 := (List.isSuffixOf_iff_suffix.mp hsuf).length_le
    simp only [List.length_cons, List.length_nil, List.length_take] at h2
    unfold execBody
    simp only [if_pos hsuf]
    omega
  · have hge : stop ≤ skipBlockComment b i d := by
      apply Nat.le_of_not_lt
      intro hlt
      rw [Nat.min_eq_left (by omega)] at hsuf
      exact hsuf (skipBlockComment_closed hlen (by omega))
    unfold execBody
    simp only [if_neg hsuf]
    omega

/-- Beyond `stop - i` rounds the fuel does not matter. -/
theorem stripInto_fuel (fuel fuel' i stop : Nat)
    (hs : stop ≤ b.length) (h : stop - i ≤ fuel) (h' : stop - i ≤ fuel') :
    stripInto d b fuel i stop = stripInto d b fuel' i stop := by
  induction fuel generalizing fuel' i stop with
  | zero =>
    cases fuel' with
    | zero => rfl
    | succ fuel' => simp [stripInto, show stop ≤ i by omega]
  | succ fuel ih =>
    by_cases hi : i < stop
    · obtain ⟨k, rfl⟩ : ∃ k, fuel' = k + 1 := ⟨fuel' - 1, by omega⟩
      have hc : b[i]? = some b[i] := List.getElem?_eq_getElem (by omega)
      rw [stripInto_succ hi hc, stripInto_succ hi hc]
      split_ifs with hx
      · obtain ⟨h1, h2, h3⟩ := execBody_bounds (d := d) (b := b) hi
        rw [ih k _ _ (by omega) (by omega) (by omega), ih k _ stop hs (by omega) (by omega)]
      cases hn : noiseEnd d b stop i with
      | some e =>
        obtain ⟨he, -⟩ := noiseEnd_bounds hi hs hn
        simp only
        rw [ih k e stop hs (by omega) (by omega)]
      | none =>
        simp only
        rw [ih k (i + 1) stop hs (by omega) (by omega)]
    · cases fuel' with
      | zero | succ fuel' => simp [stripInto, show stop ≤ i by omega]

/-- The stripper with the fuel it needs. -/
def strip (d : Dialect) (b : Bytes) (i stop : Nat) : Bytes := stripInto d b (stop - i) i stop

theorem stripNoise_eq (b : Bytes) (d : Dialect) : stripNoise b d = strip d b 0 b.length := by
  rw [stripNoise, strip, Nat.sub_zero]

theorem strip_done (h : stop ≤ i) : strip d b i stop = [] := by
  rw [strip, Nat.sub_eq_zero_of_le h, stripInto]

section Round

variable {d : Dialect} {b : Bytes} {i stop : Nat} (hi : i < stop) (hs : stop ≤ b.length)

include hi hs

theorem strip_live (hc : b[i]? = some c) (hx : d.executableCommentAt b i = false)
    (hn : noiseEnd d b stop i = none) : strip d b i stop = c :: strip d b (i + 1) stop := by
  obtain ⟨k, hk⟩ : ∃ k, stop - i = k + 1 := ⟨stop - i - 1, by omega⟩
  rw [strip, hk, stripInto_succ hi hc, hx, hn]
  simp only [Bool.false_eq_true, if_false]
  rw [strip, stripInto_fuel k (stop - (i + 1)) (i + 1) stop hs (by omega) (by omega)]

theorem strip_noise {e : Nat} (hx : d.executableCommentAt b i = false)
    (hn : noiseEnd d b stop i = some e) :
    strip d b i stop = blankSpan b i e ++ strip d b e stop := by
  obtain ⟨k, hk⟩ : ∃ k, stop - i = k + 1 := ⟨stop - i - 1, by omega⟩
  have hc : b[i]? = some b[i] := List.getElem?_eq_getElem (by omega)
  have he := noiseEnd_bounds hi hs hn
  rw [strip, hk, stripInto_succ hi hc, hx, hn]
  simp only [Bool.false_eq_true, if_false]
  rw [strip, stripInto_fuel k (stop - e) e stop hs (by omega) (by omega)]

theorem strip_exec (hx : d.executableCommentAt b i = true) : strip d b i stop =
      blankSpan b i (execBody d b i stop).1 ++
        strip d b (execBody d b i stop).1 (execBody d b i stop).2 ++
        blankSpan b (execBody d b i stop).2 (min (skipBlockComment b i d) stop) ++
        strip d b (min (skipBlockComment b i d) stop) stop := by
  obtain ⟨k, hk⟩ : ∃ k, stop - i = k + 1 := ⟨stop - i - 1, by omega⟩
  have hc : b[i]? = some b[i] := List.getElem?_eq_getElem (by omega)
  obtain ⟨h1, h2, h3⟩ := execBody_bounds (d := d) (b := b) hi
  rw [strip, hk, stripInto_succ hi hc, if_pos hx, strip, strip,
    stripInto_fuel k _ _ (execBody d b i stop).2 (by omega) (by omega) (Nat.le_refl _),
    stripInto_fuel k _ (min (skipBlockComment b i d) stop) stop hs (by omega) (Nat.le_refl _)]

end Round

theorem blankSpan_empty (b : Bytes) (i : Nat) : blankSpan b i i = [] := by
  simp [blankSpan, slice]

theorem length_blankSpan {j : Nat} (hj : j ≤ b.length) : (blankSpan b i j).length = j - i := by
  rw [blankSpan, List.length_map, length_slice hj]

/-- **Offset preservation.** One output byte per input byte. -/
theorem length_strip (n i stop : Nat) (hs : stop ≤ b.length)
    (hn : stop - i ≤ n) : (strip d b i stop).length = stop - i := by
  induction n generalizing i stop with
  | zero => rw [strip_done (by omega), List.length_nil]; omega
  | succ n ih =>
    by_cases hi : i < stop
    · have hc : b[i]? = some b[i] := List.getElem?_eq_getElem (by omega)
      cases hx : d.executableCommentAt b i with
      | true =>
        obtain ⟨h1, h2, h3⟩ := execBody_bounds (d := d) (b := b) hi
        rw [strip_exec hi hs hx]
        simp only [List.length_append]
        rw [length_blankSpan (by omega), length_blankSpan (by omega),
          ih _ _ (by omega) (by omega), ih _ _ hs (by omega)]
        omega
      | false =>
        cases hn' : noiseEnd d b stop i with
        | some e =>
          have he := noiseEnd_bounds hi hs hn'
          rw [strip_noise hi hs hx hn', List.length_append, length_blankSpan (by omega),
            ih _ _ hs (by omega)]
          omega
        | none =>
          rw [strip_live hi hs hc hx hn', List.length_cons, ih _ _ hs (by omega)]
          omega
    · rw [strip_done (by omega), List.length_nil]
      omega

theorem length_stripNoise (b : Bytes) (d : Dialect) : (stripNoise b d).length = b.length := by
  rw [stripNoise_eq, length_strip b.length 0 b.length (Nat.le_refl _) (by omega), Nat.sub_zero]

end RedDb.Sql
