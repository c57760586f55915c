import RedDb.Sql.Agreement
import RedDb.Sql.PgLex

/-!
# RedDb — the stripper against Postgres' own lexer

`strip_noise` decides byte by byte whether a literal, an identifier or a comment
opens; Postgres decides token by token. They blank and skip the same spans exactly
when every token is plain (`TokenPlain`), that is, unless

* a `$` in an identifier, or behind a number or parameter, is followed by another
  with nothing but word bytes between them (`a$$`, `$1$`);
* a backtick, an operator's byte to Postgres, stands outside literals;
* a dollar quote's tag has a byte beyond ASCII;
* a carriage return ends a line comment;
* a quote is read with backslash escapes by one and without by the other, and a
  backslash in it makes a difference (`é` or `$` before the `E`, or an escape string
  continued on the next line).

* `blanksExactly_iff` — the stripper blanks what Postgres does not run, exactly
  when all tokens are plain;
* `dollarIdent_not_blanks` — a statement that it hides two others behind.
-/

namespace RedDb.Sql

open ByteText SpanScan

/-- The spans the stripper blanks. -/
def stripSpans (d : Dialect) (b : Bytes) : List (Nat × Nat) :=
  spans (bytewise (noiseEnd d b b.length)) b.length ()

/-- A blanked byte. -/
def blankByte (c : UInt8) : UInt8 := if c == newline then newline else space

/-- **Blanked exactly.** The stripper blanks the literals, quoted identifiers and
comments of the statement as Postgres reads it: span by span, and so byte by byte. -/
structure BlanksExactly (b : Bytes) : Prop where
  spans : stripSpans .postgres b = pgSpans b
  bytes : ∀ k c, b[k]? = some c →
    (stripNoise b .postgres)[k]? = some (if Inside b k then blankByte c else c)

/-- A token on which the stripper is not misled. -/
structure TokenPlain (b : Bytes) (t : Token PgCont) (i : Nat) : Prop where
  backtick : b[i]? ≠ some backtick
  dollars : ∀ k, i ≤ k → k < t.live → b[k]? = some dollar → b[wordEnd b (k + 1)]? ≠ some dollar
  tag : t.live < t.stop → b[t.live]? = some dollar →
    ∀ c ∈ slice b (t.live + 1) (runEnd pgTagCont b (t.live + 1)), c < 0x80
  line : t.live < t.stop → b[t.live]? = some dash →
    carriageReturn ∉ slice b (t.live + 2) (lineCommentEnd b (t.live + 2))
  quote : t.live < t.stop → b[t.live]? = some singleQuote →
    skipQuoted b t.live singleQuote (quoteEscapes b t.live singleQuote .postgres) = t.stop

/-- Every token of the statement is plain. -/
def AllPlain (b : Bytes) : Prop :=
  ∀ s, Visits (pgToken b) b.length ⟨0, .none, []⟩ s → s.pos < b.length →
    TokenPlain b (pgToken b s.mode s.pos) s.pos

/-! ## What the stripper opens in Postgres' dialect -/

/-- A byte at which the stripper opens at most a dollar quote. -/
structure Inert (b : Bytes) (k : Nat) (c : UInt8) : Prop where
  quote : isQuote c = false
  dash : c = dash → b[k + 1]? ≠ some ByteText.dash
  slash : c = slash → b[k + 1]? ≠ some star

variable {c : UInt8}

section Opens

variable {b : Bytes} {k : Nat}

theorem dollarQuoteEnd_none_iff :
    dollarQuoteEnd b k = none ↔ b[wordEnd b (k + 1)]? ≠ some dollar := by
  unfold dollarQuoteEnd
  simp only
  split
  · rename_i h
    rw [beq_iff_eq] at h
    refine iff_of_false ?_ (fun hne => hne h)
    split <;> exact Option.some_ne_none _
  · rename_i h
    rw [beq_iff_eq] at h
    exact iff_of_true rfl h

theorem noiseEnd_inert (hc : b[k]? = some c) (h : Inert b k c) :
    noiseEnd .postgres b b.length k = none ↔
      (b[k]? = some dollar → b[wordEnd b (k + 1)]? ≠ some dollar) := by
  have hdash : Dialect.dashCommentAt .postgres b k = false := by
    cases hd : Dialect.dashCommentAt .postgres b k with
    | false => rfl
    | true =>
      simp only [Dialect.dashCommentAt, Bool.and_eq_true, beq_iff_eq, and_true] at hd
      rw [hc] at hd
      exact absurd hd.2 (h.dash (Option.some.inj hd.1))
  have hslash : ¬ (c == slash && decide (k + 1 < b.length) && b[k + 1]? == some star) = true := by
    simp only [Bool.and_eq_true, beq_iff_eq, not_and]
    exact fun hs => h.slash hs.1
  unfold noiseEnd
  rw [hc]
  simp only [h.quote, Bool.false_eq_true, if_false, hdash,
    show Dialect.hashComments .postgres = false from rfl, Bool.and_false, if_neg hslash,
    show Dialect.dollarQuotes .postgres = true from rfl, Bool.and_true]
  by_cases hd : c = dollar
  · subst hd
    rw [if_pos (by decide), Option.map_eq_none_iff, dollarQuoteEnd_none_iff]
    simp
  · rw [if_neg (by simpa using hd)]
    simp [hd]

end Opens

variable {b : Bytes} {t : Token PgCont}

/-- Reading a token that is live throughout. -/
theorem reads_live_iff {i : Nat} (hstop : t.live = t.stop)
    (hi : i < t.live) (hle : t.live ≤ b.length)
    (hinert : ∀ k c, i ≤ k → k < t.live → b[k]? = some c → c ≠ backtick → Inert b k c)
    (hback : ∀ k, i < k → k < t.live → b[k]? ≠ some backtick) :
    Reads (noiseEnd .postgres b b.length) t i ↔ TokenPlain b t i := by
  constructor
  · intro h
    refine ⟨fun hb => ?_, fun k hk hkl hd => ?_, fun hlt => absurd hlt (by omega),
      fun hlt => absurd hlt (by omega), fun hlt => absurd hlt (by omega)⟩
    · have hnone := h.live i (Nat.le_refl i) hi
      simp [noiseEnd, hb, isQuote, backtick] at hnone
    · exact (noiseEnd_inert hd (hinert k _ hk hkl hd (by decide))).mp (h.live k hk hkl) hd
  · intro h
    refine ⟨fun k hk hkl => ?_, fun hlt => absurd hlt (by omega)⟩
    have hc : b[k]? = some b[k] := List.getElem?_eq_getElem (by omega)
    have hne : b[k] ≠ backtick := by
      intro heq
      rw [heq] at hc
      rcases Nat.eq_or_lt_of_le hk with rfl | hlt
      · exact h.backtick hc
      · exact hback k hlt hkl hc
    exact (noiseEnd_inert hc (hinert k _ hk hkl hc hne)).mpr (h.dollars k hk hkl)

/-! ## The bytes of the live tokens -/

/-- A byte of an identifier or a number; the sign of an exponent stands before a
digit. -/
def LiveByte (b : Bytes) (k : Nat) (c : UInt8) : Prop :=
  pgIdentCont c = true ∨ c = dot ∨ c = 43 ∨ c = dash ∧ (b[k + 1]?).any isAsciiDigit = true

variable {k : Nat}

theorem liveByte_spec (h : LiveByte b k c) : Inert b k c ∧ c ≠ backtick := by
  have hne : ∀ x : UInt8, pgIdentCont x = false → x ≠ dot → x ≠ 43 → x ≠ dash → c ≠ x := by
    rintro x h1 h2 h3 h4 rfl
    rcases h with h | h | h | h
    · rw [h1] at h
      exact Bool.noConfusion h
    · exact h2 h
    · exact h3 h
    · exact h4 h.1
  refine ⟨⟨?_, fun hdash hnext => ?_, fun hslash => ?_⟩, ?_⟩
  · simp [isQuote, hne singleQuote (by decide) (by decide) (by decide) (by decide),
      hne doubleQuote (by decide) (by decide) (by decide) (by decide),
      hne backtick (by decide) (by decide) (by decide) (by decide)]
  · subst hdash
    rcases h with h | h | h | h
    · exact absurd h (by decide)
    · exact absurd h (by decide)
    · exact absurd h (by decide)
    · rw [hnext] at h
      exact absurd h.2 (by decide)
  · exact absurd hslash (hne slash (by decide) (by decide) (by decide) (by decide))
  · exact hne backtick (by decide) (by decide) (by decide) (by decide)

theorem liveByte_word (h : isAsciiAlphanumeric c = true ∨ c = underscore) : LiveByte b k c := by
  left
  rcases h with h | rfl
  · simp only [isAsciiAlphanumeric, Bool.or_eq_true] at h
    rcases h with h | h <;> simp [pgIdentCont, pgIdentStart, h]
  · decide

/-- All bytes of `b[i..j]` are live ones. -/
def LiveSpan (b : Bytes) (i j : Nat) : Prop :=
  ∀ k c, i ≤ k → k < j → b[k]? = some c → LiveByte b k c

theorem LiveSpan.trans {i j : Nat} (h1 : LiveSpan b i j) (h2 : LiveSpan b j k) :
    LiveSpan b i k := by
  intro x c hx hlt hc
  rcases Nat.lt_or_ge x j with hxj | hxj
  · exact h1 x c hx hxj hc
  · exact h2 x c hxj hlt hc

theorem LiveSpan.refl (b : Bytes) (i : Nat) : LiveSpan b i i :=
  fun _ _ hk hlt _ => absurd hlt (by omega)

theorem LiveSpan.one {b : Bytes} {i : Nat} {c : UInt8} (hc : b[i]? = some c)
    (h : LiveByte b i c) : LiveSpan b i (i + 1) := by
  intro k x hk hlt hx
  obtain rfl : k = i := by omega
  rw [hc] at hx
  rwa [← Option.some.inj hx]

variable {p : UInt8 → Bool}

section Ends

variable {b : Bytes} {i : Nat}

theorem le_runEnd (p : UInt8 → Bool) (b : Bytes) (i : Nat) : i ≤ runEnd p b i :=
  Nat.le_add_right _ _

theorem runEnd_le (p : UInt8 → Bool) (h : i ≤ b.length) : runEnd p b i ≤ b.length := by
  have := takeWhile_length_le p (b.drop i)
  rw [List.length_drop] at this
  unfold runEnd
  omega

theorem lt_runEnd (hc : b[i]? = some c) (h : p c = true) : i < runEnd p b i := by
  have hi := lt_of_getElem?_eq_some hc
  obtain rfl : b[i] = c := by
    rw [List.getElem?_eq_getElem hi] at hc
    exact Option.some.inj hc
  unfold runEnd
  rw [List.drop_eq_getElem_cons hi, List.takeWhile_cons, if_pos h, List.length_cons]
  omega

theorem runEnd_span (hk : i ≤ k) (hlt : k < runEnd p b i) (hc : b[k]? = some c) : p c = true := by
  obtain ⟨x, hx, hp⟩ := takeWhile_span hk hlt
  rw [hc] at hx
  rwa [Option.some.inj hx]

theorem digitsLen_le (p : UInt8 → Bool) (u : Bytes) : digitsLen p u ≤ u.length := by
  fun_induction digitsLen p u <;> simp_all <;> omega

theorem digitsLen_cons (h : p c = true) (rest : Bytes) :
    digitsLen p (c :: rest) = 1 + digitsLen p rest := by
  cases rest <;> simp [digitsLen, h]

theorem digitsLen_span {u : Bytes}
    (hlt : k < digitsLen p u) (hc : u[k]? = some c) : p c = true ∨ c = underscore := by
  fun_induction digitsLen p u generalizing k with
  | case1 => omega
  | case2 x rest hx ih =>
    cases k with
    | zero =>
      rw [← Option.some.inj hc]
      exact Or.inl hx
    | succ k => exact ih (by omega) hc
  | case3 => omega
  | case4 x y rest hx hy ih =>
    simp only [Bool.and_eq_true, beq_iff_eq] at hy
    match k with
    | 0 =>
      rw [← Option.some.inj hc]
      exact Or.inr hy.1
    | 1 =>
      rw [← Option.some.inj hc]
      exact Or.inl hy.2
    | k + 2 => exact ih (by omega) hc
  | case5 => omega

theorem liveSpan_digits (hp : ∀ c, p c = true → isAsciiAlphanumeric c = true)
    (b : Bytes) (i : Nat) : LiveSpan b i (i + digitsLen p (b.drop i)) := by
  intro k c hk hlt hc
  refine liveByte_word ((digitsLen_span (u := b.drop i) (k := k - i) (by omega) ?_).imp_left (hp c))
  rw [List.getElem?_drop, Nat.add_sub_cancel' hk]
  exact hc

theorem isHexDigit_word (h : isHexDigit c = true) : isAsciiAlphanumeric c = true := by
  simp only [isHexDigit, isAsciiAlphanumeric, isAsciiAlphabetic, isAsciiDigit, Bool.or_eq_true,
    Bool.and_eq_true, decide_eq_true_eq, UInt8.le_iff_toNat_le, UInt8.reduceToNat] at h ⊢
  omega

theorem radixDigits_spec {digit : UInt8 → Bool} (h : radixDigits c = some digit) :
    isAsciiAlphabetic c = true ∧ ∀ x, digit x = true → isAsciiAlphanumeric x = true := by
  unfold radixDigits at h
  have hlow : ∀ top : UInt8, top.toNat ≤ 57 → ∀ x : UInt8, (48 ≤ x && x ≤ top) = true →
      isAsciiAlphanumeric x = true := by
    intro top htop x hx
    simp only [isAsciiAlphanumeric, isAsciiDigit, Bool.or_eq_true, Bool.and_eq_true,
      decide_eq_true_eq, UInt8.le_iff_toNat_le, UInt8.reduceToNat] at hx ⊢
    left
    omega
  split at h
  · rename_i hc
    obtain rfl := Option.some.inj h
    refine ⟨?_, fun x => isHexDigit_word⟩
    simp only [Bool.or_eq_true, beq_iff_eq] at hc
    rcases hc with rfl | rfl <;> decide
  split at h
  · rename_i hc
    obtain rfl := Option.some.inj h
    refine ⟨?_, hlow 55 (by decide)⟩
    simp only [Bool.or_eq_true, beq_iff_eq] at hc
    rcases hc with rfl | rfl <;> decide
  split at h
  · rename_i hc
    obtain rfl := Option.some.inj h
    refine ⟨?_, hlow 49 (by decide)⟩
    simp only [Bool.or_eq_true, beq_iff_eq] at hc
    rcases hc with rfl | rfl <;> decide
  · cases h

/-- What a piece of a token is shown to be: a live span that stays in the text. -/
structure Piece (b : Bytes) (i j : Nat) : Prop where
  le : i ≤ j
  inside : j ≤ b.length
  live : LiveSpan b i j

theorem Piece.trans {j : Nat} (h1 : Piece b i j) (h2 : Piece b j k) : Piece b i k :=
  ⟨Nat.le_trans h1.le h2.le, h2.inside, h1.live.trans h2.live⟩

theorem piece_refl (h : i ≤ b.length) : Piece b i i := ⟨Nat.le_refl i, h, LiveSpan.refl b i⟩

theorem piece_one (hc : b[i]? = some c) (h : LiveByte b i c) : Piece b i (i + 1) :=
  ⟨Nat.le_succ i, lt_of_getElem?_eq_some hc, LiveSpan.one hc h⟩

theorem piece_digits (hp : ∀ c, p c = true → isAsciiAlphanumeric c = true)
    (h : i ≤ b.length) : Piece b i (i + digitsLen p (b.drop i)) := by
  have := digitsLen_le p (b.drop i)
  rw [List.length_drop] at this
  exact ⟨Nat.le_add_right _ _, by omega, liveSpan_digits hp b i⟩

theorem digit_word (h : isAsciiDigit c = true) : isAsciiAlphanumeric c = true := by
  simp [isAsciiAlphanumeric, h]

theorem piece_fraction (h : i ≤ b.length) : Piece b i (fractionEnd b i) := by
  unfold fractionEnd
  split
  · rename_i hdot
    simp only [Bool.and_eq_true, beq_iff_eq] at hdot
    have hone := piece_one hdot.1 (Or.inr (Or.inl rfl))
    split
    · exact hone.trans (piece_digits (fun _ => digit_word) hone.inside)
    · exact hone
  · exact piece_refl h

theorem piece_exponent (h : i ≤ b.length) : Piece b i (exponentEnd b i) := by
  unfold exponentEnd
  split
  · rename_i hexp
    simp only [Bool.and_eq_true] at hexp
    obtain ⟨he, hdigit⟩ := hexp
    obtain ⟨c, hc, he⟩ := (Option.any_eq_true _ _).mp he
    have hletter : isAsciiAlphanumeric c = true := by
      simp only [Bool.or_eq_true, beq_iff_eq] at he
      rcases he with rfl | rfl <;> decide
    have hone := piece_one hc (liveByte_word (Or.inl hletter))
    have hsign : Piece b i (exponentDigits b i) := by
      unfold exponentDigits at hdigit ⊢
      split
      · rename_i hs
        rw [if_pos hs] at hdigit
        obtain ⟨x, hx, hsign⟩ := (Option.any_eq_true _ _).mp hs
        refine hone.trans (piece_one hx ?_)
        simp only [Bool.or_eq_true, beq_iff_eq] at hsign
        rcases hsign with rfl | rfl
        · exact Or.inr (Or.inr (Or.inl rfl))
        · exact Or.inr (Or.inr (Or.inr ⟨rfl, hdigit⟩))
      · exact hone
    exact hsign.trans (piece_digits (fun _ => digit_word) hsign.inside)
  · exact piece_refl h

/-- The bytes of a number, and that there is one. -/
theorem piece_number (hc : b[i]? = some c) (hdigit : isAsciiDigit c = true) :
    Piece b i (pgNumberEnd b i) ∧ i < pgNumberEnd b i := by
  have hi := lt_of_getElem?_eq_some hc
  unfold pgNumberEnd
  split
  · rename_i hpos
    refine ⟨?_, by omega⟩
    unfold radixLen at hpos ⊢
    split at hpos
    swap
    · exact absurd hpos (Nat.lt_irrefl 0)
    rename_i hzero
    rw [if_pos hzero]
    cases hx : b[i + 1]? with
    | none =>
      rw [hx] at hpos
      exact absurd hpos (Nat.lt_irrefl 0)
    | some x =>
      rw [hx] at hpos
      cases hr : radixDigits x with
      | none =>
        simp only [Option.bind_some, hr] at hpos
        exact absurd hpos (Nat.lt_irrefl 0)
      | some digit =>
        obtain ⟨hletter, hdigits⟩ := radixDigits_spec hr
        have h1 := piece_one hc (liveByte_word (Or.inl (digit_word hdigit)))
        have h2 := piece_one hx
          (liveByte_word (Or.inl (by simp [isAsciiAlphanumeric, hletter])))
        simp only [Option.bind_some, hr]
        exact (h1.trans h2).trans (piece_digits hdigits (h1.trans h2).inside)
  · have hdigits := piece_digits (fun _ => digit_word) (Nat.le_of_lt hi)
    have hlt : i < i + digitsLen isAsciiDigit (b.drop i) := by
      obtain rfl : b[i] = c := by
        rw [List.getElem?_eq_getElem hi] at hc
        exact Option.some.inj hc
      rw [List.drop_eq_getElem_cons hi, digitsLen_cons hdigit]
      omega
    have hfraction := piece_fraction hdigits.inside
    have hexponent := piece_exponent hfraction.inside
    exact ⟨(hdigits.trans hfraction).trans hexponent,
      Nat.lt_of_lt_of_le hlt (Nat.le_trans hfraction.le hexponent.le)⟩

theorem piece_run (hp : ∀ k c, p c = true → LiveByte b k c) (h : i ≤ b.length) :
    Piece b i (runEnd p b i) :=
  ⟨le_runEnd p b i, runEnd_le p h, fun _ _ hk hlt hc => hp _ _ (runEnd_span hk hlt hc)⟩

theorem piece_junk (h : i ≤ b.length) : Piece b i (pgJunkEnd b i) := by
  unfold pgJunkEnd
  split
  · exact piece_run (fun _ _ => Or.inl) h
  · exact piece_refl h

end Ends

/-! ## Token by token -/

variable {e : Nat}

section Tokens

variable {b : Bytes} {i : Nat}

/-- A token that is a piece of live bytes. -/
theorem reads_piece_iff (hstop : t.live = t.stop) (hi : i < t.live) (h : Piece b i t.live) :
    Reads (noiseEnd .postgres b b.length) t i ↔ TokenPlain b t i :=
  reads_live_iff hstop hi h.inside
    (fun k c hk hkl hc _ => (liveByte_spec (h.live k c hk hkl hc)).1)
    (fun k hk hkl hc => (liveByte_spec (h.live k _ (Nat.le_of_lt hk) hkl hc)).2 rfl)

/-- A token that is one byte: blank, or an operator's or a bracket. -/
theorem reads_byte_iff (hlive : t.live = i + 1)
    (hstop : t.stop = i + 1) (hc : b[i]? = some c) (h : c ≠ backtick → Inert b i c) :
    Reads (noiseEnd .postgres b b.length) t i ↔ TokenPlain b t i := by
  refine reads_live_iff (hlive.trans hstop.symm) (by omega)
    (hlive ▸ lt_of_getElem?_eq_some hc) (fun k x hk hkl hx hne => ?_)
    (fun k hk hkl => absurd hkl (by omega))
  obtain rfl : k = i := by omega
  rw [hc] at hx
  obtain rfl := Option.some.inj hx
  exact h hne

/-- A token that is a literal, an identifier or a comment, `e` being where the
stripper ends it. -/
theorem reads_span_iff (hlive : t.live = i) (hlt : i < t.stop)
    (he : noiseEnd .postgres b b.length i = some e) :
    Reads (noiseEnd .postgres b b.length) t i ↔ e = t.stop := by
  constructor
  · intro h
    have hs := h.span (by omega)
    rw [hlive, he] at hs
    exact Option.some.inj hs
  · intro h
    refine ⟨fun k hk hkl => absurd hkl (by omega), fun _ => ?_⟩
    rw [hlive, he, h]

theorem noiseEnd_quote (hc : b[i]? = some c) (hq : isQuote c = true) :
    noiseEnd .postgres b b.length i = some (skipQuoted b i c (quoteEscapes b i c .postgres)) := by
  have hi := lt_of_getElem?_eq_some hc
  simp only [noiseEnd, hc, hq, if_true, Nat.min_eq_left (skipQuoted_le hi)]

theorem lt_skipQuoted (b : Bytes) (i : Nat) (q : UInt8) (escapes : Bool) :
    i < skipQuoted b i q escapes := by
  unfold skipQuoted
  omega

/-- The first difference of two runs. -/
theorem takeWhile_and_length {q : UInt8 → Bool} (u : Bytes) :
    (u.takeWhile fun c => p c && q c).length = (u.takeWhile p).length ↔
      ∀ c ∈ u.takeWhile p, q c = true := by
  induction u with
  | nil => simp
  | cons c u ih =>
    by_cases hp : p c = true
    · by_cases hq : q c = true
      · simp [hp, hq, ih]
      · simp [hp, hq]
    · simp [hp]

theorem takeWhile_and_le {q : UInt8 → Bool} (u : Bytes) :
    (u.takeWhile fun c => p c && q c).length ≤ (u.takeWhile p).length := by
  induction u with
  | nil => simp
  | cons c u ih =>
    by_cases hp : p c = true
    · by_cases hq : q c = true
      · simpa [hp, hq] using ih
      · simp [hp, hq]
    · simp [hp]

theorem slice_takeWhile (p : UInt8 → Bool) (b : Bytes) (i : Nat) :
    slice b i (i + ((b.drop i).takeWhile p).length) = (b.drop i).takeWhile p := by
  unfold slice
  rw [List.drop_take, Nat.add_sub_cancel_left]
  exact (List.prefix_iff_eq_take.mp (List.takeWhile_prefix _)).symm

theorem lineEnd_eq_iff {start : Nat} (hstart : start ≤ b.length) :
    lineCommentEnd b start = pgLineEnd b start ↔
      carriageReturn ∉ slice b start (lineCommentEnd b start) := by
  unfold lineCommentEnd pgLineEnd
  rw [Nat.min_eq_left hstart, slice_takeWhile, Nat.add_left_cancel_iff, eq_comm,
    takeWhile_and_length]
  constructor
  · intro h hmem
    exact absurd (h _ hmem) (by decide)
  · intro h c hc
    rw [bne_iff_ne]
    rintro rfl
    exact h hc

theorem isWordByte_eq : isWordByte = fun c => pgTagCont c && decide (c < 0x80) := by
  funext c
  rw [Bool.eq_iff_iff]
  simp only [Bool.and_eq_true, decide_eq_true_eq]
  constructor
  · intro h
    have := (toNat_lt_of_word h).2
    refine ⟨?_, UInt8.lt_iff_toNat_lt.mpr (Nat.lt_of_le_of_lt this (by decide))⟩
    simp only [isWordByte, isAsciiAlphanumeric, Bool.or_eq_true, beq_iff_eq] at h
    rcases h with rfl | h | h
    · decide
    · simp [pgTagCont, h]
    · simp [pgTagCont, pgIdentStart, h]
  · rintro ⟨h, hlt⟩
    have hhigh : ¬ 0x80 ≤ c := by
      rw [UInt8.lt_iff_toNat_lt] at hlt
      rw [UInt8.le_iff_toNat_le]
      omega
    simp only [pgTagCont, pgIdentStart, Bool.or_eq_true, decide_eq_true_eq, beq_iff_eq,
      hhigh, or_false] at h
    rcases h with (h | rfl) | h
    · simp [isWordByte, isAsciiAlphanumeric, h]
    · decide
    · simp [isWordByte, isAsciiAlphanumeric, h]

/-- A tag's bytes are ASCII exactly when the stripper reads the tag to its end. -/
theorem tag_ascii_iff (i : Nat) : wordEnd b i = runEnd pgTagCont b i ↔
    ∀ c ∈ slice b i (runEnd pgTagCont b i), c < 0x80 := by
  unfold wordEnd runEnd
  rw [slice_takeWhile, Nat.add_left_cancel_iff, isWordByte_eq, takeWhile_and_length]
  simp only [decide_eq_true_eq]

theorem pgDollarEnd_bounds (he : pgDollarEnd b i = some e) : i < e ∧ e ≤ b.length := by
  unfold pgDollarEnd at he
  simp only at he
  have hr := le_runEnd pgTagCont b (i + 1)
  split at he
  · rename_i hd
    have hlt := lt_of_getElem?_eq_some (beq_iff_eq.mp hd)
    split at he
    · rename_i off hf
      have := findBytes_le hf
      rw [List.length_drop] at this
      obtain rfl := Option.some.inj he
      omega
    · obtain rfl := Option.some.inj he
      omega
  · cases he

/-- The dollar quote of the stripper is the dollar quote of Postgres exactly when
its tag is ASCII. -/
theorem dollarQuoteEnd_eq_iff (he : pgDollarEnd b i = some e) :
    dollarQuoteEnd b i = some e ↔
      ∀ c ∈ slice b (i + 1) (runEnd pgTagCont b (i + 1)), c < 0x80 := by
  rw [← tag_ascii_iff]
  unfold pgDollarEnd at he
  simp only at he
  split at he
  swap
  · cases he
  rename_i hclose
  rw [beq_iff_eq] at hclose
  constructor
  · intro h
    have hsome : b[wordEnd b (i + 1)]? = some dollar := by
      by_contra hne
      rw [dollarQuoteEnd_none_iff.mpr hne] at h
      cases h
    have hle : wordEnd b (i + 1) ≤ runEnd pgTagCont b (i + 1) := by
      unfold wordEnd runEnd
      rw [isWordByte_eq]
      exact Nat.add_le_add_left (takeWhile_and_le _) _
    rcases Nat.eq_or_lt_of_le hle with heq | hlt
    · exact heq
    · exact absurd (runEnd_span (le_wordEnd _ _) hlt hsome) (by decide)
  · intro h
    unfold dollarQuoteEnd
    simp only [h, hclose, beq_self_eq_true, if_true]
    exact he

/-- Being plain, for a token that is a literal, an identifier or a comment. -/
theorem plain_span_iff (hlive : t.live = i) (hlt : i < t.stop)
    (hc : b[i]? = some c) (hne : c ≠ backtick) :
    TokenPlain b t i ↔
      (c = dollar → ∀ x ∈ slice b (i + 1) (runEnd pgTagCont b (i + 1)), x < 0x80) ∧
      (c = dash → carriageReturn ∉ slice b (i + 2) (lineCommentEnd b (i + 2))) ∧
      (c = singleQuote →
        skipQuoted b i singleQuote (quoteEscapes b i singleQuote .postgres) = t.stop) := by
  constructor
  · rintro ⟨-, -, htag, hline, hquote⟩
    rw [hlive, hc] at htag hline hquote
    exact ⟨fun h => htag hlt (h ▸ rfl), fun h => hline hlt (h ▸ rfl), fun h => hquote hlt (h ▸ rfl)⟩
  · rintro ⟨htag, hline, hquote⟩
    refine ⟨?_, fun k hk hkl => absurd hkl (by omega), ?_, ?_, ?_⟩
    · rw [hc]
      exact fun h => hne (Option.some.inj h)
    all_goals
      rw [hlive, hc]
      intro _ h
    · exact htag (Option.some.inj h)
    · exact hline (Option.some.inj h)
    · exact hquote (Option.some.inj h)

theorem inert_of_ne (h1 : c ≠ singleQuote) (h2 : c ≠ doubleQuote)
    (h3 : c ≠ backtick) (h4 : c = dash → b[k + 1]? ≠ some dash)
    (h5 : c = slash → b[k + 1]? ≠ some star) : Inert b k c :=
  ⟨by simp [isQuote, h1, h2, h3], h4, h5⟩

/-- **One token.** The stripper reads it as it is exactly when it is plain. -/
theorem token_reads_iff (cont : PgCont) (hi : i < b.length) :
    Reads (noiseEnd .postgres b b.length) (pgToken b cont i) i ↔
      TokenPlain b (pgToken b cont i) i := by
  have hc : b[i]? = some b[i] := List.getElem?_eq_getElem hi
  generalize b[i] = c at hc
  have hle := Nat.le_of_lt hi
  unfold pgToken
  rw [hc]
  simp only
  split
  · -- a blank
    rename_i hspace
    have hne : ∀ x, pgSpace x = false → c ≠ x := by
      rintro x hx rfl
      rw [hx] at hspace
      exact Bool.noConfusion hspace
    exact reads_byte_iff rfl rfl hc fun h => inert_of_ne (hne _ (by decide)) (hne _ (by decide)) h
      (fun hd => absurd hd (hne _ (by decide))) (fun hs => absurd hs (hne _ (by decide)))
  rename_i hspace
  split
  · -- a line comment
    rename_i hline
    simp only [Bool.and_eq_true, beq_iff_eq] at hline
    obtain ⟨rfl, hnext⟩ := hline
    have hi1 := lt_of_getElem?_eq_some hnext
    have hend : noiseEnd .postgres b b.length i = some (lineCommentEnd b (i + 2)) := by
      have hd : Dialect.dashCommentAt .postgres b i = true := by
        simp [Dialect.dashCommentAt, hc, hnext]
      simp [noiseEnd, hc, isQuote, hd, Nat.min_eq_left (lineCommentEnd_le b (i + 2)), dash,
        singleQuote, doubleQuote, backtick]
    have hlt : i < pgLineEnd b (i + 2) := by
      unfold pgLineEnd
      omega
    rw [reads_span_iff rfl hlt hend, plain_span_iff rfl hlt hc (by decide),
      lineEnd_eq_iff (by omega)]
    simp [dash, dollar, singleQuote]
  rename_i hline
  split
  · -- a block comment
    rename_i hblock
    simp only [Bool.and_eq_true, beq_iff_eq] at hblock
    obtain ⟨rfl, hnext⟩ := hblock
    have hi1 := lt_of_getElem?_eq_some hnext
    have hstop : ∀ stop, i + 1 < stop → noiseEnd .postgres b stop i =
        some (min (skipBlockComment b i .postgres) stop) := by
      intro stop hstop
      simp [noiseEnd, hc, hnext, isQuote, Dialect.dashCommentAt, Dialect.hashComments, hstop,
        slash, dash, singleQuote, doubleQuote, backtick, ByteText.hash]
    have hend := hstop b.length hi1
    rw [Nat.min_eq_left (skipBlockComment_le hi1)] at hend
    have hlt : i < skipBlockComment b i .postgres := by
      unfold skipBlockComment
      omega
    rw [reads_span_iff rfl hlt hend, plain_span_iff rfl hlt hc (by decide)]
    simp [slash, dash, dollar, singleQuote]
  rename_i hblock
  split
  · -- a quote
    rename_i hquote
    obtain rfl := beq_iff_eq.mp hquote
    have hend := noiseEnd_quote hc (by decide)
    split
    all_goals
      rw [reads_span_iff rfl (lt_skipQuoted _ _ _ _) hend,
        plain_span_iff rfl (lt_skipQuoted _ _ _ _) hc (by decide)]
      simp [singleQuote, dash, dollar]
  rename_i hquote
  split
  · -- a quoted identifier
    rename_i hident
    obtain rfl := beq_iff_eq.mp hident
    have hend := noiseEnd_quote hc (by decide)
    rw [reads_span_iff rfl (lt_skipQuoted _ _ _ _) hend,
      plain_span_iff rfl (lt_skipQuoted _ _ _ _) hc (by decide)]
    have hplain : quoteEscapes b i doubleQuote .postgres = false := by
      simp [quoteEscapes, Dialect.backslashInStrings, doubleQuote, backtick, singleQuote]
    simp [hplain, doubleQuote, singleQuote, dash, dollar]
  rename_i hdouble
  split
  · -- an escape string: its `E`, and its quote
    rename_i hescape
    simp only [Bool.and_eq_true, Bool.or_eq_true, beq_iff_eq] at hescape
    obtain ⟨hletter, hnext⟩ := hescape
    have hne : ∀ x, isAsciiAlphabetic x = false → c ≠ x := by
      rintro x hx rfl
      rcases hletter with rfl | rfl <;> exact absurd hx (by decide)
    have hend := noiseEnd_quote hnext (by decide)
    have hnone : noiseEnd .postgres b b.length i = none := by
      rw [noiseEnd_inert hc (inert_of_ne (hne _ (by decide)) (hne _ (by decide))
        (hne _ (by decide)) (fun hd => absurd hd (hne _ (by decide)))
        (fun hs => absurd hs (hne _ (by decide)))), hc]
      exact fun hd => absurd (Option.some.inj hd) (hne _ (by decide))
    constructor
    · intro h
      have hs := h.span (lt_skipQuoted _ _ _ _)
      rw [hend] at hs
      refine ⟨?_, fun k hk hkl => ?_, fun _ hd => ?_, fun _ hd => ?_, fun _ _ => Option.some.inj hs⟩
      · rw [hc]
        exact fun hb => absurd (Option.some.inj hb) (hne _ (by decide))
      · obtain rfl : k = i := Nat.le_antisymm (Nat.le_of_lt_succ hkl) hk
        rw [hc]
        exact fun hd => absurd (Option.some.inj hd) (hne _ (by decide))
      · rw [hnext] at hd
        exact absurd (Option.some.inj hd) (by decide)
      · rw [hnext] at hd
        exact absurd (Option.some.inj hd) (by decide)
    · intro h
      refine ⟨fun k hk hkl => ?_, fun hlt => ?_⟩
      · obtain rfl : k = i := Nat.le_antisymm (Nat.le_of_lt_succ hkl) hk
        exact hnone
      · exact hend.trans (congrArg some (h.quote hlt hnext))
  split
  · rename_i hident
    have hcont : pgIdentCont c = true := by simp [pgIdentCont, hident]
    exact reads_piece_iff rfl (lt_runEnd hc hcont) (piece_run (fun _ _ => Or.inl) hle)
  rename_i hident
  split
  · rename_i hdigit
    obtain ⟨hpiece, hlt⟩ := piece_number hc hdigit
    have hjunk := piece_junk hpiece.inside
    exact reads_piece_iff rfl (Nat.lt_of_lt_of_le hlt hjunk.le) (hpiece.trans hjunk)
  rename_i hdigit
  split
  · -- a parameter
    rename_i hparam
    simp only [Bool.and_eq_true, beq_iff_eq] at hparam
    obtain ⟨rfl, -⟩ := hparam
    have hone := piece_one hc (Or.inl (by decide))
    have hrun := piece_run (p := isAsciiDigit) (b := b) (i := i + 1)
      (fun _ _ h => liveByte_word (Or.inl (digit_word h))) hone.inside
    have hjunk := piece_junk hrun.inside
    exact reads_piece_iff rfl (Nat.lt_of_lt_of_le (Nat.lt_succ_self i)
      (Nat.le_trans hrun.le hjunk.le)) ((hone.trans hrun).trans hjunk)
  rename_i hparam
  split
  · rename_i hdollar
    obtain rfl := beq_iff_eq.mp hdollar
    cases hend : pgDollarEnd b i with
    | none =>
      exact reads_byte_iff rfl rfl hc fun h => inert_of_ne (by decide) (by decide) h
        (fun hd => absurd hd (by decide)) (fun hs => absurd hs (by decide))
    | some e =>
      have hlt : i < e := (pgDollarEnd_bounds hend).1
      have hclip : noiseEnd .postgres b b.length i = dollarQuoteEnd b i := by
        have hmap : noiseEnd .postgres b b.length i = (dollarQuoteEnd b i).map (min · b.length) := by
          simp [noiseEnd, hc, isQuote, Dialect.dashCommentAt, Dialect.hashComments,
            Dialect.dollarQuotes, dollar, dash, slash, singleQuote, doubleQuote, backtick,
            ByteText.hash]
        rw [hmap]
        cases hd : dollarQuoteEnd b i with
        | none => rfl
        | some x => rw [Option.map_some, Nat.min_eq_left (dollarQuoteEnd_bounds hd).2]
      simp only
      rw [plain_span_iff rfl hlt hc (by decide), ← dollarQuoteEnd_eq_iff hend]
      constructor
      · intro h
        refine ⟨fun _ => ?_, fun hd => absurd hd (by decide), fun hd => absurd hd (by decide)⟩
        rw [← hclip]
        exact h.span hlt
      · intro h
        exact ⟨fun k hk hkl => absurd hkl (Nat.not_lt.mpr hk), fun _ => hclip.trans (h.1 rfl)⟩
  · rename_i hdollar
    refine reads_byte_iff rfl rfl hc fun h => inert_of_ne ?_ ?_ h ?_ ?_
    · exact fun heq => hquote (beq_iff_eq.mpr heq)
    · exact fun heq => hdouble (beq_iff_eq.mpr heq)
    · intro heq hnext
      exact hline (by simp [heq, hnext])
    · intro heq hnext
      exact hblock (by simp [heq, hnext])

/-- Tokens move on and stay in the text. -/
theorem pgToken_moves (b : Bytes) : Moves (pgToken b) b.length := by
  intro cont i hi
  have hc : b[i]? = some b[i] := List.getElem?_eq_getElem hi
  generalize b[i] = c at hc
  have hle := Nat.le_of_lt hi
  have hpiece : ∀ {j}, Piece b i j → i < j → i ≤ j ∧ j ≤ j ∧ i < j ∧ j ≤ b.length :=
    fun h hlt => ⟨h.le, Nat.le_refl _, hlt, h.inside⟩
  have hbyte : i ≤ i + 1 ∧ i + 1 ≤ i + 1 ∧ i < i + 1 ∧ i + 1 ≤ b.length := by omega
  have hspan : ∀ {e}, i < e → e ≤ b.length → i ≤ i ∧ i ≤ e ∧ i < e ∧ e ≤ b.length := by omega
  unfold pgToken
  rw [hc]
  simp only
  split
  · exact hbyte
  split
  · rename_i hline
    have hi1 := lt_of_getElem?_eq_some (beq_iff_eq.mp (Bool.and_eq_true_iff.mp hline).2)
    have := takeWhile_length_le (fun c => c != newline && c != carriageReturn) (b.drop (i + 2))
    rw [List.length_drop] at this
    have hlt : i < pgLineEnd b (i + 2) ∧ pgLineEnd b (i + 2) ≤ b.length := by
      unfold pgLineEnd
      omega
    exact hspan hlt.1 hlt.2
  split
  · rename_i hblock
    have hi1 := lt_of_getElem?_eq_some (beq_iff_eq.mp (Bool.and_eq_true_iff.mp hblock).2)
    have hlt : i < skipBlockComment b i .postgres := by
      unfold skipBlockComment
      omega
    exact hspan hlt (skipBlockComment_le hi1)
  split
  · split <;> exact hspan (lt_skipQuoted _ _ _ _) (skipQuoted_le hi)
  split
  · exact hspan (lt_skipQuoted _ _ _ _) (skipQuoted_le hi)
  split
  · rename_i hescape
    have hi1 := lt_of_getElem?_eq_some (beq_iff_eq.mp (Bool.and_eq_true_iff.mp hescape).2)
    have hlt := lt_skipQuoted b (i + 1) singleQuote true
    have hend : skipQuoted b (i + 1) singleQuote true ≤ b.length := skipQuoted_le hi1
    simp only
    omega
  split
  · rename_i hident
    exact hpiece (piece_run (fun _ _ => Or.inl) hle)
      (lt_runEnd hc (by simp [pgIdentCont, hident]))
  split
  · rename_i hdigit
    obtain ⟨hnumber, hlt⟩ := piece_number hc hdigit
    have hjunk := piece_junk hnumber.inside
    exact hpiece (hnumber.trans hjunk) (Nat.lt_of_lt_of_le hlt hjunk.le)
  split
  · have hrun := piece_run (p := isAsciiDigit) (b := b) (i := i + 1)
      (fun _ _ h => liveByte_word (Or.inl (digit_word h))) hi
    have hjunk := piece_junk hrun.inside
    have hlt : i < pgJunkEnd b (runEnd isAsciiDigit b (i + 1)) :=
      Nat.lt_of_lt_of_le (Nat.lt_succ_self i) (Nat.le_trans hrun.le hjunk.le)
    exact ⟨Nat.le_of_lt hlt, Nat.le_refl _, hlt, hjunk.inside⟩
  split
  · cases hend : pgDollarEnd b i with
    | none => exact hbyte
    | some e => exact hspan (pgDollarEnd_bounds hend).1 (pgDollarEnd_bounds hend).2
  · exact hbyte

end Tokens

/-! ## The copy -/

section Copy

variable {d : Dialect} {b : Bytes}

theorem noiseEnd_moves (d : Dialect) (b : Bytes) (i e : Nat) (hi : i < b.length)
    (he : noiseEnd d b b.length i = some e) : i < e ∧ e ≤ b.length :=
  noiseEnd_bounds hi (Nat.le_refl _) he

/-- The copy of the bytes in front of a visited offset: blanked where a span covers
them. -/
structure Copied (d : Dialect) (b : Bytes) (s : State Unit) : Prop where
  reached : Reaches d b b.length 0 s.pos
  before : ∀ r ∈ s.spans, r.2 ≤ s.pos
  bytes : ∀ k c, k < s.pos → b[k]? = some c →
    (stripNoise b d)[k]? = some (if Covers s.spans k then blankByte c else c)

theorem Copied.step (hexec : ∀ i, d.executableCommentAt b i = false) {s : State Unit}
    (h : Copied d b s) (hi : s.pos < b.length) :
    Copied d b (SpanScan.step (bytewise (noiseEnd d b b.length)) s) := by
  have hnext := h.reached.trans (Reaches.next (d := d) hi)
  have hdrop := drop_stripNoise h.reached
  cases ho : noiseEnd d b b.length s.pos with
  | none =>
    rw [bytewise_none ho]
    rw [lexNext, ho, Option.getD_none] at hnext
    refine ⟨hnext, fun r hr => Nat.le_succ_of_le (h.before r hr), fun k c hk hc => ?_⟩
    rcases Nat.eq_or_lt_of_le (Nat.le_of_lt_succ hk) with rfl | hlt
    · have hlive := congrArg List.head? (stripNoise_live h.reached hc ho)
      rw [List.head?_drop, List.head?_cons] at hlive
      rw [hlive, if_neg]
      rintro ⟨r, hr, -, hlt⟩
      exact absurd (h.before r hr) (Nat.not_le.mpr hlt)
    · exact h.bytes k c hlt hc
  | some e =>
    obtain ⟨hlt, hle⟩ := noiseEnd_moves d b s.pos e hi ho
    rw [bytewise_some ho hlt]
    rw [lexNext, ho, Option.getD_some] at hnext
    refine ⟨hnext, fun r hr => ?_, fun k c hk hc => ?_⟩
    · rcases List.mem_append.mp hr with hr | hr
      · exact Nat.le_trans (h.before r hr) (Nat.le_of_lt hlt)
      · obtain rfl := List.mem_singleton.mp hr
        exact Nat.le_refl _
    · rcases Nat.lt_or_ge k s.pos with hks | hks
      · rw [h.bytes k c hks hc]
        have hsame : Covers (s.spans ++ [(s.pos, e)]) k ↔ Covers s.spans k := by
          constructor
          · rintro ⟨r, hr, h1, h2⟩
            rcases List.mem_append.mp hr with hr | hr
            · exact ⟨r, hr, h1, h2⟩
            · obtain rfl := List.mem_singleton.mp hr
              exact absurd h1 (Nat.not_le.mpr hks)
          · rintro ⟨r, hr, h1, h2⟩
            exact ⟨r, List.mem_append_left _ hr, h1, h2⟩
        simp only [hsame]
      · have hcover : Covers (s.spans ++ [(s.pos, e)]) k :=
          ⟨(s.pos, e), List.mem_append_right _ (List.mem_singleton.mpr rfl), hks, hk⟩
        rw [if_pos hcover]
        rw [strip_noise hi (Nat.le_refl _) (hexec _) ho] at hdrop
        have hget := congrArg (fun l => l[k - s.pos]?) hdrop
        simp only [List.getElem?_drop, Nat.add_sub_cancel' hks] at hget
        have hke : k < e := hk
        rw [hget, List.getElem?_append_left (by rw [length_blankSpan hle]; omega)]
        unfold blankSpan slice
        rw [List.getElem?_map, List.getElem?_drop, Nat.add_sub_cancel' hks,
          List.getElem?_take_of_lt hk, hc]
        rfl

/-- **The copy.** Without executable comments it blanks the spans and nothing else. -/
theorem stripNoise_spans (hexec : ∀ i, d.executableCommentAt b i = false) (hc : b[k]? = some c) :
    (stripNoise b d)[k]? = some (if Covers (stripSpans d b) k then blankByte c else c) := by
  have hmoves := moves_bytewise (noiseEnd_moves d b)
  have hcopied : Copied d b (run (bytewise (noiseEnd d b b.length)) b.length ⟨0, (), []⟩) := by
    refine WhileLoop.Visits.inv (I := Copied d b) (fun s hs h => ?_)
      (visits_run (bytewise (noiseEnd d b b.length)) b.length ⟨0, (), []⟩) ?_
    · exact h.step hexec (of_decide_eq_true hs)
    · exact ⟨Relation.ReflTransGen.refl, fun r hr => absurd hr List.not_mem_nil,
        fun k c hk => absurd hk (Nat.not_lt_zero k)⟩
  refine hcopied.bytes k c ?_ hc
  rw [run_pos hmoves (Nat.zero_le _)]
  exact lt_of_getElem?_eq_some hc

end Copy

/-- **The stripper against Postgres.** It blanks the literals, quoted identifiers and
comments of a statement, span by span and byte by byte, exactly when every token of
the statement is plain. -/
theorem blanksExactly_iff (b : Bytes) : BlanksExactly b ↔ AllPlain b := by
  have hspans : stripSpans .postgres b = pgSpans b ↔ AllPlain b := by
    unfold stripSpans pgSpans AllPlain
    rw [spans_eq_iff (pgToken_moves b) (noiseEnd_moves .postgres b)]
    exact forall₃_congr fun s _ hi => token_reads_iff s.mode hi
  constructor
  · intro h
    exact hspans.mp h.spans
  · intro h
    refine ⟨hspans.mpr h, fun k c hc => ?_⟩
    rw [stripNoise_spans (fun _ => rfl) hc, hspans.mpr h]

/-- Two statements behind an identifier that ends in `$$`: the stripper takes the rest
of the text for a dollar-quoted literal, the `D` of DELETE with it. -/
theorem dollarIdent_not_blanks :
    ¬ BlanksExactly (ascii "SELECT a$$ FROM t; DELETE FROM u; --$$") ∧
      ¬ Inside (ascii "SELECT a$$ FROM t; DELETE FROM u; --$$") 19 ∧
      (ascii "SELECT a$$ FROM t; DELETE FROM u; --$$")[19]? = some 68 ∧
      (stripNoise (ascii "SELECT a$$ FROM t; DELETE FROM u; --$$") .postgres)[19]? =
        some space := by
  have hout : ¬ Inside (ascii "SELECT a$$ FROM t; DELETE FROM u; --$$") 19 := by decide
  have hcopy : (stripNoise (ascii "SELECT a$$ FROM t; DELETE FROM u; --$$") .postgres)[19]? =
      some space := by decide
  refine ⟨fun h => ?_, hout, by decide, hcopy⟩
  have hbyte := h.bytes 19 68 (by decide)
  rw [if_neg hout, hcopy] at hbyte
  exact absurd hbyte (by decide)

end RedDb.Sql
