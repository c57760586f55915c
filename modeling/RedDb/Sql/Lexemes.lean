import RedDb.Lib.ByteText

/-!
# RedDb — the lexemes of a SQL text

The helpers every scanner of `sql.rs` is built on: which comment forms and
string escapes a dialect has, and where a quote, a comment or a dollar-quoted
body that opens at `i` ends. Positions are byte offsets, as in the source; each
inner loop of the source is a function of the bytes still to read, so that a
helper is its starting offset plus a length.

`noiseEnd` is what the splitter and the stripper share: the end of the literal,
quoted identifier or comment that opens at `i`, if one does.
-/

namespace RedDb.Sql

open ByteText

/-- The engines a connection may be of. -/
inductive DbKind where
  | postgres | mysql | sqlite | clickhouse | redis | mongo
  deriving DecidableEq

/-- The lexical profile of an engine's SQL. -/
inductive Dialect where
  | generic | mySql | postgres | sqlite | clickHouse
  deriving DecidableEq

namespace Dialect

/-- The dialect of an engine kind; the non-SQL kinds lex as `generic`. -/
def of : DbKind → Dialect
  | .postgres => .postgres
  | .mysql => .mySql
  | .sqlite => .sqlite
  | .clickhouse => .clickHouse
  | .redis | .mongo => .generic

def hashComments (d : Dialect) : Bool := d == .mySql

/-- Whether `--` at `i` opens a line comment. MySQL wants a blank, or the end of
the text, after the dashes. -/
def dashCommentAt (d : Dialect) (b : Bytes) (i : Nat) : Bool :=
  b[i]? == some dash && b[i + 1]? == some dash &&
    (match d with
      | .mySql => (b[i + 2]?).all isAsciiWhitespace
      | _ => true)

def backslashInStrings : Dialect → Bool
  | .generic | .mySql | .clickHouse => true
  | .postgres | .sqlite => false

def dollarQuotes : Dialect → Bool
  | .generic | .postgres | .clickHouse => true
  | .mySql | .sqlite => false

def nestedBlockComments (d : Dialect) : Bool := d == .postgres

/-- Whether `/*!` at `i` opens a comment whose body MySQL runs. -/
def executableCommentAt (d : Dialect) (b : Bytes) (i : Nat) : Bool :=
  d == .mySql && [slash, star, bang].isPrefixOf (b.drop i)

end Dialect

/-- Where the body of an executable comment starts: past `/*!` and the optional
version gate. -/
def execCommentBody (b : Bytes) (i : Nat) : Nat :=
  i + 3 + ((b.drop (i + 3)).takeWhile isAsciiDigit).length

/-- Bytes that make up an unquoted identifier or keyword. -/
def isWordByte (c : UInt8) : Bool := c == underscore || isAsciiAlphanumeric c

/-- The index just past the word starting at `i`. -/
def wordEnd (b : Bytes) (i : Nat) : Nat := i + ((b.drop i).takeWhile isWordByte).length

/-- The three quote bytes. -/
def isQuote (c : UInt8) : Bool := c == singleQuote || c == doubleQuote || c == backtick

/-- Whether a backslash escapes the next character inside the quote opened at
`i`: by the dialect, and in Postgres' `E'…'` form. -/
def quoteEscapes (b : Bytes) (i : Nat) (q : UInt8) (d : Dialect) : Bool :=
  if q == backtick then false
  else if d.backslashInStrings then true
  else d == .postgres && q == singleQuote && 1 ≤ i &&
    (b[i - 1]? == some 101 || b[i - 1]? == some 69) &&
    (i < 2 || (b[i - 2]?).all fun c => !isWordByte c)

/-- How many bytes after an opening quote the literal goes on, its closing quote
included. A doubled quote stays inside; an unterminated quote takes everything. -/
@[grind =] def quotedLen (q : UInt8) (escapes : Bool) : Bytes → Nat
  | [] => 0
  | c :: rest =>
    if c == q then
      match rest with
      | [] => 1
      | d :: rest' => if d == q then 2 + quotedLen q escapes rest' else 1
    else if c == backslash && escapes then
      match rest with
      | [] => 1
      | _ :: rest' => 2 + quotedLen q escapes rest'
    else 1 + quotedLen q escapes rest

/-- Index just past the closing quote of the literal opened at `i`. -/
def skipQuoted (b : Bytes) (i : Nat) (q : UInt8) (escapes : Bool) : Nat :=
  i + 1 + quotedLen q escapes (b.drop (i + 1))

/-- Index of the newline ending the line comment whose body starts at `start`. -/
def lineCommentEnd (b : Bytes) (start : Nat) : Nat :=
  min start b.length + ((b.drop start).takeWhile (· != newline)).length

/-- How many bytes after `/*` a block comment goes on, `depth` comments being
open. `second` marks the second byte of a `*/` or `/*` already counted. -/
@[grind =] def blockLen (nests : Bool) : Bool → Nat → Bytes → Nat
  | _, _, [] => 0
  | true, depth, _ :: rest => 1 + blockLen nests false depth rest
  | false, depth, c :: rest =>
    if c == star && rest.head? == some slash then
      if depth - 1 = 0 then 2 else 1 + blockLen nests true (depth - 1) rest
    else if nests && c == slash && rest.head? == some star then
      1 + blockLen nests true (depth + 1) rest
    else 1 + blockLen nests false depth rest

/-- Index just past the `*/` closing the block comment opened at `i`. -/
def skipBlockComment (b : Bytes) (i : Nat) (d : Dialect) : Nat :=
  i + 2 + blockLen d.nestedBlockComments false 1 (b.drop (i + 2))

/-- The offset of the first occurrence of `tag`. -/
@[grind =] def findBytes (tag : Bytes) : Bytes → Option Nat
  | [] => if tag.isEmpty then some 0 else none
  | c :: rest => if tag.isPrefixOf (c :: rest) then some 0 else (findBytes tag rest).map (· + 1)

/-- The index just past the dollar-quoted body opened at `i`, or `none` for a
lone `$` and a `$1`-style parameter. -/
def dollarQuoteEnd (b : Bytes) (i : Nat) : Option Nat :=
  let j := wordEnd b (i + 1)
  if b[j]? == some dollar then
    let tag := slice b i (j + 1)
    match findBytes tag (b.drop (j + 1)) with
    | some off => some (j + 1 + off + tag.length)
    | none => some b.length
  else none

/-- The end, clipped to `stop`, of the quoted text, comment or dollar-quoted body
that opens at `i`. -/
def noiseEnd (d : Dialect) (b : Bytes) (stop i : Nat) : Option Nat :=
  match b[i]? with
  | none => none
  | some c =>
    if isQuote c then some (min (skipQuoted b i c (quoteEscapes b i c d)) stop)
    else if d.dashCommentAt b i then some (min (lineCommentEnd b (i + 2)) stop)
    else if c == hash && d.hashComments then some (min (lineCommentEnd b (i + 1)) stop)
    else if c == slash && i + 1 < stop && b[i + 1]? == some star then
      some (min (skipBlockComment b i d) stop)
    else if c == dollar && d.dollarQuotes then (dollarQuoteEnd b i).map (min · stop)
    else none

/-! ## Lengths -/

theorem toNat_lt_of_word {c : UInt8} (h : isWordByte c = true) : 48 ≤ c.toNat ∧ c.toNat ≤ 122 := by
  simp only [isWordByte, isAsciiAlphanumeric, isAsciiDigit, isAsciiAlphabetic, Bool.or_eq_true,
    beq_iff_eq, Bool.and_eq_true, decide_eq_true_eq, UInt8.le_iff_toNat_le] at h
  rcases h with rfl | ⟨h1, h2⟩ | ⟨h1, h2⟩ | ⟨h1, h2⟩
  · decide
  all_goals
    simp only [UInt8.reduceToNat] at h1 h2
    omega

theorem takeWhile_length_le (p : UInt8 → Bool) (u : Bytes) : (u.takeWhile p).length ≤ u.length :=
  (List.takeWhile_sublist p).length_le

theorem quotedLen_le (q : UInt8) (escapes : Bool) (u : Bytes) :
    quotedLen q escapes u ≤ u.length := by
  fun_induction quotedLen q escapes u <;> simp_all <;> omega

theorem blockLen_le (nests second : Bool) (depth : Nat) (u : Bytes) :
    blockLen nests second depth u ≤ u.length := by
  fun_induction blockLen nests second depth u with
  | case1 => simp
  | case2 _ _ _ ih => simp only [List.length_cons]; omega
  | case3 depth c rest h =>
    have hne : rest ≠ [] := by
      rintro rfl
      simp at h
    have := List.length_pos_iff.mpr hne
    simp only [List.length_cons]
    omega
  | case4 _ _ _ _ _ ih | case5 _ _ _ _ _ ih | case6 _ _ _ _ _ ih => simp only [List.length_cons]; omega

theorem findBytes_le {tag u : Bytes} {off : Nat} (h : findBytes tag u = some off) :
    off + tag.length ≤ u.length := by
  induction u generalizing off with
  | nil =>
    rw [findBytes] at h
    split at h
    · rename_i ht
      obtain rfl := Option.some.inj h
      simpa using ht
    · simp at h
  | cons c rest ih =>
    rw [findBytes] at h
    split at h
    · rename_i hp
      obtain rfl := Option.some.inj h
      simpa using (List.isPrefixOf_iff_prefix.mp hp).length_le
    · obtain ⟨o, ho, rfl⟩ := Option.map_eq_some_iff.mp h
      have := ih ho
      simp only [List.length_cons]
      omega

theorem le_wordEnd (b : Bytes) (i : Nat) : i ≤ wordEnd b i := Nat.le_add_right _ _

variable {b : Bytes} {i : Nat}

theorem wordEnd_le (h : i ≤ b.length) : wordEnd b i ≤ b.length := by
  have := takeWhile_length_le isWordByte (b.drop i)
  rw [List.length_drop] at this
  unfold wordEnd
  omega

theorem skipQuoted_le {q : UInt8} {escapes : Bool} (h : i < b.length) :
    skipQuoted b i q escapes ≤ b.length := by
  have := quotedLen_le q escapes (b.drop (i + 1))
  rw [List.length_drop] at this
  unfold skipQuoted
  omega

theorem lineCommentEnd_le (b : Bytes) (start : Nat) : lineCommentEnd b start ≤ b.length := by
  have := takeWhile_length_le (· != newline) (b.drop start)
  rw [List.length_drop] at this
  unfold lineCommentEnd
  omega

variable {d : Dialect}

theorem skipBlockComment_le (h : i + 1 < b.length) : skipBlockComment b i d ≤ b.length := by
  have := blockLen_le d.nestedBlockComments false 1 (b.drop (i + 2))
  rw [List.length_drop] at this
  unfold skipBlockComment
  omega

/-- A block comment that ends before the text does ends with `*/`. -/
theorem blockLen_closed {nests second : Bool} {depth : Nat} {u : Bytes}
    (h : blockLen nests second depth u < u.length) :
    [star, slash] <:+ u.take (blockLen nests second depth u) := by
  fun_induction blockLen nests second depth u with
  | case1 => simp at h
  | case2 depth c rest ih | case4 depth c rest _ _ ih | case5 depth c rest _ _ ih
  | case6 depth c rest _ _ ih =>
    rw [Nat.add_comm, List.take_succ_cons]
    exact (ih (by simp only [List.length_cons] at h; omega)).trans (List.suffix_cons _ _)
  | case3 depth c rest hc =>
    simp only [Bool.and_eq_true, beq_iff_eq] at hc
    obtain ⟨rfl, hr⟩ := hc
    obtain ⟨t, rfl⟩ : ∃ t, rest = slash :: t := by
      cases rest with
      | nil => simp at hr
      | cons e t => exact ⟨t, by rw [Option.some.inj hr]⟩
    exact List.suffix_refl _

theorem skipBlockComment_closed (hi : i + 2 ≤ b.length) (h : skipBlockComment b i d < b.length) :
    [star, slash].isSuffixOf (b.take (skipBlockComment b i d)) = true := by
  unfold skipBlockComment at h ⊢
  have hcl : [star, slash] <:+ (b.drop (i + 2)).take
      (blockLen d.nestedBlockComments false 1 (b.drop (i + 2))) :=
    blockLen_closed (by rw [List.length_drop]; omega)
  rw [List.isSuffixOf_iff_suffix, List.take_add]
  exact hcl.trans (List.suffix_append _ _)

theorem lt_of_getElem?_eq_some {c : UInt8} (h : b[i]? = some c) :
    i < b.length := (List.getElem?_eq_some_iff.mp h).1

theorem dollarQuoteEnd_bounds {e : Nat} (h : dollarQuoteEnd b i = some e) :
    i < e ∧ e ≤ b.length := by
  unfold dollarQuoteEnd at h
  simp only at h
  have hw := le_wordEnd b (i + 1)
  split at h
  · rename_i hd
    have hlt := lt_of_getElem?_eq_some (by simpa using hd)
    split at h
    · rename_i off hf
      have := findBytes_le hf
      rw [List.length_drop] at this
      obtain rfl := Option.some.inj h
      omega
    · obtain rfl := Option.some.inj h
      omega
  · cases h

theorem dashCommentAt_lt {d : Dialect} (h : d.dashCommentAt b i = true) : i + 1 < b.length := by
  simp only [Dialect.dashCommentAt, Bool.and_eq_true, beq_iff_eq] at h
  exact lt_of_getElem?_eq_some h.1.2

/-- **Progress.** Noise that opens at `i` ends after it, at `stop` at the latest. -/
theorem noiseEnd_bounds {stop e : Nat} (hi : i < stop)
    (hs : stop ≤ b.length) (h : noiseEnd d b stop i = some e) : i < e ∧ e ≤ stop := by
  unfold noiseEnd at h
  have hlen : i < b.length := by omega
  rw [List.getElem?_eq_getElem hlen] at h
  simp only at h
  split at h
  · obtain rfl := Option.some.inj h
    unfold skipQuoted
    omega
  split at h
  · rename_i hd
    obtain rfl := Option.some.inj h
    have := dashCommentAt_lt hd
    unfold lineCommentEnd
    omega
  split at h
  · obtain rfl := Option.some.inj h
    unfold lineCommentEnd
    omega
  split at h
  · obtain rfl := Option.some.inj h
    unfold skipBlockComment
    omega
  split at h
  · obtain ⟨e', he', rfl⟩ := Option.map_eq_some_iff.mp h
    have := dollarQuoteEnd_bounds he'
    omega
  · cases h

/-- A dash that opens no comment opens nothing. -/
theorem noiseEnd_dash {stop : Nat} (hc : b[i]? = some dash)
    (h : d.dashCommentAt b i = false) : noiseEnd d b stop i = none := by
  simp [noiseEnd, hc, h, isQuote, dash, singleQuote, doubleQuote, backtick, ByteText.hash, slash,
    dollar]

end RedDb.Sql
