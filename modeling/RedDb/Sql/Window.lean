import RedDb.Lib.WhileLoop
import RedDb.Sql.Strip

/-!
# RedDb — the stripper on a slice of a text

A gate strips the statement it was handed, the splitter cut that statement out
of a script. This module relates the two copies.

* `noiseEnd_take` / `noiseEnd_drop` — a lexeme in a prefix, and in a suffix, of a text;
* `strip_take` — stripping a prefix: the one difference is a MySQL
  `--` that ends it, a comment there and live in the longer text;
* `strip_drop` — stripping a suffix;
* `strip_append` — the stripper resumes at every offset it stands on.
-/

namespace RedDb.Sql

open ByteText

/-- A byte that no lexeme crosses or looks past: blanks, `;`, `)`, `,`, … -/
def breaksLexeme (c : UInt8) : Bool :=
  !(isWordByte c || isQuote c || c == dollar || c == dash || c == bang || c == star)

/-- A text that may follow a cut: empty, or opening with a byte no lexeme crosses. -/
def Breaks (post : Bytes) : Prop := ∀ c, post.head? = some c → breaksLexeme c = true

variable {c : UInt8}

theorem breaksLexeme_iff : breaksLexeme c = true ↔
    isWordByte c = false ∧ isQuote c = false ∧ c ≠ dollar ∧ c ≠ dash ∧ c ≠ bang ∧ c ≠ star := by
  simp [breaksLexeme, and_assoc]

/-! ## Inner loops on a prefix -/

variable {escapes : Bool} {q : UInt8}

theorem quotedLen_plain {rest : Bytes} (h : ¬ (c == q) = true)
    (h' : ¬ (c == backslash && escapes) = true) :
    quotedLen q escapes (c :: rest) = 1 + quotedLen q escapes rest := by
  rw [quotedLen.eq_def]
  simp only [if_neg h, if_neg h']

variable {u v : Bytes}

theorem quotedLen_append (hv : v.head? ≠ some q) :
    min (quotedLen q escapes (u ++ v)) u.length = quotedLen q escapes u := by
  fun_induction quotedLen q escapes u with
  | case1 => simp
  | case2 c h =>
    cases v with
    | nil => simp [quotedLen, h]
    | cons e v =>
      have he : (e == q) = false := by simpa using hv
      simp [quotedLen, h, he]
  | case3 c h d rest h' ih =>
    simp only [List.cons_append, quotedLen, h, h', if_true, List.length_cons]
    omega
  | case4 c h d rest h' =>
    simp only [List.cons_append, quotedLen, h, h', if_true, List.length_cons]
    simp
  | case5 c h h' =>
    cases v with
    | nil => simp [quotedLen, h, h']
    | cons e v =>
      simp only [List.cons_append, List.nil_append, quotedLen, h, h', if_true, List.length_cons,
        Bool.false_eq_true, if_false, List.length_nil]
      omega
  | case6 c h h' d rest ih =>
    simp only [List.cons_append, quotedLen, h, h', if_true, List.length_cons, Bool.false_eq_true,
      if_false]
    omega
  | case7 c rest h h' ih =>
    rw [List.cons_append, quotedLen_plain h h', List.length_cons]
    omega

theorem blockLen_pos {nests second : Bool} {depth : Nat} (h : u ≠ []) :
    1 ≤ blockLen nests second depth u := by
  fun_cases blockLen nests second depth u <;> simp_all

theorem blockLen_cons_cons (nests : Bool) (depth : Nat) (c e : UInt8) (rest : Bytes) :
    blockLen nests false depth (c :: e :: rest) = if c == star && e == slash then
        if depth - 1 = 0 then 2 else 1 + blockLen nests true (depth - 1) (e :: rest)
      else if nests && c == slash && e == star then 1 + blockLen nests true (depth + 1) (e :: rest)
      else 1 + blockLen nests false depth (e :: rest) := by
  simp [blockLen]

theorem blockLen_append (nests second : Bool) (depth : Nat) (u v : Bytes) :
    min (blockLen nests second depth (u ++ v)) u.length = blockLen nests second depth u := by
  induction u generalizing second depth with
  | nil => simp [blockLen]
  | cons c rest ih =>
    rw [List.cons_append, List.length_cons]
    cases second with
    | true =>
      rw [blockLen, blockLen]
      have := ih false depth
      omega
    | false =>
      cases rest with
      | nil =>
        have h1 : 1 ≤ blockLen nests false depth (c :: v) := blockLen_pos (by simp)
        simp only [List.nil_append, List.length_nil]
        rw [show blockLen nests false depth [c] = 1 by simp [blockLen]]
        omega
      | cons e rest =>
        rw [List.cons_append, blockLen_cons_cons, blockLen_cons_cons]
        simp only [List.cons_append, List.length_cons] at ih ⊢
        have h1 := ih true (depth - 1)
        have h2 := ih true (depth + 1)
        have h3 := ih false depth
        by_cases hclose : (c == star && e == slash) = true
        · by_cases hd : depth - 1 = 0
          · simp only [if_pos hclose, if_pos hd]
            omega
          · simp only [if_pos hclose, if_neg hd]
            omega
        · by_cases hopen : (nests && c == slash && e == star) = true
          · simp only [if_neg hclose, if_pos hopen]
            omega
          · simp only [if_neg hclose, if_neg hopen]
            omega

theorem takeWhile_append_of_stop {p : UInt8 → Bool}
    (hv : ∀ c, v.head? = some c → p c = false) : (u ++ v).takeWhile p = u.takeWhile p := by
  induction u with
  | nil =>
    cases v with
    | nil => rfl
    | cons c v => simp [hv c rfl]
  | cons a u ih =>
    simp only [List.cons_append, List.takeWhile_cons]
    rw [ih]

theorem takeWhile_append_length (p : UInt8 → Bool) (u v : Bytes) :
    min ((u ++ v).takeWhile p).length u.length = (u.takeWhile p).length := by
  induction u with
  | nil => simp
  | cons a u ih =>
    simp only [List.cons_append, List.takeWhile_cons, List.length_cons]
    split
    · simp only [List.length_cons]
      omega
    · simp

theorem findBytes_append_some {tag : Bytes} (v : Bytes) {off : Nat}
    (h : findBytes tag u = some off) : findBytes tag (u ++ v) = some off := by
  induction u generalizing off with
  | nil =>
    rw [findBytes] at h
    split at h
    · rename_i ht
      obtain rfl := Option.some.inj h
      obtain rfl := List.isEmpty_iff.mp ht
      cases v <;> simp [findBytes]
    · cases h
  | cons c rest ih =>
    rw [findBytes] at h
    rw [List.cons_append, findBytes]
    split at h
    · rename_i hp
      have hp' : tag.isPrefixOf (c :: (rest ++ v)) = true := by
        rw [List.isPrefixOf_iff_prefix] at hp ⊢
        exact hp.trans (List.prefix_append (c :: rest) v)
      rw [if_pos hp', ← h]
    rename_i hp
    obtain ⟨o, ho, rfl⟩ := Option.map_eq_some_iff.mp h
    have hlen := findBytes_le ho
    have hp' : ¬ tag.isPrefixOf (c :: (rest ++ v)) = true := by
      intro hc
      apply hp
      rw [List.isPrefixOf_iff_prefix] at hc ⊢
      rw [← List.cons_append] at hc
      exact List.prefix_of_prefix_length_le hc (List.prefix_append _ _)
        (by simp only [List.length_cons]; omega)
    rw [if_neg hp', ih ho]
    rfl

theorem findBytes_of_append {tag : Bytes} {off : Nat}
    (h : findBytes tag (u ++ v) = some off) (hle : off + tag.length ≤ u.length) :
    findBytes tag u = some off := by
  induction u generalizing off with
  | nil =>
    rw [List.length_nil] at hle
    obtain rfl : tag = [] := List.length_eq_zero_iff.mp (by omega)
    obtain rfl : off = 0 := by omega
    simp [findBytes]
  | cons c rest ih =>
    rw [List.cons_append, findBytes] at h
    rw [findBytes]
    split at h
    · rename_i hp
      obtain rfl := Option.some.inj h
      have hp' : tag.isPrefixOf (c :: rest) = true := by
        rw [List.isPrefixOf_iff_prefix] at hp ⊢
        rw [← List.cons_append] at hp
        exact List.prefix_of_prefix_length_le hp (List.prefix_append _ _) (by omega)
      rw [if_pos hp']
    · rename_i hp
      obtain ⟨o, ho, rfl⟩ := Option.map_eq_some_iff.mp h
      have hp' : ¬ tag.isPrefixOf (c :: rest) = true := by
        intro hc
        apply hp
        rw [List.isPrefixOf_iff_prefix] at hc ⊢
        exact hc.trans (by rw [← List.cons_append]; exact List.prefix_append _ _)
      rw [if_neg hp', ih ho (by simp only [List.length_cons] at hle; omega)]
      rfl

/-! ## A lexeme in a prefix -/

/-- MySQL takes a `--` that ends the text for a comment; in the longer text the
byte after it decides. -/
def CutDashes (d : Dialect) (x post : Bytes) (i : Nat) : Prop :=
  d = .mySql ∧ i + 2 = x.length ∧ x[i]? = some dash ∧ x[i + 1]? = some dash ∧
    ∃ c, post.head? = some c ∧ isAsciiWhitespace c = false

variable {d : Dialect} {i j m : Nat}

section Prefix

variable {x post : Bytes}

theorem getElem?_take (hi : i < x.length) : (x ++ post)[i]? = x[i]? :=
  List.getElem?_append_left hi

theorem getElem?_cut : (x ++ post)[x.length]? = post.head? := by
  rw [List.getElem?_append_right (Nat.le_refl _), Nat.sub_self, List.head?_eq_getElem?]

theorem drop_take (hi : i ≤ x.length) : (x ++ post).drop i = x.drop i ++ post := by
  rw [List.drop_append, Nat.sub_eq_zero_of_le hi, List.drop_zero]

theorem quoteEscapes_take (hi : i < x.length) (q : UInt8) (d : Dialect) :
    quoteEscapes (x ++ post) i q d = quoteEscapes x i q d := by
  unfold quoteEscapes
  by_cases h1 : 1 ≤ i
  · rw [getElem?_take (i := i - 1) (by omega), getElem?_take (i := i - 2) (by omega)]
  · simp [h1]

variable (hpost : Breaks post)

include hpost

theorem head?_ne_of_breaks (hc : breaksLexeme c = false) : post.head? ≠ some c := by
  intro h
  rw [hpost c h] at hc
  cases hc

theorem skipQuoted_take (hq : isQuote q = true) (hi : i < x.length) (hm : m ≤ x.length) :
    min (skipQuoted (x ++ post) i q escapes) m = min (skipQuoted x i q escapes) m := by
  have hv : post.head? ≠ some q := head?_ne_of_breaks hpost (by simp [breaksLexeme, hq])
  have h : min (quotedLen q escapes (x.drop (i + 1) ++ post)) (x.drop (i + 1)).length =
      quotedLen q escapes (x.drop (i + 1)) := quotedLen_append hv
  rw [List.length_drop] at h
  unfold skipQuoted
  rw [drop_take (by omega)]
  omega

theorem dashCommentAt_take (hi : i < x.length) (hcut : ¬ CutDashes d x post i) :
    d.dashCommentAt (x ++ post) i = d.dashCommentAt x i := by
  unfold Dialect.dashCommentAt
  rw [getElem?_take hi]
  by_cases h1 : i + 1 < x.length
  · rw [getElem?_take h1]
    by_cases h2 : i + 2 < x.length
    · rw [getElem?_take h2]
    have h2' : i + 2 = x.length := by omega
    rw [h2', getElem?_cut, List.getElem?_eq_none (Nat.le_refl _)]
    cases d <;> try rfl
    cases hp : post.head? with
    | none => rfl
    | some c =>
      cases hw : isAsciiWhitespace c with
      | true => simp [hw]
      | false =>
        have hnot : ¬ (x[i]? = some dash ∧ x[i + 1]? = some dash) := fun h =>
          hcut ⟨rfl, h2', h.1, h.2, c, hp, hw⟩
        simp only [Option.all_some, Option.all_none, hw, Bool.and_true, Bool.and_false]
        symm
        rw [Bool.and_eq_false_iff]
        by_cases h0 : x[i]? = some dash
        · exact Or.inr (by simpa using fun h => hnot ⟨h0, h⟩)
        · exact Or.inl (by simpa using h0)
  · have h1' : i + 1 = x.length := by omega
    have hd : post.head? ≠ some dash := head?_ne_of_breaks hpost (by decide)
    rw [h1', getElem?_cut, List.getElem?_eq_none (Nat.le_refl _)]
    simp [hd]

omit hpost in
theorem lineCommentEnd_take {s : Nat} (hs : s ≤ x.length) (hm : m ≤ x.length) :
    min (lineCommentEnd (x ++ post) s) m = min (lineCommentEnd x s) m := by
  have h := takeWhile_append_length (· != newline) (x.drop s) post
  rw [List.length_drop] at h
  unfold lineCommentEnd
  rw [drop_take hs, List.length_append]
  omega

omit hpost in
theorem skipBlockComment_take (hi : i + 1 < x.length) (hm : m ≤ x.length) :
    min (skipBlockComment (x ++ post) i d) m = min (skipBlockComment x i d) m := by
  have h := blockLen_append d.nestedBlockComments false 1 (x.drop (i + 2)) post
  rw [List.length_drop] at h
  unfold skipBlockComment
  rw [drop_take (by omega)]
  omega

theorem wordEnd_take (hi : i ≤ x.length) : wordEnd (x ++ post) i = wordEnd x i := by
  unfold wordEnd
  rw [drop_take hi, takeWhile_append_of_stop]
  exact fun c hc => (breaksLexeme_iff.mp (hpost c hc)).1

theorem dollarQuoteEnd_take (hi : i < x.length) (hm : m ≤ x.length) :
    (dollarQuoteEnd (x ++ post) i).map (min · m) = (dollarQuoteEnd x i).map (min · m) := by
  have hw : wordEnd x (i + 1) ≤ x.length := wordEnd_le (by omega)
  have hd : post.head? ≠ some dollar := head?_ne_of_breaks hpost (by decide)
  unfold dollarQuoteEnd
  simp only [wordEnd_take hpost (show i + 1 ≤ x.length by omega)]
  by_cases hlt : wordEnd x (i + 1) < x.length
  · rw [getElem?_take hlt]
    have htag : slice (x ++ post) i (wordEnd x (i + 1) + 1) = slice x i (wordEnd x (i + 1) + 1) := by
      unfold slice
      rw [List.take_append_of_le_length (by omega)]
    have hle := le_wordEnd x (i + 1)
    rw [htag, drop_take (by omega)]
    split
    · cases hf : findBytes (slice x i (wordEnd x (i + 1) + 1)) (x.drop (wordEnd x (i + 1) + 1)) with
      | some off => rw [findBytes_append_some post hf]
      | none =>
        cases hf' : findBytes (slice x i (wordEnd x (i + 1) + 1))
            (x.drop (wordEnd x (i + 1) + 1) ++ post) with
        | none => simp; omega
        | some off =>
          have hfar : x.length < wordEnd x (i + 1) + 1 + off +
              (slice x i (wordEnd x (i + 1) + 1)).length := by
            apply Nat.lt_of_not_le
            intro hle'
            rw [findBytes_of_append hf' (by rw [List.length_drop]; omega)] at hf
            cases hf
          simp only [Option.map_some]
          rw [Nat.min_eq_right (by omega), Nat.min_eq_right hm]
    · rfl
  · have heq : wordEnd x (i + 1) = x.length := by omega
    rw [heq, getElem?_cut, List.getElem?_eq_none (Nat.le_refl _)]
    simp [hd]

/-- **A lexeme in a prefix.** Cut to the prefix, a lexeme that opens in it is the
lexeme of the whole text, but for `CutDashes`. -/
theorem noiseEnd_take {d : Dialect} {i m : Nat} (hi : i < m) (hm : m ≤ x.length)
    (hcut : ¬ CutDashes d x post i) : noiseEnd d (x ++ post) m i = noiseEnd d x m i := by
  have hix : i < x.length := by omega
  unfold noiseEnd
  rw [getElem?_take hix, dashCommentAt_take hpost hix hcut]
  cases hc : x[i]? with
  | none => rfl
  | some c =>
    simp only [quoteEscapes_take hix]
    by_cases hq : isQuote c = true
    · rw [if_pos hq, if_pos hq, skipQuoted_take hpost hq hix hm]
    rw [if_neg hq, if_neg hq]
    by_cases hd : d.dashCommentAt x i = true
    · have := dashCommentAt_lt hd
      rw [if_pos hd, if_pos hd, lineCommentEnd_take (by omega) hm]
    rw [if_neg hd, if_neg hd, lineCommentEnd_take (by omega) hm]
    by_cases h1 : i + 1 < m
    · rw [getElem?_take (show i + 1 < x.length by omega),
        skipBlockComment_take (show i + 1 < x.length by omega) hm,
        dollarQuoteEnd_take hpost hix hm]
    · simp only [h1, decide_false, Bool.and_false, Bool.false_and, Bool.false_eq_true, if_false,
        dollarQuoteEnd_take hpost hix hm]

theorem executableCommentAt_take (hi : i < x.length) :
    d.executableCommentAt (x ++ post) i = d.executableCommentAt x i := by
  have hs : post.head? ≠ some star := head?_ne_of_breaks hpost (by decide)
  have hb : post.head? ≠ some bang := head?_ne_of_breaks hpost (by decide)
  unfold Dialect.executableCommentAt
  congr 1
  rw [Bool.eq_iff_iff, List.isPrefixOf_iff_prefix, List.isPrefixOf_iff_prefix,
    drop_take (by omega)]
  constructor
  · intro h
    by_cases h3 : i + 3 ≤ x.length
    · exact List.prefix_of_prefix_length_le h (List.prefix_append _ _)
        (by simp only [List.length_cons, List.length_nil, List.length_drop]; omega)
    exfalso
    obtain ⟨t, ht⟩ := h
    rw [← drop_take (by omega)] at ht
    have e1 : (x ++ post)[i + 1]? = some star := by
      rw [← List.getElem?_drop, ← ht]
      rfl
    have e2 : (x ++ post)[i + 2]? = some bang := by
      rw [← List.getElem?_drop, ← ht]
      rfl
    by_cases h1 : i + 1 = x.length
    · rw [h1, getElem?_cut] at e1
      exact hs e1
    · rw [show i + 2 = x.length by omega, getElem?_cut] at e2
      exact hb e2
  · exact fun h => h.trans (List.prefix_append _ _)

theorem execCommentBody_take (hi : i + 3 ≤ x.length) :
    execCommentBody (x ++ post) i = execCommentBody x i := by
  unfold execCommentBody
  rw [drop_take hi, takeWhile_append_of_stop]
  intro c hc
  have hw := (breaksLexeme_iff.mp (hpost c hc)).1
  simp only [isWordByte, isAsciiAlphanumeric, Bool.or_eq_false_iff] at hw
  exact hw.2.1

theorem execBody_take (hi : i + 3 ≤ x.length) (hm : m ≤ x.length) :
    execBody d (x ++ post) i m = execBody d x i m := by
  unfold execBody
  rw [execCommentBody_take hpost hi, skipBlockComment_take (by omega) hm]
  simp only
  rw [List.take_append_of_le_length (by omega)]

omit hpost in
theorem blankSpan_take (hj : j ≤ x.length) : blankSpan (x ++ post) i j = blankSpan x i j := by
  unfold blankSpan slice
  rw [List.take_append_of_le_length hj]

end Prefix

/-! ## Stripping a prefix -/

/-- Two copies that differ at most in a last `--`, blanked in the first. -/
def SameUpToDashes (d : Dialect) (u v : Bytes) : Prop :=
  u = v ∨ d = .mySql ∧ ∃ w, u = w ++ [space, space] ∧ v = w ++ [dash, dash]

theorem SameUpToDashes.append_left (w : Bytes)
    (h : SameUpToDashes d u v) : SameUpToDashes d (w ++ u) (w ++ v) := by
  rcases h with rfl | ⟨hd, t, rfl, rfl⟩
  · exact Or.inl rfl
  · exact Or.inr ⟨hd, w ++ t, by simp, by simp⟩

section StripPrefix

variable {x post : Bytes} (hpost : Breaks post) {d : Dialect}

include hpost

/-- At a cut `--` the prefix is blanked and the whole text is not. -/
theorem strip_cutDashes (hcut : CutDashes d x post i) :
    SameUpToDashes d (strip d x i x.length) (strip d (x ++ post) i x.length) := by
  obtain ⟨rfl, hlen, h0, h1, c, hc, hw⟩ := hcut
  have hslice : slice x i x.length = [dash, dash] := by
    unfold slice
    rw [List.take_length]
    apply List.ext_getElem?
    intro k
    rw [List.getElem?_drop]
    match k with
    | 0 => exact h0
    | 1 => exact h1
    | k + 2 => exact List.getElem?_eq_none (by omega)
  refine Or.inr ⟨rfl, [], ?_, ?_⟩
  · have hn : noiseEnd .mySql x x.length i = some x.length := by
      have hdash : Dialect.dashCommentAt .mySql x i = true := by
        rw [Dialect.dashCommentAt, h0, h1, hlen, List.getElem?_eq_none (Nat.le_refl _)]
        rfl
      have hend : lineCommentEnd x (i + 2) = x.length := by
        unfold lineCommentEnd
        rw [hlen, List.drop_length]
        simp
      unfold noiseEnd
      rw [h0]
      simp only
      rw [if_neg (by decide), if_pos hdash, hend, Nat.min_self]
    rw [strip_noise (by omega) (Nat.le_refl _) (exec_of_ne_slash h0 (by decide)) hn,
      strip_done (Nat.le_refl _), blankSpan, hslice]
    rfl
  · have hle : x.length ≤ (x ++ post).length := by simp
    have hnd : Dialect.dashCommentAt .mySql (x ++ post) i = false := by
      unfold Dialect.dashCommentAt
      rw [hlen, getElem?_cut, hc]
      simp [hw]
    have hnd' : Dialect.dashCommentAt .mySql (x ++ post) (i + 1) = false := by
      unfold Dialect.dashCommentAt
      rw [show i + 1 + 1 = x.length by omega, getElem?_cut]
      have := head?_ne_of_breaks hpost (c := dash) (by decide)
      simp [this]
    have h0' : (x ++ post)[i]? = some dash := by rw [getElem?_take (by omega), h0]
    have h1' : (x ++ post)[i + 1]? = some dash := by rw [getElem?_take (by omega), h1]
    rw [strip_live (by omega) hle h0' (exec_of_ne_slash h0' (by decide))
        (noiseEnd_dash h0' hnd),
      strip_live (by omega) hle h1' (exec_of_ne_slash h1' (by decide))
        (noiseEnd_dash h1' hnd'),
      strip_done (by omega)]
    rfl

/-- **Stripping a prefix.** A copy cut at a breaking byte is the copy of the cut
text, but for a MySQL `--` that the cut turns into a comment. -/
theorem strip_take (n i m : Nat) (hm : m ≤ x.length) (hn : m - i ≤ n)
    (hcase : m = x.length ∨ m + 2 ≤ x.length) :
    strip d x i m = strip d (x ++ post) i m ∨ (∃ j, CutDashes d x post j) ∧
      m = x.length ∧ SameUpToDashes d (strip d x i m) (strip d (x ++ post) i m) := by
  have hle : m ≤ (x ++ post).length := by rw [List.length_append]; omega
  induction n generalizing i m with
  | zero => exact Or.inl (by rw [strip_done (by omega), strip_done (by omega)])
  | succ n ih =>
    by_cases hi : i < m
    swap
    · exact Or.inl (by rw [strip_done (by omega), strip_done (by omega)])
    by_cases hcut : CutDashes d x post i
    · have hmx : m = x.length := by
        have := hcut.2.1
        omega
      exact Or.inr ⟨⟨i, hcut⟩, hmx, hmx ▸ strip_cutDashes hpost hcut⟩
    have hix : i < x.length := by omega
    cases hx : d.executableCommentAt x i with
    | true =>
      have h3 : i + 3 ≤ x.length := lt_of_getElem?_eq_some (executableCommentAt_bytes hx).2.2.2
      have hb := execBody_take hpost (d := d) h3 hm
      have hclose : min (skipBlockComment (x ++ post) i d) m = min (skipBlockComment x i d) m :=
        skipBlockComment_take (by omega) hm
      obtain ⟨hb1, hb2, hb3⟩ := execBody_bounds (d := d) (b := x) hi
      have hend := execBody_end (d := d) (b := x) (i := i) (by omega) hm
      rw [strip_exec hi hm hx, strip_exec hi hle (executableCommentAt_take hpost hix ▸ hx), hb,
        hclose, blankSpan_take (by omega), blankSpan_take (by omega)]
      have hinner : strip d x (execBody d x i m).1 (execBody d x i m).2 =
            strip d (x ++ post) (execBody d x i m).1 (execBody d x i m).2 ∨
          (∃ j, CutDashes d x post j) ∧ (execBody d x i m).2 = x.length ∧
            SameUpToDashes d (strip d x (execBody d x i m).1 (execBody d x i m).2)
              (strip d (x ++ post) (execBody d x i m).1 (execBody d x i m).2) := by
        rcases hend with h | h | h
        · exact ih _ _ (by omega) (by omega) (by omega) (by rw [List.length_append]; omega)
        · exact ih _ _ (by omega) (by omega) (by omega) (by rw [List.length_append]; omega)
        · exact Or.inl (by rw [strip_done (by omega), strip_done (by omega)])
      have houter := ih (min (skipBlockComment x i d) m) m hm (by omega) hcase hle
      rcases hinner with h | ⟨hcuts, h1, h2⟩
      · rw [h]
        rcases houter with h' | ⟨hcuts, h1', h2'⟩
        · exact Or.inl (by rw [h'])
        · exact Or.inr ⟨hcuts, h1', h2'.append_left _⟩
      -- the body runs to the end, so nothing follows it
      obtain rfl : m = x.length := by omega
      refine Or.inr ⟨hcuts, rfl, ?_⟩
      rw [h1] at h2 ⊢
      rw [show min (skipBlockComment x i d) x.length = x.length by omega, blankSpan_empty,
        strip_done (Nat.le_refl _), strip_done (Nat.le_refl _), List.append_nil, List.append_nil,
        List.append_nil, List.append_nil]
      exact h2.append_left _
    | false =>
      have hx' := executableCommentAt_take hpost hix (d := d)
      rw [hx] at hx'
      have hnoise := noiseEnd_take hpost hi hm hcut
      cases he : noiseEnd d x m i with
      | some e =>
        have hbe := noiseEnd_bounds hi hm he
        rw [he] at hnoise
        rw [strip_noise hi hm hx he, strip_noise hi hle hx' hnoise, blankSpan_take (by omega)]
        rcases ih e m hm (by omega) hcase hle with h | ⟨hcuts, h1, h2⟩
        · exact Or.inl (by rw [h])
        · exact Or.inr ⟨hcuts, h1, h2.append_left _⟩
      | none =>
        rw [he] at hnoise
        have hc : x[i]? = some x[i] := List.getElem?_eq_getElem hix
        have hc' : (x ++ post)[i]? = some x[i] := by rw [getElem?_take hix, hc]
        rw [strip_live hi hm hc hx he, strip_live hi hle hc' hx' hnoise]
        rcases ih (i + 1) m hm (by omega) hcase hle with h | ⟨hcuts, h1, h2⟩
        · exact Or.inl (by rw [h])
        · exact Or.inr ⟨hcuts, h1, h2.append_left [x[i]]⟩

end StripPrefix

/-! ## Stripping a suffix -/

/-- A text that may stand before a cut: empty, or ending in a byte that is no part
of a word. -/
def Opens (pre : Bytes) : Prop := ∀ c, pre.getLast? = some c → isWordByte c = false

section Suffix

variable {pre y : Bytes}

theorem getElem?_shift (i : Nat) : (pre ++ y)[pre.length + i]? = y[i]? := by
  rw [List.getElem?_append_right (Nat.le_add_right _ _), Nat.add_sub_cancel_left]

theorem drop_shift (i : Nat) : (pre ++ y).drop (pre.length + i) = y.drop i := by
  rw [List.drop_append, List.drop_eq_nil_of_le (Nat.le_add_right _ _), Nat.add_sub_cancel_left,
    List.nil_append]

theorem slice_shift (i j : Nat) :
    slice (pre ++ y) (pre.length + i) (pre.length + j) = slice y i j := by
  unfold slice
  rw [List.take_length_add_append, drop_shift]

theorem blankSpan_shift (i j : Nat) :
    blankSpan (pre ++ y) (pre.length + i) (pre.length + j) = blankSpan y i j := by
  rw [blankSpan, slice_shift, blankSpan]

theorem dashCommentAt_shift (d : Dialect) (i : Nat) :
    d.dashCommentAt (pre ++ y) (pre.length + i) = d.dashCommentAt y i := by
  unfold Dialect.dashCommentAt
  rw [Nat.add_assoc, Nat.add_assoc, getElem?_shift, getElem?_shift, getElem?_shift]

theorem executableCommentAt_shift (d : Dialect) (i : Nat) :
    d.executableCommentAt (pre ++ y) (pre.length + i) = d.executableCommentAt y i := by
  unfold Dialect.executableCommentAt
  rw [drop_shift]

theorem execCommentBody_shift (i : Nat) :
    execCommentBody (pre ++ y) (pre.length + i) = pre.length + execCommentBody y i := by
  unfold execCommentBody
  rw [Nat.add_assoc pre.length, drop_shift]
  omega

theorem wordEnd_shift (i : Nat) :
    wordEnd (pre ++ y) (pre.length + i) = pre.length + wordEnd y i := by
  unfold wordEnd
  rw [drop_shift]
  omega

theorem skipQuoted_shift (i : Nat) (q : UInt8) (escapes : Bool) :
    skipQuoted (pre ++ y) (pre.length + i) q escapes = pre.length + skipQuoted y i q escapes := by
  unfold skipQuoted
  rw [Nat.add_assoc pre.length, drop_shift]
  omega

theorem lineCommentEnd_shift (s : Nat) :
    lineCommentEnd (pre ++ y) (pre.length + s) = pre.length + lineCommentEnd y s := by
  unfold lineCommentEnd
  rw [drop_shift, List.length_append]
  omega

theorem skipBlockComment_shift (i : Nat) (d : Dialect) :
    skipBlockComment (pre ++ y) (pre.length + i) d = pre.length + skipBlockComment y i d := by
  unfold skipBlockComment
  rw [Nat.add_assoc pre.length, drop_shift]
  omega

theorem dollarQuoteEnd_shift (i : Nat) :
    dollarQuoteEnd (pre ++ y) (pre.length + i) = (dollarQuoteEnd y i).map (pre.length + ·) := by
  unfold dollarQuoteEnd
  simp only [Nat.add_assoc, wordEnd_shift, getElem?_shift, slice_shift, drop_shift]
  split
  · cases findBytes (slice y i (wordEnd y (i + 1) + 1)) (y.drop (wordEnd y (i + 1) + 1)) with
    | some off => simp
    | none => simp
  · rfl

variable (hpre : Opens pre)

include hpre

theorem quoteEscapes_shift (i : Nat) (q : UInt8) (d : Dialect) :
    quoteEscapes (pre ++ y) (pre.length + i) q d = quoteEscapes y i q d := by
  unfold quoteEscapes
  have hlast : ∀ c, 1 ≤ pre.length → (pre ++ y)[pre.length - 1]? = some c →
      isWordByte c = false := by
    intro c hpos hc
    rw [List.getElem?_append_left (by omega)] at hc
    exact hpre c (by rw [List.getLast?_eq_getElem?, hc])
  congr 2
  match i with
  | 0 =>
    -- the byte before the quote is no part of a word, so it is no `e`
    by_cases hpos : 1 ≤ pre.length
    · have h101 : (pre ++ y)[pre.length - 1]? ≠ some 101 := fun h => by
        have := hlast 101 hpos h
        revert this
        decide
      have h69 : (pre ++ y)[pre.length - 1]? ≠ some 69 := fun h => by
        have := hlast 69 hpos h
        revert this
        decide
      simp [h101, h69]
    · simp [hpos]
  | 1 =>
    rw [Nat.add_sub_cancel, show (pre ++ y)[pre.length]? = y[0]? from getElem?_shift 0]
    by_cases hpos : 1 ≤ pre.length
    · have hw : (pre ++ y)[pre.length - 1]?.all (fun c => !isWordByte c) = true := by
        cases hc : (pre ++ y)[pre.length - 1]? with
        | none => rfl
        | some c => simp [hlast c hpos hc]
      simp [show pre.length + 1 - 2 = pre.length - 1 by omega, hw]
    · simp [show pre.length = 0 by omega]
  | i + 2 =>
    rw [show pre.length + (i + 2) - 1 = pre.length + (i + 1) by omega,
      show pre.length + (i + 2) - 2 = pre.length + i by omega, getElem?_shift, getElem?_shift]
    simp [show 1 ≤ pre.length + (i + 2) by omega, show ¬ pre.length + (i + 2) < 2 by omega,
      show ¬ i + 2 < 2 by omega]

/-- **A lexeme in a suffix** is the lexeme of the whole text. -/
theorem noiseEnd_shift (d : Dialect) (i m : Nat) :
    noiseEnd d (pre ++ y) (pre.length + m) (pre.length + i) =
      (noiseEnd d y m i).map (pre.length + ·) := by
  unfold noiseEnd
  simp only [getElem?_shift, quoteEscapes_shift hpre, dashCommentAt_shift, Nat.add_assoc,
    skipQuoted_shift, lineCommentEnd_shift, skipBlockComment_shift, dollarQuoteEnd_shift]
  cases y[i]? with
  | none => rfl
  | some c =>
    simp only [Nat.add_lt_add_iff_left]
    split_ifs
    · simp
    · simp
    · simp
    · simp
    · cases dollarQuoteEnd y i <;> simp
    · rfl

omit hpre in
theorem execBody_shift (hi : i < m) (hm : m ≤ y.length) :
    execBody d (pre ++ y) (pre.length + i) (pre.length + m) =
      (pre.length + (execBody d y i m).1, pre.length + (execBody d y i m).2) := by
  unfold execBody
  simp only [skipBlockComment_shift, execCommentBody_shift, Nat.add_min_add_left,
    List.take_length_add_append]
  set close := min (skipBlockComment y i d) m with hclose
  by_cases h2 : 2 ≤ close
  · have hsuf : [star, slash].isSuffixOf (pre ++ y.take close) =
        [star, slash].isSuffixOf (y.take close) := by
      rw [Bool.eq_iff_iff, List.isSuffixOf_iff_suffix, List.isSuffixOf_iff_suffix]
      constructor
      · intro h
        exact List.suffix_of_suffix_length_le h (List.suffix_append _ _)
          (by simp only [List.length_cons, List.length_nil, List.length_take]; omega)
      · exact fun h => h.trans (List.suffix_append _ _)
    rw [hsuf]
    split_ifs
    · congr 1
      omega
    · congr 1
      omega
  · -- a cut this short leaves an empty body
    have hbody : close ≤ execCommentBody y i := by
      unfold execCommentBody
      omega
    congr 1
    split_ifs <;> omega

/-- **Stripping a suffix** is stripping from its offset on. -/
theorem strip_shift (n i m : Nat) (hm : m ≤ y.length) (hn : m - i ≤ n) :
    strip d (pre ++ y) (pre.length + i) (pre.length + m) = strip d y i m := by
  have hle : pre.length + m ≤ (pre ++ y).length := by rw [List.length_append]; omega
  induction n generalizing i m with
  | zero => rw [strip_done (by omega), strip_done (by omega)]
  | succ n ih =>
    by_cases hi : i < m
    swap
    · rw [strip_done (by omega), strip_done (by omega)]
    have hi' : pre.length + i < pre.length + m := by omega
    have hx' : d.executableCommentAt (pre ++ y) (pre.length + i) = d.executableCommentAt y i :=
      executableCommentAt_shift d i
    have hnoise := noiseEnd_shift (y := y) hpre d i m
    cases hx : d.executableCommentAt y i with
    | true =>
      obtain ⟨hb1, hb2, hb3⟩ := execBody_bounds (d := d) (b := y) hi
      rw [strip_exec hi' hle (hx' ▸ hx), strip_exec hi hm hx, execBody_shift hi hm,
        skipBlockComment_shift, Nat.add_min_add_left]
      simp only [blankSpan_shift]
      rw [ih _ _ (by omega) (by omega) (by rw [List.length_append]; omega),
        ih _ m hm (by omega) hle]
    | false =>
      rw [hx] at hx'
      cases he : noiseEnd d y m i with
      | some e =>
        rw [he] at hnoise
        have hbe := noiseEnd_bounds hi hm he
        rw [strip_noise hi' hle hx' hnoise, strip_noise hi hm hx he, blankSpan_shift,
          ih e m hm (by omega) hle]
      | none =>
        rw [he] at hnoise
        have hc : y[i]? = some y[i] := List.getElem?_eq_getElem (by omega)
        have hc' : (pre ++ y)[pre.length + i]? = some y[i] := by rw [getElem?_shift, hc]
        rw [strip_live hi' hle hc' hx' hnoise, strip_live hi hm hc hx he, Nat.add_assoc,
          ih (i + 1) m hm (by omega) hle]

end Suffix

/-! ## The offsets the stripper stands on -/

/-- The offset after the lexeme, or else the byte, at `i`. -/
def lexNext (d : Dialect) (b : Bytes) (stop i : Nat) : Nat := (noiseEnd d b stop i).getD (i + 1)

/-- `j` is an offset a scan of `b[..stop]` from `i` stands on between two lexemes. -/
abbrev Reaches (d : Dialect) (b : Bytes) (stop : Nat) : Nat → Nat → Prop :=
  WhileLoop.Visits (fun i => decide (i < stop)) (lexNext d b stop)

section Reaches

variable {d : Dialect} {b : Bytes} {stop : Nat}

theorem lexNext_bounds (hs : stop ≤ b.length) (hi : i < stop) :
    i < lexNext d b stop i ∧ lexNext d b stop i ≤ stop := by
  unfold lexNext
  cases he : noiseEnd d b stop i with
  | some e => exact noiseEnd_bounds hi hs he
  | none => simp only [Option.getD_none]; omega

theorem Reaches.bounds (hs : stop ≤ b.length) (h : Reaches d b stop i j)
    (hi : i ≤ stop) : i ≤ j ∧ j ≤ stop := by
  refine WhileLoop.Visits.inv (I := fun k => i ≤ k ∧ k ≤ stop) ?_ h ⟨Nat.le_refl _, hi⟩
  rintro k hk ⟨h1, -⟩
  have := lexNext_bounds (d := d) hs (of_decide_eq_true hk)
  omega

theorem Reaches.next {i : Nat} (hi : i < stop) : Reaches d b stop i (lexNext d b stop i) :=
  WhileLoop.Visits.single (by simpa using hi)

/-- Where the scan stops does not matter to a lexeme that ends before. -/
theorem noiseEnd_stop (hi : i < j) (hj : j ≤ stop) (hnext : lexNext d b stop i ≤ j) :
    noiseEnd d b j i = noiseEnd d b stop i := by
  have key : ∀ f, min f stop ≤ j → min f j = min f stop := fun f hf => by omega
  unfold lexNext at hnext
  unfold noiseEnd at hnext ⊢
  cases hc : b[i]? with
  | none => rfl
  | some c =>
    rw [hc] at hnext
    simp only at hnext ⊢
    by_cases hq : isQuote c = true
    · rw [if_pos hq] at hnext ⊢
      rw [if_pos hq, key _ hnext]
    rw [if_neg hq] at hnext ⊢
    rw [if_neg hq]
    by_cases hd : d.dashCommentAt b i = true
    · rw [if_pos hd] at hnext ⊢
      rw [if_pos hd, key _ hnext]
    rw [if_neg hd] at hnext ⊢
    rw [if_neg hd]
    by_cases hh : (c == hash && d.hashComments) = true
    · rw [if_pos hh] at hnext ⊢
      rw [if_pos hh, key _ hnext]
    rw [if_neg hh] at hnext ⊢
    rw [if_neg hh]
    by_cases hb : (c == slash && b[i + 1]? == some star) = true
    · obtain ⟨hc', hs'⟩ := Bool.and_eq_true_iff.mp hb
      by_cases h1 : i + 1 < stop
      · simp only [hc', h1, hs', decide_true, Bool.and_self, if_true, Option.getD_some] at hnext ⊢
        have hle : i + 2 ≤ skipBlockComment b i d := by
          unfold skipBlockComment
          omega
        simp only [show i + 1 < j by omega, decide_true, Bool.and_self, if_true, key _ hnext]
      · simp only [h1, show ¬ i + 1 < j by omega]
        simp [show c = slash by simpa using hc', slash, dollar]
    · have hb1 : ∀ k, (c == slash && decide (i + 1 < k) && b[i + 1]? == some star) = false := by
        intro k
        rw [Bool.and_right_comm, Bool.eq_false_iff.mpr hb, Bool.false_and]
      simp only [hb1, Bool.false_eq_true, if_false] at hnext ⊢
      by_cases hs : (c == dollar && d.dollarQuotes) = true
      · rw [if_pos hs] at hnext ⊢
        rw [if_pos hs]
        cases hde : dollarQuoteEnd b i with
        | none => rfl
        | some e =>
          rw [hde] at hnext
          simp only [Option.map_some, Option.getD_some] at hnext ⊢
          rw [key _ hnext]
      · rw [if_neg hs, if_neg hs]

/-- An executable comment is one step of the scan. -/
theorem lexNext_exec (hi : i < stop) (hx : d.executableCommentAt b i = true) :
    lexNext d b stop i = min (skipBlockComment b i d) stop := by
  unfold lexNext
  have hle : i + 2 ≤ skipBlockComment b i d := by
    unfold skipBlockComment
    omega
  by_cases h1 : i + 1 < stop
  · rw [noiseEnd_of_exec h1 hx, Option.getD_some]
  obtain ⟨rfl, h0, h2, -⟩ := executableCommentAt_bytes hx
  have hn : noiseEnd .mySql b stop i = none := by
    simp [noiseEnd, h0, h1, Dialect.dashCommentAt, isQuote, slash, dash, singleQuote,
      doubleQuote, backtick, ByteText.hash, dollar]
  rw [hn, Option.getD_none]
  omega

/-- **Resuming.** The stripper resumes at every offset it stands on. -/
theorem strip_append (hs : stop ≤ b.length) (h : Reaches d b stop i j)
    (hi : i ≤ stop) : strip d b i stop = strip d b i j ++ strip d b j stop := by
  induction h using Relation.ReflTransGen.head_induction_on with
  | refl => rw [strip_done (Nat.le_refl j), List.nil_append]
  | @head i k hr hkj ih =>
    obtain ⟨hlt, rfl⟩ := hr
    have hlt : i < stop := of_decide_eq_true hlt
    have hk := lexNext_bounds (d := d) hs hlt
    have hj := Reaches.bounds hs hkj hk.2
    have hjb : j ≤ b.length := by omega
    have hij : i < j := by omega
    have ih := ih hk.2
    cases hx : d.executableCommentAt b i with
    | true =>
      rw [lexNext_exec hlt hx] at ih hk hj
      have hclose : min (skipBlockComment b i d) j = min (skipBlockComment b i d) stop := by omega
      have hbody : execBody d b i j = execBody d b i stop := by
        unfold execBody
        rw [hclose]
      rw [strip_exec hlt hs hx, strip_exec hij hjb hx, hbody, hclose, ih]
      simp only [List.append_assoc]
    | false =>
      have hstop := noiseEnd_stop hij hj.2 hj.1
      cases he : noiseEnd d b stop i with
      | some e =>
        rw [lexNext, he, Option.getD_some] at ih
        rw [strip_noise hlt hs hx he, strip_noise hij hjb hx (hstop.trans he), ih,
          List.append_assoc]
      | none =>
        rw [lexNext, he, Option.getD_none] at ih
        have hc : b[i]? = some b[i] := List.getElem?_eq_getElem (by omega)
        rw [strip_live hlt hs hc hx he, strip_live hij hjb hc hx (hstop.trans he), ih,
          List.cons_append]

theorem slice_append_append (u v w : Bytes) :
    slice (u ++ v ++ w) u.length (u.length + v.length) = v := by
  rw [slice, ← List.length_append, List.take_left, List.drop_left]

/-- **The copy of a slice.** Cut where the scan stands, between bytes no lexeme
crosses, a slice strips to the slice of the copy. -/
theorem stripNoise_slice {lo hi : Nat} (hlo : Reaches d b b.length 0 lo)
    (hhi : Reaches d b b.length lo hi) (hpre : Opens (b.take lo)) (hpost : Breaks (b.drop hi)) :
    SameUpToDashes d (stripNoise (slice b lo hi) d) (slice (stripNoise b d) lo hi) := by
  have hle := Nat.le_refl b.length
  have h1 := hlo.bounds hle (Nat.zero_le _)
  have h2 := hhi.bounds hle h1.2
  have htake : (b.take hi).length = hi := by rw [List.length_take]; omega
  have hlen : (b.take lo).length = lo := by rw [List.length_take]; omega
  have hslice : b.take hi = b.take lo ++ slice b lo hi := by
    unfold slice
    conv_lhs => rw [← List.take_append_drop lo (b.take hi)]
    rw [List.take_take, Nat.min_eq_left h2.1]
  have hleft : stripNoise (slice b lo hi) d = strip d (b.take hi) lo hi := by
    have hsl : (slice b lo hi).length = hi - lo := length_slice h2.2
    rw [stripNoise_eq, hsl]
    have := strip_shift (d := d) (y := slice b lo hi) hpre (hi - lo) 0 (hi - lo) (by omega)
      (by omega)
    rw [← hslice, hlen, Nat.add_zero, show lo + (hi - lo) = hi by omega] at this
    exact this.symm
  have hright : slice (stripNoise b d) lo hi = strip d b lo hi := by
    have l1 : (strip d b 0 lo).length = lo := by rw [length_strip lo 0 lo h1.2 (by omega)]; omega
    have l2 : (strip d b lo hi).length = hi - lo := length_strip hi lo hi h2.2 (by omega)
    rw [stripNoise_eq, strip_append hle hlo (Nat.zero_le _), strip_append hle hhi h1.2]
    have hmid := slice_append_append (strip d b 0 lo) (strip d b lo hi) (strip d b hi b.length)
    rwa [l1, l2, Nat.add_sub_cancel' h2.1, List.append_assoc] at hmid
  rw [hleft, hright]
  have := strip_take (x := b.take hi) hpost (d := d) (hi - lo) lo hi (by omega) (by omega)
    (Or.inl htake.symm)
  rw [List.take_append_drop] at this
  rcases this with h | ⟨-, -, h⟩
  · exact Or.inl h
  · exact h

/-- From an offset the scan stands on, the copy is what the stripper makes of the rest. -/
theorem drop_stripNoise (h : Reaches d b b.length 0 i) :
    (stripNoise b d).drop i = strip d b i b.length := by
  have hle := (h.bounds (Nat.le_refl _) (Nat.zero_le _)).2
  have hlen : (strip d b 0 i).length = i := by rw [length_strip i 0 i hle (by omega), Nat.sub_zero]
  rw [stripNoise_eq, strip_append (Nat.le_refl _) h (Nat.zero_le _)]
  exact List.drop_left' hlen

/-- Where no lexeme opens the copy has the text's byte. -/
theorem stripNoise_live (h : Reaches d b b.length 0 i) (hc : b[i]? = some c)
    (hn : noiseEnd d b b.length i = none) :
    (stripNoise b d).drop i = c :: (stripNoise b d).drop (i + 1) := by
  have hi := lt_of_getElem?_eq_some hc
  have hx : d.executableCommentAt b i = false := by
    cases hx : d.executableCommentAt b i with
    | false => rfl
    | true =>
      have h1 := lt_of_getElem?_eq_some (executableCommentAt_bytes hx).2.2.1
      rw [noiseEnd_of_exec h1 hx] at hn
      cases hn
  have hnext : Reaches d b b.length 0 (i + 1) := by
    have := h.trans (Reaches.next (d := d) (b := b) hi)
    rwa [lexNext, hn, Option.getD_none] at this
  rw [drop_stripNoise h, strip_live hi (Nat.le_refl _) hc hx hn, drop_stripNoise hnext]

end Reaches

end RedDb.Sql
