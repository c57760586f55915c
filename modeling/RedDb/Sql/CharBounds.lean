import RedDb.Lib.Utf8
import RedDb.Sql.Locality
import RedDb.Sql.Trimmed

/-!
# RedDb — the scans end where characters do

The stripper and the splitter work on bytes. Every lexeme they step over ends behind an ASCII
byte, in front of one, or with the text, so what they cut out of a text is text.

* `noiseEnd_boundary` — the end of a literal or comment is a boundary;
* `strip_text` — the stripper's copy is text;
* `strip_dimmed` — which holds each byte of the text, or a space, and every line feed.
-/

namespace RedDb.Sql

open ByteText Utf8

/-- A place beside an ASCII byte, or at the end. -/
def Clean (b : Bytes) (e : Nat) : Prop :=
  b.length ≤ e ∨ (∃ c, b[e]? = some c ∧ c < 0x80) ∨ ∃ k c, e = k + 1 ∧ b[k]? = some c ∧ c < 0x80

section Ends

variable {b : Bytes} {i e : Nat} {d : Dialect}

theorem Clean.boundary {t : List Char} (h : Clean (encode t) e) : Boundary (encode t) e := by
  obtain hend | ⟨c, hc, hlt⟩ | ⟨k, c, rfl, hc, hlt⟩ := h
  · intro c hc
    rw [List.getElem?_eq_none hend] at hc
    exact absurd hc.symm (Option.some_ne_none c)
  · exact boundary_ascii hc hlt
  · exact boundary_after hc hlt

theorem Clean.behind {k : Nat} {c : UInt8} (hc : b[k]? = some c) (hlt : c < 0x80) : Clean b (k + 1) :=
  Or.inr (Or.inr ⟨k, c, rfl, hc, hlt⟩)

/-- A length counted from `i` that is clean in what is left. -/
theorem clean_shift (h : Clean (b.drop i) e) (hi : i ≤ b.length) : Clean b (i + e) := by
  obtain hend | ⟨c, hc, hlt⟩ | ⟨k, c, rfl, hc, hlt⟩ := h
  · rw [List.length_drop] at hend
    exact Or.inl (by omega)
  · rw [List.getElem?_drop] at hc
    exact Or.inr (Or.inl ⟨c, hc, hlt⟩)
  · rw [List.getElem?_drop] at hc
    exact Clean.behind hc hlt

/-- One byte further. -/
theorem clean_cons {c : UInt8} (h : Clean b e) : Clean (c :: b) (1 + e) := clean_shift (i := 1) h (by simp)

theorem clean_quotedLen {q : UInt8} (hq : q < 0x80) (escapes : Bool) (u : Bytes) : Clean u (quotedLen q escapes u) := by
  induction u using quotedLen.induct q escapes with
  | case1 => exact Or.inl (Nat.le_refl 0)
  | case2 c h =>
    rw [quotedLen, if_pos h]
    exact Or.inl (Nat.le_refl 1)
  | case3 c h e rest he ih =>
    rw [quotedLen, if_pos h, if_pos he]
    exact clean_shift (i := 2) ih (by simp)
  | case4 c h e rest he =>
    rw [quotedLen, if_pos h, if_neg he]
    exact Clean.behind (k := 0) (c := c) rfl (beq_iff_eq.mp h ▸ hq)
  | case5 c h hesc =>
    rw [quotedLen, if_neg h, if_pos hesc]
    exact Or.inl (Nat.le_refl 1)
  | case6 c h hesc e rest ih =>
    rw [quotedLen, if_neg h, if_pos hesc]
    exact clean_shift (i := 2) ih (by simp)
  | case7 c rest h hesc ih =>
    rw [quotedLen.eq_def]
    simp only [h, hesc]
    exact clean_cons ih

theorem clean_blockLen (nests second : Bool) (depth : Nat) (u : Bytes) : Clean u (blockLen nests second depth u) := by
  fun_induction blockLen nests second depth u with
  | case1 => exact Or.inl (Nat.le_refl 0)
  | case2 _ _ _ ih | case4 _ _ _ _ _ ih | case5 _ _ _ _ _ ih | case6 _ _ _ _ _ ih => exact clean_cons ih
  | case3 depth c rest hclose =>
    simp only [Bool.and_eq_true, beq_iff_eq] at hclose
    rw [List.head?_eq_getElem?] at hclose
    exact Clean.behind (k := 1) (c := slash) hclose.2 (by decide)

theorem clean_takeWhile {p : UInt8 → Bool} (hp : ∀ c, p c = false → c < 0x80) (hi : i ≤ b.length) :
    Clean b (i + ((b.drop i).takeWhile p).length) := by
  refine clean_shift ?_ hi
  rcases Nat.lt_or_ge ((b.drop i).takeWhile p).length (b.drop i).length with hlt | hge
  · obtain ⟨c, hc, hpc⟩ := takeWhile_stop hlt
    exact Or.inr (Or.inl ⟨c, hc, hp c hpc⟩)
  · exact Or.inl hge

theorem newline_ascii {c : UInt8} (h : (c != newline) = false) : c < 0x80 := by
  obtain rfl : c = newline := by simpa using h
  decide

theorem clean_lineCommentEnd (i : Nat) : Clean b (lineCommentEnd b i) := by
  unfold lineCommentEnd
  rcases Nat.lt_or_ge b.length i with hlt | hge
  · exact Or.inl (by omega)
  · rw [Nat.min_eq_left hge]
    exact clean_takeWhile (fun c hc => newline_ascii hc) hge

theorem findBytes_prefix {tag u : Bytes} {off : Nat} (h : findBytes tag u = some off) : tag <+: u.drop off := by
  induction u generalizing off with
  | nil =>
    rw [findBytes] at h
    split at h
    · rename_i ht
      rw [List.isEmpty_iff.mp ht]
      exact List.nil_prefix
    · exact absurd h.symm (Option.some_ne_none off)
  | cons c rest ih =>
    rw [findBytes] at h
    split at h
    · rename_i hp
      obtain rfl := Option.some.inj h
      exact List.isPrefixOf_iff_prefix.mp hp
    · obtain ⟨o, ho, rfl⟩ := Option.map_eq_some_iff.mp h
      exact ih ho

/-- A dollar-quoted body ends behind the `$` of its tag. -/
theorem clean_dollarQuoteEnd (h : dollarQuoteEnd b i = some e) : Clean b e := by
  unfold dollarQuoteEnd at h
  simp only at h
  have hw := le_wordEnd b (i + 1)
  split at h
  swap
  · exact absurd h.symm (Option.some_ne_none e)
  rename_i hd
  have hd' : b[wordEnd b (i + 1)]? = some dollar := by simpa using hd
  have hlt := lt_of_getElem?_eq_some hd'
  split at h
  · rename_i off hf
    obtain rfl := Option.some.inj h
    have htag : (slice b i (wordEnd b (i + 1) + 1)).length = wordEnd b (i + 1) + 1 - i := length_slice (by omega)
    have hlast : (slice b i (wordEnd b (i + 1) + 1))[wordEnd b (i + 1) - i]? = some dollar := by
      unfold slice
      rw [List.getElem?_drop, List.getElem?_take, if_pos (by omega), Nat.add_sub_cancel' (by omega)]
      exact hd'
    obtain ⟨after, hafter⟩ := findBytes_prefix hf
    have hget : b[wordEnd b (i + 1) + 1 + (off + (wordEnd b (i + 1) - i))]? = some dollar := by
      rw [← List.getElem?_drop, ← List.getElem?_drop, ← hafter, List.getElem?_append_left (by omega)]
      exact hlast
    rw [show wordEnd b (i + 1) + 1 + off + (slice b i (wordEnd b (i + 1) + 1)).length =
      wordEnd b (i + 1) + 1 + (off + (wordEnd b (i + 1) - i)) + 1 by omega]
    exact Clean.behind hget (by decide)
  · obtain rfl := Option.some.inj h
    exact Or.inl (Nat.le_refl _)

theorem quote_ascii {q : UInt8} (h : isQuote q = true) : q < 0x80 := by
  simp only [isQuote, Bool.or_eq_true, beq_iff_eq] at h
  rcases h with (rfl | rfl) | rfl <;> decide

theorem Clean.min {stop : Nat} (h : Clean b e) (hstop : Clean b stop) : Clean b (min e stop) := by
  rcases Nat.le_total e stop with hle | hle
  · rwa [Nat.min_eq_left hle]
  · rwa [Nat.min_eq_right hle]

/-- Literals, quoted identifiers and comments end where a character does. -/
theorem clean_noiseEnd {stop : Nat} (hi : i < stop) (hs : stop ≤ b.length) (hstop : Clean b stop)
    (h : noiseEnd d b stop i = some e) : Clean b e := by
  unfold noiseEnd at h
  have hlen : i < b.length := by omega
  rw [List.getElem?_eq_getElem hlen] at h
  simp only at h
  split at h
  · rename_i hq
    obtain rfl := Option.some.inj h
    exact (clean_shift (clean_quotedLen (quote_ascii hq) _ _) hlen).min hstop
  split at h
  · obtain rfl := Option.some.inj h
    exact (clean_lineCommentEnd _).min hstop
  split at h
  · obtain rfl := Option.some.inj h
    exact (clean_lineCommentEnd _).min hstop
  split at h
  · rename_i hopen
    obtain rfl := Option.some.inj h
    simp only [Bool.and_eq_true, beq_iff_eq] at hopen
    have := lt_of_getElem?_eq_some hopen.2
    exact (clean_shift (i := i + 2) (clean_blockLen _ _ _ _) (by omega)).min hstop
  split at h
  · obtain ⟨e', he', rfl⟩ := Option.map_eq_some_iff.mp h
    exact (clean_dollarQuoteEnd he').min hstop
  · exact absurd h.symm (Option.some_ne_none e)

/-- The body of an executable comment begins and ends where characters do. -/
theorem clean_execBody {stop : Nat} (hs : stop ≤ b.length) (hstop : Clean b stop)
    (hx : d.executableCommentAt b i = true) :
    Clean b (min (skipBlockComment b i d) stop) ∧ Clean b (execBody d b i stop).1 ∧ Clean b (execBody d b i stop).2 := by
  obtain ⟨-, -, -, hbang⟩ := executableCommentAt_bytes hx
  have hlen := lt_of_getElem?_eq_some hbang
  have hclose : Clean b (min (skipBlockComment b i d) stop) :=
    (clean_shift (i := i + 2) (clean_blockLen _ _ _ _) (by omega)).min hstop
  -- the byte before the body is the `!` or a digit of the version
  have hbody : Clean b (execCommentBody b i) := by
    unfold execCommentBody
    rcases Nat.eq_zero_or_pos ((b.drop (i + 3)).takeWhile isAsciiDigit).length with hz | hz
    · rw [hz]
      exact Clean.behind hbang (by decide)
    obtain ⟨c, hc, hdigit⟩ := takeWhile_span (p := isAsciiDigit) (b := b)
      (show i + 3 ≤ i + 2 + ((b.drop (i + 3)).takeWhile isAsciiDigit).length by omega) (by omega)
    rw [show i + 3 + ((b.drop (i + 3)).takeWhile isAsciiDigit).length =
      i + 2 + ((b.drop (i + 3)).takeWhile isAsciiDigit).length + 1 by omega]
    refine Clean.behind hc ?_
    simp only [isAsciiDigit, Bool.and_eq_true, decide_eq_true_eq, UInt8.le_iff_toNat_le] at hdigit
    exact UInt8.lt_iff_toNat_lt.mpr (Nat.lt_of_le_of_lt hdigit.2 (by decide))
  refine ⟨hclose, hbody.min hclose, ?_⟩
  unfold execBody
  simp only
  rcases Nat.le_total (if [star, slash].isSuffixOf (b.take (min (skipBlockComment b i d) stop)) then
      min (skipBlockComment b i d) stop - 2 else min (skipBlockComment b i d) stop)
    (min (execCommentBody b i) (min (skipBlockComment b i d) stop)) with hle | hle
  · rw [Nat.max_eq_right hle]
    exact hbody.min hclose
  rw [Nat.max_eq_left hle]
  split
  · rename_i hsuf
    exact Or.inr (Or.inl ⟨star, (suffix_bytes (by omega) hsuf).2.1, by decide⟩)
  · exact hclose

end Ends

/-! ## What stands at an offset -/

section Parts

variable {t : List Char} {p : UInt8 → Bool} {i : Nat}

theorem drop_text (h : Boundary (encode t) i) (hi : i ≤ (encode t).length) : ∃ u, (encode t).drop i = encode u := by
  obtain ⟨_, v, _, _, hdrop⟩ := take_boundary h hi
  exact ⟨v, hdrop⟩

theorem takeWhile_text (hp : ∀ c, p c = false → c < 0x80) (t : List Char) : ∃ u, (encode t).takeWhile p = encode u := by
  have hclean := clean_takeWhile (b := encode t) (i := 0) hp (Nat.zero_le _)
  rw [List.drop_zero, Nat.zero_add] at hclean
  obtain ⟨u, _, _, htake, _⟩ := take_boundary hclean.boundary (takeWhile_length_le p _)
  exact ⟨u, by rw [← htake, ← List.prefix_iff_eq_take.mp (List.takeWhile_prefix p)]⟩

/-- Behind the bytes of `p`, all of them ASCII, a character begins. -/
theorem boundary_takeWhile (hp : ∀ c, p c = true → c < 0x80) (h : Boundary (encode t) i) :
    Boundary (encode t) (i + (((encode t).drop i).takeWhile p).length) := by
  rcases Nat.eq_zero_or_pos (((encode t).drop i).takeWhile p).length with hz | hz
  · rwa [hz]
  obtain ⟨c, hc, hpc⟩ : ∃ c, (encode t)[i + (((encode t).drop i).takeWhile p).length - 1]? = some c ∧ p c = true :=
    takeWhile_span (show i ≤ _ by omega) (by omega)
  have hbehind := boundary_after hc (hp c hpc)
  rwa [Nat.sub_add_cancel (by omega)] at hbehind

theorem dropWhile_text (hp : ∀ c, p c = true → c < 0x80) (t : List Char) : ∃ u, (encode t).dropWhile p = encode u := by
  have hbound := boundary_takeWhile (i := 0) hp (boundary_zero t)
  rw [List.drop_zero, Nat.zero_add] at hbound
  obtain ⟨u, hu⟩ := drop_text hbound (takeWhile_length_le p _)
  refine ⟨u, ?_⟩
  have hdrop := @List.drop_left _ ((encode t).takeWhile p) ((encode t).dropWhile p)
  rw [List.takeWhile_append_dropWhile] at hdrop
  rw [← hu, hdrop]

theorem whitespace_ascii {c : UInt8} (h : isAsciiWhitespace c = true) : c < 0x80 := by
  simp only [isAsciiWhitespace, Bool.or_eq_true, beq_iff_eq] at h
  rcases h with (((rfl | rfl) | rfl) | rfl) | rfl <;> decide

theorem word_ascii {c : UInt8} (h : isWordByte c = true) : c < 0x80 :=
  UInt8.lt_iff_toNat_lt.mpr (Nat.lt_of_le_of_lt (toNat_lt_of_word h).2 (by decide))

end Parts

/-! ## The copy -/

theorem blankSpan_text (b : Bytes) (i j : Nat) :
    blankSpan b i j = encode ((slice b i j).map fun c => if c == newline then '\n' else ' ') := by
  unfold blankSpan encode
  rw [List.flatMap_map]
  induction slice b i j with
  | nil => rfl
  | cons c rest ih =>
    rw [List.map_cons, List.flatMap_cons, ih]
    split <;> rfl

section Copy

variable {d : Dialect} {t : List Char}

/-- **The copy is text.** -/
theorem strip_text (n i stop : Nat) (hn : stop - i ≤ n) (hs : stop ≤ (encode t).length)
    (hi : Boundary (encode t) i) (hstop : Clean (encode t) stop) :
    ∃ s, strip d (encode t) i stop = encode s := by
  induction n generalizing i stop with
  | zero => exact ⟨[], strip_done (by omega)⟩
  | succ n ih =>
    rcases Nat.lt_or_ge i stop with hlt | hge
    swap
    · exact ⟨[], strip_done hge⟩
    have hc : (encode t)[i]? = some (encode t)[i] := List.getElem?_eq_getElem (by omega)
    cases hx : d.executableCommentAt (encode t) i with
    | true =>
      obtain ⟨hclose, hbody, hend⟩ := clean_execBody hs hstop hx
      obtain ⟨h1, h2, h3⟩ := execBody_bounds (d := d) (b := encode t) hlt
      obtain ⟨body, hbody'⟩ := ih _ _ (by omega) (by omega) hbody.boundary hend
      obtain ⟨rest, hrest⟩ := ih _ stop (by omega) hs hclose.boundary hstop
      rw [strip_exec hlt hs hx, hbody', hrest, blankSpan_text, blankSpan_text]
      rw [← encode_append, ← encode_append, ← encode_append]
      exact ⟨_, rfl⟩
    | false =>
      cases he : noiseEnd d (encode t) stop i with
      | some e =>
        have hb := noiseEnd_bounds hlt hs he
        obtain ⟨rest, hrest⟩ := ih e stop (by omega) hs (clean_noiseEnd hlt hs hstop he).boundary hstop
        rw [strip_noise hlt hs hx he, hrest, blankSpan_text]
        rw [← encode_append]
        exact ⟨_, rfl⟩
      | none =>
        obtain ⟨x, w, hdrop⟩ := char_at hi (by omega)
        have hpos := length_char_pos x
        obtain ⟨rest, hrest⟩ := ih _ stop (by omega) hs (boundary_behind hdrop) hstop
        refine ⟨x :: rest, ?_⟩
        rw [encode_cons, ← hrest]
        rcases UInt8.lt_or_le (encode t)[i] 0x80 with hascii | hhigh
        · have hone : String.utf8EncodeChar x = [(encode t)[i]] :=
            encodeChar_ascii (by rw [← getElem?_char hdrop hpos, Nat.add_zero, hc]) hascii
          rw [strip_live hlt hs hc hx he, hone]
          rfl
        rw [strip_blank (Nat.le_add_right i _) (char_le_boundary hdrop hlt hstop.boundary) hs, slice_char hdrop]
        -- no byte of the character is ASCII, its first one not being
        intro k c hk hk' hkc
        have hin := getElem?_char hdrop (k := k - i) (by omega)
        rw [Nat.add_sub_cancel' hk, hkc] at hin
        rcases UInt8.lt_or_le c 0x80 with hlow | hle
        · have hone := encodeChar_ascii hin.symm hlow
          have hfirst := getElem?_char hdrop hpos
          rw [Nat.add_zero, hc, hone] at hfirst
          rw [Option.some.inj hfirst] at hhigh
          exact absurd hlow (UInt8.not_lt.mpr hhigh)
        · simp [isBlankByte, hle]

theorem stripNoise_text (d : Dialect) (t : List Char) : ∃ s, stripNoise (encode t) d = encode s := by
  rw [stripNoise_eq]
  exact strip_text _ 0 _ (Nat.le_refl _) (Nat.le_refl _) (boundary_zero t) (Or.inl (Nat.le_refl _))

end Copy

/-- What the copy shows of a byte: the byte, or a space for it; a line feed always. -/
def Dimmed (o c : UInt8) : Prop := o = c ∨ o = space ∧ c ≠ newline

theorem stripNoise_dimmed (b : Bytes) (d : Dialect) : List.Forall₂ Dimmed (stripNoise b d) b := by
  have hall := strip_related (R := Dimmed) (d := d) (b := b) (fun c => Or.inl rfl) (fun c => ?_) b.length 0 b.length
    (Nat.le_refl _) (by omega)
  · rw [stripNoise_eq]
    simpa [slice] using hall
  · by_cases hc : c = newline
    · exact Or.inl (by rw [if_pos (beq_iff_eq.mpr hc), hc])
    · exact Or.inr ⟨if_neg (by simpa using hc), hc⟩

end RedDb.Sql
