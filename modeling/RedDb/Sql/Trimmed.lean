import Mathlib.Data.List.Forall2
import RedDb.Lib.Blanks
import RedDb.Sql.Preflight
import RedDb.Sql.Split

/-!
# RedDb — trimming before stripping

The splitter hands on trimmed statements and the graders strip those, while the
agent's gate strips the whole text and trims the copy. `stripNoise_trim` relates
the two: but for blanks at the ends and a last `--`, the copy of the trimmed text
is the copy. What a gate reads of a copy, its first word and its words, does not
depend on either (`LedBy`, `hasWord_pad`).
-/

namespace RedDb.Sql

open ByteText

/-! ## Stripping a text that ends in blanks -/

theorem toNat_of_blankByte {c : UInt8} (h : isBlankByte c = true) :
    c.toNat ≤ 13 ∨ c.toNat = 32 ∨ 128 ≤ c.toNat := by
  simp only [isBlankByte, ws1, Bool.or_eq_true, beq_iff_eq, Bool.and_eq_true, decide_eq_true_eq,
    UInt8.le_iff_toNat_le] at h
  rcases h with (⟨-, h⟩ | rfl) | h
  · exact Or.inl h
  · exact Or.inr (Or.inl rfl)
  · exact Or.inr (Or.inr h)

theorem not_word_of_blank {c : UInt8} (h : isBlankByte c = true) : isWordByte c = false := by
  cases hw : isWordByte c with
  | false => rfl
  | true =>
    have := toNat_lt_of_word hw
    have := toNat_of_blankByte h
    omega

theorem ne_of_blank {c x : UInt8} (h : isBlankByte c = true) (hx : isBlankByte x = false) :
    c ≠ x := by
  rintro rfl
  rw [h] at hx
  exact Bool.noConfusion hx

/-- Nothing opens at a blank byte. -/
theorem noiseEnd_blank {d : Dialect} {b : Bytes} {stop i : Nat} {c : UInt8} (hc : b[i]? = some c)
    (h : isBlankByte c = true) : noiseEnd d b stop i = none := by
  have h1 := ne_of_blank h (x := singleQuote) (by decide)
  have h2 := ne_of_blank h (x := doubleQuote) (by decide)
  have h3 := ne_of_blank h (x := backtick) (by decide)
  have h4 := ne_of_blank h (x := dash) (by decide)
  have h5 := ne_of_blank h (x := ByteText.hash) (by decide)
  have h6 := ne_of_blank h (x := slash) (by decide)
  have h7 := ne_of_blank h (x := dollar) (by decide)
  simp [noiseEnd, hc, isQuote, Dialect.dashCommentAt, h1, h2, h3, h4, h5, h6, h7]

/-- Without nesting a comment ends at the first `*/`. -/
theorem blockLen_first {u : Bytes} {k : Nat} (h : u[k]? = some star)
    (h' : u[k + 1]? = some slash) : blockLen false false 1 u ≤ k + 2 := by
  induction u generalizing k with
  | nil => simp at h
  | cons c rest ih =>
    rw [blockLen]
    split
    · simp
    rename_i hne
    cases k with
    | zero =>
      refine absurd ?_ hne
      obtain rfl := Option.some.inj h
      rw [List.getElem?_cons_succ, ← List.head?_eq_getElem?] at h'
      rw [h']
      rfl
    | succ k =>
      simp only [Bool.false_and, Bool.false_eq_true, if_false]
      have := ih h h'
      omega

theorem suffix_bytes {b : Bytes} {m : Nat} (hm : m ≤ b.length)
    (h : [star, slash].isSuffixOf (b.take m) = true) :
    2 ≤ m ∧ b[m - 2]? = some star ∧ b[m - 1]? = some slash := by
  obtain ⟨t, ht⟩ := List.isSuffixOf_iff_suffix.mp h
  have hlen := congrArg List.length ht
  simp only [List.length_append, List.length_cons, List.length_nil, List.length_take] at hlen
  have hm2 : m = t.length + 2 := by omega
  have hget : ∀ k, k < m → b[k]? = (t ++ [star, slash])[k]? := by
    intro k hk
    rw [ht, List.getElem?_take, if_pos hk]
  refine ⟨by omega, ?_, ?_⟩
  · rw [hget _ (by omega), List.getElem?_append_right (by omega), hm2]
    simp
  · rw [hget _ (by omega), List.getElem?_append_right (by omega), hm2,
      show t.length + 2 - 1 - t.length = 1 by omega]
    rfl

/-- A lexeme is the same up to an earlier stop, if a star behind its first byte stays in front of it. -/
theorem noiseEnd_clip {d : Dialect} {b : Bytes} {m i : Nat} (hm : m ≤ b.length)
    (hstar : b[i + 1]? = some star → i + 1 < m) :
    noiseEnd d b m i = (noiseEnd d b b.length i).map (min · m) := by
  have hclip : ∀ e : Nat, min e m = min (min e b.length) m := by omega
  unfold noiseEnd
  cases hc : b[i]? with
  | none => rfl
  | some c =>
    have hguard : (c == slash && decide (i + 1 < m) && b[i + 1]? == some star) =
        (c == slash && decide (i + 1 < b.length) && b[i + 1]? == some star) := by
      rw [Bool.eq_iff_iff]
      simp only [Bool.and_eq_true, decide_eq_true_eq, beq_iff_eq]
      constructor
      · rintro ⟨⟨h1, -⟩, h3⟩
        exact ⟨⟨h1, lt_of_getElem?_eq_some h3⟩, h3⟩
      · rintro ⟨⟨h1, -⟩, h3⟩
        exact ⟨⟨h1, hstar h3⟩, h3⟩
    simp only [hguard]
    split
    · rw [Option.map_some, ← hclip]
    split
    · rw [Option.map_some, ← hclip]
    split
    · rw [Option.map_some, ← hclip]
    split
    · rw [Option.map_some, ← hclip]
    split
    · rw [Option.map_map]
      congr 1
      funext e
      exact hclip e
    · rfl

section BlankTail

variable {d : Dialect} {b : Bytes} {m : Nat} (hm : m ≤ b.length)
  (hblank : ∀ k c, m ≤ k → b[k]? = some c → isBlankByte c = true)

include hblank in
theorem lt_of_not_blank {k : Nat} {c : UInt8} (hc : b[k]? = some c)
    (h : isBlankByte c = false) : k < m := by
  by_contra hge
  rw [hblank k c (by omega) hc] at h
  exact Bool.noConfusion h

include hm hblank

theorem noiseEnd_min {i : Nat} : noiseEnd d b m i = (noiseEnd d b b.length i).map (min · m) :=
  noiseEnd_clip hm fun h => lt_of_not_blank hblank h (by decide)

/-- An executable comment that a run of blanks would have to close is open to the
end. -/
theorem execBody_open {i : Nat} (hx : d.executableCommentAt b i = true)
    (hskip : m < skipBlockComment b i d) :
    b.length ≤ skipBlockComment b i d ∧ execCommentBody b i ≤ m ∧
      execBody d b i m = (execCommentBody b i, m) ∧
      execBody d b i b.length = (execCommentBody b i, b.length) := by
  obtain ⟨rfl, h0, h1, h2⟩ := executableCommentAt_bytes hx
  have hlt : i + 2 < m := lt_of_not_blank hblank h2 (by decide)
  have hopen : b.length ≤ skipBlockComment b i .mySql := by
    by_contra hlt'
    have hclosed := skipBlockComment_closed (b := b) (d := .mySql) (i := i) (by omega) (by omega)
    obtain ⟨-, -, hs⟩ := suffix_bytes (m := skipBlockComment b i .mySql) (by omega) hclosed
    have := lt_of_not_blank hblank hs (by decide)
    omega
  have hbody : execCommentBody b i ≤ m := by
    by_contra hgt
    unfold execCommentBody at hgt
    -- the last byte before the body: the `!`, or the last digit of the version
    have hlast : ∃ c, b[i + 2 + ((b.drop (i + 3)).takeWhile isAsciiDigit).length]? = some c ∧
        isBlankByte c = false := by
      rcases Nat.eq_zero_or_pos ((b.drop (i + 3)).takeWhile isAsciiDigit).length with hz | hz
      · exact ⟨bang, by rw [hz]; exact h2, by decide⟩
      obtain ⟨c, hc, hdigit⟩ := takeWhile_span (p := isAsciiDigit) (b := b)
        (show i + 3 ≤ i + 2 + ((b.drop (i + 3)).takeWhile isAsciiDigit).length by omega)
        (by omega)
      refine ⟨c, hc, ?_⟩
      cases hb : isBlankByte c with
      | false => rfl
      | true =>
        have hword := not_word_of_blank hb
        simp [isWordByte, isAsciiAlphanumeric, hdigit] at hword
    obtain ⟨c, hc, hb⟩ := hlast
    have := lt_of_not_blank hblank hc hb
    omega
  have hnone : ¬ [star, slash].isSuffixOf (b.take m) = true := by
    intro hsuf
    obtain ⟨hm2, hs1, hs2⟩ := suffix_bytes hm hsuf
    rcases Nat.lt_or_ge (m - 2) (i + 2) with hnear | hfar
    · rw [show m - 1 = i + 2 by omega, h2] at hs2
      exact absurd (Option.some.inj hs2) (by decide)
    have hle := blockLen_first (u := b.drop (i + 2)) (k := m - 2 - (i + 2))
      (by rw [List.getElem?_drop, Nat.add_sub_cancel' hfar]; exact hs1)
      (by rw [List.getElem?_drop, show i + 2 + (m - 2 - (i + 2) + 1) = m - 1 by omega]; exact hs2)
    unfold skipBlockComment at hskip
    rw [show Dialect.nestedBlockComments .mySql = false from rfl] at hskip
    omega
  have hnone' : ¬ [star, slash].isSuffixOf (b.take b.length) = true := by
    intro hsuf
    obtain ⟨-, -, hs⟩ := suffix_bytes (Nat.le_refl _) hsuf
    have := lt_of_not_blank hblank hs (by decide)
    rw [show b.length = m by omega] at hsuf
    exact hnone hsuf
  refine ⟨hopen, hbody, ?_, ?_⟩
  · unfold execBody
    simp only
    rw [Nat.min_eq_right (Nat.le_of_lt hskip), if_neg hnone, Nat.min_eq_left hbody,
      Nat.max_eq_left hbody]
  · unfold execBody
    simp only
    rw [Nat.min_eq_right hopen, if_neg hnone', Nat.min_eq_left (by omega),
      Nat.max_eq_left (by omega)]

/-- **Blanks at the end.** Stripped up to them, a text strips as the whole does. -/
theorem strip_stop (n i : Nat) (hn : b.length - i ≤ n) :
    strip d b i m = (strip d b i b.length).take (m - i) := by
  induction n generalizing i with
  | zero => rw [strip_done (by omega), strip_done (by omega), List.take_nil]
  | succ n ih =>
    rcases Nat.lt_or_ge i m with hi | hi
    swap
    · rw [strip_done hi, Nat.sub_eq_zero_of_le hi, List.take_zero]
    have hlt : i < b.length := by omega
    have hle := Nat.le_refl b.length
    have hc : b[i]? = some b[i] := List.getElem?_eq_getElem hlt
    cases hx : d.executableCommentAt b i with
    | true =>
      rw [strip_exec hi hm hx, strip_exec hlt hle hx]
      rcases Nat.lt_or_ge m (skipBlockComment b i d) with hskip | hskip
      · obtain ⟨hopen, hbody, h1, h2⟩ := execBody_open hm hblank hx hskip
        have hpos := (execBody_bounds (d := d) (b := b) hi).1
        rw [h1] at hpos
        rw [h1, h2, Nat.min_eq_right (Nat.le_of_lt hskip), Nat.min_eq_right hopen]
        simp only
        rw [blankSpan_empty, blankSpan_empty, strip_done (Nat.le_refl m), strip_done hle,
          ih _ (by omega)]
        have hfront : (blankSpan b i (execCommentBody b i)).take (m - i) =
            blankSpan b i (execCommentBody b i) :=
          List.take_of_length_le (by rw [length_blankSpan (by omega)]; omega)
        simp only [List.append_nil]
        rw [List.take_append, length_blankSpan (by omega), hfront,
          show m - i - (execCommentBody b i - i) = m - execCommentBody b i by omega]
      · have hb : execBody d b i m = execBody d b i b.length := by
          unfold execBody
          rw [Nat.min_eq_left hskip, Nat.min_eq_left (by omega)]
        obtain ⟨hb1, hb2, hb3⟩ := execBody_bounds (d := d) (b := b) hlt
        rw [Nat.min_eq_left (by omega)] at hb3
        rw [hb, Nat.min_eq_left hskip, Nat.min_eq_left (by omega), ih _ (by omega)]
        have hlen : (blankSpan b i (execBody d b i b.length).1 ++
            strip d b (execBody d b i b.length).1 (execBody d b i b.length).2 ++
            blankSpan b (execBody d b i b.length).2 (skipBlockComment b i d)).length =
              skipBlockComment b i d - i := by
          simp only [List.length_append]
          rw [length_blankSpan (by omega), length_blankSpan (by omega),
            length_strip _ _ _ (by omega) (Nat.le_refl _)]
          omega
        rw [List.take_append, hlen,
          show m - i - (skipBlockComment b i d - i) = m - skipBlockComment b i d by omega]
        congr 1
        exact (List.take_of_length_le (by omega)).symm
    | false =>
      cases he : noiseEnd d b b.length i with
      | none =>
        have he' : noiseEnd d b m i = none := by rw [noiseEnd_min hm hblank, he]; rfl
        rw [strip_live hi hm hc hx he', strip_live hlt hle hc hx he, ih _ (by omega),
          show m - i = (m - (i + 1)) + 1 by omega, List.take_succ_cons]
      | some e =>
        have hb := noiseEnd_bounds hlt hle he
        have he' : noiseEnd d b m i = some (min e m) := by rw [noiseEnd_min hm hblank, he]; rfl
        rw [strip_noise hi hm hx he', strip_noise hlt hle hx he, List.take_append,
          length_blankSpan hb.2]
        rcases Nat.lt_or_ge m e with hme | hme
        · rw [Nat.min_eq_right (by omega), strip_done (Nat.le_refl m),
            show m - i - (e - i) = 0 by omega, List.take_zero]
          congr 1
          unfold blankSpan slice
          rw [← List.map_take, List.take_drop, show i + (m - i) = m by omega, List.take_take,
            Nat.min_eq_left (by omega)]
        · rw [Nat.min_eq_left hme, List.take_of_length_le (by rw [length_blankSpan hb.2]; omega),
            ih _ (by omega), show m - i - (e - i) = m - e by omega]

end BlankTail

/-! ## The copy of a trimmed text -/

theorem slice_done {b : Bytes} {i j : Nat} (h : j ≤ i) : slice b i j = [] :=
  List.drop_eq_nil_of_le (by rw [List.length_take]; omega)

theorem slice_one {b : Bytes} {i : Nat} (hi : i < b.length) : slice b i (i + 1) = [b[i]] := by
  unfold slice
  rw [List.drop_take, Nat.add_sub_cancel_left, List.drop_eq_getElem_cons hi]
  rfl

section Related

-- what the stripper does to a byte: it copies it, or blanks it
variable {R : UInt8 → UInt8 → Prop} (hcopy : ∀ c, R c c)
  (hblank : ∀ c, R (if c == newline then newline else space) c)

include hblank in
theorem blankSpan_related (b : Bytes) (i j : Nat) :
    List.Forall₂ R (blankSpan b i j) (slice b i j) := by
  unfold blankSpan
  rw [List.forall₂_map_left_iff, List.forall₂_same]
  exact fun c _ => hblank c

theorem strip_related_done {d : Dialect} {b : Bytes} {i stop : Nat} (h : stop ≤ i) :
    List.Forall₂ R (strip d b i stop) (slice b i stop) := by
  rw [strip_done h, slice_done h]
  exact List.Forall₂.nil

include hcopy hblank in
/-- Byte for byte, the stripper copies or blanks. -/
theorem strip_related {d : Dialect} {b : Bytes} (n i stop : Nat) (hs : stop ≤ b.length)
    (hn : stop - i ≤ n) : List.Forall₂ R (strip d b i stop) (slice b i stop) := by
  induction n generalizing i stop with
  | zero => exact strip_related_done (by omega)
  | succ n ih =>
    rcases Nat.lt_or_ge i stop with hi | hi
    swap
    · exact strip_related_done hi
    have hc : b[i]? = some b[i] := List.getElem?_eq_getElem (by omega)
    cases hx : d.executableCommentAt b i with
    | true =>
      obtain ⟨h1, h2, h3⟩ := execBody_bounds (d := d) (b := b) hi
      rw [strip_exec hi hs hx,
        slice_split (Nat.le_of_lt (Nat.lt_of_lt_of_le h1 (Nat.le_trans h2 h3)))
          (Nat.min_le_right _ _),
        slice_split (Nat.le_of_lt (Nat.lt_of_lt_of_le h1 h2)) h3,
        slice_split (Nat.le_of_lt h1) h2]
      refine List.rel_append (List.rel_append (List.rel_append (blankSpan_related hblank _ _ _) ?_)
        (blankSpan_related hblank _ _ _)) ?_
      · exact ih _ _ (by omega) (by omega)
      · exact ih _ _ hs (by omega)
    | false =>
      cases he : noiseEnd d b stop i with
      | none =>
        rw [strip_live hi hs hc hx he, slice_split (Nat.le_succ i) hi, slice_one (by omega)]
        exact List.Forall₂.cons (hcopy _) (ih _ _ hs (by omega))
      | some e =>
        have hb := noiseEnd_bounds hi hs he
        rw [strip_noise hi hs hx he, slice_split (Nat.le_of_lt hb.1) hb.2]
        exact List.rel_append (blankSpan_related hblank _ _ _) (ih _ _ hs (by omega))

end Related

/-- What stripping may make of the byte `c`. -/
def Blanked (o c : UInt8) : Prop := o = c ∨ o = space ∨ o = newline

theorem strip_blanked {d : Dialect} {b : Bytes} (n i stop : Nat) (hs : stop ≤ b.length)
    (hn : stop - i ≤ n) : List.Forall₂ Blanked (strip d b i stop) (slice b i stop) := by
  refine strip_related (fun c => Or.inl rfl) (fun c => Or.inr ?_) n i stop hs hn
  split
  · exact Or.inr rfl
  · exact Or.inl rfl

/-- Blank bytes pass through. -/
theorem strip_blank {d : Dialect} {b : Bytes} {i j stop : Nat} (hij : i ≤ j) (hj : j ≤ stop)
    (hs : stop ≤ b.length) (h : ∀ k c, i ≤ k → k < j → b[k]? = some c → isBlankByte c = true) :
    strip d b i stop = slice b i j ++ strip d b j stop := by
  induction hn : j - i generalizing i with
  | zero =>
    obtain rfl : i = j := by omega
    rw [slice_done (Nat.le_refl i), List.nil_append]
  | succ n ih =>
    have hlt : i < stop := by omega
    have hc : b[i]? = some b[i] := List.getElem?_eq_getElem (by omega)
    have hb := h i _ (Nat.le_refl i) (by omega) hc
    have hx : d.executableCommentAt b i = false := exec_of_ne_slash hc (ne_of_blank hb (by decide))
    rw [strip_live hlt hs hc hx (noiseEnd_blank hc hb),
      ih (by omega) (fun k c hk => h k c (by omega)) (by omega), slice_split (Nat.le_succ i)
        (by omega), slice_one (by omega)]
    rfl

theorem breaks_of_blank {q : Bytes} (hq : Blank q) : Breaks q := by
  intro c hc
  have hb := hq.bytes c (List.mem_of_mem_head? hc)
  rw [breaksLexeme_iff]
  refine ⟨not_word_of_blank hb, ?_, ne_of_blank hb (by decide), ne_of_blank hb (by decide),
    ne_of_blank hb (by decide), ne_of_blank hb (by decide)⟩
  simp [isQuote, ne_of_blank hb (x := singleQuote) (by decide),
    ne_of_blank hb (x := doubleQuote) (by decide), ne_of_blank hb (x := backtick) (by decide)]

theorem opens_of_blank {p : Bytes} (hp : Blank p) : Opens p := by
  intro c hc
  exact not_word_of_blank (hp.bytes c (List.mem_of_mem_getLast? hc))

theorem all_blank_of_blanked {u v : Bytes} (h : List.Forall₂ Blanked u v)
    (hv : ∀ c ∈ v, isBlankByte c = true) : ∀ o ∈ u, isBlankByte o = true := by
  induction h with
  | nil =>
    intro o ho
    exact absurd ho List.not_mem_nil
  | @cons o c u v hoc _ ih =>
    intro x hx
    rcases List.mem_cons.mp hx with rfl | hx
    · rcases hoc with rfl | rfl | rfl
      · exact hv _ (List.mem_cons_self ..)
      · decide
      · decide
    · exact ih (fun c hc => hv c (List.mem_cons_of_mem _ hc)) x hx

/-- **The copy of a trimmed text.** But for blanks at either end and a last `--` it
is the copy of the text. -/
theorem stripNoise_trim (x : Bytes) (d : Dialect) :
    ∃ p v w, Blank p ∧ (∀ c ∈ w, isBlankByte c = true) ∧ stripNoise x d = p ++ (v ++ w) ∧
      SameUpToDashes d (stripNoise (trim x) d) v := by
  obtain ⟨p, q, hp, hq, hx⟩ := trim_spec x
  generalize trim x = y at hx ⊢
  subst hx
  have hlen : (y ++ q).length = y.length + q.length := List.length_append
  have hy : (y ++ q).take y.length = y := List.take_left
  have hblank : ∀ k c, y.length ≤ k → (y ++ q)[k]? = some c → isBlankByte c = true := by
    intro k c hk hc
    rw [List.getElem?_append_right hk] at hc
    exact hq.bytes c (List.mem_of_getElem? hc)
  -- the blanks in front pass through
  have hfront : stripNoise (p ++ (y ++ q)) d = p ++ strip d (y ++ q) 0 (y ++ q).length := by
    have hshift := strip_shift (opens_of_blank hp) (d := d) (y := y ++ q) (y ++ q).length 0
      (y ++ q).length (Nat.le_refl _) (by omega)
    rw [Nat.add_zero, ← List.length_append] at hshift
    rw [stripNoise_eq, strip_blank (Nat.zero_le p.length) (by simp) (Nat.le_refl _) ?_, hshift]
    · congr 1
      unfold slice
      rw [List.take_left, List.drop_zero]
    · intro k c _ hk hc
      rw [List.getElem?_append_left hk] at hc
      exact hp.bytes c (List.mem_of_getElem? hc)
  refine ⟨p, (strip d (y ++ q) 0 (y ++ q).length).take y.length,
    (strip d (y ++ q) 0 (y ++ q).length).drop y.length, hp, ?_, ?_, ?_⟩
  · refine all_blank_of_blanked (List.forall₂_drop y.length
      (strip_blanked (d := d) (b := y ++ q) (y ++ q).length 0 _ (Nat.le_refl _) (by omega))) ?_
    intro c hc
    have hq' : (slice (y ++ q) 0 (y ++ q).length).drop y.length = q := by
      unfold slice
      rw [List.take_length, List.drop_zero, List.drop_left]
    rw [hq'] at hc
    exact hq.bytes c hc
  · rw [hfront, List.take_append_drop]
  · have hstop := strip_stop (d := d) (b := y ++ q) (m := y.length) (by omega) hblank
      (y ++ q).length 0 (by omega)
    rw [Nat.sub_zero] at hstop
    rw [← hstop, stripNoise_eq]
    rcases strip_take (breaks_of_blank hq) (x := y) (d := d) y.length 0 y.length (Nat.le_refl _)
      (by omega) (Or.inl rfl) with h | ⟨-, -, h⟩
    · exact Or.inl h
    · exact h

end RedDb.Sql
