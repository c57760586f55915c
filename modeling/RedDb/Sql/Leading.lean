import RedDb.Sql.Risk
import RedDb.Sql.Trimmed

/-!
# RedDb — what a gate reads of a copy

The gates read a stripped copy by its leading word and by its words. Neither
depends on the blanks around the copy, on a final `;`, or on a last `--` that the
copy of a part has blanked.
-/

namespace RedDb.Sql

open ByteText

/-! ## Words -/

/-- No byte of a word. -/
def Wordless (b : Bytes) : Prop := ∀ c ∈ b, isWordByte c = false

instance (b : Bytes) : Decidable (Wordless b) :=
  List.decidableBAll (fun c => isWordByte c = false) b

variable {b : Bytes}

theorem wordless_of_blank (h : ∀ c ∈ b, isBlankByte c = true) : Wordless b :=
  fun c hc => not_word_of_blank (h c hc)

variable {a : Bytes}

theorem Wordless.append (ha : Wordless a) (hb : Wordless b) : Wordless (a ++ b) :=
  fun c hc => (List.mem_append.mp hc).elim (ha c) (hb c)

theorem wordless_replicate (k : Nat) : Wordless (List.replicate k semicolon) := by
  intro c hc
  rw [(List.mem_replicate.mp hc).2]
  decide

variable {word : Bytes}

theorem hasWord_wordless (ha : Wordless a) (hne : word ≠ []) (t : Bytes) :
    hasWord (a ++ t) word = hasWord t word := by
  induction a with
  | nil => rfl
  | cons c a ih =>
    have hc : isWordByte c = false := ha c (List.mem_cons_self ..)
    rw [← ih fun x hx => ha x (List.mem_cons_of_mem _ hx)]
    unfold hasWord
    rw [List.cons_append, splitOnP_gap (by rw [hc]; rfl), List.contains_cons]
    simp [hne]

theorem hasWord_wordless_right (ha : Wordless a) (hne : word ≠ []) (t : Bytes) :
    hasWord (t ++ a) word = hasWord t word := by
  cases a with
  | nil => rw [List.append_nil]
  | cons c a =>
    have hc : isWordByte c = false := ha c (List.mem_cons_self ..)
    have hrest : hasWord a word = false := by
      have := hasWord_wordless (a := a) (fun x hx => ha x (List.mem_cons_of_mem _ hx)) hne []
      rw [List.append_nil] at this
      rw [this]
      simpa [hasWord, List.splitOnP_nil] using hne
    unfold hasWord at hrest ⊢
    rw [List.splitOnP_append_cons _ _ (by rw [hc]; rfl), List.contains_eq_mem,
      List.contains_eq_mem]
    rw [List.contains_eq_mem, decide_eq_false_iff_not] at hrest
    simp [hrest]

/-- **Padding.** A text has the words it has between bytes of no word. -/
theorem hasWord_pad {c : Bytes} (ha : Wordless a) (hc : Wordless c) (hne : word ≠ [])
    (t : Bytes) : hasWord (a ++ (t ++ c)) word = hasWord t word :=
  (hasWord_wordless ha hne _).trans (hasWord_wordless_right hc hne t)

theorem isAsciiAlphabetic_lower (c : UInt8) :
    isAsciiAlphabetic (toAsciiLower c) = isAsciiAlphabetic c := by
  unfold toAsciiLower
  split
  · rename_i h
    have hup : isAsciiAlphabetic c = true := by simp [isAsciiAlphabetic, h]
    have hlow : isAsciiAlphabetic (c + 32) = true := by
      simp only [Bool.and_eq_true, decide_eq_true_eq, UInt8.le_iff_toNat_le,
        UInt8.reduceToNat] at h
      simp only [isAsciiAlphabetic, Bool.or_eq_true, Bool.and_eq_true, decide_eq_true_eq,
        UInt8.le_iff_toNat_le, UInt8.reduceToNat, UInt8.toNat_add]
      omega
    rw [hup, hlow]
  · rfl

theorem isWordByte_lower (c : UInt8) : isWordByte (toAsciiLower c) = isWordByte c := by
  by_cases h : isAsciiAlphabetic c = true
  · have hlow := (isAsciiAlphabetic_lower c).trans h
    simp [isWordByte, isAsciiAlphanumeric, h, hlow]
  have hkeep : toAsciiLower c = c := by
    unfold toAsciiLower
    refine if_neg fun hup => h ?_
    simp [isAsciiAlphabetic, hup]
  rw [hkeep]

theorem wordless_lower (h : Wordless b) : Wordless (asciiLower b) := by
  intro c hc
  obtain ⟨x, hx, rfl⟩ := List.mem_map.mp hc
  rw [isWordByte_lower]
  exact h x hx

theorem asciiLower_append (a b : Bytes) : asciiLower (a ++ b) = asciiLower a ++ asciiLower b :=
  List.map_append

variable {w : Bytes}

theorem IsWord.lower (h : IsWord w) : IsWord (asciiLower w) := by
  refine ⟨fun hnil => h.nonempty (List.map_eq_nil_iff.mp hnil), fun c hc => ?_⟩
  obtain ⟨x, hx, rfl⟩ := List.mem_map.mp hc
  rw [isWordByte_lower]
  exact h.bytes x hx

theorem StartsClear.lower (h : StartsClear b) : StartsClear (asciiLower b) := by
  cases b with
  | nil =>
    intro c hc
    cases hc
  | cons x b =>
    intro c hc
    obtain rfl := Option.some.inj hc
    rw [isWordByte_lower]
    exact h x rfl

theorem StartsClear.append (ha : StartsClear a) (hb : Wordless b) : StartsClear (a ++ b) := by
  intro c hc
  cases a with
  | nil => exact hb c (List.mem_of_mem_head? hc)
  | cons x a => exact ha c hc

/-! ## The leading word -/

/-- The text is `w`, as a whole word, behind blanks only. -/
structure LedBy (w t : Bytes) : Prop where
  intro ::
  cut : ∃ lead rest, Blank lead ∧ StartsClear rest ∧ t = lead ++ (w ++ rest)

/-- A word that begins with a letter, as a keyword does. -/
structure IsKeyword (w : Bytes) : Prop extends IsWord w where
  letter : ∀ c ∈ w.head?, isAsciiAlphabetic c = true

theorem isBlankByte_word {c : UInt8} (h : isWordByte c = true) : isBlankByte c = false := by
  cases hb : isBlankByte c with
  | false => rfl
  | true =>
    rw [not_word_of_blank hb] at h
    exact Bool.noConfusion h

variable {t : Bytes}

/-- What a text that begins with a word keeps when its end is cut off. -/
theorem word_of_cut {rest q : Bytes} (hw : IsWord w) (hrest : StartsClear rest)
    (h : w ++ rest = t ++ q) (hq : Wordless q) :
    ∃ rest', t = w ++ rest' ∧ rest = rest' ++ q ∧ StartsClear rest' := by
  rcases List.append_eq_append_iff.mp h with ⟨rest', rfl, rfl⟩ | ⟨z, rfl, rfl⟩
  · refine ⟨rest', rfl, rfl, fun c hc => hrest c ?_⟩
    rw [List.head?_append, Option.mem_def.mp hc]
    rfl
  cases z with
  | nil => exact ⟨[], by simp, by simp, fun c hc => absurd hc (by simp)⟩
  | cons x z =>
    have hx := hw.bytes x (by simp)
    rw [hq x (by simp)] at hx
    exact Bool.noConfusion hx

theorem IsKeyword.lower (h : IsKeyword w) : IsKeyword (asciiLower w) := by
  refine ⟨h.toIsWord.lower, fun c hc => ?_⟩
  obtain ⟨x, v, rfl⟩ := List.exists_cons_of_ne_nil h.nonempty
  obtain rfl := Option.some.inj hc
  rw [isAsciiAlphabetic_lower]
  exact h.letter x rfl

section Leading

variable {w t : Bytes} (hw : IsWord w)

include hw

theorem trimStart_word (rest : Bytes) : trimStart (w ++ rest) = w ++ rest := by
  obtain ⟨c, v, rfl⟩ := List.exists_cons_of_ne_nil hw.nonempty
  exact trimStart_none
    (wsLen_ascii (isBlankByte_word (hw.bytes c (List.mem_cons_self ..))) (v ++ rest))

theorem LedBy.trimStart_eq (h : LedBy w t) :
    ∃ rest, StartsClear rest ∧ trimStart t = w ++ rest := by
  obtain ⟨lead, rest, hlead, hrest, rfl⟩ := h.cut
  exact ⟨rest, hrest, by rw [trimStart_append hlead, trimStart_word hw]⟩

theorem LedBy.trim (h : LedBy w t) : ∃ rest, StartsClear rest ∧ trim t = w ++ rest := by
  obtain ⟨rest, hrest, hstart⟩ := h.trimStart_eq hw
  obtain ⟨q, hq, hend⟩ := trimEnd_spec (trimStart t)
  rw [hstart] at hend
  obtain ⟨rest', ht, -, hclear⟩ := word_of_cut hw hrest hend (wordless_of_blank hq.bytes)
  exact ⟨rest', hclear, by rw [ByteText.trim, hstart, ht]⟩

/-- The graders' text begins with the word. -/
theorem LedBy.gradedText (h : LedBy w t) :
    ∃ rest, StartsClear rest ∧ gradedText t = asciiLower w ++ rest := by
  obtain ⟨rest, hrest, htrim⟩ := h.trim hw
  obtain ⟨k, hk⟩ := trimEndMatches_spec semicolon (ByteText.trim t)
  rw [htrim] at hk
  obtain ⟨rest', hcut, -, hclear⟩ := word_of_cut hw hrest hk (wordless_replicate k)
  obtain ⟨rest'', hclear', htrim'⟩ :=
    LedBy.trim hw (t := w ++ rest') ⟨[], rest', Blank.nil, hclear, rfl⟩
  refine ⟨asciiLower rest'', hclear'.lower, ?_⟩
  rw [Sql.gradedText, htrim, hcut, htrim', asciiLower_append]

end Leading

/-- The word of the lower-cased text is a word of the text. -/
theorem LedBy.of_lower (h : LedBy w (asciiLower t)) : ∃ w', asciiLower w' = w ∧ LedBy w' t := by
  obtain ⟨lead, rest, hlead, hrest, hcut⟩ := h.cut
  obtain ⟨lead', tail, rfl, hleadLower, htail⟩ := List.map_eq_append_iff.mp hcut
  obtain ⟨w', rest', rfl, hword, hrestLower⟩ := List.map_eq_append_iff.mp htail
  have hsame : lead'.map toAsciiLower = lead' := by
    have hbytes : ∀ c ∈ lead', isBlankByte (toAsciiLower c) = true := fun c hc =>
      hlead.bytes _ (hleadLower ▸ List.mem_map_of_mem hc)
    conv_rhs => rw [← List.map_id lead']
    refine List.map_congr_left fun c hc => ?_
    unfold toAsciiLower
    split
    · rename_i hup
      -- the lower-case letter of `c` would be a blank
      have hletter : isAsciiAlphabetic (toAsciiLower c) = true := by
        rw [isAsciiAlphabetic_lower, isAsciiAlphabetic, hup, Bool.true_or]
      have hword : isWordByte (toAsciiLower c) = true := by
        simp [isWordByte, isAsciiAlphanumeric, hletter]
      have hblank := hbytes c hc
      rw [isBlankByte_word hword] at hblank
      exact Bool.noConfusion hblank
    · rfl
  refine ⟨w', hword, lead', rest', ?_, ?_, rfl⟩
  · rw [← hsame, hleadLower]
    exact hlead
  · cases rest' with
    | nil =>
      intro c hc
      cases hc
    | cons x rest' =>
      intro c hc
      rw [← Option.some.inj hc, ← isWordByte_lower]
      refine hrest _ ?_
      rw [← hrestLower]
      rfl

/-- The blanks and what follows the words may be left off. -/
theorem LedBy.of_pad {p q : Bytes} (hw : IsWord w) (hp : Blank p) (hq : Wordless q)
    (h : LedBy w (p ++ (t ++ q))) : LedBy w t := by
  obtain ⟨rest, hrest, hstart⟩ := h.trimStart_eq hw
  rw [trimStart_append hp] at hstart
  obtain ⟨lead, hlead, htq, -⟩ := trimStart_spec (t ++ q)
  rw [hstart, ← List.append_assoc] at htq
  rcases List.append_eq_append_iff.mp htq with ⟨z, hlw, rfl⟩ | ⟨rest', rfl, rfl⟩
  · cases z with
    | nil =>
      rw [List.append_nil] at hlw
      exact ⟨lead, [], hlead, fun c hc => absurd hc (by simp), by rw [List.append_nil, hlw]⟩
    | cons x z =>
      -- the last byte of the word would be one of `q`
      have hlast := List.getLast?_eq_getLast_of_ne_nil hw.nonempty
      have hword := hw.bytes _ (List.getLast_mem hw.nonempty)
      have hz : (x :: z).getLast? = some (w.getLast hw.nonempty) := by
        have := congrArg List.getLast? hlw
        rw [List.getLast?_append_of_ne_nil _ hw.nonempty,
          List.getLast?_append_of_ne_nil _ (List.cons_ne_nil x z), hlast] at this
        exact this.symm
      rw [hq _ (List.mem_append_left _ (List.mem_of_getLast? hz))] at hword
      exact Bool.noConfusion hword
  · refine ⟨lead, rest', hlead, fun c hc => hrest c ?_, by rw [List.append_assoc]⟩
    rw [List.head?_append, Option.mem_def.mp hc]
    rfl

/-- A last `--` may be blanked. -/
theorem LedBy.of_dashes {d : Dialect} {u v : Bytes} (hw : IsWord w)
    (h : SameUpToDashes d u v) (hv : LedBy w v) : LedBy w u := by
  rcases h with rfl | ⟨-, t, rfl, rfl⟩
  · exact hv
  have ht : LedBy w t :=
    LedBy.of_pad (t := t) (q := [dash, dash]) hw Blank.nil (by decide) hv
  obtain ⟨lead, rest, hlead, hrest, rfl⟩ := ht.cut
  exact ⟨lead, rest ++ [space, space], hlead, hrest.append (by decide),
    by simp only [List.append_assoc]⟩

theorem hasWord_dashes {d : Dialect} {u v : Bytes} (h : SameUpToDashes d u v)
    (hne : word ≠ []) : hasWord (asciiLower u) word = hasWord (asciiLower v) word := by
  rcases h with rfl | ⟨-, t, rfl, rfl⟩
  · rfl
  · rw [asciiLower_append, asciiLower_append, hasWord_wordless_right (by decide) hne,
      hasWord_wordless_right (by decide) hne]

/-- The graders' text has the words of the copy. -/
theorem hasWord_gradedText (t : Bytes) (hne : word ≠ []) :
    hasWord (gradedText t) word = hasWord (asciiLower t) word := by
  have htrim : ∀ x : Bytes, hasWord (asciiLower (trim x)) word = hasWord (asciiLower x) word := by
    intro x
    obtain ⟨p, q, hp, hq, hx⟩ := trim_spec x
    conv_rhs => rw [hx]
    rw [asciiLower_append, asciiLower_append,
      hasWord_pad (wordless_lower (wordless_of_blank hp.bytes))
        (wordless_lower (wordless_of_blank hq.bytes)) hne]
  obtain ⟨k, hk⟩ := trimEndMatches_spec semicolon (trim t)
  rw [gradedText, htrim, ← htrim t]
  conv_rhs => rw [hk]
  rw [asciiLower_append, hasWord_wordless_right (wordless_lower (wordless_replicate k)) hne]

/-- Nothing is skipped in front of a letter. -/
theorem skipLeadingComments_letter {c : UInt8} (hc : isAsciiAlphabetic c = true) (rest : Bytes)
    (fuel : Nat) : skipLeadingComments fuel (c :: rest) = c :: rest := by
  have hne : ∀ x, isAsciiAlphabetic x = false → x ≠ c := by
    rintro x hx rfl
    rw [hc] at hx
    exact Bool.noConfusion hx
  cases fuel with
  | zero => rfl
  | succ fuel =>
    have h1 := hne dash (by decide)
    have h2 := hne ByteText.hash (by decide)
    have h3 := hne slash (by decide)
    simp [skipLeadingComments, List.isPrefixOf, h1, h2.symm, h3]

/-- The leading keyword: the letters of the leading word. -/
theorem LedBy.firstKeyword (hw : IsKeyword w) (h : LedBy w t) :
    firstKeyword t = w.takeWhile isAsciiAlphabetic := by
  obtain ⟨rest, hrest, hstart⟩ := h.trimStart_eq hw.toIsWord
  obtain ⟨c, v, rfl⟩ := List.exists_cons_of_ne_nil hw.nonempty
  rw [Sql.firstKeyword, hstart, List.cons_append, skipLeadingComments_letter (hw.letter c rfl),
    ← List.cons_append]
  refine takeWhile_append_of_stop fun x hx => ?_
  cases ha : isAsciiAlphabetic x with
  | false => rfl
  | true =>
    have := hrest x hx
    simp [isWordByte, isAsciiAlphanumeric, ha] at this

/-- The graders' keyword, in lower case. -/
theorem LedBy.gradedKeyword (hw : IsKeyword w) (h : LedBy w t) :
    Sql.firstKeyword (Sql.gradedText t) = (asciiLower w).takeWhile isAsciiAlphabetic := by
  obtain ⟨rest, hrest, hgraded⟩ := h.gradedText hw.toIsWord
  rw [hgraded]
  exact LedBy.firstKeyword hw.lower ⟨[], rest, Blank.nil, hrest, rfl⟩

theorem Wordless.of_suffix (h : Wordless b) (hab : a <:+ b) : Wordless a :=
  fun c hc => h c (hab.mem hc)

theorem trimStart_suffix (b : Bytes) : trimStart b <:+ b := by
  obtain ⟨p, -, hb, -⟩ := trimStart_spec b
  exact ⟨p, hb.symm⟩

theorem afterLine_suffix (b : Bytes) : afterLine b <:+ b :=
  (List.drop_suffix _ _).trans (List.dropWhile_suffix _)

theorem skipLeadingComments_suffix (fuel : Nat) (s : Bytes) : skipLeadingComments fuel s <:+ s := by
  induction fuel generalizing s with
  | zero => exact List.suffix_refl s
  | succ fuel ih =>
    rw [skipLeadingComments]
    split
    · exact (ih _).trans ((trimStart_suffix _).trans
        ((afterLine_suffix _).trans (List.drop_suffix _ _)))
    split
    · exact (ih _).trans ((trimStart_suffix _).trans
        ((afterLine_suffix _).trans (List.drop_suffix _ _)))
    split
    · split
      · exact (ih _).trans ((trimStart_suffix _).trans (List.drop_suffix _ _))
      · exact List.nil_suffix
    · exact List.suffix_refl s

/-- A text of no word has no leading keyword. -/
theorem firstKeyword_wordless (h : Wordless t) : firstKeyword t = [] := by
  have hs := h.of_suffix ((skipLeadingComments_suffix t.length (trimStart t)).trans
    (trimStart_suffix t))
  unfold firstKeyword
  cases hcons : skipLeadingComments t.length (trimStart t) with
  | nil => rfl
  | cons c rest =>
    have hc := hs c (by rw [hcons]; exact List.mem_cons_self ..)
    rw [List.takeWhile_cons, if_neg]
    intro ha
    simp [isWordByte, isAsciiAlphanumeric, ha] at hc

end RedDb.Sql
