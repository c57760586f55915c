import RedDb.Ai.Gate
import RedDb.Sql.Agreement
import RedDb.Sql.Grading
import RedDb.Sql.Leading

/-!
# RedDb — the two safety classifiers on one text

`is_read_only_select` lets a read-tier agent run a text unprompted; `assess` decides
whether the editor would ask first. The gate scans the whole stripped text, the
grader splits it and grades every statement, so they agree only if the splitter cuts
a text the gate accepts nowhere but at its trailing `;` (`Cutting`).

* `readShape_of_gate` — what the gate has checked, as a way to cut the copy;
* `read_ranges` — the splitter on such a text: one statement and nothing else;
* `agree_iff` — the classifiers agree exactly when the gate's `select` or
  `with` is the whole leading keyword, a DELIMITER line apart.
-/

namespace RedDb.Ai

open ByteText RedDb.Sql

/-! ## What the gate has checked -/

/-- The copy of a text the gate accepts: a run of blanks, the words the gate read
(`w` first), and a run of `;` among blanks. -/
structure ReadShape (copy lead w rest mid tail : Bytes) (k : Nat) : Prop where
  cut : copy = lead ++ ((w ++ rest) ++ (mid ++ (List.replicate k semicolon ++ tail)))
  lead : Blank lead
  word : IsKeyword w
  clear : StartsClear rest
  single : semicolon ∉ w ++ rest
  mid : Blank mid
  tail : Blank tail
  reads : ascii "select" <+: asciiLower w ∨ ascii "with" <+: asciiLower w
  writeless : ∀ v ∈ writeTokens ++ dangerousFns, hasWord (asciiLower (w ++ rest)) v = false

theorem asciiLower_takeWhile (b : Bytes) :
    asciiLower (b.takeWhile isWordByte) = (asciiLower b).takeWhile isWordByte := by
  unfold asciiLower
  rw [List.takeWhile_map]
  congr 2
  funext c
  exact (isWordByte_lower c).symm

/-- A keyword the lower-cased text begins with is one its leading word begins with. -/
theorem isPrefix_takeWhile {kw b : Bytes} (hkw : ∀ c ∈ kw, isWordByte c = true)
    (h : kw <+: asciiLower b) : kw <+: asciiLower (b.takeWhile isWordByte) := by
  obtain ⟨z, hz⟩ := h
  rw [asciiLower_takeWhile, ← hz, List.takeWhile_append_of_pos hkw]
  exact List.prefix_append _ _

theorem isKeyword_of_isPrefix {kw w : Bytes} (hkw : IsKeyword kw) (hw : ∀ c ∈ w, isWordByte c = true)
    (h : kw <+: asciiLower w) : IsKeyword w := by
  obtain ⟨z, hz⟩ := h
  cases w with
  | nil => exact absurd (List.append_eq_nil_iff.mp hz).1 hkw.nonempty
  | cons c w =>
    refine ⟨⟨List.cons_ne_nil c w, hw⟩, fun x hx => ?_⟩
    cases hx
    obtain ⟨y, kw', rfl⟩ := List.exists_cons_of_ne_nil hkw.nonempty
    have hy := hkw.letter y rfl
    have hcons : y :: (kw' ++ z) = toAsciiLower c :: asciiLower w := hz
    rw [(List.cons.inj hcons).1, isAsciiAlphabetic_lower] at hy
    exact hy

theorem selectWord : IsKeyword (ascii "select") := ⟨by decide, by rintro c ⟨⟩; rfl⟩

theorem withWord : IsKeyword (ascii "with") := ⟨by decide, by rintro c ⟨⟩; rfl⟩

/-- **What the gate has checked.** -/
theorem readShape_of_gate {sql : Bytes} {d : Dialect} (h : isReadOnlySelect sql d = true) :
    ∃ lead w rest mid tail k, ReadShape (stripNoise sql d) lead w rest mid tail k := by
  obtain ⟨p, tail, hp, htail, hcopy⟩ := trim_spec (stripNoise sql d)
  obtain ⟨k, hk⟩ := trimEndMatches_spec semicolon (trim (stripNoise sql d))
  obtain ⟨p', mid, hp', hmid, hcore⟩ := trim_spec (trimEndMatches semicolon (trim (stripNoise sql d)))
  unfold isReadOnlySelect at h
  generalize trim (trimEndMatches semicolon (trim (stripNoise sql d))) = core at h hcore
  simp only at h
  split at h
  · cases h
  split at h
  · cases h
  rename_i hsingle
  split at h
  · cases h
  rename_i hreads
  have hword : ∀ c ∈ core.takeWhile isWordByte, isWordByte c = true :=
    fun c hc => List.all_eq_true.mp List.all_takeWhile c hc
  have hreads' : ascii "select" <+: asciiLower (core.takeWhile isWordByte) ∨
      ascii "with" <+: asciiLower (core.takeWhile isWordByte) := by
    simp only [Bool.not_eq_true', Bool.not_eq_false, Bool.or_eq_true,
      List.isPrefixOf_iff_prefix] at hreads
    exact hreads.imp (isPrefix_takeWhile selectWord.bytes) (isPrefix_takeWhile withWord.bytes)
  refine ⟨p ++ p', core.takeWhile isWordByte, core.dropWhile isWordByte, mid, tail, k, ?_, ?_, ?_,
    ?_, ?_, hmid, htail, hreads', ?_⟩
  · rw [hcore] at hk
    rw [hk] at hcopy
    rw [hcopy, List.takeWhile_append_dropWhile]
    simp only [List.append_assoc]
  · exact hp.append hp'
  · exact hreads'.elim (isKeyword_of_isPrefix selectWord hword) (isKeyword_of_isPrefix withWord hword)
  · intro c hc
    have := List.head?_dropWhile_not isWordByte core
    rw [Option.mem_def.mp hc] at this
    simpa using this
  · rw [List.takeWhile_append_dropWhile]
    intro hmem
    exact hsingle (List.contains_iff_mem.mpr hmem)
  · rw [List.takeWhile_append_dropWhile]
    rw [Bool.not_eq_true', List.any_eq_false] at h
    exact fun v hv => Bool.eq_false_iff.mpr (h v hv)

/-! ## The splitter on such a text -/

section Splitter

variable {d : Dialect} {b : Bytes}

/-- The round of a word that is no directive walks over words and blanks. -/
theorem wordStep_walk {s : Scan} (hdir : onDirective b s = false) (hi : s.i < b.length) :
    (wordStep d b s).start = s.start ∧ (wordStep d b s).out = s.out ∧
      (wordStep d b s).delim = s.delim ∧ (wordStep d b s).fresh = false ∧
      Reaches d b b.length s.i (wordStep d b s).i := by
  have hle := Nat.le_of_lt hi
  rw [wordStep_eq hdir, Scan.afterWord]
  cases bodyMode b s with
  | true =>
    obtain ⟨h1, h2, h3⟩ := bodyWord_spec (d := d) (b := b) s.depth hle
    exact ⟨rfl, rfl, rfl, rfl,
      (plainSpan_walk h3 (Nat.le_trans (le_wordEnd _ _) h1) h2).1⟩
  | false =>
    exact ⟨rfl, rfl, rfl, rfl,
      (plainSpan_walk (plainSpan_word b s.i) (le_wordEnd _ _) (wordEnd_le hle)).1⟩

/-- Nothing but blanks is left of the range once it is stripped. -/
def Idle (d : Dialect) (b : Bytes) (r : Nat × Nat) : Prop :=
  Blank (stripNoise (slice b r.1 r.2) d)

/-- A cut at one of the trailing `;`. -/
structure TrailingCut (d : Dialect) (b front : Bytes) (p : Nat) : Prop where
  reached : Reaches d b b.length 0 p
  at' : b[p]? = some semicolon
  upto : ∃ m, (stripNoise b d).take p = front ++ List.replicate m semicolon

/-- The loop before its first cut. -/
structure Uncut (d : Dialect) (b : Bytes) (s : Scan) : Prop where
  delim : s.delim = .semicolon
  start : s.start = 0
  out : s.out = []
  reached : Reaches d b b.length 0 s.i
  head : s.fresh = true → statementHead d b 0 = statementHead d b s.i

/-- The loop after it: it cuts at the `;` still left, and there are no others. -/
structure Cut (d : Dialect) (b front tail : Bytes) (s : Scan) : Prop where
  delim : s.delim = .semicolon
  out : ∃ p rest, s.out = (0, p) :: rest ∧ TrailingCut d b front p ∧ ∀ r ∈ rest, r.1 = r.2
  reachedStart : Reaches d b b.length 0 s.start
  reached : Reaches d b b.length s.start s.i
  opened : b[s.start - 1]? = some semicolon
  left : ∃ j, (stripNoise b d).drop s.start = List.replicate j semicolon ++ tail ∧
    (0 < j → s.i = s.start ∧ s.depth = 0)

section Run

variable {front tail : Bytes} {k : Nat}
  (hcopy : stripNoise b d = front ++ (List.replicate k semicolon ++ tail))
  (hfront : semicolon ∉ front) (htail : Blank tail)
  (hdir : directiveAt b (statementHead d b 0) = false)

include hcopy hfront htail

/-- A live `;` is one of the trailing ones. -/
theorem trailing_of_live {p : Nat} (hreach : Reaches d b b.length 0 p)
    (hc : b[p]? = some semicolon) : TrailingCut d b front p ∧
      ∃ j, (stripNoise b d).drop (p + 1) = List.replicate j semicolon ++ tail := by
  have hlive := stripNoise_live hreach hc (noiseEnd_semicolon hc)
  have hget : (stripNoise b d)[p]? = some semicolon := by
    have := congrArg List.head? hlive
    rwa [List.head?_drop] at this
  rw [hcopy] at hget
  have hge : front.length ≤ p := by
    by_contra hlt
    rw [List.getElem?_append_left (by omega)] at hget
    exact hfront (List.mem_of_getElem? hget)
  rw [List.getElem?_append_right hge] at hget
  have hlt : p - front.length < k := by
    by_contra hge'
    rw [List.getElem?_append_right (by simpa using hge')] at hget
    exact absurd (htail.bytes _ (List.mem_of_getElem? hget)) (by decide)
  refine ⟨⟨hreach, hc, p - front.length, ?_⟩, k - (p - front.length) - 1, ?_⟩
  · rw [hcopy, List.take_append, List.take_of_length_le hge,
      List.take_append_of_le_length (by rw [List.length_replicate]; omega), List.take_replicate,
      Nat.min_eq_left (Nat.le_of_lt hlt)]
  · rw [hcopy, List.drop_append, List.drop_of_length_le (by omega), List.nil_append,
      List.drop_append_of_le_length (by rw [List.length_replicate]; omega), List.drop_replicate]
    congr 2
    omega

theorem Cut.of_cut {s : Scan} (hdelim : s.delim = .semicolon) (hdepth : s.depth = 0)
    (hreach : Reaches d b b.length 0 s.i) (hc : b[s.i]? = some semicolon)
    (hout : s.out = [] ∧ s.start = 0 ∨ s.start = s.i ∧
      ∃ p rest, s.out = (0, p) :: rest ∧ TrailingCut d b front p ∧ ∀ r ∈ rest, r.1 = r.2) :
    Cut d b front tail s.cut := by
  obtain ⟨hcut, j, hj⟩ := trailing_of_live hcopy hfront htail hreach hc
  have hlen : s.delim.token.length = 1 := by rw [hdelim]; rfl
  have hi := lt_of_getElem?_eq_some hc
  have hnext : Reaches d b b.length 0 (s.i + 1) := by
    have := hreach.trans (Reaches.next (d := d) (b := b) hi)
    rwa [lexNext, noiseEnd_semicolon hc, Option.getD_none] at this
  unfold Scan.cut
  rw [hlen]
  refine ⟨hdelim, ?_, hnext, Relation.ReflTransGen.refl, by simpa using hc, j, hj,
    fun _ => ⟨rfl, hdepth⟩⟩
  rcases hout with ⟨hout, hstart⟩ | ⟨hstart, p, rest, hout, hp, hrest⟩
  · exact ⟨s.i, [], by rw [hout, hstart]; rfl, hcut, List.forall_mem_nil _⟩
  refine ⟨p, rest ++ [(s.i, s.i)], by rw [hout, hstart]; rfl, hp, fun r hr => ?_⟩
  rcases List.mem_append.mp hr with hr | hr
  · exact hrest r hr
  · obtain rfl := List.mem_singleton.mp hr
    rfl

/-- A round before the first cut: the loop goes on, or cuts at a trailing `;`. -/
theorem Uncut.step (hdir : directiveAt b (statementHead d b 0) = false) {s : Scan}
    (h : Uncut d b s) (hi : s.i < b.length) :
    Uncut d b (scanStep d b s) ∨ Cut d b front tail (scanStep d b s) := by
  have hc : b[s.i]? = some b[s.i] := List.getElem?_eq_getElem hi
  cases hat : atDelimiter b s with
  | true =>
    right
    have hboth := hat
    rw [atDelimiter_semicolon h.delim hc] at hboth
    simp only [Bool.and_eq_true, beq_iff_eq] at hboth
    rw [scanStep_cut hat]
    exact Cut.of_cut hcopy hfront htail h.delim hboth.1 h.reached (hboth.2 ▸ hc)
      (Or.inl ⟨h.out, h.start⟩)
  | false =>
    left
    by_cases hw : isWordByte b[s.i] = true
    · have hnone : noiseEnd d b b.length s.i = none := noiseEnd_plain hc (by simp [isPlain, hw])
      have hstep : scanStep d b s = wordStep d b s := by
        rw [scanStep_eq hat hc, hnone]
        simp only [if_pos hw]
      have hdir' : onDirective b s = false := by
        cases hf : s.fresh with
        | false => simp [onDirective, hf]
        | true =>
          have hlead : isLead d b s.i = false := by simp [isLead, hc, hw]
          rw [h.head hf, statementHead_self hlead] at hdir
          simp [onDirective, hf, show eqIgnoreAsciiCase (slice b s.i (wordEnd b s.i))
            (ascii "delimiter") = false from hdir]
      obtain ⟨h1, h2, h3, h4, h5⟩ := wordStep_walk (d := d) hdir' hi
      rw [hstep]
      refine ⟨h3.trans h.delim, h1.trans h.start, h2.trans h.out, h.reached.trans h5, fun hf => ?_⟩
      rw [h4] at hf
      exact Bool.noConfusion hf
    · rw [scanStep_lexeme hat hc (Bool.eq_false_iff.mpr hw)]
      refine ⟨h.delim, h.start, h.out, h.reached.trans (Reaches.next hi), fun hf => ?_⟩
      obtain ⟨hf, hlead⟩ := Bool.and_eq_true_iff.mp hf
      exact (h.head hf).trans (statementHead_next hlead)

/-- A round after it: the next `;` of the run, or a lexeme of the blank rest. -/
theorem Cut.step {s : Scan} (h : Cut d b front tail s) (hi : s.i < b.length) :
    Cut d b front tail (scanStep d b s) := by
  have hc : b[s.i]? = some b[s.i] := List.getElem?_eq_getElem hi
  have hreach := h.reachedStart.trans h.reached
  obtain ⟨j, hj, hfirst⟩ := h.left
  rcases Nat.eq_zero_or_pos j with rfl | hpos
  · rw [List.replicate_zero, List.nil_append] at hj
    have hle := (h.reached.bounds (Nat.le_refl _)
      (h.reachedStart.bounds (Nat.le_refl _) (Nat.zero_le _)).2).1
    -- a live byte of the rest is blank
    have hblank : noiseEnd d b b.length s.i = none → isBlankByte b[s.i] = true := by
      intro hn
      have hlive := stripNoise_live hreach hc hn
      have hmem : b[s.i] ∈ (stripNoise b d).drop s.i := by
        rw [hlive]
        exact List.mem_cons_self ..
      have hsuf : (stripNoise b d).drop s.i <:+ (stripNoise b d).drop s.start := by
        rw [← Nat.add_sub_cancel' hle, ← List.drop_drop]
        exact List.drop_suffix _ _
      rw [hj] at hsuf
      exact htail.bytes _ (hsuf.mem hmem)
    have hw : isWordByte b[s.i] = false := by
      cases hw : isWordByte b[s.i] with
      | false => rfl
      | true =>
        have := hblank (noiseEnd_plain hc (by simp [isPlain, hw]))
        rw [isBlankByte_word hw] at this
        exact Bool.noConfusion this
    have hne : b[s.i] ≠ semicolon := by
      intro heq
      have := hblank (noiseEnd_semicolon (heq ▸ hc))
      rw [heq] at this
      cases this
    have hat : atDelimiter b s = false := by
      rw [atDelimiter_semicolon h.delim hc]
      simp [hne]
    rw [scanStep_lexeme hat hc hw]
    exact ⟨h.delim, h.out, h.reachedStart, h.reached.trans (Reaches.next hi), h.opened, 0, hj,
      fun h => absurd h (Nat.lt_irrefl 0)⟩
  · obtain ⟨hstart, hdepth⟩ := hfirst hpos
    obtain ⟨j, rfl⟩ : ∃ m, j = m + 1 := ⟨j - 1, by omega⟩
    have hsemi : b[s.i]? = some semicolon := by
      have hsame := strip_blanked (d := d) (b := b) b.length s.i b.length (Nat.le_refl _) (by omega)
      rw [← drop_stripNoise hreach, hstart, hj, ← hstart, slice, List.take_length,
        List.drop_eq_getElem_cons hi, List.replicate_succ, List.cons_append] at hsame
      rcases (List.forall₂_cons.mp hsame).1 with heq | heq | heq
      · rw [hc, heq]
      · cases heq
      · cases heq
    have hat : atDelimiter b s = true := by
      rw [atDelimiter_semicolon h.delim hsemi, hdepth]
      rfl
    rw [scanStep_cut hat]
    exact Cut.of_cut hcopy hfront htail h.delim hdepth hreach hsemi (Or.inr ⟨hstart.symm, h.out⟩)

/-- **One statement.** The first range holds the words the gate read; in the others
nothing is left once they are stripped. -/
theorem read_ranges (hdir : directiveAt b (statementHead d b 0) = false) :
    ∃ e others pad, statementRanges b d = (0, e) :: others ∧ (∀ r ∈ others, Idle d b r) ∧
      Wordless pad ∧ SameUpToDashes d (stripNoise (slice b 0 e) d) (front ++ pad) := by
  have hend : (scanRun d b .init).i = b.length := scanRun_done d b .init (Nat.zero_le _)
  have hrun : Uncut d b (scanRun d b .init) ∨ Cut d b front tail (scanRun d b .init) := by
    refine WhileLoop.Visits.inv (I := fun s => Uncut d b s ∨ Cut d b front tail s) ?_
      (scanRun_visits d b .init)
      (Or.inl ⟨rfl, rfl, rfl, Relation.ReflTransGen.refl, fun _ => rfl⟩)
    intro s hs h
    have hi : s.i < b.length := of_decide_eq_true hs
    rcases h with h | h
    · exact h.step hcopy hfront htail hdir hi
    · exact Or.inr (h.step hcopy hfront htail hi)
  rcases hrun with h | h
  · refine ⟨b.length, [], List.replicate k semicolon ++ tail, ?_, fun r hr => absurd hr
      List.not_mem_nil, (wordless_replicate k).append (wordless_of_blank htail.bytes), ?_⟩
    · unfold statementRanges
      simp only [h.out, h.start]
      rfl
    · refine Or.inl ?_
      rw [← hcopy, slice, List.take_length, List.drop_zero]
  · obtain ⟨p, rest, hout, hp, hrest⟩ := h.out
    obtain ⟨m, hm⟩ := hp.upto
    refine ⟨p, rest ++ [((scanRun d b .init).start, b.length)], List.replicate m semicolon, ?_, ?_,
      wordless_replicate m, ?_⟩
    · unfold statementRanges
      simp only [hout]
      rfl
    · intro r hr
      rcases List.mem_append.mp hr with hr | hr
      · unfold Idle
        rw [hrest r hr, slice_done (Nat.le_refl _)]
        exact Blank.nil
      obtain rfl := List.mem_singleton.mp hr
      obtain ⟨j, hj, hfirst⟩ := h.left
      obtain rfl : j = 0 := by
        by_contra hne
        obtain ⟨hstart, -⟩ := hfirst (by omega)
        rw [← hstart, hend, List.drop_of_length_le (by rw [length_stripNoise])] at hj
        have := congrArg List.length hj
        rw [List.length_append, List.length_replicate, List.length_nil] at this
        omega
      have hle := (h.reachedStart.bounds (Nat.le_refl _) (Nat.zero_le _)).2
      have hsame := stripNoise_slice h.reachedStart (hend ▸ h.reached)
        (opens_behind (Or.inr h.opened) hle) (fun c hc => by simp at hc)
      rw [slice, slice, List.take_length, ← length_stripNoise b d, List.take_length, hj,
        List.replicate_zero, List.nil_append] at hsame
      unfold Idle
      rw [slice, List.take_length]
      rcases hsame with heq | ⟨-, w, -, htl⟩
      · rw [heq]
        exact htail
      · -- a blank rest does not end in dashes
        have := htail.bytes dash (by rw [htl]; simp)
        cases this
    · have hstart : Reaches d b b.length 0 0 := Relation.ReflTransGen.refl
      have hsame := stripNoise_slice hstart hp.reached
        (by simp [Opens]) (breaks_at hp.at')
      rwa [slice, slice, List.drop_zero, List.drop_zero, hm] at hsame

end Run

end Splitter

/-! ## The two verdicts -/

/-- Whether anything but blanks is left of a range once it is stripped. -/
def executable (d : Dialect) (b : Bytes) (r : Nat × Nat) : Bool :=
  !(trim (stripNoise (slice b r.1 r.2) d)).isEmpty

/-- The grader's view of a text the gate accepts: exactly one statement with an
executable token in it, and nothing to ask the user about. -/
structure Agree (d : Dialect) (sql : Bytes) : Prop where
  one : ((statementRanges sql d).filter (executable d sql)).length = 1
  safe : (assess sql d).level = .safe

/-- The leading keyword of the text the gate reads. -/
def gateKeyword (sql : Bytes) (d : Dialect) : Bytes :=
  firstKeyword (gradedText (stripNoise sql d))

theorem executable_idle {d : Dialect} {b : Bytes} {r : Nat × Nat} (h : Idle d b r) :
    executable d b r = false := by
  unfold executable
  rw [trim_eq_nil_iff.mpr h]
  rfl

/-- A copy in which a word stands leaves more than blanks. -/
theorem LedBy.trim_ne_nil {w t : Bytes} (hw : IsWord w) (h : LedBy w t) : trim t ≠ [] := by
  obtain ⟨rest, -, htrim⟩ := h.trim hw
  rw [htrim]
  exact List.append_ne_nil_of_left_ne_nil hw.nonempty rest

theorem letters_ne_nil {w : Bytes} (hw : IsKeyword w) : w.takeWhile isAsciiAlphabetic ≠ [] := by
  obtain ⟨c, v, rfl⟩ := List.exists_cons_of_ne_nil hw.nonempty
  rw [List.takeWhile_cons, if_pos (hw.letter c rfl)]
  exact List.cons_ne_nil _ _

theorem takeWhile_isPrefix {kw w : Bytes} (hkw : ∀ c ∈ kw, isAsciiAlphabetic c = true)
    (h : kw <+: w) : kw <+: w.takeWhile isAsciiAlphabetic := by
  obtain ⟨z, rfl⟩ := h
  rw [List.takeWhile_append_of_pos hkw]
  exact List.prefix_append _ _

/-- The grade of a statement that begins as the gate wants it and names no verb that
writes. -/
theorem gradeOne_led {d : Dialect} {stmt w : Bytes} (hw : IsKeyword w)
    (hled : LedBy w (stripNoise stmt d))
    (hreads : ascii "select" <+: asciiLower w ∨ ascii "with" <+: asciiLower w)
    (hverbs : ∀ verb ∈ cteVerbs, hasWord (gradedText (stripNoise stmt d)) verb = false) :
    (gradeOne d stmt).1 = .safe ↔ (asciiLower w).takeWhile isAsciiAlphabetic = ascii "select" ∨
      (asciiLower w).takeWhile isAsciiAlphabetic = ascii "with" := by
  have hkey := hled.gradedKeyword hw
  have hfront := hreads.imp (takeWhile_isPrefix (List.all_eq_true.mp (by decide)))
    (takeWhile_isPrefix (List.all_eq_true.mp (by decide)))
  generalize (asciiLower w).takeWhile isAsciiAlphabetic = key at hkey hfront ⊢
  have hne : ∀ kw, ¬ ascii "select" <+: kw → ¬ ascii "with" <+: kw → key ≠ kw := by
    rintro kw h1 h2 rfl
    exact hfront.elim h1 h2
  have hexplain : ¬ (firstKeyword (gradedText (stripNoise stmt d)) == ascii "explain") = true := by
    rw [hkey, beq_iff_eq]
    exact hne _ (by decide) (by decide)
  rw [gradeOne, assessOne, if_neg hexplain]
  constructor
  · intro h
    rcases gradeKeyed_safe h with h | ⟨h, -⟩
    · rw [hkey, List.mem_cons, List.mem_cons, List.mem_singleton] at h
      rcases h with h | h | h
      · exact Or.inl h
      · exact absurd h (hne _ (by decide) (by decide))
      · exact absurd h (hne _ (by decide) (by decide))
    · exact Or.inr (hkey.symm.trans h)
  · intro h
    unfold gradeKeyed
    simp only [hkey]
    rcases h with rfl | rfl
    · rw [if_pos (by decide)]
    have hnone : [ascii "insert", ascii "update", ascii "delete", ascii "merge"].any
        (hasWord (gradedText (stripNoise stmt d))) = false := by
      rw [List.any_eq_false]
      exact fun verb hverb => Bool.eq_false_iff.mp (hverbs verb hverb)
    rw [if_neg (by decide), if_pos (by decide), hnone]
    rfl

/-- A range of nothing is no statement to grade. -/
theorem not_runnable_idle {d : Dialect} {b : Bytes} {r : Nat × Nat} (h : Idle d b r) :
    firstKeyword (stripNoise (trim (slice b r.1 r.2)) d) = [] := by
  obtain ⟨p, v, w, -, -, hcopy, hsame⟩ := stripNoise_trim (slice b r.1 r.2) d
  have hv : Wordless v := by
    intro c hc
    have hmem : c ∈ stripNoise (slice b r.1 r.2) d := by
      rw [hcopy]
      simp [hc]
    exact not_word_of_blank (h.bytes c hmem)
  refine firstKeyword_wordless ?_
  rcases hsame with heq | ⟨-, t, heq, rfl⟩
  · rw [heq]
    exact hv
  · rw [heq]
    exact Wordless.append (fun c hc => hv c (List.mem_append_left _ hc)) (by decide)

section Verdicts

variable {d : Dialect} {sql : Bytes}

/-- The statement that is graded, as the grader reads it. -/
theorem graded_of_shape {lead w rest mid tail pad x : Bytes} {k : Nat}
    (hshape : ReadShape (stripNoise sql d) lead w rest mid tail k) (hpad : Wordless pad)
    (hx : SameUpToDashes d (stripNoise x d) (lead ++ ((w ++ rest) ++ mid) ++ pad)) :
    LedBy w (stripNoise x d) ∧ LedBy w (stripNoise (trim x) d) ∧
      ∀ verb ∈ cteVerbs, hasWord (gradedText (stripNoise (trim x) d)) verb = false := by
  have hw := hshape.word.toIsWord
  have hmid := wordless_of_blank hshape.mid.bytes
  have hclear : StartsClear (rest ++ (mid ++ pad)) := hshape.clear.append (hmid.append hpad)
  have hled : LedBy w (stripNoise x d) :=
    LedBy.of_dashes hw hx ⟨lead, _, hshape.lead, hclear, by simp only [List.append_assoc]⟩
  obtain ⟨p, v, q, hp, hq, hcopy, hsame⟩ := stripNoise_trim x d
  have hled' : LedBy w v := LedBy.of_pad hw hp (wordless_of_blank hq) (hcopy ▸ hled)
  refine ⟨hled, LedBy.of_dashes hw hsame hled', fun verb hverb => ?_⟩
  have hne : verb ≠ [] := by
    rintro rfl
    exact absurd hverb (by decide)
  have hwriteless := hshape.writeless verb
    ((by decide : ∀ verb ∈ cteVerbs, verb ∈ writeTokens ++ dangerousFns) verb hverb)
  rw [hasWord_gradedText _ hne, hasWord_dashes hsame hne,
    ← hasWord_pad (wordless_lower (wordless_of_blank hp.bytes))
      (wordless_lower (wordless_of_blank hq)) hne, ← asciiLower_append, ← asciiLower_append,
    ← hcopy, hasWord_dashes hx hne, asciiLower_append, asciiLower_append,
    asciiLower_append (w ++ rest), List.append_assoc, List.append_assoc,
    hasWord_pad (wordless_lower (wordless_of_blank hshape.lead.bytes))
      (wordless_lower hmid |>.append (wordless_lower hpad)) hne]
  exact hwriteless

/-- **The two classifiers.** A text the gate accepts and no DELIMITER line opens is
one statement graded `safe` exactly when the word the gate took for `select` or
`with` is that keyword. -/
theorem agree_iff (h : isReadOnlySelect sql d = true)
    (hdir : directiveAt sql (statementHead d sql 0) = false) :
    Agree d sql ↔ gateKeyword sql d = ascii "select" ∨ gateKeyword sql d = ascii "with" := by
  obtain ⟨lead, w, rest, mid, tail, k, hshape⟩ := readShape_of_gate h
  have hcopy : stripNoise sql d =
      (lead ++ ((w ++ rest) ++ mid)) ++ (List.replicate k semicolon ++ tail) := by
    rw [hshape.cut]
    simp only [List.append_assoc]
  have hfront : semicolon ∉ lead ++ ((w ++ rest) ++ mid) := by
    intro hmem
    rcases List.mem_append.mp hmem with hmem | hmem
    · exact absurd (hshape.lead.bytes _ hmem) (by decide)
    rcases List.mem_append.mp hmem with hmem | hmem
    · exact hshape.single hmem
    · exact absurd (hshape.mid.bytes _ hmem) (by decide)
  obtain ⟨e, others, pad, hranges, hidle, hpad, hsame⟩ :=
    read_ranges hcopy hfront hshape.tail hdir
  obtain ⟨hled, hled', hverbs⟩ := graded_of_shape hshape hpad hsame
  have hw := hshape.word
  have hone : ((statementRanges sql d).filter (executable d sql)).length = 1 := by
    have hfirst : executable d sql (0, e) = true := by
      unfold executable
      simpa using LedBy.trim_ne_nil hw.toIsWord hled
    have hrest : others.filter (executable d sql) = [] := by
      rw [List.filter_eq_nil_iff]
      exact fun r hr => Bool.eq_false_iff.mp (executable_idle (hidle r hr))
    rw [hranges, List.filter_cons, if_pos hfirst, hrest]
    rfl
  have hkeyword : gateKeyword sql d = (asciiLower w).takeWhile isAsciiAlphabetic := by
    refine LedBy.gradedKeyword hw ⟨lead, rest ++ (mid ++ (List.replicate k semicolon ++ tail)),
      hshape.lead, ?_, by rw [hshape.cut]; simp only [List.append_assoc]⟩
    exact hshape.clear.append ((wordless_of_blank hshape.mid.bytes).append
      ((wordless_replicate k).append (wordless_of_blank hshape.tail.bytes)))
  have hgrade := gradeOne_led hw hled' hshape.reads hverbs
  have hsafe : (assess sql d).level = .safe ↔ (gradeOne d (trim (slice sql 0 e))).1 = .safe := by
    rw [assess_safe_iff]
    constructor
    · intro hall
      refine hall _ (List.mem_filter.mpr ⟨List.mem_filter.mpr ⟨?_, ?_⟩, ?_⟩)
      · exact List.mem_map.mpr ⟨(0, e), by rw [hranges]; exact List.mem_cons_self .., rfl⟩
      · have hne : trim (slice sql 0 e) ≠ [] := by
          intro hnil
          rw [hnil] at hled'
          exact LedBy.trim_ne_nil hw.toIsWord hled' rfl
        simpa using hne
      · rw [hled'.firstKeyword hw]
        simpa using letters_ne_nil hw
    · intro hfirst stmt hstmt
      obtain ⟨hsplit, hrun⟩ := List.mem_filter.mp hstmt
      obtain ⟨r, hr, rfl⟩ := List.mem_map.mp (List.mem_filter.mp hsplit).1
      rw [hranges] at hr
      rcases List.mem_cons.mp hr with rfl | hr
      · exact hfirst
      · rw [not_runnable_idle (hidle r hr)] at hrun
        cases hrun
  rw [hkeyword, ← hgrade, ← hsafe]
  exact ⟨fun h => h.safe, fun h => ⟨hone, h⟩⟩

end Verdicts

/-- A SELECT with a `;` in a literal, one behind it and a comment. -/
theorem literalSelect_agree :
    Agree .postgres (ascii "SELECT ';' -- a;\n;") ↔
      gateKeyword (ascii "SELECT ';' -- a;\n;") .postgres = ascii "select" ∨
        gateKeyword (ascii "SELECT ';' -- a;\n;") .postgres = ascii "with" :=
  agree_iff (by decide +kernel) (by decide +kernel)

/-- A word that only begins like SELECT, and a DELIMITER line behind an executable
comment: the gate lets both run and the grader has no safe statement for either. -/
theorem selectx_not_agree :
    (isReadOnlySelect (ascii "selectx 1") .generic = true ∧ ¬ Agree .generic (ascii "selectx 1")) ∧
      isReadOnlySelect (ascii "/*! SELECT 1 */ DELIMITER foo") .mySql = true ∧
        ¬ Agree .mySql (ascii "/*! SELECT 1 */ DELIMITER foo") := by
  refine ⟨⟨by decide, fun h => ?_⟩, by decide, fun h => ?_⟩
  · exact absurd h.safe (by decide)
  · exact absurd h.one (by decide)

end RedDb.Ai
