import RedDb.Sql.Split

/-!
# RedDb — the splitter and the stripper on one script

Two hand-written scanners read every script: the splitter cuts it, the stripper
blanks what the gates must not read. They see one lexical structure when the
script is cut exactly at the `;` the stripper leaves alive and each statement
strips to its part of the script's copy (`SameStructure`).

They do, as long as no statement is taken for a routine: a routine body keeps
its inner `;`, and `routine_ddl_at` reads any TRIGGER, PROCEDURE, FUNCTION or
EVENT within eight header words as one, an object's own name included.

* `sameStructure_iff` — exactly when the two agree;
* `createType_not_sameStructure` — a script without a routine on which they do not.
-/

namespace RedDb.Sql

open ByteText

/-! ## What the stripper says about the script -/

/-- The offsets of the byte `c`, the text starting at offset `base`. -/
@[grind =] def offsetsOf (c : UInt8) : Nat → Bytes → List Nat
  | _, [] => []
  | base, x :: rest => if x == c then base :: offsetsOf c (base + 1) rest
    else offsetsOf c (base + 1) rest

/-- The stretches of a text of length `n` between the cuts, from `lo` on. -/
@[grind =] def stretches (n : Nat) : Nat → List Nat → List (Nat × Nat)
  | lo, [] => [(lo, n)]
  | lo, p :: cuts => (lo, p) :: stretches n (p + 1) cuts

/-- The stretches between the `;` that survive stripping. -/
def semicolonStretches (b : Bytes) (d : Dialect) : List (Nat × Nat) :=
  stretches b.length 0 (offsetsOf semicolon 0 (stripNoise b d))

/-- The first offset from `i` on that neither a blank nor a comment covers. -/
def statementHead (d : Dialect) (b : Bytes) (i : Nat) : Nat :=
  WhileLoop.run (isLead d b) (lexNext d b b.length) b.length i

/-- Whether the word at `i` is `DELIMITER`. -/
def directiveAt (b : Bytes) (i : Nat) : Bool :=
  eqIgnoreAsciiCase (slice b i (wordEnd b i)) (ascii "delimiter")

/-- One lexeme of a routine body: its end, and the blocks open after it. -/
def bodyStep (d : Dialect) (b : Bytes) (p : Nat × Nat) : Nat × Nat :=
  if (b[p.1]?).any isWordByte then bodyWord d b p.1 p.2 else (lexNext d b b.length p.1, p.2)

/-- A body is read up to the next `;`. -/
def inBody (b : Bytes) (p : Nat × Nat) : Bool :=
  decide (p.1 < b.length) && b[p.1]? != some semicolon

/-- How many blocks the stretch from `i` to the next `;` opens and does not close. -/
def blocksLeftOpen (d : Dialect) (b : Bytes) (i : Nat) : Nat :=
  (WhileLoop.run (inBody b) (bodyStep d b) b.length (i, 0)).2

/-- No statement of the script is a `DELIMITER` directive. -/
def NoDirective (d : Dialect) (b : Bytes) : Prop :=
  ∀ r ∈ semicolonStretches b d, directiveAt b (statementHead d b r.1) = false

/-- No executable comment opens outside literals and comments. -/
def NoExecutableComment (d : Dialect) (b : Bytes) : Prop :=
  ∀ i, Reaches d b b.length 0 i → d.executableCommentAt b i = false

/-- The kinds of object a definition may be about. -/
def objectKinds : List Bytes :=
  [ascii "trigger", ascii "procedure", ascii "function", ascii "event", ascii "table",
    ascii "view", ascii "index", ascii "database", ascii "schema", ascii "sequence", ascii "user",
    ascii "role", ascii "type", ascii "domain", ascii "extension", ascii "aggregate",
    ascii "operator", ascii "collation", ascii "cast", ascii "rule", ascii "policy",
    ascii "server", ascii "publication", ascii "subscription", ascii "language",
    ascii "tablespace", ascii "dictionary"]

/-- Whether a statement's words declare a routine: CREATE, ALTER or DROP, and the
first kind of object they name is a routine's. -/
def declaresRoutine (words : List Bytes) : Bool :=
  match words with
  | [] => false
  | verb :: rest =>
    [ascii "create", ascii "alter", ascii "drop"].contains verb &&
      match rest.find? objectKinds.contains with
      | none => false
      | some kind => (objectKinds.take 4).contains kind

/-- The lower-cased words of a text. -/
def wordsOf (b : Bytes) : List Bytes :=
  ((asciiLower b).splitOnP fun c => !isWordByte c).filter fun w => !w.isEmpty

/-- No statement of the script declares a routine. -/
def NoRoutine (d : Dialect) (b : Bytes) : Prop :=
  ∀ r ∈ semicolonStretches b d,
    declaresRoutine (wordsOf (slice (stripNoise b d) r.1 r.2)) = false

/-- **One lexical structure.** The script is cut exactly at the `;` that survive
stripping, and each range strips to its part of the script's copy. -/
def SameStructure (d : Dialect) (b : Bytes) : Prop :=
  statementRanges b d = semicolonStretches b d ∧
    ∀ r ∈ statementRanges b d,
      SameUpToDashes d (stripNoise (slice b r.1 r.2) d) (slice (stripNoise b d) r.1 r.2)

/-- Every stretch that ends at a `;` and reads as a routine closes the blocks it
opens. -/
def BodiesClosed (d : Dialect) (b : Bytes) : Prop :=
  ∀ r ∈ (semicolonStretches b d).dropLast,
    routineDdlAt b (statementHead d b r.1) = true → blocksLeftOpen d b r.1 = 0

/-! ## Live semicolons -/

variable {b : Bytes} {d : Dialect} {i : Nat}

theorem noiseEnd_semicolon {stop : Nat}
    (hc : b[i]? = some semicolon) : noiseEnd d b stop i = none := by
  simp [noiseEnd, hc, Dialect.dashCommentAt, isQuote, semicolon, singleQuote, doubleQuote,
    backtick, dash, ByteText.hash, slash, dollar]

/-- No word goes on across a `;`. -/
theorem opens_behind {lo : Nat} (hlo : lo = 0 ∨ b[lo - 1]? = some semicolon)
    (hle : lo ≤ b.length) : Opens (b.take lo) := by
  intro c hlast
  rw [List.getLast?_eq_getElem?, List.length_take, Nat.min_eq_left hle] at hlast
  rcases hlo with rfl | hlo
  · simp at hlast
  obtain ⟨hlt, -⟩ := List.getElem?_eq_some_iff.mp hlast
  rw [List.length_take, Nat.min_eq_left hle] at hlt
  rw [List.getElem?_take_of_lt hlt, hlo] at hlast
  obtain rfl := Option.some.inj hlast
  decide

theorem breaks_at {hi : Nat} (h : b[hi]? = some semicolon) : Breaks (b.drop hi) := by
  intro c hc
  rw [List.head?_drop, h] at hc
  obtain rfl := Option.some.inj hc
  decide

theorem offsetsOf_append (c : UInt8) (base : Nat) (u v : Bytes) :
    offsetsOf c base (u ++ v) = offsetsOf c base u ++ offsetsOf c (base + u.length) v := by
  induction u generalizing base with
  | nil => rfl
  | cons x u ih =>
    simp only [List.cons_append, offsetsOf, List.length_cons, ih]
    split <;> simp [Nat.add_assoc, Nat.add_comm 1]

theorem offsetsOf_blankSpan (base : Nat) (b : Bytes) (i j : Nat) :
    offsetsOf semicolon base (blankSpan b i j) = [] := by
  unfold blankSpan
  induction slice b i j generalizing base with
  | nil => rfl
  | cons x u ih =>
    rw [List.map_cons, offsetsOf, ih]
    by_cases hx : (x == newline) = true
    · rw [if_pos hx, if_neg (by decide)]
    · rw [if_neg hx, if_neg (by decide)]

/-- The first stretch starts where the stretches do. -/
theorem exists_mem_stretches (n lo : Nat) (cuts : List Nat) :
    ∃ hi, (lo, hi) ∈ stretches n lo cuts := by
  cases cuts with
  | nil => exact ⟨n, List.mem_cons_self⟩
  | cons p cuts => exact ⟨p, List.mem_cons_self⟩

/-- The `;` that are live from `i` on. -/
def semis (d : Dialect) (b : Bytes) (i : Nat) : List Nat :=
  offsetsOf semicolon i (strip d b i b.length)

section Semis

variable {d : Dialect} {b : Bytes} {i : Nat} {c : UInt8} (hc : b[i]? = some c)
  (hx : d.executableCommentAt b i = false)

include hc hx

theorem semis_next (hne : c ≠ semicolon) : semis d b i = semis d b (lexNext d b b.length i) := by
  have hi := lt_of_getElem?_eq_some hc
  unfold semis lexNext
  cases he : noiseEnd d b b.length i with
  | some e =>
    have hb := noiseEnd_bounds hi (Nat.le_refl _) he
    rw [strip_noise hi (Nat.le_refl _) hx he, offsetsOf_append, offsetsOf_blankSpan,
      length_blankSpan hb.2, List.nil_append, Option.getD_some,
      Nat.add_sub_cancel' (Nat.le_of_lt hb.1)]
  | none =>
    rw [strip_live hi (Nat.le_refl _) hc hx he, offsetsOf, Option.getD_none]
    simp [hne]

omit hc hx in
/-- A live `;` is a cut. -/
theorem semis_semicolon (hc : b[i]? = some semicolon) :
    semis d b i = i :: semis d b (i + 1) ∧ lexNext d b b.length i = i + 1 := by
  have hi := lt_of_getElem?_eq_some hc
  have hn : noiseEnd d b b.length i = none := by
    simp [noiseEnd, hc, Dialect.dashCommentAt, isQuote, semicolon, singleQuote, doubleQuote,
      backtick, dash, ByteText.hash, slash, dollar]
  refine ⟨?_, by rw [lexNext, hn, Option.getD_none]⟩
  unfold semis
  rw [strip_live hi (Nat.le_refl _) hc (exec_of_ne_slash hc (by decide)) hn, offsetsOf]
  simp

end Semis

/-- Over blanks and words the scan walks byte by byte and meets no `;`. -/
theorem plainSpan_walk {j : Nat} (h : PlainSpan b i j) (hij : i ≤ j)
    (hj : j ≤ b.length) : Reaches d b b.length i j ∧ semis d b i = semis d b j := by
  induction hij with
  | refl => exact ⟨Relation.ReflTransGen.refl, rfl⟩
  | @step k hik ih =>
    have hik : i ≤ k := hik
    obtain ⟨hreach, hsemis⟩ := ih (fun x hx hlt => h x hx (by omega)) (by omega)
    obtain ⟨c, hc, hp⟩ := h k hik (by omega)
    obtain ⟨-, -, -, hslash, -, hsemi, -⟩ := isPlain_spec hp
    have hnext : lexNext d b b.length k = k + 1 := lexNext_plain hc hp
    have hstep : Reaches d b b.length k (k + 1) := by
      have := Reaches.next (d := d) (b := b) (show k < b.length by omega)
      rwa [hnext] at this
    refine ⟨hreach.trans hstep, ?_⟩
    rw [hsemis, semis_next hc (exec_of_ne_slash hc hslash) hsemi, hnext]

/-! ## Heads and bodies -/

theorem statementHead_next (h : isLead d b i = true) :
    statementHead d b i = statementHead d b (lexNext d b b.length i) := by
  refine WhileLoop.run_eq_of_visits (μ := fun k => b.length - k) ?_ (WhileLoop.Visits.single h)
    (Nat.sub_le _ _) (Nat.sub_le _ _)
  intro k hk
  have hlt := lt_of_isLead hk
  have := lexNext_bounds (d := d) (Nat.le_refl b.length) hlt
  omega

theorem statementHead_self (h : isLead d b i = false) : statementHead d b i = i :=
  WhileLoop.run_of_done _ h

theorem body_measure (d : Dialect) (b : Bytes) (p : Nat × Nat) (h : inBody b p = true) :
    b.length - (bodyStep d b p).1 < b.length - p.1 := by
  obtain ⟨i, depth⟩ := p
  have hi : i < b.length := of_decide_eq_true (Bool.and_eq_true_iff.mp h).1
  have hc : b[i]? = some b[i] := List.getElem?_eq_getElem hi
  unfold bodyStep
  simp only [hc, Option.any_some]
  split
  · rename_i hw
    have hlt := lt_wordEnd hc hw
    have := (bodyWord_spec (d := d) (b := b) depth (Nat.le_of_lt hi)).1
    omega
  · have := lexNext_bounds (d := d) (Nat.le_refl b.length) hi
    omega

variable {c : UInt8}

theorem inBody_of {depth : Nat} (hc : b[i]? = some c)
    (hne : c ≠ semicolon) : inBody b (i, depth) = true := by
  unfold inBody
  rw [hc]
  simp [lt_of_getElem?_eq_some hc, hne]

/-- The blocks left open are those open where the body is read to its `;`. -/
theorem blocksLeftOpen_eq {j depth : Nat}
    (h : WhileLoop.Visits (inBody b) (bodyStep d b) (i, 0) (j, depth))
    (hj : b[j]? = some semicolon) : blocksLeftOpen d b i = depth := by
  unfold blocksLeftOpen
  rw [WhileLoop.run_eq_of_visits (μ := fun p => b.length - p.1) (body_measure d b) h
    (Nat.sub_le _ _) (Nat.sub_le _ _), WhileLoop.run_of_done _ (by simp [inBody, hj])]

/-! ## The loop invariant -/

/-- What is known of a range already cut. -/
structure Closed (d : Dialect) (b : Bytes) (r : Nat × Nat) : Prop where
  reachedStart : Reaches d b b.length 0 r.1
  reachedEnd : Reaches d b b.length r.1 r.2
  opened : r.1 = 0 ∨ b[r.1 - 1]? = some semicolon
  ended : b[r.2]? = some semicolon
  balanced : routineDdlAt b (statementHead d b r.1) = true → blocksLeftOpen d b r.1 = 0

/-- The loop so far has cut at every live `;` and nowhere else. -/
structure Steady (d : Dialect) (b : Bytes) (s : Scan) : Prop where
  delim : s.delim = .semicolon
  reachedStart : Reaches d b b.length 0 s.start
  reached : Reaches d b b.length s.start s.i
  le : s.i ≤ b.length
  opened : s.start = 0 ∨ b[s.start - 1]? = some semicolon
  ranges : s.out ++ stretches b.length s.start (semis d b s.i) = semicolonStretches b d
  head : s.fresh = true →
    s.depth = 0 ∧ s.compound = false ∧ statementHead d b s.start = statementHead d b s.i
  mode : s.fresh = false → s.compound = routineDdlAt b (statementHead d b s.start)
  flat : s.compound = false → s.depth = 0
  body : s.fresh = true ∨ s.compound = true →
    WhileLoop.Visits (inBody b) (bodyStep d b) (s.start, 0) (s.i, s.depth)
  before : ∀ r ∈ s.out, r.2 < s.start
  closed : ∀ r ∈ s.out, Closed d b r

section Invariant

variable {d : Dialect} {b : Bytes} {s : Scan}

theorem atDelimiter_semicolon (hdelim : s.delim = .semicolon)
    (hc : b[s.i]? = some c) : atDelimiter b s = (s.depth == 0 && c == semicolon) := by
  have hi := lt_of_getElem?_eq_some hc
  obtain rfl : b[s.i] = c := by
    rw [List.getElem?_eq_getElem hi] at hc
    exact Option.some.inj hc
  unfold atDelimiter
  rw [hdelim, List.drop_eq_getElem_cons hi]
  simp only [Delimiter.semicolon, List.isPrefixOf, Bool.and_true, Bool.beq_comm (a := semicolon)]

theorem steady_init : Steady d b .init where
  delim := rfl
  reachedStart := Relation.ReflTransGen.refl
  reached := Relation.ReflTransGen.refl
  le := Nat.zero_le _
  opened := Or.inl rfl
  ranges := by
    rw [semicolonStretches, stripNoise_eq]
    rfl
  head _ := ⟨rfl, rfl, rfl⟩
  mode h := by cases h
  flat _ := rfl
  body _ := Relation.ReflTransGen.refl
  before r hr := by cases hr
  closed r hr := by cases hr

theorem Steady.start_le (h : Steady d b s) : s.start ≤ s.i :=
  (h.reached.bounds (Nat.le_refl _)
    (h.reachedStart.bounds (Nat.le_refl _) (Nat.zero_le _)).2).1

theorem Steady.reached_zero (h : Steady d b s) : Reaches d b b.length 0 s.i :=
  h.reachedStart.trans h.reached

/-- A steady loop that stands on a live `;` stands on a cut of the script. -/
theorem Steady.mem_cuts (h : Steady d b s) (hc : b[s.i]? = some semicolon) :
    (s.start, s.i) ∈ (semicolonStretches b d).dropLast := by
  rw [← h.ranges, (semis_semicolon hc).1, stretches]
  rw [List.dropLast_append_of_ne_nil (List.cons_ne_nil _ _)]
  apply List.mem_append_right
  cases hs : stretches b.length (s.i + 1) (semis d b (s.i + 1)) with
  | nil =>
    obtain ⟨hi, hmem⟩ := exists_mem_stretches b.length (s.i + 1) (semis d b (s.i + 1))
    rw [hs] at hmem
    cases hmem
  | cons q rest => simp

/-- The current statement is a stretch of the script. -/
theorem Steady.start_mem (h : Steady d b s) : ∃ hi, (s.start, hi) ∈ semicolonStretches b d := by
  obtain ⟨hi, hmem⟩ := exists_mem_stretches b.length s.start (semis d b s.i)
  exact ⟨hi, h.ranges ▸ List.mem_append_right _ hmem⟩

/-- A statement's head that stands on anything but a word declares nothing. -/
theorem Steady.head_not_routine (h : Steady d b s) (hf : s.fresh = true)
    (hc : b[s.i]? = some c) (hlead : isLead d b s.i = false) (hw : isWordByte c = false) :
    routineDdlAt b (statementHead d b s.start) = false := by
  rw [(h.head hf).2.2, statementHead_self hlead]
  refine routineDdlAt_of_not_plain hc ?_
  cases hb : isAsciiWhitespace c with
  | false => simp [isPlain, hw, hb]
  | true =>
    obtain ⟨h1, -, -, -, h5, -, -⟩ := isPlain_spec (c := c) (by simp [isPlain, hb])
    rw [isLead, hc] at hlead
    simp [opensLiteral, h1, h5, hw, hb] at hlead

/-- The round that cuts. -/
theorem Steady.cut (h : Steady d b s) (hc : b[s.i]? = some semicolon) (hdepth : s.depth = 0) :
    Steady d b s.cut := by
  have hi := lt_of_getElem?_eq_some hc
  obtain ⟨hsemis, hnext⟩ := semis_semicolon (d := d) hc
  have hlen : s.delim.token.length = 1 := by rw [h.delim]; rfl
  have hstep : Reaches d b b.length s.i (s.i + 1) := by
    have := Reaches.next (d := d) (b := b) hi
    rwa [hnext] at this
  have hlead : isLead d b s.i = false := by
    rw [isLead, hc, noiseEnd_semicolon hc]
    simp [isAsciiWhitespace, semicolon]
  unfold Scan.cut
  rw [hlen]
  refine ⟨h.delim, h.reached_zero.trans hstep, Relation.ReflTransGen.refl, hi,
    Or.inr (by simpa using hc), ?_, fun _ => ⟨hdepth, rfl, rfl⟩, fun h => Bool.noConfusion h,
    fun _ => hdepth, fun _ => ?_, ?_, ?_⟩
  · rw [← h.ranges, hsemis, stretches]
    simp
  · rw [hdepth]
  · intro r hr
    rcases List.mem_append.mp hr with hr | hr
    · have := h.before r hr
      have := h.start_le
      simp only
      omega
    · obtain rfl := List.mem_singleton.mp hr
      simp
  · intro r hr
    rcases List.mem_append.mp hr with hr | hr
    · exact h.closed r hr
    obtain rfl := List.mem_singleton.mp hr
    refine ⟨h.reachedStart, h.reached, h.opened, hc, fun hroutine => ?_⟩
    cases hf : s.fresh with
    | true =>
      rw [h.head_not_routine hf hc hlead (by decide)] at hroutine
      cases hroutine
    | false =>
      have hbody := h.body (Or.inr (by rw [h.mode hf, hroutine]))
      rw [blocksLeftOpen_eq hbody hc, hdepth]

/-- The round of a lexeme that is no word. -/
theorem Steady.lexeme (h : Steady d b s) (hx : d.executableCommentAt b s.i = false)
    (hc : b[s.i]? = some c) (hne : c ≠ semicolon) (hw : isWordByte c = false) : Steady d b
      { s with i := lexNext d b b.length s.i, fresh := s.fresh && isLead d b s.i } := by
  have hi := lt_of_getElem?_eq_some hc
  refine ⟨h.delim, h.reachedStart, h.reached.trans (Reaches.next hi),
    (lexNext_bounds (Nat.le_refl _) hi).2, h.opened, ?_, ?_, ?_, h.flat, ?_, h.before, h.closed⟩
  · simp only [← semis_next hc hx hne]
    exact h.ranges
  · intro hf
    obtain ⟨hf, hlead⟩ := Bool.and_eq_true_iff.mp hf
    obtain ⟨h1, h2, h3⟩ := h.head hf
    exact ⟨h1, h2, h3.trans (statementHead_next hlead)⟩
  · intro hf
    cases hfresh : s.fresh with
    | false => exact h.mode hfresh
    | true =>
      have hlead : isLead d b s.i = false := by simpa [hfresh] using hf
      simp only [(h.head hfresh).2.1, h.head_not_routine hfresh hc hlead hw]
  · intro hor
    have hor' : s.fresh = true ∨ s.compound = true := by
      rcases hor with hf | hm
      · exact Or.inl (Bool.and_eq_true_iff.mp hf).1
      · exact Or.inr hm
    refine (h.body hor').tail ⟨?_, ?_⟩
    · exact inBody_of hc hne
    · simp [bodyStep, hc, hw]

/-- The round of a word. -/
theorem Steady.word (h : Steady d b s) (hdir : onDirective b s = false)
    (hc : b[s.i]? = some c) (hw : isWordByte c = true) : Steady d b (wordStep d b s) := by
  have hi := lt_of_getElem?_eq_some hc
  have hle := Nat.le_of_lt hi
  have hne : c ≠ semicolon := (isPlain_spec (by simp [isPlain, hw])).2.2.2.2.2.1
  have hlead : isLead d b s.i = false := by simp [isLead, hc, hw]
  have hmode : bodyMode b s = routineDdlAt b (statementHead d b s.start) := by
    unfold bodyMode
    cases hf : s.fresh with
    | true => simp [(h.head hf).2.2, statementHead_self hlead]
    | false => simpa using h.mode hf
  rw [wordStep_eq hdir, Scan.afterWord]
  cases hm : bodyMode b s with
  | true =>
    rw [if_pos rfl]
    obtain ⟨h1, h2, h3⟩ := bodyWord_spec (d := d) (b := b) s.depth hle
    have hlt := lt_wordEnd hc hw
    obtain ⟨hreach, hsemis⟩ := plainSpan_walk (d := d) h3 (by omega) h2
    refine ⟨h.delim, h.reachedStart, h.reached.trans hreach, h2, h.opened, ?_,
      fun h => Bool.noConfusion h, fun _ => hm.symm.trans hmode, fun h => Bool.noConfusion h, fun _ => ?_,
      h.before, h.closed⟩
    · simp only [← hsemis]
      exact h.ranges
    · have hor : s.fresh = true ∨ s.compound = true := by
        cases hf : s.fresh with
        | true => exact Or.inl rfl
        | false =>
          rw [bodyMode, hf] at hm
          exact Or.inr hm
      refine (h.body hor).tail ⟨?_, ?_⟩
      · exact inBody_of hc hne
      · simp [bodyStep, hc, hw]
  | false =>
    rw [if_neg (by decide)]
    have hlt := lt_wordEnd hc hw
    have hwe := wordEnd_le hle
    obtain ⟨hreach, hsemis⟩ := plainSpan_walk (d := d) (plainSpan_word b s.i) (by omega) hwe
    refine ⟨h.delim, h.reachedStart, h.reached.trans hreach, hwe, h.opened, ?_,
      fun h => Bool.noConfusion h, fun _ => hm.symm.trans hmode, fun _ => ?_, fun hor => ?_,
      h.before, h.closed⟩
    · simp only [← hsemis]
      exact h.ranges
    · cases hf : s.fresh with
      | true => exact (h.head hf).1
      | false =>
        rw [bodyMode, hf] at hm
        exact h.flat hm
    · rcases hor with hor | hor
      · cases hor
      · cases hor

/-- **The step.** Off the `;` of an open block, a round keeps the loop steady. -/
theorem Steady.step (hdir : NoDirective d b) (hexec : NoExecutableComment d b)
    (h : Steady d b s) (hi : s.i < b.length)
    (hopen : b[s.i]? = some semicolon → s.depth = 0) : Steady d b (scanStep d b s) := by
  have hc : b[s.i]? = some b[s.i] := List.getElem?_eq_getElem hi
  by_cases hsemi : b[s.i] = semicolon
  · rw [hsemi] at hc
    have hat : atDelimiter b s = true := by rw [atDelimiter_semicolon h.delim hc, hopen hc]; rfl
    rw [scanStep_cut hat]
    exact h.cut hc (hopen hc)
  have hat : atDelimiter b s = false := by rw [atDelimiter_semicolon h.delim hc]; simp [hsemi]
  have hx := hexec s.i h.reached_zero
  cases hw : isWordByte b[s.i] with
  | false =>
    rw [scanStep_lexeme hat hc hw]
    exact h.lexeme hx hc hsemi hw
  | true =>
    have hn : noiseEnd d b b.length s.i = none := noiseEnd_plain hc (by simp [isPlain, hw])
    rw [scanStep_eq hat hc, hn]
    simp only [if_pos hw]
    refine h.word ?_ hc hw
    cases hf : s.fresh with
    | false => simp [onDirective, hf]
    | true =>
      obtain ⟨hi', hmem⟩ := h.start_mem
      have hd := hdir _ hmem
      rw [(h.head hf).2.2, statementHead_self (by simp [isLead, hc, hw])] at hd
      rw [onDirective, hf, Bool.true_and]
      exact hd

/-- Closed bodies leave no block open at a `;`. -/
theorem Steady.depth_of_bodiesClosed (h : Steady d b s) (hb : BodiesClosed d b)
    (hc : b[s.i]? = some semicolon) : s.depth = 0 := by
  cases hm : s.compound with
  | false => exact h.flat hm
  | true =>
    cases hf : s.fresh with
    | true => exact (h.head hf).1
    | false =>
      rw [← blocksLeftOpen_eq (h.body (Or.inr hm)) hc]
      exact hb _ (h.mem_cuts hc) ((h.mode hf).symm.trans hm)

/-- A script cut at all its live `;` leaves no block open at one: the loop would
have passed it for good. -/
theorem Steady.depth_of_ranges (h : Steady d b s) (hv : ScanVisits d b .init s)
    (heq : statementRanges b d = semicolonStretches b d) (hc : b[s.i]? = some semicolon) :
    s.depth = 0 := by
  by_contra hdepth
  have hi := lt_of_getElem?_eq_some hc
  have hat : atDelimiter b s = false := by rw [atDelimiter_semicolon h.delim hc]; simp [hdepth]
  have hstep : ScanVisits d b s (scanStep d b s) := WhileLoop.Visits.single (decide_eq_true hi)
  have hfinal := scanRun_of_visits (hv.trans hstep)
  have hmem : (s.start, s.i) ∈ (scanRun d b .init).out := by
    have := h.mem_cuts hc
    rwa [← heq, statementRanges, List.dropLast_concat] at this
  rw [hfinal] at hmem
  have hlt := (scanStep_bounds (d := d) hi).1
  rcases (scanRun_visits d b (scanStep d b s)).out.2 _ hmem with hr | hr
  · rw [scanStep_out hat] at hr
    have := h.before _ hr
    have := h.start_le
    simp only at *
    omega
  · simp only at hr
    omega

end Invariant

section Scripts

variable {d : Dialect} {b : Bytes}

/-- The run: if no round stands on the `;` of an open block, all are steady. -/
theorem steady_of_visits (hdir : NoDirective d b) (hexec : NoExecutableComment d b)
    (hopen : ∀ s, ScanVisits d b .init s → Steady d b s → b[s.i]? = some semicolon → s.depth = 0)
    {s : Scan} (hv : ScanVisits d b .init s) : Steady d b s := by
  induction hv with
  | refl => exact steady_init
  | tail hv hr ih =>
    obtain ⟨hlt, rfl⟩ := hr
    exact ih.step hdir hexec (of_decide_eq_true hlt) (hopen _ hv ih)

/-- A run that stays steady to its end sees what the stripper sees. -/
theorem sameStructure_of_steady (h : Steady d b (scanRun d b .init)) : SameStructure d b := by
  have hend : (scanRun d b .init).i = b.length := scanRun_done d b .init (Nat.zero_le _)
  have hranges : statementRanges b d = semicolonStretches b d := by
    have hnone : semis d b b.length = [] := by
      rw [semis, strip_done (Nat.le_refl _), offsetsOf]
    rw [← h.ranges, hend, hnone]
    rfl
  refine ⟨hranges, fun r hr => ?_⟩
  have hle := Nat.le_refl b.length
  rw [statementRanges] at hr
  rcases List.mem_append.mp hr with hr | hr
  · obtain ⟨h1, h2, h3, h4, -⟩ := h.closed r hr
    exact stripNoise_slice h1 h2 (opens_behind h3 (h1.bounds hle (Nat.zero_le _)).2)
      (breaks_at h4)
  obtain rfl := List.mem_singleton.mp hr
  have hreached := h.reached
  rw [hend] at hreached
  refine stripNoise_slice h.reachedStart hreached
    (opens_behind h.opened (h.reachedStart.bounds hle (Nat.zero_le _)).2) ?_
  intro c hc
  simp at hc

/-- **When the two scanners agree.** On a script without a `DELIMITER` directive
and without an executable comment: exactly when every stretch that reads as a
routine closes its blocks. -/
theorem sameStructure_iff (hdir : NoDirective d b) (hexec : NoExecutableComment d b) :
    SameStructure d b ↔ BodiesClosed d b := by
  constructor
  · intro hsame r hr hroutine
    have hsteady := steady_of_visits hdir hexec
      (fun s hv h hc => h.depth_of_ranges hv hsame.1 hc) (scanRun_visits d b .init)
    rw [← hsame.1, statementRanges, List.dropLast_concat] at hr
    exact (hsteady.closed r hr).balanced hroutine
  · intro hb
    exact sameStructure_of_steady (steady_of_visits hdir hexec
      (fun s _ h hc => h.depth_of_bodiesClosed hb hc) (scanRun_visits d b .init))

end Scripts

/-- A `;` in a literal is no cut to either scanner. -/
theorem literalScript_sameStructure :
    SameStructure .generic (ascii "CREATE TRIGGER t; SELECT ';' -- a;") :=
  (sameStructure_iff (by unfold NoDirective; decide +kernel) fun _ _ => rfl).mpr
    (by unfold BodiesClosed; decide +kernel)

/-- A composite type named `event` reads as an event, its field `begin` as a block:
the `;` after it is no cut. -/
theorem createType_not_sameStructure :
    NoDirective .postgres (ascii "CREATE TYPE event AS (begin date, stop date); SELECT 1") ∧
      NoRoutine .postgres (ascii "CREATE TYPE event AS (begin date, stop date); SELECT 1") ∧
      NoExecutableComment .postgres
        (ascii "CREATE TYPE event AS (begin date, stop date); SELECT 1") ∧
      ¬ SameStructure .postgres
        (ascii "CREATE TYPE event AS (begin date, stop date); SELECT 1") := by
  refine ⟨?_, ?_, fun i _ => rfl, fun h => absurd h.1 ?_⟩
  · unfold NoDirective
    decide
  · unfold NoRoutine
    decide
  · decide

end RedDb.Sql
