import RedDb.Sql.ScriptLines

/-!
# RedDb — the live words of a statement

What a statement does is in the words outside its literals, quoted names and comments. A
statement that is written from keywords, quoted names and given texts has the words of the
keywords and of the given texts, and no others.

* `Spoken.append` — pieces in a row;
* `spoken_names` — quoted names between keywords;
* `spoken_given` — a given text;
* `mem_splitStatements_script`, `live_mem_splitStatements` — the statements of a script.
-/

namespace RedDb.Sql

open ByteText

/-- The words outside literals, quoted names and comments. -/
def liveWords (d : Dialect) (x : Bytes) : List Bytes := wordsOf (stripNoise x d)

/-! ## Words -/

section Words

variable {u v : Bytes}

theorem not_word_lower {c : UInt8} (h : isWordByte c = false) :
    (!isWordByte (toAsciiLower c)) = true := by
  rw [isWordByte_lower, h]
  rfl

theorem wordsOf_cut {c : UInt8} (h : isWordByte c = false) (u v : Bytes) :
    wordsOf (u ++ c :: v) = wordsOf u ++ wordsOf v := by
  unfold wordsOf
  rw [asciiLower_append, asciiLower, asciiLower, asciiLower, List.map_cons,
    List.splitOnP_append_cons (p := fun c => !isWordByte c) _ _ (not_word_lower h), List.filter_append]

theorem wordsOf_nil : wordsOf [] = [] := rfl

/-- Where no word goes on, the words are those of the parts. -/
theorem wordsOf_append (h : Opens u ∨ StartsClear v) : wordsOf (u ++ v) = wordsOf u ++ wordsOf v := by
  rcases h with h | h
  · rcases List.eq_nil_or_concat u with rfl | ⟨u, c, rfl⟩
    · rfl
    rw [List.concat_eq_append] at h ⊢
    have hc : isWordByte c = false := h c List.getLast?_concat
    rw [List.append_assoc, List.singleton_append, wordsOf_cut hc, wordsOf_cut hc, wordsOf_nil,
      List.append_nil]
  · cases v with
    | nil => rw [List.append_nil, wordsOf_nil, List.append_nil]
    | cons c v =>
      have hc : isWordByte c = false := h c rfl
      have hsolo := wordsOf_cut hc [] v
      rw [List.nil_append, wordsOf_nil, List.nil_append] at hsolo
      rw [wordsOf_cut hc, hsolo]

theorem wordsOf_silent (h : ∀ c ∈ u, isWordByte c = false) : wordsOf u = [] := by
  induction u with
  | nil => rfl
  | cons c u ih =>
    have hcut := wordsOf_cut (h c List.mem_cons_self) [] u
    rw [List.nil_append, wordsOf_nil, List.nil_append] at hcut
    rw [hcut, ih fun e he => h e (List.mem_cons_of_mem c he)]

theorem opens_silent (h : ∀ c ∈ u, isWordByte c = false) : Opens u :=
  fun c hc => h c (List.mem_of_mem_getLast? hc)

theorem Opens.of_append (hu : Opens u) (hv : Opens v) : Opens (u ++ v) := by
  intro c hc
  rcases List.eq_nil_or_concat v with rfl | ⟨v, e, rfl⟩
  · rw [List.append_nil] at hc
    exact hu c hc
  · rw [List.concat_eq_append, ← List.append_assoc, List.getLast?_concat] at hc
    refine hv c ?_
    rwa [List.concat_eq_append, List.getLast?_concat]

/-- A last `--` is no word. -/
theorem SameUpToDashes.wordsOf_eq {d : Dialect} (h : SameUpToDashes d u v) : wordsOf u = wordsOf v := by
  rcases h with rfl | ⟨-, w, rfl, rfl⟩
  · rfl
  have hspaces : StartsClear [space, space] := fun c hc => by
    rw [← Option.some.inj hc]
    decide
  have hdashes : StartsClear [dash, dash] := fun c hc => by
    rw [← Option.some.inj hc]
    decide
  rw [wordsOf_append (Or.inr hspaces), wordsOf_append (Or.inr hdashes)]
  rfl

/-- Trimming keeps the live words. -/
theorem liveWords_trim (d : Dialect) (x : Bytes) : liveWords d (trim x) = liveWords d x := by
  obtain ⟨p, v, w, hp, hw, hcopy, hsame⟩ := stripNoise_trim x d
  have hfront : ∀ c ∈ p, isWordByte c = false := fun c hc => not_word_of_blank (hp.bytes c hc)
  have hback : ∀ c ∈ w, isWordByte c = false := fun c hc => not_word_of_blank (hw c hc)
  have hclear : StartsClear w := fun c hc => hback c (List.mem_of_mem_head? hc)
  unfold liveWords
  rw [hsame.wordsOf_eq, hcopy, wordsOf_append (Or.inl (opens_silent hfront)),
    wordsOf_append (Or.inr hclear), wordsOf_silent hfront, wordsOf_silent hback, List.nil_append,
    List.append_nil]

end Words

/-! ## Pieces -/

/-- In front of what `P` admits the text is passed; its copy has the words `ws` and no `;`. -/
def Spoken (d : Dialect) (x : Bytes) (ws : List Bytes) (P : Bytes → Prop) : Prop :=
  ∃ c, (∀ rest, P rest → Passes d x c rest) ∧ wordsOf c = ws ∧ semicolon ∉ c ∧ (Opens x → Opens c)

section Pieces

variable {d : Dialect} {x y : Bytes} {ws ws' : List Bytes} {P P' : Bytes → Prop}

/-- **Two pieces in a row.** -/
theorem Spoken.append (hx : Spoken d x ws P) (hopens : Opens x) (hy : Spoken d y ws' P')
    (hP : ∀ rest, P' rest → P (y ++ rest)) : Spoken d (x ++ y) (ws ++ ws') P' := by
  obtain ⟨c, hpx, rfl, hsemi, hc⟩ := hx
  obtain ⟨c', hpy, rfl, hsemi', hc'⟩ := hy
  refine ⟨c ++ c', fun rest hrest => (hpx _ (hP rest hrest)).append hopens (hpy rest hrest),
    wordsOf_append (Or.inl (hc hopens)), ?_, fun ho => ?_⟩
  · rw [List.mem_append, not_or]
    exact ⟨hsemi, hsemi'⟩
  · rcases List.eq_nil_or_concat y with rfl | ⟨y, e, rfl⟩
    · exact (hc hopens).of_append (hc' fun _ h => by cases h)
    refine (hc hopens).of_append (hc' fun b hb => ho b ?_)
    rw [List.concat_eq_append] at hb ⊢
    rw [List.getLast?_concat] at hb
    rwa [← List.append_assoc, List.getLast?_concat]

/-- Keywords, blanks and punctuation. -/
def Keywords (x : Bytes) : Prop := (∀ c ∈ x, isCalm c = true) ∧ semicolon ∉ x

instance (x : Bytes) : Decidable (Keywords x) := inferInstanceAs (Decidable (_ ∧ _))

theorem spoken_keywords (h : Keywords x) : Spoken d x (wordsOf x) fun _ => True :=
  ⟨x, fun rest _ => passes_calm h.1 rest, rfl, h.2, id⟩

/-- Keywords behind anything. -/
theorem Spoken.append_keywords {p : Bytes} (h : Spoken d x ws P) (hp : Keywords p) (hclear : StartsClear p)
    (hP : ∀ rest, P (p ++ rest)) : Spoken d (x ++ p) (ws ++ wordsOf p) fun _ => True := by
  obtain ⟨c, hpx, rfl, hsemi, hc⟩ := h
  refine ⟨c ++ p, fun rest _ => (hpx _ (hP rest)).append_calm hp.1, wordsOf_append (Or.inr hclear), ?_,
    fun ho => ?_⟩
  · rw [List.mem_append, not_or]
    exact ⟨hsemi, hp.2⟩
  · rcases List.eq_nil_or_concat p with rfl | ⟨p, e, rfl⟩
    · rw [List.append_nil] at ho ⊢
      exact hc ho
    rw [List.concat_eq_append, ← List.append_assoc] at ho ⊢
    intro b hb
    rw [List.getLast?_concat] at hb
    refine ho b ?_
    rwa [List.getLast?_concat]

theorem Spoken.mono (h : Spoken d x ws P) (hP : ∀ rest, P' rest → P rest) : Spoken d x ws P' := by
  obtain ⟨c, hp, hrest⟩ := h
  exact ⟨c, fun rest hr => hp rest (hP rest hr), hrest⟩

theorem blankSpan_silent (b : Bytes) (i j : Nat) : ∀ c ∈ blankSpan b i j, c = space ∨ c = newline := by
  intro c hc
  obtain ⟨e, -, rfl⟩ := List.mem_map.mp hc
  split
  · exact Or.inr rfl
  · exact Or.inl rfl

theorem opens_quotedBy {q : UInt8} (hq : q = doubleQuote ∨ q = backtick) (name : Bytes) :
    Opens (quotedBy q name) := by
  have hword : isWordByte q = false := by rcases hq with rfl | rfl <;> decide
  intro c hc
  rw [quotedBy, ← List.cons_append, List.getLast?_concat] at hc
  rw [← Option.some.inj hc, hword]

/-- A quoted name has no words. -/
theorem spoken_quoted {q : UInt8} (hq : q = doubleQuote ∨ q = backtick) {name : Bytes}
    (hname : Quotable d q name) : Spoken d (quotedBy q name) [] fun rest => rest.head? ≠ some q := by
  have hsilent : ∀ c ∈ blankSpan (quotedBy q name) 0 (quotedBy q name).length, isWordByte c = false := by
    intro c hc
    rcases blankSpan_silent _ _ _ c hc with rfl | rfl <;> decide
  refine ⟨_, fun rest hrest => passes_quoted hq hname hrest, wordsOf_silent hsilent, fun hmem => ?_,
    fun _ => opens_silent hsilent⟩
  rcases blankSpan_silent _ _ _ _ hmem with h | h <;> exact absurd h (by decide)

/-- Quoted names, each with the keywords behind it. -/
def names (q : UInt8) (ps : List (Bytes × Bytes)) : Bytes := ps.flatMap fun p => quotedBy q p.1 ++ p.2

/-- Keywords between two names. -/
structure Between (x : Bytes) : Prop where
  keywords : Keywords x
  nonempty : x ≠ []
  opens : Opens x

theorem Between.head {q : UInt8} (hq : q = doubleQuote ∨ q = backtick) (h : Between x) (rest : Bytes) :
    (x ++ rest).head? ≠ some q := by
  cases x with
  | nil => exact absurd rfl h.nonempty
  | cons c x =>
    intro heq
    have hcalm := h.keywords.1 c List.mem_cons_self
    rw [Option.some.inj (show some c = some q from heq)] at hcalm
    rcases hq with rfl | rfl <;> exact absurd hcalm (by decide)

/-- **Names between keywords** have the words of the keywords. -/
theorem spoken_names {q : UInt8} (hq : q = doubleQuote ∨ q = backtick) {ps : List (Bytes × Bytes)}
    (hnames : ∀ p ∈ ps, Quotable d q p.1) (hbetween : ∀ p ∈ ps, Between p.2) :
    Spoken d (names q ps) (ps.flatMap fun p => wordsOf p.2) (fun _ => True) ∧ Opens (names q ps) := by
  induction ps with
  | nil => exact ⟨spoken_keywords ⟨fun c hc => absurd hc List.not_mem_nil, List.not_mem_nil⟩,
      fun _ h => by cases h⟩
  | cons p ps ih =>
    obtain ⟨ih, hopens⟩ := ih (fun r hr => hnames r (List.mem_cons_of_mem p hr))
      fun r hr => hbetween r (List.mem_cons_of_mem p hr)
    have hp := hbetween p List.mem_cons_self
    have hfirst : Spoken d (quotedBy q p.1 ++ p.2) ([] ++ wordsOf p.2) fun _ => True :=
      (spoken_quoted hq (hnames p List.mem_cons_self)).append (opens_quotedBy hq p.1)
        (spoken_keywords hp.keywords) fun rest _ => hp.head hq rest
    have hfirst' : Opens (quotedBy q p.1 ++ p.2) := (opens_quotedBy hq p.1).of_append hp.opens
    exact ⟨hfirst.append hfirst' ih fun _ _ => trivial, hfirst'.of_append hopens⟩

/-- A given text that leaves nothing open, and ends no statement. -/
structure Given (d : Dialect) (t : Bytes) : Prop where
  settled : Settled d t
  noExecutable : NoExecutableComment d t
  flat : semicolon ∉ stripNoise t d

theorem noExecutable_of_no_slash (h : slash ∉ x) : NoExecutableComment d x := by
  intro i _
  cases hexec : d.executableCommentAt x i with
  | false => rfl
  | true => exact absurd (List.mem_of_getElem? (executableCommentAt_bytes hexec).2.1) h

theorem opens_blanked {u v : Bytes} (h : List.Forall₂ Blanked u v) (hv : Opens v) : Opens u := by
  have hreverse := List.forall₂_reverse_iff.mpr h
  have hlast : ∀ c, v.reverse.head? = some c → isWordByte c = false := by
    rw [List.head?_reverse]
    exact hv
  intro c hc
  rw [← List.head?_reverse] at hc
  revert hc
  generalize u.reverse = ru at hreverse ⊢
  generalize v.reverse = rv at hreverse hlast
  cases hreverse with
  | nil => exact fun hc => by cases hc
  | cons ho _ =>
    intro hc
    rw [← Option.some.inj hc]
    rcases ho with rfl | rfl | rfl
    · exact hlast _ rfl
    · decide
    · decide

theorem stripNoise_opens (h : Opens x) : Opens (stripNoise x d) := by
  have hblanked := strip_blanked (d := d) (b := x) x.length 0 x.length (Nat.le_refl _) (by omega)
  rw [← stripNoise_eq, show slice x 0 x.length = x by rw [slice, List.take_length, List.drop_zero]]
    at hblanked
  exact opens_blanked hblanked h

/-- **A given text** has its own words. -/
theorem spoken_given (h : Given d x) : Spoken d x (liveWords d x) Follows :=
  ⟨stripNoise x d, fun _ hrest => passes_settled h.settled h.noExecutable hrest, rfl, h.flat,
    stripNoise_opens⟩

theorem Spoken.live (h : Spoken d x ws Follows) : liveWords d x = ws := by
  obtain ⟨c, hp, rfl, -⟩ := h
  rw [liveWords, (hp [] fun _ hc => by cases hc).whole.1]

/-- What is read in front of a `;` is a statement of its own. -/
theorem Spoken.enclosing (h : Spoken d x ws Follows) (hhead : ∃ p ∈ statementHeads, p <+: x) :
    Enclosing d x := by
  obtain ⟨c, hp, -, hsemi, -⟩ := h
  have hcopy : stripNoise x d = c := (hp [] fun _ hc => by cases hc).whole.1
  exact ⟨fun rest hrest => hcopy ▸ hp rest hrest, hcopy ▸ hsemi, hhead⟩

end Pieces

/-! ## The statements of a script -/

/-- Blank lines and comments only. -/
def Remarks (d : Dialect) (rs : List Line) : Prop := ∀ l ∈ rs, l.Clean d ∧ ∀ x, l ≠ .live x

section Script

variable {d : Dialect} {x : Bytes} {rs ls : List Line}

theorem scriptText_concat (rs : List Line) (l : Line) : scriptText (rs ++ [l]) = scriptText rs ++ l.text := by
  unfold scriptText
  rw [List.flatMap_append, List.flatMap_singleton]

theorem mem_chunks (hrs : Remarks d rs) (hls : ∀ l ∈ ls, l.Clean d) {p : Bytes × Option Bytes}
    (hp : p ∈ chunks (scriptText rs) ls) :
    ∃ rs', Remarks d rs' ∧ p.1 = scriptText rs' ∧ ∀ x ∈ p.2, .live x ∈ ls := by
  induction ls generalizing rs with
  | nil =>
    obtain rfl := List.mem_singleton.mp hp
    exact ⟨rs, hrs, rfl, fun x hx => by cases hx⟩
  | cons l ls ih =>
    have hrest : ∀ l' ∈ ls, l'.Clean d := fun l' hl' => hls l' (List.mem_cons_of_mem l hl')
    by_cases hlive : ∃ x, l = .live x
    · obtain ⟨x, rfl⟩ := hlive
      rcases List.mem_cons.mp hp with rfl | hp
      · exact ⟨rs, hrs, rfl, fun y hy => Option.some.inj hy ▸ List.mem_cons_self⟩
      have hblank : Remarks d [.blank] := fun l' hl' => by
        obtain rfl := List.mem_singleton.mp hl'
        exact ⟨trivial, fun _ h => by cases h⟩
      obtain ⟨rs', hrs', hlead, hx⟩ := ih hblank hrest hp
      exact ⟨rs', hrs', hlead, fun y hy => List.mem_cons_of_mem _ (hx y hy)⟩
    · have hlive : ∀ x, l ≠ .live x := fun x hx => hlive ⟨x, hx⟩
      rw [chunks_rest hlive, ← scriptText_concat] at hp
      have hnext : Remarks d (rs ++ [l]) := by
        intro l' hl'
        rcases List.mem_append.mp hl' with hl' | hl'
        · exact hrs l' hl'
        · obtain rfl := List.mem_singleton.mp hl'
          exact ⟨hls l' List.mem_cons_self, hlive⟩
      obtain ⟨rs', hrs', hlead, hx⟩ := ih hnext hrest hp
      exact ⟨rs', hrs', hlead, fun y hy => List.mem_cons_of_mem _ (hx y hy)⟩

theorem live_mem_chunks (hx : Line.live x ∈ ls) (lead : Bytes) : ∃ p ∈ chunks lead ls, p.2 = some x := by
  induction ls generalizing lead with
  | nil => exact absurd hx List.not_mem_nil
  | cons l ls ih =>
    by_cases hlive : ∃ y, l = .live y
    · obtain ⟨y, rfl⟩ := hlive
      rcases List.mem_cons.mp hx with heq | hx
      · exact ⟨(lead, some y), List.mem_cons_self, by rw [Line.live.inj heq]⟩
      · obtain ⟨p, hp, hpx⟩ := ih hx [newline]
        exact ⟨p, List.mem_cons_of_mem _ hp, hpx⟩
    · have hlive : ∀ y, l ≠ .live y := fun y hy => hlive ⟨y, hy⟩
      rw [chunks_rest hlive]
      exact ih ((List.mem_cons.mp hx).resolve_left fun heq => hlive x heq.symm) _

theorem opens_script (rs : List Line) : Opens (scriptText rs) := by
  induction rs with
  | nil => exact fun _ h => by cases h
  | cons l rs ih => exact l.opens.of_append ih

theorem Remarks.silent (hrs : Remarks d rs) : ∀ c ∈ rs.flatMap (Line.copy d), isWordByte c = false := by
  intro c hc
  obtain ⟨l, hl, hc⟩ := List.mem_flatMap.mp hc
  cases l with
  | blank => exact List.mem_singleton.mp hc ▸ (by decide)
  | remark t =>
    rcases List.mem_append.mp hc with hc | hc
    · exact List.eq_of_mem_replicate hc ▸ (by decide)
    · exact List.mem_singleton.mp hc ▸ (by decide)
  | live y => exact absurd rfl ((hrs _ hl).2 y)

/-- A statement has the words it has without the comments in front of it. -/
theorem liveWords_behind (hrs : Remarks d rs) (hx : Enclosing d x) :
    liveWords d (trim (scriptText rs ++ x)) = liveWords d x := by
  have hpasses := ((script_passes (fun l hl => (hrs l hl).1) (x ++ [])).append (opens_script rs)
    (hx.passes [] fun _ h => by cases h)).whole.1
  rw [liveWords_trim, liveWords, hpasses, wordsOf_append (Or.inl (opens_silent hrs.silent)),
    wordsOf_silent hrs.silent]
  rfl

/-- Comments have none. -/
theorem liveWords_remarks (hrs : Remarks d rs) : liveWords d (trim (scriptText rs)) = [] := by
  rw [liveWords_trim, liveWords, (script_passes (fun l hl => (hrs l hl).1) []).whole.1,
    wordsOf_silent hrs.silent]

/-- **Every statement of a script** is comments, or a live line behind comments. -/
theorem mem_splitStatements_script (h : ∀ l ∈ ls, l.Clean d) {s : Bytes}
    (hs : s ∈ splitStatements (scriptText ls) d) : ∃ rs, Remarks d rs ∧ (s = trim (scriptText rs) ∨
      ∃ x, .live x ∈ ls ∧ s = trim (scriptText rs ++ x)) := by
  rw [splitStatements_script h] at hs
  obtain ⟨p, hp, rfl⟩ := List.mem_map.mp (List.mem_of_mem_filter hs)
  have hnone : Remarks d [] := fun l hl => absurd hl List.not_mem_nil
  obtain ⟨rs, hrs, hlead, hx⟩ := mem_chunks hnone h hp
  refine ⟨rs, hrs, ?_⟩
  obtain ⟨lead, stmt⟩ := p
  obtain rfl : lead = scriptText rs := hlead
  cases stmt with
  | none => exact Or.inl (congrArg trim (List.append_nil _))
  | some x => exact Or.inr ⟨x, hx x rfl, rfl⟩

theorem trim_statement_ne_nil (hx : Enclosing d x) (lead : Bytes) : trim (lead ++ x) ≠ [] := by
  intro hempty
  obtain ⟨p, q, hp, hq, hshape⟩ := trim_spec (lead ++ x)
  rw [hempty, List.nil_append] at hshape
  have hblank : ∀ c ∈ lead ++ x, isBlankByte c = true := by
    rw [hshape]
    exact (hp.append hq).bytes
  obtain ⟨w, hw, t, rfl⟩ := hx.head
  simp only [statementHeads, List.mem_cons, List.not_mem_nil, or_false] at hw
  have hfirst : ∃ c ∈ w, isBlankByte c = false := by
    rcases hw with rfl | rfl | rfl | rfl | rfl <;> decide
  obtain ⟨c, hc, hnot⟩ := hfirst
  rw [hblank c (List.mem_append_right _ (List.mem_append_left _ hc))] at hnot
  exact Bool.noConfusion hnot

/-- **Every live line** is a statement of the script, behind comments. -/
theorem live_mem_splitStatements (h : ∀ l ∈ ls, l.Clean d) (hx : Line.live x ∈ ls) :
    ∃ rs, Remarks d rs ∧ trim (scriptText rs ++ x) ∈ splitStatements (scriptText ls) d := by
  obtain ⟨p, hp, hpx⟩ := live_mem_chunks hx []
  have hnone : Remarks d [] := fun l hl => absurd hl List.not_mem_nil
  obtain ⟨rs, hrs, hlead, -⟩ := mem_chunks hnone h hp
  refine ⟨rs, hrs, ?_⟩
  rw [splitStatements_script h]
  refine List.mem_filter.mpr ⟨List.mem_map.mpr ⟨p, hp, ?_⟩, ?_⟩
  · rw [chunkText, hlead, hpx]
    rfl
  · rw [Bool.not_eq_true', List.isEmpty_eq_false_iff]
    exact trim_statement_ne_nil (h _ hx) _

end Script

end RedDb.Sql
