import RedDb.Sql.WriteStatement

/-!
# RedDb — the copy of a statement

A statement's text is stretches with blanks between them, so the clause scanners find in it
what its clauses are: the word of a clause stands where the clause begins, and nowhere else.

* `copy_whole` — the copy of a text of stretches, behind comments;
* `word_at` — where a clause begins;
* `Write.sound` — the stretches of a well-formed statement.
-/

namespace RedDb.Sql

open ByteText

/-! ## Words -/

variable {s : UInt8}

section Words

variable {d : Dialect} {x : Bytes} (hx : ∀ c ∈ x, isWordByte c = true)

include hx

theorem noiseEnd_word (rest : Bytes) (stop : Nat) {i : Nat} (hi : i < x.length) :
    noiseEnd d (x ++ rest) stop i = none := by
  have hc : (x ++ rest)[i]? = some x[i] := by
    rw [List.getElem?_append_left hi, List.getElem?_eq_getElem hi]
  exact noiseEnd_plain hc (by simp [isPlain, hx _ (List.getElem_mem hi)])

theorem scanEnd_word (k i : Nat) (hk : i + k = x.length) :
    WhileLoop.run (fun i => decide (i < x.length)) (lexNext d (x ++ [s]) (x.length + 1)) k i =
      x.length := by
  induction k generalizing i with
  | zero => exact hk
  | succ k ih =>
    have hnext : lexNext d (x ++ [s]) (x.length + 1) i = i + 1 := by
      unfold lexNext
      rw [noiseEnd_word hx _ _ (by omega), Option.getD_none]
    rw [WhileLoop.run, if_pos (decide_eq_true (by omega)), hnext]
    exact ih (i + 1) (by omega)

/-- Nothing opens in a word. -/
theorem settled_word : Settled d x := by
  refine ⟨fun _ _ => scanEnd_word hx x.length 0 (Nat.zero_add _), ?_⟩
  rw [Bool.eq_false_iff, ne_eq, List.isSuffixOf_iff_suffix]
  intro hsuffix
  exact absurd (hx dash (hsuffix.mem List.mem_cons_self)) (by decide)

theorem strip_word (k i : Nat) (hk : i + k = x.length) : strip d x i x.length = x.drop i := by
  induction k generalizing i with
  | zero => rw [strip_done (by omega), List.drop_of_length_le (by omega)]
  | succ k ih =>
    have hi : i < x.length := by omega
    have hc : x[i]? = some x[i] := List.getElem?_eq_getElem hi
    have hslash : x[i] ≠ slash := by
      intro heq
      have := hx _ (List.getElem_mem hi)
      rw [heq] at this
      exact absurd this (by decide)
    have hnone : noiseEnd d x x.length i = none := by
      have := noiseEnd_word (d := d) hx [] x.length hi
      rwa [List.append_nil] at this
    rw [strip_live hi (Nat.le_refl _) hc (exec_of_ne_slash hc hslash) hnone, ih (i + 1) (by omega),
      List.drop_eq_getElem_cons hi]

/-- The copy of a word is the word, in lower case. -/
theorem copy_word : copy d x = asciiLower x := by
  rw [copy, stripNoise_eq, strip_word hx x.length 0 (Nat.zero_add _), List.drop_zero]

end Words

variable {d : Dialect} {l : Layout}

/-- The keywords, as they are spelt. -/
theorem Layout.WellFormed.isWord (h : l.WellFormed d) (k : Keyword) : IsWord (l.word k) := by
  have hname : IsWord k.name := by cases k <;> decide
  rw [← h.word k] at hname
  refine ⟨fun hnil => hname.nonempty (by rw [hnil]; rfl), fun c hc => ?_⟩
  have := hname.bytes _ (List.mem_map_of_mem hc)
  rwa [isWordByte_lower] at this

theorem Layout.WellFormed.copy_word (h : l.WellFormed d) (k : Keyword) :
    copy d (l.word k) = k.name := by
  rw [Sql.copy_word (h.isWord k).bytes, h.word k]

theorem Layout.WellFormed.balanced (h : l.WellFormed d) (k : Keyword) : Balanced d (l.word k) := by
  refine ⟨settled_word (h.isWord k).bytes, ?_⟩
  rw [h.copy_word k]
  cases k <;> rfl

/-! ## Blanks -/

section Blanks

variable {blanks : Bytes} (hblanks : ∀ c ∈ blanks, c ∈ separators)

include hblanks

theorem bracketDepth_blanks : bracketDepth blanks = 0 := by
  induction blanks with
  | nil => rfl
  | cons c rest ih =>
    rw [bracketDepth_cons, follower_depth (follower_of_separator (hblanks c List.mem_cons_self)),
      ih fun x hx => hblanks x (List.mem_cons_of_mem c hx)]
    rfl

/-- A word behind blanks. -/
theorem topLevelWord_blanks (b word : Bytes) :
    topLevelWord (blanks ++ b) word = (topLevelWord b word).map (blanks.length + ·) := by
  induction blanks with
  | nil =>
    rw [List.nil_append]
    cases topLevelWord b word with
    | none => rfl
    | some n => exact congrArg some (Nat.zero_add n).symm
  | cons c rest ih =>
    have hc := hblanks c List.mem_cons_self
    have hrest := ih fun x hx => hblanks x (List.mem_cons_of_mem c hx)
    unfold topLevelWord at hrest ⊢
    rw [List.cons_append, List.length_cons, topLevelWordFrom_gap (follower_word (follower_of_separator hc)),
      follower_depth (follower_of_separator hc), Int.add_zero, topLevelWordFrom_shift, hrest, Option.map_map]
    refine congrFun (congrArg _ (funext fun n => ?_)) _
    rw [Function.comp_apply, List.length_cons]
    omega

theorem topLevelWord_of_blanks (word : Bytes) : topLevelWord blanks word = none := by
  have := topLevelWord_blanks hblanks [] word
  rwa [List.append_nil] at this

theorem topLevelComma_blanks (b : Bytes) :
    (topLevelComma (blanks ++ b)).isSome = (topLevelComma b).isSome := by
  induction blanks with
  | nil => rfl
  | cons c rest ih =>
    have hc := hblanks c List.mem_cons_self
    have hne : ∀ x : UInt8, x ∉ separators → ¬ (c == x) = true := by
      intro x hx heq
      rw [beq_iff_eq.mp heq] at hc
      exact hx hc
    rw [← ih fun x hx => hblanks x (List.mem_cons_of_mem c hx)]
    unfold topLevelComma
    rw [List.cons_append, topLevelCommaFrom, if_neg (hne openParen (by decide)),
      if_neg (hne closeParen (by decide)), if_neg]
    · exact topLevelCommaFrom_shift _ 0 _ 0
    · rw [Bool.and_eq_true]
      exact fun h => hne 44 (by decide) h.1

theorem blank_of_separators : Blank blanks := by
  induction blanks with
  | nil => exact Blank.nil
  | cons c rest ih =>
    have hc := hblanks c List.mem_cons_self
    have hws : ws1 c = true := by
      simp only [separators, List.mem_cons, List.not_mem_nil, or_false] at hc
      rcases hc with rfl | rfl | rfl | rfl | rfl <;> decide
    exact Blank.cons (IsBlank.one hws) (ih fun x hx => hblanks x (List.mem_cons_of_mem c hx))

end Blanks

/-! ## Stretches behind comments -/

/-- What the copy has where comments stand in front. -/
@[grind =] def leadCopy (d : Dialect) : List (Comment × UInt8) → Bytes
  | [] => []
  | (c, s) :: rest => copy d c.text ++ s :: leadCopy d rest

theorem copy_behind {lead : List (Comment × UInt8)}
    (h : ∀ c ∈ lead, c.1.WellFormed d ∧ c.2 ∈ separators) (b : Bytes) :
    copy d (behind lead b) = leadCopy d lead ++ copy d b := by
  induction lead with
  | nil => rfl
  | cons c rest ih =>
    obtain ⟨⟨-, hsettled, -⟩, hs⟩ := h c List.mem_cons_self
    rw [behind, hsettled.copy_append (follower_of_separator hs), ih fun x hx => h x (List.mem_cons_of_mem c hx), leadCopy,
      List.append_assoc, List.cons_append]

theorem leadCopy_blanks {lead : List (Comment × UInt8)}
    (h : ∀ c ∈ lead, c.1.WellFormed d ∧ c.2 ∈ separators) :
    ∀ c ∈ leadCopy d lead, c ∈ separators := by
  induction lead with
  | nil =>
    intro c hc
    exact absurd hc List.not_mem_nil
  | cons c rest ih =>
    obtain ⟨⟨-, -, hblank⟩, hs⟩ := h c List.mem_cons_self
    intro x hx
    rw [leadCopy, List.mem_append, List.mem_cons] at hx
    rcases hx with hx | rfl | hx
    · exact hblank x hx
    · exact hs
    · exact ih (fun y hy => h y (List.mem_cons_of_mem c hy)) x hx

theorem behind_append (lead : List (Comment × UInt8)) (a b : Bytes) :
    behind lead (a ++ b) = behind lead a ++ b := by
  induction lead with
  | nil => rfl
  | cons c rest ih => rw [behind, behind, ih, List.append_assoc, List.cons_append]

/-- The stretches behind the first one. -/
def tails : List (UInt8 × Bytes) → Bytes
  | [] => []
  | (s, y) :: rest => s :: spaced y rest

theorem spaced_eq (x : Bytes) (xs : List (UInt8 × Bytes)) : spaced x xs = x ++ tails xs := by
  cases xs with
  | nil => rw [spaced, tails, List.append_nil]
  | cons p rest => rfl

theorem tails_cons (s : UInt8) (y : Bytes) (rest : List (UInt8 × Bytes)) :
    tails ((s, y) :: rest) = s :: (y ++ tails rest) := by
  rw [tails, spaced_eq]

/-- A text of balanced stretches, behind comments. -/
structure Sound (d : Dialect) (lead : List (Comment × UInt8)) (v : Bytes)
    (xs : List (UInt8 × Bytes)) : Prop where
  lead : ∀ c ∈ lead, c.1.WellFormed d ∧ c.2 ∈ separators
  first : Balanced d v
  rest : ∀ p ∈ xs, p.1 ∈ followers ∧ Balanced d p.2

variable {word y : Bytes} {ys : List (UInt8 × Bytes)}

section Sound

variable {d : Dialect} {lead : List (Comment × UInt8)} {v : Bytes} {xs : List (UInt8 × Bytes)}

theorem Sound.copy_eq (h : Sound d lead v xs) :
    copy d (behind lead (spaced v xs)) = leadCopy d lead ++ spaced (copy d v) (copies d xs) := by
  rw [copy_behind h.lead, copy_spaced h.first.1 fun p hp => ⟨(h.rest p hp).1, (h.rest p hp).2.1⟩]

theorem Sound.level (h : Sound d lead v xs) : Level (copy d v) (copies d xs) := by
  refine ⟨h.first.2, fun p hp => ?_⟩
  obtain ⟨q, hq, rfl⟩ := List.mem_map.mp hp
  exact ⟨(h.rest q hq).1, (h.rest q hq).2.2⟩

theorem Sound.of_append (h : Sound d lead v (xs ++ ys)) : Sound d lead v xs :=
  ⟨h.lead, h.first, fun p hp => h.rest p (List.mem_append_left _ hp)⟩

/-- **A word of the whole is one of a stretch.** -/
theorem Sound.word_isSome (h : Sound d lead v xs) (word : Bytes) :
    (topLevelWord (copy d (behind lead (spaced v xs))) word).isSome = true ↔
      (topLevelWord (copy d v) word).isSome = true ∨
        ∃ p ∈ xs, (topLevelWord (copy d p.2) word).isSome = true := by
  rw [h.copy_eq, topLevelWord_blanks (leadCopy_blanks h.lead), Option.isSome_map,
    topLevelWord_spaced_isSome h.level]
  unfold copies
  simp only [List.mem_map, exists_exists_and_eq_and]

theorem Sound.word_none (h : Sound d lead v xs) (hv : topLevelWord (copy d v) word = none)
    (hxs : ∀ p ∈ xs, topLevelWord (copy d p.2) word = none) :
    topLevelWord (copy d (behind lead (spaced v xs))) word = none := by
  rw [← Option.not_isSome_iff_eq_none, h.word_isSome]
  rintro (hsome | ⟨p, hp, hsome⟩)
  · rw [hv] at hsome
    exact Bool.noConfusion hsome
  · rw [hxs p hp] at hsome
    exact Bool.noConfusion hsome

theorem Sound.length_copy (h : Sound d lead v xs) :
    (leadCopy d lead).length + (spaced (copy d v) (copies d xs)).length =
      (behind lead (spaced v xs)).length := by
  rw [← Sql.length_copy d (behind lead (spaced v xs)), h.copy_eq, List.length_append]

theorem copies_cons (d : Dialect) (xs : List (UInt8 × Bytes)) (s : UInt8) (y : Bytes)
    (ys : List (UInt8 × Bytes)) :
    copies d (xs ++ (s, y) :: ys) = copies d xs ++ (s, copy d y) :: copies d ys := by
  rw [copies, copies, copies, List.map_append, List.map_cons]

theorem copies_none (hxs : ∀ p ∈ xs, topLevelWord (copy d p.2) word = none) :
    ∀ p ∈ copies d xs, topLevelWord p.2 word = none := by
  intro p hp
  obtain ⟨q, hq, rfl⟩ := List.mem_map.mp hp
  exact hxs q hq

/-- **The word of a clause** stands where the clause begins. -/
theorem Sound.word_at {i : Nat}
    (h : Sound d lead v (xs ++ (s, y) :: ys)) (hv : topLevelWord (copy d v) word = none)
    (hxs : ∀ p ∈ xs, topLevelWord (copy d p.2) word = none)
    (hy : topLevelWord (copy d y) word = some i) :
    topLevelWord (copy d (behind lead (spaced v (xs ++ (s, y) :: ys)))) word =
      some ((behind lead (spaced v xs)).length + 1 + i) := by
  have hlevel := h.level
  rw [h.copy_eq, topLevelWord_blanks (leadCopy_blanks h.lead)]
  rw [copies_cons] at hlevel ⊢
  rw [topLevelWord_spaced hlevel hv (copies_none hxs) hy, Option.map_some, ← h.of_append.length_copy]
  refine congrArg some ?_
  omega

/-- The text from a clause on. -/
theorem drop_behind (lead : List (Comment × UInt8)) (v : Bytes) (xs : List (UInt8 × Bytes))
    (s : UInt8) (y : Bytes) (ys : List (UInt8 × Bytes)) :
    (behind lead (spaced v (xs ++ (s, y) :: ys))).drop ((behind lead (spaced v xs)).length + 1) =
      spaced y ys := by
  rw [spaced_append, behind_append, ← List.drop_drop, List.drop_left, List.drop_one, List.tail_cons]

/-- The copy in front of a clause, the blank included. -/
theorem Sound.take_copy (h : Sound d lead v (xs ++ (s, y) :: ys)) :
    (copy d (behind lead (spaced v (xs ++ (s, y) :: ys)))).take
        ((behind lead (spaced v xs)).length + 1) =
      copy d (behind lead (spaced v (xs ++ [(s, [])]))) ∧ Sound d lead v (xs ++ [(s, [])]) := by
  have hs : s ∈ followers := (h.rest (s, y) (by simp)).1
  have hfront : Sound d lead v (xs ++ [(s, [])]) := by
    refine ⟨h.lead, h.first, fun p hp => ?_⟩
    rcases List.mem_append.mp hp with hp | hp
    · exact h.of_append.rest p hp
    · rw [List.mem_singleton.mp hp]
      exact ⟨hs, settled_word fun c hc => absurd hc List.not_mem_nil, rfl⟩
  refine ⟨?_, hfront⟩
  have hshape : copy d (behind lead (spaced v (xs ++ (s, y) :: ys))) =
      copy d (behind lead (spaced v (xs ++ [(s, [])]))) ++ spaced (copy d y) (copies d ys) := by
    rw [h.copy_eq, hfront.copy_eq, copies_cons, copies_cons, spaced_append, spaced_append]
    simp [spaced, copies, copy, asciiLower, stripNoise, stripInto]
  have hlen : (copy d (behind lead (spaced v (xs ++ [(s, [])])))).length =
      (behind lead (spaced v xs)).length + 1 := by
    rw [Sql.length_copy, spaced_append, behind_append, List.length_append]
    rfl
  rw [hshape, List.take_left' hlen]

theorem Sound.comma_none (h : Sound d lead v xs) (hv : topLevelComma (copy d v) = none)
    (hxs : ∀ p ∈ xs, topLevelComma (copy d p.2) = none) :
    topLevelComma (copy d (behind lead (spaced v xs))) = none := by
  rw [← Option.not_isSome_iff_eq_none, h.copy_eq, topLevelComma_blanks (leadCopy_blanks h.lead),
    topLevelComma_spaced_isSome h.level]
  unfold copies
  simp only [List.mem_map, exists_exists_and_eq_and]
  rintro (hsome | ⟨p, hp, hsome⟩)
  · rw [hv] at hsome
    exact Bool.noConfusion hsome
  · rw [hxs p hp] at hsome
    exact Bool.noConfusion hsome

/-- A word that stands neither in a clause nor in front of it stands behind it. -/
theorem Sound.word_behind
    (h : Sound d lead v (xs ++ (s, y) :: ys)) (hv : topLevelWord (copy d v) word = none)
    (hxs : ∀ p ∈ xs, topLevelWord (copy d p.2) word = none)
    (hy : topLevelWord (copy d y) word = none) :
    topLevelWord (copy d (behind lead (spaced v (xs ++ (s, y) :: ys)))) word =
      (topLevelWord (copy d (tails ys)) word).map
        ((behind lead (spaced v xs)).length + 1 + y.length + ·) := by
  have hs : s ∈ followers := (h.rest (s, y) (by simp)).1
  have hy' : Balanced d y := (h.rest (s, y) (by simp)).2
  have hbehind : topLevelWord (spaced (copy d y) (copies d ys)) word =
      (topLevelWord (copy d (tails ys)) word).map (y.length + ·) := by
    cases ys with
    | nil =>
      show topLevelWord (copy d y) word = (topLevelWord (copy d []) word).map _
      rw [hy]
      rfl
    | cons q more =>
      obtain ⟨t, z⟩ := q
      have ht : t ∈ followers := (h.rest (t, z) (by simp)).1
      have hz : Settled d z := (h.rest (t, z) (by simp)).2.1
      have hmore : ∀ p ∈ more, p.1 ∈ followers ∧ Settled d p.2 := fun p hp =>
        ⟨(h.rest p (by simp [hp])).1, (h.rest p (by simp [hp])).2.1⟩
      have hnil : Settled d [] := settled_word fun c hc => absurd hc List.not_mem_nil
      have htail : copy d (tails ((t, z) :: more)) = t :: spaced (copy d z) (copies d more) := by
        have hcopy := hnil.copy_append ht (spaced z more)
        rw [List.nil_append, copy_spaced hz hmore] at hcopy
        exact hcopy
      have hspaced : spaced (copy d y) (copies d ((t, z) :: more)) =
          copy d y ++ t :: spaced (copy d z) (copies d more) := rfl
      rw [htail, hspaced, topLevelWord_between ht _ word hy'.2, hy, Option.none_or,
        topLevelWord_follower ht, Option.map_map, Sql.length_copy]
      refine congrFun (congrArg _ (funext fun n => ?_)) _
      rw [Function.comp_apply, Nat.add_assoc]
  rw [h.copy_eq, copies_cons, spaced_append, topLevelWord_blanks (leadCopy_blanks h.lead),
    topLevelWord_between hs _ word (bracketDepth_spaced h.of_append.level),
    topLevelWord_spaced_none h.of_append.level hv (copies_none hxs), Option.none_or, hbehind, Option.map_map,
    Option.map_map, ← h.of_append.length_copy]
  refine congrFun (congrArg _ (funext fun n => ?_)) _
  simp only [Function.comp_apply]
  omega

end Sound

/-! ## The stretches of a statement -/

/-- Stretches that have the word nowhere outside brackets. -/
def Quiet (d : Dialect) (word : Bytes) (xs : List (UInt8 × Bytes)) : Prop :=
  ∀ p ∈ xs, topLevelWord (copy d p.2) word = none

/-- Stretches that are balanced, each behind a blank or a `;`. -/
def Stretched (d : Dialect) (xs : List (UInt8 × Bytes)) : Prop :=
  ∀ p ∈ xs, p.1 ∈ followers ∧ Balanced d p.2

/-- Stretches without a comma outside brackets. -/
def Single (d : Dialect) (xs : List (UInt8 × Bytes)) : Prop :=
  ∀ p ∈ xs, topLevelComma (copy d p.2) = none

section Lists

variable {d : Dialect} {word : Bytes} {xs ys : List (UInt8 × Bytes)}

theorem Quiet.append (hx : Quiet d word xs) (hy : Quiet d word ys) : Quiet d word (xs ++ ys) :=
  fun p hp => (List.mem_append.mp hp).elim (hx p) (hy p)

theorem Stretched.append (hx : Stretched d xs) (hy : Stretched d ys) : Stretched d (xs ++ ys) :=
  fun p hp => (List.mem_append.mp hp).elim (hx p) (hy p)

theorem Single.append (hx : Single d xs) (hy : Single d ys) : Single d (xs ++ ys) :=
  fun p hp => (List.mem_append.mp hp).elim (hx p) (hy p)

theorem quiet_nil : Quiet d word [] := fun _ hp => absurd hp List.not_mem_nil

theorem stretched_nil : Stretched d [] := fun _ hp => absurd hp List.not_mem_nil

theorem single_nil : Single d [] := fun _ hp => absurd hp List.not_mem_nil

end Lists

/-- The comments in front of a token. -/
def Layout.remarks (l : Layout) (slot : Slot) : List (UInt8 × Bytes) :=
  (l.gap slot).comments.map fun c => (c.1, c.2.text)

theorem Layout.piece_eq (l : Layout) (slot : Slot) (text : Bytes) :
    l.piece slot text = l.remarks slot ++ [((l.gap slot).blank, text)] := rfl

variable {text : Bytes}

section Pieces

variable {d : Dialect} {l : Layout} (hl : l.WellFormed d)

include hl

theorem remarks_stretched (slot : Slot) : Stretched d (l.remarks slot) := by
  intro p hp
  obtain ⟨c, hc, rfl⟩ := List.mem_map.mp hp
  obtain ⟨hs, -, hsettled, hblank⟩ := (hl.gap slot).comments c hc
  exact ⟨follower_of_separator hs, hsettled, bracketDepth_blanks hblank⟩

theorem remarks_quiet (slot : Slot) (word : Bytes) : Quiet d word (l.remarks slot) := by
  intro p hp
  obtain ⟨c, hc, rfl⟩ := List.mem_map.mp hp
  obtain ⟨-, -, -, hblank⟩ := (hl.gap slot).comments c hc
  exact topLevelWord_of_blanks hblank word

theorem remarks_single (slot : Slot) : Single d (l.remarks slot) := by
  intro p hp
  obtain ⟨c, hc, rfl⟩ := List.mem_map.mp hp
  obtain ⟨-, -, -, hblank⟩ := (hl.gap slot).comments c hc
  have hcomma := topLevelComma_blanks hblank []
  rw [List.append_nil] at hcomma
  exact Option.isNone_iff_eq_none.mp (Option.isSome_eq_false_iff.mp hcomma)

theorem piece_stretched (slot : Slot) (h : Balanced d text) : Stretched d (l.piece slot text) := by
  refine (remarks_stretched hl slot).append fun p hp => ?_
  rw [List.mem_singleton.mp hp]
  exact ⟨follower_of_separator (hl.gap slot).blank, h⟩

theorem piece_quiet (slot : Slot)
    (h : topLevelWord (copy d text) word = none) : Quiet d word (l.piece slot text) := by
  refine (remarks_quiet hl slot word).append fun p hp => ?_
  rw [List.mem_singleton.mp hp]
  exact h

theorem piece_single (slot : Slot) (h : topLevelComma (copy d text) = none) :
    Single d (l.piece slot text) := by
  refine (remarks_single hl slot).append fun p hp => ?_
  rw [List.mem_singleton.mp hp]
  exact h

theorem optional_stretched (slot : Slot) {text : Option Bytes} (h : ∀ t ∈ text, Balanced d t) :
    Stretched d (l.optional slot text) := by
  cases text with
  | none => exact stretched_nil
  | some t => exact piece_stretched hl slot (h t rfl)

theorem optional_quiet (slot : Slot) {text : Option Bytes}
    (h : ∀ t ∈ text, topLevelWord (copy d t) word = none) :
    Quiet d word (l.optional slot text) := by
  cases text with
  | none => exact quiet_nil
  | some t => exact piece_quiet hl slot (h t rfl)

/-- A keyword says one word. -/
theorem word_quiet (k : Keyword) (hword : word ∈ clauseWords) (hne : word ≠ k.name) :
    topLevelWord (copy d (l.word k)) word = none := by
  rw [hl.copy_word k]
  revert word
  cases k <;> decide

theorem word_single (k : Keyword) : topLevelComma (copy d (l.word k)) = none := by
  rw [hl.copy_word k]
  cases k <;> rfl

end Pieces

theorem expression_of_clause (h : word ∈ clauseWords) (hne : word ≠ ascii "from") :
    word ∈ expressionLacks := by
  revert word
  decide

namespace Write

/-- The tokens between the verb and the `SET`. -/
def setFront (l : Layout) (w : Write) : List (UInt8 × Bytes) :=
  (w.beforeTable l ++ (l.piece .table w.table.text ++ w.behindTable l)) ++ l.remarks .setColumns

/-- The tokens between the verb and the `WHERE`. -/
def whereFront (l : Layout) (w : Write) : List (UInt8 × Bytes) :=
  ((w.beforeTable l ++ (l.piece .table w.table.text ++ w.behindTable l)) ++ w.setClause l) ++
    l.remarks .whereRows

section Clauses

variable {d : Dialect} {l : Layout} {w : Write} (hl : l.WellFormed d) (hw : w.WellFormed d)

include hl hw

-- Each clause: balanced, and silent on the words it does not begin with.

theorem beforeTable_stretched : Stretched d (w.beforeTable l) := by
  refine Stretched.append ?_ (Stretched.append ?_ ?_)
  · intro p hp
    obtain ⟨m, hm, hp⟩ := List.mem_flatMap.mp hp
    exact piece_stretched hl .modifier (hw.modifiers m hm).2.balanced p hp
  · split
    · exact stretched_nil
    · exact piece_stretched hl .fromTable (hl.balanced .fromTable)
  · split
    · exact piece_stretched hl .onlyTable (hl.balanced .onlyTable)
    · exact stretched_nil

theorem beforeTable_quiet {word : Bytes} (hword : word ∈ clauseWords)
    (hfrom : word = ascii "from" → w.assignments.isSome = true) :
    Quiet d word (w.beforeTable l) := by
  refine Quiet.append ?_ (Quiet.append ?_ ?_)
  · intro p hp
    obtain ⟨m, hm, hp⟩ := List.mem_flatMap.mp hp
    exact piece_quiet hl .modifier ((hw.modifiers m hm).2.lacks word hword) p hp
  · split
    · exact quiet_nil
    · rename_i h
      exact piece_quiet hl .fromTable (word_quiet hl .fromTable hword fun heq => h (hfrom heq))
  · split
    · refine piece_quiet hl .onlyTable (word_quiet hl .onlyTable hword ?_)
      rintro rfl
      exact absurd hword (by decide)
    · exact quiet_nil

theorem beforeTable_single : Single d (w.beforeTable l) := by
  refine Single.append ?_ (Single.append ?_ ?_)
  · intro p hp
    obtain ⟨m, hm, hp⟩ := List.mem_flatMap.mp hp
    exact piece_single hl .modifier (hw.modifiers m hm).2.noComma p hp
  · split
    · exact single_nil
    · exact piece_single hl .fromTable (word_single hl .fromTable)
  · split
    · exact piece_single hl .onlyTable (word_single hl .onlyTable)
    · exact single_nil

theorem behindTable_stretched : Stretched d (w.behindTable l) := by
  refine (optional_stretched hl .partition fun t ht => (hw.partition t ht).2.balanced).append ?_
  cases hcalled : w.called with
  | none => exact stretched_nil
  | some a =>
    refine Stretched.append ?_ (piece_stretched hl .called (hw.called a hcalled).2.balanced)
    split
    · exact piece_stretched hl .asName (hl.balanced .asName)
    · exact stretched_nil

theorem behindTable_quiet {word : Bytes} (hword : word ∈ clauseWords) :
    Quiet d word (w.behindTable l) := by
  refine (optional_quiet hl .partition fun t ht => (hw.partition t ht).2.lacks word hword).append ?_
  cases hcalled : w.called with
  | none => exact quiet_nil
  | some a =>
    refine Quiet.append ?_ (piece_quiet hl .called ((hw.called a hcalled).2.lacks word hword))
    split
    · refine piece_quiet hl .asName (word_quiet hl .asName hword ?_)
      rintro rfl
      exact absurd hword (by decide)
    · exact quiet_nil

theorem behindTable_single : Single d (w.behindTable l) := by
  refine Single.append ?_ ?_
  · cases hpartition : w.partition with
    | none => exact single_nil
    | some t => exact piece_single hl .partition (hw.partition t hpartition).2.noComma
  · cases hcalled : w.called with
    | none => exact single_nil
    | some a =>
      refine Single.append ?_ (piece_single hl .called (hw.called a hcalled).2.noComma)
      split
      · exact piece_single hl .asName (word_single hl .asName)
      · exact single_nil

theorem setClause_stretched : Stretched d (w.setClause l) := by
  unfold setClause
  cases h : w.assignments with
  | none => exact stretched_nil
  | some a =>
    exact (piece_stretched hl .setColumns (hl.balanced .setColumns)).append
      (piece_stretched hl .assignments (hw.assignments a h).1.balanced)

theorem setClause_quiet {word : Bytes} (hword : word ∈ clauseWords) (hset : word ≠ ascii "set")
    (hfrom : word = ascii "from" → ∀ a ∈ w.assignments, topLevelWord (copy d a) word = none) :
    Quiet d word (w.setClause l) := by
  unfold setClause
  cases h : w.assignments with
  | none => exact quiet_nil
  | some a =>
    refine (piece_quiet hl .setColumns (word_quiet hl .setColumns hword hset)).append
      (piece_quiet hl .assignments ?_)
    by_cases heq : word = ascii "from"
    · exact hfrom heq a h
    · exact (hw.assignments a h).2 word (expression_of_clause hword heq)

theorem whereClause_stretched : Stretched d (w.whereClause l) := by
  unfold whereClause
  cases h : w.filter with
  | none => exact stretched_nil
  | some p =>
    exact (piece_stretched hl .whereRows (hl.balanced .whereRows)).append
      (piece_stretched hl .predicate (hw.filter p h).balanced)

theorem whereClause_quiet {word : Bytes} (hword : word ∈ clauseWords)
    (hwhere : word = ascii "where" → w.filter = none)
    (hfrom : word = ascii "from" → ∀ p ∈ w.filter, topLevelWord (copy d p) word = none) :
    Quiet d word (w.whereClause l) := by
  unfold whereClause
  cases h : w.filter with
  | none => exact quiet_nil
  | some p =>
    have hne : word ≠ ascii "where" := by
      intro heq
      rw [hwhere heq] at h
      cases h
    refine (piece_quiet hl .whereRows (word_quiet hl .whereRows hword hne)).append
      (piece_quiet hl .predicate ?_)
    by_cases heq : word = ascii "from"
    · exact hfrom heq p h
    · exact (hw.filter p h).lacks word (expression_of_clause hword heq)

theorem tail_stretched : Stretched d (w.tail l) :=
  (optional_stretched hl .order fun t ht => (hw.order t ht).balanced).append
    ((optional_stretched hl .limit fun t ht => (hw.limit t ht).balanced).append
      (optional_stretched hl .returning fun t ht => (hw.returning t ht).balanced))

theorem tail_quiet {word : Bytes} (hword : word ∈ clauseWords)
    (horder : word = ascii "order" → w.order = none) (hlimit : word = ascii "limit" → w.limit = none)
    (hreturning : word = ascii "returning" → w.returning = none) : Quiet d word (w.tail l) := by
  have hclause : ∀ (own : Bytes) (text : Option Bytes), (∀ t ∈ text, ClauseText d own t) →
      (word = own → text = none) → ∀ t ∈ text, topLevelWord (copy d t) word = none := by
    intro own text htext hown t ht
    refine (htext t ht).lacks word (List.mem_filter.mpr ⟨hword, ?_⟩)
    rw [bne_iff_ne]
    intro heq
    rw [hown heq] at ht
    cases ht
  exact (optional_quiet hl .order (hclause _ _ hw.order horder)).append
    ((optional_quiet hl .limit (hclause _ _ hw.limit hlimit)).append
      (optional_quiet hl .returning (hclause _ _ hw.returning hreturning)))

/-- **A well-formed statement** is balanced stretches, behind comments. -/
theorem sound : Sound d l.lead (l.word w.verb) (w.pieces l) := by
  refine ⟨hl.lead, hl.balanced _, ?_⟩
  exact (beforeTable_stretched hl hw).append ((piece_stretched hl .table hw.table.balanced).append
    ((behindTable_stretched hl hw).append ((setClause_stretched hl hw).append
      ((whereClause_stretched hl hw).append (tail_stretched hl hw)))))

/-- A statement, and what stands behind it. -/
theorem sound_script {ending : List (UInt8 × Bytes)} (hend : Stretched d ending) :
    Sound d l.lead (l.word w.verb) (w.pieces l ++ ending) :=
  ⟨hl.lead, hl.balanced _, Stretched.append (sound hl hw).rest hend⟩

omit hl hw in
theorem script_nil : w.script l [] = w.text l := by rw [script, text, List.append_nil]

omit hw in
theorem verb_quiet {word : Bytes} (hword : word ∈ clauseWords) :
    topLevelWord (copy d (l.word w.verb)) word = none := by
  refine word_quiet hl _ hword ?_
  rintro rfl
  unfold verb at hword
  split at hword
  · exact absurd hword (by decide)
  · exact absurd hword (by decide)

/-- The stretches in front of the `SET`. -/
theorem front_quiet {word : Bytes} (hword : word ∈ clauseWords)
    (hfrom : word = ascii "from" → w.assignments.isSome = true) :
    Quiet d word (w.beforeTable l ++ (l.piece .table w.table.text ++ w.behindTable l)) :=
  (beforeTable_quiet hl hw hword hfrom).append ((piece_quiet hl .table
    (hw.table.lacks word hword)).append (behindTable_quiet hl hw hword))

/-- **A word the statement does not say**, outside brackets. -/
theorem text_quiet {word : Bytes} (hword : word ∈ clauseWords)
    (hset : word = ascii "set" → w.assignments = none)
    (hfrom : word = ascii "from" → w.assignments.isSome = true ∧
      (∀ a ∈ w.assignments, topLevelWord (copy d a) word = none) ∧
        ∀ p ∈ w.filter, topLevelWord (copy d p) word = none)
    (hwhere : word = ascii "where" → w.filter = none)
    (horder : word = ascii "order" → w.order = none) (hlimit : word = ascii "limit" → w.limit = none)
    (hreturning : word = ascii "returning" → w.returning = none) :
    topLevelWord (copy d (w.text l)) word = none := by
  refine (sound hl hw).word_none (verb_quiet hl hword) ?_
  have hsetClause : Quiet d word (w.setClause l) := by
    by_cases heq : word = ascii "set"
    · unfold setClause
      rw [hset heq]
      exact quiet_nil
    · exact setClause_quiet hl hw hword heq fun h => (hfrom h).2.1
  have hall := (front_quiet hl hw hword fun h => (hfrom h).1).append (hsetClause.append
    ((whereClause_quiet hl hw hword hwhere fun h => (hfrom h).2.2).append
      (tail_quiet hl hw hword horder hlimit hreturning)))
  rw [List.append_assoc, List.append_assoc] at hall
  exact hall

/-- A token that says the word makes the statement say it. -/
theorem text_says {word : Bytes} {p : UInt8 × Bytes} (hp : p ∈ w.pieces l)
    (hsaid : (topLevelWord (copy d p.2) word).isSome = true) :
    (topLevelWord (copy d (w.text l)) word).isSome = true :=
  ((sound hl hw).word_isSome word).mpr (Or.inr ⟨p, hp, hsaid⟩)

omit hl hw in
theorem mem_piece (l : Layout) (slot : Slot) (text : Bytes) :
    ((l.gap slot).blank, text) ∈ l.piece slot text :=
  List.mem_append_right _ (List.mem_singleton.mpr rfl)

omit hl hw in
theorem pieces_where {p : Bytes} (hfilter : w.filter = some p) (ending : List (UInt8 × Bytes)) :
    w.pieces l ++ ending = w.whereFront l ++ ((l.gap .whereRows).blank, l.word .whereRows) ::
      (l.piece .predicate p ++ (w.tail l ++ ending)) := by
  rw [pieces, whereFront, whereClause, hfilter, Option.elim_some, Layout.piece_eq l .whereRows]
  simp only [List.append_assoc, List.cons_append, List.nil_append]

omit hl hw in
theorem pieces_set {a : Bytes} (hset : w.assignments = some a) :
    w.pieces l = w.setFront l ++ ((l.gap .setColumns).blank, l.word .setColumns) ::
      (l.piece .assignments a ++ (w.whereClause l ++ w.tail l)) := by
  rw [pieces, setFront, setClause, hset, Option.elim_some, Layout.piece_eq l .setColumns]
  simp only [List.append_assoc, List.cons_append, List.nil_append]

theorem setFront_quiet {word : Bytes} (hword : word ∈ clauseWords)
    (hfrom : word = ascii "from" → w.assignments.isSome = true) : Quiet d word (w.setFront l) :=
  (front_quiet hl hw hword hfrom).append (remarks_quiet hl .setColumns word)

theorem whereFront_quiet {word : Bytes} (hword : word ∈ clauseWords)
    (hset : word = ascii "set" → w.assignments = none)
    (hfrom : word = ascii "from" → w.assignments.isSome = true ∧
      ∀ a ∈ w.assignments, topLevelWord (copy d a) word = none) : Quiet d word (w.whereFront l) := by
  refine ((front_quiet hl hw hword fun h => (hfrom h).1).append ?_).append
    (remarks_quiet hl .whereRows word)
  by_cases heq : word = ascii "set"
  · unfold setClause
    rw [hset heq]
    exact quiet_nil
  · exact setClause_quiet hl hw hword heq fun h => (hfrom h).2

/-- **Where the `WHERE` stands.** -/
theorem where_at {p : Bytes} (hfilter : w.filter = some p) {ending : List (UInt8 × Bytes)}
    (hend : Stretched d ending) :
    topLevelWord (copy d (w.script l ending)) (ascii "where") =
      some ((behind l.lead (spaced (l.word w.verb) (w.whereFront l))).length + 1) := by
  have hsound := sound_script hl hw hend
  rw [pieces_where hfilter] at hsound
  rw [script, pieces_where hfilter]
  refine hsound.word_at (i := 0) (verb_quiet hl (by decide)) ?_ ?_
  · exact whereFront_quiet hl hw (by decide) (fun h => absurd h (by decide))
      fun h => absurd h (by decide)
  · rw [hl.copy_word]
    decide

/-- **Where the `SET` stands.** -/
theorem set_at {a : Bytes} (hset : w.assignments = some a) :
    topLevelWord (copy d (w.text l)) (ascii "set") =
      some ((behind l.lead (spaced (l.word w.verb) (w.setFront l))).length + 1) := by
  have hsound := sound hl hw
  rw [pieces_set hset] at hsound
  rw [text, pieces_set hset]
  refine hsound.word_at (i := 0) (verb_quiet hl (by decide)) ?_ ?_
  · exact setFront_quiet hl hw (by decide) fun h => absurd h (by decide)
  · rw [hl.copy_word]
    decide

theorem setFront_single : Single d (w.setFront l) :=
  ((beforeTable_single hl hw).append ((piece_single hl .table hw.table.noComma).append
    (behindTable_single hl hw))).append (remarks_single hl .setColumns)

/-- No comma stands in front of the `SET`. -/
theorem no_comma_before {a : Bytes} (hset : w.assignments = some a) :
    ((topLevelComma (copy d (w.text l))).any fun n =>
      decide (n < (behind l.lead (spaced (l.word w.verb) (w.setFront l))).length + 1)) = false := by
  have hsound := sound hl hw
  rw [pieces_set hset] at hsound
  rw [text, pieces_set hset, topLevelComma_take]
  · obtain ⟨htake, hfront⟩ := hsound.take_copy
    rw [htake, hfront.comma_none (word_single hl _)]
    · rfl
    · refine (setFront_single hl hw).append fun q hq => ?_
      rw [List.mem_singleton.mp hq]
      rfl
  · rw [length_copy, spaced_append, behind_append, List.length_append, List.length_cons]
    omega

omit hl hw in
/-- The text from the `WHERE` on. -/
theorem drop_where {p : Bytes} (hfilter : w.filter = some p) (ending : List (UInt8 × Bytes)) :
    (w.script l ending).drop
        ((behind l.lead (spaced (l.word w.verb) (w.whereFront l))).length + 1) =
      spaced (l.word .whereRows) (l.piece .predicate p ++ (w.tail l ++ ending)) := by
  rw [script, pieces_where hfilter, drop_behind]

/-- The text is led by the verb. -/
theorem led {ending : List (UInt8 × Bytes)} (hend : Stretched d ending) :
    LedBy w.verb.name (copy d (w.script l ending)) := by
  have hsound := sound_script hl hw hend
  have hcopies : ∀ p ∈ copies d (w.pieces l ++ ending), p.1 ∈ followers := by
    intro p hp
    obtain ⟨q, hq, rfl⟩ := List.mem_map.mp hp
    exact (hsound.rest q hq).1
  have hshape : ∃ rest, StartsClear rest ∧
      spaced (copy d (l.word w.verb)) (copies d (w.pieces l ++ ending)) = w.verb.name ++ rest := by
    rw [hl.copy_word]
    cases h : copies d (w.pieces l ++ ending) with
    | nil => exact ⟨[], fun c hc => absurd hc (by simp), (List.append_nil _).symm⟩
    | cons p rest =>
      rw [h] at hcopies
      exact ⟨_, startsClear_follower (hcopies p List.mem_cons_self) _, rfl⟩
  obtain ⟨rest, hclear, hrest⟩ := hshape
  refine ⟨leadCopy d l.lead, rest, blank_of_separators (leadCopy_blanks hl.lead), hclear, ?_⟩
  rw [script, hsound.copy_eq, hrest]

theorem firstKeyword_script {ending : List (UInt8 × Bytes)} (hend : Stretched d ending) :
    firstKeyword (copy d (w.script l ending)) = w.verb.name := by
  have hkeyword : IsKeyword w.verb.name := by
    unfold verb
    split
    · exact ⟨by decide, by decide⟩
    · exact ⟨by decide, by decide⟩
  rw [(led hl hw hend).firstKeyword hkeyword]
  unfold verb
  split
  · decide
  · decide

end Clauses

end Write

end RedDb.Sql
