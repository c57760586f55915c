import RedDb.Sql.Leading
import RedDb.Sql.Locality

/-!
# RedDb — stretches of SQL

A statement is read here as stretches with a blank between two of them: keywords, names,
expressions, comments. A stretch is settled if no literal or comment is open where it ends
(`Settled`), and then the copy of the whole is the copies of its stretches, and a word or a
comma outside the parentheses of the whole is one of a stretch.

* `copy_spaced` — the copy of spaced stretches;
* `topLevelWord_spaced` — a word of a stretch, found in the whole;
* `topLevelWord_spaced_none` — no word of a stretch, none of the whole.
-/

namespace RedDb.Sql

open ByteText

/-! ## Settled stretches -/

/-- The blanks that may stand between two stretches of a statement. -/
def separators : Bytes := [32, 9, 10, 12, 13]

variable {s : UInt8}

theorem mem_separators : s ∈ separators ↔ isAsciiWhitespace s = true := by
  simp [separators, isAsciiWhitespace, or_assoc]

/-- What may stand between two stretches: a blank, or the `;` between two statements. -/
def followers : Bytes := semicolon :: separators

theorem follower_of_separator (h : s ∈ separators) : s ∈ followers :=
  List.mem_cons_of_mem _ h

/-- Where the scan of `x`, with the byte `s` behind it, stands after as many rounds as there
are bytes, or once it is at the end of `x`. -/
def scanEnd (d : Dialect) (s : UInt8) (x : Bytes) : Nat :=
  WhileLoop.run (fun i => decide (i < x.length)) (lexNext d (x ++ [s]) (x.length + 1)) x.length 0

/-- No literal, quoted identifier or comment is open where `x` ends, nor begins there. -/
def Settled (d : Dialect) (x : Bytes) : Prop :=
  (∀ s ∈ followers, scanEnd d s x = x.length) ∧ [dash, dash].isSuffixOf x = false

instance (d : Dialect) (x : Bytes) : Decidable (Settled d x) :=
  inferInstanceAs (Decidable ((∀ s ∈ followers, _ = _) ∧ _ = _))

/-- The stretches, each but the first behind its blank. -/
@[grind =] def spaced : Bytes → List (UInt8 × Bytes) → Bytes
  | x, [] => x
  | x, (s, y) :: rest => x ++ s :: spaced y rest

theorem spaced_append (x : Bytes) (xs : List (UInt8 × Bytes)) (s : UInt8) (y : Bytes)
    (ys : List (UInt8 × Bytes)) :
    spaced x (xs ++ (s, y) :: ys) = spaced x xs ++ s :: spaced y ys := by
  induction xs generalizing x with
  | nil => rfl
  | cons p rest ih =>
    obtain ⟨t, z⟩ := p
    rw [List.cons_append, spaced, spaced, ih, List.append_assoc]
    rfl

variable {b : Bytes} {i : Nat}

section Settled

variable {d : Dialect} {x : Bytes} {s : UInt8}

theorem follower_word (hs : s ∈ followers) : isWordByte s = false := by
  simp only [followers, separators, List.mem_cons, List.not_mem_nil, or_false] at hs
  rcases hs with rfl | rfl | rfl | rfl | rfl | rfl <;> decide

theorem follower_breaks (hs : s ∈ followers) : breaksLexeme s = true := by
  simp only [followers, separators, List.mem_cons, List.not_mem_nil, or_false] at hs
  rcases hs with rfl | rfl | rfl | rfl | rfl | rfl <;> decide

theorem follower_lower (hs : s ∈ followers) : toAsciiLower s = s := by
  simp only [followers, separators, List.mem_cons, List.not_mem_nil, or_false] at hs
  rcases hs with rfl | rfl | rfl | rfl | rfl | rfl <;> decide

theorem follower_depth (hs : s ∈ followers) : bracketDepth [s] = 0 := by
  simp only [followers, separators, List.mem_cons, List.not_mem_nil, or_false] at hs
  rcases hs with rfl | rfl | rfl | rfl | rfl | rfl <;> decide

theorem startsClear_follower (hs : s ∈ followers) (rest : Bytes) : StartsClear (s :: rest) := by
  intro c hc
  rw [← Option.some.inj hc]
  exact follower_word hs

/-- No lexeme opens at a blank or a `;`. -/
theorem noiseEnd_follower {stop : Nat} (hs : s ∈ followers) (hc : b[i]? = some s) :
    noiseEnd d b stop i = none := by
  have hne : isQuote s = false ∧ s ≠ dash ∧ s ≠ ByteText.hash ∧ s ≠ slash ∧ s ≠ dollar := by
    simp only [followers, separators, List.mem_cons, List.not_mem_nil, or_false] at hs
    rcases hs with rfl | rfl | rfl | rfl | rfl | rfl <;> decide
  obtain ⟨hquote, hdash, hhash, hslash, hdollar⟩ := hne
  simp [noiseEnd, hc, hquote, hdash, hhash, hslash, hdollar, Dialect.dashCommentAt]

theorem Settled.reaches (h : Settled d x) (hs : s ∈ followers) :
    Reaches d (x ++ [s]) (x.length + 1) 0 x.length := by
  have hvisits := @WhileLoop.visits_run _ (fun i => decide (i < x.length))
    (lexNext d (x ++ [s]) (x.length + 1)) x.length 0
  have hend : scanEnd d s x = x.length := h.1 s hs
  unfold scanEnd at hend
  rw [hend] at hvisits
  refine Relation.ReflTransGen.mono ?_ _ _ hvisits
  rintro i j ⟨hi, rfl⟩
  have hlt : i < x.length := of_decide_eq_true hi
  exact ⟨decide_eq_true (by omega), rfl⟩

theorem wordEnd_lt_follower (hs : s ∈ followers) (hi : i ≤ x.length) :
    wordEnd (x ++ [s]) i < (x ++ [s]).length := by
  have hle := wordEnd_le (b := x ++ [s]) (i := i) (by simp; omega)
  refine Nat.lt_of_le_of_ne hle fun heq => ?_
  have hlast : ∃ c, (x ++ [s])[x.length]? = some c ∧ isWordByte c = true := by
    refine takeWhile_span hi ?_
    unfold wordEnd at heq
    rw [heq, List.length_append]
    exact Nat.lt_succ_self _
  obtain ⟨c, hc, hword⟩ := hlast
  rw [List.getElem?_append_right (Nat.le_refl _), Nat.sub_self] at hc
  obtain rfl := Option.some.inj hc
  rw [follower_word hs] at hword
  exact Bool.noConfusion hword

/-- A dollar quote that closes in front of the blank, or opens none there. -/
theorem dollarQuoteEnd_follower (hs : s ∈ followers) (rest : Bytes)
    (hi : i < x.length)
    (hnext : ∀ e, dollarQuoteEnd (x ++ [s]) i = some e → e < (x ++ [s]).length) :
    dollarQuoteEnd (x ++ [s] ++ rest) i = dollarQuoteEnd (x ++ [s]) i := by
  have hword := wordEnd_lt_follower (x := x) hs (i := i + 1) hi
  unfold dollarQuoteEnd at hnext ⊢
  dsimp only at hnext ⊢
  rw [wordEnd_append rest (by simp; omega) hword, getElem?_take hword, slice_append rest (by omega),
    drop_take (by omega)]
  split
  · rename_i hdollar
    rw [if_pos hdollar] at hnext
    cases hfind : findBytes (slice (x ++ [s]) i (wordEnd (x ++ [s]) (i + 1) + 1))
        (List.drop (wordEnd (x ++ [s]) (i + 1) + 1) (x ++ [s])) with
    | some off => rw [findBytes_append_some rest hfind]
    | none =>
      rw [hfind] at hnext
      exact absurd (hnext _ rfl) (Nat.lt_irrefl _)
  · rfl

theorem Settled.reaches_append (h : Settled d x) (hs : s ∈ followers) (rest : Bytes) :
    Reaches d (x ++ s :: rest) (x ++ s :: rest).length 0 x.length := by
  have hlen : (x ++ [s]).length = x.length + 1 := by simp
  have hshape : x ++ s :: rest = x ++ [s] ++ rest := by simp
  rw [hshape]
  have hgo : ∀ k, Reaches d (x ++ [s]) (x.length + 1) 0 k → k ≤ x.length →
      Reaches d (x ++ [s] ++ rest) (x ++ [s] ++ rest).length 0 k := by
    intro k hk
    induction hk with
    | refl => exact fun _ => Relation.ReflTransGen.refl
    | @tail b c hb hr ih =>
      intro hc
      obtain ⟨hlt, rfl⟩ := hr
      have hlt : b < x.length + 1 := of_decide_eq_true hlt
      have hbounds := lexNext_bounds (d := d) (b := x ++ [s]) (by omega) hlt
      have hnext : lexNext d (x ++ [s] ++ rest) (x ++ [s] ++ rest).length b =
          lexNext d (x ++ [s]) (x.length + 1) b := by
        rw [← hlen]
        refine lexNext_append rest (by omega) (by rw [hlen]; omega) fun hdollar hquotes => ?_
        refine dollarQuoteEnd_follower hs rest (by omega) fun e he => ?_
        have hend : lexNext d (x ++ [s]) (x.length + 1) b = min e (x.length + 1) := by
          unfold lexNext noiseEnd
          rw [hdollar]
          simp [isQuote, Dialect.dashCommentAt, hdollar, hquotes, he, dollar, singleQuote,
            doubleQuote, backtick, dash, ByteText.hash, slash]
        omega
      refine (ih (by omega)).trans (Relation.ReflTransGen.single ⟨?_, hnext.symm⟩)
      refine decide_eq_true ?_
      rw [List.length_append, hlen]
      omega
  exact hgo _ (h.reaches hs) (Nat.le_refl _)

/-- The dashes a settled stretch ends with are no comment's. -/
theorem Settled.no_cut (h : Settled d x) {post : Bytes} (j : Nat) : ¬ CutDashes d x post j := by
  rintro ⟨-, hj, hfirst, hsecond, -⟩
  have hsuffix : [dash, dash] <:+ x := by
    obtain ⟨h0, e0⟩ := List.getElem?_eq_some_iff.mp hfirst
    obtain ⟨h1, e1⟩ := List.getElem?_eq_some_iff.mp hsecond
    refine ⟨x.take j, ?_⟩
    conv_rhs => rw [← List.take_append_drop j x, List.drop_eq_getElem_cons h0,
      List.drop_eq_getElem_cons h1, List.drop_of_length_le (by omega), e0, e1]
  rw [← List.isSuffixOf_iff_suffix, h.2] at hsuffix
  exact Bool.noConfusion hsuffix

/-- The copy up to the end of a settled stretch. -/
theorem Settled.stripNoise_cut (h : Settled d x) (hs : s ∈ followers) (rest : Bytes) :
    stripNoise (x ++ s :: rest) d =
      stripNoise x d ++ strip d (x ++ s :: rest) x.length (x ++ s :: rest).length := by
  have hbreaks : Breaks (s :: rest) := by
    intro c hc
    rw [← Option.some.inj hc]
    exact follower_breaks hs
  have hleft : strip d x 0 x.length = strip d (x ++ s :: rest) 0 x.length := by
    rcases strip_take hbreaks (x := x) (d := d) x.length 0 x.length (Nat.le_refl _) (by omega)
      (Or.inl rfl) with hsame | ⟨⟨j, hcut⟩, -⟩
    · exact hsame
    · exact absurd hcut (h.no_cut j)
  rw [stripNoise_eq, stripNoise_eq x,
    strip_append (Nat.le_refl _) (h.reaches_append hs rest) (Nat.zero_le _), ← hleft]

/-- **The copy** of a settled stretch and of what follows behind a blank. -/
theorem Settled.stripNoise_append (h : Settled d x) (hs : s ∈ followers) (rest : Bytes) :
    stripNoise (x ++ s :: rest) d = stripNoise x d ++ s :: stripNoise rest d := by
  have hopens : Opens (x ++ [s]) := by
    intro c hc
    rw [List.getLast?_concat] at hc
    rw [← Option.some.inj hc]
    exact follower_word hs
  have hlive : strip d (x ++ s :: rest) x.length (x ++ s :: rest).length =
      s :: strip d (x ++ s :: rest) (x.length + 1) (x ++ s :: rest).length := by
    have hblank : (x ++ s :: rest)[x.length]? = some s := by
      rw [List.getElem?_append_right (Nat.le_refl _), Nat.sub_self]
      rfl
    have hslash : s ≠ slash := by
      rintro rfl
      exact absurd hs (by decide)
    exact strip_live (by simp) (Nat.le_refl _) hblank (exec_of_ne_slash hblank hslash)
      (noiseEnd_follower hs hblank)
  have hright : strip d (x ++ s :: rest) (x.length + 1) (x ++ s :: rest).length =
      strip d rest 0 rest.length := by
    have hshift := strip_shift (d := d) (y := rest) hopens rest.length 0 rest.length
      (Nat.le_refl _) (by omega)
    have hlen : (x ++ [s]).length = x.length + 1 := by simp
    have htotal : (x ++ s :: rest).length = x.length + 1 + rest.length := by simp; omega
    rw [hlen, Nat.add_zero, List.append_assoc, List.singleton_append] at hshift
    rw [htotal]
    exact hshift
  rw [h.stripNoise_cut hs, stripNoise_eq rest, hlive, hright]

end Settled

/-! ## The copy of the whole -/

/-- The lower-cased copy that the clause scanners read. -/
def copy (d : Dialect) (x : Bytes) : Bytes := asciiLower (stripNoise x d)

/-- Stretches, each in its copy. -/
def copies (d : Dialect) (xs : List (UInt8 × Bytes)) : List (UInt8 × Bytes) :=
  xs.map fun p => (p.1, copy d p.2)

theorem length_copy (d : Dialect) (x : Bytes) : (copy d x).length = x.length := by
  unfold copy asciiLower
  rw [List.length_map, length_stripNoise]

variable {x : Bytes}

theorem Settled.copy_append {d : Dialect} (h : Settled d x) (hs : s ∈ followers) (rest : Bytes) :
    copy d (x ++ s :: rest) = copy d x ++ s :: copy d rest := by
  unfold copy
  rw [h.stripNoise_append hs, asciiLower_append, asciiLower, asciiLower, asciiLower, List.map_cons,
    follower_lower hs]

variable {xs : List (UInt8 × Bytes)}

/-- **The copy of spaced stretches** is their copies, spaced. -/
theorem copy_spaced {d : Dialect} (hx : Settled d x)
    (h : ∀ p ∈ xs, p.1 ∈ followers ∧ Settled d p.2) :
    copy d (spaced x xs) = spaced (copy d x) (copies d xs) := by
  induction xs generalizing x with
  | nil => rfl
  | cons p rest ih =>
    obtain ⟨hp, hclosed⟩ := h p List.mem_cons_self
    rw [spaced, hx.copy_append hp, ih hclosed fun q hq => h q (List.mem_cons_of_mem p hq)]
    rfl

/-! ## Words of the whole -/

variable {u v : Bytes}

theorem StartsClear.of_append (hu : StartsClear u) (hv : StartsClear v) : StartsClear (u ++ v) := by
  cases u with
  | nil => exact hv
  | cons c u => exact hu

theorem topLevelWordFrom_fuel (word : Bytes) {fuel : Nat} (depth : Int) (at' : Nat)
    (hfuel : b.length ≤ fuel) :
    topLevelWordFrom word fuel depth at' b = topLevelWordFrom word b.length depth at' b := by
  induction b using words_induction generalizing fuel depth at' with
  | nil => cases fuel <;> rfl
  | gap c rest hc ih =>
    rw [List.length_cons] at hfuel ⊢
    obtain ⟨k, rfl⟩ : ∃ k, fuel = k + 1 := ⟨fuel - 1, by omega⟩
    rw [topLevelWordFrom_gap hc, topLevelWordFrom_gap hc, ih _ _ (by omega)]
  | word w v hw hv ih =>
    have hpos := List.length_pos_iff.mpr hw.nonempty
    rw [List.length_append] at hfuel
    obtain ⟨k, rfl⟩ : ∃ k, fuel = k + 1 := ⟨fuel - 1, by omega⟩
    obtain ⟨j, hj⟩ : ∃ j, (w ++ v).length = j + 1 :=
      ⟨(w ++ v).length - 1, by rw [List.length_append]; omega⟩
    rw [hj, topLevelWordFrom_word hw hv, topLevelWordFrom_word hw hv]
    rw [List.length_append] at hj
    rw [ih _ _ (show v.length ≤ k by omega), ih _ _ (show v.length ≤ j by omega)]

/-- The search in two parts, the second of which does not go on with a word of the first. -/
theorem topLevelWordFrom_append (word : Bytes) (depth : Int) (at' : Nat) (hv : StartsClear v) :
    topLevelWordFrom word (u ++ v).length depth at' (u ++ v) =
      (topLevelWordFrom word u.length depth at' u).or
        (topLevelWordFrom word v.length (depth + bracketDepth u) (at' + u.length) v) := by
  induction u using words_induction generalizing depth at' with
  | nil =>
    rw [List.nil_append, bracketDepth]
    simp [topLevelWordFrom]
  | gap c rest hc ih =>
    rw [List.cons_append, List.length_cons, List.length_cons, topLevelWordFrom_gap hc,
      topLevelWordFrom_gap hc, ih, bracketDepth_cons c rest]
    rw [Int.add_assoc, Nat.add_assoc, Nat.add_comm 1 rest.length]
  | word w x hw hx ih =>
    have hpos := List.length_pos_iff.mpr hw.nonempty
    obtain ⟨j, hj⟩ : ∃ j, (w ++ x).length = j + 1 :=
      ⟨(w ++ x).length - 1, by rw [List.length_append]; omega⟩
    obtain ⟨k, hk⟩ : ∃ k, (w ++ (x ++ v)).length = k + 1 :=
      ⟨(w ++ (x ++ v)).length - 1, by rw [List.length_append]; omega⟩
    rw [List.append_assoc, hk, hj, topLevelWordFrom_word hw (hx.of_append hv),
      topLevelWordFrom_word hw hx]
    rw [List.length_append] at hj hk
    by_cases hfound : depth = 0 ∧ w = word
    · rw [if_pos hfound, if_pos hfound, Option.some_or]
    rw [if_neg hfound, if_neg hfound,
      topLevelWordFrom_fuel word depth _ (show (x ++ v).length ≤ k by omega),
      topLevelWordFrom_fuel word depth _ (show x.length ≤ j by omega), ih,
      bracketDepth_append, bracketDepth_word hw, Int.zero_add, Nat.add_assoc, hj]

theorem topLevelWordFrom_shift (word b : Bytes) (fuel : Nat) (depth : Int) (at' : Nat) :
    topLevelWordFrom word fuel depth at' b =
      (topLevelWordFrom word fuel depth 0 b).map (at' + ·) := by
  induction fuel generalizing depth at' b with
  | zero => rfl
  | succ fuel ih =>
    cases b with
    | nil => rfl
    | cons c rest =>
      rw [topLevelWordFrom, topLevelWordFrom]
      dsimp only
      split
      · rw [ih _ _ (at' + 1), ih _ _ (0 + 1), Option.map_map]
        exact congrFun (congrArg _ (funext fun n => by simp; omega)) _
      split
      · rw [ih _ _ (at' + 1), ih _ _ (0 + 1), Option.map_map]
        exact congrFun (congrArg _ (funext fun n => by simp; omega)) _
      split
      · split
        · rfl
        · rw [ih _ _ (at' + _), ih _ _ (0 + _), Option.map_map]
          exact congrFun (congrArg _ (funext fun n => by simp; omega)) _
      · rw [ih _ _ (at' + 1), ih _ _ (0 + 1), Option.map_map]
        exact congrFun (congrArg _ (funext fun n => by simp; omega)) _

/-- **A word of the whole** is the first part's, or one of the rest. -/
theorem topLevelWord_append (hv : StartsClear v) (word : Bytes) (hlevel : bracketDepth u = 0) :
    topLevelWord (u ++ v) word =
      (topLevelWord u word).or ((topLevelWord v word).map (u.length + ·)) := by
  unfold topLevelWord
  rw [topLevelWordFrom_append word 0 0 hv, hlevel, Int.add_zero, Nat.zero_add,
    topLevelWordFrom_shift word v v.length 0 u.length]

/-- A word behind a blank or a `;`. -/
theorem topLevelWord_follower (hs : s ∈ followers) (v word : Bytes) :
    topLevelWord (s :: v) word = (topLevelWord v word).map (1 + ·) := by
  unfold topLevelWord
  rw [List.length_cons, topLevelWordFrom_gap (follower_word hs), follower_depth hs, Int.add_zero,
    topLevelWordFrom_shift word v v.length 0 (0 + 1)]

/-- A word of two parts with a blank or a `;` between them. -/
theorem topLevelWord_between (hs : s ∈ followers) (v word : Bytes) (hlevel : bracketDepth u = 0) :
    topLevelWord (u ++ s :: v) word =
      (topLevelWord u word).or ((topLevelWord v word).map (u.length + 1 + ·)) := by
  rw [topLevelWord_append (startsClear_follower hs v) word hlevel, topLevelWord_follower hs,
    Option.map_map]
  refine congrArg _ (congrFun (congrArg _ (funext fun n => ?_)) _)
  rw [Function.comp_apply, Nat.add_assoc]

/-- Stretches with as many `(` as `)` in each, and a blank in front of each but the first. -/
def Level (x : Bytes) (xs : List (UInt8 × Bytes)) : Prop :=
  bracketDepth x = 0 ∧ ∀ p ∈ xs, p.1 ∈ followers ∧ bracketDepth p.2 = 0

theorem Level.rest {p : UInt8 × Bytes} (h : Level x (p :: xs)) : Level p.2 xs :=
  ⟨(h.2 p List.mem_cons_self).2, fun q hq => h.2 q (List.mem_cons_of_mem p hq)⟩

theorem bracketDepth_spaced (h : Level x xs) : bracketDepth (spaced x xs) = 0 := by
  induction xs generalizing x with
  | nil => exact h.1
  | cons p rest ih =>
    rw [spaced, bracketDepth_append, bracketDepth_cons, h.1,
      follower_depth (h.2 p List.mem_cons_self).1, ih h.rest]
    rfl

variable {word : Bytes}

/-- **A word of the whole is one of a stretch.** -/
theorem topLevelWord_spaced_isSome (h : Level x xs) :
    (topLevelWord (spaced x xs) word).isSome = true ↔ (topLevelWord x word).isSome = true ∨
        ∃ p ∈ xs, (topLevelWord p.2 word).isSome = true := by
  induction xs generalizing x with
  | nil => simp [spaced]
  | cons p rest ih =>
    rw [spaced, topLevelWord_between (h.2 p List.mem_cons_self).1 _ word h.1, Option.isSome_or,
      Option.isSome_map, Bool.or_eq_true, ih h.rest]
    simp only [List.mem_cons, exists_eq_or_imp]

/-- No word of a stretch, none of the whole. -/
theorem topLevelWord_spaced_none (h : Level x xs)
    (hx : topLevelWord x word = none) (hxs : ∀ p ∈ xs, topLevelWord p.2 word = none) :
    topLevelWord (spaced x xs) word = none := by
  rw [← Option.not_isSome_iff_eq_none, topLevelWord_spaced_isSome h]
  rintro (hsome | ⟨p, hp, hsome⟩)
  · rw [hx] at hsome
    exact Bool.noConfusion hsome
  · rw [hxs p hp] at hsome
    exact Bool.noConfusion hsome

/-- The word of the first stretch that has it, behind stretches that have it not. -/
theorem topLevelWord_spaced {y : Bytes} {ys : List (UInt8 × Bytes)}
    (h : Level x (xs ++ (s, y) :: ys)) (hx : topLevelWord x word = none)
    (hxs : ∀ p ∈ xs, topLevelWord p.2 word = none) (hy : topLevelWord y word = some i) :
    topLevelWord (spaced x (xs ++ (s, y) :: ys)) word = some ((spaced x xs).length + 1 + i) := by
  have hleft : Level x xs := ⟨h.1, fun p hp => h.2 p (List.mem_append_left _ hp)⟩
  have hs : s ∈ followers := (h.2 (s, y) (by simp)).1
  have hlevel : bracketDepth y = 0 := (h.2 (s, y) (by simp)).2
  rw [spaced_append, topLevelWord_between hs _ word (bracketDepth_spaced hleft),
    topLevelWord_spaced_none hleft hx hxs, Option.none_or]
  cases ys with
  | nil =>
    show (topLevelWord y word).map _ = _
    rw [hy]
    rfl
  | cons p ys =>
    have hp : p.1 ∈ followers := (h.2 p (by simp)).1
    rw [spaced, topLevelWord_between hp _ word hlevel, hy]
    rfl

/-! ## Commas -/

/-- `top_level_comma` from offset `at'` on. -/
@[grind =] def topLevelCommaFrom : Int → Nat → Bytes → Option Nat
  | _, _, [] => none
  | depth, at', c :: rest =>
    if c == openParen then topLevelCommaFrom (depth + 1) (at' + 1) rest
    else if c == closeParen then topLevelCommaFrom (depth - 1) (at' + 1) rest
    else if c == 44 && depth == 0 then some at'
    else topLevelCommaFrom depth (at' + 1) rest

/-- The offset of the first comma outside the parentheses. -/
def topLevelComma (lower : Bytes) : Option Nat := topLevelCommaFrom 0 0 lower

theorem topLevelCommaFrom_bounds {depth : Int} {at' n : Nat}
    (h : topLevelCommaFrom depth at' b = some n) : at' ≤ n ∧ n < at' + b.length := by
  induction b generalizing depth at' with
  | nil => cases h
  | cons c rest ih =>
    rw [List.length_cons]
    rw [topLevelCommaFrom] at h
    split at h
    · have := ih h
      omega
    split at h
    · have := ih h
      omega
    split at h
    · have := Option.some.inj h
      omega
    · have := ih h
      omega

theorem topLevelCommaFrom_append (u v : Bytes) (depth : Int) (at' : Nat) :
    topLevelCommaFrom depth at' (u ++ v) = (topLevelCommaFrom depth at' u).or
        (topLevelCommaFrom (depth + bracketDepth u) (at' + u.length) v) := by
  induction u generalizing depth at' with
  | nil =>
    rw [List.nil_append, bracketDepth]
    simp [topLevelCommaFrom]
  | cons c rest ih =>
    rw [List.cons_append, topLevelCommaFrom, topLevelCommaFrom, List.length_cons,
      bracketDepth_cons c rest]
    by_cases ho : (c == openParen) = true
    · rw [if_pos ho, if_pos ho, ih, beq_iff_eq.mp ho, show bracketDepth [openParen] = 1 from rfl,
        Int.add_assoc, Nat.add_assoc, Nat.add_comm 1 rest.length]
    by_cases hc : (c == closeParen) = true
    · rw [if_neg ho, if_neg ho, if_pos hc, if_pos hc, ih, beq_iff_eq.mp hc,
        show bracketDepth [closeParen] = -1 from rfl, ← Int.add_assoc, Nat.add_assoc,
        Nat.add_comm 1 rest.length]
      rfl
    have hzero : bracketDepth [c] = 0 := by
      unfold bracketDepth
      rw [List.count_singleton, List.count_singleton, if_neg ho, if_neg hc]
      rfl
    rw [if_neg ho, if_neg ho, if_neg hc, if_neg hc, ih, hzero, Int.zero_add, Nat.add_assoc,
      Nat.add_comm 1 rest.length]
    split
    · rfl
    · rfl

/-- A comma in front of an offset is one of the text up to there. -/
theorem topLevelComma_take {bound : Nat} (hbound : bound ≤ b.length) :
    ((topLevelComma b).any fun n => decide (n < bound)) = (topLevelComma (b.take bound)).isSome := by
  have hlen : (b.take bound).length = bound := by rw [List.length_take]; omega
  unfold topLevelComma
  conv_lhs => rw [← List.take_append_drop bound b, topLevelCommaFrom_append]
  cases hu : topLevelCommaFrom 0 0 (b.take bound) with
  | some n =>
    have := (topLevelCommaFrom_bounds hu).2
    simp only [Option.some_or, Option.any_some, Option.isSome_some, decide_eq_true_eq]
    omega
  | none =>
    rw [Option.none_or, Option.isSome_none]
    cases hv : topLevelCommaFrom (0 + bracketDepth (b.take bound)) (0 + (b.take bound).length)
        (b.drop bound) with
    | none => rfl
    | some n =>
      have := (topLevelCommaFrom_bounds hv).1
      simp only [Option.any_some, decide_eq_false_iff_not]
      omega

theorem topLevelCommaFrom_shift (b : Bytes) (depth : Int) (at' from' : Nat) :
    (topLevelCommaFrom depth at' b).isSome = (topLevelCommaFrom depth from' b).isSome := by
  induction b generalizing depth at' from' with
  | nil => rfl
  | cons c rest ih =>
    rw [topLevelCommaFrom, topLevelCommaFrom]
    split
    · exact ih ..
    split
    · exact ih ..
    split
    · rfl
    · exact ih ..

/-- **A comma of the whole is one of a stretch.** -/
theorem topLevelComma_spaced_isSome (h : Level x xs) : (topLevelComma (spaced x xs)).isSome = true ↔
      (topLevelComma x).isSome = true ∨ ∃ p ∈ xs, (topLevelComma p.2).isSome = true := by
  induction xs generalizing x with
  | nil => simp [spaced]
  | cons p rest ih =>
    have hp : p.1 ∈ followers := (h.2 p List.mem_cons_self).1
    have hcomma : ¬ (p.1 == 44 && (0 : Int) == 0) = true := by
      intro hc
      rw [Bool.and_eq_true, beq_iff_eq] at hc
      rw [hc.1] at hp
      exact absurd hp (by decide)
    have ho : ¬ (p.1 == openParen) = true := by
      intro hc
      rw [beq_iff_eq.mp hc] at hp
      exact absurd hp (by decide)
    have hcl : ¬ (p.1 == closeParen) = true := by
      intro hc
      rw [beq_iff_eq.mp hc] at hp
      exact absurd hp (by decide)
    have hrest : (topLevelComma (spaced p.2 rest)).isSome =
        (topLevelCommaFrom 0 (0 + x.length) (p.1 :: spaced p.2 rest)).isSome := by
      rw [topLevelCommaFrom, if_neg ho, if_neg hcl, if_neg hcomma]
      exact topLevelCommaFrom_shift _ 0 0 _
    have hsplit : (topLevelComma (spaced x (p :: rest))).isSome =
        ((topLevelComma x).isSome || (topLevelComma (spaced p.2 rest)).isSome) := by
      rw [hrest]
      unfold topLevelComma
      rw [spaced, topLevelCommaFrom_append, h.1, Option.isSome_or, Int.add_zero]
    rw [hsplit, Bool.or_eq_true, ih h.rest]
    simp only [List.mem_cons, exists_eq_or_imp]

end RedDb.Sql
