import RedDb.Sql.Strip

/-!
# RedDb — words at the top level of a statement

`has_word` asks for a word anywhere in a stripped text, `top_level_word` for one
outside the parentheses: a subquery has its own `WHERE`. Both read a text as
words and the bytes between them, which is the induction `words_induction`; an
occurrence is a way to cut the text around the word (`Stands`).

* `hasWord_iff` — the word stands somewhere;
* `topLevelWord_isSome_iff` — it stands behind as many `(` as `)`.
-/

namespace RedDb.Sql

open ByteText

/-- `top_level_word` from offset `at'` on, with the text still to read. -/
@[grind =] def topLevelWordFrom (word : Bytes) : Nat → Int → Nat → Bytes → Option Nat
  | 0, _, _, _ => none
  | _, _, _, [] => none
  | fuel + 1, depth, at', c :: rest =>
    if c == openParen then topLevelWordFrom word fuel (depth + 1) (at' + 1) rest
    else if c == closeParen then topLevelWordFrom word fuel (depth - 1) (at' + 1) rest
    else if isWordByte c then
      let w := (c :: rest).takeWhile isWordByte
      if depth == 0 && w == word then some at'
      else topLevelWordFrom word fuel depth (at' + w.length) ((c :: rest).drop w.length)
    else topLevelWordFrom word fuel depth (at' + 1) rest

/-- The offset of the first `word` outside the parentheses of a stripped,
lower-cased text. -/
def topLevelWord (lower word : Bytes) : Option Nat :=
  topLevelWordFrom word lower.length 0 0 lower

/-! ## Where a word stands -/

/-- No word goes on past the end of `pre`. -/
def EndsWord (pre : Bytes) : Prop := ∀ c ∈ pre.getLast?, isWordByte c = false

/-- No word goes on at the start of `post`. -/
def StartsClear (post : Bytes) : Prop := ∀ c ∈ post.head?, isWordByte c = false

/-- `word` stands in `b` between `pre` and `post`, as a whole word. -/
structure Stands (word b pre post : Bytes) : Prop where
  cut : b = pre ++ (word ++ post)
  before : EndsWord pre
  after : StartsClear post

/-- The `(` of a text less its `)`. -/
def bracketDepth (b : Bytes) : Int := b.count openParen - b.count closeParen

/-- A keyword: not empty, and of word bytes only. -/
structure IsWord (word : Bytes) : Prop where
  nonempty : word ≠ []
  bytes : ∀ c ∈ word, isWordByte c = true

instance (word : Bytes) : Decidable (IsWord word) :=
  decidable_of_iff (word ≠ [] ∧ word.all isWordByte = true)
    ⟨fun h => ⟨h.1, List.all_eq_true.mp h.2⟩, fun h => ⟨h.nonempty, List.all_eq_true.mpr h.bytes⟩⟩

/-- A text is empty, a byte between words and a text, or a word and a text that
does not go on with it. -/
theorem words_induction {P : Bytes → Prop} (nil : P [])
    (gap : ∀ c rest, isWordByte c = false → P rest → P (c :: rest))
    (word : ∀ w v, IsWord w → StartsClear v → P v → P (w ++ v)) (b : Bytes) : P b := by
  induction hn : b.length using Nat.strongRecOn generalizing b with
  | _ n ih =>
    subst hn
    cases b with
    | nil => exact nil
    | cons c rest =>
      cases hc : isWordByte c with
      | false => exact gap c rest hc (ih _ (Nat.lt_succ_self _) rest rfl)
      | true =>
        have hne : (c :: rest).takeWhile isWordByte ≠ [] := by simp [hc]
        have hlen := List.length_pos_iff.mpr hne
        have hsum := congrArg List.length (List.takeWhile_append_dropWhile (p := isWordByte)
          (l := c :: rest))
        rw [List.length_append] at hsum
        rw [← List.takeWhile_append_dropWhile (p := isWordByte) (l := c :: rest)]
        refine word _ _ ⟨hne, fun x hx => ?_⟩ ?_ (ih _ (by omega) _ rfl)
        · exact List.all_eq_true.mp List.all_takeWhile x hx
        · intro x hx
          have := List.head?_dropWhile_not isWordByte (c :: rest)
          rw [Option.mem_def.mp hx] at this
          simpa using this

variable {post v w : Bytes} {c : UInt8}

section Cuts

variable {word : Bytes} (hword : IsWord word)

include hword

theorem IsWord.not_startsClear : ¬ StartsClear (word ++ post) := by
  intro h
  obtain ⟨c, w, rfl⟩ := List.exists_cons_of_ne_nil hword.nonempty
  have hc := h c rfl
  rw [hword.bytes c (List.mem_cons_self ..)] at hc
  exact Bool.noConfusion hc

theorem not_stands_nil (pre post : Bytes) : ¬ Stands word [] pre post := by
  intro h
  have hnil := List.append_eq_nil_iff.mp h.cut.symm
  exact hword.nonempty (List.append_eq_nil_iff.mp hnil.2).1

/-- Nothing stands on a byte between words. -/
theorem stands_gap {rest pre : Bytes} (hc : isWordByte c = false) :
    Stands word (c :: rest) pre post ↔ ∃ pre', pre = c :: pre' ∧ Stands word rest pre' post := by
  constructor
  · rintro ⟨hcut, hbefore, hafter⟩
    cases pre with
    | nil =>
      have hclear : ¬ StartsClear (word ++ post) := hword.not_startsClear
      refine absurd ?_ hclear
      intro x hx
      rw [← List.nil_append (word ++ post), ← hcut] at hx
      rw [← Option.some.inj hx]
      exact hc
    | cons x pre' =>
      obtain ⟨rfl, hrest⟩ := List.cons.inj hcut
      refine ⟨pre', rfl, hrest, fun y hy => ?_, hafter⟩
      cases pre' with
      | nil => cases hy
      | cons z zs => exact hbefore y (by rwa [List.getLast?_cons_cons])
  · rintro ⟨pre', rfl, hcut, hbefore, hafter⟩
    refine ⟨by rw [hcut, List.cons_append], fun y hy => ?_, hafter⟩
    cases pre' with
    | nil =>
      obtain rfl := Option.some.inj hy
      exact hc
    | cons z zs => exact hbefore y (by rwa [List.getLast?_cons_cons] at hy)

/-- In front of a text that does not go on with it, only `w` itself stands. -/
theorem stands_word {pre : Bytes} (hw : IsWord w) (hv : StartsClear v) :
    Stands word (w ++ v) pre post ↔ (pre = [] ∧ post = v ∧ w = word) ∨
        ∃ pre', pre = w ++ pre' ∧ Stands word v pre' post := by
  constructor
  · rintro ⟨hcut, hbefore, hafter⟩
    rcases List.append_eq_append_iff.mp hcut with ⟨pre', rfl, rfl⟩ | ⟨w', rfl, hrest⟩
    · refine Or.inr ⟨pre', rfl, rfl, fun y hy => ?_, hafter⟩
      have hlast : (w ++ pre').getLast? = some y := by
        rw [List.getLast?_append, Option.mem_def.mp hy, Option.some_or]
      exact hbefore y hlast
    left
    cases pre with
    | nil =>
      rw [List.nil_append] at hw
      -- `word ++ post = w' ++ v`, and neither word goes on
      rcases List.append_eq_append_iff.mp hrest with ⟨x, rfl, rfl⟩ | ⟨x, rfl, rfl⟩
      · cases x with
        | nil => simp
        | cons y ys =>
          have hy := hafter y rfl
          rw [hw.bytes y (by simp)] at hy
          exact Bool.noConfusion hy
      · cases x with
        | nil => simp
        | cons y ys =>
          have hy := hv y rfl
          rw [hword.bytes y (by simp)] at hy
          exact Bool.noConfusion hy
    | cons x xs =>
      have hlast := List.getLast?_eq_getLast_of_ne_nil (List.cons_ne_nil x xs)
      have hclear := hbefore _ hlast
      rw [hw.bytes _ (List.mem_append_left _ (List.getLast_mem _))] at hclear
      exact Bool.noConfusion hclear
  · rintro (⟨rfl, rfl, rfl⟩ | ⟨pre', rfl, hcut, hbefore, hafter⟩)
    · exact ⟨rfl, fun y hy => absurd hy (by simp), hv⟩
    · refine ⟨by rw [hcut, List.append_assoc], fun y hy => ?_, hafter⟩
      cases pre' with
      | nil => exact absurd (hcut ▸ hv) hword.not_startsClear
      | cons z zs =>
        rw [List.getLast?_append_of_ne_nil _ (List.cons_ne_nil z zs)] at hy
        exact hbefore y hy

end Cuts

/-! ## The two searches -/

theorem splitOnP_gap {p : UInt8 → Bool} (hc : p c = true) (rest : Bytes) :
    (c :: rest).splitOnP p = [] :: rest.splitOnP p := by
  rw [List.splitOnP_cons_eq_if_modifyHead, if_pos hc]

theorem splitOnP_word {p : UInt8 → Bool} (hw : ∀ c ∈ w, p c = false)
    (hv : ∀ c ∈ v.head?, p c = true) : (w ++ v).splitOnP p = w :: (v.splitOnP p).tail := by
  cases v with
  | nil =>
    rw [List.append_nil, List.splitOnP_eq_singleton hw]
    rfl
  | cons c rest =>
    rw [List.splitOnP_append_cons_of_forall_mem hw c (hv c rfl), splitOnP_gap (hv c rfl)]
    rfl

variable {b word : Bytes}

/-- **Whole words.** `has_word` finds a word exactly where it stands. -/
theorem hasWord_iff (hword : IsWord word) :
    hasWord b word = true ↔ ∃ pre post, Stands word b pre post := by
  unfold hasWord
  rw [List.contains_iff_mem]
  induction b using words_induction with
  | nil =>
    refine ⟨fun h => ?_, fun ⟨pre, post, h⟩ => absurd h (not_stands_nil hword pre post)⟩
    rw [List.splitOnP_nil, List.mem_singleton] at h
    exact absurd h hword.nonempty
  | gap c rest hc ih =>
    rw [splitOnP_gap (by rw [hc]; rfl), List.mem_cons, or_iff_right hword.nonempty, ih]
    constructor
    · rintro ⟨pre, post, h⟩
      exact ⟨c :: pre, post, (stands_gap hword hc).mpr ⟨pre, rfl, h⟩⟩
    · rintro ⟨pre, post, h⟩
      obtain ⟨pre', -, h'⟩ := (stands_gap hword hc).mp h
      exact ⟨pre', post, h'⟩
  | word w v hw hv ih =>
    have hhead : (v.splitOnP fun c => !isWordByte c).head? = some [] := by
      cases v with
      | nil => rfl
      | cons c rest =>
        rw [splitOnP_gap (by rw [hv c rfl]; rfl)]
        rfl
    have hsplit : v.splitOnP (fun c => !isWordByte c) =
        [] :: (v.splitOnP fun c => !isWordByte c).tail := by
      rw [← List.cons_head?_tail hhead, List.tail_cons]
    rw [hsplit, List.mem_cons, or_iff_right hword.nonempty] at ih
    rw [splitOnP_word (fun c hc => by rw [hw.bytes c hc]; rfl) (fun c hc => by rw [hv c hc]; rfl),
      List.mem_cons, ih]
    constructor
    · rintro (rfl | ⟨pre, post, h⟩)
      · exact ⟨[], v, (stands_word hword hw hv).mpr (Or.inl ⟨rfl, rfl, rfl⟩)⟩
      · exact ⟨w ++ pre, post, (stands_word hword hw hv).mpr (Or.inr ⟨pre, rfl, h⟩)⟩
    · rintro ⟨pre, post, h⟩
      rcases (stands_word hword hw hv).mp h with ⟨-, -, heq⟩ | ⟨pre', -, h'⟩
      · exact Or.inl heq.symm
      · exact Or.inr ⟨pre', post, h'⟩

theorem bracketDepth_cons (c : UInt8) (b : Bytes) :
    bracketDepth (c :: b) = bracketDepth [c] + bracketDepth b := by
  unfold bracketDepth
  rw [← List.singleton_append, List.count_append, List.count_append]
  push_cast
  omega

theorem bracketDepth_append (a b : Bytes) :
    bracketDepth (a ++ b) = bracketDepth a + bracketDepth b := by
  unfold bracketDepth
  rw [List.count_append, List.count_append]
  push_cast
  omega

theorem bracketDepth_word (hw : IsWord w) : bracketDepth w = 0 := by
  unfold bracketDepth
  rw [List.count_eq_zero_of_not_mem, List.count_eq_zero_of_not_mem]
  · rfl
  · intro h
    exact absurd (hw.bytes _ h) (by decide)
  · intro h
    exact absurd (hw.bytes _ h) (by decide)

variable {depth : Int} {at' fuel : Nat}

/-- One byte between words, as the search reads it. -/
theorem topLevelWordFrom_gap {rest : Bytes} (hc : isWordByte c = false) :
    topLevelWordFrom word (fuel + 1) depth at' (c :: rest) =
      topLevelWordFrom word fuel (depth + bracketDepth [c]) (at' + 1) rest := by
  rw [topLevelWordFrom]
  by_cases ho : (c == openParen) = true
  · obtain rfl := beq_iff_eq.mp ho
    rw [if_pos ho, show bracketDepth [openParen] = 1 by decide]
  by_cases hcl : (c == closeParen) = true
  · obtain rfl := beq_iff_eq.mp hcl
    rw [if_neg ho, if_pos hcl, show bracketDepth [closeParen] = -1 by decide]
    rfl
  have hzero : bracketDepth [c] = 0 := by
    unfold bracketDepth
    rw [List.count_singleton, List.count_singleton, if_neg ho, if_neg hcl]
    rfl
  rw [if_neg ho, if_neg hcl, hc, hzero, Int.add_zero]
  rfl

/-- One word, as the search reads it. -/
theorem topLevelWordFrom_word (hw : IsWord w) (hv : StartsClear v) :
    topLevelWordFrom word (fuel + 1) depth at' (w ++ v) = if depth = 0 ∧ w = word then some at'
      else topLevelWordFrom word fuel depth (at' + w.length) v := by
  have htake : (w ++ v).takeWhile isWordByte = w := by
    rw [List.takeWhile_append_of_pos hw.bytes]
    cases v with
    | nil => simp
    | cons c rest => simp [hv c rfl]
  obtain ⟨c, rest, hcons⟩ := List.exists_cons_of_ne_nil (List.append_ne_nil_of_left_ne_nil
    hw.nonempty v)
  have hc : isWordByte c = true := by
    obtain ⟨x, xs, rfl⟩ := List.exists_cons_of_ne_nil hw.nonempty
    obtain ⟨rfl, -⟩ := List.cons.inj hcons
    exact hw.bytes x (List.mem_cons_self ..)
  have ho : ¬ (c == openParen) = true := by
    intro h
    rw [beq_iff_eq.mp h] at hc
    exact absurd hc (by decide)
  have hcl : ¬ (c == closeParen) = true := by
    intro h
    rw [beq_iff_eq.mp h] at hc
    exact absurd hc (by decide)
  rw [hcons, topLevelWordFrom, if_neg ho, if_neg hcl, if_pos hc, ← hcons]
  simp only [htake, List.drop_left, Bool.and_eq_true, beq_iff_eq]

theorem topLevelWordFrom_isSome_iff (hword : IsWord word) (hfuel : b.length ≤ fuel) :
    (topLevelWordFrom word fuel depth at' b).isSome ↔
      ∃ pre post, Stands word b pre post ∧ depth + bracketDepth pre = 0 := by
  induction b using words_induction generalizing fuel at' depth with
  | nil =>
    refine ⟨fun h => ?_, fun ⟨pre, post, h, _⟩ => absurd h (not_stands_nil hword pre post)⟩
    cases fuel <;> cases h
  | gap c rest hc ih =>
    rw [List.length_cons] at hfuel
    obtain ⟨k, rfl⟩ : ∃ k, fuel = k + 1 := ⟨fuel - 1, by omega⟩
    rw [topLevelWordFrom_gap hc, ih (by omega)]
    constructor
    · rintro ⟨pre, post, h, hd⟩
      refine ⟨c :: pre, post, (stands_gap hword hc).mpr ⟨pre, rfl, h⟩, ?_⟩
      rw [bracketDepth_cons]
      omega
    · rintro ⟨pre, post, h, hd⟩
      obtain ⟨pre', rfl, h'⟩ := (stands_gap hword hc).mp h
      refine ⟨pre', post, h', ?_⟩
      rw [bracketDepth_cons] at hd
      omega
  | word w v hw hv ih =>
    have hpos := List.length_pos_iff.mpr hw.nonempty
    rw [List.length_append] at hfuel
    obtain ⟨k, rfl⟩ : ∃ k, fuel = k + 1 := ⟨fuel - 1, by omega⟩
    rw [topLevelWordFrom_word hw hv]
    constructor
    · intro h
      by_cases hfound : depth = 0 ∧ w = word
      · obtain ⟨rfl, rfl⟩ := hfound
        exact ⟨[], v, (stands_word hword hw hv).mpr (Or.inl ⟨rfl, rfl, rfl⟩), rfl⟩
      rw [if_neg hfound, ih (by omega)] at h
      obtain ⟨pre, post, h', hd⟩ := h
      refine ⟨w ++ pre, post, (stands_word hword hw hv).mpr (Or.inr ⟨pre, rfl, h'⟩), ?_⟩
      rwa [bracketDepth_append, bracketDepth_word hw, Int.zero_add]
    · rintro ⟨pre, post, h, hd⟩
      by_cases hfound : depth = 0 ∧ w = word
      · rw [if_pos hfound]
        rfl
      rw [if_neg hfound, ih (by omega)]
      rcases (stands_word hword hw hv).mp h with ⟨rfl, -, heq⟩ | ⟨pre', rfl, h'⟩
      · exact absurd ⟨by simpa [bracketDepth] using hd, heq⟩ hfound
      · refine ⟨pre', post, h', ?_⟩
        rwa [bracketDepth_append, bracketDepth_word hw, Int.zero_add] at hd

/-- **Words at the top level.** `top_level_word` finds a word exactly where it
stands behind as many `(` as `)`. -/
theorem topLevelWord_isSome_iff (hword : IsWord word) : (topLevelWord b word).isSome ↔
      ∃ pre post, Stands word b pre post ∧ bracketDepth pre = 0 := by
  rw [topLevelWord, topLevelWordFrom_isSome_iff hword (Nat.le_refl _)]
  simp only [Int.zero_add]

end RedDb.Sql
