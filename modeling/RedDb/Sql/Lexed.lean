import RedDb.Sql.Passages

/-!
# RedDb — texts that are read as they were written

A text that a program writes from names, values and words of its own is safe if the dialect's lexer
reads it as just these: every name and every value is one quoted lexeme that denotes it, and nothing
else in the text is a quote, a comment or a terminator.

* `readQuoted_doubled` — a quoted text is read back as what was quoted;
* `LexedTo` — the scan of a text, with the quoted lexemes it has read;
* `ReadAs` — a piece adds just these lexemes, wherever it stands;
* `ReadAs.joined` — pieces behind one another, with a separator between them.
-/

namespace RedDb.Sql

open ByteText

/-! ## What a quoted lexeme denotes -/

/-- The bytes that a backslash and the byte behind it stand for; in front of `%` and `_` it stays. -/
def unescape (c : UInt8) : Bytes :=
  if c == 48 then [0] else if c == 98 then [8] else if c == 110 then [10] else if c == 114 then [13]
  else if c == 116 then [9] else if c == 90 then [26]
  else if c == 37 || c == underscore then [backslash, c] else [c]

/-- The text between the quotes and what stands behind them, from the byte behind the opening quote. -/
@[grind =] def readQuoted (q : UInt8) (escapes : Bool) : Bytes → Option (Bytes × Bytes)
  | [] => none
  | c :: rest =>
    if c == q then
      match rest with
      | [] => some ([], [])
      | e :: rest' =>
        if e == q then (readQuoted q escapes rest').map fun (v, r) => (c :: v, r) else some ([], rest)
    else if c == backslash && escapes then
      match rest with
      | [] => none
      | e :: rest' => (readQuoted q escapes rest').map fun (v, r) => (unescape e ++ v, r)
    else (readQuoted q escapes rest).map fun (v, r) => (c :: v, r)

section Quoted

variable {q : UInt8} {escapes : Bool}

theorem doubled_comm {p q : UInt8} (hpq : p ≠ q) (b : Bytes) :
    doubled p (doubled q b) = doubled q (doubled p b) := by
  have hpq' : ¬(p == q) = true := fun h => hpq (beq_iff_eq.mp h)
  have hqp : ¬(q == p) = true := fun h => hpq (beq_iff_eq.mp h).symm
  induction b with
  | nil => rfl
  | cons c b ih =>
    by_cases hp : (c == p) = true
    · obtain rfl := beq_iff_eq.mp hp
      simp only [doubled, hpq', if_false, beq_self_eq_true, if_true, ih, Bool.false_eq_true]
    by_cases hq : (c == q) = true
    · obtain rfl := beq_iff_eq.mp hq
      simp only [doubled, hqp, if_false, beq_self_eq_true, if_true, ih, Bool.false_eq_true]
    · simp only [doubled, hp, hq, if_false, ih, Bool.false_eq_true]

/-- The lexer ends a quoted text where it is read to. -/
theorem readQuoted_rest {u v rest : Bytes} (h : readQuoted q escapes u = some (v, rest)) :
    quotedLen q escapes u ≤ u.length ∧ rest = u.drop (quotedLen q escapes u) := by
  induction hlen : u.length using Nat.strong_induction_on generalizing u v with
  | _ n ih =>
    subst hlen
    cases u with
    | nil => cases h
    | cons c u =>
      by_cases hc : (c == q) = true
      · cases u with
        | nil =>
          simp only [readQuoted, hc, if_true, Option.some.injEq, Prod.mk.injEq] at h
          simp [quotedLen, hc, h.2]
        | cons e u =>
          by_cases he : (e == q) = true
          · simp only [readQuoted, hc, he, if_true, Option.map_eq_some_iff] at h
            obtain ⟨⟨v', r⟩, hr, hv⟩ := h
            obtain ⟨-, rfl⟩ := Prod.mk.inj hv
            obtain ⟨hle, hrest⟩ := ih u.length (by simp only [List.length_cons]; omega) hr rfl
            have hdrop : 2 + quotedLen q escapes u = quotedLen q escapes u + 2 := Nat.add_comm _ _
            simp only [quotedLen, hc, he, if_true, hdrop, List.drop_succ_cons, List.length_cons]
            exact ⟨by omega, hrest⟩
          · simp only [readQuoted, hc, he, if_true, if_false, Option.some.injEq, Prod.mk.injEq,
              Bool.false_eq_true] at h
            simp [quotedLen, hc, he, ← h.2]
      · by_cases hb : (c == backslash && escapes) = true
        · cases u with
          | nil => simp [readQuoted, hc, hb] at h
          | cons e u =>
            simp only [readQuoted, hc, hb, if_true, if_false, Option.map_eq_some_iff, Bool.false_eq_true] at h
            obtain ⟨⟨v', r⟩, hr, hv⟩ := h
            obtain ⟨-, rfl⟩ := Prod.mk.inj hv
            obtain ⟨hle, hrest⟩ := ih u.length (by simp only [List.length_cons]; omega) hr rfl
            have hdrop : 2 + quotedLen q escapes u = quotedLen q escapes u + 2 := Nat.add_comm _ _
            simp only [quotedLen, hc, hb, if_true, if_false, hdrop, List.drop_succ_cons, List.length_cons,
              Bool.false_eq_true]
            exact ⟨by omega, hrest⟩
        · rw [readQuoted.eq_def] at h
          dsimp only at h
          rw [if_neg hc, if_neg hb, Option.map_eq_some_iff] at h
          obtain ⟨⟨v', r⟩, hr, hv⟩ := h
          obtain ⟨-, rfl⟩ := Prod.mk.inj hv
          obtain ⟨hle, hrest⟩ := ih u.length (Nat.lt_succ_self _) hr rfl
          rw [quotedLen_plain hc hb, Nat.add_comm 1, List.drop_succ_cons, List.length_cons]
          exact ⟨by omega, hrest⟩

/-- **A quoted text is read back**: its quotes doubled, and its backslashes where they escape. -/
theorem readQuoted_doubled {w v rest : Bytes} (hq : q ≠ backslash)
    (hw : w = if escapes then doubled backslash v else v) (hrest : rest.head? ≠ some q) :
    readQuoted q escapes (doubled q w ++ q :: rest) = some (v, rest) := by
  subst hw
  have hbq : ¬(backslash == q) = true := fun h => hq (beq_iff_eq.mp h).symm
  induction v with
  | nil =>
    have hclose : readQuoted q escapes (q :: rest) = some ([], rest) := by
      cases rest with
      | nil => simp [readQuoted]
      | cons c rest =>
        have hne : ¬(c == q) = true := fun h => hrest (by rw [beq_iff_eq.mp h]; rfl)
        simp [readQuoted, hne]
    cases escapes <;> exact hclose
  | cons c v ih =>
    by_cases hc : (c == q) = true
    · obtain rfl := beq_iff_eq.mp hc
      have hcb : ¬(c == backslash) = true := fun h => hq (beq_iff_eq.mp h)
      have hshape : doubled c (if escapes then doubled backslash (c :: v) else c :: v) =
          c :: c :: doubled c (if escapes then doubled backslash v else v) := by
        cases escapes <;> simp [doubled, hcb]
      rw [hshape, List.cons_append, List.cons_append, readQuoted]
      simp only [beq_self_eq_true, if_true, ih, Option.map_some]
    · by_cases hb : (c == backslash && escapes) = true
      · obtain ⟨hcb, hesc⟩ := Bool.and_eq_true_iff.mp hb
        obtain rfl := beq_iff_eq.mp hcb
        subst hesc
        have hunescape : unescape backslash = [backslash] := by decide
        simp only [doubled, beq_self_eq_true, if_true, hbq, if_false, List.cons_append, readQuoted,
          Bool.true_and, Bool.false_eq_true]
        rw [if_pos rfl] at ih
        rw [ih, Option.map_some, hunescape]
        rfl
      · have hshape : doubled q (if escapes then doubled backslash (c :: v) else c :: v) =
            c :: doubled q (if escapes then doubled backslash v else v) := by
          cases escapes with
          | false => simp [doubled, hc]
          | true =>
            rw [Bool.and_true] at hb
            simp [doubled, hc, hb]
        rw [hshape, List.cons_append, readQuoted.eq_def]
        dsimp only
        rw [if_neg hc, if_neg hb, ih, Option.map_some]

end Quoted

/-! ## The scan of a text -/

/-- The scan stands at `i` and has read these quoted lexemes, each with its quote; nothing else in front
of `i` opened a lexeme, nor was it a terminator. -/
inductive LexedTo (d : Dialect) (b : Bytes) : Nat → List (UInt8 × Bytes) → Prop
  | start : LexedTo d b 0 []
  | byte {i : Nat} {c : UInt8} {ls : List (UInt8 × Bytes)} : LexedTo d b i ls → b[i]? = some c →
      noiseEnd d b b.length i = none → c ≠ semicolon → LexedTo d b (i + 1) ls
  | quoted {i : Nat} {q : UInt8} {v rest : Bytes} {ls : List (UInt8 × Bytes)} : LexedTo d b i ls →
      b[i]? = some q → isQuote q = true →
      readQuoted q (quoteEscapes b i q d) (b.drop (i + 1)) = some (v, rest) →
      LexedTo d b (lexNext d b b.length i) (ls ++ [(q, v)])

/-- The dialect reads the whole text as these quoted lexemes and words of its own. -/
def Lexed (d : Dialect) (b : Bytes) (ls : List (UInt8 × Bytes)) : Prop := LexedTo d b b.length ls

/-- Words, numbers and punctuation: nothing opens in them, as no two dashes stand together. -/
@[grind =] def isQuiet : Bytes → Bool
  | [] => true
  | c :: rest =>
    (isCalm c || c == dash && rest.head?.any (· != dash)) && c != semicolon && isQuiet rest

/-- No quote follows. -/
def Plainly (rest : Bytes) : Prop := ∀ c, rest.head? = some c → isQuote c = false

instance decidablePlainly (rest : Bytes) : Decidable (Plainly rest) :=
  decidable_of_iff ((rest.head?.all fun c => !isQuote c) = true) <| by
    cases rest <;> simp [Plainly]

/-- The piece adds these lexemes, wherever it stands. -/
def ReadAs (d : Dialect) (p : Bytes) (ls : List (UInt8 × Bytes)) : Prop :=
  ∀ (b : Bytes) (i : Nat) (rest : Bytes) (ms : List (UInt8 × Bytes)), b.drop i = p ++ rest → Plainly rest →
    LexedTo d b i ms → LexedTo d b (i + p.length) (ms ++ ls)

section Reading

variable {d : Dialect} {b p rest : Bytes} {i : Nat} {ls ms : List (UInt8 × Bytes)}

theorem getElem?_of_drop {c : UInt8} (h : b.drop i = c :: rest) : b[i]? = some c ∧ b.drop (i + 1) = rest := by
  constructor
  · rw [← List.head?_drop, h]
    rfl
  · rw [← List.drop_drop, h]
    rfl

theorem drop_of_append {rest : Bytes} (h : b.drop i = p ++ rest) : b.drop (i + p.length) = rest := by
  rw [← List.drop_drop, h, List.drop_left]

theorem LexedTo.words (hp : isQuiet p = true) (hb : b.drop i = p ++ rest) (h : LexedTo d b i ls) :
    LexedTo d b (i + p.length) ls := by
  induction p generalizing i with
  | nil => exact h
  | cons c p ih =>
    simp only [isQuiet, Bool.and_eq_true, Bool.or_eq_true, beq_iff_eq, bne_iff_ne, ne_eq] at hp
    obtain ⟨⟨hc, hterm⟩, hp⟩ := hp
    obtain ⟨hbyte, hrest⟩ := getElem?_of_drop (List.cons_append ▸ hb)
    have hnone : noiseEnd d b b.length i = none := by
      rcases hc with hcalm | ⟨rfl, hnext⟩
      · exact noiseEnd_calm hbyte hcalm
      -- a dash that no dash follows
      have hsecond : b[i + 1]? ≠ some dash := by
        cases p with
        | nil => simp at hnext
        | cons e p =>
          rw [(getElem?_of_drop (List.cons_append ▸ hrest)).1]
          intro heq
          simp [Option.some.inj heq] at hnext
      have hdash : d.dashCommentAt b i = false := by
        simp [Dialect.dashCommentAt, hsecond]
      simp [noiseEnd, hbyte, hdash, isQuote, singleQuote, doubleQuote, backtick, dash, ByteText.hash,
        slash, dollar]
    have hnext := ih hp hrest (h.byte hbyte hnone hterm)
    rw [List.length_cons]
    rwa [Nat.add_assoc, Nat.add_comm 1] at hnext

/-- A quoted lexeme, where the quote escapes as it is written for. -/
theorem LexedTo.quote {q : UInt8} {w v : Bytes} (hq : isQuote q = true)
    (hw : w = if quoteEscapes b i q d then doubled backslash v else v)
    (hb : b.drop i = q :: (doubled q w ++ q :: rest)) (hrest : rest.head? ≠ some q) (h : LexedTo d b i ls) :
    LexedTo d b (i + (quotedBy q w).length) (ls ++ [(q, v)]) := by
  obtain ⟨hbyte, hdrop⟩ := getElem?_of_drop hb
  have hback : q ≠ backslash := by
    rintro rfl
    exact absurd hq (by decide)
  have hread := readQuoted_doubled hback hw hrest
  rw [← hdrop] at hread
  obtain ⟨hle, heq⟩ := readQuoted_rest hread
  have hlen : quotedLen q (quoteEscapes b i q d) (b.drop (i + 1)) + rest.length = (b.drop (i + 1)).length := by
    have hlength := congrArg List.length heq
    rw [List.length_drop (i := quotedLen q _ _)] at hlength
    omega
  have hplace : lexNext d b b.length i = i + (quotedBy q w).length := by
    have hbound := lt_of_getElem?_eq_some hbyte
    have htotal : (b.drop (i + 1)).length = (doubled q w).length + 1 + rest.length := by
      rw [hdrop, List.length_append, List.length_cons]
      omega
    have hsize : (quotedBy q w).length = (doubled q w).length + 2 := by simp [quotedBy]
    unfold lexNext noiseEnd
    rw [hbyte]
    dsimp only
    rw [if_pos hq, Option.getD_some, skipQuoted]
    rw [List.length_drop] at hlen htotal
    omega
  rw [← hplace]
  exact h.quoted hbyte hq hread

theorem ReadAs.words (hp : isQuiet p = true) : ReadAs d p [] := by
  intro b i rest ms hb _ h
  rw [List.append_nil]
  exact h.words hp hb

/-- Words in front of a piece. -/
theorem ReadAs.behind {w : Bytes} (h : ReadAs d p ls) (hw : isQuiet w = true) : ReadAs d (w ++ p) ls := by
  intro b i rest ms hb hrest hms
  rw [List.append_assoc] at hb
  rw [List.length_append, ← Nat.add_assoc]
  exact h b _ rest ms (drop_of_append hb) hrest (hms.words hw hb)

theorem ReadAs.append {q : Bytes} (h : ReadAs d p ls) (h' : ReadAs d q ms) (hq : q ≠ []) (hplain : Plainly q) :
    ReadAs d (p ++ q) (ls ++ ms) := by
  intro b i rest ns hb hrest hns
  rw [List.append_assoc] at hb
  have hfollow : Plainly (q ++ rest) := by
    obtain ⟨c, q, rfl⟩ := List.exists_cons_of_ne_nil hq
    exact hplain
  rw [List.length_append, ← Nat.add_assoc, ← List.append_assoc]
  exact h' b _ rest _ (drop_of_append hb) hrest (h b i _ ns hb hfollow hns)

/-- A name between double quotes or backticks. -/
theorem ReadAs.name {q : UInt8} {n : Bytes} (hq : q = doubleQuote ∨ q = backtick)
    (hn : q = doubleQuote → d.backslashInStrings = true → backslash ∉ n) : ReadAs d (quotedBy q n) [(q, n)] := by
  intro b i rest ms hb hrest h
  have hquote : isQuote q = true := by rcases hq with rfl | rfl <;> decide
  have hshape : b.drop i = q :: (doubled q n ++ q :: rest) := by
    rw [hb, quotedBy]
    simp
  refine h.quote hquote ?_ hshape (fun hhead => ?_)
  · split
    · rename_i hesc
      rcases hq with rfl | rfl
      · cases hd : d.backslashInStrings with
        | true => exact (doubled_not_mem (hn rfl hd)).symm
        | false => simp [quoteEscapes, hd, doubleQuote, backtick, singleQuote] at hesc
      · simp [quoteEscapes] at hesc
    · rfl
  · rw [hrest q hhead] at hquote
    exact Bool.noConfusion hquote

/-- The literal of a text, its backslashes doubled where they escape. -/
def literalOf (escapes : Bool) (v : Bytes) : Bytes :=
  quotedBy singleQuote (if escapes then doubled backslash v else v)

/-- A literal behind words that end with a blank or a parenthesis. -/
theorem ReadAs.literal {w v : Bytes} {c : UInt8} (hw : isQuiet (w ++ [c]) = true)
    (hc : isAsciiAlphabetic c = false) :
    ReadAs d (w ++ [c] ++ literalOf d.backslashInStrings v) [(singleQuote, v)] := by
  intro b i rest ms hb hrest h
  rw [List.append_assoc] at hb
  have hbefore := h.words hw hb
  have hat := drop_of_append hb
  have hprev : b[i + (w ++ [c]).length - 1]? = some c := by
    have hplace : i + (w ++ [c]).length - 1 = i + w.length := by simp
    rw [hplace, ← List.head?_drop, ← List.drop_drop, hb, List.append_assoc, List.drop_left]
    rfl
  rw [List.length_append, ← Nat.add_assoc]
  generalize i + (w ++ [c]).length = k at hbefore hat hprev ⊢
  have hesc : quoteEscapes b k singleQuote d = d.backslashInStrings := by
    have hne : c ≠ 101 ∧ c ≠ 69 := by
      constructor
      · rintro rfl
        exact absurd hc (by decide)
      · rintro rfl
        exact absurd hc (by decide)
    cases hd : d.backslashInStrings with
    | true => simp [quoteEscapes, hd, singleQuote, backtick]
    | false => simp [quoteEscapes, hd, hprev, hne.1, hne.2, singleQuote, backtick]
  have hshape : b.drop k = singleQuote :: (doubled singleQuote
      (if d.backslashInStrings then doubled backslash v else v) ++ singleQuote :: rest) := by
    rw [hat, literalOf, quotedBy]
    simp
  refine hbefore.quote (by decide) (by rw [hesc]) hshape fun hhead => ?_
  exact absurd (hrest singleQuote hhead) (by decide)

/-- Pieces with a separator of words between them. -/
theorem ReadAs.joined {α : Type*} {sep : Bytes} (text : α → Bytes) (lexemes : α → List (UInt8 × Bytes))
    (hsep : isQuiet sep = true) (hne : sep ≠ []) (hplain : Plainly sep) (xs : List α)
    (h : ∀ x ∈ xs, ReadAs d (text x) (lexemes x)) :
    ReadAs d (sep.intercalate (xs.map text)) (xs.flatMap lexemes) := by
  induction xs with
  | nil => exact ReadAs.words rfl
  | cons x xs ih =>
    have hx := h x List.mem_cons_self
    have hrest := ih fun y hy => h y (List.mem_cons_of_mem x hy)
    cases xs with
    | nil =>
      rw [List.map_singleton, List.intercalate_singleton, List.flatMap_singleton]
      exact hx
    | cons y ys =>
      have hshape : sep.intercalate ((x :: y :: ys).map text) =
          text x ++ (sep ++ sep.intercalate ((y :: ys).map text)) := by
        rw [List.map_cons, List.intercalate_cons_of_ne_nil (by simp), List.append_assoc]
      have hstart : Plainly (sep ++ sep.intercalate ((y :: ys).map text)) := by
        obtain ⟨c, s, rfl⟩ := List.exists_cons_of_ne_nil hne
        exact hplain
      rw [hshape, List.flatMap_cons]
      exact hx.append (hrest.behind hsep) (by simp [hne]) hstart

/-- A whole text. -/
theorem ReadAs.lexed (h : ReadAs d p ls) : Lexed d p ls := by
  have hall := h p 0 [] [] (by simp) (fun c hc => by cases hc) LexedTo.start
  rwa [Nat.zero_add, List.nil_append] at hall

end Reading

end RedDb.Sql
