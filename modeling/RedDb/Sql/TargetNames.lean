import RedDb.Sql.WriteObject

/-!
# RedDb — the object a confirmation names

`target_object` reads a statement for the name a confirmation shows. It skips five words
between the verb and the name, takes what then stands there for the name, and looks no further.
What a statement modifies is said here by its clauses (`Mutation`): the words in front of the
first object, its name, and the objects that are listed behind it.

* `ObjectPart` — a part of a name, with what the reference lexer reads of it;
* `Mutation.read_eq` — what is shown for a statement;
* `names_rightly_iff` — exactly when that is nothing, or the one object.
-/

namespace RedDb.Sql

open ByteText

/-! ## Names -/

/-- The word is skipped, in any case. -/
def Skipped (w : Bytes) : Prop := asciiLower w ∈ skippedWords

instance (w : Bytes) : Decidable (Skipped w) := inferInstanceAs (Decidable (_ ∈ _))

/-- What the reference lexer reads of a part of a name: the part, less, or nothing. -/
inductive PartRead (text : Bytes) : Option Bytes → Prop
  | whole (h : ∀ rest, StartsClear rest → refs (text ++ rest) = .ident text :: refs rest) : PartRead text (some text)
  | short {r : Bytes} (hlen : r.length < text.length)
    (h : ∀ rest, ∃ t ts, t ≠ .dot ∧ (Skipped r → t = .other) ∧ refs (text ++ rest) = .ident r :: t :: ts) :
    PartRead text (some r)
  | unread (h : ∀ rest, ∃ ts, refs (text ++ rest) = .other :: ts) : PartRead text none

/-- A part of a name. -/
structure ObjectPart where
  text : Bytes
  read : Option Bytes
  lexed : PartRead text read

namespace ObjectPart

/-- A bare part that is cut short is cut at a byte that is no token of a name. -/
theorem refs_cut {text : Bytes} (hp : (NamePart.bare text).WellFormed) (hw : ¬ (NamePart.bare text).Whole)
    (hr : (NamePart.bare text).Readable) (rest : Bytes) :
    ∃ ts, refs (text ++ rest) = .ident (text.takeWhile isWordByte) :: .other :: ts := by
  obtain ⟨c, hc, hstart⟩ := hr
  obtain ⟨x, u, hsplit⟩ : ∃ x u, text.dropWhile isWordByte = x :: u :=
    List.exists_cons_of_ne_nil fun hnil => hw ⟨⟨c, hc, hstart⟩, List.dropWhile_eq_nil_iff.mp hnil⟩
  have hx : isWordByte x = false := by
    have hhead := List.head?_dropWhile_not isWordByte text
    rw [hsplit] at hhead
    simpa using hhead
  have hname : isNameByte x = true := by
    have hmem : x ∈ text.dropWhile isWordByte := by
      rw [hsplit]
      exact List.mem_cons_self
    exact hp.2 x ((List.dropWhile_suffix _).mem hmem)
  have hfront : text = text.takeWhile isWordByte ++ x :: u := by
    rw [← hsplit, List.takeWhile_append_dropWhile]
  obtain ⟨v, hv⟩ : ∃ v, text = c :: v := by
    cases text with
    | nil => exact absurd hc.symm (Option.some_ne_none c)
    | cons y v => exact ⟨v, by rw [← Option.some.inj hc]⟩
  have hword : IsWord (text.takeWhile isWordByte) := by
    refine ⟨?_, fun y hy => List.all_eq_true.mp List.all_takeWhile y hy⟩
    rw [hv, List.takeWhile_cons, if_pos (isNameStart_word hstart)]
    exact List.cons_ne_nil _ _
  have hwordStart : ∀ y ∈ (text.takeWhile isWordByte).head?, isNameStart y = true := by
    intro y hy
    rw [hv, List.takeWhile_cons, if_pos (isNameStart_word hstart)] at hy
    rw [← Option.some.inj hy]
    exact hstart
  have hclear : StartsClear (x :: u ++ rest) := by
    intro y hy
    rw [← Option.some.inj hy]
    exact hx
  have hstop : isNameStart x = false := by
    cases hs : isNameStart x with
    | false => rfl
    | true => rw [isNameStart_word hs] at hx; exact Bool.noConfusion hx
  refine ⟨refs (u ++ rest), ?_⟩
  conv_lhs => rw [hfront, List.append_assoc, refs_word hword hwordStart hclear, List.cons_append, refs_nameByte hname hstop]

/-- A part that engines know as a name. -/
def ofName (p : NamePart) (hp : p.WellFormed) : ObjectPart where
  text := p.text
  read := if p.Readable then some p.spelled else none
  lexed := by
    by_cases hw : p.Whole
    · rw [if_pos hw.readable, hw.spelled_eq]
      exact .whole fun rest hrest => refs_whole hp hw hrest
    by_cases hr : p.Readable
    · rw [if_pos hr]
      refine .short (NamePart.spelled_lt hr hw) fun rest => ?_
      cases p with
      | bare text =>
        obtain ⟨ts, hrefs⟩ := refs_cut hp hw hr rest
        exact ⟨.other, ts, Ref.noConfusion, fun _ => rfl, hrefs⟩
      | quoted q inner =>
        rcases refs_part hp hw rest with ⟨-, t, ts, ht, hrefs⟩ | ⟨hunread, -⟩
        · refine ⟨t, ts, ht, fun hskip => ?_, hrefs⟩
          -- a word that is skipped begins with a letter, not with a quote
          have hall : ∀ w ∈ skippedWords, w.head? ≠ some doubleQuote ∧ w.head? ≠ some backtick := by decide
          have hhead : (asciiLower (NamePart.quoted q inner).spelled).head? = some q := by
            rcases hp with rfl | rfl <;> rfl
          obtain ⟨h1, h2⟩ := hall _ hskip
          rw [hhead] at h1 h2
          rcases hp with rfl | rfl
          · exact absurd rfl h1
          · exact absurd rfl h2
        · exact absurd hr hunread
    · rw [if_neg hr]
      refine .unread fun rest => ?_
      rcases refs_part hp hw rest with ⟨hread, -⟩ | ⟨-, ts, hrefs⟩
      · exact absurd hread hr
      · exact ⟨ts, hrefs⟩

/-- A part in brackets, which SQLite knows. -/
def bracketed (inner : Bytes) (h : (93 : UInt8) ∉ inner) : ObjectPart where
  text := 91 :: (inner ++ [93])
  read := some (91 :: (inner ++ [93]))
  lexed := by
    refine .whole fun rest _ => ?_
    have hstop : ∀ x ∈ inner, (x != 93) = true := by
      intro x hx
      rw [bne_iff_ne]
      rintro rfl
      exact h hx
    have htake : (inner ++ 93 :: rest).takeWhile (· != 93) = inner := by
      rw [List.takeWhile_append_of_pos hstop, List.takeWhile_cons, if_neg (by simp), List.append_nil]
    have hlen : rest.length ≤ (inner ++ 93 :: rest).length := by simp; omega
    have hshape : 91 :: (inner ++ [93]) ++ rest = 91 :: (inner ++ 93 :: rest) := by simp
    rw [hshape]
    unfold refs
    rw [List.length_cons, lexRefs]
    simp only [show isAsciiWhitespace 91 = false by decide, show ((91 : UInt8) == dash) = false by decide,
      show ((91 : UInt8) == slash) = false by decide, show ((91 : UInt8) == singleQuote) = false by decide,
      beq_self_eq_true, Bool.false_and, Bool.or_true, Bool.false_eq_true, if_false, if_true, htake, List.drop_left,
      List.take_succ_cons, List.take_zero]
    rw [← List.drop_drop, List.drop_left, List.drop_one, List.tail_cons]
    exact congrArg _ (lexRefs_eq_refs hlen)

end ObjectPart

/-- The text of a name, its parts between dots. -/
@[grind =] def partsText : ObjectPart → List ObjectPart → Bytes
  | p, [] => p.text
  | p, q :: rest => p.text ++ dot :: partsText q rest

/-- What is read of a name: a part that is not read whole is the last. -/
@[grind =] def partsRead : ObjectPart → List ObjectPart → Option Bytes
  | p, [] => p.read
  | p, q :: rest =>
    if p.read = some p.text then (partsRead q rest).map fun tail => p.text ++ [dot] ++ tail else p.read

section Parts

variable {p : ObjectPart} {ps : List ObjectPart} {rest : Bytes}

/-- What is read of a name is the name, or shorter. -/
theorem partsRead_eq_iff : partsRead p ps = some (partsText p ps) ↔ ∀ q ∈ p :: ps, q.read = some q.text := by
  induction ps generalizing p with
  | nil => simp [partsRead, partsText]
  | cons q rest ih =>
    rw [partsRead, partsText, List.forall_mem_cons]
    by_cases hp : p.read = some p.text
    · rw [if_pos hp, and_iff_right hp, ← ih]
      constructor
      · intro h
        obtain ⟨tail, htail, heq⟩ := Option.map_eq_some_iff.mp h
        rw [List.append_assoc, List.singleton_append] at heq
        obtain ⟨-, hsame⟩ := List.cons.inj (List.append_cancel_left heq)
        rw [htail, hsame]
      · intro h
        rw [h]
        simp
    · rw [if_neg hp]
      refine iff_of_false (fun h => ?_) fun h => hp h.1
      cases p with
      | mk text read lexed =>
        cases lexed with
        | whole _ => exact hp rfl
        | short hlen _ =>
          rw [Option.some.inj h, List.length_append] at hlen
          exact absurd hlen (by simp)
        | unread _ => exact absurd h.symm (Option.some_ne_none _)

theorem startsClear_dot (b : Bytes) : StartsClear (dot :: b) := by
  intro x hx
  rw [← Option.some.inj hx]
  decide

/-- **What is read of a name.** -/
theorem readRef_parts (hrest : NameEnds rest) : readRef (refs (partsText p ps ++ rest)) = partsRead p ps := by
  induction ps generalizing p with
  | nil =>
    rw [partsText, partsRead]
    cases p with
    | mk text read lexed =>
      cases lexed with
      | whole h =>
        rw [h rest hrest.clear]
        have hdot := hrest.noDot
        cases hrefs : refs rest with
        | nil => rfl
        | cons t ts =>
          cases t with
          | dot => rw [hrefs] at hdot; exact absurd rfl hdot
          | ident w => rfl
          | other => rfl
      | short _ h =>
        obtain ⟨t, ts, ht, -, hrefs⟩ := h rest
        rw [hrefs]
        cases t with
        | dot => exact absurd rfl ht
        | ident w => rfl
        | other => rfl
      | unread h =>
        obtain ⟨ts, hrefs⟩ := h rest
        rw [hrefs]
        rfl
  | cons q more ih =>
    rw [partsText, partsRead, List.append_assoc, List.cons_append]
    cases p with
    | mk text read lexed =>
      cases lexed with
      | whole h =>
        rw [h _ (startsClear_dot _), refs_dot, if_pos rfl, ← ih]
        rfl
      | short hlen h =>
        obtain ⟨t, ts, ht, -, hrefs⟩ := h (dot :: (partsText q more ++ rest))
        rw [hrefs, if_neg]
        · cases t with
          | dot => exact absurd rfl ht
          | ident w => rfl
          | other => rfl
        · intro heq
          rw [Option.some.inj heq] at hlen
          exact Nat.lt_irrefl _ hlen
      | unread h =>
        obtain ⟨ts, hrefs⟩ := h (dot :: (partsText q more ++ rest))
        rw [hrefs, if_neg (by simp)]
        rfl

/-- The first token of a name. -/
theorem refs_parts_head (hrest : StartsClear rest) :
    ∃ ts, refs (partsText p ps ++ rest) = (p.read.elim .other .ident) :: ts := by
  have hone : ∀ rest', StartsClear rest' → ∃ ts, refs (p.text ++ rest') = (p.read.elim .other .ident) :: ts := by
    intro rest' hclear
    cases p with
    | mk text read lexed =>
      cases lexed with
      | whole h => exact ⟨_, h rest' hclear⟩
      | short _ h =>
        obtain ⟨t, ts, -, -, hrefs⟩ := h rest'
        exact ⟨t :: ts, hrefs⟩
      | unread h => exact h rest'
  cases ps with
  | nil => exact hone rest hrest
  | cons q more =>
    rw [partsText, List.append_assoc, List.cons_append]
    exact hone _ (startsClear_dot _)

end Parts

/-! ## Statements -/

/-- A statement that modifies objects: its verb, the words between the verb and the first object,
and the other objects, each behind the comma or the words that join it. `lead` and the gaps in
front of the words hold blanks and comments; `hidden` is empty, or a comment the reference lexer
stops at, with what else stands in front of the object. -/
structure Mutation where
  lead : Bytes
  verb : Bytes
  words : List (Bytes × Bytes)
  gap : Bytes
  hidden : Bytes
  first : ObjectPart
  parts : List ObjectPart
  others : List (Bytes × Bytes)
  rest : Bytes

namespace Mutation

variable (m : Mutation)

def object : Bytes := partsText m.first m.parts

/-- What stands behind the first object. -/
def behind : Bytes := m.others.flatMap (fun o => o.1 ++ o.2) ++ m.rest

def text : Bytes :=
  m.lead ++ (m.verb ++ (m.words.flatMap (fun w => w.1 ++ w.2) ++ (m.gap ++ (m.hidden ++ (m.object ++ m.behind)))))

/-- The objects the statement modifies. -/
def objects : List Bytes := m.object :: m.others.map Prod.snd

end Mutation

/-- The reference lexer reads nothing of the blanks and comments. -/
def Unseen (g : Bytes) : Prop := ∀ b, refs (g ++ b) = refs b

/-- A word of the statement's grammar. -/
structure GrammarWord (w : Bytes) : Prop extends IsWord w where
  start : ∀ c ∈ w.head?, isNameStart c = true

/-- The statement is one that an engine reads as it is put together, and whose blanks and comments
the reference lexer passes. `INTO` and `FROM` are no names, and what is dropped or altered is said. -/
structure Mutation.WellFormed (m : Mutation) : Prop where
  lead : Unseen m.lead
  verb : GrammarWord m.verb
  words : ∀ w ∈ m.words, Unseen w.1 ∧ StartsClear w.1 ∧ w.1 ≠ [] ∧ GrammarWord w.2
  gap : Unseen m.gap
  hidden : m.hidden ≠ [] → ∀ b, ∃ ts, refs (m.hidden ++ b) = .other :: ts
  apart : StartsClear (m.gap ++ (m.hidden ++ m.object))
  reserved : ∀ r ∈ m.first.read, asciiLower r ≠ ascii "into" ∧ asciiLower r ≠ ascii "from"
  kind : asciiLower m.verb = ascii "drop" ∨ asciiLower m.verb = ascii "alter" → m.words ≠ []
  ends : NameEnds m.behind

namespace Mutation

/-- The words in front of the first object that are read for the name; none where nothing is read. -/
def ahead (m : Mutation) : Option (List Bytes) :=
  let verb := asciiLower m.verb
  let words := m.words.map Prod.snd
  if verb = ascii "update" ∨ verb = ascii "truncate" then some words
  else if verb = ascii "insert" ∨ verb = ascii "delete" ∨ verb = ascii "merge" then
    match words with
    | w :: ws => if asciiLower w = ascii "into" ∨ asciiLower w = ascii "from" then some ws else none
    | [] => none
  else if verb = ascii "drop" ∨ verb = ascii "alter" then some (words.drop 1)
  else none

/-- What is read of the object, the words in front of it skipped. -/
def objectShown (m : Mutation) : Option Bytes :=
  if m.hidden ≠ [] then none
  else if ∃ r ∈ m.first.read, Skipped r then
    if m.first.read = some m.first.text ∧ m.parts = [] then readRef (dropModifiers (refs m.behind)) else none
  else partsRead m.first m.parts

/-- What is shown for the statement. -/
def shown (m : Mutation) : Option Bytes :=
  m.ahead.bind fun ws =>
    match ws.find? (fun w => !decide (Skipped w)) with
    | some w => some w
    | none => m.objectShown

end Mutation

section Reading

variable {m : Mutation} (hm : m.WellFormed)

theorem refs_words {words : List (Bytes × Bytes)}
    (h : ∀ w ∈ words, Unseen w.1 ∧ StartsClear w.1 ∧ w.1 ≠ [] ∧ GrammarWord w.2) {b : Bytes} (hb : StartsClear b) :
    StartsClear (words.flatMap (fun w => w.1 ++ w.2) ++ b) ∧
      refs (words.flatMap (fun w => w.1 ++ w.2) ++ b) = words.map (fun w => Ref.ident w.2) ++ refs b := by
  induction words with
  | nil => exact ⟨hb, rfl⟩
  | cons w words ih =>
    obtain ⟨⟨hunseen, hclear, hne, hword⟩, hwords⟩ := List.forall_mem_cons.mp h
    obtain ⟨hnext, hrefs⟩ := ih hwords
    rw [List.flatMap_cons, List.append_assoc, List.append_assoc]
    refine ⟨?_, ?_⟩
    · obtain ⟨c, g, hg⟩ := List.exists_cons_of_ne_nil hne
      rw [hg] at hclear ⊢
      exact fun x hx => hclear x hx
    · rw [hunseen, refs_word hword.toIsWord hword.start hnext, hrefs]
      rfl

include hm

/-- The tokens of a statement. -/
theorem Mutation.refs_text :
    refs m.text = .ident m.verb :: (m.words.map (fun w => Ref.ident w.2) ++ refs (m.hidden ++ (m.object ++ m.behind))) := by
  have hapart : StartsClear (m.gap ++ (m.hidden ++ (m.object ++ m.behind))) := by
    have hshape : m.gap ++ (m.hidden ++ (m.object ++ m.behind)) = (m.gap ++ (m.hidden ++ m.object)) ++ m.behind := by
      simp only [List.append_assoc]
    rw [hshape]
    intro c hc
    cases hfront : m.gap ++ (m.hidden ++ m.object) with
    | nil =>
      rw [hfront] at hc
      exact hm.ends.clear c hc
    | cons x u =>
      rw [hfront] at hc
      exact hm.apart c (by rw [hfront]; exact hc)
  obtain ⟨hclear, hrefs⟩ := refs_words hm.words hapart
  rw [Mutation.text, hm.lead, refs_word hm.verb.toIsWord hm.verb.start hclear, hrefs, hm.gap]

end Reading

/-! ## The verbs -/

/-- A preposition comes first. -/
def prepositioned : List Ref → Bool
  | .ident u :: _ => asciiLower u == ascii "into" || asciiLower u == ascii "from"
  | _ => false

section Verbs

variable {stmt v : Bytes} {ts : List Ref} (h : refs stmt = .ident v :: ts)

include h

theorem targetObject_direct (hv : asciiLower v = ascii "update" ∨ asciiLower v = ascii "truncate") :
    targetObject stmt = readRef (dropModifiers ts) := by
  have hlex : lexRefs stmt.length stmt = .ident v :: ts := h
  unfold targetObject
  rcases hv with hv | hv
  all_goals
    simp only [hlex, List.getElem?_cons_zero, hv, List.drop_one, List.tail_cons]
    rfl

/-- The name stands behind a preposition. -/
theorem targetObject_behind
    (hv : asciiLower v = ascii "insert" ∨ asciiLower v = ascii "delete" ∨ asciiLower v = ascii "merge") :
    targetObject stmt = if prepositioned ts then readRef (dropModifiers (ts.drop 1)) else none := by
  have hlex : lexRefs stmt.length stmt = .ident v :: ts := h
  unfold targetObject
  simp only [hlex, List.getElem?_cons_zero, List.getElem?_cons_succ, List.drop_succ_cons]
  rw [if_neg (by rcases hv with hv | hv | hv <;> (rw [hv]; decide)), if_pos (by rcases hv with hv | hv | hv <;> (rw [hv]; decide))]
  cases ts with
  | nil => rfl
  | cons t ts =>
    cases t with
    | ident u => simp [prepositioned]
    | dot => rfl
    | other => rfl

/-- The name stands behind the kind of the object. -/
theorem targetObject_kind (hv : asciiLower v = ascii "drop" ∨ asciiLower v = ascii "alter") :
    targetObject stmt = readRef (dropModifiers (ts.drop 1)) := by
  have hlex : lexRefs stmt.length stmt = .ident v :: ts := h
  unfold targetObject
  simp only [hlex, List.getElem?_cons_zero, List.drop_succ_cons]
  rw [if_neg (by rcases hv with hv | hv <;> (rw [hv]; decide)), if_neg (by rcases hv with hv | hv <;> (rw [hv]; decide)),
    if_pos (by rcases hv with hv | hv <;> (rw [hv]; decide))]

theorem targetObject_unknown
    (hv : asciiLower v ∉ [ascii "update", ascii "truncate", ascii "insert", ascii "delete", ascii "merge", ascii "drop", ascii "alter"]) :
    targetObject stmt = none := by
  have hlex : lexRefs stmt.length stmt = .ident v :: ts := h
  simp only [List.mem_cons, List.not_mem_nil, or_false, not_or] at hv
  obtain ⟨h1, h2, h3, h4, h5, h6, h7⟩ := hv
  unfold targetObject
  simp only [hlex, List.getElem?_cons_zero]
  rw [if_neg (by simp [h1, h2]), if_neg (by simp [h3, h4, h5]), if_neg (by simp [h6, h7])]

end Verbs

theorem dropModifiers_ident {w : Bytes} {ts : List Ref} :
    dropModifiers (.ident w :: ts) = if Skipped w then dropModifiers ts else .ident w :: ts := by
  rw [dropModifiers]
  change (if skippedWords.contains (asciiLower w) = true then _ else _) = _
  by_cases hw : Skipped w
  · rw [if_pos hw, if_pos (List.contains_iff_mem.mpr hw)]
  · rw [if_neg hw, if_neg fun h => hw (List.contains_iff_mem.mp h)]

/-- Behind words, the first that is not skipped is read, or what stands behind them. -/
theorem readRef_words (ws : List Bytes) {ts : List Ref} (hdot : ts.head? ≠ some .dot) :
    readRef (dropModifiers (ws.map Ref.ident ++ ts)) =
      match ws.find? (fun w => !decide (Skipped w)) with
      | some w => some w
      | none => readRef (dropModifiers ts) := by
  induction ws with
  | nil => rfl
  | cons w ws ih =>
    rw [List.map_cons, List.cons_append, dropModifiers_ident]
    by_cases hw : Skipped w
    · rw [if_pos hw, ih, List.find?_cons_of_neg (by simp [hw])]
    rw [if_neg hw, List.find?_cons_of_pos (by simp [hw])]
    cases ws with
    | cons w' ws => rfl
    | nil =>
      rw [List.map_nil, List.nil_append]
      cases ts with
      | nil => rfl
      | cons t ts =>
        cases t with
        | dot => exact absurd rfl hdot
        | ident u => rfl
        | other => rfl

section Shown

variable {m : Mutation} (hm : m.WellFormed)

include hm

/-- What is looked at behind the words is no dot, and no preposition. -/
theorem Mutation.hidden_head : ∃ ts, refs (m.hidden ++ (m.object ++ m.behind)) = .other :: ts ∨
    ∃ r ∈ m.first.read, refs (m.hidden ++ (m.object ++ m.behind)) = .ident r :: ts := by
  by_cases hhidden : m.hidden = []
  · obtain ⟨ts, hrefs⟩ := @refs_parts_head m.first m.parts _ hm.ends.clear
    refine ⟨ts, ?_⟩
    rw [hhidden, List.nil_append, object, hrefs]
    cases m.first.read with
    | none => exact Or.inl rfl
    | some r => exact Or.inr ⟨r, rfl, rfl⟩
  · obtain ⟨ts, hrefs⟩ := hm.hidden hhidden (m.object ++ m.behind)
    exact ⟨ts, Or.inl hrefs⟩

theorem Mutation.hidden_noDot : (refs (m.hidden ++ (m.object ++ m.behind))).head? ≠ some .dot := by
  obtain ⟨ts, hrefs | ⟨r, -, hrefs⟩⟩ := m.hidden_head hm
  · rw [hrefs]
    exact fun h => Ref.noConfusion (Option.some.inj h)
  · rw [hrefs]
    exact fun h => Ref.noConfusion (Option.some.inj h)

theorem Mutation.readRef_object : readRef (dropModifiers (refs (m.hidden ++ (m.object ++ m.behind)))) = m.objectShown := by
  unfold objectShown
  by_cases hhidden : m.hidden ≠ []
  · obtain ⟨ts, hrefs⟩ := hm.hidden hhidden (m.object ++ m.behind)
    rw [if_pos hhidden, hrefs]
    rfl
  rw [if_neg hhidden, not_not.mp hhidden, List.nil_append]
  have hends := hm.ends
  unfold object
  by_cases hskip : ∃ r ∈ m.first.read, Skipped r
  · rw [if_pos hskip]
    obtain ⟨r, hr, hskipped⟩ := hskip
    generalize m.behind = behind at hends ⊢
    generalize m.parts = parts
    generalize m.first = first at hr ⊢
    cases first with
    | mk text read lexed =>
      -- behind a word that is skipped, a dot begins nothing that is read
      have hdotted : ∀ q more, readRef (dropModifiers (.dot :: refs (partsText q more ++ behind))) = none :=
        fun _ _ => rfl
      cases lexed with
      | whole h =>
        obtain rfl := Option.some.inj hr
        cases parts with
        | nil =>
          rw [partsText, h _ hends.clear, dropModifiers_ident, if_pos hskipped, if_pos ⟨rfl, rfl⟩]
        | cons q more =>
          rw [partsText, List.append_assoc, List.cons_append, h _ (startsClear_dot _), dropModifiers_ident, if_pos hskipped,
            refs_dot, hdotted, if_neg (by simp)]
      | short hlen h =>
        obtain rfl := Option.some.inj hr
        have hother : ∀ b, readRef (dropModifiers (refs (text ++ b))) = none := by
          intro b
          obtain ⟨t, ts, -, hother, hrefs⟩ := h b
          rw [hrefs, dropModifiers_ident, if_pos hskipped, hother hskipped]
          rfl
        rw [if_neg]
        · cases parts with
          | nil => exact hother behind
          | cons q more =>
            rw [partsText, List.append_assoc]
            exact hother _
        · rintro ⟨heq, -⟩
          rw [Option.some.inj heq] at hlen
          exact Nat.lt_irrefl _ hlen
      | unread h => exact absurd hr.symm (Option.some_ne_none r)
  · rw [if_neg hskip, ← readRef_parts hends]
    obtain ⟨ts, hrefs⟩ := @refs_parts_head m.first m.parts _ hends.clear
    rw [hrefs]
    cases hread : m.first.read with
    | none => rfl
    | some r =>
      rw [Option.elim_some, dropModifiers_ident, if_neg fun h => hskip ⟨r, hread, h⟩]

/-- **What is shown** for a statement. -/
theorem Mutation.read_eq : targetObject m.text = m.shown := by
  have hrefs := m.refs_text hm
  have hwords : ∀ ws : List Bytes, readRef (dropModifiers (ws.map Ref.ident ++ refs (m.hidden ++ (m.object ++ m.behind)))) =
      match ws.find? (fun w => !decide (Skipped w)) with
      | some w => some w
      | none => m.objectShown := by
    intro ws
    rw [readRef_words ws (m.hidden_noDot hm), m.readRef_object hm]
  have hmap : m.words.map (fun w => Ref.ident w.2) = (m.words.map Prod.snd).map Ref.ident := by
    rw [List.map_map]
    rfl
  rw [hmap] at hrefs
  unfold shown ahead
  simp only
  by_cases hdirect : asciiLower m.verb = ascii "update" ∨ asciiLower m.verb = ascii "truncate"
  · rw [if_pos hdirect, targetObject_direct hrefs hdirect, hwords]
    rfl
  rw [if_neg hdirect]
  by_cases hbehind : asciiLower m.verb = ascii "insert" ∨ asciiLower m.verb = ascii "delete" ∨ asciiLower m.verb = ascii "merge"
  · rw [if_pos hbehind, targetObject_behind hrefs hbehind]
    cases hws : m.words.map Prod.snd with
    | nil =>
      have hnone : prepositioned (refs (m.hidden ++ (m.object ++ m.behind))) = false := by
        obtain ⟨ts, hhead | ⟨r, hread, hhead⟩⟩ := m.hidden_head hm
        · rw [hhead]
          rfl
        · obtain ⟨hinto, hfrom⟩ := hm.reserved r hread
          rw [hhead]
          simp [prepositioned, hinto, hfrom]
      rw [List.map_nil, List.nil_append, hnone]
      rfl
    | cons w ws =>
      rw [List.map_cons, List.cons_append, List.drop_one, List.tail_cons, hwords]
      dsimp only
      by_cases hprep : asciiLower w = ascii "into" ∨ asciiLower w = ascii "from"
      · rw [if_pos (by simpa [prepositioned] using hprep), if_pos hprep]
        rfl
      · rw [if_neg (by simpa [prepositioned] using hprep), if_neg hprep]
        rfl
  rw [if_neg hbehind]
  by_cases hkind : asciiLower m.verb = ascii "drop" ∨ asciiLower m.verb = ascii "alter"
  · rw [if_pos hkind, targetObject_kind hrefs hkind]
    cases hws : m.words.map Prod.snd with
    | nil => exact absurd (List.map_eq_nil_iff.mp hws) (hm.kind hkind)
    | cons w ws =>
      rw [List.map_cons, List.cons_append, List.drop_one, List.tail_cons, hwords]
      rfl
  · rw [if_neg hkind]
    refine targetObject_unknown hrefs ?_
    simp only [not_or] at hdirect hbehind hkind
    simp only [List.mem_cons, List.not_mem_nil, or_false, not_or]
    exact ⟨hdirect.1, hdirect.2, hbehind.1, hbehind.2.1, hbehind.2.2, hkind.1, hkind.2⟩

end Shown

/-! ## The one object -/

/-- Nothing is looked for, or the words in front of the object are skipped and of the object
nothing is read, or all of it and it is the only one. A comment the lexer stops at hides the name. A name that is itself skipped must have
nothing behind it that is read; a word that is taken for the name must be the name. -/
def Mutation.OneOrNone (m : Mutation) : Prop :=
  ∀ ws ∈ m.ahead,
    match ws.find? (fun w => !decide (Skipped w)) with
    | some w => m.others = [] ∧ w = m.object
    | none =>
      if m.hidden ≠ [] then True
      else if ∃ r ∈ m.first.read, Skipped r then
        m.first.read = some m.first.text → m.parts = [] → readRef (dropModifiers (refs m.behind)) = none
      else partsRead m.first m.parts = none ∨ m.others = [] ∧ ∀ p ∈ m.first :: m.parts, p.read = some p.text

theorem dropModifiers_head {ts rest : List Ref} {w : Bytes} (h : dropModifiers ts = .ident w :: rest) : ¬ Skipped w := by
  induction ts with
  | nil => exact absurd h.symm (List.cons_ne_nil _ _)
  | cons t ts ih =>
    cases t with
    | ident u =>
      rw [dropModifiers_ident] at h
      split at h
      · exact ih h
      · rename_i hu
        obtain ⟨hhead, -⟩ := List.cons.inj h
        rwa [← Ref.ident.inj hhead]
    | dot | other => exact Ref.noConfusion (List.cons.inj h).1

/-- What is read behind the words that are skipped is none of them. -/
theorem not_skipped_read {ts : List Ref} {x : Bytes} (h : readRef (dropModifiers ts) = some x) : ¬ Skipped x := by
  cases hts : dropModifiers ts with
  | nil => rw [hts] at h; exact absurd h.symm (Option.some_ne_none x)
  | cons t rest =>
    rw [hts] at h
    cases t with
    | dot | other => exact absurd h.symm (Option.some_ne_none x)
    | ident w =>
      have hw := dropModifiers_head hts
      have hplain : readRef (.ident w :: rest) = some w ∨ ∃ tail, x = w ++ [dot] ++ tail := by
        cases rest with
        | nil => exact Or.inl rfl
        | cons t rest =>
          cases t with
          | ident _ | other => exact Or.inl rfl
          | dot =>
            obtain ⟨tail, -, heq⟩ := Option.map_eq_some_iff.mp (show (readRef rest).map (fun tail => w ++ [dot] ++ tail) = some x from h)
            exact Or.inr ⟨tail, heq.symm⟩
      rcases hplain with hplain | ⟨tail, rfl⟩
      · rw [hplain] at h
        rwa [← Option.some.inj h]
      intro hskip
      have hall : ∀ v ∈ skippedWords, dot ∉ v := by decide
      refine hall _ hskip ?_
      rw [asciiLower_append, asciiLower_append]
      exact List.mem_append_left _ (List.mem_append_right _ List.mem_cons_self)

/-- **The object that is named** is the one at risk, or none is, exactly under `OneOrNone`. -/
theorem names_rightly_iff (m : Mutation) (hm : m.WellFormed) :
    (∀ o, targetObject m.text = some o → m.objects = [o]) ↔ m.OneOrNone := by
  have hone : ∀ o, m.objects = [o] ↔ m.others = [] ∧ o = m.object := by
    intro o
    unfold Mutation.objects
    rw [List.cons.injEq, List.map_eq_nil_iff, and_comm, @eq_comm _ m.object]
  rw [m.read_eq hm]
  unfold Mutation.shown Mutation.OneOrNone
  cases m.ahead with
  | none => exact iff_of_true (fun o h => absurd h.symm (Option.some_ne_none o)) fun ws h => absurd h.symm (Option.some_ne_none ws)
  | some ws =>
    simp only [Option.bind_some, Option.mem_some_iff, forall_eq', hone]
    cases ws.find? (fun w => !decide (Skipped w)) with
    | some w => simp only [Option.some.injEq, forall_eq']
    | none =>
      simp only
      unfold Mutation.objectShown
      split
      · exact iff_of_true (fun o h => absurd h.symm (Option.some_ne_none o)) trivial
      split
      · rename_i hskip
        constructor
        · intro h hwhole halone
          rw [if_pos ⟨hwhole, halone⟩] at h
          cases hread : readRef (dropModifiers (refs m.behind)) with
          | none => rfl
          | some x =>
            obtain ⟨-, rfl⟩ := h x hread
            obtain ⟨r, hr, hskipped⟩ := hskip
            rw [hwhole] at hr
            obtain rfl := Option.some.inj hr
            refine absurd ?_ (not_skipped_read hread)
            rwa [Mutation.object, halone]
        · intro h o ho
          split at ho
          · rename_i hboth
            rw [h hboth.1 hboth.2] at ho
            exact absurd ho.symm (Option.some_ne_none o)
          · exact absurd ho.symm (Option.some_ne_none o)
      · rw [← partsRead_eq_iff]
        cases hread : partsRead m.first m.parts with
        | none => simp
        | some x =>
          simp only [Option.some.injEq, forall_eq', reduceCtorEq, false_or]
          rfl

/-! ## Two statements -/

theorem unseen_space : Unseen [space] := fun b => refs_separator (by decide) b

theorem grammarWord {w : Bytes} (hw : IsWord w) (h : w.head?.all isNameStart = true) : GrammarWord w :=
  ⟨hw, fun c hc => by rw [Option.mem_def.mp hc] at h; exact h⟩

theorem blank_word {w : Bytes} (hw : GrammarWord w) :
    Unseen [space] ∧ StartsClear [space] ∧ [space] ≠ [] ∧ GrammarWord w :=
  ⟨unseen_space, fun c hc => by rw [← Option.some.inj hc]; decide, List.cons_ne_nil _ _, hw⟩

/-- `DROP TABLE IF EXISTS t CASCADE`. -/
def dropOne : Mutation where
  lead := []
  verb := ascii "DROP"
  words := [([space], ascii "TABLE"), ([space], ascii "IF"), ([space], ascii "EXISTS")]
  gap := [space]
  hidden := []
  first := .ofName (.bare (ascii "t")) (by decide)
  parts := []
  others := []
  rest := ascii " CASCADE"

theorem dropOne_wellFormed : dropOne.WellFormed where
  lead := fun _ => rfl
  verb := grammarWord (by decide) (by decide)
  words := by
    simp only [dropOne, List.forall_mem_cons]
    exact ⟨blank_word (grammarWord (by decide) (by decide)), blank_word (grammarWord (by decide) (by decide)),
      blank_word (grammarWord (by decide) (by decide)), fun w hw => absurd hw List.not_mem_nil⟩
  gap := unseen_space
  hidden := fun h => absurd rfl h
  apart := fun c hc => by rw [← Option.some.inj hc]; decide
  reserved := by decide
  kind := fun _ => List.cons_ne_nil _ _
  ends := ⟨fun c hc => by rw [← Option.some.inj hc]; decide, by decide⟩

/-- A DROP of one table. -/
theorem dropOne_named : (∀ o, targetObject dropOne.text = some o → dropOne.objects = [o]) ↔ dropOne.OneOrNone :=
  names_rightly_iff dropOne dropOne_wellFormed

/-- `UPDATE IGNORE t SET a = 1`. -/
def updateIgnore : Mutation where
  lead := []
  verb := ascii "UPDATE"
  words := [([space], ascii "IGNORE")]
  gap := [space]
  hidden := []
  first := .ofName (.bare (ascii "t")) (by decide)
  parts := []
  others := []
  rest := ascii " SET a = 1"

/-- One table is modified, and the modifier is named. -/
theorem ignore_named :
    updateIgnore.text = ascii "UPDATE IGNORE t SET a = 1" ∧ updateIgnore.objects = [ascii "t"] ∧
      .safe < (assess updateIgnore.text .mySql).level ∧ (assess updateIgnore.text .mySql).table = some (ascii "IGNORE") ∧
      targetObject updateIgnore.text = some (ascii "IGNORE") := by
  decide

end RedDb.Sql
