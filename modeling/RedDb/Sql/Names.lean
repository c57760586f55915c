import Mathlib.Data.List.TakeWhile
import RedDb.Sql.Refs

/-!
# RedDb — dotted names, and what is read of them

An engine's name is parts with dots between: bare ones, whose bytes may be letters beyond
ASCII and `$`, and quoted ones, in which the quote is written twice. `read_ref` reads less: a
bare part up to its first byte that is no ASCII letter, digit or `_`, a quoted one up to its
first quote.

* `readRef_dotted` — what is read of a name (`spelled`);
* `spelled_eq_some_iff` — the whole name, exactly if its parts are read whole;
* `spelled_eq_none_iff` — nothing, exactly if it breaks off where nothing is read.
-/

namespace RedDb.Sql

open ByteText

/-! ## Names -/

/-- One part of a dotted name. -/
inductive NamePart where
  | bare (text : Bytes)
  | quoted (q : UInt8) (inner : Bytes)
  deriving DecidableEq

/-- A quote inside its own quotes is written twice. -/
@[grind =] def doubled (q : UInt8) : Bytes → Bytes
  | [] => []
  | c :: rest => if c == q then c :: c :: doubled q rest else c :: doubled q rest

def NamePart.text : NamePart → Bytes
  | .bare text => text
  | .quoted q inner => q :: (doubled q inner ++ [q])

/-- The name itself, without its quotes. -/
def NamePart.inner : NamePart → Bytes
  | .bare text => text
  | .quoted _ inner => inner

/-- Bytes of an unquoted name: those of a word, `$`, and all beyond ASCII. -/
def isNameByte (c : UInt8) : Bool := isWordByte c || c == dollar || 0x80 ≤ c

/-- The part is one an engine reads as a name. -/
def NamePart.WellFormed : NamePart → Prop
  | .bare text => text ≠ [] ∧ ∀ c ∈ text, isNameByte c = true
  | .quoted q _ => q = doubleQuote ∨ q = backtick

instance (p : NamePart) : Decidable p.WellFormed := by
  cases p with
  | bare text => exact inferInstanceAs (Decidable (_ ∧ _))
  | quoted q inner => exact inferInstanceAs (Decidable (_ ∨ _))

/-- A name: its first part, and the parts behind the dots. -/
structure Name where
  first : NamePart
  rest : List NamePart
  deriving DecidableEq

@[grind =] def dotted : NamePart → List NamePart → Bytes
  | p, [] => p.text
  | p, q :: rest => p.text ++ dot :: dotted q rest

def Name.text (n : Name) : Bytes := dotted n.first n.rest

/-- The name of the table itself, behind its schema. -/
def Name.last (n : Name) : Bytes := ((n.rest.getLast?).getD n.first).inner

def Name.WellFormed (n : Name) : Prop := n.first.WellFormed ∧ ∀ p ∈ n.rest, p.WellFormed

instance (n : Name) : Decidable n.WellFormed := inferInstanceAs (Decidable (_ ∧ _))

/-! ## What is read -/

/-- The part is read as it is written. -/
def NamePart.Whole : NamePart → Prop
  | .bare text => (∃ c ∈ text.head?, isNameStart c = true) ∧ ∀ c ∈ text, isWordByte c = true
  | .quoted q inner => q ∉ inner

/-- Something of the part is read. -/
def NamePart.Readable : NamePart → Prop
  | .bare text => ∃ c ∈ text.head?, isNameStart c = true
  | .quoted _ _ => True

instance (p : NamePart) : Decidable p.Whole := by
  cases p with
  | bare text => exact inferInstanceAs (Decidable (_ ∧ _))
  | quoted q inner => exact inferInstanceAs (Decidable (q ∉ inner))

instance (p : NamePart) : Decidable p.Readable := by
  cases p with
  | bare text => exact inferInstanceAs (Decidable (∃ c ∈ text.head?, _))
  | quoted q inner => exact inferInstanceAs (Decidable True)

/-- What of a part is read. -/
def NamePart.spelled : NamePart → Bytes
  | .bare text => text.takeWhile isWordByte
  | .quoted q inner => q :: (inner.takeWhile (· != q) ++ [q])

/-- What of a name is read: a part that is not read whole is the last. -/
@[grind =] def spelled : NamePart → List NamePart → Option Bytes
  | p, [] => if p.Readable then some p.spelled else none
  | p, q :: rest =>
    if p.Whole then (spelled q rest).map fun tail => p.text ++ [dot] ++ tail
    else if p.Readable then some p.spelled else none

/-- The name breaks off, behind parts that are read whole, where nothing is read. -/
def BreaksOff : NamePart → List NamePart → Prop
  | p, [] => ¬ p.Readable
  | p, q :: rest => ¬ p.Readable ∨ p.Whole ∧ BreaksOff q rest

variable {p : NamePart}

theorem NamePart.Whole.readable (h : p.Whole) : p.Readable := by
  cases p with
  | bare text => exact h.1
  | quoted q inner => trivial

variable {q : UInt8}

theorem doubled_not_mem {inner : Bytes} (h : q ∉ inner) : doubled q inner = inner := by
  induction inner with
  | nil => rfl
  | cons c rest ih =>
    rw [List.mem_cons, not_or] at h
    rw [doubled, if_neg (by rw [beq_iff_eq]; exact fun hc => h.1 hc.symm), ih h.2]

theorem doubled_split {inner : Bytes} (h : q ∈ inner) :
    ∃ rest, doubled q inner = inner.takeWhile (· != q) ++ q :: q :: rest := by
  induction inner with
  | nil => exact absurd h List.not_mem_nil
  | cons c rest ih =>
    by_cases hc : c = q
    · subst hc
      exact ⟨doubled c rest, by rw [doubled, if_pos (beq_self_eq_true c), List.takeWhile_cons,
        if_neg (by simp), List.nil_append]⟩
    · have hmem : q ∈ rest := (List.mem_cons.mp h).resolve_left fun heq => hc heq.symm
      obtain ⟨tail, htail⟩ := ih hmem
      refine ⟨tail, ?_⟩
      rw [doubled, if_neg (by rw [beq_iff_eq]; exact hc), htail, List.takeWhile_cons,
        if_pos (by rw [bne_iff_ne]; exact hc), List.cons_append]

/-- A part that is read whole is read as it is written, any other one shorter. -/
theorem NamePart.Whole.spelled_eq (h : p.Whole) : p.spelled = p.text := by
  cases p with
  | bare text => exact List.takeWhile_eq_self_iff.mpr h.2
  | quoted q inner =>
    have hstop : ∀ x ∈ inner, (x != q) = true := by
      intro x hx
      rw [bne_iff_ne]
      rintro rfl
      exact h hx
    rw [NamePart.spelled, NamePart.text, doubled_not_mem h, List.takeWhile_eq_self_iff.mpr hstop]

theorem NamePart.spelled_lt (hr : p.Readable) (h : ¬ p.Whole) :
    p.spelled.length < p.text.length := by
  cases p with
  | bare text =>
    have hne : text.takeWhile isWordByte ≠ text := fun heq =>
      h ⟨hr, List.takeWhile_eq_self_iff.mp heq⟩
    exact Nat.lt_of_le_of_ne (List.takeWhile_prefix _).length_le fun hlen =>
      hne ((List.takeWhile_prefix _).eq_of_length hlen)
  | quoted q inner =>
    obtain ⟨rest, hsplit⟩ := doubled_split (Classical.not_not.mp h)
    rw [NamePart.spelled, NamePart.text, hsplit]
    simp

variable {ps : List NamePart}

/-- **The whole name** is read exactly if each of its parts is. -/
theorem spelled_eq_some_iff : spelled p ps = some (dotted p ps) ↔ p.Whole ∧ ∀ q ∈ ps, q.Whole := by
  induction ps generalizing p with
  | nil =>
    rw [spelled, dotted]
    constructor
    · intro h
      split at h
      · rename_i hr
        refine ⟨Classical.byContradiction fun hw => ?_, by simp⟩
        have := NamePart.spelled_lt hr hw
        rw [Option.some.inj h] at this
        exact Nat.lt_irrefl _ this
      · cases h
    · intro h
      rw [if_pos h.1.readable, h.1.spelled_eq]
  | cons q rest ih =>
    rw [spelled, dotted, List.forall_mem_cons, ← ih]
    constructor
    · intro h
      split at h
      · rename_i hw
        refine ⟨hw, ?_⟩
        obtain ⟨tail, htail, heq⟩ := Option.map_eq_some_iff.mp h
        rw [List.append_assoc, List.append_cancel_left_eq, List.singleton_append,
          List.cons.injEq] at heq
        rw [htail, heq.2]
      · rename_i hw
        split at h
        · rename_i hr
          have hlt := NamePart.spelled_lt hr hw
          rw [Option.some.inj h, List.length_append] at hlt
          omega
        · cases h
    · rintro ⟨hw, hrest⟩
      rw [if_pos hw, hrest, Option.map_some, List.append_assoc, List.singleton_append]

/-- **Nothing** is read exactly if the name breaks off where nothing is read. -/
theorem spelled_eq_none_iff : spelled p ps = none ↔ BreaksOff p ps := by
  induction ps generalizing p with
  | nil =>
    rw [spelled, BreaksOff]
    split <;> simp_all
  | cons q rest ih =>
    rw [spelled, BreaksOff]
    split
    · rename_i hw
      rw [Option.map_eq_none_iff, ih, or_iff_right (not_not_intro hw.readable), and_iff_right hw]
    · rename_i hw
      rw [or_iff_left (fun h => hw h.1)]
      split <;> simp_all

/-! ## The lexer on a name -/

theorem refs_quote_head (hq : q = doubleQuote ∨ q = backtick) (b : Bytes) :
    ∃ t ts, refs (q :: b) = .ident t :: ts := by
  unfold refs
  rw [List.length_cons, lexRefs]
  rcases hq with rfl | rfl
  · exact ⟨_, _, rfl⟩
  · exact ⟨_, _, rfl⟩

/-- A byte of a name that begins no word is no token of a name. -/
theorem refs_nameByte {c : UInt8} (hc : isNameByte c = true) (hstart : isNameStart c = false)
    (b : Bytes) : refs (c :: b) = .other :: refs b := by
  have hne : ∀ x : UInt8, isNameByte x = false → c ≠ x := by
    rintro x hx rfl
    rw [hc] at hx
    exact Bool.noConfusion hx
  have hblank : isAsciiWhitespace c = false := by
    simp only [isAsciiWhitespace, Bool.or_eq_false_iff, beq_eq_false_iff_ne]
    exact ⟨⟨⟨⟨hne _ (by decide), hne _ (by decide)⟩, hne _ (by decide)⟩, hne _ (by decide)⟩,
      hne _ (by decide)⟩
  have hquote : isQuote c = false := by
    simp only [isQuote, Bool.or_eq_false_iff, beq_eq_false_iff_ne]
    exact ⟨⟨hne _ (by decide), hne _ (by decide)⟩, hne _ (by decide)⟩
  rw [refs_plain hblank (hne _ (by decide)) (hne _ (by decide)) hquote (hne _ (by decide)),
    if_neg (by rw [hstart]; exact Bool.false_ne_true), if_neg]
  rw [beq_iff_eq]
  exact hne _ (by decide)

/-- What may follow a name: no byte of a word, and no dot. -/
structure NameEnds (rest : Bytes) : Prop where
  clear : StartsClear rest
  noDot : (refs rest).head? ≠ some .dot

variable {rest : Bytes}

/-- A part that is read whole is one token. -/
theorem refs_whole (hp : p.WellFormed) (hw : p.Whole)
    (hrest : StartsClear rest) : refs (p.text ++ rest) = .ident p.text :: refs rest := by
  cases p with
  | bare text =>
    obtain ⟨c, hc, hstart⟩ := hw.1
    refine refs_word ⟨hp.1, hw.2⟩ (fun x hx => ?_) hrest
    rw [Option.mem_unique hx hc]
    exact hstart
  | quoted q inner =>
    have hquoted := refs_quoted hp hw rest
    rw [NamePart.text, doubled_not_mem hw, List.cons_append, List.append_assoc,
      List.singleton_append]
    exact hquoted

/-- A part that is not read whole: no dot follows what is read of it. -/
theorem refs_part (hp : p.WellFormed) (hw : ¬ p.Whole) (rest : Bytes) :
    (p.Readable ∧ ∃ t ts, t ≠ .dot ∧ refs (p.text ++ rest) = .ident p.spelled :: t :: ts) ∨
      (¬ p.Readable ∧ ∃ ts, refs (p.text ++ rest) = .other :: ts) := by
  cases p with
  | bare text =>
    obtain ⟨c, t, rfl⟩ := List.exists_cons_of_ne_nil hp.1
    by_cases hstart : isNameStart c = true
    · left
      have hreadable : (NamePart.bare (c :: t)).Readable := ⟨c, rfl, hstart⟩
      obtain ⟨x, u, hsplit⟩ : ∃ x u, (c :: t).dropWhile isWordByte = x :: u := by
        refine List.exists_cons_of_ne_nil fun hnil => hw ⟨hreadable, ?_⟩
        exact List.dropWhile_eq_nil_iff.mp hnil
      have hx : isWordByte x = false := by
        have := List.head?_dropWhile_not isWordByte (c :: t)
        rw [hsplit] at this
        simpa using this
      have hname : isNameByte x = true := by
        refine hp.2 x ?_
        have : x ∈ (c :: t).dropWhile isWordByte := by
          rw [hsplit]
          exact List.mem_cons_self
        exact (List.dropWhile_suffix _).mem this
      have hword : IsWord ((c :: t).takeWhile isWordByte) := by
        refine ⟨?_, fun y hy => List.all_eq_true.mp List.all_takeWhile y hy⟩
        rw [List.takeWhile_cons, if_pos (isNameStart_word hstart)]
        exact List.cons_ne_nil _ _
      have htext : c :: t ++ rest = (c :: t).takeWhile isWordByte ++ (x :: (u ++ rest)) := by
        conv_lhs => rw [← List.takeWhile_append_dropWhile (p := isWordByte) (l := c :: t), hsplit]
        rw [List.append_assoc, List.cons_append]
      have hclear : StartsClear (x :: (u ++ rest)) := by
        intro y hy
        rw [← Option.some.inj hy]
        exact hx
      have hnostart : isNameStart x = false := by
        cases hs : isNameStart x with
        | false => rfl
        | true =>
          rw [isNameStart_word hs] at hx
          exact Bool.noConfusion hx
      refine ⟨hreadable, .other, refs (u ++ rest), Ref.noConfusion, ?_⟩
      rw [NamePart.text, htext, refs_word hword (fun y hy => ?_) hclear,
        refs_nameByte hname hnostart]
      · rfl
      · rw [List.takeWhile_cons, if_pos (isNameStart_word hstart)] at hy
        rw [← Option.some.inj hy]
        exact hstart
    · right
      refine ⟨?_, refs (t ++ rest), ?_⟩
      · rintro ⟨y, hy, hs⟩
        rw [← Option.some.inj hy] at hs
        exact hstart hs
      · rw [NamePart.text, List.cons_append,
          refs_nameByte (hp.2 c List.mem_cons_self) (Bool.eq_false_iff.mpr hstart)]
  | quoted q inner =>
    left
    obtain ⟨tail, hsplit⟩ := doubled_split (Classical.not_not.mp hw)
    have hnot : q ∉ inner.takeWhile (· != q) := by
      intro hmem
      have := List.all_eq_true.mp List.all_takeWhile q hmem
      simp at this
    obtain ⟨t, ts, hhead⟩ := refs_quote_head hp (tail ++ [q] ++ rest)
    have hshape : NamePart.text (.quoted q inner) ++ rest =
        q :: (inner.takeWhile (· != q) ++ q :: (q :: (tail ++ [q] ++ rest))) := by
      rw [NamePart.text, hsplit]
      simp
    refine ⟨trivial, .ident t, ts, Ref.noConfusion, ?_⟩
    rw [hshape, refs_quoted hp hnot, hhead]
    rfl

/-- Of a part that is not read whole, what is read is all that is read of the name. -/
theorem readRef_part (hp : p.WellFormed) (hw : ¬ p.Whole) (rest : Bytes) :
    readRef (refs (p.text ++ rest)) = if p.Readable then some p.spelled else none := by
  rcases refs_part hp hw rest with ⟨hr, t, ts, ht, hrefs⟩ | ⟨hr, ts, hrefs⟩
  · rw [if_pos hr, hrefs]
    cases t with
    | dot => exact absurd rfl ht
    | ident w => rfl
    | other => rfl
  · rw [if_neg hr, hrefs]
    rfl

/-- The first token of a name. -/
theorem refs_dotted_head (ps : List NamePart) (hp : p.WellFormed) (hrest : StartsClear rest) :
    ∃ ts, refs (dotted p ps ++ rest) = (if p.Readable then .ident p.spelled else .other) :: ts := by
  have hone : ∀ rest' : Bytes, StartsClear rest' →
      ∃ ts, refs (p.text ++ rest') = (if p.Readable then .ident p.spelled else .other) :: ts := by
    intro rest' hrest'
    by_cases hw : p.Whole
    · rw [if_pos hw.readable, hw.spelled_eq]
      exact ⟨_, refs_whole hp hw hrest'⟩
    rcases refs_part hp hw rest' with ⟨hr, t, ts, -, hrefs⟩ | ⟨hr, ts, hrefs⟩
    · rw [if_pos hr]
      exact ⟨t :: ts, hrefs⟩
    · rw [if_neg hr]
      exact ⟨ts, hrefs⟩
  cases ps with
  | nil => exact hone rest hrest
  | cons q more =>
    rw [dotted, List.append_assoc, List.cons_append]
    refine hone _ fun x hx => ?_
    rw [← Option.some.inj hx]
    decide

/-- **What is read of a name.** -/
theorem readRef_dotted (hp : p.WellFormed) (hps : ∀ q ∈ ps, q.WellFormed) (hrest : NameEnds rest) :
    readRef (refs (dotted p ps ++ rest)) = spelled p ps := by
  induction ps generalizing p with
  | nil =>
    rw [dotted, spelled]
    by_cases hw : p.Whole
    · rw [refs_whole hp hw hrest.clear, if_pos hw.readable, hw.spelled_eq]
      cases hrefs : refs rest with
      | nil => rfl
      | cons t ts =>
        cases t with
        | dot =>
          have := hrest.noDot
          rw [hrefs] at this
          exact absurd rfl this
        | ident w => rfl
        | other => rfl
    · exact readRef_part hp hw rest
  | cons q more ih =>
    rw [dotted, spelled, List.append_assoc, List.cons_append]
    by_cases hw : p.Whole
    · have hclear : StartsClear (dot :: (dotted q more ++ rest)) := by
        intro x hx
        rw [← Option.some.inj hx]
        decide
      rw [refs_whole hp hw hclear, refs_dot, if_pos hw,
        ← ih (hps q List.mem_cons_self) fun x hx => hps x (List.mem_cons_of_mem q hx)]
      rfl
    · rw [if_neg hw]
      exact readRef_part hp hw _

end RedDb.Sql
