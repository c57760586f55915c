import RedDb.Lib.ByteText
import Mathlib.Data.List.Basic

/-!
# The grammar of JSON text

RFC 8259 as predicates on bytes. A character outside ASCII is bytes a string holds as they
are. Values are built in levels: `Level n` has at most `n` values one inside another, and in
`Nested n` containers nest at most `n` deep.

* `Compound.head` — the first byte of a value says which kind of value it is.
-/

namespace JsonSyntax

/-! ## Tokens -/

def isSpace (c : UInt8) : Bool := c == 32 || c == 9 || c == 10 || c == 13

def isDigit (c : UInt8) : Bool := 48 ≤ c && c ≤ 57

def isHexDigit (c : UInt8) : Bool := isDigit c || (65 ≤ c && c ≤ 70) || (97 ≤ c && c ≤ 102)

/-- What may stand alone behind a backslash. -/
def isShortEscape (c : UInt8) : Bool :=
  c == 34 || c == 92 || c == 47 || c == 98 || c == 102 || c == 110 || c == 114 || c == 116

def Space (t : Bytes) : Prop := ∀ c ∈ t, isSpace c = true

def Digits (t : Bytes) : Prop := t ≠ [] ∧ ∀ c ∈ t, isDigit c = true

/-- Digits without a leading zero. -/
def Integer (t : Bytes) : Prop := Digits t ∧ (t.head? = some 48 → t = [48])

inductive Fraction : Bytes → Prop
  | none : Fraction []
  | point {t : Bytes} : Digits t → Fraction (46 :: t)

def Sign (t : Bytes) : Prop := t = [] ∨ t = [43] ∨ t = [45]

inductive Exponent : Bytes → Prop
  | none : Exponent []
  | power {e : UInt8} {sign t : Bytes} : e = 101 ∨ e = 69 → Sign sign → Digits t →
      Exponent (e :: sign ++ t)

def Number (t : Bytes) : Prop :=
  ∃ sign int frac exp, (sign = [] ∨ sign = [45]) ∧ Integer int ∧ Fraction frac ∧ Exponent exp ∧
    t = sign ++ (int ++ (frac ++ exp))

/-- The inside of a string. -/
inductive Chars : Bytes → Prop
  | nil : Chars []
  | plain {c : UInt8} {t : Bytes} : c ≠ 34 → c ≠ 92 → 32 ≤ c → Chars t → Chars (c :: t)
  | escaped {c : UInt8} {t : Bytes} : isShortEscape c = true → Chars t → Chars (92 :: c :: t)
  | unit {a b c d : UInt8} {t : Bytes} : isHexDigit a = true → isHexDigit b = true →
      isHexDigit c = true → isHexDigit d = true → Chars t → Chars (92 :: 117 :: a :: b :: c :: d :: t)

def Str (t : Bytes) : Prop := ∃ chars, Chars chars ∧ t = 34 :: chars ++ [34]

def trueText : Bytes := [116, 114, 117, 101]
def falseText : Bytes := [102, 97, 108, 115, 101]
def nullText : Bytes := [110, 117, 108, 108]

def Scalar (t : Bytes) : Prop :=
  Str t ∨ Number t ∨ t = trueText ∨ t = falseText ∨ t = nullText

/-! ## Containers -/

/-- With white space around it. -/
def Padded (P : Bytes → Prop) (t : Bytes) : Prop :=
  ∃ before body after, Space before ∧ P body ∧ Space after ∧ t = before ++ (body ++ after)

/-- One or more, with commas between them. -/
inductive Commaed (P : Bytes → Prop) : Bytes → Prop
  | one {t : Bytes} : P t → Commaed P t
  | cons {t rest : Bytes} : P t → Commaed P rest → Commaed P (t ++ 44 :: rest)

def Member (P : Bytes → Prop) (t : Bytes) : Prop :=
  ∃ name value, Padded Str name ∧ Padded P value ∧ t = name ++ 58 :: value

inductive Enclosed (opening closing : UInt8) (Item : Bytes → Prop) : Bytes → Prop
  | empty {t : Bytes} : Space t → Enclosed opening closing Item (opening :: t ++ [closing])
  | items {t : Bytes} : Commaed Item t → Enclosed opening closing Item (opening :: t ++ [closing])

def ArrayOf (P : Bytes → Prop) : Bytes → Prop := Enclosed 91 93 (Padded P)

def ObjectOf (P : Bytes → Prop) : Bytes → Prop := Enclosed 123 125 (Member P)

/-- A value whose elements, if it has any, are of `P`. -/
def Compound (P : Bytes → Prop) (t : Bytes) : Prop := Scalar t ∨ ArrayOf P t ∨ ObjectOf P t

theorem padded_of {P : Bytes → Prop} {t : Bytes} (h : P t) : Padded P t :=
  ⟨[], t, [], fun _ hc => absurd hc List.not_mem_nil, h, fun _ hc => absurd hc List.not_mem_nil, by simp⟩

theorem Chars.append {s t : Bytes} (hs : Chars s) (ht : Chars t) : Chars (s ++ t) := by
  induction hs with
  | nil => exact ht
  | plain h1 h2 h3 _ ih => exact .plain h1 h2 h3 ih
  | escaped h _ ih => exact .escaped h ih
  | unit ha hb hc hd _ ih => exact .unit ha hb hc hd ih

def Tower (base : Bytes → Prop) : Nat → Bytes → Prop
  | 0 => base
  | n + 1 => Compound (Tower base n)

/-- Values of which at most `n` stand one inside another. -/
def Level : Nat → Bytes → Prop := Tower fun _ => False

/-- Values whose containers nest at most `n` deep. -/
def Nested : Nat → Bytes → Prop := Tower Scalar

theorem space_append {s t : Bytes} (hs : Space s) (ht : Space t) : Space (s ++ t) := by
  intro c hc
  rcases List.mem_append.mp hc with hc | hc
  · exact hs c hc
  · exact ht c hc

theorem Padded.pad {P : Bytes → Prop} {s t : Bytes} (hs : Space s) (ht : Padded P t) :
    Padded P (s ++ t) := by
  obtain ⟨before, body, after, hb, hP, ha, rfl⟩ := ht
  exact ⟨s ++ before, body, after, space_append hs hb, hP, ha, by rw [List.append_assoc]⟩

/-! ## What a value begins with -/

/-- A byte that neither is white space nor ends a container. -/
def Begins (c : UInt8) : Prop := isSpace c = false ∧ c ≠ 93 ∧ c ≠ 125

theorem begins_of_isDigit {c : UInt8} (h : isDigit c = true) : Begins c := by
  have hne : ∀ d, isDigit d = false → c ≠ d := by
    intro d hd hcd
    rw [hcd, hd] at h
    exact absurd h (by decide)
  refine ⟨?_, hne 93 rfl, hne 125 rfl⟩
  have h1 := hne 32 rfl
  have h2 := hne 9 rfl
  have h3 := hne 10 rfl
  have h4 := hne 13 rfl
  simp [isSpace, h1, h2, h3, h4]

theorem Integer.head {t : Bytes} (h : Integer t) : ∃ c rest, t = c :: rest ∧ isDigit c = true := by
  obtain ⟨⟨hne, hall⟩, -⟩ := h
  obtain ⟨c, rest, rfl⟩ := List.exists_cons_of_ne_nil hne
  exact ⟨c, rest, rfl, hall c List.mem_cons_self⟩

/-- A number begins with a digit, or with a dash. -/
theorem Number.head {t : Bytes} (h : Number t) :
    ∃ c rest, t = c :: rest ∧ (c = 45 ∨ isDigit c = true) := by
  obtain ⟨sign, int, frac, exp, hsign, hint, -, -, rfl⟩ := h
  rcases hsign with rfl | rfl
  · obtain ⟨c, rest, rfl, hc⟩ := hint.head
    exact ⟨c, rest ++ (frac ++ exp), rfl, .inr hc⟩
  · exact ⟨45, int ++ (frac ++ exp), rfl, .inl rfl⟩

theorem not_scalar_bracket (t : Bytes) : ¬Scalar (91 :: t) := by
  rintro (⟨chars, -, htext⟩ | hn | htext | htext | htext)
  · exact absurd (List.cons.inj htext).1 (by decide)
  · obtain ⟨c, rest, htext, hc⟩ := hn.head
    rw [← (List.cons.inj htext).1] at hc
    exact absurd hc (by decide)
  all_goals exact absurd (List.cons.inj htext).1 (by decide)

theorem Compound.head {P : Bytes → Prop} {t : Bytes} (h : Compound P t) :
    ∃ c rest, t = c :: rest ∧ (c = 34 ∨ c = 45 ∨ isDigit c = true ∨ c = 116 ∨ c = 102 ∨ c = 110 ∨
      c = 91 ∨ c = 123) := by
  rcases h with (⟨chars, -, rfl⟩ | hn | rfl | rfl | rfl) | ha | ho
  · exact ⟨34, _, rfl, .inl rfl⟩
  · obtain ⟨c, rest, rfl, hc⟩ := hn.head
    exact ⟨c, rest, rfl, by tauto⟩
  · exact ⟨116, _, rfl, by tauto⟩
  · exact ⟨102, _, rfl, by tauto⟩
  · exact ⟨110, _, rfl, by tauto⟩
  · cases ha <;> exact ⟨91, _, rfl, by tauto⟩
  · cases ho <;> exact ⟨123, _, rfl, by tauto⟩

theorem Compound.begins {P : Bytes → Prop} {t : Bytes} (h : Compound P t) :
    ∃ c rest, t = c :: rest ∧ Begins c := by
  obtain ⟨c, rest, rfl, hc⟩ := h.head
  refine ⟨c, rest, rfl, ?_⟩
  rcases hc with rfl | rfl | hd | rfl | rfl | rfl | rfl | rfl
  case inr.inr.inl => exact begins_of_isDigit hd
  all_goals exact ⟨rfl, by decide, by decide⟩

end JsonSyntax
