import RedDb.Lib.JsonText

/-!
# What JSON text denotes

The grammar of JSON as a relation between a text and a value, white space included, for
writers whose text is not the compact one.

* `denotes_object` — an object of members that denote values;
* `literal_escape` — a string escaped character by character.
-/

namespace JsonText

open TextCodec

def Blank (t : Text) : Prop := ∀ c ∈ t, c = ' ' ∨ c = '\t' ∨ c = '\n' ∨ c = '\r'

/-- The code unit of four hex digits. -/
def hexUnit (digits : Text) : Option Nat :=
  match digits with
  | [a, b, c, d] =>
    (hexValue a).bind fun a => (hexValue b).bind fun b => (hexValue c).bind fun c =>
      (hexValue d).map fun d => 4096 * a + 256 * b + 16 * c + d
  | _ => none

/-- The inside of a string, and the characters it stands for. -/
inductive Literal : Text → Text → Prop
  | nil : Literal [] []
  | plain {c : Char} {lit s : Text} : c ≠ '"' → c ≠ '\\' → 0x20 ≤ c.toNat → Literal lit s →
      Literal (c :: lit) (c :: s)
  | escaped {c d : Char} {lit s : Text} : unescape c = some d → Literal lit s →
      Literal ('\\' :: c :: lit) (d :: s)
  | unit {digits lit s : Text} {n : Nat} : hexUnit digits = some n → n.isValidChar →
      Literal lit s → Literal ('\\' :: 'u' :: digits ++ lit) (Char.ofNat n :: s)
  | pair {high low lit s : Text} {m n : Nat} : hexUnit high = some m → hexUnit low = some n →
      0xD800 ≤ m → m < 0xDC00 → 0xDC00 ≤ n → n < 0xE000 → Literal lit s →
      Literal ('\\' :: 'u' :: high ++ '\\' :: 'u' :: low ++ lit)
        (Char.ofNat (0x10000 + (m - 0xD800) * 0x400 + (n - 0xDC00)) :: s)

/-- A member of an object in text: its key, with blanks around it, and its value. -/
structure Member where
  keyText : Text
  key : String
  text : Text
  value : Json

/-- The text of a key, and the key. -/
def KeyText (t : Text) (key : String) : Prop :=
  ∃ before lit after, Blank before ∧ Blank after ∧ Literal lit key.toList ∧
    t = before ++ '"' :: lit ++ '"' :: after

/-- The parts with a comma between them. -/
def commaJoined : List Text → Text
  | [] => []
  | [part] => part
  | part :: next :: rest => part ++ ',' :: commaJoined (next :: rest)

inductive Denotes : Text → Json → Prop
  | null : Denotes ['n', 'u', 'l', 'l'] .null
  | true : Denotes ['t', 'r', 'u', 'e'] (.bool true)
  | false : Denotes ['f', 'a', 'l', 's', 'e'] (.bool false)
  | number {token : Text} : token ≠ [] → (∀ c ∈ token, isNumberChar c = true) →
      Denotes token (.number token)
  | string {lit : Text} {s : String} : Literal lit s.toList → Denotes ('"' :: lit ++ ['"']) (.string s)
  | emptyArray {blank : Text} : Blank blank → Denotes ('[' :: blank ++ [']']) (.array [])
  | array {parts : List (Text × Json)} : parts ≠ [] → (∀ p ∈ parts, Denotes p.1 p.2) →
      Denotes ('[' :: commaJoined (parts.map Prod.fst) ++ [']']) (.array (parts.map Prod.snd))
  | emptyObject {blank : Text} : Blank blank → Denotes ('\x7b' :: blank ++ ['\x7d']) (.object [])
  | object {parts : List Member} : parts ≠ [] → (∀ p ∈ parts, KeyText p.keyText p.key) →
      (∀ p ∈ parts, Denotes p.text p.value) →
      Denotes ('\x7b' :: commaJoined (parts.map fun p => p.keyText ++ ':' :: p.text) ++ ['\x7d'])
        (.object (parts.map fun p => (p.key, p.value)))
  | padded {before t after : Text} {j : Json} : Blank before → Blank after → Denotes t j →
      Denotes (before ++ t ++ after) j

theorem blank_nil : Blank [] := fun _ h => absurd h List.not_mem_nil

/-- An object of any number of members. -/
theorem denotes_object (parts : List Member) (hkeys : ∀ p ∈ parts, KeyText p.keyText p.key)
    (hvalues : ∀ p ∈ parts, Denotes p.text p.value) :
    Denotes ('\x7b' :: commaJoined (parts.map fun p => p.keyText ++ ':' :: p.text) ++ ['\x7d'])
      (.object (parts.map fun p => (p.key, p.value))) := by
  cases parts with
  | nil => exact Denotes.emptyObject blank_nil
  | cons p parts => exact Denotes.object (List.cons_ne_nil _ _) hkeys hvalues

theorem keyText_plain {lit : Text} {key : String} (h : Literal lit key.toList) :
    KeyText ('"' :: lit ++ ['"']) key :=
  ⟨[], lit, [], blank_nil, blank_nil, h, rfl⟩

theorem hexUnit_control {c : Char} (h : c.toNat < 0x20) :
    hexUnit ['0', '0', hexDigit (c.toNat / 16), hexDigit (c.toNat % 16)] = some c.toNat := by
  have hhigh := hexValue_hexDigit (show c.toNat / 16 < 16 by omega)
  have hlow := hexValue_hexDigit (show c.toNat % 16 < 16 by omega)
  have hzero : hexValue '0' = some 0 := by decide
  have hsum : 4096 * 0 + 256 * 0 + 16 * (c.toNat / 16) + c.toNat % 16 = c.toNat := by omega
  unfold hexUnit
  simp only [hzero, hhigh, hlow, Option.bind_some, Option.map_some, hsum]

/-- A string written character by character, each as an escape of it, denotes the string. -/
theorem literal_escape {escape : Char → Text}
    (h : ∀ c lit s, Literal lit s → Literal (escape c ++ lit) (c :: s)) (s : Text) :
    Literal (s.flatMap escape) s := by
  induction s with
  | nil => exact Literal.nil
  | cons c s ih =>
    rw [List.flatMap_cons]
    exact h c _ s ih

/-- A control character in four hex digits. -/
theorem literal_control {c : Char} (h : c.toNat < 0x20) {lit s : Text} (hlit : Literal lit s) :
    Literal (['\\', 'u', '0', '0', hexDigit (c.toNat / 16), hexDigit (c.toNat % 16)] ++ lit)
      (c :: s) := by
  have hunit := Literal.unit (hexUnit_control h) (Or.inl (by omega)) hlit
  rwa [Char.ofNat_toNat] at hunit

end JsonText
