import Mathlib.Data.List.Basic

/-!
# UTF-8 text as bytes

A `&str` is read here as the list of its UTF-8 bytes, and the standard
library's text functions as functions of that list. Two whitespace classes are
in use and they differ: `isAsciiWhitespace` is the byte test (space, tab, line
feed, form feed, carriage return), while `trim` and `splitWhitespace` follow the
Unicode `White_Space` property, which adds the vertical tab and the non-ASCII
blanks, each met as its encoding.
-/

abbrev Bytes := List UInt8

namespace ByteText

-- A statement about the elements of a text is decided along the text, also where the type of its
-- elements is finite.
instance (priority := 2000) decidableAllMem {α : Type*} {p : α → Prop} [DecidablePred p] (l : List α) :
    Decidable (∀ x, x ∈ l → p x) := List.decidableBAll p l

instance (priority := 2000) decidableAllMemOption {α : Type*} {p : α → Prop} [DecidablePred p]
    (o : Option α) : Decidable (∀ x, x ∈ o → p x) := Option.decidableForallMem o

instance lawfulBytes : LawfulBEq Bytes := inferInstance

/-! ## The ASCII bytes a scanner branches on -/

abbrev newline : UInt8 := 10
abbrev carriageReturn : UInt8 := 13
abbrev space : UInt8 := 32
abbrev bang : UInt8 := 33
abbrev doubleQuote : UInt8 := 34
abbrev hash : UInt8 := 35
abbrev dollar : UInt8 := 36
abbrev singleQuote : UInt8 := 39
abbrev openParen : UInt8 := 40
abbrev closeParen : UInt8 := 41
abbrev star : UInt8 := 42
abbrev dash : UInt8 := 45
abbrev dot : UInt8 := 46
abbrev slash : UInt8 := 47
abbrev semicolon : UInt8 := 59
abbrev backslash : UInt8 := 92
abbrev underscore : UInt8 := 95
abbrev backtick : UInt8 := 96

/-- The bytes of an ASCII literal. -/
def ascii (s : String) : Bytes := s.toList.map fun c => UInt8.ofNat c.toNat

def isAsciiWhitespace (c : UInt8) : Bool :=
  c == 32 || c == 9 || c == 10 || c == 12 || c == 13

def isAsciiDigit (c : UInt8) : Bool := 48 ≤ c && c ≤ 57

def isAsciiAlphabetic (c : UInt8) : Bool := (65 ≤ c && c ≤ 90) || (97 ≤ c && c ≤ 122)

def isAsciiAlphanumeric (c : UInt8) : Bool := isAsciiDigit c || isAsciiAlphabetic c

def toAsciiLower (c : UInt8) : UInt8 := if 65 ≤ c && c ≤ 90 then c + 32 else c

/-- `to_ascii_lowercase` of a text. -/
def asciiLower (b : Bytes) : Bytes := b.map toAsciiLower

/-- `eq_ignore_ascii_case`. -/
def eqIgnoreAsciiCase (a b : Bytes) : Bool := asciiLower a == asciiLower b

/-- `&b[from..to]`. -/
def slice (b : Bytes) (i j : Nat) : Bytes := (b.take j).drop i

theorem length_slice {b : Bytes} {i j : Nat} (hj : j ≤ b.length) : (slice b i j).length = j - i := by
  simp [slice, Nat.min_eq_left hj]

theorem slice_split {b : Bytes} {i j k : Nat} (hij : i ≤ j) (hjk : j ≤ k) :
    slice b i k = slice b i j ++ slice b j k := by
  unfold slice
  rw [← List.take_append_drop (j - i) ((b.take k).drop i), List.take_drop, List.take_take,
    List.drop_drop, Nat.add_sub_cancel' hij, Nat.min_eq_left hjk]

/-! ## Unicode white space, by its encodings -/

/-- The one-byte white space: U+0009 to U+000D and U+0020. -/
def ws1 (c : UInt8) : Bool := (9 ≤ c && c ≤ 13) || c == 32

/-- The two-byte encodings: U+0085 and U+00A0. -/
def ws2 (c d : UInt8) : Bool := c == 0xC2 && (d == 0x85 || d == 0xA0)

/-- The three-byte encodings: U+1680, U+2000 to U+200A, U+2028, U+2029, U+202F,
U+205F and U+3000. -/
def ws3 (c d e : UInt8) : Bool :=
  (c == 0xE1 && d == 0x9A && e == 0x80) ||
  (c == 0xE2 && d == 0x80 && ((0x80 ≤ e && e ≤ 0x8A) || e == 0xA8 || e == 0xA9 || e == 0xAF)) ||
  (c == 0xE2 && d == 0x81 && e == 0x9F) ||
  (c == 0xE3 && d == 0x80 && e == 0x80)

/-- The number of bytes of the blank a text begins with, 0 where it begins with
none. -/
@[grind =] def wsLen : Bytes → Nat
  | [] => 0
  | c :: rest =>
    if ws1 c then 1
    else match rest with
      | [] => 0
      | d :: rest' =>
        if ws2 c d then 2
        else match rest' with
          | [] => 0
          | e :: _ => if ws3 c d e then 3 else 0

/-- `wsLen` of a text read backwards. -/
def wsLenRev : Bytes → Nat
  | [] => 0
  | c :: rest =>
    if ws1 c then 1
    else match rest with
      | [] => 0
      | d :: rest' =>
        if ws2 d c then 2
        else match rest' with
          | [] => 0
          | e :: _ => if ws3 e d c then 3 else 0

/-- Drop the blanks a text begins with; `skip` bytes of a blank are still to go. -/
@[grind =] def dropBlanks (len : Bytes → Nat) : Nat → Bytes → Bytes
  | _, [] => []
  | skip + 1, _ :: rest => dropBlanks len skip rest
  | 0, c :: rest =>
    match len (c :: rest) with
    | 0 => c :: rest
    | k + 1 => dropBlanks len k rest

def trimStart (b : Bytes) : Bytes := dropBlanks wsLen 0 b

def trimEnd (b : Bytes) : Bytes := (dropBlanks wsLenRev 0 b.reverse).reverse

def trim (b : Bytes) : Bytes := trimEnd (trimStart b)

/-- `trim_end_matches(c)`: drop every trailing `c`. -/
def trimEndMatches (c : UInt8) (b : Bytes) : Bytes := (b.reverse.dropWhile (· == c)).reverse

/-- `strip_suffix(c)` with the text itself as the fallback: drop one trailing `c`. -/
def stripSuffix (c : UInt8) (b : Bytes) : Bytes := if b.getLast? = some c then b.dropLast else b

/-- `split_whitespace`: `acc` is the word read so far, reversed, and `skip` bytes
of a blank are still to go. -/
@[grind =] def splitWhitespaceFrom : Nat → Bytes → Bytes → List Bytes
  | _, acc, [] => if acc.isEmpty then [] else [acc.reverse]
  | skip + 1, acc, _ :: rest => splitWhitespaceFrom skip acc rest
  | 0, acc, c :: rest =>
    match wsLen (c :: rest) with
    | 0 => splitWhitespaceFrom 0 (c :: acc) rest
    | k + 1 =>
      if acc.isEmpty then splitWhitespaceFrom k [] rest
      else acc.reverse :: splitWhitespaceFrom k [] rest

def splitWhitespace (b : Bytes) : List Bytes := splitWhitespaceFrom 0 [] b

example : trim ([0xC2, 0xA0] ++ ascii " a b" ++ [0xE3, 0x80, 0x80]) = ascii "a b" := by decide

end ByteText
