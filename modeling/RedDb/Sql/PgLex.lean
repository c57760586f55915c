import RedDb.Lib.SpanScan
import RedDb.Sql.Window

/-!
# RedDb — the lexical grammar of Postgres

The reference the stripper is measured against: how the server itself reads a
statement (Postgres 16, `standard_conforming_strings` on). A token is a live part
and, behind it, the literal, quoted identifier or comment it ends with, if any. Two
rules look behind the byte at hand, which is what the code under `strip_noise` does
not: an identifier may go on with `$`, so that a `$` right behind one never opens a
dollar quote, and an escape string may be continued by a quote behind white space
with a newline in it.

Text that the server refuses (an unterminated literal, an identifier glued to a
number) is read on; what is read of it does not matter.

* `pgToken` — the token at an offset;
* `pgSpans` — the literals, quoted identifiers and comments of a statement.
-/

namespace RedDb.Sql

open ByteText

def pgSpace (c : UInt8) : Bool := c == 32 || (9 ≤ c && c ≤ 13)

def pgIdentStart (c : UInt8) : Bool := isAsciiAlphabetic c || c == underscore || 0x80 ≤ c

def pgIdentCont (c : UInt8) : Bool := pgIdentStart c || isAsciiDigit c || c == dollar

/-- The bytes of a dollar quote's tag: an identifier's, less the `$`. -/
def pgTagCont (c : UInt8) : Bool := pgIdentStart c || isAsciiDigit c

/-- The end of the run of bytes with `p` that starts at `i`. -/
def runEnd (p : UInt8 → Bool) (b : Bytes) (i : Nat) : Nat := i + ((b.drop i).takeWhile p).length

/-- The end of an identifier glued to the number or parameter that ends at `i`. -/
def pgJunkEnd (b : Bytes) (i : Nat) : Nat :=
  if (b[i]?).any pgIdentStart then runEnd pgIdentCont b i else i

/-- The length of a run of digits, single underscores between them. -/
@[grind =] def digitsLen (digit : UInt8 → Bool) : Bytes → Nat
  | [] => 0
  | c :: rest =>
    if digit c then 1 + digitsLen digit rest
    else match rest with
      | [] => 0
      | d :: rest' => if c == underscore && digit d then 2 + digitsLen digit rest' else 0

def isHexDigit (c : UInt8) : Bool := isAsciiDigit c || (65 ≤ c && c ≤ 70) || (97 ≤ c && c ≤ 102)

/-- The digits of the radix that the letter behind a leading zero names. -/
def radixDigits (c : UInt8) : Option (UInt8 → Bool) :=
  if c == 120 || c == 88 then some isHexDigit
  else if c == 111 || c == 79 then some fun c => 48 ≤ c && c ≤ 55
  else if c == 98 || c == 66 then some fun c => 48 ≤ c && c ≤ 49
  else none

/-- The length of a `0x`, `0o` or `0b` integer's digits, 0 where none starts at `i`. -/
def radixLen (b : Bytes) (i : Nat) : Nat :=
  if b[i]? == some 48 then
    match (b[i + 1]?).bind radixDigits with
    | some digit => digitsLen digit (b.drop (i + 2))
    | none => 0
  else 0

/-- The end of the fraction that starts at `i`: a dot, unless it is one of two. -/
def fractionEnd (b : Bytes) (i : Nat) : Nat :=
  if b[i]? == some dot && b[i + 1]? != some dot then
    if (b[i + 1]?).any isAsciiDigit then i + 1 + digitsLen isAsciiDigit (b.drop (i + 1)) else i + 1
  else i

/-- Where the digits of an exponent that starts at `i` would start. -/
def exponentDigits (b : Bytes) (i : Nat) : Nat :=
  if (b[i + 1]?).any fun c => c == 43 || c == dash then i + 2 else i + 1

/-- The end of the exponent that starts at `i`. -/
def exponentEnd (b : Bytes) (i : Nat) : Nat :=
  if (b[i]?).any (fun c => c == 101 || c == 69) &&
      (b[exponentDigits b i]?).any isAsciiDigit then
    exponentDigits b i + digitsLen isAsciiDigit (b.drop (exponentDigits b i))
  else i

/-- The end of the number that starts at `i`. -/
def pgNumberEnd (b : Bytes) (i : Nat) : Nat :=
  if 0 < radixLen b i then i + 2 + radixLen b i
  else exponentEnd b (fractionEnd b (i + digitsLen isAsciiDigit (b.drop i)))

/-- The end of a line comment whose body starts at `start`: before a line feed or a
carriage return. -/
def pgLineEnd (b : Bytes) (start : Nat) : Nat :=
  min start b.length +
    ((b.drop start).takeWhile fun c => c != newline && c != carriageReturn).length

/-- The end of the dollar-quoted literal that opens at `i`. -/
def pgDollarEnd (b : Bytes) (i : Nat) : Option Nat :=
  let j := runEnd pgTagCont b (i + 1)
  if b[j]? == some dollar then
    match findBytes (slice b i (j + 1)) (b.drop (j + 1)) with
    | some off => some (j + 1 + off + (slice b i (j + 1)).length)
    | none => some b.length
  else none

/-- Whether a quote would continue an escape string: nothing but white space and
line comments stands behind one, with or without a newline among it. -/
inductive PgCont where
  | none
  | escape (newline : Bool)
  deriving DecidableEq

def PgCont.space (c : UInt8) : PgCont → PgCont
  | .none => .none
  | .escape seen => .escape (seen || c == newline || c == carriageReturn)

/-- The token at `i`: live up to some offset, a literal, quoted identifier or comment
from there to its end. -/
def pgToken (b : Bytes) (cont : PgCont) (i : Nat) : SpanScan.Token PgCont :=
  match b[i]? with
  | none => ⟨i + 1, i + 1, .none⟩
  | some c =>
    if pgSpace c then ⟨i + 1, i + 1, cont.space c⟩
    else if c == dash && b[i + 1]? == some dash then ⟨i, pgLineEnd b (i + 2), cont⟩
    else if c == slash && b[i + 1]? == some star then ⟨i, skipBlockComment b i .postgres, .none⟩
    else if c == singleQuote then
      if cont == .escape true then ⟨i, skipQuoted b i singleQuote true, .escape false⟩
      else ⟨i, skipQuoted b i singleQuote false, .none⟩
    else if c == doubleQuote then ⟨i, skipQuoted b i doubleQuote false, .none⟩
    else if (c == 101 || c == 69) && b[i + 1]? == some singleQuote then
      ⟨i + 1, skipQuoted b (i + 1) singleQuote true, .escape false⟩
    else if pgIdentStart c then ⟨runEnd pgIdentCont b i, runEnd pgIdentCont b i, .none⟩
    else if isAsciiDigit c then
      ⟨pgJunkEnd b (pgNumberEnd b i), pgJunkEnd b (pgNumberEnd b i), .none⟩
    else if c == dollar && (b[i + 1]?).any isAsciiDigit then
      ⟨pgJunkEnd b (runEnd isAsciiDigit b (i + 1)), pgJunkEnd b (runEnd isAsciiDigit b (i + 1)),
        .none⟩
    else if c == dollar then
      match pgDollarEnd b i with
      | some e => ⟨i, e, .none⟩
      | none => ⟨i + 1, i + 1, .none⟩
    else ⟨i + 1, i + 1, .none⟩

/-- **The literals, quoted identifiers and comments** of a statement, as Postgres
reads it. -/
def pgSpans (b : Bytes) : List (Nat × Nat) := SpanScan.spans (pgToken b) b.length .none

/-- Whether the byte at `k` lies in one. -/
abbrev Inside (b : Bytes) (k : Nat) : Prop := SpanScan.Covers (pgSpans b) k

example : pgSpans (ascii "SELECT a$$, 'it''s', E'\\'', 1e5$$x$$ -- y") =
    [(12, 19), (22, 26), (31, 36), (37, 41)] := by decide +kernel

end RedDb.Sql
