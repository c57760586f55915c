import Mathlib.Data.Nat.Digits.Defs
import Mathlib.Data.List.Basic

/-!
# Bytes and numbers as text

Hexadecimal and base64 for bytes, decimal numerals for integers, zero-padded numerals of a
fixed width, each with its reader.

* `hexBytes_hexText`, `base64Decode_encode`  — bytes are read back;
* `intOfText_intText`, `numeral_pad`         — so are integers.
-/

namespace TextCodec

abbrev Text := List Char

/-! ## Hexadecimal -/

def hexDigit (n : Nat) : Char := Char.ofNat (if n < 10 then 48 + n else 87 + n)

def hexValue (c : Char) : Option Nat :=
  if 48 ≤ c.toNat ∧ c.toNat ≤ 57 then some (c.toNat - 48)
  else if 97 ≤ c.toNat ∧ c.toNat ≤ 102 then some (c.toNat - 87)
  else if 65 ≤ c.toNat ∧ c.toNat ≤ 70 then some (c.toNat - 55)
  else none

/-- Two lower-case digits a byte. -/
def hexText (bytes : List UInt8) : Text :=
  bytes.flatMap fun b => [hexDigit (b.toNat / 16), hexDigit (b.toNat % 16)]

def hexBytes : Text → Option (List UInt8)
  | [] => some []
  | [_] => none
  | high :: low :: rest =>
    (hexValue high).bind fun high => (hexValue low).bind fun low =>
      (hexBytes rest).map (UInt8.ofNat (16 * high + low) :: ·)

theorem hexValue_hexDigit {n : Nat} (h : n < 16) : hexValue (hexDigit n) = some n := by
  have hall : ∀ n < 16, hexValue (hexDigit n) = some n := by decide
  exact hall n h

theorem hexBytes_hexText (bytes : List UInt8) : hexBytes (hexText bytes) = some bytes := by
  induction bytes with
  | nil => rfl
  | cons b bytes ih =>
    have hb := b.toNat_lt
    have hbyte : 16 * (b.toNat / 16) + b.toNat % 16 = b.toNat := by omega
    show hexBytes (hexDigit (b.toNat / 16) :: hexDigit (b.toNat % 16) :: hexText bytes) = _
    rw [hexBytes, hexValue_hexDigit (by omega), Option.bind_some,
      hexValue_hexDigit (by omega), Option.bind_some, ih, Option.map_some, hbyte, UInt8.ofNat_toNat]

/-! ## Base64 -/

def base64Char (n : Nat) : Char :=
  Char.ofNat (if n < 26 then 65 + n else if n < 52 then 71 + n else if n < 62 then n - 4
    else if n = 62 then 43 else 47)

def base64Value (c : Char) : Option Nat :=
  if 65 ≤ c.toNat ∧ c.toNat ≤ 90 then some (c.toNat - 65)
  else if 97 ≤ c.toNat ∧ c.toNat ≤ 122 then some (c.toNat - 71)
  else if 48 ≤ c.toNat ∧ c.toNat ≤ 57 then some (c.toNat + 4)
  else if c.toNat = 43 then some 62
  else if c.toNat = 47 then some 63
  else none

/-- Three bytes as four characters; the last group is padded. -/
@[grind =] def base64Encode : List UInt8 → Text
  | [] => []
  | [a] =>
    let n := a.toNat * 65536
    [base64Char (n / 262144 % 64), base64Char (n / 4096 % 64), '=', '=']
  | [a, b] =>
    let n := a.toNat * 65536 + b.toNat * 256
    [base64Char (n / 262144 % 64), base64Char (n / 4096 % 64), base64Char (n / 64 % 64), '=']
  | a :: b :: c :: rest =>
    let n := a.toNat * 65536 + b.toNat * 256 + c.toNat
    base64Char (n / 262144 % 64) :: base64Char (n / 4096 % 64) :: base64Char (n / 64 % 64) ::
      base64Char (n % 64) :: base64Encode rest

@[grind =] def base64Decode : Text → Option (List UInt8)
  | [] => some []
  | p :: q :: r :: s :: rest =>
    (base64Value p).bind fun p => (base64Value q).bind fun q =>
      if r = '=' then
        if s = '=' ∧ rest = [] then some [UInt8.ofNat (p * 4 + q / 16)] else none
      else (base64Value r).bind fun r =>
        if s = '=' then
          if rest = [] then some [UInt8.ofNat (p * 4 + q / 16), UInt8.ofNat (q % 16 * 16 + r / 4)]
          else none
        else (base64Value s).bind fun s => (base64Decode rest).map fun bytes =>
          UInt8.ofNat (p * 4 + q / 16) :: UInt8.ofNat (q % 16 * 16 + r / 4) ::
            UInt8.ofNat (r % 4 * 64 + s) :: bytes
  | _ => none

theorem base64Value_char {n : Nat} (h : n < 64) :
    base64Value (base64Char n) = some n ∧ base64Char n ≠ '=' := by
  have hall : ∀ n < 64, base64Value (base64Char n) = some n ∧ base64Char n ≠ '=' := by decide
  exact hall n h

theorem ofNat_byte {b : UInt8} {n : Nat} (h : n = b.toNat) : UInt8.ofNat n = b := by
  rw [h, UInt8.ofNat_toNat]

theorem base64Decode_encode (bytes : List UInt8) :
    base64Decode (base64Encode bytes) = some bytes := by
  induction bytes using base64Encode.induct with
  | case1 => rfl
  | case2 a =>
    have ha := a.toNat_lt
    obtain ⟨hp, -⟩ := base64Value_char (n := a.toNat * 65536 / 262144 % 64) (by omega)
    obtain ⟨hq, -⟩ := base64Value_char (n := a.toNat * 65536 / 4096 % 64) (by omega)
    rw [base64Encode, base64Decode, hp, Option.bind_some, hq, Option.bind_some, if_pos rfl,
      if_pos ⟨rfl, rfl⟩, ofNat_byte (b := a) (by omega)]
  | case3 a b =>
    have ha := a.toNat_lt
    have hb := b.toNat_lt
    obtain ⟨hp, -⟩ := base64Value_char
      (n := (a.toNat * 65536 + b.toNat * 256) / 262144 % 64) (by omega)
    obtain ⟨hq, -⟩ := base64Value_char
      (n := (a.toNat * 65536 + b.toNat * 256) / 4096 % 64) (by omega)
    obtain ⟨hr, hne⟩ := base64Value_char
      (n := (a.toNat * 65536 + b.toNat * 256) / 64 % 64) (by omega)
    rw [base64Encode, base64Decode, hp, Option.bind_some, hq, Option.bind_some, if_neg hne, hr,
      Option.bind_some, if_pos rfl, if_pos rfl, ofNat_byte (b := a) (by omega),
      ofNat_byte (b := b) (by omega)]
  | case4 a b c rest ih =>
    have ha := a.toNat_lt
    have hb := b.toNat_lt
    have hc := c.toNat_lt
    obtain ⟨hp, -⟩ := base64Value_char
      (n := (a.toNat * 65536 + b.toNat * 256 + c.toNat) / 262144 % 64) (by omega)
    obtain ⟨hq, -⟩ := base64Value_char
      (n := (a.toNat * 65536 + b.toNat * 256 + c.toNat) / 4096 % 64) (by omega)
    obtain ⟨hr, hrne⟩ := base64Value_char
      (n := (a.toNat * 65536 + b.toNat * 256 + c.toNat) / 64 % 64) (by omega)
    obtain ⟨hs, hsne⟩ := base64Value_char
      (n := (a.toNat * 65536 + b.toNat * 256 + c.toNat) % 64) (by omega)
    rw [base64Encode, base64Decode, hp, Option.bind_some, hq, Option.bind_some, if_neg hrne, hr,
      Option.bind_some, if_neg hsne, hs, Option.bind_some, ih, Option.map_some,
      ofNat_byte (b := a) (by omega), ofNat_byte (b := b) (by omega),
      ofNat_byte (b := c) (by omega)]

/-! ## Numerals -/

def intText (n : Int) : Text :=
  if n < 0 then '-' :: Nat.toDigits 10 n.natAbs else Nat.toDigits 10 n.natAbs

/-- The number that decimal digits spell. -/
def numeral (digits : Text) : Nat := Nat.ofDigitChars 10 digits 0

def signedNumeral : Text → Int
  | '-' :: digits => -numeral digits
  | digits => numeral digits

/-- The integer of which this is the text. -/
def intOfText (text : Text) : Option Int :=
  if intText (signedNumeral text) = text then some (signedNumeral text) else none

def digit (n : Nat) : Char := Char.ofNat (48 + n % 10)

/-- A number of at most `width` digits, padded with zeros. -/
@[grind =] def pad : Nat → Nat → Text
  | 0, _ => []
  | width + 1, n => pad width (n / 10) ++ [digit n]

@[simp] theorem length_pad (width n : Nat) : (pad width n).length = width := by
  induction width generalizing n with
  | zero => rfl
  | succ width ih => rw [pad, List.length_append, ih, List.length_singleton]

theorem toDigits_isDigit {n : Nat} {c : Char} (h : c ∈ Nat.toDigits 10 n) : c.isDigit = true :=
  Nat.isDigit_of_mem_toDigits (by decide) (Nat.le_refl 10) h

theorem intText_chars {n : Int} {c : Char} (h : c ∈ intText n) : c = '-' ∨ c.isDigit = true := by
  rw [intText] at h
  split at h
  · obtain rfl | h := List.mem_cons.mp h
    · exact Or.inl rfl
    · exact Or.inr (toDigits_isDigit h)
  · exact Or.inr (toDigits_isDigit h)

theorem intText_ne_nil (n : Int) : intText n ≠ [] := by
  rw [intText]
  split
  · exact List.cons_ne_nil _ _
  · exact Nat.toDigits_ne_nil

theorem numeral_toDigits (n : Nat) : numeral (Nat.toDigits 10 n) = n :=
  Nat.ofDigitChars_ten_toDigits

theorem intOfText_eq_some {text : Text} {n : Int} (h : intOfText text = some n) :
    text = intText n := by
  rw [intOfText] at h
  split at h
  · rename_i heq
    rw [← heq]
    exact congrArg intText (Option.some.inj h)
  · cases h

theorem signedNumeral_intText (n : Int) : signedNumeral (intText n) = n := by
  by_cases hneg : n < 0
  · have htext : intText n = '-' :: Nat.toDigits 10 n.natAbs := if_pos hneg
    rw [htext, signedNumeral, numeral_toDigits]
    omega
  have htext : intText n = Nat.toDigits 10 n.natAbs := if_neg hneg
  have hdash : ∀ digits, Nat.toDigits 10 n.natAbs ≠ '-' :: digits := by
    intro digits heq
    have hdigit : '-'.isDigit = true := toDigits_isDigit (by rw [heq]; exact List.mem_cons_self)
    exact absurd hdigit (by decide)
  rw [htext, signedNumeral.eq_2 _ hdash, numeral_toDigits]
  omega

theorem intOfText_intText (n : Int) : intOfText (intText n) = some n := by
  rw [intOfText, signedNumeral_intText, if_pos rfl]

theorem digit_toNat (n : Nat) : (digit n).toNat = 48 + n % 10 := by
  have hall : ∀ n < 10, (Char.ofNat (48 + n)).toNat = 48 + n := by decide
  exact hall (n % 10) (Nat.mod_lt n (by decide))

theorem numeral_pad (width n : Nat) : numeral (pad width n) = n % 10 ^ width := by
  induction width generalizing n with
  | zero => rw [pow_zero, Nat.mod_one]; rfl
  | succ width ih =>
    have ih := ih (n / 10)
    rw [numeral] at ih
    rw [pad, numeral, Nat.ofDigitChars_append, ih, Nat.ofDigitChars_cons, Nat.ofDigitChars_nil,
      digit_toNat, Nat.pow_succ', Nat.mod_mul]
    show 10 * _ + (48 + n % 10 - 48) = _
    omega

end TextCodec
