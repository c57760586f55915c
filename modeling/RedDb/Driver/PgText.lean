import Mathlib.Tactic.Ring
import RedDb.Driver.Edits

/-!
# RedDb — Postgres cells from their wire bytes

`pgValue` turns the binary wire form of a cell into a `Value`. Booleans, integers,
floats, text and blobs come decoded; the types the client library does not decode
come as text rendered here from the raw bytes: `numeric` by its base-10000 digits,
dates and times by the civil calendar, a `uuid` as hyphenated hex.
-/

namespace RedDb.Driver

open ByteText

/-! ## Numbers on the wire and in text -/

/-- The big-endian value of the bytes. -/
def beNat (b : Bytes) : Nat := b.foldl (fun n c => n * 256 + c.toNat) 0

/-- The same in two's complement. -/
def beInt (b : Bytes) : Int :=
  let n := beNat b
  if 2 * n < 256 ^ b.length then n else n - 256 ^ b.length

def beI64 (b : Bytes) : Option Int := if b.length = 8 then some (beInt b) else none

def beI32 (b : Bytes) : Option Int := if b.length = 4 then some (beInt b) else none

/-- The decimal digits of a number, cut after `fuel` of them. -/
@[grind =] def decimalFrom : Nat → Nat → Bytes
  | 0, _ => []
  | fuel + 1, n =>
    if n < 10 then [48 + UInt8.ofNat n]
    else decimalFrom fuel (n / 10) ++ [48 + UInt8.ofNat (n % 10)]

def decimal (n : Nat) : Bytes := decimalFrom (n + 1) n

/-- `{n:0w}`: zeros up to the width, a sign counting as a column of it. -/
def padNat (w n : Nat) : Bytes :=
  List.replicate (w - (decimal n).length) 48 ++ decimal n

def padInt (w : Nat) (n : Int) : Bytes :=
  if n < 0 then dash :: padNat (w - 1) n.natAbs else padNat w n.natAbs

/-! ## `numeric` -/

/-- The `i`th 16-bit word of the bytes, signed. -/
def be16 (raw : Bytes) (i : Nat) : Int := beInt (slice raw (2 * i) (2 * i + 2))

/-- The base-10000 group `i`, zero where none is stored. -/
def numericGroup (raw : Bytes) (ndigits : Nat) (i : Int) : Int :=
  if 0 ≤ i ∧ i.toNat < ndigits then be16 raw (4 + i.toNat) else 0

/-- Decimal places from group `i` on, until there are enough; cut after `fuel` groups. -/
def numericFraction (raw : Bytes) (ndigits dscale : Nat) : Nat → Int → Bytes → Bytes
  | 0, _, frac => frac
  | fuel + 1, i, frac =>
    if frac.length < dscale then
      numericFraction raw ndigits dscale fuel (i + 1)
        (frac ++ padInt 4 (numericGroup raw ndigits i))
    else frac

def numericToString (raw : Bytes) : Option Bytes :=
  if raw.length < 8 then none
  else
    let ndigits := (be16 raw 0).toNat
    let weight := be16 raw 1
    let sign := beNat (slice raw 4 6)
    let dscale := (be16 raw 3).toNat
    if sign = 0xC000 then some (ascii "NaN")
    else if sign = 0xD000 then some (ascii "Infinity")
    else if sign = 0xF000 then some (ascii "-Infinity")
    else if raw.length < 8 + ndigits * 2 then none
    else
      let minus := if sign = 0x4000 then [dash] else []
      -- the most significant group is bare, the others have four digits
      let whole :=
        if weight < 0 then [48]
        else (List.range (weight.toNat + 1)).flatMap fun i =>
          padInt (if i = 0 then 1 else 4) (numericGroup raw ndigits i)
      let fraction :=
        if 0 < dscale then
          dot :: (numericFraction raw ndigits dscale dscale (weight + 1) []).take dscale
        else []
      some (minus ++ whole ++ fraction)

/-! ## Dates and times -/

def usecsPerDay : Int := 86400000000

def pgEpochUnixDays : Int := 10957

/-- Year, month and day of a day count relative to the Unix epoch. -/
def civilFromDays (days : Int) : Int × Nat × Nat :=
  let z := days + 719468
  let era := (if 0 ≤ z then z else z - 146096).tdiv 146097
  let doe := z - era * 146097
  let yoe := (doe - doe.tdiv 1460 + doe.tdiv 36524 - doe.tdiv 146096).tdiv 365
  let y := yoe + era * 400
  let doy := doe - (365 * yoe + yoe.tdiv 4 - yoe.tdiv 100)
  let mp := (5 * doy + 2).tdiv 153
  let d := doy - (153 * mp + 2).tdiv 5 + 1
  let m := if mp < 10 then mp + 3 else mp - 9
  (if m ≤ 2 then y + 1 else y, m.toNat, d.toNat)

def ymd (year : Int) (month day : Nat) : Bytes :=
  padInt 4 year ++ [dash] ++ padNat 2 month ++ [dash] ++ padNat 2 day

abbrev colon : UInt8 := 58

/-- `.ffffff` without trailing zeros; nothing for a whole second. -/
def fractionText (frac : Nat) : Bytes :=
  if frac = 0 then [] else dot :: trimEndMatches 48 (padNat 6 frac)

/-- `HH:MM:SS` with its fraction. -/
def hms (microsInDay : Int) : Bytes :=
  let secs := (microsInDay.fdiv 1000000).toNat
  let frac := (microsInDay.fmod 1000000).toNat
  padNat 2 (secs / 3600) ++ [colon] ++ padNat 2 (secs % 3600 / 60) ++ [colon] ++
    padNat 2 (secs % 60) ++ fractionText frac

def timestampToString (micros : Int) : Bytes :=
  if micros = 2 ^ 63 - 1 then ascii "infinity"
  else if micros = -2 ^ 63 then ascii "-infinity"
  else
    let (y, m, d) := civilFromDays (micros.fdiv usecsPerDay + pgEpochUnixDays)
    ymd y m d ++ [space] ++ hms (micros.fmod usecsPerDay)

def timestamptzToString (micros : Int) : Bytes :=
  if micros = 2 ^ 63 - 1 ∨ micros = -2 ^ 63 then timestampToString micros
  else timestampToString micros ++ ascii "+00"

def dateToString (days : Int) : Bytes :=
  if days = 2 ^ 31 - 1 then ascii "infinity"
  else if days = -2 ^ 31 then ascii "-infinity"
  else
    let (y, m, d) := civilFromDays (days + pgEpochUnixDays)
    ymd y m d

def timeToString (micros : Int) : Bytes := hms micros

/-- A zone offset, from the wire's seconds west of UTC. -/
def zone (secondsWest : Int) : Bytes :=
  let a := secondsWest.natAbs
  (if 0 < secondsWest then dash else 43) :: padNat 2 (a / 3600) ++ [colon] ++
    padNat 2 (a % 3600 / 60)

def timetzToString (raw : Bytes) : Option Bytes :=
  if raw.length ≠ 12 then none
  else some (hms (beInt (raw.take 8)) ++ zone (beInt (raw.drop 8)))

/-! ## `uuid` -/

def hexDigit (n : Nat) : UInt8 := if n < 10 then 48 + UInt8.ofNat n else 87 + UInt8.ofNat n

def hexByte (c : UInt8) : Bytes := [hexDigit (c.toNat / 16), hexDigit (c.toNat % 16)]

def hex (b : Bytes) : Bytes := b.flatMap hexByte

def uuidToString (raw : Bytes) : Option Bytes :=
  if raw.length ≠ 16 then none
  else some (hex (slice raw 0 4) ++ [dash] ++ hex (slice raw 4 6) ++ [dash] ++
    hex (slice raw 6 8) ++ [dash] ++ hex (slice raw 8 10) ++ [dash] ++ hex (slice raw 10 16))

/-! ## UTF-8 -/

/-- The range of the byte after a leading one, and how many plain continuation bytes
follow that; `none` for a byte that leads no character. -/
def utf8Lead (c : UInt8) : Option (Nat × Nat × Nat) :=
  let n := c.toNat
  if 0xC2 ≤ n ∧ n ≤ 0xDF then some (0x80, 0xBF, 0)
  else if n = 0xE0 then some (0xA0, 0xBF, 1)
  else if n = 0xED then some (0x80, 0x9F, 1)
  else if 0xE1 ≤ n ∧ n ≤ 0xEF then some (0x80, 0xBF, 1)
  else if n = 0xF0 then some (0x90, 0xBF, 2)
  else if 0xF1 ≤ n ∧ n ≤ 0xF3 then some (0x80, 0xBF, 2)
  else if n = 0xF4 then some (0x80, 0x8F, 2)
  else none

/-- How many of the next `want` bytes are continuation bytes. -/
def utf8Tail : Nat → Bytes → Nat
  | want + 1, c :: rest =>
    if 0x80 ≤ c.toNat ∧ c.toNat ≤ 0xBF then utf8Tail want rest + 1 else 0
  | _, _ => 0

/-- The character or the broken piece of one a text starts with: its length, and
whether it is whole. -/
def utf8Char : Bytes → Nat × Bool
  | [] => (0, true)
  | c :: rest =>
    if c.toNat < 0x80 then (1, true)
    else match utf8Lead c, rest with
      | some (lo, hi, want), d :: rest =>
        if lo ≤ d.toNat ∧ d.toNat ≤ hi then
          (2 + utf8Tail want rest, utf8Tail want rest == want)
        else (1, false)
      | _, _ => (1, false)

/-- `from_utf8_lossy`: every broken piece becomes U+FFFD. Cut after `fuel` pieces. -/
@[grind =] def lossyFrom : Nat → Bytes → Bytes
  | 0, _ => []
  | _, [] => []
  | fuel + 1, c :: rest =>
    let (n, whole) := utf8Char (c :: rest)
    (if whole then (c :: rest).take n else [0xEF, 0xBF, 0xBD]) ++
      lossyFrom fuel ((c :: rest).drop n)

def fromUtf8Lossy (b : Bytes) : Bytes := lossyFrom b.length b

/-- `from_utf8` succeeds: every piece is whole. Cut after `fuel` pieces. -/
@[grind =] def validFrom : Nat → Bytes → Bool
  | 0, _ => true
  | _, [] => true
  | fuel + 1, c :: rest =>
    (utf8Char (c :: rest)).2 && validFrom fuel ((c :: rest).drop (utf8Char (c :: rest)).1)

def validUtf8 (b : Bytes) : Bool := validFrom b.length b

/-! ## Cells -/

/-- The column types whose string form the client library hands out. -/
inductive TextType where
  | text
  | varchar
  | bpchar
  | name
  | citext

inductive PgType where
  | bool
  | int2
  | int4
  | int8
  | float4
  | float8
  | numeric
  | timestamp
  | timestamptz
  | date
  | time
  | timetz
  | uuid
  | json
  | jsonb
  | bytea
  | text (ty : TextType)

/-- The catalog's name of the type. -/
def PgType.udtName : PgType → Bytes
  | bool => ascii "bool"
  | int2 => ascii "int2"
  | int4 => ascii "int4"
  | int8 => ascii "int8"
  | float4 => ascii "float4"
  | float8 => ascii "float8"
  | numeric => ascii "numeric"
  | timestamp => ascii "timestamp"
  | timestamptz => ascii "timestamptz"
  | date => ascii "date"
  | time => ascii "time"
  | timetz => ascii "timetz"
  | uuid => ascii "uuid"
  | json => ascii "json"
  | jsonb => ascii "jsonb"
  | bytea => ascii "bytea"
  | text .text => ascii "text"
  | text .varchar => ascii "varchar"
  | text .bpchar => ascii "bpchar"
  | text .name => ascii "name"
  | text .citext => ascii "citext"

/-- `x as f64` for a single-precision float, bit by bit. Every one is a double: a
subnormal becomes normal, and a number that is not one becomes quiet. -/
def widen (bits : Nat) : UInt64 :=
  let sign := if 2 ^ 31 ≤ bits then 2 ^ 63 else 0
  let m := bits % 2 ^ 31
  let e := m / 2 ^ 23
  let f := m % 2 ^ 23
  UInt64.ofNat <| sign +
    if m = 0 then 0
    else if e = 0 then (f.log2 + 874) * 2 ^ 52 + (f - 2 ^ f.log2) * 2 ^ (52 - f.log2)
    else if e < 255 then (e + 896) * 2 ^ 52 + f * 2 ^ 29
    else if f = 0 then 2047 * 2 ^ 52
    else 2047 * 2 ^ 52 + 2 ^ 51 + f % 2 ^ 22 * 2 ^ 29

/-- The raw bytes as text, whatever they are. -/
def rawTextFallback (raw : Bytes) : Value := .text (fromUtf8Lossy raw)

/-- A decoded scalar, or the raw bytes where they have the wrong length. -/
def scalar (raw : Bytes) (size : Nat) (f : Bytes → Value) : Value :=
  if raw.length = size then f raw else rawTextFallback raw

/-- A rendered cell; bytes that do not parse are NULL. -/
def decodeRaw (raw : Bytes) (f : Bytes → Option Bytes) : Value :=
  match f raw with
  | some s => .text s
  | none => .null

/-- A cell at full fidelity, from its wire bytes; none for NULL. -/
def pgValue (ty : PgType) : Option Bytes → Value
  | none => .null
  | some raw =>
    match ty with
    | .bool => scalar raw 1 fun b => .integer (if beNat b = 0 then 0 else 1)
    | .int2 => scalar raw 2 fun b => .integer (beInt b)
    | .int4 => scalar raw 4 fun b => .integer (beInt b)
    | .int8 => scalar raw 8 fun b => .integer (beInt b)
    | .float4 => scalar raw 4 fun b => .real (widen (beNat b))
    | .float8 => scalar raw 8 fun b => .real (UInt64.ofNat (beNat b))
    | .numeric => decodeRaw raw numericToString
    | .timestamp => decodeRaw raw fun b => (beI64 b).map timestampToString
    | .timestamptz => decodeRaw raw fun b => (beI64 b).map timestamptzToString
    | .date => decodeRaw raw fun b => (beI32 b).map dateToString
    | .time => decodeRaw raw fun b => (beI64 b).map timeToString
    | .timetz => decodeRaw raw timetzToString
    | .uuid => decodeRaw raw uuidToString
    | .json => decodeRaw raw fun b => some (fromUtf8Lossy b)
    | .jsonb => decodeRaw raw fun b => some (fromUtf8Lossy b.tail)
    | .bytea => .blob raw
    | .text _ => if validUtf8 raw then .text raw else rawTextFallback raw

example : numericToString [0, 2, 0, 0, 0, 0, 0, 3, 4, 210, 22, 38] = some (ascii "1234.567") := by
  decide

example : timestampToString 49530500000 = ascii "2000-01-01 13:45:30.5" := by
  decide

end RedDb.Driver
