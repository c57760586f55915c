import Mathlib
import RedDb.Lib.Numerals
import RedDb.Sql.Leading

/-!
# RedDb — the type lattice

Each engine's declared type is parsed into the small lattice `NormType`, and spelled back for
the engine a table is created on. What the lattice does not model passes through verbatim.

* `normalize_case` — the class of a spelling does not depend on its case.
-/

namespace RedDb.Schema

open ByteText RedDb.Sql

/-! ## The lattice -/

/-- An engine-neutral column type. -/
inductive NormType where
  | bool
  | int
  | bigInt
  | real
  | decimal (precision scale : Option Nat)
  | text (length : Option Nat)
  | blob
  | uuid
  | json
  | date
  | time
  | timestamp
  | timestampTz
  /-- An engine-specific type: the declared spelling. -/
  | unknown (spelling : Bytes)
  deriving DecidableEq

/-- `parse` of an unsigned integer below `bound`: digits behind an optional `+`. -/
def parseBelow (bound : Nat) (b : Bytes) : Option Nat :=
  let digits := if b.head? = some 43 then b.tail else b
  if digits.isEmpty || !digits.all isAsciiDigit then none
  else if ofDigits digits < bound then some (ofDigits digits) else none

/-- The text before the first byte that `p` holds of. -/
def firstPiece (p : UInt8 → Bool) (b : Bytes) : Bytes := b.takeWhile fun c => !p c

def comma : UInt8 := 44

/-- The text behind the first comma, if there is one. -/
def behindComma (b : Bytes) : Option Bytes :=
  (ByteText.splitOnce [comma] b).map Prod.snd

/-- `10,2`, `10` or nothing. -/
def parseDecimalArgs (args : Bytes) : Option Nat × Option Nat :=
  (parseBelow 256 (trim (firstPiece (· == comma) args)),
    (behindComma args).bind fun rest => parseBelow 256 (trim (firstPiece (· == comma) rest)))

/-- `255` or `255 char`. -/
def parseLength (args : Bytes) : Option Nat :=
  parseBelow (2 ^ 32) (trim (firstPiece (fun c => c == comma || c == space) args))

def oneOf (names : List String) (base : Bytes) : Bool := names.any fun name => base == ascii name

def smallIntNames : List String :=
  ["int", "integer", "int4", "serial", "serial4", "int32", "uint32", "smallint", "int2",
    "smallserial", "serial2", "int16", "uint16", "mediumint", "tinyint", "uint8", "year"]

def bigIntNames : List String :=
  ["bigint", "int8", "bigserial", "serial8", "int64", "uint64", "long"]

def realNames : List String := ["real", "float", "float4", "float8", "double", "float32", "float64"]

def decimalNames : List String := ["decimal", "numeric", "dec", "money", "fixed"]

def textNames : List String :=
  ["varchar", "char", "character", "varchar2", "nvarchar", "nchar", "varying", "text", "string",
    "clob", "tinytext", "mediumtext", "longtext", "ntext", "enum", "set", "name", "citext",
    "fixedstring"]

def blobNames : List String :=
  ["blob", "bytea", "binary", "varbinary", "tinyblob", "mediumblob", "longblob", "bytes", "image"]

def timestampNames : List String :=
  ["timestamp", "datetime", "datetime64", "datetime2", "smalldatetime"]

/-- The class of a base keyword with its arguments; `zoned` says whether the spelling has a time
zone. -/
def classify (base args : Bytes) (zoned : Bool) : Option NormType :=
  if oneOf ["bool", "boolean"] base then some .bool
  -- exactly a width of 1: any other is a display width over the full range
  else if base == ascii "tinyint" && trim (firstPiece (· == closeParen) args) == ascii "1" then
    some .bool
  else if oneOf bigIntNames base then some .bigInt
  else if oneOf smallIntNames base then some .int
  else if oneOf realNames base then some .real
  else if oneOf decimalNames base then
    some (.decimal (parseDecimalArgs args).1 (parseDecimalArgs args).2)
  else if oneOf ["uuid", "uniqueidentifier"] base then some .uuid
  else if oneOf ["json", "jsonb"] base then some .json
  else if oneOf textNames base then some (.text (parseLength args))
  else if oneOf blobNames base then some .blob
  else if oneOf ["date"] base then some .date
  else if oneOf ["time"] base then some .time
  else if oneOf ["timestamptz"] base then some .timestampTz
  else if oneOf timestampNames base then some (if zoned then .timestampTz else .timestamp)
  else none

/-- `with time zone`, or a last `tz`. -/
def hasTz (lower : Bytes) : Bool :=
  (ByteText.splitOnce (ascii "with time zone") lower).isSome || (ascii "tz").isSuffixOf lower

/-- The text before the first parenthesis, and the arguments behind it. -/
def headArgs (lower : Bytes) : Bytes × Bytes :=
  match ByteText.splitOnce [openParen] lower with
  | some (head, rest) => (trim head, trim (trimEndMatches closeParen rest))
  | none => (lower, [])

/-- The class of a lower-case spelling. -/
def classOf (lower : Bytes) : Option NormType :=
  let (head, args) := headArgs lower
  -- the first word drops `varying`, `precision` and `unsigned`
  classify ((splitWhitespace head).head?.getD head) args (hasTz lower)

/-- `T` of `Nullable(T)` and `LowCardinality(T)`. -/
def unwrapped (lower : Bytes) : Option Bytes :=
  ["nullable(", "lowcardinality("].findSome? fun wrap =>
    if (ascii wrap).isPrefixOf lower then
      let rest := lower.drop (ascii wrap).length
      if rest.getLast? = some closeParen then some rest.dropLast else none
    else none

/-- `normalize`, of a spelling with at most `fuel` wrappers. -/
def normalizeIn : Nat → Bytes → NormType
  | fuel, decl =>
    let raw := trim decl
    if raw.isEmpty then .text none
    else match fuel, unwrapped (asciiLower raw) with
      | fuel + 1, some inner => normalizeIn fuel inner
      | _, _ => (classOf (asciiLower raw)).getD (.unknown raw)

/-- Parse a declared type. A wrapper is longer than what it wraps. -/
def normalize (decl : Bytes) : NormType := normalizeIn decl.length decl

/-! ## Spelling -/

def decimalSpelling (name : String) : Option Nat → Option Nat → Bytes
  | some p, some s => ascii name ++ openParen :: ByteText.decimal p ++ comma :: ByteText.decimal s ++ [closeParen]
  | some p, none => ascii name ++ openParen :: ByteText.decimal p ++ [closeParen]
  | none, _ => ascii name

def varchar (length : Nat) : Bytes := ascii "varchar(" ++ ByteText.decimal length ++ [closeParen]

def spellSqlite : NormType → Bytes
  | .bool | .int | .bigInt => ascii "INTEGER"
  | .real => ascii "REAL"
  | .decimal _ _ => ascii "NUMERIC"
  | .text _ | .uuid | .json | .date | .time | .timestamp | .timestampTz => ascii "TEXT"
  | .blob => ascii "BLOB"
  | .unknown s => s

def spellPostgres : NormType → Bytes
  | .bool => ascii "boolean"
  | .int => ascii "integer"
  | .bigInt => ascii "bigint"
  | .real => ascii "double precision"
  | .decimal precision scale => decimalSpelling "numeric" precision scale
  | .text (some l) => varchar l
  | .text none => ascii "text"
  | .blob => ascii "bytea"
  | .uuid => ascii "uuid"
  | .json => ascii "jsonb"
  | .date => ascii "date"
  | .time => ascii "time"
  | .timestamp => ascii "timestamp"
  | .timestampTz => ascii "timestamptz"
  | .unknown s => s

def spellMysql : NormType → Bytes
  | .bool => ascii "tinyint(1)"
  | .int => ascii "int"
  | .bigInt => ascii "bigint"
  | .real => ascii "double"
  | .decimal precision scale => decimalSpelling "decimal" precision scale
  | .text (some l) => if l ≤ 16383 then varchar l else ascii "longtext"
  | .text none => ascii "longtext"
  | .blob => ascii "longblob"
  | .uuid => ascii "char(36)"
  | .json => ascii "json"
  | .date => ascii "date"
  | .time => ascii "time"
  | .timestamp | .timestampTz => ascii "datetime"
  | .unknown s => s

def spellClickhouse : NormType → Bytes
  | .bool => ascii "Bool"
  | .int => ascii "Int32"
  | .bigInt => ascii "Int64"
  | .real => ascii "Float64"
  | .decimal precision scale => decimalSpelling "Decimal" precision scale
  | .text _ | .json => ascii "String"
  | .blob => ascii "String"
  | .uuid => ascii "UUID"
  | .date => ascii "Date"
  | .time => ascii "String"
  | .timestamp | .timestampTz => ascii "DateTime"
  | .unknown s => s

/-- Spell a type for an engine; the two without columns have an empty spelling. -/
def spell : DbKind → NormType → Bytes
  | .sqlite => spellSqlite
  | .postgres => spellPostgres
  | .mysql => spellMysql
  | .clickhouse => spellClickhouse
  | .redis | .mongo => fun _ => []

/-- Whether spelling the type for the engine loses what is worth a warning. -/
def isLossy (target : DbKind) (t : NormType) : Bool :=
  match t, target with
  | .unknown _, _ => true
  | .int, .sqlite | .bigInt, .sqlite | .real, .sqlite | .text _, .sqlite | .blob, .sqlite => false
  | _, .sqlite => true
  | .uuid, .mysql => true
  | _, .mysql => false
  | _, .postgres => false
  | _, .clickhouse | _, .redis | _, .mongo => true

example : normalize (ascii "LowCardinality(Nullable( DECIMAL(10, 2) ))") =
    .decimal (some 10) (some 2) := by decide +kernel

/-! ## Case -/

/-- An upper-case letter and its lower-case one lie between the blanks. -/
theorem lower_cases (c : UInt8) : toAsciiLower c = c ∨
    (65 ≤ c.toNat ∧ c.toNat ≤ 90 ∧ (toAsciiLower c).toNat = c.toNat + 32) := by
  unfold toAsciiLower
  split
  · rename_i h
    simp only [Bool.and_eq_true, decide_eq_true_eq, UInt8.le_iff_toNat_le, UInt8.reduceToNat] at h
    refine Or.inr ⟨h.1, h.2, ?_⟩
    simp only [UInt8.toNat_add, UInt8.reduceToNat]
    omega
  · exact Or.inl rfl

theorem lower_beq {k : UInt8} (hk : k.toNat < 65 ∨ 122 < k.toNat) (c : UInt8) :
    (toAsciiLower c == k) = (c == k) := by
  rcases lower_cases c with h | ⟨hlo, hhi, h⟩
  · rw [h]
  have hne : ∀ {d : UInt8}, 65 ≤ d.toNat → d.toNat ≤ 122 → (d == k) = false := by
    intro d hlo hhi
    refine beq_false_of_ne fun heq => ?_
    rw [heq] at hlo hhi
    omega
  rw [hne (by omega) (by omega), hne (by omega) (by omega)]

theorem ws1_lower (c : UInt8) : ws1 (toAsciiLower c) = ws1 c := by
  rcases lower_cases c with h | ⟨hlo, hhi, h⟩
  · rw [h]
  have hnot : ∀ {d : UInt8}, 65 ≤ d.toNat → ws1 d = false := by
    intro d hd
    simp only [ws1, Bool.or_eq_false_iff, Bool.and_eq_false_iff, decide_eq_false_iff_not,
      UInt8.le_iff_toNat_le, UInt8.reduceToNat, beq_eq_false_iff_ne, ne_eq]
    refine ⟨Or.inr (by omega), fun heq => ?_⟩
    rw [heq] at hd
    exact absurd hd (by decide)
  rw [hnot (by omega), hnot hlo]

theorem ws2_lower (c d : UInt8) : ws2 (toAsciiLower c) (toAsciiLower d) = ws2 c d := by
  unfold ws2
  rw [lower_beq (by decide), lower_beq (by decide), lower_beq (by decide)]

theorem range_lower (e : UInt8) :
    (decide (0x80 ≤ toAsciiLower e) && decide (toAsciiLower e ≤ 0x8A)) =
      (decide (0x80 ≤ e) && decide (e ≤ 0x8A)) := by
  rcases lower_cases e with h | ⟨hlo, hhi, h⟩
  · rw [h]
  have hnot : ∀ {d : UInt8}, d.toNat ≤ 122 → decide (0x80 ≤ d) = false := by
    intro d hd
    simp only [decide_eq_false_iff_not, UInt8.le_iff_toNat_le, UInt8.reduceToNat]
    omega
  rw [hnot (by omega), hnot (by omega), Bool.false_and, Bool.false_and]

theorem ws3_lower (c d e : UInt8) :
    ws3 (toAsciiLower c) (toAsciiLower d) (toAsciiLower e) = ws3 c d e := by
  unfold ws3
  rw [range_lower]
  simp (disch := decide) only [lower_beq]

theorem wsLen_lower (b : Bytes) : wsLen (asciiLower b) = wsLen b := by
  match b with
  | [] => rfl
  | [c] =>
    show wsLen [toAsciiLower c] = wsLen [c]
    rw [wsLen, wsLen, ws1_lower]
  | [c, d] =>
    show wsLen [toAsciiLower c, toAsciiLower d] = wsLen [c, d]
    rw [wsLen, wsLen, ws1_lower, ws2_lower]
  | c :: d :: e :: rest =>
    show wsLen (toAsciiLower c :: toAsciiLower d :: toAsciiLower e :: asciiLower rest) = _
    rw [wsLen, wsLen, ws1_lower, ws2_lower, ws3_lower]

theorem wsLenRev_lower (b : Bytes) : wsLenRev (asciiLower b) = wsLenRev b := by
  match b with
  | [] => rfl
  | [c] =>
    show wsLenRev [toAsciiLower c] = wsLenRev [c]
    rw [wsLenRev, wsLenRev, ws1_lower]
  | [c, d] =>
    show wsLenRev [toAsciiLower c, toAsciiLower d] = wsLenRev [c, d]
    rw [wsLenRev, wsLenRev, ws1_lower, ws2_lower]
  | c :: d :: e :: rest =>
    show wsLenRev (toAsciiLower c :: toAsciiLower d :: toAsciiLower e :: asciiLower rest) = _
    rw [wsLenRev, wsLenRev, ws1_lower, ws2_lower, ws3_lower]

theorem dropBlanks_lower {len : Bytes → Nat} (hlen : ∀ b, len (asciiLower b) = len b) (skip : Nat)
    (b : Bytes) : dropBlanks len skip (asciiLower b) = asciiLower (dropBlanks len skip b) := by
  induction b generalizing skip with
  | nil => cases skip <;> rfl
  | cons c rest ih =>
    have hhere := hlen (c :: rest)
    show dropBlanks len skip (toAsciiLower c :: asciiLower rest) = _
    cases skip with
    | succ skip => exact ih skip
    | zero =>
      rw [dropBlanks, dropBlanks]
      change len (toAsciiLower c :: asciiLower rest) = len (c :: rest) at hhere
      rw [hhere]
      cases len (c :: rest) with
      | zero => rfl
      | succ k => exact ih k

theorem asciiLower_trim (b : Bytes) : asciiLower (trim b) = trim (asciiLower b) := by
  have hreverse : ∀ b : Bytes, asciiLower b.reverse = (asciiLower b).reverse := fun _ => List.map_reverse
  have hend : ∀ b, trimEnd (asciiLower b) = asciiLower (trimEnd b) := by
    intro b
    rw [trimEnd, trimEnd, ← hreverse, dropBlanks_lower wsLenRev_lower, hreverse]
  rw [trim, trim, ← hend, trimStart, trimStart, dropBlanks_lower wsLen_lower]

/-- Spellings that differ in case only are of one class, or of none. -/
theorem normalize_case {a b : Bytes} (h : eqIgnoreAsciiCase a b = true) :
    normalize a = normalize b ∨
      ((∃ s, normalize a = .unknown s) ∧ ∃ s, normalize b = .unknown s) := by
  have hlower : asciiLower a = asciiLower b := beq_iff_eq.mp h
  have hlength : a.length = b.length := by
    have hlength := congrArg List.length hlower
    rwa [asciiLower, asciiLower, List.length_map, List.length_map] at hlength
  have htrim : asciiLower (trim a) = asciiLower (trim b) := by
    rw [asciiLower_trim, asciiLower_trim, hlower]
  have hempty : (trim a).isEmpty = (trim b).isEmpty := by
    have hempty := congrArg List.isEmpty htrim
    rwa [asciiLower, asciiLower, List.isEmpty_map, List.isEmpty_map] at hempty
  rw [normalize, normalize, ← hlength, normalizeIn.eq_def, normalizeIn.eq_def]
  dsimp only
  rw [← hempty, ← htrim]
  split
  · exact Or.inl rfl
  split
  · exact Or.inl rfl
  · cases classOf (asciiLower (trim a)) with
    | none => exact Or.inr ⟨⟨_, rfl⟩, _, rfl⟩
    | some t => exact Or.inl rfl

end RedDb.Schema
