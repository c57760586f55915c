import Mathlib
import RedDb.Lib.JsonSyntax
import RedDb.Lib.Numerals
import RedDb.Sql.Lexemes

/-!
# RedDb — the fast filter

A filter line is compiled term by term into the text of a filter document. What a value is
taken for is read off its spelling, once its quotes are gone.

* `fast_filter_iff` — the document is JSON that says what was typed exactly where no number is
  spelled unlike JSON's, no value in quotes looks like anything but text, and
  no count of days, hours or minutes leaves the 64 bits.
-/

namespace RedDb.Docs

open ByteText
open JsonSyntax (Space Number Chars Str Scalar Padded Commaed Member ObjectOf ArrayOf Level)

/-! ## Terms -/

/-- Words between white space, with what stands in double quotes kept together; `skip` bytes of
a blank are still to go. -/
def splitTerms (inQuotes : Bool) (current : Bytes) : Nat → Bytes → List Bytes
  | _, [] => if current.isEmpty then [] else [current]
  | skip + 1, _ :: rest => splitTerms inQuotes current skip rest
  | 0, c :: rest =>
    if c = doubleQuote then splitTerms (!inQuotes) (current ++ [c]) 0 rest
    else if 0 < wsLen (c :: rest) ∧ inQuotes = false then
      (if current.isEmpty then [] else [current]) ++ splitTerms false [] (wsLen (c :: rest) - 1) rest
    else splitTerms inQuotes (current ++ [c]) 0 rest

inductive MongoOp where
  | gte
  | lte
  | ne
  | gt
  | lt
  deriving DecidableEq

def MongoOp.name : MongoOp → Bytes
  | .gte => ascii "$gte"
  | .lte => ascii "$lte"
  | .ne => ascii "$ne"
  | .gt => ascii "$gt"
  | .lt => ascii "$lt"

structure Op where
  start : Nat
  len : Nat
  mongo : Option MongoOp
  deriving DecidableEq

def OPS : List (Bytes × Option MongoOp) :=
  [(ascii ">=", some .gte), (ascii "<=", some .lte), (ascii "!=", some .ne), (ascii "!:", some .ne),
    (ascii ":", none), (ascii ">", some .gt), (ascii "<", some .lt)]

/-- The separator nearest the start, the longest of those there. -/
def findOp (term : Bytes) : Option Op :=
  let found := OPS.filterMap fun (sep, mongo) =>
    (Sql.findBytes sep term).map fun start => Op.mk start sep.length mongo
  found.foldl (fun best op =>
    match best with
    | none => some op
    | some b => if op.start < b.start ∨ op.start = b.start ∧ b.len < op.len then some op else some b) none

/-! ## Values -/

def hexByte (n : UInt8) : UInt8 := if n < 10 then 48 + n else 87 + n

def writeJsonByte (c : UInt8) : Bytes :=
  if c = 34 then [92, 34]
  else if c = 92 then [92, 92]
  else if c = 10 then [92, 110]
  else if c = 13 then [92, 114]
  else if c = 9 then [92, 116]
  else if c = 8 then [92, 98]
  else if c = 12 then [92, 102]
  else if c < 32 then [92, 117, 48, 48, hexByte (c / 16), hexByte (c % 16)]
  else [c]

def writeJsonString (s : Bytes) : Bytes := 34 :: s.flatMap writeJsonByte ++ [34]

/-- An object of one member, as the source spells it. -/
def single (key value : Bytes) : Bytes := 123 :: (34 :: key ++ [34]) ++ 58 :: value ++ [125]

def unquote (raw : Bytes) : Bytes :=
  if raw.head? = some doubleQuote then
    if raw.tail.getLast? = some doubleQuote then raw.tail.dropLast else raw.tail
  else raw

def regexEscape (text : Bytes) : Bytes :=
  text.flatMap fun c => if (ascii "\\^$.|?*+()[]\x7b\x7d").contains c then [92, c] else [c]

def DAY_MS : Int := 86400000

def InI64 (n : Int) : Prop := -2 ^ 63 ≤ n ∧ n < 2 ^ 63

/-- `i64` arithmetic of a release build. -/
def i64 (n : Int) : Int := n.bmod (2 ^ 64)

inductive Range where
  | today
  | last (n : Nat) (unit : Int)

def rangeUnit (unit : Bytes) : Option Int :=
  if unit = ascii "d" then some DAY_MS
  else if unit = ascii "h" then some 3600000
  else if unit = ascii "m" then some 60000
  else none

/-- A relative date, by its word. -/
def rangeOf (raw : Bytes) : Option Range :=
  if raw = ascii "today" then some .today
  else if (ascii "last").isPrefixOf raw then
    let rest := raw.drop 4
    let digits := rest.takeWhile isAsciiDigit
    if digits = [] ∨ 2 ^ 63 ≤ ofDigits digits then none
    else (rangeUnit (rest.dropWhile isAsciiDigit)).map (.last (ofDigits digits))
  else none

def Range.since (now : Int) : Range → Int
  | .today => i64 (now - now % DAY_MS)
  | .last n unit => i64 (now - i64 (n * unit))

def integerText (n : Int) : Bytes := if n < 0 then 45 :: decimal n.natAbs else decimal n.natAbs

def rangeText (since : Int) : Bytes :=
  single (ascii "$gte") (single (ascii "$date") (single (ascii "$numberLong") (34 :: integerText since ++ [34])))

def existsText : Bytes := single (ascii "$exists") (ascii "true")

def containsText (needle : Bytes) : Bytes :=
  123 :: ((34 :: ascii "$regex" ++ [34]) ++ 58 :: writeJsonString (regexEscape (unquote needle))) ++
    44 :: ((34 :: ascii "$options" ++ [34]) ++ 58 :: [34, 105, 34]) ++ [125]

def literals : List Bytes := [ascii "true", ascii "false", ascii "null"]

def isIdField (field : Bytes) : Bool := field == ascii "_id" || (ascii "._id").isSuffixOf field

def isObjectId (field value : Bytes) : Bool :=
  isIdField field && value.length == 24 && value.all JsonSyntax.isHexDigit

def looksNumeric (value : Bytes) : Bool :=
  !value.isEmpty && value.all (fun c => isAsciiDigit c || (ascii "-+.eE").contains c) &&
    value.any isAsciiDigit

def unsigned (b : Bytes) : Bytes := if b.head? = some 43 ∨ b.head? = some 45 then b.tail else b

/-- What the standard library parses as a float, of the text that looks numeric. -/
def parsesFloat (value : Bytes) : Bool :=
  let b := unsigned value
  let int := b.takeWhile isAsciiDigit
  let b := b.dropWhile isAsciiDigit
  let frac := if b.head? = some 46 then b.tail.takeWhile isAsciiDigit else []
  let b := if b.head? = some 46 then b.tail.dropWhile isAsciiDigit else b
  let exp := unsigned b.tail
  (int != [] || frac != []) &&
    (b == [] || (b.head? == some 101 || b.head? == some 69) && exp != [] && exp.all isAsciiDigit)

/-- What is emitted as it was typed, for a number. -/
def isNumber (field value : Bytes) : Bool :=
  !literals.contains value && !isObjectId field value && looksNumeric value && parsesFloat value

def scalarJson (value field : Bytes) : Bytes :=
  if literals.contains value then value
  else if isObjectId field value then single (ascii "$oid") (writeJsonString value)
  else if looksNumeric value && parsesFloat value then value
  else writeJsonString value

/-- A value under the term's operator. -/
def compared (mongo : Option MongoOp) (value : Bytes) : Bytes :=
  match mongo with
  | none => value
  | some op => single op.name value

/-! ## The document -/

/-- What stands behind the operator, as a constraint; nothing while it is unfinished. -/
def constraintOf (now : Int) (field raw : Bytes) (mongo : Option MongoOp) : Option Bytes :=
  if raw = [] then none
  else if raw = ascii "*" ∧ mongo = none then some existsText
  else if raw.head? = some 126 then if raw.tail = [] then none else some (containsText raw.tail)
  else
    match rangeOf raw with
    | some r => some (rangeText (r.since now))
    | none => some (compared mongo (scalarJson (unquote raw) field))

def compileTerm (now : Int) (term : Bytes) : Except Bytes (Option (Bytes × Bytes)) :=
  match findOp term with
  | none => .ok none
  | some op =>
    if term.take op.start = [] then
      .error (ascii "`" ++ term ++ ascii "` has no field name before the operator")
    else .ok ((constraintOf now (term.take op.start) (term.drop (op.start + op.len)) op.mongo).map
      fun constraint => (term.take op.start, constraint))

inductive FastFilter where
  | empty
  | ready (text : Bytes)
  | incomplete
  | invalid (message : Bytes)
  deriving DecidableEq

def commaJoined : List Bytes → Bytes
  | [] => []
  | [t] => t
  | t :: rest => t ++ 44 :: commaJoined rest

def memberText (clause : Bytes × Bytes) : Bytes := writeJsonString clause.1 ++ 58 :: clause.2

/-- One object of all the clauses; a list of one each under `$and`, where a field is named twice. -/
def document (clauses : List (Bytes × Bytes)) : Bytes :=
  if (clauses.map Prod.fst).Nodup then 123 :: commaJoined (clauses.map memberText) ++ [125]
  else
    single (ascii "$and")
      (91 :: commaJoined (clauses.map fun clause => 123 :: memberText clause ++ [125]) ++ [93])

/-- The clauses of the terms, up to the first that has none. -/
def clausesOf (now : Int) : List Bytes → List (Bytes × Bytes) → FastFilter ⊕ List (Bytes × Bytes)
  | [], clauses => .inr clauses
  | term :: terms, clauses =>
    match compileTerm now term with
    | .ok (some clause) => clausesOf now terms (clauses ++ [clause])
    | .ok none => .inl .incomplete
    | .error e => .inl (.invalid e)

def compileFastFilter (input : Bytes) (now : Int) : FastFilter :=
  let terms := splitTerms false [] 0 input
  if terms = [] then .empty
  else
    match clausesOf now terms [] with
    | .inl result => result
    | .inr clauses => .ready (document clauses)

example : compileFastFilter (ascii "age>18 name:\"Ada L\"") 0 =
    .ready (ascii "\x7b\"age\":\x7b\"$gt\":18\x7d,\"name\":\"Ada L\"\x7d") := by decide

/-! ## What was typed -/

def Range.exact (now : Int) : Range → Int
  | .today => now - now % DAY_MS
  | .last n unit => now - n * unit

/-- The arithmetic stays in 64 bits. -/
def Range.Fits (now : Int) : Range → Prop
  | .today => InI64 (now - now % DAY_MS)
  | .last n unit => InI64 (n * unit) ∧ InI64 (now - n * unit)

/-- The texts that stand for a value: a number is one of JSON's, as it was typed, or a string,
and what is in quotes, the closing one perhaps still to come, is a string. -/
inductive ValueSays (field raw : Bytes) : Bytes → Prop
  | quoted : raw.head? = some doubleQuote → ValueSays field raw (writeJsonString (unquote raw))
  | number : isNumber field raw = true → Number raw → ValueSays field raw raw
  | numberText : isNumber field raw = true → ValueSays field raw (writeJsonString raw)
  | literal : raw ∈ literals → ValueSays field raw raw
  | objectId : isObjectId field raw = true →
      ValueSays field raw (single (ascii "$oid") (writeJsonString raw))
  | text : raw.head? ≠ some doubleQuote → isNumber field raw = false →
      ValueSays field raw (writeJsonString raw)

/-- The constraints that say what stands behind an operator. -/
inductive Says (now : Int) (field raw : Bytes) (mongo : Option MongoOp) : Bytes → Prop
  | there : raw = ascii "*" → mongo = none → Says now field raw mongo existsText
  | contains : raw.head? = some 126 → Says now field raw mongo (containsText raw.tail)
  | since {r : Range} : rangeOf raw = some r → r.Fits now → Says now field raw mongo (rangeText (r.exact now))
  | untaken {r : Range} : rangeOf raw = some r → Says now field raw mongo (compared mongo (writeJsonString raw))
  | value {v : Bytes} : rangeOf raw = none → ValueSays field raw v → Says now field raw mongo (compared mongo v)

/-- The clause is the term's: on its field, and saying its value. -/
def TermSays (now : Int) (term : Bytes) (clause : Bytes × Bytes) : Prop :=
  ∃ op, findOp term = some op ∧ clause.1 = term.take op.start ∧
    Says now clause.1 (term.drop (op.start + op.len)) op.mongo clause.2

/-- The text is JSON, of one clause a term. -/
def Faithful (now : Int) (input text : Bytes) : Prop :=
  (∃ n, Padded (Level n) text) ∧ ∃ clauses, clausesOf now (splitTerms false [] 0 input) [] = .inr clauses ∧
    text = document clauses ∧ List.Forall₂ (TermSays now) (splitTerms false [] 0 input) clauses

/-- A spelling that is taken for a literal, an id or a number. -/
def LooksTyped (field value : Bytes) : Prop :=
  value ∈ literals ∨ isObjectId field value = true ∨ isNumber field value = true

/-- Nothing goes wrong with a value: the range fits, what is in quotes looks like text, and a
number is spelled as JSON spells it. -/
def PlainValue (now : Int) (field raw : Bytes) (mongo : Option MongoOp) : Prop :=
  raw = ascii "*" ∧ mongo = none ∨ raw.head? = some 126 ∨
    match rangeOf raw with
    | some r => r.Fits now
    | none =>
      if raw.head? = some doubleQuote then ¬LooksTyped field (unquote raw)
      else isNumber field raw = true → Number raw

def PlainTerm (now : Int) (term : Bytes) : Prop :=
  ∀ op, findOp term = some op →
    PlainValue now (term.take op.start) (term.drop (op.start + op.len)) op.mongo

theorem i64_of_fits {n : Int} (h : InI64 n) : i64 n = n := by
  obtain ⟨hlow, hhigh⟩ := h
  exact Int.bmod_eq_of_le hlow hhigh

variable {now : Int}

theorem Range.since_exact {r : Range} (h : r.Fits now) : r.since now = r.exact now := by
  cases r with
  | today => exact i64_of_fits h
  | last n unit => rw [Range.since, i64_of_fits h.1, i64_of_fits h.2, Range.exact]

theorem length_writeJsonString (s : Bytes) : s.length < (writeJsonString s).length := by
  have hbyte : ∀ c, 1 ≤ (writeJsonByte c).length := by
    intro c
    unfold writeJsonByte
    repeat' split
    all_goals exact Nat.succ_le_succ (Nat.zero_le _)
  have hflat : s.length ≤ (s.flatMap writeJsonByte).length := by
    induction s with
    | nil => exact Nat.le_refl 0
    | cons c s ih =>
      rw [List.flatMap_cons, List.length_append, List.length_cons]
      have := hbyte c
      omega
  simp only [writeJsonString, List.length_append, List.length_cons, List.length_nil]
  omega

theorem writeJsonString_ne (s : Bytes) : writeJsonString s ≠ s := fun h =>
  absurd (congrArg List.length h) (Nat.ne_of_gt (length_writeJsonString s))

variable {v : Bytes} {mongo : Option MongoOp}

theorem compared_inj {w : Bytes} (h : compared mongo v = compared mongo w) : v = w := by
  cases mongo with
  | none => exact h
  | some op => exact (List.append_cancel_left (List.append_cancel_right h) : 58 :: v = 58 :: w) |> List.tail_eq_of_cons_eq

variable {field raw : Bytes}

/-- The bytes of a number. -/
theorem isNumber_bytes (h : isNumber field raw = true) :
    raw ≠ [] ∧ ∀ c ∈ raw, (isAsciiDigit c || (ascii "-+.eE").contains c) = true := by
  simp only [isNumber, looksNumeric, Bool.and_eq_true, List.all_eq_true] at h
  obtain ⟨⟨-, ⟨hne, hall⟩, -⟩, -⟩ := h
  exact ⟨by simpa using hne, hall⟩

/-- A value whose spelling is taken for something is not in quotes. -/
theorem LooksTyped.bare (h : LooksTyped field raw) : raw.head? ≠ some doubleQuote := by
  intro hquote
  rcases h with h | h | h
  · have hall : ∀ value ∈ literals, value.head? ≠ some doubleQuote := by decide
    exact hall raw h hquote
  · simp only [isObjectId, Bool.and_eq_true, List.all_eq_true] at h
    exact absurd (h.2 _ (List.mem_of_mem_head? hquote)) (by decide)
  · exact absurd ((isNumber_bytes h).2 _ (List.mem_of_mem_head? hquote)) (by decide)

theorem isNumber_iff {value : Bytes} : isNumber field value = true ↔
    value ∉ literals ∧ isObjectId field value = false ∧ (looksNumeric value && parsesFloat value) = true := by
  simp only [isNumber, Bool.and_eq_true, Bool.not_eq_true', List.contains_eq_mem, decide_eq_false_iff_not]
  tauto

theorem scalar_cases (field value : Bytes) :
    (value ∈ literals ∧ scalarJson value field = value) ∨
    (isObjectId field value = true ∧ scalarJson value field = single (ascii "$oid") (writeJsonString value)) ∨
    (isNumber field value = true ∧ scalarJson value field = value) ∨
    (¬LooksTyped field value ∧ scalarJson value field = writeJsonString value) := by
  unfold scalarJson LooksTyped
  split
  · next hl => exact .inl ⟨List.contains_iff_mem.mp hl, rfl⟩
  next hl =>
  rw [List.contains_iff_mem] at hl
  split
  · next ho => exact .inr (.inl ⟨ho, rfl⟩)
  next ho =>
  have hno : isObjectId field value = false := Bool.not_eq_true _ ▸ ho
  split
  · next hn => exact .inr (.inr (.inl ⟨isNumber_iff.mpr ⟨hl, hno, hn⟩, rfl⟩))
  next hn =>
  refine .inr (.inr (.inr ⟨?_, rfl⟩))
  rintro (h | h | h)
  · exact hl h
  · exact ho h
  · exact hn (isNumber_iff.mp h).2.2

theorem ValueSays.of_quoted (hquote : raw.head? = some doubleQuote)
    (h : ValueSays field raw v) : v = writeJsonString (unquote raw) := by
  have hbare : ¬LooksTyped field raw := fun h => h.bare hquote
  unfold LooksTyped at hbare
  cases h with
  | quoted => rfl
  | text hb _ => exact absurd hquote hb
  | _ => tauto

theorem ValueSays.of_number (hn : isNumber field raw = true)
    (h : ValueSays field raw v) : v = raw ∧ Number raw ∨ v = writeJsonString raw := by
  obtain ⟨hl, ho, -⟩ := isNumber_iff.mp hn
  cases h with
  | quoted hquote => exact absurd hquote (LooksTyped.bare (.inr (.inr hn)))
  | number _ hnumber => exact .inl ⟨rfl, hnumber⟩
  | numberText _ => exact .inr rfl
  | literal hmem => exact absurd hmem hl
  | objectId hid => exact absurd (hid.symm.trans ho) (by decide)
  | text _ hno => exact absurd (hn.symm.trans hno) (by decide)

/-- A value that is no range is said exactly where it is plain. -/
theorem value_plain {field raw : Bytes} :
    ValueSays field raw (scalarJson (unquote raw) field) ↔
      if raw.head? = some doubleQuote then ¬LooksTyped field (unquote raw)
      else isNumber field raw = true → Number raw := by
  by_cases hquote : raw.head? = some doubleQuote
  · rw [if_pos hquote]
    have hbare : ¬LooksTyped field raw := fun h => h.bare hquote
    rcases scalar_cases field (unquote raw) with ⟨hl, hs⟩ | ⟨ho, hs⟩ | ⟨hn, hs⟩ | ⟨hplain, hs⟩
    case inr.inr.inr =>
      rw [hs]
      exact ⟨fun _ => hplain, fun _ => .quoted hquote⟩
    all_goals
      have htyped : LooksTyped field (unquote raw) := by
        unfold LooksTyped
        tauto
      refine ⟨fun h => ?_, fun h => absurd htyped h⟩
      have hv := h.of_quoted hquote
      rw [hs] at hv
    · exact absurd hv.symm (writeJsonString_ne _)
    · exact absurd (List.cons.inj hv).1 (by decide)
    · exact absurd hv.symm (writeJsonString_ne _)
  · rw [if_neg hquote, show unquote raw = raw from if_neg hquote]
    rcases scalar_cases field raw with ⟨hl, hs⟩ | ⟨ho, hs⟩ | ⟨hn, hs⟩ | ⟨hplain, hs⟩
    · rw [hs]
      exact ⟨fun _ hn => absurd hl (isNumber_iff.mp hn).1, fun _ => .literal hl⟩
    · rw [hs]
      refine ⟨fun _ hn => ?_, fun _ => .objectId ho⟩
      exact absurd ho (by rw [(isNumber_iff.mp hn).2.1]; exact Bool.false_ne_true)
    · rw [hs]
      refine ⟨fun h _ => ?_, fun h => .number hn (h hn)⟩
      rcases h.of_number hn with ⟨-, hnumber⟩ | hv
      · exact hnumber
      · exact absurd hv.symm (writeJsonString_ne _)
    · rw [hs]
      refine ⟨fun _ hn => absurd (.inr (.inr hn)) hplain, fun _ => .text hquote ?_⟩
      exact Bool.eq_false_iff.mpr fun hn => hplain (.inr (.inr hn))

/-- Behind an operator, what the code makes of a value says it exactly where it is plain. -/
theorem constraint_plain {c : Bytes} (h : constraintOf now field raw mongo = some c) :
    Says now field raw mongo c ↔ PlainValue now field raw mongo := by
  unfold constraintOf at h
  unfold PlainValue
  split at h
  · cases h
  split at h
  · next hthere =>
    obtain rfl := Option.some.inj h
    exact ⟨fun _ => .inl hthere, fun _ => .there hthere.1 hthere.2⟩
  next hthere =>
  split at h
  · next hcontains =>
    split at h
    · cases h
    obtain rfl := Option.some.inj h
    exact ⟨fun _ => .inr (.inl hcontains), fun _ => .contains hcontains⟩
  next hcontains =>
  cases hr : rangeOf raw with
  | some r =>
    rw [hr] at h
    obtain rfl := Option.some.inj h
    constructor
    · intro hsays
      generalize hc : rangeText (r.since now) = c at hsays
      cases hsays with
      | there h1 h2 => exact absurd ⟨h1, h2⟩ hthere
      | contains h => exact absurd h hcontains
      | @since r' hr' hfits =>
        obtain rfl := Option.some.inj (hr.symm.trans hr')
        exact .inr (.inr hfits)
      | untaken _ =>
        -- the text of a range ends in one bracket more
        have hreverse := congrArg List.reverse hc
        cases mongo <;> simp [rangeText, single, compared, writeJsonString] at hreverse
      | value hnone _ => exact absurd (hr.symm.trans hnone) (Option.some_ne_none r)
    · intro hplain
      have hfits : r.Fits now := by tauto
      rw [Range.since_exact hfits]
      exact .since hr hfits
  | none =>
    rw [hr] at h
    obtain rfl := Option.some.inj h
    have hvalue := @value_plain field raw
    constructor
    · intro hsays
      generalize hc : compared mongo (scalarJson (unquote raw) field) = c at hsays
      cases hsays with
      | there h1 h2 => exact absurd ⟨h1, h2⟩ hthere
      | contains h => exact absurd h hcontains
      | since h _ | untaken h => exact absurd (h.symm.trans hr) (Option.some_ne_none _)
      | value _ hv =>
        obtain rfl := compared_inj hc
        exact .inr (.inr (hvalue.mp hv))
    · intro hplain
      refine .value hr (hvalue.mpr ?_)
      tauto

/-! ## The document is JSON -/

theorem chars_writeJsonString (s : Bytes) : Chars (s.flatMap writeJsonByte) := by
  have hhex : ∀ n < 32, JsonSyntax.isHexDigit (hexByte (UInt8.ofNat n / 16)) = true ∧
      JsonSyntax.isHexDigit (hexByte (UInt8.ofNat n % 16)) = true := by decide
  have hbyte : ∀ c, Chars (writeJsonByte c) := by
    intro c
    unfold writeJsonByte
    repeat' split
    case isFalse.isFalse.isFalse.isFalse.isFalse.isFalse.isFalse.isTrue hlow =>
      have hc := hhex c.toNat hlow
      rw [UInt8.ofNat_toNat] at hc
      exact .unit (by decide) (by decide) hc.1 hc.2 .nil
    case isFalse.isFalse.isFalse.isFalse.isFalse.isFalse.isFalse.isFalse hquote hslash _ _ _ _ _ hlow =>
      exact .plain hquote hslash (UInt8.not_lt.mp hlow) .nil
    all_goals exact .escaped (by decide) .nil
  induction s with
  | nil => exact .nil
  | cons c s ih => exact (hbyte c).append ih

theorem str_writeJsonString (s : Bytes) : Str (writeJsonString s) := ⟨_, chars_writeJsonString s, rfl⟩

theorem chars_plain {t : Bytes} (h : ∀ c ∈ t, c ≠ 34 ∧ c ≠ 92 ∧ 32 ≤ c) : Chars t := by
  induction t with
  | nil => exact .nil
  | cons c t ih =>
    obtain ⟨hquote, hslash, hlow⟩ := h c List.mem_cons_self
    exact .plain hquote hslash hlow (ih fun d hd => h d (.tail _ hd))

theorem scalar_level {t : Bytes} (h : Scalar t) (n : Nat) : Level (n + 1) t := .inl h

theorem single_level {n : Nat} {key value : Bytes} (hkey : Chars key) (h : Level n value) :
    Level (n + 1) (single key value) :=
  .inr (.inr (.items (.one ⟨_, value, JsonSyntax.padded_of ⟨key, hkey, rfl⟩, JsonSyntax.padded_of h, rfl⟩)))

theorem value_level (h : ValueSays field raw v) (n : Nat) : Level (n + 2) v := by
  cases h with
  | quoted _ => exact scalar_level (.inl (str_writeJsonString _)) _
  | number _ hnumber => exact scalar_level (.inr (.inl hnumber)) _
  | numberText _ => exact scalar_level (.inl (str_writeJsonString _)) _
  | literal hl =>
    have hall : ∀ value ∈ literals, value = JsonSyntax.trueText ∨ value = JsonSyntax.falseText ∨
        value = JsonSyntax.nullText := by decide
    exact scalar_level (.inr (.inr (hall _ hl))) _
  | objectId _ => exact single_level (chars_plain (by decide)) (scalar_level (.inl (str_writeJsonString _)) n)
  | text _ _ => exact scalar_level (.inl (str_writeJsonString _)) _

theorem compared_level (h : ∀ n, Level (n + 2) v) : Level 4 (compared mongo v) := by
  cases mongo with
  | none => exact h 2
  | some op => exact single_level (chars_plain (by cases op <;> decide)) (h 1)

theorem integerText_plain (n : Int) : ∀ c ∈ integerText n, c ≠ 34 ∧ c ≠ 92 ∧ 32 ≤ c := by
  have hdigit : ∀ c ∈ decimal n.natAbs, c ≠ 34 ∧ c ≠ 92 ∧ 32 ≤ c := by
    intro c hc
    have h := decimal_digits hc
    refine ⟨?_, ?_, ?_⟩
    · rintro rfl
      exact absurd h (by decide)
    · rintro rfl
      exact absurd h (by decide)
    · simp only [isAsciiDigit, Bool.and_eq_true, decide_eq_true_eq] at h
      exact UInt8.le_trans (by decide) h.1
  intro c hc
  unfold integerText at hc
  split at hc
  · rcases List.mem_cons.mp hc with rfl | hc
    · decide
    · exact hdigit c hc
  · exact hdigit c hc

theorem says_level {c : Bytes} (h : Says now field raw mongo c) : Level 4 c := by
  cases h with
  | there _ _ =>
    exact single_level (chars_plain (by decide)) (scalar_level (.inr (.inr (.inl (by decide)))) 2)
  | contains _ =>
    have hneedle : Level 3 (writeJsonString (regexEscape (unquote raw.tail))) :=
      scalar_level (.inl (str_writeJsonString _)) 2
    have hoptions : Level 3 [34, 105, 34] := scalar_level (.inl ⟨[105], chars_plain (by decide), rfl⟩) 2
    have hregex : Member (Level 3) ((34 :: ascii "$regex" ++ [34]) ++ 58 :: _) :=
      ⟨_, _, JsonSyntax.padded_of ⟨_, chars_plain (by decide), rfl⟩, JsonSyntax.padded_of hneedle, rfl⟩
    have hflag : Member (Level 3) ((34 :: ascii "$options" ++ [34]) ++ 58 :: _) :=
      ⟨_, _, JsonSyntax.padded_of ⟨_, chars_plain (by decide), rfl⟩, JsonSyntax.padded_of hoptions, rfl⟩
    exact .inr (.inr (.items (.cons hregex (.one hflag))))
  | @since r _ _ =>
    have hnumber : Level 1 (34 :: integerText (r.exact now) ++ [34]) :=
      scalar_level (.inl ⟨_, chars_plain (integerText_plain _), rfl⟩) 0
    exact single_level (chars_plain (by decide)) (single_level (chars_plain (by decide))
      (single_level (chars_plain (by decide)) hnumber))
  | untaken _ => exact compared_level fun n => scalar_level (.inl (str_writeJsonString _)) _
  | value _ hv => exact compared_level (value_level hv)

theorem commaed_of {P : Bytes → Prop} {texts : List Bytes} (hne : texts ≠ []) (h : ∀ t ∈ texts, P t) :
    Commaed P (commaJoined texts) := by
  induction texts with
  | nil => exact absurd rfl hne
  | cons t rest ih =>
    have ht := h t List.mem_cons_self
    cases rest with
    | nil => exact .one ht
    | cons next rest => exact .cons ht (ih (List.cons_ne_nil _ _) fun t hmem => h t (.tail _ hmem))

variable {clauses : List (Bytes × Bytes)}

theorem document_level (hne : clauses ≠ [])
    (h : ∀ clause ∈ clauses, Level 4 clause.2) : ∃ n, Level n (document clauses) := by
  have hmember : ∀ clause ∈ clauses, Member (Level 4) (memberText clause) := fun clause hmem =>
    ⟨_, _, JsonSyntax.padded_of (str_writeJsonString _), JsonSyntax.padded_of (h clause hmem), rfl⟩
  unfold document
  split
  · refine ⟨5, .inr (.inr (.items (commaed_of (by simpa using hne) ?_)))⟩
    exact List.forall_mem_map.mpr hmember
  have hobject : ∀ t ∈ clauses.map fun clause => 123 :: memberText clause ++ [125], Padded (Level 5) t :=
    List.forall_mem_map.mpr fun clause hmem =>
      JsonSyntax.padded_of (.inr (.inr (.items (.one (hmember clause hmem)))))
  have harray : ArrayOf (Level 5) (91 :: commaJoined _ ++ [93]) :=
    .items (commaed_of (by simpa using hne) hobject)
  exact ⟨7, single_level (chars_plain (by decide)) (.inr (.inl harray))⟩

/-! ## Whole lines -/

variable {terms : List Bytes}

/-- Every term has the clause it is compiled to. -/
theorem clausesOf_spec {found : List (Bytes × Bytes)}
    (h : clausesOf now terms found = .inr clauses) : ∃ rest, clauses = found ++ rest ∧
      List.Forall₂ (fun term clause => compileTerm now term = .ok (some clause)) terms rest := by
  induction terms generalizing found with
  | nil => exact ⟨[], by rw [List.append_nil, Sum.inr.inj h], .nil⟩
  | cons term terms ih =>
    rw [clausesOf] at h
    split at h
    · next clause hclause =>
      obtain ⟨rest, rfl, hrest⟩ := ih h
      exact ⟨clause :: rest, by rw [List.append_assoc]; rfl, .cons hclause hrest⟩
    · cases h
    · cases h

/-- A term's clause says the term exactly where the term is plain. -/
theorem term_plain {term : Bytes} {clause : Bytes × Bytes}
    (h : compileTerm now term = .ok (some clause)) : TermSays now term clause ↔ PlainTerm now term := by
  unfold compileTerm at h
  split at h
  · cases h
  next op hop =>
  split at h
  · cases h
  obtain ⟨constraint, hc, rfl⟩ := Option.map_eq_some_iff.mp (Except.ok.inj h)
  have hsays := constraint_plain hc
  constructor
  · rintro ⟨op', hop', -, hop''⟩ op'' hfound
    obtain rfl := Option.some.inj (hop.symm.trans hop')
    obtain rfl := Option.some.inj (hop.symm.trans hfound)
    exact hsays.mp hop''
  · intro hplain
    exact ⟨op, hop, rfl, hsays.mpr (hplain op hop)⟩

variable {text : Bytes}

/-- A line that stops at a term is not ready. -/
theorem clausesOf_stop {found : List (Bytes × Bytes)} :
    clausesOf now terms found ≠ .inl (.ready text) := by
  induction terms generalizing found with
  | nil => exact fun h => by cases h
  | cons term terms ih =>
    rw [clausesOf]
    split
    · exact ih
    · exact fun h => by cases h
    · exact fun h => by cases h

variable {input : Bytes}

theorem ready_spec (h : compileFastFilter input now = .ready text) :
    ∃ clauses, clausesOf now (splitTerms false [] 0 input) [] = .inr clauses ∧ text = document clauses ∧
      clauses ≠ [] ∧ List.Forall₂ (fun term clause => compileTerm now term = .ok (some clause))
        (splitTerms false [] 0 input) clauses := by
  unfold compileFastFilter at h
  dsimp only at h
  split at h
  · cases h
  next hne =>
  cases hclauses : clausesOf now (splitTerms false [] 0 input) [] with
  | inl result =>
    rw [hclauses] at h
    exact absurd (hclauses.trans (congrArg Sum.inl h)) clausesOf_stop
  | inr clauses =>
    rw [hclauses] at h
    obtain ⟨rest, hrest, hall⟩ := clausesOf_spec hclauses
    obtain rfl : clauses = rest := hrest
    refine ⟨clauses, rfl, (FastFilter.ready.inj h).symm, ?_, hall⟩
    rintro rfl
    exact hne (List.forall₂_nil_right_iff.mp hall)

theorem all_say
    (h : List.Forall₂ (fun term clause => compileTerm now term = .ok (some clause)) terms clauses) :
    List.Forall₂ (TermSays now) terms clauses ↔ ∀ term ∈ terms, PlainTerm now term := by
  induction h with
  | nil => exact ⟨fun _ _ hmem => absurd hmem List.not_mem_nil, fun _ => .nil⟩
  | cons hterm _ ih => rw [List.forall₂_cons, List.forall_mem_cons, term_plain hterm, ih]

theorem clauses_level
    (h : List.Forall₂ (TermSays now) terms clauses) : ∀ clause ∈ clauses, Level 4 clause.2 := by
  induction h with
  | nil => exact fun _ hmem => absurd hmem List.not_mem_nil
  | cons hterm _ ih =>
    obtain ⟨op, -, -, hsays⟩ := hterm
    exact List.forall_mem_cons.mpr ⟨says_level hsays, ih⟩

theorem faithful_plain (h : compileFastFilter input now = .ready text)
    (hfaithful : Faithful now input text) : ∀ term ∈ splitTerms false [] 0 input, PlainTerm now term := by
  obtain ⟨clauses, hclauses, -, -, hall⟩ := ready_spec h
  obtain ⟨-, clauses', hclauses', -, hsays⟩ := hfaithful
  obtain rfl := Sum.inr.inj (hclauses.symm.trans hclauses')
  exact (all_say hall).mp hsays

theorem plain_faithful (h : compileFastFilter input now = .ready text)
    (hplain : ∀ term ∈ splitTerms false [] 0 input, PlainTerm now term) : Faithful now input text := by
  obtain ⟨clauses, hclauses, rfl, hne, hall⟩ := ready_spec h
  have hsays := (all_say hall).mpr hplain
  obtain ⟨n, hn⟩ := document_level hne (clauses_level hsays)
  exact ⟨⟨n, JsonSyntax.padded_of hn⟩, clauses, hclauses, rfl, hsays⟩

/-- The document is JSON that says what was typed exactly where every term is plain. -/
theorem fast_filter_iff (input : Bytes) (now : Int) (text : Bytes)
    (h : compileFastFilter input now = .ready text) :
    Faithful now input text ↔ ∀ term ∈ splitTerms false [] 0 input, PlainTerm now term :=
  ⟨faithful_plain h, plain_faithful h⟩

theorem fast_filter_iff_age : Faithful 0 (ascii "age>18") (ascii "\x7b\"age\":\x7b\"$gt\":18\x7d\x7d") ↔
    ∀ term ∈ splitTerms false [] 0 (ascii "age>18"), PlainTerm 0 term :=
  fast_filter_iff _ _ _ (by decide)

/-- `zip:"30"` filters by the number. -/
theorem quoted_number_typed :
    compileFastFilter (ascii "zip:\"30\"") 0 = .ready (ascii "\x7b\"zip\":30\x7d") ∧
      ¬Faithful 0 (ascii "zip:\"30\"") (ascii "\x7b\"zip\":30\x7d") := by
  have hready : compileFastFilter (ascii "zip:\"30\"") 0 = .ready (ascii "\x7b\"zip\":30\x7d") := by decide
  refine ⟨hready, fun hfaithful => ?_⟩
  have hplain := faithful_plain hready hfaithful (ascii "zip:\"30\"") (by decide) ⟨3, 1, none⟩ (by decide)
  rcases hplain with ⟨hthere, -⟩ | hcontains | hvalue
  · exact absurd hthere (by decide)
  · exact absurd hcontains (by decide)
  · have hnone : rangeOf ((ascii "zip:\"30\"").drop (3 + 1)) = none := by decide
    dsimp only at hvalue
    rw [hnone] at hvalue
    exact hvalue (.inr (.inr (by decide)))

end RedDb.Docs
