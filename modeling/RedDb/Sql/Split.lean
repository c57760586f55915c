import RedDb.Sql.Window

/-!
# RedDb — splitting a script into statements

`statement_ranges` is the one scanner all statement boundaries come from. It is
a `while` over the offset `i` with five more variables; `Scan` holds them and
`scanStep` is one round of the loop body. A separator never is empty, which is
a field of `Delimiter`, so every round moves on (`scanStep_bounds`).

* `statementRanges` / `splitStatements` — the splitter;
* `opensBlock`, `routineDdlAt`          — the lookaheads that decide block depth;
* `scanStep_*` — what one round does, kind by kind.
-/

namespace RedDb.Sql

open ByteText

/-! ## Words ahead -/

/-- The next word at or after `from`, past blanks only, with the index just past it. -/
def nextWord (b : Bytes) (start : Nat) : Option (Bytes × Nat) :=
  let i := start + ((b.drop start).takeWhile isAsciiWhitespace).length
  match b[i]? with
  | none => none
  | some c => if isWordByte c then some (slice b i (wordEnd b i), wordEnd b i) else none

/-- Like `nextWord`, past any punctuation but a `(`. -/
def nextHeaderWord (b : Bytes) (start : Nat) : Option (Bytes × Nat) :=
  let i := start +
    ((b.drop start).takeWhile fun c => !isWordByte c && c != openParen).length
  match b[i]? with
  | none => none
  | some c => if c == openParen then none else some (slice b i (wordEnd b i), wordEnd b i)

/-- The rest of a `DELIMITER` directive's line and the index just past it. -/
def restOfLine (b : Bytes) (start : Nat) : Bytes × Nat :=
  let line := (b.drop start).takeWhile (· != newline)
  (line, min (start + line.length + 1) b.length)

def isBlockKind (word : Bytes) : Bool :=
  [ascii "if", ascii "case", ascii "loop", ascii "while", ascii "repeat"].any
    (eqIgnoreAsciiCase word)

/-- Whether the `IF` ending at `start` is followed by `EXISTS` / `NOT EXISTS`. -/
def ifExistsHeader (b : Bytes) (start : Nat) : Bool :=
  match nextWord b start with
  | none => false
  | some (first, after) =>
    if eqIgnoreAsciiCase first (ascii "exists") then true
    else eqIgnoreAsciiCase first (ascii "not") &&
      match nextWord b after with
      | some (w, _) => eqIgnoreAsciiCase w (ascii "exists")
      | none => false

/-- `thenFollows` from `i`, `depth` parentheses being open. -/
def thenFollowsFrom (d : Dialect) (b : Bytes) : Nat → Nat → Nat → Bool
  | 0, _, _ => false
  | fuel + 1, i, depth =>
    match b[i]? with
    | none => false
    | some c =>
      if c == openParen then thenFollowsFrom d b fuel (i + 1) (depth + 1)
      else if c == closeParen then thenFollowsFrom d b fuel (i + 1) (depth - 1)
      else if c == semicolon && depth == 0 then false
      else if isQuote c then
        thenFollowsFrom d b fuel (skipQuoted b i c (quoteEscapes b i c d)) depth
      else if d.dashCommentAt b i then thenFollowsFrom d b fuel (lineCommentEnd b (i + 2)) depth
      else if c == hash && d.hashComments then
        thenFollowsFrom d b fuel (lineCommentEnd b (i + 1)) depth
      else if c == slash && b[i + 1]? == some star then
        thenFollowsFrom d b fuel (skipBlockComment b i d) depth
      else if isWordByte c then
        if depth == 0 && eqIgnoreAsciiCase (slice b i (wordEnd b i)) (ascii "then") then true
        else thenFollowsFrom d b fuel (wordEnd b i) depth
      else thenFollowsFrom d b fuel (i + 1) depth

/-- Whether a top-level `THEN` appears at or after `start` before a top-level `;`. -/
def thenFollows (b : Bytes) (start : Nat) (d : Dialect) : Bool :=
  thenFollowsFrom d b (b.length + 1) start 0

/-- Whether `word`, which ends at `start`, opens a block that an `END` closes. -/
def opensBlock (b word : Bytes) (start : Nat) (d : Dialect) : Bool :=
  if !isBlockKind word && !eqIgnoreAsciiCase word (ascii "begin") then false
  else
    let isIf := eqIgnoreAsciiCase word (ascii "if")
    let callable := isIf || eqIgnoreAsciiCase word (ascii "repeat")
    let at' := start + ((b.drop start).takeWhile isAsciiWhitespace).length
    if callable && b[start]? == some openParen then false
    else if callable && b[at']? == some openParen then isIf && thenFollows b at' d
    else if isIf && ifExistsHeader b start then thenFollows b start d
    else true

/-- How many words of header `routineDdlAt` reads past the verb. -/
def headerWords : Nat := 8

/-- Whether one of the next `k` header words names a routine kind before one names
another kind of object. -/
@[grind =] def headerNamesRoutine (b : Bytes) : Nat → Nat → Bool
  | 0, _ => false
  | k + 1, at' =>
    match nextHeaderWord b at' with
    | none => false
    | some (word, next) =>
      if [ascii "trigger", ascii "procedure", ascii "function", ascii "event"].any
          (eqIgnoreAsciiCase word) then true
      else if [ascii "table", ascii "view", ascii "index", ascii "database", ascii "schema",
          ascii "sequence", ascii "user", ascii "role"].any (eqIgnoreAsciiCase word) then false
      else headerNamesRoutine b k next

/-- Whether the statement starting at `start` declares a trigger or stored routine. -/
def routineDdlAt (b : Bytes) (start : Nat) : Bool :=
  match nextWord b start with
  | none => false
  | some (verb, at') =>
    if [ascii "create", ascii "alter", ascii "drop"].any (eqIgnoreAsciiCase verb) then
      headerNamesRoutine b headerWords at'
    else false

/-! ## The loop -/

/-- A statement separator: one word, so never empty and without a blank. -/
structure Delimiter where
  token : Bytes
  nonempty : token ≠ []
  unbroken : token.all (fun c => !isAsciiWhitespace c) = true
  deriving DecidableEq

def Delimiter.semicolon : Delimiter := ⟨[ByteText.semicolon], List.cons_ne_nil _ _, rfl⟩

/-- The separator a directive's line leaves: the old one where it has no token. -/
def Delimiter.ofLine (old : Delimiter) (line : Bytes) : Delimiter :=
  let token := (line.dropWhile isAsciiWhitespace).takeWhile fun c => !isAsciiWhitespace c
  if h : token = [] then old else ⟨token, h, List.all_takeWhile⟩

/-- The variables of the `statement_ranges` loop. -/
structure Scan where
  i : Nat
  start : Nat
  delim : Delimiter
  depth : Nat
  compound : Bool
  fresh : Bool
  out : List (Nat × Nat)
  deriving DecidableEq

/-- The state the loop starts in. -/
def Scan.init : Scan := ⟨0, 0, .semicolon, 0, false, true, []⟩

/-- Whether the loop stands on the active separator, outside any block. -/
def atDelimiter (b : Bytes) (s : Scan) : Bool :=
  s.depth == 0 && s.delim.token.isPrefixOf (b.drop s.i)

/-- Close the current statement at the separator and step over it. -/
def Scan.cut (s : Scan) : Scan :=
  { s with
    out := s.out ++ [(s.start, s.i)]
    i := s.i + s.delim.token.length
    start := s.i + s.delim.token.length
    fresh := true
    compound := false }

/-- The index just past an `END` that ends at `stop` and the kind word it closes,
so that the kind of `END IF`, `END LOOP`, … does not read as a fresh opener. -/
def endClause (b : Bytes) (stop : Nat) : Nat :=
  match nextWord b stop with
  | some (next, nextEnd) => if isBlockKind next then nextEnd else stop
  | none => stop

/-- The round of a word. -/
def wordStep (d : Dialect) (b : Bytes) (s : Scan) : Scan :=
  let stop := wordEnd b s.i
  let word := slice b s.i stop
  if s.fresh && eqIgnoreAsciiCase word (ascii "delimiter") then
    let (line, lineEnd) := restOfLine b stop
    { s with delim := s.delim.ofLine line, i := lineEnd, start := lineEnd }
  else
    let compound := if s.fresh then routineDdlAt b s.i else s.compound
    let s' := { s with i := stop, compound := compound, fresh := false }
    if !compound then s'
    else if eqIgnoreAsciiCase word (ascii "end") then
      { s' with depth := s.depth - 1, i := endClause b stop }
    else if opensBlock b word stop d then { s' with depth := s.depth + 1 }
    else s'

/-- One round of the loop. -/
def scanStep (d : Dialect) (b : Bytes) (s : Scan) : Scan :=
  if atDelimiter b s then s.cut
  else match b[s.i]? with
    | none => s
    | some c =>
      if isQuote c then
        { s with i := skipQuoted b s.i c (quoteEscapes b s.i c d), fresh := false }
      else if d.dashCommentAt b s.i then { s with i := lineCommentEnd b (s.i + 2) }
      else if c == hash && d.hashComments then { s with i := lineCommentEnd b (s.i + 1) }
      else if c == slash && b[s.i + 1]? == some star then
        { s with i := skipBlockComment b s.i d }
      else if c == dollar && d.dollarQuotes then
        { s with i := (dollarQuoteEnd b s.i).getD (s.i + 1), fresh := false }
      else if isWordByte c then wordStep d b s
      else { s with i := s.i + 1, fresh := s.fresh && isAsciiWhitespace c }

/-- Whether the loop goes on. -/
def scanning (b : Bytes) (s : Scan) : Bool := decide (s.i < b.length)

/-- The loop run to its end. -/
def scanRun (d : Dialect) (b : Bytes) (s : Scan) : Scan :=
  WhileLoop.run (scanning b) (scanStep d b) b.length s

/-- The byte range of every statement, separators excluded, in order. -/
def statementRanges (b : Bytes) (d : Dialect) : List (Nat × Nat) :=
  let s := scanRun d b .init
  s.out ++ [(s.start, b.length)]

/-- The trimmed, non-blank statements. -/
def splitStatements (b : Bytes) (d : Dialect) : List Bytes :=
  ((statementRanges b d).map fun r => trim (slice b r.1 r.2)).filter fun s => !s.isEmpty

/-! ## One round -/

/-- A byte no lexeme opens at and no separator is: blanks and words. -/
def isPlain (c : UInt8) : Bool := isWordByte c || isAsciiWhitespace c

/-- Whether a literal, an identifier or a lone `$` opens at the byte: what ends a
statement's leading blanks and comments. -/
def opensLiteral (d : Dialect) (c : UInt8) : Bool := isQuote c || c == dollar && d.dollarQuotes

variable {c : UInt8}

theorem isPlain_spec (h : isPlain c = true) : isQuote c = false ∧ c ≠ dash ∧
    c ≠ ByteText.hash ∧ c ≠ slash ∧ c ≠ dollar ∧ c ≠ ByteText.semicolon ∧ c ≠ openParen := by
  refine ⟨?_, ?_, ?_, ?_, ?_, ?_, ?_⟩
  · by_contra hq
    simp only [Bool.not_eq_false, isQuote, Bool.or_eq_true, beq_iff_eq] at hq
    rcases hq with (rfl | rfl) | rfl <;> revert h <;> decide
  all_goals
    rintro rfl
    revert h
    decide

variable {b : Bytes} {d : Dialect} {i stop : Nat}

/-- Nothing opens at a plain byte. -/
theorem noiseEnd_plain (hc : b[i]? = some c)
    (h : isPlain c = true) : noiseEnd d b stop i = none := by
  obtain ⟨h1, h2, h3, h4, h5, -, -⟩ := isPlain_spec h
  simp [noiseEnd, hc, h1, h2, h3, h4, h5, Dialect.dashCommentAt]

theorem lexNext_plain (hc : b[i]? = some c)
    (h : isPlain c = true) : lexNext d b stop i = i + 1 := by
  rw [lexNext, noiseEnd_plain hc h, Option.getD_none]

/-- All bytes of `b[i..j]` are plain. -/
def PlainSpan (b : Bytes) (i j : Nat) : Prop :=
  ∀ k, i ≤ k → k < j → ∃ c, b[k]? = some c ∧ isPlain c = true

theorem takeWhile_span {p : UInt8 → Bool} {start k : Nat} (hk : start ≤ k)
    (hlt : k < start + ((b.drop start).takeWhile p).length) : ∃ c, b[k]? = some c ∧ p c = true := by
  have hk' : k - start < ((b.drop start).takeWhile p).length := by omega
  have hget := (List.takeWhile_prefix p (l := b.drop start)).getElem hk'
  refine ⟨((b.drop start).takeWhile p)[k - start], ?_, ?_⟩
  · have hlen := takeWhile_length_le p (b.drop start)
    rw [hget, ← List.getElem?_eq_getElem, List.getElem?_drop, Nat.add_sub_cancel' hk]
  · exact List.all_eq_true.mp List.all_takeWhile _ (List.getElem_mem hk')

theorem plainSpan_word (b : Bytes) (i : Nat) : PlainSpan b i (wordEnd b i) := by
  intro k hk hlt
  obtain ⟨c, hc, hw⟩ := takeWhile_span hk hlt
  exact ⟨c, hc, by simp [isPlain, hw]⟩

theorem PlainSpan.trans {j k : Nat} (h1 : PlainSpan b i j) (h2 : PlainSpan b j k) :
    PlainSpan b i k := by
  intro x hx hlt
  rcases Nat.lt_or_ge x j with hxj | hxj
  · exact h1 x hx hxj
  · exact h2 x hxj hlt

theorem lt_wordEnd (hc : b[i]? = some c) (hw : isWordByte c = true) : i < wordEnd b i := by
  have hi := lt_of_getElem?_eq_some hc
  obtain rfl : b[i] = c := by
    rw [List.getElem?_eq_getElem hi] at hc
    exact Option.some.inj hc
  unfold wordEnd
  rw [List.drop_eq_getElem_cons hi, List.takeWhile_cons, if_pos hw, List.length_cons]
  omega

/-- A word ahead is past blanks only. -/
theorem nextWord_spec {w : Bytes} {start e : Nat} (h : nextWord b start = some (w, e)) :
    start < e ∧ e ≤ b.length ∧ PlainSpan b start e := by
  unfold nextWord at h
  simp only at h
  split at h
  · cases h
  rename_i c hc
  split at h
  · rename_i hw
    obtain ⟨rfl, rfl⟩ := Prod.mk.inj (Option.some.inj h)
    have hlt := lt_of_getElem?_eq_some hc
    have := lt_wordEnd hc hw
    refine ⟨by omega, wordEnd_le (by omega), PlainSpan.trans ?_ (plainSpan_word _ _)⟩
    intro k hk hk'
    obtain ⟨c, hc, hb⟩ := takeWhile_span hk hk'
    exact ⟨c, hc, by simp [isPlain, hb]⟩
  · cases h

theorem endClause_spec (h : stop ≤ b.length) :
    stop ≤ endClause b stop ∧ endClause b stop ≤ b.length ∧
      PlainSpan b stop (endClause b stop) := by
  have hrefl : stop ≤ stop ∧ stop ≤ b.length ∧ PlainSpan b stop stop :=
    ⟨Nat.le_refl _, h, fun k hk hlt => absurd hlt (by omega)⟩
  unfold endClause
  split
  · rename_i next e hn
    obtain ⟨h1, h2, h3⟩ := nextWord_spec hn
    split
    · exact ⟨Nat.le_of_lt h1, h2, h3⟩
    · exact hrefl
  · exact hrefl

section Step

variable {d : Dialect} {b : Bytes} {s : Scan}

theorem scanStep_cut (h : atDelimiter b s = true) : scanStep d b s = s.cut := by
  rw [scanStep, if_pos h]

/-- A round away from the separator. -/
theorem scanStep_eq (h : atDelimiter b s = false) (hc : b[s.i]? = some c) :
    scanStep d b s =
      match noiseEnd d b b.length s.i with
      | some e => { s with i := e, fresh := s.fresh && !opensLiteral d c }
      | none =>
        if isWordByte c then wordStep d b s
        else { s with i := s.i + 1, fresh := s.fresh && isAsciiWhitespace c } := by
  have hi := lt_of_getElem?_eq_some hc
  unfold scanStep
  rw [h, hc]
  simp only [Bool.false_eq_true, if_false]
  by_cases hw : isWordByte c = true
  · have hp : isPlain c = true := by simp [isPlain, hw]
    obtain ⟨h1, h2, h3, h4, h5, -, -⟩ := isPlain_spec hp
    rw [noiseEnd_plain hc hp]
    simp [h1, h2, h3, h4, h5, hw, Dialect.dashCommentAt, hc]
  unfold noiseEnd
  rw [hc]
  simp only [if_neg hw]
  by_cases hq : isQuote c = true
  · rw [if_pos hq, if_pos hq, Nat.min_eq_left (skipQuoted_le hi)]
    simp [opensLiteral, hq]
  rw [if_neg hq, if_neg hq]
  by_cases hd : d.dashCommentAt b s.i = true
  · obtain rfl : c = dash := by
      simp only [Dialect.dashCommentAt, hc, Bool.and_eq_true, beq_iff_eq] at hd
      exact Option.some.inj hd.1.1
    rw [if_pos hd, if_pos hd, Nat.min_eq_left (lineCommentEnd_le _ _)]
    simp [opensLiteral, isQuote, dash, singleQuote, doubleQuote, backtick, dollar]
  rw [if_neg hd, if_neg hd]
  by_cases hh : (c == hash && d.hashComments) = true
  · obtain rfl : c = ByteText.hash := by
      simp only [Bool.and_eq_true, beq_iff_eq] at hh
      exact hh.1
    rw [if_pos hh, if_pos hh, Nat.min_eq_left (lineCommentEnd_le _ _)]
    simp [opensLiteral, isQuote, ByteText.hash, singleQuote, doubleQuote, backtick, dollar]
  rw [if_neg hh, if_neg hh]
  have hguard : (c == slash && decide (s.i + 1 < b.length) && b[s.i + 1]? == some star) =
      (c == slash && b[s.i + 1]? == some star) := by
    rw [Bool.eq_iff_iff]
    simp only [Bool.and_eq_true, decide_eq_true_eq, beq_iff_eq]
    exact ⟨fun h => ⟨h.1.1, h.2⟩, fun h => ⟨⟨h.1, lt_of_getElem?_eq_some h.2⟩, h.2⟩⟩
  rw [hguard]
  by_cases hb : (c == slash && b[s.i + 1]? == some star) = true
  · obtain ⟨hc', hs'⟩ := Bool.and_eq_true_iff.mp hb
    obtain rfl : c = slash := beq_iff_eq.mp hc'
    rw [if_pos hb, if_pos hb,
      Nat.min_eq_left (skipBlockComment_le (lt_of_getElem?_eq_some (beq_iff_eq.mp hs')))]
    simp [opensLiteral, isQuote, slash, singleQuote, doubleQuote, backtick, dollar]
  rw [if_neg hb, if_neg hb]
  by_cases hs : (c == dollar && d.dollarQuotes) = true
  · rw [if_pos hs, if_pos hs]
    cases he : dollarQuoteEnd b s.i with
    | some e => simp [opensLiteral, hs, Nat.min_eq_left (dollarQuoteEnd_bounds he).2]
    | none =>
      obtain rfl : c = dollar := by
        simp only [Bool.and_eq_true, beq_iff_eq] at hs
        exact hs.1
      simp [isAsciiWhitespace, dollar]
  · rw [if_neg hs, if_neg hs]

/-- Whether a blank or a comment stands at `i`: what leaves `fresh` alone. -/
def isLead (d : Dialect) (b : Bytes) (i : Nat) : Bool :=
  (b[i]?).any fun c => !opensLiteral d c && !isWordByte c &&
    (isAsciiWhitespace c || (noiseEnd d b b.length i).isSome)

theorem lt_of_isLead {i : Nat} (h : isLead d b i = true) : i < b.length := by
  obtain ⟨c, hc, -⟩ := Option.any_eq_true _ _ |>.mp h
  exact lt_of_getElem?_eq_some hc

/-- A round away from the separator and from words: the next lexeme. -/
theorem scanStep_lexeme (h : atDelimiter b s = false) (hc : b[s.i]? = some c)
    (hw : isWordByte c = false) : scanStep d b s =
      { s with i := lexNext d b b.length s.i, fresh := s.fresh && isLead d b s.i } := by
  rw [scanStep_eq h hc, lexNext, isLead, hc]
  cases he : noiseEnd d b b.length s.i with
  | some e => simp [hw]
  | none =>
    cases hb : isAsciiWhitespace c with
    | false => simp [hw, hb]
    | true =>
      obtain ⟨h1, -, -, -, h5, -, -⟩ := isPlain_spec (c := c) (by simp [isPlain, hb])
      simp [hw, hb, opensLiteral, h1, h5]

/-- Whether the loop stands on a `DELIMITER` line. -/
def onDirective (b : Bytes) (s : Scan) : Bool :=
  s.fresh && eqIgnoreAsciiCase (slice b s.i (wordEnd b s.i)) (ascii "delimiter")

/-- The body mode a word leaves the loop in. -/
def bodyMode (b : Bytes) (s : Scan) : Bool := if s.fresh then routineDdlAt b s.i else s.compound

/-- The offset and the block depth after a word of a routine body. -/
def bodyWord (d : Dialect) (b : Bytes) (i depth : Nat) : Nat × Nat :=
  if eqIgnoreAsciiCase (slice b i (wordEnd b i)) (ascii "end") then
    (endClause b (wordEnd b i), depth - 1)
  else (wordEnd b i, if opensBlock b (slice b i (wordEnd b i)) (wordEnd b i) d then depth + 1
    else depth)

/-- The state after a word that ends at `stop`, `w` being what it does to a body. -/
def Scan.afterWord (s : Scan) (mode : Bool) (w : Nat × Nat) (stop : Nat) : Scan :=
  if mode then { s with i := w.1, depth := w.2, compound := true, fresh := false }
  else { s with i := stop, compound := false, fresh := false }

theorem Scan.afterWord_inj {mode mode' : Bool} {w w' : Nat × Nat}
    (h : s.afterWord mode w stop = s.afterWord mode' w' stop) :
    mode = mode' ∧ (mode = true → w = w') := by
  unfold Scan.afterWord at h
  cases mode <;> cases mode'
  · exact ⟨rfl, fun h => Bool.noConfusion h⟩
  · exact Bool.noConfusion (congrArg Scan.compound h)
  · exact Bool.noConfusion (congrArg Scan.compound h)
  · exact ⟨rfl, fun _ => Prod.ext (congrArg Scan.i h) (congrArg Scan.depth h)⟩

/-- A word that is no directive. -/
theorem wordStep_eq (h : onDirective b s = false) : wordStep d b s =
      s.afterWord (bodyMode b s) (bodyWord d b s.i s.depth) (wordEnd b s.i) := by
  unfold wordStep
  unfold onDirective at h
  simp only [h, Bool.false_eq_true, if_false]
  change (if (!bodyMode b s) = true then _ else _) = _
  cases hm : bodyMode b s with
  | false =>
    simp [show (if s.fresh = true then routineDdlAt b s.i else s.compound) = false from hm,
      Scan.afterWord]
  | true =>
    unfold bodyWord Scan.afterWord
    simp only [show (if s.fresh = true then routineDdlAt b s.i else s.compound) = true from hm]
    by_cases he : eqIgnoreAsciiCase (slice b s.i (wordEnd b s.i)) (ascii "end") = true
    · simp [he]
    · by_cases ho : opensBlock b (slice b s.i (wordEnd b s.i)) (wordEnd b s.i) d = true
      · simp [he, ho]
      · simp [he, ho]

/-- A word opens at its own first byte only. -/
theorem routineDdlAt_of_not_plain (hc : b[i]? = some c)
    (h : isPlain c = false) : routineDdlAt b i = false := by
  simp only [isPlain, Bool.or_eq_false_iff] at h
  have hi := lt_of_getElem?_eq_some hc
  obtain rfl : b[i] = c := by
    rw [List.getElem?_eq_getElem hi] at hc
    exact Option.some.inj hc
  have hnone : nextWord b i = none := by
    unfold nextWord
    rw [List.drop_eq_getElem_cons hi, List.takeWhile_cons, if_neg (by simp [h.2])]
    simp [hc, h.1]
  rw [routineDdlAt, hnone]

theorem bodyWord_spec (depth : Nat) (hi : i ≤ b.length) :
    wordEnd b i ≤ (bodyWord d b i depth).1 ∧ (bodyWord d b i depth).1 ≤ b.length ∧
      PlainSpan b i (bodyWord d b i depth).1 := by
  have hw := wordEnd_le hi
  obtain ⟨h1, h2, h3⟩ := endClause_spec hw
  unfold bodyWord
  split
  · exact ⟨h1, h2, (plainSpan_word b i).trans h3⟩
  · exact ⟨Nat.le_refl _, hw, plainSpan_word b i⟩

/-- Only a cut adds a range. -/
theorem scanStep_out (h : atDelimiter b s = false) : (scanStep d b s).out = s.out := by
  cases hc : b[s.i]? with
  | none => rw [scanStep, h, hc]; rfl
  | some c =>
    rw [scanStep_eq h hc]
    cases noiseEnd d b b.length s.i with
    | some e => rfl
    | none =>
      by_cases hw : isWordByte c = true
      · simp only [if_pos hw]
        cases hdir : onDirective b s with
        | false =>
          rw [wordStep_eq hdir, Scan.afterWord]
          split <;> rfl
        | true =>
          unfold wordStep
          unfold onDirective at hdir
          simp only [hdir, if_true]
      · simp only [if_neg hw]

/-- **Progress.** Every round moves on and stays in the text. -/
theorem scanStep_bounds (hi : s.i < b.length) :
    s.i < (scanStep d b s).i ∧ (scanStep d b s).i ≤ b.length := by
  cases hat : atDelimiter b s with
  | true =>
    rw [scanStep_cut hat]
    have hpre := (Bool.and_eq_true_iff.mp hat).2
    have hle := (List.isPrefixOf_iff_prefix.mp hpre).length_le
    have hpos := List.length_pos_iff.mpr s.delim.nonempty
    rw [List.length_drop] at hle
    simp only [Scan.cut]
    omega
  | false =>
    have hc : b[s.i]? = some b[s.i] := List.getElem?_eq_getElem hi
    rw [scanStep_eq hat hc]
    cases he : noiseEnd d b b.length s.i with
    | some e => exact noiseEnd_bounds hi (Nat.le_refl _) he
    | none =>
      by_cases hw : isWordByte b[s.i] = true
      · simp only [if_pos hw]
        have hlt := lt_wordEnd hc hw
        have hle := wordEnd_le (Nat.le_of_lt hi)
        cases hdir : onDirective b s with
        | false =>
          rw [wordStep_eq hdir, Scan.afterWord]
          obtain ⟨h1, h2, -⟩ := bodyWord_spec (d := d) s.depth (Nat.le_of_lt hi)
          split
          · exact ⟨by simp only; omega, h2⟩
          · exact ⟨hlt, hle⟩
        | true =>
          unfold wordStep
          unfold onDirective at hdir
          simp only [hdir, if_true, restOfLine]
          omega
      · simp only [if_neg hw]
        omega

end Step

/-- The bytes still to read. -/
def Scan.left (b : Bytes) (s : Scan) : Nat := b.length - s.i

theorem scan_measure (d : Dialect) (b : Bytes) (s : Scan) (h : scanning b s = true) :
    (scanStep d b s).left b < s.left b := by
  have hi : s.i < b.length := of_decide_eq_true h
  have := scanStep_bounds (d := d) hi
  unfold Scan.left
  omega

theorem Scan.left_le (b : Bytes) (s : Scan) : s.left b ≤ b.length := Nat.sub_le _ _

/-- The states the loop passes through. -/
abbrev ScanVisits (d : Dialect) (b : Bytes) : Scan → Scan → Prop :=
  WhileLoop.Visits (scanning b) (scanStep d b)

theorem scanRun_visits (d : Dialect) (b : Bytes) (s : Scan) : ScanVisits d b s (scanRun d b s) :=
  WhileLoop.visits_run _ _

/-- **Totality.** The loop ends at the end of the text. -/
theorem scanRun_done (d : Dialect) (b : Bytes) (s : Scan) (hs : s.i ≤ b.length) :
    (scanRun d b s).i = b.length := by
  have hdone := WhileLoop.run_done (scan_measure d b) (s.left_le b)
  have hle := WhileLoop.Visits.inv (I := fun t => t.i ≤ b.length)
    (fun t ht _ => (scanStep_bounds (of_decide_eq_true ht)).2) (scanRun_visits d b s) hs
  have hge : ¬ (scanRun d b s).i < b.length := of_decide_eq_false hdone
  omega

variable {s t : Scan}

/-- Ranges once cut stay. -/
theorem ScanVisits.out_kept (h : ScanVisits d b s t) : s.out <+: t.out := by
  refine WhileLoop.Visits.inv (I := fun t => s.out <+: t.out) ?_ h (List.prefix_refl _)
  intro u _ hout
  cases hat : atDelimiter b u with
  | false => rwa [scanStep_out hat]
  | true =>
    rw [scanStep_cut hat]
    exact hout.trans (List.prefix_append _ _)

/-- Later cuts lie further on. -/
theorem ScanVisits.out (h : ScanVisits d b s t) :
    s.i ≤ t.i ∧ ∀ r ∈ t.out, r ∈ s.out ∨ s.i ≤ r.2 := by
  refine WhileLoop.Visits.inv (I := fun t => s.i ≤ t.i ∧ ∀ r ∈ t.out, r ∈ s.out ∨ s.i ≤ r.2) ?_ h
    ⟨Nat.le_refl _, fun r hr => Or.inl hr⟩
  rintro u hu ⟨hle, hout⟩
  have hb := scanStep_bounds (d := d) (of_decide_eq_true hu)
  refine ⟨by omega, fun r hr => ?_⟩
  cases hat : atDelimiter b u with
  | false =>
    rw [scanStep_out hat] at hr
    exact hout r hr
  | true =>
    rw [scanStep_cut hat] at hr
    rcases List.mem_append.mp hr with hr | hr
    · exact hout r hr
    · obtain rfl := List.mem_singleton.mp hr
      exact Or.inr hle

/-- A range lies in the text. -/
theorem statementRanges_le {r : Nat × Nat} (h : r ∈ statementRanges b d) : r.2 ≤ b.length := by
  have hout : ∀ r ∈ (scanRun d b .init).out, r.2 ≤ b.length := by
    refine WhileLoop.Visits.inv (I := fun t => ∀ r ∈ t.out, r.2 ≤ b.length) ?_
      (scanRun_visits d b .init) (fun r hr => nomatch hr)
    intro u hu hout r hr
    have hi : u.i < b.length := of_decide_eq_true hu
    cases hat : atDelimiter b u with
    | false =>
      rw [scanStep_out hat] at hr
      exact hout r hr
    | true =>
      rw [scanStep_cut hat] at hr
      rcases List.mem_append.mp hr with hr | hr
      · exact hout r hr
      · obtain rfl := List.mem_singleton.mp hr
        exact Nat.le_of_lt hi
  rcases List.mem_append.mp h with h | h
  · exact hout r h
  · obtain rfl := List.mem_singleton.mp h
    exact Nat.le_refl _

theorem scanRun_of_visits (h : ScanVisits d b s t) : scanRun d b s = scanRun d b t :=
  WhileLoop.run_eq_of_visits (scan_measure d b) h (s.left_le b) (t.left_le b)

end RedDb.Sql
