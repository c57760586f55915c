import Mathlib
import RedDb.Transfer.ImportReader
import RedDb.Lib.JsonSyntax

/-!
# RedDb — the text of an imported array

The array reader over a buffer that is filled in pieces, and the texts it reads to the end.
It stops at the closing bracket, and takes every ASCII blank between elements.

* `buffered_items` — the pieces do not matter;
* `arrayObjects_exact` — the elements, and then the end, exactly at a text that begins with an
  array of objects, or is blank; anything else is an error.
-/

namespace RedDb.Transfer

open ByteText RedDb.Driver
open JsonSyntax (not_scalar_bracket isSpace isDigit isHexDigit isShortEscape Space Digits Integer Fraction Sign Exponent
  Number Chars Str Scalar Padded Commaed Member Enclosed ArrayOf ObjectOf Compound Level)

/-! ## A buffer that is filled in pieces -/

/-- What is left of the buffer, and its further fills. An empty buffer is filled when it is
looked at. -/
structure BufRead where
  buf : Bytes
  fills : List Bytes

def BufRead.text (s : BufRead) : Bytes := s.buf ++ s.fills.flatten

def BufRead.source (s : BufRead) : SourceFile := ⟨s.text, none⟩

def fillBuf : Bytes → List Bytes → BufRead
  | [], next :: fills => fillBuf next fills
  | buf, fills => ⟨buf, fills⟩

def BufRead.peekByte (s : BufRead) : Option UInt8 := (fillBuf s.buf s.fills).buf.head?

def BufRead.consume (s : BufRead) : BufRead :=
  ⟨(fillBuf s.buf s.fills).buf.tail, (fillBuf s.buf s.fills).fills⟩

/-- The loop goes on while a whole buffer is white space. -/
def skipWsFrom : Bytes → List Bytes → BufRead
  | buf, [] => ⟨buf.dropWhile isAsciiWhitespace, []⟩
  | buf, next :: fills =>
    if buf.dropWhile isAsciiWhitespace = [] then skipWsFrom next fills
    else ⟨buf.dropWhile isAsciiWhitespace, next :: fills⟩

def nestedFrom (depth : Int) (inStr escaped : Bool) (out : Bytes) :
    Bytes → List Bytes → Except String (Bytes × BufRead)
  | [], [] => .error "unterminated JSON value"
  | [], next :: fills => nestedFrom depth inStr escaped out next fills
  | b :: buf, fills =>
    if inStr then
      if escaped then nestedFrom depth true false (out ++ [b]) buf fills
      else if b = backslash then nestedFrom depth true true (out ++ [b]) buf fills
      else nestedFrom depth (b != doubleQuote) false (out ++ [b]) buf fills
    else if b = doubleQuote then nestedFrom depth true escaped (out ++ [b]) buf fills
    else if b = openBrace || b = openBracket then
      nestedFrom (depth + 1) false escaped (out ++ [b]) buf fills
    else if b = closeBrace || b = closeBracket then
      if depth - 1 = 0 then .ok (out ++ [b], ⟨buf, fills⟩)
      else nestedFrom (depth - 1) false escaped (out ++ [b]) buf fills
    else nestedFrom depth false escaped (out ++ [b]) buf fills
termination_by buf fills => (fills.length, buf.length)

def scalarFrom (inStr escaped : Bool) (out : Bytes) :
    Bytes → List Bytes → Except String (Bytes × BufRead)
  | [], [] => .ok (out, ⟨[], []⟩)
  | [], next :: fills => scalarFrom inStr escaped out next fills
  | b :: buf, fills =>
    if inStr then
      if escaped then scalarFrom true false (out ++ [b]) buf fills
      else if b = backslash then scalarFrom true true (out ++ [b]) buf fills
      else scalarFrom (b != doubleQuote) false (out ++ [b]) buf fills
    else if b = comma || b = closeBracket || isAsciiWhitespace b then .ok (out, ⟨b :: buf, fills⟩)
    else scalarFrom (b == doubleQuote) escaped (out ++ [b]) buf fills
termination_by buf fills => (fills.length, buf.length)

def BufRead.readJsonValueBytes (s : BufRead) : Except String (Bytes × BufRead) :=
  match s.peekByte with
  | none => .error "expected a JSON value"
  | some first =>
    if first = openBrace || first = openBracket then nestedFrom 0 false false [] s.buf s.fills
    else scalarFrom false false [] s.buf s.fills

def BufRead.toElement (firstElement : Bool) (s : BufRead) : Except String (Option BufRead) :=
  let s := skipWsFrom s.buf s.fills
  match s.peekByte with
  | none => .error "unterminated JSON array"
  | some b =>
    if b = closeBracket then .ok none
    else if b = comma then
      if firstElement then .error "unexpected ',' before the first array element"
      else .ok (some (skipWsFrom s.consume.buf s.consume.fills))
    else if firstElement then .ok (some s)
    else .error "expected ',' or ']' between array elements"

structure BufferedReader where
  reader : BufRead
  arrayStarted : Bool
  firstElement : Bool
  done : Bool

def BufferedReader.new (reader : BufRead) : BufferedReader := ⟨reader, false, true, false⟩

/-- The reader over the whole text. -/
def BufferedReader.whole (r : BufferedReader) : JsonArrayReader :=
  ⟨r.reader.source, r.arrayStarted, r.firstElement, r.done⟩

def BufferedReader.started (r : BufferedReader) : Except String (Option BufRead) :=
  if r.arrayStarted then .ok (some r.reader)
  else
    let s := skipWsFrom r.reader.buf r.reader.fills
    match s.peekByte with
    | none => .ok none
    | some b =>
      if b = openBracket then .ok (some s.consume)
      else .error "expected '[' at the start of a JSON array"

def BufferedReader.nextObject (parseJson : ParseJson) (r : BufferedReader) :
    Except String (Option JsonObject) × BufferedReader :=
  if r.done then (.ok none, r)
  else
    match r.started with
    | .error e => (.error e, r)
    | .ok none => (.ok none, { r with done := true })
    | .ok (some s) =>
      match s.toElement r.firstElement with
      | .error e => (.error e, r)
      | .ok none => (.ok none, { r with arrayStarted := true, done := true })
      | .ok (some s) =>
        match s.readJsonValueBytes with
        | .error e => (.error e, r)
        | .ok (bytes, s) =>
          match parseJsonObject parseJson bytes with
          | .error e => (.error e, r)
          | .ok obj => (.ok (some obj), ⟨s, true, false, r.done⟩)

theorem fillBuf_text (buf : Bytes) (fills : List Bytes) :
    (fillBuf buf fills).text = buf ++ fills.flatten ∧
      ((fillBuf buf fills).buf = [] → buf ++ fills.flatten = []) := by
  fun_induction fillBuf buf fills with
  | case1 next fills ih => exact ih
  | case2 buf fills h =>
    refine ⟨rfl, fun hbuf => ?_⟩
    cases fills with
    | nil =>
      rw [show buf = [] from hbuf]
      rfl
    | cons next fills => exact absurd rfl (h next fills hbuf)

theorem peekByte_source (s : BufRead) : s.source.peekByte = .ok s.peekByte := by
  obtain ⟨htext, hempty⟩ := fillBuf_text s.buf s.fills
  show SourceFile.peekByte ⟨s.text, none⟩ = _
  rw [BufRead.peekByte, BufRead.text]
  cases hbuf : (fillBuf s.buf s.fills).buf with
  | nil =>
    rw [hempty hbuf]
    rfl
  | cons b buf =>
    rw [← htext, BufRead.text, hbuf]
    rfl

theorem consume_source (s : BufRead) : s.consume.source = s.source.behindByte := by
  obtain ⟨htext, hempty⟩ := fillBuf_text s.buf s.fills
  have hgoal : s.consume.text = s.text.tail := by
    show (fillBuf s.buf s.fills).buf.tail ++ (fillBuf s.buf s.fills).fills.flatten =
      (s.buf ++ s.fills.flatten).tail
    cases hbuf : (fillBuf s.buf s.fills).buf with
    | nil =>
      rw [BufRead.text, hbuf, hempty hbuf] at htext
      rw [hempty hbuf]
      exact htext
    | cons b buf =>
      rw [← htext, BufRead.text, hbuf]
      rfl
  exact congrArg (fun text => SourceFile.mk text none) hgoal

theorem skipWsFrom_source (buf : Bytes) (fills : List Bytes) :
    (BufRead.source ⟨buf, fills⟩).skipWs = .ok (skipWsFrom buf fills).source := by
  have htext : (skipWsFrom buf fills).text = (buf ++ fills.flatten).dropWhile isAsciiWhitespace := by
    fun_induction skipWsFrom buf fills with
    | case1 buf => simp [BufRead.text]
    | case2 buf next fills h ih =>
      conv_rhs => rw [List.dropWhile_append, h]
      exact ih
    | case3 buf next fills h =>
      rw [List.dropWhile_append, if_neg (by simpa using h)]
      rfl
  show SourceFile.skipWs ⟨buf ++ fills.flatten, none⟩ = .ok ⟨(skipWsFrom buf fills).text, none⟩
  rw [htext]
  simp only [SourceFile.skipWs]
  cases (buf ++ fills.flatten).dropWhile isAsciiWhitespace <;> rfl

theorem nestedFrom_text (depth : Int) (inStr escaped : Bool) (out buf : Bytes) (fills : List Bytes) :
    (nestedFrom depth inStr escaped out buf fills).map (fun r => (r.1, r.2.text)) =
      readNested none depth inStr escaped out (buf ++ fills.flatten) := by
  fun_induction nestedFrom depth inStr escaped out buf fills with
  | case1 => rfl
  | case2 _ _ _ _ next fills ih => simpa using ih
  | _ =>
    rw [List.cons_append, readNested]
    simp_all [Except.map, BufRead.text]

theorem scalarFrom_text (inStr escaped : Bool) (out buf : Bytes) (fills : List Bytes) :
    (scalarFrom inStr escaped out buf fills).map (fun r => (r.1, r.2.text)) =
      readScalar none inStr escaped out (buf ++ fills.flatten) := by
  fun_induction scalarFrom inStr escaped out buf fills with
  | case1 => rfl
  | case2 _ _ _ next fills ih => simpa using ih
  | _ =>
    rw [List.cons_append, readScalar]
    simp_all [Except.map, BufRead.text]

theorem readJsonValueBytes_source (s : BufRead) :
    s.readJsonValueBytes.map (fun r => (r.1, r.2.source)) =
      Transfer.readJsonValueBytes s.source := by
  have hnested := nestedFrom_text 0 false false [] s.buf s.fills
  have hscalar := scalarFrom_text false false [] s.buf s.fills
  rw [BufRead.readJsonValueBytes, Transfer.readJsonValueBytes, peekByte_source]
  cases s.peekByte with
  | none => rfl
  | some first =>
    dsimp only
    split
    · rw [show readNested s.source.failure 0 false false [] s.source.text = _ from hnested.symm]
      cases nestedFrom 0 false false [] s.buf s.fills <;> rfl
    · rw [show readScalar s.source.failure false false [] s.source.text = _ from hscalar.symm]
      cases scalarFrom false false [] s.buf s.fills <;> rfl

theorem toElement_source (first : Bool) (s : BufRead) :
    (s.toElement first).map (Option.map BufRead.source) = Transfer.toElement first s.source := by
  rw [BufRead.toElement, Transfer.toElement, show s.source = BufRead.source ⟨s.buf, s.fills⟩ from rfl,
    skipWsFrom_source]
  dsimp only
  rw [peekByte_source]
  cases (skipWsFrom s.buf s.fills).peekByte with
  | none => rfl
  | some b =>
    dsimp only
    split
    · rfl
    split
    · split
      · rfl
      · rw [← consume_source]
        exact (congrArg (Except.map some) (skipWsFrom_source _ _)).symm
    · split <;> rfl

theorem started_source (r : BufferedReader) :
    r.started.map (Option.map BufRead.source) = r.whole.started := by
  rw [BufferedReader.started, JsonArrayReader.started]
  have hskip : r.whole.source.skipWs = .ok (skipWsFrom r.reader.buf r.reader.fills).source :=
    skipWsFrom_source _ _
  rw [hskip]
  dsimp only
  rw [peekByte_source]
  cases hs : r.arrayStarted with
  | true =>
    rw [show r.whole.arrayStarted = true from hs]
    rfl
  | false =>
    rw [show r.whole.arrayStarted = false from hs]
    cases (skipWsFrom r.reader.buf r.reader.fills).peekByte with
    | none => rfl
    | some b =>
      rw [if_neg Bool.false_ne_true, if_neg Bool.false_ne_true]
      dsimp only
      split
      · rw [← consume_source]
        rfl
      · rfl

/-- A call on the buffered reader is a call on the reader over the whole text. -/
theorem nextObject_whole (parseJson : ParseJson) (r : BufferedReader) :
    (r.nextObject parseJson).map id BufferedReader.whole = r.whole.nextObject parseJson := by
  rw [BufferedReader.nextObject, JsonArrayReader.nextObject, ← started_source]
  by_cases hdone : r.done = true
  · rw [if_pos hdone, if_pos (show r.whole.done = true from hdone)]
    rfl
  rw [if_neg hdone, if_neg (show ¬r.whole.done = true from hdone)]
  rcases r.started with e | _ | s
  · rfl
  · rfl
  have helement := toElement_source r.firstElement s
  dsimp only [Except.map, Option.map]
  rw [show r.whole.firstElement = r.firstElement from rfl, ← helement]
  rcases s.toElement r.firstElement with e | _ | s
  · rfl
  · rfl
  have hvalue := readJsonValueBytes_source s
  dsimp only [Except.map, Option.map]
  rw [← hvalue]
  rcases s.readJsonValueBytes with e | ⟨bytes, s⟩
  · rfl
  dsimp only [Except.map]
  cases parseJsonObject parseJson bytes <;> rfl

variable {parseJson : ParseJson}

theorem BufferedReader.nextObject_lt {r : BufferedReader} {obj : JsonObject}
    (h : (r.nextObject parseJson).1 = .ok (some obj)) :
    (r.nextObject parseJson).2.whole.size < r.whole.size := by
  have hwhole := nextObject_whole parseJson r
  have hlt : (r.whole.nextObject parseJson).1 = .ok (some obj) →
      (r.whole.nextObject parseJson).2.size < r.whole.size := JsonArrayReader.nextObject_lt
  rw [← hwhole] at hlt
  exact hlt h

/-- The buffered reader, pulled. -/
def bufferedObjects (parseJson : ParseJson) : PullReader BufferedReader JsonObject String where
  next := BufferedReader.nextObject parseJson
  size := fun r => r.whole.size
  next_lt := BufferedReader.nextObject_lt

theorem buffered_items (parseJson : ParseJson) (r : BufferedReader) :
    (bufferedObjects parseJson).items r = (arrayObjects parseJson).items r.whole := by
  have hnext : ∀ s : BufferedReader, (arrayObjects parseJson).next s.whole =
      ((bufferedObjects parseJson).next s).map id BufferedReader.whole :=
    fun s => (nextObject_whole parseJson s).symm
  have hembed := PullReader.items_embed (R := bufferedObjects parseJson)
    (Q := arrayObjects parseJson) BufferedReader.whole id
    (fun s e h => by rw [hnext]; exact h) (fun s h => by rw [hnext]; exact h)
    (fun s a h => by rw [hnext, Prod.map, h]; rfl) r
  rw [hembed, List.map_id]

/-! ## A value is read to its end -/

/-- Text that the reader of a nested value takes as a whole, at the depth it came with. -/
def Crossed (t : Bytes) : Prop :=
  ∀ (depth : Int) (out rest : Bytes), 1 ≤ depth →
    readNested none depth false false out (t ++ rest) = readNested none depth false false (out ++ t) rest

def isDull (b : UInt8) : Bool :=
  b != doubleQuote && b != openBrace && b != openBracket && b != closeBrace && b != closeBracket

variable {t : Bytes}

theorem Crossed.append {s : Bytes} (hs : Crossed s) (ht : Crossed t) : Crossed (s ++ t) := by
  intro depth out rest hdepth
  rw [List.append_assoc, hs depth out _ hdepth, ht depth _ rest hdepth, List.append_assoc]

theorem crossed_dull (h : ∀ b ∈ t, isDull b = true) : Crossed t := by
  induction t with
  | nil => exact fun depth out rest _ => by rw [List.nil_append, List.append_nil]
  | cons b t ih =>
    refine Crossed.append (s := [b]) (fun depth out rest _ => ?_) (ih fun c hc => h c (.tail _ hc))
    have hb := h b List.mem_cons_self
    simp only [isDull, Bool.and_eq_true, bne_iff_ne] at hb
    obtain ⟨⟨⟨⟨h1, h2⟩, h3⟩, h4⟩, h5⟩ := hb
    rw [List.singleton_append, readNested]
    simp [h1, h2, h3, h4, h5]

variable {b : UInt8}

theorem plain_read (hquote : b ≠ 34) (hslash : b ≠ 92) (depth : Int) (out rest : Bytes) :
    readNested none depth true false out (b :: rest) =
      readNested none depth true false (out ++ [b]) rest := by
  rw [readNested, if_pos rfl, if_neg Bool.false_ne_true, if_neg hslash, bne_iff_ne.mpr hquote]

theorem escape_read (c : UInt8) (depth : Int) (out rest : Bytes) :
    readNested none depth true false out (92 :: c :: rest) =
      readNested none depth true false (out ++ [92, c]) rest := by
  rw [readNested, if_pos rfl, if_neg Bool.false_ne_true, if_pos rfl, readNested, if_pos rfl, if_pos rfl]
  simp

theorem chars_read (h : Chars t) (depth : Int) (out rest : Bytes) :
    readNested none depth true false out (t ++ 34 :: rest) =
      readNested none depth false false (out ++ t ++ [34]) rest := by
  induction h generalizing out with
  | nil =>
    rw [List.nil_append, readNested, List.append_nil]
    rfl
  | plain hquote hslash _ _ ih =>
    rw [List.cons_append, plain_read hquote hslash, ih]
    simp
  | escaped _ _ ih =>
    simp only [List.cons_append]
    rw [escape_read, ih]
    simp
  | unit ha hb hc hd _ ih =>
    have hhex : ∀ {x : UInt8}, isHexDigit x = true → x ≠ 34 ∧ x ≠ 92 := by
      intro x hx
      constructor <;> (rintro rfl; exact absurd hx (by decide))
    simp only [List.cons_append]
    rw [escape_read, plain_read (hhex ha).1 (hhex ha).2, plain_read (hhex hb).1 (hhex hb).2,
      plain_read (hhex hc).1 (hhex hc).2, plain_read (hhex hd).1 (hhex hd).2, ih]
    simp

theorem crossed_str (h : Str t) : Crossed t := by
  obtain ⟨chars, hchars, rfl⟩ := h
  intro depth out rest _
  simp only [List.cons_append, List.append_assoc, List.nil_append]
  rw [readNested, if_neg Bool.false_ne_true, if_pos rfl, chars_read hchars]
  simp

/-- A bracket, crossed text and the bracket that closes it. -/
theorem Crossed.enclosed {opening closing : UInt8} (ht : Crossed t)
    (hopen : opening = 91 ∨ opening = 123) (hclose : closing = 93 ∨ closing = 125) (depth : Int)
    (out rest : Bytes) (hdepth : 0 ≤ depth) :
    readNested none depth false false out (opening :: t ++ [closing] ++ rest) =
      if depth = 0 then .ok (out ++ (opening :: t ++ [closing]), rest)
      else readNested none depth false false (out ++ (opening :: t ++ [closing])) rest := by
  have hread : readNested none depth false false out (opening :: t ++ [closing] ++ rest) =
      readNested none (depth + 1) false false (out ++ [opening]) (t ++ closing :: rest) := by
    simp only [List.cons_append, List.append_assoc, List.nil_append]
    rw [readNested]
    rcases hopen with rfl | rfl <;> rfl
  have hend : ∀ out, readNested none (depth + 1) false false out (closing :: rest) =
      if depth = 0 then .ok (out ++ [closing], rest)
      else readNested none depth false false (out ++ [closing]) rest := by
    intro out
    rw [readNested, if_neg Bool.false_ne_true]
    rcases hclose with rfl | rfl <;>
      rw [if_neg (by decide), if_neg (by decide), if_pos (by decide), Int.add_sub_cancel]
  rw [hread, ht _ _ _ (by omega), hend]
  simp

variable {P : Bytes → Prop}

theorem crossed_commaed (h : ∀ t, P t → Crossed t) (ht : Commaed P t) : Crossed t := by
  induction ht with
  | one hP => exact h _ hP
  | @cons t rest hP _ ih =>
    rw [← List.singleton_append, ← List.append_assoc]
    exact ((h t hP).append (crossed_dull (by decide))).append ih

theorem crossed_space (h : Space t) : Crossed t := by
  refine crossed_dull fun b hb => ?_
  have hspace := h b hb
  simp only [isSpace, Bool.or_eq_true, beq_iff_eq] at hspace
  rcases hspace with ((rfl | rfl) | rfl) | rfl <;> rfl

theorem crossed_padded (h : ∀ t, P t → Crossed t) (ht : Padded P t) : Crossed t := by
  obtain ⟨before, body, after, hb, hP, ha, rfl⟩ := ht
  exact (crossed_space hb).append ((h body hP).append (crossed_space ha))

theorem crossed_member (h : ∀ t, P t → Crossed t) (ht : Member P t) : Crossed t := by
  obtain ⟨name, value, hname, hvalue, rfl⟩ := ht
  rw [← List.singleton_append, ← List.append_assoc]
  exact ((crossed_padded (fun t => crossed_str) hname).append (crossed_dull (by decide))).append
    (crossed_padded h hvalue)

theorem crossed_number (h : Number t) : Crossed t := by
  have hdigits : ∀ {t : Bytes}, Digits t → Crossed t := by
    intro t ht
    refine crossed_dull fun b hb => ?_
    have hne : ∀ c, isDigit c = false → b ≠ c := by
      rintro c hc rfl
      exact absurd ((ht.2 _ hb).symm.trans hc) (by decide)
    simp [isDull, hne 34 rfl, hne 123 rfl, hne 91 rfl, hne 125 rfl, hne 93 rfl]
  obtain ⟨sign, int, frac, exp, hsign, hint, hfrac, hexp, rfl⟩ := h
  have hs : Crossed sign := by rcases hsign with rfl | rfl <;> exact crossed_dull (by decide)
  have hf : Crossed frac := by
    cases hfrac with
    | none => exact crossed_dull (by decide)
    | point ht => exact (crossed_dull (t := [46]) (by decide)).append (hdigits ht)
  have he : Crossed exp := by
    cases hexp with
    | none => exact crossed_dull (by decide)
    | @power e sign t he hsign ht =>
      have hhead : Crossed (e :: sign) := by
        rcases he with rfl | rfl <;> rcases hsign with rfl | rfl | rfl <;> exact crossed_dull (by decide)
      exact hhead.append (hdigits ht)
  exact hs.append ((hdigits hint.1).append (hf.append he))

theorem Enclosed.inside {opening closing : UInt8} {Item : Bytes → Prop}
    (h : Enclosed opening closing Item t) (hitem : ∀ t, Item t → Crossed t) :
    ∃ inner, Crossed inner ∧ t = opening :: inner ++ [closing] := by
  cases h with
  | empty hs => exact ⟨_, crossed_space hs, rfl⟩
  | items hj => exact ⟨_, crossed_commaed hitem hj, rfl⟩

/-- One level: a value of crossed elements is crossed. -/
theorem crossed_compound (h : ∀ t, P t → Crossed t) (ht : Compound P t) : Crossed t := by
  have henclosed : ∀ {opening closing : UInt8} {inner : Bytes}, opening = 91 ∨ opening = 123 →
      closing = 93 ∨ closing = 125 → Crossed inner → Crossed (opening :: inner ++ [closing]) := by
    intro opening closing inner hopen hclose hinner depth out rest hdepth
    rw [hinner.enclosed hopen hclose depth out rest (by omega), if_neg (by omega)]
  rcases ht with (hs | hn | rfl | rfl | rfl) | ha | ho
  · exact crossed_str hs
  · exact crossed_number hn
  · exact crossed_dull (by decide)
  · exact crossed_dull (by decide)
  · exact crossed_dull (by decide)
  · obtain ⟨inner, hinner, rfl⟩ := Enclosed.inside ha fun t => crossed_padded h
    exact henclosed (.inl rfl) (.inl rfl) hinner
  · obtain ⟨inner, hinner, rfl⟩ := Enclosed.inside ho fun t => crossed_member h
    exact henclosed (.inr rfl) (.inr rfl) hinner

theorem crossed_level {n : Nat} : ∀ t, Level n t → Crossed t := by
  induction n with
  | zero => exact fun t ht => ht.elim
  | succ n ih => exact fun t ht => crossed_compound ih ht

/-- The text of a JSON object. -/
def ObjectText (t : Bytes) : Prop := ∃ n, ObjectOf (Level n) t

theorem readNested_object (h : ObjectText t) (rest : Bytes) :
    readNested none 0 false false [] (t ++ rest) = .ok (t, rest) := by
  obtain ⟨n, ho⟩ := h
  obtain ⟨inner, hinner, rfl⟩ := Enclosed.inside ho fun t => crossed_member crossed_level
  exact hinner.enclosed (.inr rfl) (.inr rfl) 0 [] rest (by omega)

variable {bytes rest text : Bytes}

/-- What is read and what is left are the text. -/
theorem readNested_text {depth : Int} {inStr escaped : Bool} {out : Bytes}
    (h : readNested none depth inStr escaped out text = .ok (bytes, rest)) :
    out ++ text = bytes ++ rest := by
  induction text generalizing depth inStr escaped out with
  | nil => cases h
  | cons b text ih =>
    rw [readNested] at h
    rw [List.append_cons]
    repeat' split at h
    all_goals first
      | exact ih h
      | obtain ⟨rfl, rfl⟩ := Prod.mk.inj (Except.ok.inj h)
        rfl

theorem readScalar_text {inStr escaped : Bool} {out : Bytes}
    (h : readScalar none inStr escaped out text = .ok (bytes, rest)) :
    out ++ text = bytes ++ rest := by
  induction text generalizing inStr escaped out with
  | nil =>
    obtain ⟨rfl, rfl⟩ := Prod.mk.inj (Except.ok.inj h)
    rfl
  | cons b text ih =>
    rw [readScalar] at h
    repeat' split at h
    all_goals first
      | exact (List.append_cons out b text).trans (ih h)
      | obtain ⟨rfl, rfl⟩ := Prod.mk.inj (Except.ok.inj h)
        rfl

variable {s : SourceFile}

theorem readJsonValueBytes_text (h : readJsonValueBytes ⟨text, none⟩ = .ok (bytes, s)) :
    text = bytes ++ s.text ∧ s.failure = none := by
  rw [readJsonValueBytes] at h
  split at h
  · cases h
  · cases h
  · split at h
    · cases hread : readNested none 0 false false [] text with
      | error e =>
        rw [hread] at h
        cases h
      | ok read =>
        rw [hread] at h
        obtain ⟨rfl, rfl⟩ := Prod.mk.inj (Except.ok.inj h)
        exact ⟨readNested_text hread, rfl⟩
    · cases hread : readScalar none false false [] text with
      | error e =>
        rw [hread] at h
        cases h
      | ok read =>
        rw [hread] at h
        obtain ⟨rfl, rfl⟩ := Prod.mk.inj (Except.ok.inj h)
        exact ⟨readScalar_text hread, rfl⟩

theorem readJsonValueBytes_object (h : ObjectText t) (rest : Bytes) :
    readJsonValueBytes ⟨t ++ rest, none⟩ = .ok (t, ⟨rest, none⟩) := by
  have hread := readNested_object h rest
  obtain ⟨n, ho⟩ := h
  obtain ⟨inner, -, rfl⟩ := Enclosed.inside ho fun t => crossed_member crossed_level
  rw [readJsonValueBytes]
  show (readNested none 0 false false [] _).map _ = _
  rw [hread]
  rfl

/-! ## The texts that are read to the end -/

abbrev Blanks (t : Bytes) : Prop := ∀ b ∈ t, isAsciiWhitespace b = true

section Accepted

variable (parseJson : ParseJson)

/-- The text behind an element, and the elements to come. -/
inductive Behind : Bytes → List JsonObject → Prop
  | close {blanks anything : Bytes} : Blanks blanks → Behind (blanks ++ closeBracket :: anything) []
  | next {blanks more body rest : Bytes} {obj : JsonObject} {objs : List JsonObject} : Blanks blanks →
      Blanks more → ObjectText body → parseJson body = .ok (.object obj) → Behind rest objs →
      Behind (blanks ++ comma :: (more ++ (body ++ rest))) (obj :: objs)

/-- An array of objects with anything behind it, or a blank text for an empty one. -/
inductive Begins : Bytes → List JsonObject → Prop
  | blank {blanks : Bytes} : Blanks blanks → Begins blanks []
  | empty {blanks more anything : Bytes} : Blanks blanks → Blanks more →
      Begins (blanks ++ openBracket :: (more ++ closeBracket :: anything)) []
  | elements {blanks more body rest : Bytes} {obj : JsonObject} {objs : List JsonObject} :
      Blanks blanks → Blanks more → ObjectText body → parseJson body = .ok (.object obj) →
      Behind parseJson rest objs →
      Begins (blanks ++ openBracket :: (more ++ (body ++ rest))) (obj :: objs)

/-- What is taken of the JSON library: an object's text is one of the grammar, with white space
around it that does not matter. -/
def ReadsJson : Prop :=
  ∀ t obj, parseJson t = .ok (.object obj) → ∃ before body after, Space before ∧ Space after ∧
    ObjectText body ∧ parseJson body = .ok (.object obj) ∧ t = before ++ (body ++ after)

end Accepted

theorem blanks_of_space (h : Space t) : Blanks t := by
  intro b hb
  have hspace := h b hb
  simp only [isSpace, Bool.or_eq_true, beq_iff_eq] at hspace
  rcases hspace with ((rfl | rfl) | rfl) | rfl <;> rfl

theorem Blanks.append {s : Bytes} (hs : Blanks s) (ht : Blanks t) : Blanks (s ++ t) := by
  intro b hb
  rcases List.mem_append.mp hb with hb | hb
  · exact hs b hb
  · exact ht b hb

variable {blanks : Bytes}

theorem skipWs_blanks (h : Blanks blanks) (hb : isAsciiWhitespace b = false) :
    SourceFile.skipWs ⟨blanks ++ b :: rest, none⟩ = .ok ⟨b :: rest, none⟩ := by
  simp only [SourceFile.skipWs]
  rw [List.dropWhile_append_of_pos h, List.dropWhile_cons_of_neg (by simp [hb])]

theorem skipWs_text (h : SourceFile.skipWs ⟨text, none⟩ = .ok s) :
    s.failure = none ∧ ∃ blanks, Blanks blanks ∧ text = blanks ++ s.text := by
  simp only [SourceFile.skipWs] at h
  split at h
  · next heq => cases heq
  next rest failure _ =>
  obtain rfl := Except.ok.inj h
  exact ⟨rfl, text.takeWhile isAsciiWhitespace, fun b hb => List.mem_takeWhile_imp hb,
    List.takeWhile_append_dropWhile.symm⟩

theorem ObjectText.head {t : Bytes} (h : ObjectText t) : ∃ rest, t = openBrace :: rest := by
  obtain ⟨n, ho⟩ := h
  cases ho <;> exact ⟨_, rfl⟩

theorem peekByte_text (h : s.peekByte = .ok (some b)) : s.text = b :: s.behindByte.text := by
  rcases s with ⟨_ | ⟨c, rest⟩, _ | e⟩
  · cases h
  · cases h
  all_goals
    obtain rfl := Option.some.inj (Except.ok.inj h)
    rfl

variable {first : Bool}

/-- What stands between two elements. -/
theorem toElement_text {found : Option SourceFile} (h : toElement first ⟨text, none⟩ = .ok found) :
    (found = none ∧ ∃ blanks anything, Blanks blanks ∧ text = blanks ++ closeBracket :: anything) ∨
    ∃ s blanks more, found = some s ∧ s.failure = none ∧ Blanks blanks ∧ Blanks more ∧
      text = blanks ++ ((if first then [] else [comma]) ++ (more ++ s.text)) := by
  rw [toElement] at h
  split at h
  · cases h
  next s hskip =>
  obtain ⟨hfailure, blanks, hblanks, rfl⟩ := skipWs_text hskip
  split at h
  · cases h
  · cases h
  next b hpeek =>
  have htext := peekByte_text hpeek
  split at h
  · next hclose =>
    rw [hclose] at htext
    exact .inl ⟨(Except.ok.inj h).symm, blanks, _, hblanks, by rw [htext]⟩
  split at h
  · next hcomma =>
    cases first with
    | true => cases h
    | false =>
      rw [if_neg Bool.false_ne_true] at h
      cases hnext : s.behindByte.skipWs with
      | error e =>
        rw [hnext] at h
        cases h
      | ok s' =>
        rw [hnext] at h
        rw [SourceFile.behindByte, hfailure] at hnext
        obtain ⟨hfailure', more, hmore, hrest⟩ := skipWs_text hnext
        refine .inr ⟨s', blanks, more, (Except.ok.inj h).symm, hfailure', hblanks, hmore, ?_⟩
        rw [htext, hcomma, SourceFile.behindByte, hrest]
        rfl
  · cases first with
    | true =>
      refine .inr ⟨s, blanks, [], (Except.ok.inj h).symm, hfailure, hblanks, ?_, rfl⟩
      exact fun _ hb => absurd hb List.not_mem_nil
    | false => cases h

variable {r : JsonArrayReader}

/-- A call that stands behind the opening bracket. -/
theorem nextObject_text (hjson : ReadsJson parseJson) {found : Option JsonObject}
    (h : JsonArrayReader.nextObject parseJson ⟨⟨text, none⟩, true, first, false⟩ = (.ok found, r)) :
    (found = none ∧ ∃ blanks anything, Blanks blanks ∧ text = blanks ++ closeBracket :: anything) ∨
    ∃ obj blanks more body after rest, found = some obj ∧ r = ⟨⟨rest, none⟩, true, false, false⟩ ∧
      Blanks blanks ∧ Blanks more ∧ Blanks after ∧ ObjectText body ∧
      parseJson body = .ok (.object obj) ∧
      text = blanks ++ ((if first then [] else [comma]) ++ (more ++ (body ++ (after ++ rest)))) := by
  rw [JsonArrayReader.nextObject, if_neg Bool.false_ne_true,
    show JsonArrayReader.started ⟨⟨text, none⟩, true, first, false⟩ = .ok (some ⟨text, none⟩) from rfl] at h
  dsimp only at h
  cases helement : toElement first ⟨text, none⟩ with
  | error e =>
    rw [helement] at h
    cases h
  | ok element =>
  rw [helement] at h
  rcases toElement_text helement with ⟨rfl, hclose⟩ | ⟨s, blanks, more, rfl, hfailure, hb, hm, htext⟩
  · cases h
    exact .inl ⟨rfl, hclose⟩
  obtain ⟨source, failure⟩ := s
  obtain rfl : failure = none := hfailure
  dsimp only at h
  cases hvalue : readJsonValueBytes ⟨source, none⟩ with
  | error e =>
    rw [hvalue] at h
    cases h
  | ok value =>
  rw [hvalue] at h
  dsimp only at h
  obtain ⟨hsource, hrest⟩ := readJsonValueBytes_text hvalue
  unfold parseJsonObject at h
  cases hparse : parseJson value.1 with
  | error e =>
    rw [hparse] at h
    cases h
  | ok doc =>
  rw [hparse] at h
  cases doc with
  | other => cases h
  | object obj =>
  obtain ⟨before, body, after, hbefore, hafter, hobject, hbody, hbytes⟩ := hjson _ _ hparse
  obtain ⟨hfound, hr⟩ := Prod.mk.inj h
  refine .inr ⟨obj, blanks, more ++ before, body, after, value.2.text, (Except.ok.inj hfound).symm, ?_, hb,
    hm.append (blanks_of_space hbefore), blanks_of_space hafter, hobject, hbody, ?_⟩
  · rw [← hr, ← hrest]
  · rw [htext, show source = _ from hsource, hbytes]
    simp only [List.append_assoc]

variable {objs : List JsonObject}

theorem Behind.pad
    (hb : Blanks blanks) (h : Behind parseJson text objs) : Behind parseJson (blanks ++ text) objs := by
  cases h with
  | close hblanks =>
    rw [← List.append_assoc]
    exact .close (hb.append hblanks)
  | next hblanks hmore hobject hparse hrest =>
    rw [← List.append_assoc]
    exact .next (hb.append hblanks) hmore hobject hparse hrest

variable {body : Bytes}

section Exact

variable {parseJson : ParseJson}

theorem arrayObjects_next (r : JsonArrayReader) :
    (arrayObjects parseJson).next r = r.nextObject parseJson := rfl

/-- An element's call, from where the element stands. -/
theorem nextObject_element {obj : JsonObject}
    (helement : toElement first ⟨text, none⟩ = .ok (some ⟨body ++ rest, none⟩))
    (hobject : ObjectText body) (hparse : parseJson body = .ok (.object obj)) :
    JsonArrayReader.nextObject parseJson ⟨⟨text, none⟩, true, first, false⟩ =
      (.ok (some obj), ⟨⟨rest, none⟩, true, false, false⟩) := by
  have hread : parseJsonObject parseJson body = .ok obj := by
    unfold parseJsonObject
    rw [hparse]
  rw [JsonArrayReader.nextObject, if_neg Bool.false_ne_true,
    show JsonArrayReader.started ⟨⟨text, none⟩, true, first, false⟩ = .ok (some ⟨text, none⟩) from rfl]
  dsimp only
  rw [helement]
  dsimp only
  rw [readJsonValueBytes_object hobject]
  dsimp only
  rw [hread]

theorem nextObject_close {anything : Bytes} (hb : Blanks blanks) :
    (JsonArrayReader.nextObject parseJson
      ⟨⟨blanks ++ closeBracket :: anything, none⟩, true, first, false⟩).1 = .ok none := by
  rw [JsonArrayReader.nextObject, if_neg Bool.false_ne_true,
    show JsonArrayReader.started ⟨⟨blanks ++ closeBracket :: anything, none⟩, true, first, false⟩ =
      .ok (some ⟨blanks ++ closeBracket :: anything, none⟩) from rfl]
  dsimp only
  rw [toElement, skipWs_blanks hb rfl]
  rfl

theorem toElement_first {more : Bytes} (hm : Blanks more) (ho : ObjectText body) :
    toElement true ⟨more ++ (body ++ rest), none⟩ = .ok (some ⟨body ++ rest, none⟩) := by
  obtain ⟨inner, rfl⟩ := ho.head
  rw [toElement, List.cons_append, skipWs_blanks hm rfl]
  rfl

theorem toElement_next {more : Bytes} (hb : Blanks blanks) (hm : Blanks more)
    (ho : ObjectText body) : toElement false ⟨blanks ++ comma :: (more ++ (body ++ rest)), none⟩ =
      .ok (some ⟨body ++ rest, none⟩) := by
  obtain ⟨inner, rfl⟩ := ho.head
  rw [toElement, skipWs_blanks hb rfl]
  show (SourceFile.skipWs ⟨more ++ _, none⟩).map some = _
  rw [List.cons_append, skipWs_blanks hm rfl]
  rfl

theorem behind_items (h : Behind parseJson text objs) :
    (arrayObjects parseJson).items ⟨⟨text, none⟩, true, false, false⟩ = (objs, none) := by
  induction h with
  | close hb => exact PullReader.items_end (nextObject_close hb)
  | @next blanks more body rest _ _ hb hm hobject hparse _ ih =>
    have helement : toElement false ⟨blanks ++ comma :: (more ++ (body ++ rest)), none⟩ =
        .ok (some ⟨body ++ rest, none⟩) := toElement_next hb hm hobject
    have hnext := nextObject_element helement hobject hparse
    rw [PullReader.items_cons (congrArg Prod.fst hnext), arrayObjects_next, hnext, ih]

/-- Behind an element, what ends without an error is the rest of an array. -/
theorem items_behind (hjson : ReadsJson parseJson)
    (h : (arrayObjects parseJson).items r = (objs, none)) :
    ∀ text, r = ⟨⟨text, none⟩, true, false, false⟩ → Behind parseJson text objs := by
  induction r using PullReader.items.induct (arrayObjects parseJson) generalizing objs with
  | case1 r e he =>
    rw [PullReader.items_error he] at h
    cases h
  | case2 r hend =>
    rintro text rfl
    rw [PullReader.items_end hend] at h
    cases h
    rcases nextObject_text hjson (Prod.ext hend rfl) with ⟨-, blanks, anything, hb, rfl⟩ | ⟨_, _, _, _, _, _, hsome, _⟩
    · exact .close hb
    · cases hsome
  | case3 r obj hobj ih =>
    rintro text rfl
    rw [PullReader.items_cons hobj] at h
    rcases nextObject_text hjson (Prod.ext hobj rfl) with ⟨hnone, -⟩ | ⟨obj', blanks, more, body, after, rest,
      hsome, hr, hb, hm, ha, hobject, hparse, rfl⟩
    · cases hnone
    cases hsome
    cases objs with
    | nil => cases h
    | cons o objs =>
      obtain ⟨hcons, herr⟩ := Prod.mk.inj h
      obtain ⟨rfl, hrest⟩ := List.cons.inj hcons
      have htail := ih (Prod.ext hrest herr) rest hr
      show Behind parseJson (blanks ++ comma :: (more ++ (body ++ (after ++ rest)))) _
      exact .next hb hm hobject hparse (htail.pad ha)

/-- A call sees its source from behind the opening bracket on. -/
theorem items_started {r' : JsonArrayReader} (hdone : r.done = false) (hdone' : r'.done = false)
    (hfirst : r.firstElement = r'.firstElement) (hstarted : r.started = r'.started) :
    (arrayObjects parseJson).items r = (arrayObjects parseJson).items r' := by
  have hnext : (r.nextObject parseJson).1 = (r'.nextObject parseJson).1 ∧
      ∀ obj, (r.nextObject parseJson).1 = .ok (some obj) →
        (r.nextObject parseJson).2 = (r'.nextObject parseJson).2 := by
    rw [JsonArrayReader.nextObject, JsonArrayReader.nextObject, hdone, hdone', hfirst, hstarted,
      if_neg Bool.false_ne_true, if_neg Bool.false_ne_true]
    rcases r'.started with e | _ | s
    · exact ⟨rfl, fun obj h => by cases h⟩
    · exact ⟨rfl, fun obj h => by cases h⟩
    dsimp only
    rcases toElement r'.firstElement s with e | _ | s
    · exact ⟨rfl, fun obj h => by cases h⟩
    · exact ⟨rfl, fun obj h => by cases h⟩
    dsimp only
    rcases readJsonValueBytes s with e | ⟨bytes, s⟩
    · exact ⟨rfl, fun obj h => by cases h⟩
    dsimp only
    rcases parseJsonObject parseJson bytes with e | obj
    · exact ⟨rfl, fun obj h => by cases h⟩
    · exact ⟨rfl, fun obj h => rfl⟩
  rcases hpulled : (r.nextObject parseJson).1 with e | _ | obj
  · rw [PullReader.items_error (R := arrayObjects parseJson) hpulled,
      PullReader.items_error (R := arrayObjects parseJson) (hnext.1.symm.trans hpulled)]
  · rw [PullReader.items_end (R := arrayObjects parseJson) hpulled,
      PullReader.items_end (R := arrayObjects parseJson) (hnext.1.symm.trans hpulled)]
  · rw [PullReader.items_cons (R := arrayObjects parseJson) hpulled,
      PullReader.items_cons (R := arrayObjects parseJson) (hnext.1.symm.trans hpulled),
      arrayObjects_next, arrayObjects_next, hnext.2 obj hpulled]

theorem items_open (hb : Blanks blanks) :
    (arrayObjects parseJson).items (.new ⟨blanks ++ openBracket :: text, none⟩) =
      (arrayObjects parseJson).items ⟨⟨text, none⟩, true, true, false⟩ := by
  refine items_started rfl rfl rfl ?_
  simp only [JsonArrayReader.started, JsonArrayReader.new,
    skipWs_blanks hb (show isAsciiWhitespace openBracket = false from rfl)]
  rfl

/-- What the first call finds ahead of anything else. -/
theorem items_new (hb : Blanks blanks) :
    (arrayObjects parseJson).items (.new ⟨blanks, none⟩) = ([], none) ∧
      ∀ b rest, isAsciiWhitespace b = false → b ≠ openBracket →
        ((arrayObjects parseJson).items (.new ⟨blanks ++ b :: rest, none⟩)).2 ≠ none := by
  constructor
  · refine PullReader.items_end ?_
    have hskip : SourceFile.skipWs ⟨blanks, none⟩ = .ok ⟨[], none⟩ := by
      simp only [SourceFile.skipWs, List.dropWhile_eq_nil_iff.mpr hb]
    have hstarted : (JsonArrayReader.new ⟨blanks, none⟩).started = .ok none := by
      simp only [JsonArrayReader.started, JsonArrayReader.new, hskip]
      rfl
    rw [arrayObjects_next, JsonArrayReader.nextObject, hstarted]
    rfl
  · intro b rest hblank hopen
    have hstarted : (JsonArrayReader.new ⟨blanks ++ b :: rest, none⟩).started =
        .error "expected '[' at the start of a JSON array" := by
      simp only [JsonArrayReader.started, JsonArrayReader.new, skipWs_blanks hb hblank]
      exact if_neg hopen
    have herror : ((arrayObjects parseJson).next (.new ⟨blanks ++ b :: rest, none⟩)).1 =
        .error "expected '[' at the start of a JSON array" := by
      rw [arrayObjects_next, JsonArrayReader.nextObject, hstarted]
      rfl
    rw [PullReader.items_error herror]
    exact Option.some_ne_none _

/-- A text is read to its end, as these objects, exactly when it begins with an array of them or
is blank, however the buffer is filled; every other text is an error. -/
theorem arrayObjects_exact (hjson : ReadsJson parseJson) (reader : BufRead) (objs : List JsonObject) :
    (bufferedObjects parseJson).items (.new reader) = (objs, none) ↔
      Begins parseJson reader.text objs := by
  rw [buffered_items]
  show (arrayObjects parseJson).items (.new ⟨reader.text, none⟩) = _ ↔ _
  generalize reader.text = text
  constructor
  · intro h
    obtain ⟨blanks, hb, rest, rfl, hrest⟩ : ∃ blanks, Blanks blanks ∧ ∃ rest, text = blanks ++ rest ∧
        ∀ b, rest.head? = some b → isAsciiWhitespace b = false :=
      ⟨text.takeWhile isAsciiWhitespace, fun b hb => List.mem_takeWhile_imp hb, _,
        List.takeWhile_append_dropWhile.symm, fun b hb => by
          have := List.head?_dropWhile_not isAsciiWhitespace text
          rw [hb] at this
          simpa using this⟩
    cases rest with
    | nil =>
      rw [List.append_nil, (items_new hb).1] at h
      cases h
      rw [List.append_nil]
      exact .blank hb
    | cons b rest =>
      by_cases hopen : b = openBracket
      · subst hopen
        rw [items_open hb] at h
        rcases hpulled : JsonArrayReader.nextObject parseJson ⟨⟨rest, none⟩, true, true, false⟩ with
          ⟨e | found, r⟩
        · rw [PullReader.items_error (R := arrayObjects parseJson) (congrArg Prod.fst hpulled)] at h
          cases h
        rcases nextObject_text hjson hpulled with ⟨rfl, more, anything, hm, rfl⟩ |
          ⟨obj, more, more', body, after, tail, rfl, rfl, hm, hm', ha, hobject, hparse, rfl⟩
        · rw [PullReader.items_end (R := arrayObjects parseJson) (congrArg Prod.fst hpulled)] at h
          cases h
          exact .empty hb hm
        rw [PullReader.items_cons (R := arrayObjects parseJson) (congrArg Prod.fst hpulled),
          arrayObjects_next, hpulled] at h
        cases objs with
        | nil => cases h
        | cons o objs =>
          obtain ⟨hcons, herr⟩ := Prod.mk.inj h
          obtain ⟨rfl, hitems⟩ := List.cons.inj hcons
          have htail := items_behind hjson (Prod.ext hitems herr) tail rfl
          show Begins parseJson (blanks ++ openBracket :: (more ++ (more' ++ (body ++ (after ++ tail))))) _
          rw [← List.append_assoc more]
          exact .elements hb (hm.append hm') hobject hparse (htail.pad ha)
      · exact absurd (congrArg Prod.snd h) ((items_new hb).2 b rest (hrest b rfl) hopen)
  · rintro (hb | ⟨hb, hm⟩ | @⟨blanks, more, body, rest, obj, objs, hb, hm, hobject, hparse, hrest⟩)
    · exact (items_new hb).1
    · rw [items_open hb]
      exact PullReader.items_end (nextObject_close hm)
    · have helement : toElement true ⟨more ++ (body ++ rest), none⟩ = .ok (some ⟨body ++ rest, none⟩) :=
        toElement_first hm hobject
      have hnext := nextObject_element helement hobject hparse
      rw [items_open hb, PullReader.items_cons (congrArg Prod.fst hnext), arrayObjects_next, hnext,
        behind_items hrest]

end Exact

/-! ## One object -/

def sampleText : Bytes := [123, 34, 97, 34, 58, 49, 125]

def sampleObject : JsonObject := [([97], .number [49])]

def sampleParse : ParseJson := fun t =>
  if t = sampleText then .ok (.object sampleObject) else .error "expected value"

theorem sampleText_object : ObjectText sampleText := by
  have hnil : Space [] := fun _ hc => absurd hc List.not_mem_nil
  have hname : Padded Str [34, 97, 34] :=
    ⟨[], _, [], hnil, ⟨[97], .plain (by decide) (by decide) (by decide) .nil, rfl⟩, hnil, rfl⟩
  have hone : Number [49] :=
    ⟨[], [49], [], [], .inl rfl, ⟨⟨by decide, by decide⟩, fun h => absurd h (by decide)⟩, .none, .none, rfl⟩
  have hvalue : Padded (Level 1) [49] := ⟨[], [49], [], hnil, .inl (.inr (.inl hone)), hnil, rfl⟩
  have hmember : Member (Level 1) ([34, 97, 34] ++ 58 :: [49]) := ⟨_, _, hname, hvalue, rfl⟩
  have hobject : ObjectOf (Level 1) (123 :: ([34, 97, 34] ++ 58 :: [49]) ++ [125]) := .items (.one hmember)
  exact ⟨1, hobject⟩

theorem sampleParse_reads : ReadsJson sampleParse := by
  intro t obj h
  rw [sampleParse] at h
  split at h
  · next htext =>
    obtain rfl := JsonDoc.object.inj (Except.ok.inj h)
    have hnil : Space [] := fun _ hc => absurd hc List.not_mem_nil
    exact ⟨[], sampleText, [], hnil, hnil, sampleText_object, rfl, htext⟩
  · cases h

/-- Two objects, the first in two fills of the buffer. -/
theorem arrayObjects_exact_two :
    (bufferedObjects sampleParse).items (.new ⟨[91, 32, 123, 34], [[97, 34, 58, 49, 125, 32, 44],
      [123, 34, 97, 34, 58, 49, 125, 93]]⟩) = ([sampleObject, sampleObject], none) := by
  refine (arrayObjects_exact sampleParse_reads _ _).mpr ?_
  have hlast : Behind sampleParse ([] ++ [93]) [] := .close (by decide)
  have hbehind : Behind sampleParse ([32] ++ comma :: ([] ++ (sampleText ++ [93]))) [sampleObject] :=
    .next (by decide) (by decide) sampleText_object rfl hlast
  have hbegins : Begins sampleParse ([] ++ openBracket :: ([32] ++ (sampleText ++ _)))
      [sampleObject, sampleObject] :=
    .elements (by decide) (by decide) sampleText_object rfl hbehind
  exact hbegins

/-- Text behind the array is not looked at, and not a JSON text. -/
theorem text_behind_unread :
    (bufferedObjects sampleParse).items (.new ⟨[91, 93, 120], []⟩) = ([], none) ∧
      ¬∃ n, Padded (Level n) [91, 93, 120] := by
  constructor
  · have hopen : (arrayObjects sampleParse).items (.new ⟨[] ++ openBracket :: [93, 120], none⟩) = _ :=
      items_open (by decide)
    have hclose : (JsonArrayReader.nextObject sampleParse
        ⟨⟨[] ++ closeBracket :: [120], none⟩, true, true, false⟩).1 = .ok none := nextObject_close (by decide)
    rw [buffered_items]
    exact hopen.trans (PullReader.items_end hclose)
  · rintro ⟨n, before, body, after, hb, hlevel, ha, htext⟩
    obtain rfl : before = [] := by
      cases before with
      | nil => rfl
      | cons c before =>
        have hspace := hb c List.mem_cons_self
        rw [← (List.cons.inj htext).1] at hspace
        exact absurd hspace (by decide)
    have hend : after = [] ∧ body = [91, 93, 120] := by
      rcases List.eq_nil_or_concat after with rfl | ⟨after, c, rfl⟩
      · exact ⟨rfl, by simpa using htext.symm⟩
      have hlast := congrArg List.getLast? htext
      rw [List.concat_eq_append, List.nil_append, ← List.append_assoc, List.getLast?_concat] at hlast
      have hspace := ha c (by simp)
      rw [← Option.some.inj hlast] at hspace
      exact absurd hspace (by decide)
    obtain ⟨rfl, rfl⟩ := hend
    cases n with
    | zero => exact hlevel
    | succ n =>
      rcases hlevel with hs | ha | ho
      · exact not_scalar_bracket _ hs
      · generalize htext : ([91, 93, 120] : Bytes) = text at ha
        cases ha <;>
        · have hlast := congrArg List.getLast? htext
          rw [List.getLast?_concat] at hlast
          exact absurd hlast (by decide)
      · generalize htext : ([91, 93, 120] : Bytes) = text at ho
        cases ho <;> exact absurd (List.cons.inj htext).1 (by decide)

end RedDb.Transfer
