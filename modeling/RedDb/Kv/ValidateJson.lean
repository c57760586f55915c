import RedDb.Kv.JsonTree
import RedDb.Lib.JsonSyntax
import Mathlib.Data.List.TakeWhile

/-!
# RedDb — the check of an edited JSON document

`validateJson` scans a document before it is sent. The scanners take what is left of the text
and give back what they leave of it; a fault carries the text it stands at.

* `validateJson_exact` — a text passes exactly when it is one value of the grammar, at most
  `MAX_JSON_DEPTH` containers around any value of it;
* `nesting_unlike_limit` — the containers of a text that passes may nest one deeper.
-/

namespace RedDb.Kv

open JsonSyntax (not_scalar_bracket isSpace isDigit isHexDigit isShortEscape Space Digits Integer Fraction Sign Exponent
  Number Chars Str Scalar trueText falseText nullText Padded Commaed Member Enclosed ArrayOf ObjectOf
  Compound Tower Level Nested Begins)

def MAX_JSON_DEPTH : Nat := 128

/-! ## The scanners -/

/-- A fault, with the text from where it stands on. -/
structure JsonSyntaxError where
  here : Bytes
  message : String

def JsonSyntaxError.offset (text : Bytes) (e : JsonSyntaxError) : Nat := text.length - e.here.length

/-- What a scanner leaves of the text, or its fault; `none` where a loop is out of passes. -/
abbrev Scanned := Except (Option JsonSyntaxError) Bytes

def err (here : Bytes) (message : String) : Scanned := .error (some ⟨here, message⟩)

def skipWs (b : Bytes) : Bytes := b.dropWhile isSpace

/-- The inside of a string, and its closing quote; `start` is where the string begins. -/
def scanChars (start : Bytes) : Bytes → Scanned
  | [] => err start "unterminated string"
  | x :: rest =>
    if x = 34 then .ok rest
    else if x = 92 then
      match rest with
      | [] => err start "unterminated string"
      | c :: more =>
        if isShortEscape c then scanChars start more
        else if c = 117 then
          match more with
          | h1 :: h2 :: h3 :: h4 :: behind =>
            if isHexDigit h1 && isHexDigit h2 && isHexDigit h3 && isHexDigit h4 then
              scanChars start behind
            else err (x :: rest) "`\\u` needs four hex digits"
          | _ => err (x :: rest) "`\\u` needs four hex digits"
        else err rest "unknown string escape"
    else if x < 32 then err (x :: rest) "a raw control character must be escaped"
    else scanChars start rest

def scanString (b : Bytes) : Scanned := scanChars b b.tail

/-- One digit or more. -/
def scanDigits (message : String) (b : Bytes) : Scanned :=
  if b.takeWhile isDigit = [] then err b message else .ok (b.dropWhile isDigit)

def scanInteger (b : Bytes) : Scanned := do
  let rest ← scanDigits "expected a digit" b
  if b.head? = some 48 ∧ 1 < (b.takeWhile isDigit).length then
    err b "a number must not have a leading zero"
  else pure rest

def scanFraction (b : Bytes) : Scanned :=
  if b.head? = some 46 then scanDigits "expected a digit after `.`" b.tail else .ok b

def scanExponent (b : Bytes) : Scanned :=
  if b.head? = some 101 ∨ b.head? = some 69 then
    let b := b.tail
    let b := if b.head? = some 43 ∨ b.head? = some 45 then b.tail else b
    scanDigits "expected a digit in the exponent" b
  else .ok b

def scanNumber (b : Bytes) : Scanned := do
  let b ← scanInteger (if b.head? = some 45 then b.tail else b)
  let b ← scanFraction b
  scanExponent b

def scanLiteral (lit b : Bytes) : Scanned :=
  if lit.isPrefixOf b then .ok (b.drop lit.length) else err b "expected `true`, `false` or `null`"

/-- The loop over a container's items; each pass takes an item and a comma. -/
@[grind =] def scanItems (item : Bytes → Scanned) (close : UInt8) (message : String) : Nat → Bytes → Scanned
  | 0, _ => .error none
  | passes + 1, b => do
    let rest ← item b
    if rest.head? = some 44 then scanItems item close message passes (skipWs rest.tail)
    else if rest.head? = some close then pure rest.tail
    else err rest message

def scanContainer (item : Bytes → Scanned) (close : UInt8) (message : String) (b : Bytes) : Scanned :=
  let inside := skipWs b.tail
  if inside.head? = some close then .ok inside.tail
  else scanItems item close message (b.length + 1) inside

def scanMember (value : Bytes → Scanned) (b : Bytes) : Scanned := do
  if b.head? ≠ some 34 then err b "expected a quoted member name"
  else
    let rest := skipWs (← scanString b)
    if rest.head? ≠ some 58 then err rest "expected `:` after a member name"
    else
      let rest ← value (skipWs rest.tail)
      pure (skipWs rest)

def scanElement (value : Bytes → Scanned) (b : Bytes) : Scanned := do
  let rest ← value b
  pure (skipWs rest)

def scanObject (value : Bytes → Scanned) : Bytes → Scanned :=
  scanContainer (scanMember value) 125 "expected `,` or `\x7d`"

def scanArray (value : Bytes → Scanned) : Bytes → Scanned :=
  scanContainer (scanElement value) 93 "expected `,` or `]`"

/-- A value, its elements scanned by `value`. -/
def scanCompound (value : Bytes → Scanned) (b : Bytes) : Scanned :=
  match b.head? with
  | none => err b "expected a value, found end of input"
  | some c =>
    if c = 123 then scanObject value b
    else if c = 91 then scanArray value b
    else if c = 34 then scanString b
    else if c = 116 then scanLiteral trueText b
    else if c = 102 then scanLiteral falseText b
    else if c = 110 then scanLiteral nullText b
    else if c = 45 ∨ isDigit c = true then scanNumber b
    else err b "expected a value"

/-- `levels` is what is left of the depth: `MAX_JSON_DEPTH + 1 - depth` of the source's. -/
def scanValue : (levels : Nat) → Bytes → Scanned
  | 0, b => err b "nested too deeply"
  | levels + 1, b => scanCompound (scanValue levels) b

def validateJson (text : Bytes) : Except (Option JsonSyntaxError) Unit := do
  let start := skipWs text
  if start = [] then .error (some ⟨start, "expected a JSON value, found nothing"⟩)
  let rest ← scanValue (MAX_JSON_DEPTH + 1) start
  let rest := skipWs rest
  if rest ≠ [] then .error (some ⟨rest, "unexpected trailing input after the value"⟩)

/-! ## White space -/

variable {s t : Bytes}

theorem skipWs_pad (hs : Space s) : skipWs (s ++ t) = skipWs t :=
  List.dropWhile_append_of_pos hs

theorem skipWs_cons {c : UInt8} (hc : Begins c) : skipWs (c :: t) = c :: t := by
  simp [skipWs, hc.1]

theorem skipWs_space (b : Bytes) : ∃ s, Space s ∧ b = s ++ skipWs b :=
  ⟨b.takeWhile isSpace, fun _ h => List.mem_takeWhile_imp h, List.takeWhile_append_dropWhile.symm⟩

theorem skipWs_length (b : Bytes) : (skipWs b).length ≤ b.length := by
  obtain ⟨s, -, hb⟩ := skipWs_space b
  have := congrArg List.length hb
  simp only [List.length_append] at this
  omega

/-- What may stand behind a value: nothing, white space, or what ends an item. -/
def Follow (r : Bytes) : Prop :=
  ∀ c, r.head? = some c → isSpace c = true ∨ c = 44 ∨ c = 93 ∨ c = 125

/-- An item ends here. -/
def Closes (r : Bytes) : Prop := ∃ c rest, r = c :: rest ∧ (c = 44 ∨ c = 93 ∨ c = 125)

variable {r : Bytes}

theorem Closes.skipWs (h : Closes r) : skipWs r = r := by
  obtain ⟨c, rest, rfl, rfl | rfl | rfl⟩ := h <;> rfl

theorem Follow.pad (hs : Space s) (hr : Follow r) : Follow (s ++ r) := by
  intro c hc
  cases s with
  | nil => exact hr c hc
  | cons d s => exact .inl (Option.some.inj hc ▸ hs d List.mem_cons_self)

theorem Closes.follow (h : Closes r) : Follow r := by
  obtain ⟨d, rest, rfl, hd⟩ := h
  intro c hc
  exact .inr (Option.some.inj hc ▸ hd)

/-! ## Strings and literals -/

variable {b : Bytes}

theorem scanChars_sound {start : Bytes} (h : scanChars start b = .ok r) :
    ∃ t, Chars t ∧ b = t ++ 34 :: r := by
  fun_induction scanChars start b with
  | case2 rest => exact ⟨[], .nil, by rw [Except.ok.inj h]; rfl⟩
  | case4 c more hc hx ih =>
    obtain ⟨t, ht, rfl⟩ := ih h
    exact ⟨92 :: c :: t, .escaped hc ht, rfl⟩
  | case5 _ _ _ _ behind hhex hx hu ih =>
    obtain ⟨t, ht, rfl⟩ := ih h
    simp only [Bool.and_eq_true] at hhex
    obtain ⟨⟨⟨h1, h2⟩, h3⟩, h4⟩ := hhex
    exact ⟨92 :: 117 :: _ :: _ :: _ :: _ :: t, .unit h1 h2 h3 h4 ht, rfl⟩
  | case10 x rest hquote hslash hlow ih =>
    obtain ⟨t, ht, rfl⟩ := ih h
    exact ⟨x :: t, .plain hquote hslash (UInt8.not_lt.mp hlow) ht, rfl⟩
  | _ => exact absurd h (by simp [err])

theorem scanChars_complete {start : Bytes} (h : Chars t) :
    scanChars start (t ++ 34 :: r) = .ok r := by
  induction h with
  | nil =>
    rw [List.nil_append, scanChars.eq_def]
    rfl
  | plain hquote hslash hlow _ ih =>
    rw [List.cons_append, scanChars.eq_def]
    dsimp only
    rw [if_neg hquote, if_neg hslash, if_neg (UInt8.not_lt.mpr hlow), ih]
  | escaped hc _ ih =>
    rw [List.cons_append, scanChars.eq_def]
    dsimp only [List.cons_append]
    rw [if_neg (by decide), if_pos rfl, if_pos hc, ih]
  | unit ha hb hc hd _ ih =>
    rw [List.cons_append, scanChars.eq_def]
    dsimp only [List.cons_append]
    rw [if_neg (by decide), if_pos rfl, if_neg (by decide), if_pos rfl, ha, hb, hc, hd, ih]
    rfl

theorem scanChars_stops (start b : Bytes) : scanChars start b ≠ .error none := by
  fun_induction scanChars start b with
  | case2 => simp
  | case4 _ _ _ _ ih => exact ih
  | case5 _ _ _ _ _ _ _ _ ih => exact ih
  | case10 _ _ _ _ _ ih => exact ih
  | _ => simp [err]

theorem scanLiteral_sound {lit : Bytes} (h : scanLiteral lit b = .ok r) : b = lit ++ r := by
  rw [scanLiteral] at h
  split at h
  · next hp =>
    obtain ⟨rest, rfl⟩ := List.isPrefixOf_iff_prefix.mp hp
    rw [List.drop_left] at h
    rw [Except.ok.inj h]
  · exact absurd h (by simp [err])

theorem scanLiteral_complete (lit r : Bytes) : scanLiteral lit (lit ++ r) = .ok r := by
  rw [scanLiteral, if_pos (List.isPrefixOf_iff_prefix.mpr (List.prefix_append _ _)), List.drop_left]

theorem scanLiteral_stops (lit b : Bytes) : scanLiteral lit b ≠ .error none := by
  rw [scanLiteral]
  split <;> simp [err]

/-! ## Numbers -/

/-- No digit stands here. -/
def NoDigit (r : Bytes) : Prop := ∀ c, r.head? = some c → isDigit c = false

theorem takeWhile_digits (ht : ∀ c ∈ t, isDigit c = true) (hr : NoDigit r) :
    (t ++ r).takeWhile isDigit = t ∧ (t ++ r).dropWhile isDigit = r := by
  rw [List.takeWhile_append_of_pos ht, List.dropWhile_append_of_pos ht]
  cases r with
  | nil => simp
  | cons c r => simp [hr c rfl]

theorem scanDigits_sound {message : String} (h : scanDigits message b = .ok r) :
    Digits (b.takeWhile isDigit) ∧ b = b.takeWhile isDigit ++ r := by
  rw [scanDigits] at h
  split at h
  · exact absurd h (by simp [err])
  · next hne =>
    rw [← Except.ok.inj h]
    exact ⟨⟨hne, fun c hc => List.mem_takeWhile_imp hc⟩, List.takeWhile_append_dropWhile.symm⟩

theorem scanDigits_complete {message : String} (ht : Digits t) (hr : NoDigit r) :
    scanDigits message (t ++ r) = .ok r := by
  obtain ⟨htake, hdrop⟩ := takeWhile_digits ht.2 hr
  rw [scanDigits, htake, hdrop, if_neg ht.1]

theorem scanDigits_stops (message : String) (b : Bytes) : scanDigits message b ≠ .error none := by
  rw [scanDigits]
  split <;> simp [err]

section Bind

variable {E α β : Type}

theorem bind_ok {x : Except E α} {f : α → Except E β} {r : β} (h : x >>= f = .ok r) :
    ∃ a, x = .ok a ∧ f a = .ok r := by
  cases x with
  | error e => cases h
  | ok a => exact ⟨a, rfl, h⟩

theorem bind_stops {x : Except (Option E) α} {f : α → Except (Option E) β} (hx : x ≠ .error none)
    (hf : ∀ a, x = .ok a → f a ≠ .error none) : x >>= f ≠ .error none := by
  cases x with
  | error e => exact fun h => hx (congrArg Except.error (Except.error.inj h))
  | ok a => exact hf a rfl

end Bind

theorem scanInteger_sound (h : scanInteger b = .ok r) : ∃ t, Integer t ∧ b = t ++ r := by
  rw [scanInteger] at h
  obtain ⟨rest, hd, h⟩ := bind_ok h
  obtain ⟨hdigits, hb⟩ := scanDigits_sound hd
  split at h
  · exact absurd h (by simp [err])
  next hzero =>
  obtain rfl := Except.ok.inj h
  refine ⟨b.takeWhile isDigit, ⟨hdigits, ?_⟩, hb⟩
  intro hhead
  have hfirst : b.head? = some 48 := by
    rw [hb, List.head?_append_of_ne_nil _ hdigits.1, hhead]
  have hone : (b.takeWhile isDigit).length ≤ 1 := by
    have := not_and.mp hzero hfirst
    omega
  match ht : b.takeWhile isDigit, hdigits.1, hone with
  | [c], _, _ =>
    rw [ht] at hhead
    rw [Option.some.inj hhead]

theorem scanInteger_complete (ht : Integer t) (hr : NoDigit r) : scanInteger (t ++ r) = .ok r := by
  rw [scanInteger, scanDigits_complete ht.1 hr]
  simp only [bind, Except.bind]
  rw [(takeWhile_digits ht.1.2 hr).1, List.head?_append_of_ne_nil _ ht.1.1, if_neg]
  · rfl
  · rintro ⟨hzero, hlen⟩
    rw [ht.2 hzero] at hlen
    exact absurd hlen (by decide)

theorem scanInteger_stops (b : Bytes) : scanInteger b ≠ .error none := by
  rw [scanInteger]
  refine bind_stops (scanDigits_stops _ b) fun rest _ => ?_
  split <;> simp [err, pure, Except.pure]

theorem eq_cons_of_head? {c : UInt8} (h : b.head? = some c) : b = c :: b.tail :=
  List.eq_cons_of_mem_head? h

theorem scanFraction_sound (h : scanFraction b = .ok r) : ∃ t, Fraction t ∧ b = t ++ r := by
  rw [scanFraction] at h
  split at h
  · next hpoint =>
    obtain ⟨hdigits, hb⟩ := scanDigits_sound h
    refine ⟨46 :: b.tail.takeWhile isDigit, .point hdigits, ?_⟩
    rw [List.cons_append, ← hb]
    exact eq_cons_of_head? hpoint
  · exact ⟨[], .none, Except.ok.inj h⟩

theorem scanFraction_complete (ht : Fraction t) (hr : NoDigit r)
    (hpoint : r.head? ≠ some 46) : scanFraction (t ++ r) = .ok r := by
  cases ht with
  | none => exact if_neg hpoint
  | point hdigits =>
    rw [scanFraction, List.cons_append, if_pos List.head?_cons, List.tail_cons]
    exact scanDigits_complete hdigits hr

theorem scanFraction_stops (b : Bytes) : scanFraction b ≠ .error none := by
  rw [scanFraction]
  split
  · exact scanDigits_stops _ _
  · simp

theorem scanExponent_sound (h : scanExponent b = .ok r) : ∃ t, Exponent t ∧ b = t ++ r := by
  rw [scanExponent] at h
  split at h
  · next he =>
    obtain ⟨e, hhead, he⟩ : ∃ e, b.head? = some e ∧ (e = 101 ∨ e = 69) := by
      rcases he with he | he
      · exact ⟨101, he, .inl rfl⟩
      · exact ⟨69, he, .inr rfl⟩
    rw [eq_cons_of_head? hhead]
    dsimp only at h
    split at h
    · next hsign =>
      obtain ⟨s, hs, hsign⟩ : ∃ s, b.tail.head? = some s ∧ (s = 43 ∨ s = 45) := by
        rcases hsign with hs | hs
        · exact ⟨43, hs, .inl rfl⟩
        · exact ⟨45, hs, .inr rfl⟩
      obtain ⟨hdigits, hb⟩ := scanDigits_sound h
      refine ⟨e :: [s] ++ _, .power he (.inr ?_) hdigits, ?_⟩
      · exact hsign.imp (congrArg (fun x => [x])) (congrArg (fun x => [x]))
      · rw [List.append_assoc, ← hb, eq_cons_of_head? hs]
        rfl
    · obtain ⟨hdigits, hb⟩ := scanDigits_sound h
      refine ⟨e :: [] ++ _, .power he (.inl rfl) hdigits, ?_⟩
      rw [List.append_assoc, ← hb]
      rfl
  · exact ⟨[], .none, Except.ok.inj h⟩

theorem scanExponent_complete (ht : Exponent t) (hr : NoDigit r)
    (he : r.head? ≠ some 101 ∧ r.head? ≠ some 69) : scanExponent (t ++ r) = .ok r := by
  cases ht with
  | none => exact if_neg (by tauto)
  | @power e sign t hpower hsign hdigits =>
    have hcond : (e :: (sign ++ (t ++ r))).head? = some 101 ∨
        (e :: (sign ++ (t ++ r))).head? = some 69 := by
      rcases hpower with rfl | rfl
      · exact .inl rfl
      · exact .inr rfl
    rw [List.cons_append, List.cons_append, List.append_assoc, scanExponent, if_pos hcond]
    have hscan : scanDigits "expected a digit in the exponent" (t ++ r) = .ok r :=
      scanDigits_complete hdigits hr
    rcases hsign with rfl | rfl | rfl
    · have hnot : ¬((t ++ r).head? = some 43 ∨ (t ++ r).head? = some 45) := by
        obtain ⟨d, rest, rfl⟩ := List.exists_cons_of_ne_nil hdigits.1
        have hd := hdigits.2 d List.mem_cons_self
        rintro (h | h)
        all_goals
          rw [Option.some.inj h] at hd
          exact absurd hd (by decide)
      exact (congrArg _ (if_neg hnot)).trans hscan
    · exact hscan
    · exact hscan

theorem scanExponent_stops (b : Bytes) : scanExponent b ≠ .error none := by
  rw [scanExponent]
  split
  · exact scanDigits_stops _ _
  · simp

/-- What may stand behind a value goes on with no part of a number. -/
theorem Follow.quiet (h : Follow r) :
    NoDigit r ∧ r.head? ≠ some 46 ∧ r.head? ≠ some 101 ∧ r.head? ≠ some 69 := by
  have hall : ∀ c, r.head? = some c → isDigit c = false ∧ c ≠ 46 ∧ c ≠ 101 ∧ c ≠ 69 := by
    intro c hc
    have hcases := h c hc
    simp only [isSpace, Bool.or_eq_true, beq_iff_eq] at hcases
    rcases hcases with (((rfl | rfl) | rfl) | rfl) | rfl | rfl | rfl <;> decide
  refine ⟨fun c hc => (hall c hc).1, fun hc => ?_, fun hc => ?_, fun hc => ?_⟩
  · exact (hall _ hc).2.1 rfl
  · exact (hall _ hc).2.2.1 rfl
  · exact (hall _ hc).2.2.2 rfl

theorem Exponent.noDigit (ht : Exponent t) (hr : Follow r) :
    NoDigit (t ++ r) ∧ (t ++ r).head? ≠ some 46 := by
  cases ht with
  | none => exact ⟨hr.quiet.1, hr.quiet.2.1⟩
  | power he _ _ =>
    constructor
    · intro c hc
      rw [← Option.some.inj hc]
      rcases he with rfl | rfl <;> rfl
    · intro hc
      rcases he with rfl | rfl <;> exact absurd (Option.some.inj hc) (by decide)

theorem Fraction.noDigit (ht : Fraction t) (hr : NoDigit r) : NoDigit (t ++ r) := by
  cases ht with
  | none => exact hr
  | point _ =>
    intro c hc
    rw [← Option.some.inj hc]
    rfl

theorem scanNumber_sound (h : scanNumber b = .ok r) : ∃ t, Number t ∧ b = t ++ r := by
  obtain ⟨sign, hsign, hb⟩ : ∃ sign : Bytes, (sign = [] ∨ sign = [45]) ∧
      b = sign ++ if b.head? = some 45 then b.tail else b := by
    split
    · next hdash => exact ⟨[45], .inr rfl, eq_cons_of_head? hdash⟩
    · exact ⟨[], .inl rfl, rfl⟩
  rw [scanNumber] at h
  generalize (if b.head? = some 45 then b.tail else b) = b' at h hb
  obtain ⟨rest, hint, hnext⟩ := bind_ok h
  obtain ⟨rest', hfrac, hlast⟩ := bind_ok hnext
  obtain ⟨int, hi, rfl⟩ := scanInteger_sound hint
  obtain ⟨frac, hf, rfl⟩ := scanFraction_sound hfrac
  obtain ⟨exp, he, rfl⟩ := scanExponent_sound hlast
  refine ⟨_, ⟨sign, int, frac, exp, hsign, hi, hf, he, rfl⟩, ?_⟩
  rw [hb]
  simp only [List.append_assoc]

theorem scanNumber_complete (ht : Number t) (hr : Follow r) : scanNumber (t ++ r) = .ok r := by
  obtain ⟨sign, int, frac, exp, hsign, hi, hf, he, rfl⟩ := ht
  have hrest : (sign ++ (int ++ (frac ++ exp)) ++ r) = sign ++ (int ++ (frac ++ (exp ++ r))) := by
    simp only [List.append_assoc]
  have hexp := Exponent.noDigit he hr
  have hunsigned : (if (sign ++ (int ++ (frac ++ (exp ++ r)))).head? = some 45 then
      (sign ++ (int ++ (frac ++ (exp ++ r)))).tail else sign ++ (int ++ (frac ++ (exp ++ r)))) =
        int ++ (frac ++ (exp ++ r)) := by
    rcases hsign with rfl | rfl
    · refine if_neg ?_
      obtain ⟨c, rest, rfl, hc⟩ := hi.head
      intro hdash
      rw [Option.some.inj hdash] at hc
      exact absurd hc (by decide)
    · rfl
  rw [hrest, scanNumber, hunsigned, scanInteger_complete hi (Fraction.noDigit hf hexp.1)]
  change (scanFraction (frac ++ (exp ++ r)) >>= scanExponent) = .ok r
  rw [scanFraction_complete hf hexp.1 hexp.2]
  exact scanExponent_complete he hr.quiet.1 hr.quiet.2.2

theorem scanNumber_stops (b : Bytes) : scanNumber b ≠ .error none := by
  rw [scanNumber]
  exact bind_stops (scanInteger_stops _) fun rest _ =>
    bind_stops (scanFraction_stops rest) fun rest' _ => scanExponent_stops rest'

/-! ## Containers -/

/-- `f` scans exactly the texts of `P`. -/
structure Scans (f : Bytes → Scanned) (P : Bytes → Prop) : Prop where
  sound {b r : Bytes} : f b = .ok r → ∃ t, P t ∧ b = t ++ r
  complete {t r : Bytes} : P t → Follow r → f (t ++ r) = .ok r
  begins {t : Bytes} : P t → ∃ c rest, t = c :: rest ∧ Begins c
  stops (b : Bytes) : f b ≠ .error none

/-- `item` scans the texts of `Item` up to what closes them, once the space ahead is skipped. -/
structure ScansItem (item : Bytes → Scanned) (Item : Bytes → Prop) : Prop where
  sound {b r : Bytes} : item b = .ok r → ∃ t, Item t ∧ b = t ++ r
  complete {t r : Bytes} : Item t → Closes r → item (skipWs (t ++ r)) = .ok r
  pad {s t : Bytes} : Space s → Item t → Item (s ++ t)
  begins {t : Bytes} : Item t → ∃ c, Begins c ∧ ∀ r, (skipWs (t ++ r)).head? = some c
  stops (b : Bytes) : item b ≠ .error none

variable {passes : Nat}

section Items

variable {item : Bytes → Scanned} {Item : Bytes → Prop} {close : UInt8} {message : String}

theorem ScansItem.pad_commaed (h : ScansItem item Item) (hs : Space s)
    (ht : Commaed Item t) : Commaed Item (s ++ t) := by
  cases ht with
  | one hI => exact .one (h.pad hs hI)
  | cons hI hrest =>
    rw [← List.append_assoc]
    exact .cons (h.pad hs hI) hrest

theorem ScansItem.begins_commaed (h : ScansItem item Item) (ht : Commaed Item t) :
    ∃ c, Begins c ∧ ∀ r, (skipWs (t ++ r)).head? = some c := by
  cases ht with
  | one hI => exact h.begins hI
  | @cons t rest hI _ =>
    obtain ⟨c, hc, hhead⟩ := h.begins hI
    exact ⟨c, hc, fun r => by rw [List.append_assoc, hhead]⟩

theorem scanItems_sound (h : ScansItem item Item)
    (hscan : scanItems item close message passes b = .ok r) :
    ∃ t, Commaed Item t ∧ b = t ++ close :: r := by
  induction passes generalizing b with
  | zero => exact absurd hscan (by simp [scanItems])
  | succ passes ih =>
    rw [scanItems] at hscan
    obtain ⟨rest, hitem, hnext⟩ := bind_ok hscan
    obtain ⟨t, ht, rfl⟩ := h.sound hitem
    split at hnext
    · next hcomma =>
      obtain ⟨more, hmore, hrest⟩ := ih hnext
      obtain ⟨s, hs, htail⟩ := skipWs_space rest.tail
      refine ⟨t ++ 44 :: (s ++ more), .cons ht (h.pad_commaed hs hmore), ?_⟩
      rw [eq_cons_of_head? hcomma, htail, hrest]
      simp only [List.append_assoc, List.cons_append]
    · split at hnext
      · next hclose =>
        rw [← Except.ok.inj hnext, ← eq_cons_of_head? hclose]
        exact ⟨t, .one ht, rfl⟩
      · exact absurd hnext (by simp [err])

theorem scanItems_complete (h : ScansItem item Item) (hclose : close = 93 ∨ close = 125)
    (ht : Commaed Item t) (hp : t.length < passes) (r : Bytes) :
    scanItems item close message passes (skipWs (t ++ close :: r)) = .ok r := by
  induction ht generalizing passes with
  | @one t hI =>
    obtain ⟨passes, rfl⟩ := Nat.exists_eq_succ_of_ne_zero (Nat.ne_zero_of_lt hp)
    rw [scanItems, h.complete hI ⟨close, r, rfl, .inr hclose⟩]
    have hne : close ≠ 44 := by rcases hclose with rfl | rfl <;> decide
    simp [bind, Except.bind, pure, Except.pure, hne]
  | @cons t rest hI _ ih =>
    obtain ⟨passes, rfl⟩ := Nat.exists_eq_succ_of_ne_zero (Nat.ne_zero_of_lt hp)
    rw [List.append_assoc, List.cons_append, scanItems, h.complete hI ⟨44, _, rfl, .inl rfl⟩]
    simp only [List.length_append, List.length_cons] at hp
    have hnext := ih (show rest.length < passes by omega)
    simp [bind, Except.bind, hnext]

/-- Each pass leaves less of the text, so the passes suffice. -/
theorem scanItems_stops (h : ScansItem item Item)
    (hp : b.length < passes) : scanItems item close message passes b ≠ .error none := by
  induction passes generalizing b with
  | zero => exact absurd hp (Nat.not_lt_zero _)
  | succ passes ih =>
    rw [scanItems]
    refine bind_stops (h.stops b) fun rest hitem => ?_
    split
    · next hcomma =>
      obtain ⟨t, -, hb⟩ := h.sound hitem
      rw [eq_cons_of_head? hcomma] at hb
      have hlen := congrArg List.length hb
      simp only [List.length_append, List.length_cons] at hlen
      have := skipWs_length rest.tail
      exact ih (by omega)
    · split <;> simp [pure, Except.pure, err]

theorem scanContainer_sound (h : ScansItem item Item) {opening : UInt8}
    (hopen : b.head? = some opening) (hscan : scanContainer item close message b = .ok r) :
    ∃ t, Enclosed opening close Item t ∧ b = t ++ r := by
  obtain ⟨s, hs, htail⟩ := skipWs_space b.tail
  rw [scanContainer] at hscan
  split at hscan
  · next hclose =>
    refine ⟨_, .empty hs, ?_⟩
    rw [eq_cons_of_head? hopen, htail, eq_cons_of_head? hclose, Except.ok.inj hscan]
    simp
  · obtain ⟨t, ht, hinside⟩ := scanItems_sound h hscan
    refine ⟨_, .items (h.pad_commaed hs ht), ?_⟩
    rw [eq_cons_of_head? hopen, htail, hinside]
    simp

theorem scanContainer_complete (h : ScansItem item Item) (hclose : close = 93 ∨ close = 125)
    {opening : UInt8} (ht : Enclosed opening close Item t) (r : Bytes) :
    scanContainer item close message (t ++ r) = .ok r := by
  cases ht with
  | @empty s hs =>
    have hinside : skipWs (s ++ close :: r) = close :: r := by
      rw [skipWs_pad hs]
      exact Closes.skipWs ⟨close, r, rfl, .inr hclose⟩
    simp [scanContainer, hinside]
  | @items t hj =>
    obtain ⟨c, hc, hhead⟩ := h.begins_commaed hj
    have hne : ¬(skipWs (t ++ close :: r)).head? = some close := by
      rw [hhead]
      intro heq
      rcases hclose with rfl | rfl
      · exact hc.2.1 (Option.some.inj heq)
      · exact hc.2.2 (Option.some.inj heq)
    have htail : (opening :: t ++ [close] ++ r).tail = t ++ close :: r := by simp
    rw [scanContainer, htail, if_neg hne]
    have hpasses : t.length < (opening :: t ++ [close] ++ r).length + 1 := by
      simp only [List.length_append, List.length_cons]
      omega
    exact scanItems_complete h hclose hj hpasses r

theorem scanContainer_stops (h : ScansItem item Item) (b : Bytes) :
    scanContainer item close message b ≠ .error none := by
  rw [scanContainer]
  split
  · simp
  · have := skipWs_length b.tail
    have := List.length_tail (l := b)
    exact scanItems_stops h (by omega)

end Items

section Elements

variable {f : Bytes → Scanned} {P : Bytes → Prop}

/-- A padded value, scanned with the space skipped on both sides. -/
theorem Scans.padded (h : Scans f P) (ht : Padded P t) (hr : Closes r) :
    ∃ after, f (skipWs (t ++ r)) = .ok after ∧ skipWs after = r := by
  obtain ⟨before, body, after, hb, hP, ha, rfl⟩ := ht
  obtain ⟨c, rest, rfl, hc⟩ := h.begins hP
  refine ⟨after ++ r, ?_, ?_⟩
  · rw [List.append_assoc, List.append_assoc, skipWs_pad hb, List.cons_append, skipWs_cons hc]
    exact h.complete hP (hr.follow.pad ha)
  · rw [skipWs_pad ha, hr.skipWs]

theorem Scans.element (h : Scans f P) : ScansItem (scanElement f) (Padded P) where
  sound := by
    intro b r hscan
    rw [scanElement] at hscan
    obtain ⟨rest, hf, hscan⟩ := bind_ok hscan
    obtain rfl := Except.ok.inj hscan
    obtain ⟨t, ht, rfl⟩ := h.sound hf
    obtain ⟨s, hs, hrest⟩ := skipWs_space rest
    refine ⟨t ++ s, ⟨[], t, s, fun _ hc => absurd hc List.not_mem_nil, ht, hs, rfl⟩, ?_⟩
    rw [List.append_assoc, ← hrest]
  complete := by
    intro t r ht hr
    obtain ⟨after, hscan, hafter⟩ := h.padded ht hr
    rw [scanElement, hscan]
    exact congrArg Except.ok hafter
  pad := fun hs ht => ht.pad hs
  begins := by
    rintro t ⟨before, body, after, hb, hP, ha, rfl⟩
    obtain ⟨c, rest, rfl, hc⟩ := h.begins hP
    refine ⟨c, hc, fun r => ?_⟩
    rw [List.append_assoc, skipWs_pad hb, List.cons_append, List.cons_append, skipWs_cons hc]
    rfl
  stops b := bind_stops (h.stops b) fun _ _ => nofun

theorem Scans.member (h : Scans f P) : ScansItem (scanMember f) (Member P) where
  sound := by
    intro b r hscan
    rw [scanMember] at hscan
    split at hscan
    · exact absurd hscan (by simp [err])
    next hquote =>
    obtain ⟨rest, hstr, hscan⟩ := bind_ok hscan
    dsimp only at hscan
    split at hscan
    · exact absurd hscan (by simp [err])
    next hcolon =>
    obtain ⟨chars, hchars, htail⟩ := scanChars_sound hstr
    obtain ⟨s, hs, hrest⟩ := skipWs_space rest
    obtain ⟨s', hs', hbehind⟩ := skipWs_space (skipWs rest).tail
    obtain ⟨left, hf, hscan⟩ := bind_ok hscan
    obtain rfl := Except.ok.inj hscan
    obtain ⟨t, ht, hvalue⟩ := h.sound hf
    obtain ⟨s'', hs'', hleft⟩ := skipWs_space left
    refine ⟨_, ⟨_, _, ⟨[], 34 :: chars ++ [34], s, fun _ hc => absurd hc List.not_mem_nil,
      ⟨chars, hchars, rfl⟩, hs, rfl⟩, ⟨s', t, s'', hs', ht, hs'', rfl⟩, rfl⟩, ?_⟩
    have hb : b = 34 :: b.tail := eq_cons_of_head? (not_not.mp hquote)
    have hafter : skipWs rest = 58 :: (skipWs rest).tail := eq_cons_of_head? (not_not.mp hcolon)
    rw [hb, htail, hrest, hafter, hbehind, hvalue]
    conv_lhs => rw [hleft]
    simp
  complete := by
    rintro t r ⟨name, value, ⟨before, str, after, hb, ⟨chars, hchars, rfl⟩, ha, rfl⟩, hvalue, rfl⟩ hr
    obtain ⟨left, hscan, hleft⟩ := h.padded hvalue hr
    have hstart : skipWs (before ++ ((34 :: chars ++ [34]) ++ after) ++ 58 :: value ++ r) =
        34 :: (chars ++ 34 :: (after ++ 58 :: (value ++ r))) := by
      rw [List.append_assoc, List.append_assoc, skipWs_pad hb]
      simp [skipWs_cons (c := 34) ⟨rfl, by decide, by decide⟩]
    have hcolon : skipWs (after ++ 58 :: (value ++ r)) = 58 :: (value ++ r) := by
      rw [skipWs_pad ha, skipWs_cons ⟨rfl, by decide, by decide⟩]
    have hstr : scanString (34 :: (chars ++ 34 :: (after ++ 58 :: (value ++ r)))) =
        .ok (after ++ 58 :: (value ++ r)) := scanChars_complete hchars
    rw [hstart, scanMember, if_neg (by simp), hstr]
    simp only [bind, Except.bind]
    rw [hcolon, if_neg (by simp), List.tail_cons, hscan]
    exact congrArg Except.ok hleft
  pad := by
    rintro s t hs ⟨name, value, hname, hvalue, rfl⟩
    exact ⟨s ++ name, value, hname.pad hs, hvalue, by rw [List.append_assoc]⟩
  begins := by
    rintro t ⟨name, value, ⟨before, str, after, hb, ⟨chars, hchars, rfl⟩, ha, rfl⟩, hvalue, rfl⟩
    have hquote : Begins 34 := ⟨rfl, by decide, by decide⟩
    refine ⟨34, hquote, fun r => ?_⟩
    rw [List.append_assoc, List.append_assoc, skipWs_pad hb]
    simp [skipWs_cons hquote]
  stops := by
    intro b
    rw [scanMember]
    split
    · simp [err]
    refine bind_stops (scanChars_stops b b.tail) fun rest _ => ?_
    dsimp only
    split
    · simp [err]
    · exact bind_stops (h.stops _) fun _ _ => nofun

/-! ## Values -/

/-- One level: what scans the elements of a value makes a scan of the value. -/
theorem Scans.compound (h : Scans f P) : Scans (scanCompound f) (Compound P) where
  sound := by
    intro b r hscan
    rw [scanCompound] at hscan
    split at hscan
    · exact absurd hscan (by simp [err])
    next c hhead =>
    split at hscan
    · next hc =>
      subst hc
      obtain ⟨t, ht, hb⟩ := scanContainer_sound h.member hhead hscan
      exact ⟨t, .inr (.inr ht), hb⟩
    split at hscan
    · next hc =>
      subst hc
      obtain ⟨t, ht, hb⟩ := scanContainer_sound h.element hhead hscan
      exact ⟨t, .inr (.inl ht), hb⟩
    split at hscan
    · next hc =>
      subst hc
      obtain ⟨chars, hchars, htail⟩ := scanChars_sound hscan
      refine ⟨_, .inl (.inl ⟨chars, hchars, rfl⟩), ?_⟩
      rw [eq_cons_of_head? hhead, htail]
      simp
    split at hscan
    · exact ⟨_, .inl (.inr (.inr (.inl rfl))), scanLiteral_sound hscan⟩
    split at hscan
    · exact ⟨_, .inl (.inr (.inr (.inr (.inl rfl)))), scanLiteral_sound hscan⟩
    split at hscan
    · exact ⟨_, .inl (.inr (.inr (.inr (.inr rfl)))), scanLiteral_sound hscan⟩
    split at hscan
    · obtain ⟨t, ht, hb⟩ := scanNumber_sound hscan
      exact ⟨t, .inl (.inr (.inl ht)), hb⟩
    · exact absurd hscan (by simp [err])
  complete := by
    intro t r ht hr
    rcases ht with (⟨chars, hchars, rfl⟩ | hn | rfl | rfl | rfl) | ha | ho
    · have hscan : scanString (34 :: (chars ++ 34 :: r)) = .ok r := scanChars_complete hchars
      simpa [scanCompound] using hscan
    · obtain ⟨c, rest, rfl, hc⟩ := hn.head
      have hne : ∀ d, d ≠ 45 → isDigit d = false → c ≠ d := by
        rintro d hdash hdigit rfl
        rcases hc with rfl | hc
        · exact hdash rfl
        · exact absurd (hc.symm.trans hdigit) (by decide)
      rw [scanCompound]
      simp only [List.cons_append, List.head?_cons]
      rw [if_neg (hne 123 (by decide) rfl), if_neg (hne 91 (by decide) rfl),
        if_neg (hne 34 (by decide) rfl), if_neg (hne 116 (by decide) rfl),
        if_neg (hne 102 (by decide) rfl), if_neg (hne 110 (by decide) rfl), if_pos hc]
      exact scanNumber_complete hn hr
    · exact scanLiteral_complete trueText r
    · exact scanLiteral_complete falseText r
    · exact scanLiteral_complete nullText r
    · have hscan : scanArray f (t ++ r) = .ok r := scanContainer_complete h.element (.inl rfl) ha r
      cases ha <;> exact hscan
    · have hscan : scanObject f (t ++ r) = .ok r := scanContainer_complete h.member (.inr rfl) ho r
      cases ho <;> exact hscan
  begins := fun ht => ht.begins
  stops := by
    intro b
    rw [scanCompound]
    split
    · simp [err]
    split
    · exact scanContainer_stops h.member b
    split
    · exact scanContainer_stops h.element b
    split
    · exact scanChars_stops b b.tail
    iterate 3
      split
      · exact scanLiteral_stops _ b
    split
    · exact scanNumber_stops b
    · simp [err]

end Elements

/-- Every depth the scan has levels for. -/
theorem scanValue_scans (levels : Nat) : Scans (scanValue levels) (Level levels) := by
  induction levels with
  | zero =>
    exact ⟨fun h => absurd h (by simp [scanValue, err]), fun h => h.elim, fun h => h.elim,
      fun b => by simp [scanValue, err]⟩
  | succ levels ih => exact ih.compound

theorem validateJson_ok_iff (text : Bytes) :
    validateJson text = .ok () ↔ Padded (Level (MAX_JSON_DEPTH + 1)) text := by
  have hscans := scanValue_scans (MAX_JSON_DEPTH + 1)
  obtain ⟨before, hbefore, htext⟩ := skipWs_space text
  constructor
  · intro hok
    rw [validateJson] at hok
    by_cases hstart : skipWs text = []
    · rw [if_pos hstart] at hok
      exact absurd hok (by simp [bind, Except.bind])
    rw [if_neg hstart] at hok
    simp only [bind, Except.bind, pure, Except.pure] at hok
    cases hscan : scanValue (MAX_JSON_DEPTH + 1) (skipWs text) with
    | error e =>
      rw [hscan] at hok
      exact absurd hok (by simp)
    | ok rest =>
      rw [hscan] at hok
      dsimp only at hok
      split at hok
      · exact absurd hok (by simp)
      next hrest =>
      obtain ⟨t, ht, hbody⟩ := hscans.sound hscan
      obtain ⟨after, hafter, hend⟩ := skipWs_space rest
      rw [not_not.mp hrest, List.append_nil] at hend
      exact ⟨before, t, after, hbefore, ht, hafter, by rw [← hend, ← hbody, ← htext]⟩
  · rintro ⟨before, t, after, hb, ht, ha, rfl⟩
    obtain ⟨c, rest, rfl, hc⟩ := hscans.begins ht
    have hfollow : Follow after := List.append_nil after ▸ Follow.pad ha (fun c hc => absurd hc (by simp))
    have hend : skipWs after = [] := by
      have := skipWs_pad (t := []) ha
      rwa [List.append_nil] at this
    rw [validateJson, skipWs_pad hb, List.cons_append, skipWs_cons hc, if_neg (by simp)]
    simp only [bind, Except.bind, pure, Except.pure]
    rw [← List.cons_append, hscans.complete ht hfollow]
    simp [hend]

theorem validateJson_stops (text : Bytes) : validateJson text ≠ .error none := by
  intro hnone
  rw [validateJson] at hnone
  by_cases hstart : skipWs text = []
  · rw [if_pos hstart] at hnone
    exact absurd hnone (by simp [bind, Except.bind])
  rw [if_neg hstart] at hnone
  simp only [bind, Except.bind, pure, Except.pure] at hnone
  cases hscan : scanValue (MAX_JSON_DEPTH + 1) (skipWs text) with
  | error e =>
    rw [hscan] at hnone
    obtain rfl := Except.error.inj hnone
    exact (scanValue_scans (MAX_JSON_DEPTH + 1)).stops _ hscan
  | ok rest =>
    rw [hscan] at hnone
    dsimp only at hnone
    split at hnone
    · exact absurd hnone (by simp)
    · exact absurd hnone (by simp)

/-- A document passes exactly when it is one JSON value, white space around it, that has at most
`MAX_JSON_DEPTH` containers around any value; and the check ends. -/
theorem validateJson_exact (text : Bytes) :
    (validateJson text = .ok () ↔ Padded (Level (MAX_JSON_DEPTH + 1)) text) ∧
      validateJson text ≠ .error none :=
  ⟨validateJson_ok_iff text, validateJson_stops text⟩

/-! ## The limit counts values, not containers -/

def wrapped : Nat → Bytes → Bytes
  | 0, t => t
  | n + 1, t => 91 :: wrapped n t ++ [93]

/-- Text with nothing in it that may stand around a value or between two. -/
def Bare (t : Bytes) : Prop := t ≠ [] ∧ ∀ c ∈ t, isSpace c = false ∧ c ≠ 44

theorem Bare.wrapped (h : Bare t) (n : Nat) : Bare (wrapped n t) := by
  induction n with
  | zero => exact h
  | succ n ih =>
    refine ⟨by simp [Kv.wrapped], fun c hc => ?_⟩
    rw [Kv.wrapped, List.mem_append, List.mem_cons, List.mem_singleton] at hc
    rcases hc with (rfl | hc) | rfl
    · exact ⟨rfl, by decide⟩
    · exact ih.2 c hc
    · exact ⟨rfl, by decide⟩

theorem Bare.no_space (h : Bare t) (hs : Space s) (hsub : ∀ c ∈ s, c ∈ t) : s = [] := by
  refine List.eq_nil_iff_forall_not_mem.mpr fun c hc => ?_
  exact absurd ((hs c hc).symm.trans (h.2 c (hsub c hc)).1) (by decide)

theorem Bare.unpad {P : Bytes → Prop} (h : Bare t) (ht : Padded P t) : P t := by
  obtain ⟨before, body, after, hb, hP, ha, rfl⟩ := ht
  obtain rfl := h.no_space hb fun c hc => List.mem_append_left _ hc
  obtain rfl := h.no_space ha fun c hc => List.mem_append_right _ (List.mem_append_right _ hc)
  rwa [List.nil_append, List.append_nil]

/-- In brackets, bare text is an array of itself. -/
theorem compound_bare {P : Bytes → Prop} (h : Bare t) : Compound P (91 :: t ++ [93]) ↔ P t := by
  have hnil : Space [] := fun _ hc => absurd hc List.not_mem_nil
  constructor
  · rintro (hscalar | ha | ho)
    · exact absurd hscalar (not_scalar_bracket _)
    · generalize htext : (91 :: t ++ [93] : Bytes) = text at ha
      cases ha with
      | @empty s hs =>
        obtain rfl := List.append_cancel_right (List.cons.inj htext).2
        exact absurd (h.no_space hs fun _ hc => hc) h.1
      | @items s hj =>
        obtain rfl := List.append_cancel_right (List.cons.inj htext).2
        cases hj with
        | one hP => exact h.unpad hP
        | cons _ _ => exact absurd rfl (h.2 44 (by simp)).2
    · generalize htext : (91 :: t ++ [93] : Bytes) = text at ho
      cases ho <;> exact absurd (List.cons.inj htext).1 (by decide)
  · intro hP
    exact .inr (.inl (.items (.one ⟨[], t, [], hnil, hP, hnil, by simp⟩)))

theorem tower_wrapped {base : Bytes → Prop} (h : Bare t) (n m : Nat) :
    Tower base (n + m) (wrapped n t) ↔ Tower base m t := by
  induction n with
  | zero => rw [Nat.zero_add, wrapped]
  | succ n ih =>
    rw [Nat.succ_add, Tower, wrapped, compound_bare (h.wrapped n)]
    exact ih

/-- The limit is one on values: an array at the 129th level passes when it is empty, and not
when it holds a number. -/
theorem nesting_unlike_limit : (validateJson (wrapped 128 [91, 93]) = .ok () ∧
      ¬Padded (Nested MAX_JSON_DEPTH) (wrapped 128 [91, 93])) ∧
    validateJson (wrapped 129 [49]) ≠ .ok () ∧
      Padded (Nested (MAX_JSON_DEPTH + 1)) (wrapped 129 [49]) := by
  have hnil : Space [] := fun _ hc => absurd hc List.not_mem_nil
  have hempty : Bare [91, 93] := ⟨by decide, by decide⟩
  have hone : Bare [49] := ⟨by decide, by decide⟩
  have hpad : ∀ {P : Bytes → Prop} {t : Bytes}, P t → Padded P t := by
    intro P t ht
    exact ⟨[], t, [], hnil, ht, hnil, by simp⟩
  refine ⟨⟨?_, fun hpadded => ?_⟩, fun hok => ?_, hpad ?_⟩
  · refine (validateJson_ok_iff _).mpr (hpad ((tower_wrapped hempty 128 1).mpr ?_))
    exact .inr (.inl (.empty hnil))
  · have hscalar := (tower_wrapped hempty 128 0).mp ((hempty.wrapped 128).unpad hpadded)
    exact not_scalar_bracket _ hscalar
  · have hpadded := (validateJson_ok_iff _).mp hok
    exact (tower_wrapped hone 129 0).mp ((hone.wrapped 129).unpad hpadded)
  · refine (tower_wrapped hone 129 0).mpr (.inr (.inl ⟨[], [49], [], [], .inl rfl, ?_, .none, .none, rfl⟩))
    exact ⟨⟨by decide, by decide⟩, fun h => absurd h (by decide)⟩

end RedDb.Kv
