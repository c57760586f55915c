import RedDb.Lib.TextCodec

/-!
# JSON text

JSON values, the compact text of one, and a reader of such text. Numbers stand as they are
spelled.

* `readString_quote` — a quoted string is read back, whatever its characters;
* `parse_compact` — so is the compact text of every value;
* `Closed.no_inner` — and such a text does not stand behind a blank in another.
-/

namespace JsonText

open TextCodec

inductive Json where
  | null
  | bool (b : Bool)
  | number (token : Text)
  | string (s : String)
  | array (items : List Json)
  | object (members : List (String × Json))

/-! ## Printing -/

/-- One character inside quotes. -/
def escape (c : Char) : Text :=
  if c = '"' then ['\\', '"']
  else if c = '\\' then ['\\', '\\']
  else if c = '\n' then ['\\', 'n']
  else if c = '\r' then ['\\', 'r']
  else if c = '\t' then ['\\', 't']
  else if c = Char.ofNat 0x08 then ['\\', 'b']
  else if c = Char.ofNat 0x0c then ['\\', 'f']
  else if c.toNat < 0x20 then ['\\', 'u', '0', '0', hexDigit (c.toNat / 16), hexDigit (c.toNat % 16)]
  else [c]

def quote (s : String) : Text := '"' :: s.toList.flatMap escape ++ ['"']

mutual

def compact : Json → Text
  | .null => ['n', 'u', 'l', 'l']
  | .bool true => ['t', 'r', 'u', 'e']
  | .bool false => ['f', 'a', 'l', 's', 'e']
  | .number token => token
  | .string s => quote s
  | .array items => '[' :: compactItems true items ++ [']']
  | .object members => '\x7b' :: compactMembers true members ++ ['\x7d']

/-- The items, a comma before each but the first. -/
def compactItems (first : Bool) : List Json → Text
  | [] => []
  | item :: items => (if first then [] else [',']) ++ compact item ++ compactItems false items

def compactMembers (first : Bool) : List (String × Json) → Text
  | [] => []
  | (key, value) :: members =>
    (if first then [] else [',']) ++ quote key ++ [':'] ++ compact value ++
      compactMembers false members

end

/-! ## Reading -/

/-- The character a backslash and this letter stand for. -/
def unescape (c : Char) : Option Char :=
  if c = '"' ∨ c = '\\' ∨ c = '/' then some c
  else if c = 'n' then some '\n'
  else if c = 'r' then some '\r'
  else if c = 't' then some '\t'
  else if c = 'b' then some (Char.ofNat 0x08)
  else if c = 'f' then some (Char.ofNat 0x0c)
  else none

/-- Where the reader of a string stands: outside an escape, behind a backslash, or with so
many hex digits to come. -/
inductive Scan where
  | plain
  | escape
  | hex (left : Nat) (value : Nat)

/-- The characters up to the closing quote, and what is behind it. -/
@[grind =] def readString : Scan → Text → Option (Text × Text)
  | _, [] => none
  | .plain, c :: rest =>
    if c = '"' then some ([], rest)
    else if c = '\\' then readString .escape rest
    else if c.toNat < 0x20 then none
    else (readString .plain rest).map fun (s, rest) => (c :: s, rest)
  | .escape, c :: rest =>
    if c = 'u' then readString (.hex 4 0) rest
    else (unescape c).bind fun c => (readString .plain rest).map fun (s, rest) => (c :: s, rest)
  | .hex left value, c :: rest =>
    (hexValue c).bind fun digit =>
      if left ≤ 1 then
        (readString .plain rest).map fun (s, rest) => (Char.ofNat (16 * value + digit) :: s, rest)
      else readString (.hex (left - 1) (16 * value + digit)) rest

def isNumberChar (c : Char) : Bool := c.isDigit || ['-', '+', '.', 'e', 'E'].contains c

/-- The rest of the text behind a fixed beginning. -/
def expect : Text → Text → Option Text
  | [], rest => some rest
  | c :: word, d :: rest => if c = d then expect word rest else none
  | _ :: _, [] => none

mutual

/-- One value and what is behind it. Cut after `fuel` steps. -/
@[grind =] def readValue : Nat → Text → Option (Json × Text)
  | 0, _ => none
  | _, [] => none
  | fuel + 1, c :: rest =>
    if c = 'n' then (expect ['u', 'l', 'l'] rest).map fun rest => (.null, rest)
    else if c = 't' then (expect ['r', 'u', 'e'] rest).map fun rest => (.bool true, rest)
    else if c = 'f' then (expect ['a', 'l', 's', 'e'] rest).map fun rest => (.bool false, rest)
    else if c = '"' then
      (readString .plain rest).map fun (s, rest) => (.string (String.ofList s), rest)
    else if c = '[' then
      (readItems fuel true rest).map fun (items, rest) => (.array items, rest)
    else if c = '\x7b' then
      (readMembers fuel true rest).map fun (members, rest) => (.object members, rest)
    else if isNumberChar c then
      some (.number (c :: rest.takeWhile isNumberChar), rest.dropWhile isNumberChar)
    else none

@[grind =] def readItems : Nat → Bool → Text → Option (List Json × Text)
  | 0, _, _ => none
  | _, _, [] => none
  | fuel + 1, first, c :: rest =>
    if c = ']' then some ([], rest)
    else
      (if first then some (c :: rest) else expect [','] (c :: rest)).bind fun text =>
      (readValue fuel text).bind fun (item, text) =>
      (readItems fuel false text).map fun (items, text) => (item :: items, text)

def readMembers : Nat → Bool → Text → Option (List (String × Json) × Text)
  | 0, _, _ => none
  | _, _, [] => none
  | fuel + 1, first, c :: rest =>
    if c = '\x7d' then some ([], rest)
    else
      (if first then some (c :: rest) else expect [','] (c :: rest)).bind fun text =>
      (expect ['"'] text).bind fun text =>
      (readString .plain text).bind fun (key, text) =>
      (expect [':'] text).bind fun text =>
      (readValue fuel text).bind fun (value, text) =>
      (readMembers fuel false text).map fun (members, text) =>
        ((String.ofList key, value) :: members, text)

end

/-- The value that the whole text is. -/
def parse (text : Text) : Option Json :=
  match readValue (4 * text.length + 4) text with
  | some (j, []) => some j
  | _ => none

/-! ## Strings -/

/-- A control character is read from its four hex digits. -/
theorem readString_control {c : Char} (h : c.toNat < 0x20) (rest : Text) : readString .plain
        (['\\', 'u', '0', '0', hexDigit (c.toNat / 16), hexDigit (c.toNat % 16)] ++ rest) =
      (readString .plain rest).map fun (s, rest) => (c :: s, rest) := by
  have hhigh := hexValue_hexDigit (show c.toNat / 16 < 16 by omega)
  have hlow := hexValue_hexDigit (show c.toNat % 16 < 16 by omega)
  have hchar : Char.ofNat (16 * (16 * (16 * (16 * 0 + 0) + 0) + c.toNat / 16) + c.toNat % 16) = c := by
    have hsum : 16 * (16 * (16 * (16 * 0 + 0) + 0) + c.toNat / 16) + c.toNat % 16 = c.toNat := by omega
    rw [hsum, Char.ofNat_toNat]
  have hzero : hexValue '0' = some 0 := by decide
  simp only [List.cons_append, List.nil_append]
  rw [readString, if_neg (by decide), if_pos rfl, readString, if_pos rfl, readString, hzero,
    Option.bind_some, if_neg (by decide), readString, hzero, Option.bind_some, if_neg (by decide),
    readString, hhigh, Option.bind_some, if_neg (by decide), readString, hlow, Option.bind_some,
    if_pos (by decide), hchar]

theorem readString_escape (c : Char) (rest : Text) : readString .plain (escape c ++ rest) =
      (readString .plain rest).map fun (s, rest) => (c :: s, rest) := by
  rw [escape]
  split
  · rename_i h
    rw [h]
    rfl
  rename_i hquote
  split
  · rename_i h
    rw [h]
    rfl
  rename_i hslash
  split
  · rename_i h
    rw [h]
    rfl
  split
  · rename_i h
    rw [h]
    rfl
  split
  · rename_i h
    rw [h]
    rfl
  split
  · rename_i h
    rw [h]
    rfl
  split
  · rename_i h
    rw [h]
    rfl
  · split
    · rename_i h
      exact readString_control h rest
    · rename_i h
      rw [List.singleton_append, readString, if_neg hquote, if_neg hslash, if_neg h]

/-- **Strings.** A quoted string is read back. -/
theorem readString_quote (s : String) (rest : Text) :
    readString .plain (s.toList.flatMap escape ++ '"' :: rest) = some (s.toList, rest) := by
  induction s.toList with
  | nil => rfl
  | cons c chars ih =>
    rw [List.flatMap_cons, List.append_assoc, readString_escape, ih]
    rfl

/-! ## Round trip -/

mutual

/-- The numbers are spelled as numbers are. -/
def Lexical : Json → Prop
  | .number token => token ≠ [] ∧ ∀ c ∈ token, isNumberChar c = true
  | .array items => LexicalItems items
  | .object members => LexicalMembers members
  | _ => True

def LexicalItems : List Json → Prop
  | [] => True
  | item :: items => Lexical item ∧ LexicalItems items

def LexicalMembers : List (String × Json) → Prop
  | [] => True
  | (_, value) :: members => Lexical value ∧ LexicalMembers members

end

mutual

/-- The steps that reading the value takes. -/
def steps : Json → Nat
  | .array items => stepsItems items + 1
  | .object members => stepsMembers members + 1
  | _ => 1

def stepsItems : List Json → Nat
  | [] => 1
  | item :: items => steps item + stepsItems items + 1

def stepsMembers : List (String × Json) → Nat
  | [] => 1
  | (_, value) :: members => steps value + stepsMembers members + 1

end

/-- No number goes on in the text. -/
def Stops (rest : Text) : Prop := ∀ c ∈ rest.head?, isNumberChar c = false

theorem stops_compactItems (items : List Json) (rest : Text) :
    Stops (compactItems false items ++ ']' :: rest) := by
  cases items with
  | nil | cons item items =>
    intro c hc
    obtain rfl := Option.some.inj hc
    decide

theorem stops_compactMembers (members : List (String × Json)) (rest : Text) :
    Stops (compactMembers false members ++ '\x7d' :: rest) := by
  cases members with
  | nil | cons member members =>
    intro c hc
    obtain rfl := Option.some.inj hc
    decide

theorem takeWhile_number {token rest : Text} (h : ∀ c ∈ token, isNumberChar c = true)
    (hstop : Stops rest) : (token ++ rest).takeWhile isNumberChar = token ∧
      (token ++ rest).dropWhile isNumberChar = rest := by
  induction token with
  | nil =>
    cases rest with
    | nil => exact ⟨rfl, rfl⟩
    | cons c rest =>
      have hc := hstop c rfl
      rw [List.nil_append]
      exact ⟨List.takeWhile_cons_of_neg (by rw [hc]; exact Bool.false_ne_true),
        List.dropWhile_cons_of_neg (by rw [hc]; exact Bool.false_ne_true)⟩
  | cons c token ih =>
    obtain ⟨htake, hdrop⟩ := ih fun d hd => h d (List.mem_cons_of_mem _ hd)
    have hc := h c List.mem_cons_self
    rw [List.cons_append, List.takeWhile_cons_of_pos hc, List.dropWhile_cons_of_pos hc, htake]
    exact ⟨rfl, hdrop⟩

theorem readValue_number {token rest : Text} {fuel : Nat} (hne : token ≠ [])
    (h : ∀ c ∈ token, isNumberChar c = true) (hstop : Stops rest) :
    readValue (fuel + 1) (token ++ rest) = some (.number token, rest) := by
  cases token with
  | nil => exact absurd rfl hne
  | cons c token =>
    have hc := h c List.mem_cons_self
    have hne : ∀ d : Char, isNumberChar d = false → c ≠ d := by
      rintro d hd rfl
      rw [hc] at hd
      cases hd
    obtain ⟨htake, hdrop⟩ := takeWhile_number (fun d hd => h d (List.mem_cons_of_mem _ hd)) hstop
    rw [List.cons_append, readValue, if_neg (hne _ (by decide)), if_neg (hne _ (by decide)),
      if_neg (hne _ (by decide)), if_neg (hne _ (by decide)), if_neg (hne _ (by decide)),
      if_neg (hne _ (by decide)), if_pos hc, htake, hdrop]

/-- A value starts with no closing bracket. -/
theorem compact_head {j : Json} (h : Lexical j) : ∃ c text, compact j = c :: text ∧ c ≠ ']' := by
  cases j with
  | null => exact ⟨'n', _, rfl, by decide⟩
  | bool b => cases b <;> exact ⟨_, _, rfl, by decide⟩
  | string s => exact ⟨'"', _, rfl, by decide⟩
  | array items => exact ⟨'[', _, by rw [compact]; rfl, by decide⟩
  | object members => exact ⟨'\x7b', _, by rw [compact]; rfl, by decide⟩
  | number token =>
    rw [Lexical] at h
    cases token with
    | nil => exact absurd rfl h.1
    | cons c token =>
      refine ⟨c, token, by rw [compact], ?_⟩
      rintro rfl
      exact absurd (h.2 _ List.mem_cons_self) (by decide)

/-- The reader goes on where an item starts. -/
theorem readItems_cons {fuel : Nat} {first : Bool} {item : Json} {text : Text}
    (hlex : Lexical item) :
    readItems (fuel + 1) first ((if first then [] else [',']) ++ (compact item ++ text)) =
      (readValue fuel (compact item ++ text)).bind fun (item, text) =>
        (readItems fuel false text).map fun (items, text) => (item :: items, text) := by
  obtain ⟨c, start, hhead, hc⟩ := compact_head hlex
  cases first with
  | true =>
    rw [if_pos rfl, List.nil_append, hhead, List.cons_append, readItems, if_neg hc]
    rfl
  | false =>
    rw [if_neg Bool.false_ne_true, List.singleton_append, readItems, if_neg (by decide)]
    rfl

theorem readMembers_cons {fuel : Nat} {first : Bool} {key : String} {text : Text} :
    readMembers (fuel + 1) first ((if first then [] else [',']) ++ (quote key ++ ([':'] ++ text))) =
      (readValue fuel text).bind fun (value, text) =>
        (readMembers fuel false text).map fun (members, text) => ((key, value) :: members, text) := by
  have hkey := readString_quote key ([':'] ++ text)
  have hquote : quote key ++ ([':'] ++ text) =
      '"' :: (key.toList.flatMap escape ++ '"' :: ([':'] ++ text)) := by
    rw [quote, List.append_assoc, List.cons_append]
    rfl
  have hname : String.ofList key.toList = key := String.ofList_toList
  rw [hquote]
  cases first with
  | true =>
    rw [if_pos rfl, List.nil_append, readMembers, if_neg (by decide)]
    show (readString .plain _).bind _ = _
    rw [hkey]
    show (readValue fuel text).bind _ = _
    rw [hname]
  | false =>
    rw [if_neg Bool.false_ne_true, List.singleton_append, readMembers, if_neg (by decide)]
    show (readString .plain _).bind _ = _
    rw [hkey]
    show (readValue fuel text).bind _ = _
    rw [hname]

mutual

theorem readValue_compact : ∀ (j : Json) {fuel : Nat} {rest : Text}, Lexical j → steps j ≤ fuel →
    Stops rest → readValue fuel (compact j ++ rest) = some (j, rest)
  | j, 0, _, _, hfuel, _ => by
    have : 1 ≤ steps j := by cases j <;> simp only [steps] <;> omega
    omega
  | .null, fuel + 1, rest, _, _, _ => rfl
  | .bool true, fuel + 1, rest, _, _, _ => rfl
  | .bool false, fuel + 1, rest, _, _, _ => rfl
  | .number token, fuel + 1, rest, hlex, _, hstop => by
    rw [Lexical] at hlex
    rw [compact]
    exact readValue_number hlex.1 hlex.2 hstop
  | .string s, fuel + 1, rest, _, _, _ => by
    rw [compact, quote, List.append_assoc, List.cons_append]
    show (readString .plain (s.toList.flatMap escape ++ '"' :: rest)).map _ = _
    rw [readString_quote]
    show some (Json.string (String.ofList s.toList), rest) = _
    rw [String.ofList_toList]
  | .array items, fuel + 1, rest, hlex, hfuel, _ => by
    rw [Lexical] at hlex
    rw [steps] at hfuel
    rw [compact, List.append_assoc, List.cons_append]
    show (readItems fuel true (compactItems true items ++ ']' :: rest)).map _ = _
    rw [readItems_compact items hlex (Nat.le_of_succ_le_succ hfuel)]
    rfl
  | .object members, fuel + 1, rest, hlex, hfuel, _ => by
    rw [Lexical] at hlex
    rw [steps] at hfuel
    rw [compact, List.append_assoc, List.cons_append]
    show (readMembers fuel true (compactMembers true members ++ '\x7d' :: rest)).map _ = _
    rw [readMembers_compact members hlex (Nat.le_of_succ_le_succ hfuel)]
    rfl

theorem readItems_compact : ∀ (items : List Json) {fuel : Nat} {first : Bool} {rest : Text},
    LexicalItems items → stepsItems items ≤ fuel →
    readItems fuel first (compactItems first items ++ ']' :: rest) = some (items, rest)
  | items, 0, _, _, _, hfuel => by
    have : 1 ≤ stepsItems items := by cases items <;> simp only [stepsItems] <;> omega
    omega
  | [], fuel + 1, first, rest, _, _ => by
    rw [compactItems]
    exact if_pos rfl
  | item :: items, fuel + 1, first, rest, hlex, hfuel => by
    rw [LexicalItems] at hlex
    rw [stepsItems] at hfuel
    rw [compactItems, List.append_assoc, List.append_assoc, readItems_cons hlex.1,
      readValue_compact item hlex.1 (by omega) (stops_compactItems items rest), Option.bind_some]
    dsimp only
    rw [readItems_compact items hlex.2 (by omega)]
    rfl

theorem readMembers_compact : ∀ (members : List (String × Json)) {fuel : Nat} {first : Bool}
    {rest : Text}, LexicalMembers members → stepsMembers members ≤ fuel →
    readMembers fuel first (compactMembers first members ++ '\x7d' :: rest) = some (members, rest)
  | members, 0, _, _, _, hfuel => by
    have : 1 ≤ stepsMembers members := by
      cases members with
      | nil => exact Nat.le_refl 1
      | cons member members => simp only [stepsMembers]; omega
    omega
  | [], fuel + 1, first, rest, _, _ => by
    rw [compactMembers]
    exact if_pos rfl
  | (key, value) :: members, fuel + 1, first, rest, hlex, hfuel => by
    rw [LexicalMembers] at hlex
    rw [stepsMembers] at hfuel
    rw [compactMembers, List.append_assoc, List.append_assoc, List.append_assoc, List.append_assoc,
      readMembers_cons, readValue_compact value hlex.1 (by omega)
        (stops_compactMembers members rest), Option.bind_some]
    dsimp only
    rw [readMembers_compact members hlex.2 (by omega)]
    rfl

end

mutual

theorem steps_le : ∀ {j : Json}, Lexical j → steps j + 1 ≤ 4 * (compact j).length
  | .null, _ => by decide
  | .bool true, _ => by decide
  | .bool false, _ => by decide
  | .number token, h => by
    rw [Lexical] at h
    have := List.length_pos_iff.mpr h.1
    show 1 + 1 ≤ 4 * (compact (.number token)).length
    rw [compact]
    omega
  | .string s, _ => by
    show 1 + 1 ≤ 4 * (compact (.string s)).length
    rw [compact, quote, List.length_append]
    simp only [List.length_cons, List.length_nil]
    omega
  | .array items, h => by
    rw [Lexical] at h
    have hitems : stepsItems items ≤ 4 * (compactItems true items).length + 1 := stepsItems_le h
    rw [compact, steps, List.length_append]
    simp only [List.length_cons, List.length_nil]
    omega
  | .object members, h => by
    rw [Lexical] at h
    have hmembers : stepsMembers members ≤ 4 * (compactMembers true members).length + 1 :=
      stepsMembers_le h
    rw [compact, steps, List.length_append]
    simp only [List.length_cons, List.length_nil]
    omega

theorem stepsItems_le : ∀ {items : List Json} {first : Bool}, LexicalItems items →
    stepsItems items ≤ 4 * (compactItems first items).length + 1
  | [], _, _ => by
    rw [stepsItems]
    omega
  | item :: items, first, h => by
    rw [LexicalItems] at h
    have hitem := steps_le h.1
    have hitems : stepsItems items ≤ 4 * (compactItems false items).length + 1 := stepsItems_le h.2
    rw [stepsItems, compactItems, List.length_append, List.length_append]
    omega

theorem stepsMembers_le : ∀ {members : List (String × Json)} {first : Bool},
    LexicalMembers members → stepsMembers members ≤ 4 * (compactMembers first members).length + 1
  | [], _, _ => by
    rw [stepsMembers]
    omega
  | (key, value) :: members, first, h => by
    rw [LexicalMembers] at h
    have hvalue := steps_le h.1
    have hmembers : stepsMembers members ≤ 4 * (compactMembers false members).length + 1 :=
      stepsMembers_le h.2
    rw [stepsMembers, compactMembers]
    simp only [List.length_append]
    omega

end

/-- **Compact text.** The text of a value is read back as the value. -/
theorem parse_compact {j : Json} (h : Lexical j) : parse (compact j) = some j := by
  have hread : readValue (4 * (compact j).length + 4) (compact j ++ []) = some (j, []) :=
    readValue_compact j h (Nat.le_trans (Nat.le_of_succ_le (steps_le h)) (Nat.le_add_right _ 4))
      fun c hc => absurd hc (Option.not_mem_none c)
  rw [List.append_nil] at hread
  rw [parse, hread]

/-! ## Strings in a text -/

/-- Where a place of a text is: between the values, in a string, or behind a backslash in one. -/
inductive Quoting where
  | outside | inside | escaped
  deriving DecidableEq

/-- What stands between strings in a compact text. -/
def isBare (c : Char) : Bool :=
  isNumberChar c || c.isAlpha || ['\x7b', '\x7d', '[', ']', ',', ':'].contains c

def quotingStep : Quoting → Char → Option Quoting
  | .outside, c => if c = '"' then some .inside else if isBare c then some .outside else none
  | .inside, c =>
    if c = '"' then some .outside else if c = '\\' then some .escaped
    else if c = '\n' then none else some .inside
  | .escaped, c => if c = '\n' then none else some .inside

/-- Where the end of a text is, unless something is out of place in it. -/
def track : Quoting → Text → Option Quoting
  | q, [] => some q
  | q, c :: rest => (quotingStep q c).bind fun q => track q rest

/-- A text whose strings are closed. -/
def Closed (t : Text) : Prop := track .outside t = some .outside

theorem track_append (q : Quoting) (a b : Text) : track q (a ++ b) = (track q a).bind fun q => track q b := by
  induction a generalizing q with
  | nil => rfl
  | cons c a ih =>
    rw [List.cons_append, track, track]
    cases quotingStep q c with
    | none => rfl
    | some q' => exact ih q'

theorem Closed.append {a b : Text} (ha : Closed a) (hb : Closed b) : Closed (a ++ b) := by
  unfold Closed at *
  rw [track_append, ha]
  exact hb

theorem closed_bare {t : Text} (h : ∀ c ∈ t, isBare c = true) : Closed t := by
  induction t with
  | nil => rfl
  | cons c t ih =>
    have hc := h c List.mem_cons_self
    have hquote : c ≠ '"' := fun heq => absurd hc (by rw [heq]; decide)
    have hstep : quotingStep .outside c = some .outside := by rw [quotingStep, if_neg hquote, if_pos hc]
    rw [Closed, track, hstep]
    exact ih fun d hd => h d (List.mem_cons_of_mem c hd)

theorem closed_char {c : Char} (h : isBare c = true) : Closed [c] :=
  closed_bare (List.forall_mem_singleton.mpr h)

theorem track_escape (c : Char) : track .inside (escape c) = some .inside := by
  unfold escape
  split
  · rfl
  split
  · rfl
  split
  · rfl
  split
  · rfl
  split
  · rfl
  split
  · rfl
  split
  · rfl
  split
  · rename_i hcontrol
    have hhigh : ∀ n < 16, track .inside ['\\', 'u', '0', '0', hexDigit 0, hexDigit n] = some .inside ∧
        track .inside ['\\', 'u', '0', '0', hexDigit 1, hexDigit n] = some .inside := by decide
    have hlow := hhigh (c.toNat % 16) (Nat.mod_lt _ (by decide))
    obtain h | h : c.toNat / 16 = 0 ∨ c.toNat / 16 = 1 := by omega
    · rw [h]
      exact hlow.1
    · rw [h]
      exact hlow.2
  · rename_i hquote hbackslash hnewline _ _ _ _ _
    rw [track, quotingStep, if_neg hquote, if_neg hbackslash, if_neg hnewline]
    rfl

theorem closed_quote (s : String) : Closed (quote s) := by
  have hbody (t : Text) : track .inside (t.flatMap escape) = some .inside := by
    induction t with
    | nil => rfl
    | cons c t ih =>
      rw [List.flatMap_cons, track_append, track_escape]
      exact ih
  rw [Closed, quote, track_append]
  have hopen : track .outside ('"' :: s.toList.flatMap escape) = some .inside := hbody s.toList
  rw [hopen]
  rfl

theorem closed_comma (first : Bool) : Closed (if first then [] else [',']) := by
  cases first with
  | true => exact closed_bare fun c hc => absurd hc List.not_mem_nil
  | false => exact closed_char (by decide)

mutual

/-- The strings of a compact text are closed. -/
theorem closed_compact : ∀ {j : Json}, Lexical j → Closed (compact j)
  | .null, _ | .bool true, _ | .bool false, _ => rfl
  | .number token, h => closed_bare fun c hc => by rw [isBare, h.2 c hc]; rfl
  | .string s, _ => closed_quote s
  | .array items, h =>
    (closed_char (c := '[') (by decide)).append ((closed_compactItems true h).append (closed_char (by decide)))
  | .object members, h =>
    (closed_char (c := '\x7b') (by decide)).append
      ((closed_compactMembers true h).append (closed_char (by decide)))

theorem closed_compactItems (first : Bool) : ∀ {items : List Json}, LexicalItems items →
    Closed (compactItems first items)
  | [], _ => rfl
  | item :: items, h => by
    have hcomma := closed_comma first
    exact (hcomma.append (closed_compact h.1)).append (closed_compactItems false h.2)

theorem closed_compactMembers (first : Bool) : ∀ {members : List (String × Json)}, LexicalMembers members →
    Closed (compactMembers first members)
  | [], _ => rfl
  | (key, value) :: members, h => by
    have hcomma := closed_comma first
    have hcolon : Closed [':'] := closed_char (by decide)
    exact (((hcomma.append (closed_quote key)).append hcolon).append (closed_compact h.1)).append
      (closed_compactMembers false h.2)

end

/-- No line ends in such a text. -/
theorem Closed.line {t : Text} (h : Closed t) : '\n' ∉ t := by
  have hstep (q q' : Quoting) : quotingStep q '\n' ≠ some q' := by cases q <;> cases q' <;> decide
  have htrack : ∀ {t : Text} {q q' : Quoting}, track q t = some q' → '\n' ∉ t := by
    intro t
    induction t with
    | nil => exact fun _ => List.not_mem_nil
    | cons c t ih =>
      intro q q' h hmem
      obtain ⟨q'', hc, hrest⟩ := Option.bind_eq_some_iff.mp h
      obtain rfl | hmem := List.mem_cons.mp hmem
      · exact hstep q q'' hc
      · exact ih hrest hmem
  exact htrack h

/-- A quote or what stands between strings ends it. -/
theorem Closed.last {t : Text} (h : Closed t) {c : Char} (hlast : t.getLast? = some c) :
    c = '"' ∨ isBare c = true := by
  obtain ⟨a, rfl⟩ := List.getLast?_eq_some_iff.mp hlast
  rw [Closed, track_append] at h
  obtain ⟨q, -, hq⟩ := Option.bind_eq_some_iff.mp h
  obtain ⟨q', hstep, hend⟩ := Option.bind_eq_some_iff.mp hq
  rw [Option.some.inj hend] at hstep
  cases q with
  | outside =>
    by_cases hquote : c = '"'
    · exact Or.inl hquote
    · by_cases hbare : isBare c = true
      · exact Or.inr hbare
      · simp [quotingStep, hquote, hbare] at hstep
  | inside =>
    by_cases hquote : c = '"'
    · exact Or.inl hquote
    · simp only [quotingStep, if_neg hquote] at hstep
      split_ifs at hstep <;> cases hstep
  | escaped =>
    rw [quotingStep] at hstep
    split_ifs at hstep
    cases hstep

/-- Read from inside and from outside of a string, a text goes on the other way round. -/
theorem track_opposite {t : Text} {a b : Quoting} (ha : track .outside t = some a) (hb : track .inside t = some b) :
    (a = .outside ∧ b = .inside) ∨ (a = .inside ∧ b = .outside) := by
  induction t generalizing a b with
  | nil => exact Or.inl ⟨(Option.some.inj ha).symm, (Option.some.inj hb).symm⟩
  | cons c t ih =>
    obtain ⟨q, hq, ha⟩ := Option.bind_eq_some_iff.mp ha
    obtain ⟨q', hq', hb⟩ := Option.bind_eq_some_iff.mp hb
    unfold quotingStep at hq hq'
    dsimp only at hq hq'
    split_ifs at hq hq' with hquote hbare hbackslash
    · obtain rfl := Option.some.inj hq
      obtain rfl := Option.some.inj hq'
      exact (ih hb ha).symm.imp And.symm And.symm
    · exact absurd hbare (by rw [hbackslash]; decide)
    · obtain rfl := Option.some.inj hq
      obtain rfl := Option.some.inj hq'
      exact ih ha hb

/-- A text whose strings are closed does not stand behind a blank in another, but for what follows it. -/
theorem Closed.no_inner {z t r : Text} (h : Closed (z ++ ' ' :: (t ++ r))) (ht : Closed t) (hquote : '"' ∉ r)
    (hbackslash : '\\' ∉ r) : False := by
  rw [Closed, track_append] at h
  obtain ⟨q, -, hblank⟩ := Option.bind_eq_some_iff.mp h
  obtain ⟨q', hstep, hrest⟩ := Option.bind_eq_some_iff.mp hblank
  have hinside : q' = .inside := by
    cases q with
    | outside => exact absurd hstep (by simp [quotingStep, show isBare ' ' = false by decide])
    | inside | escaped => exact (Option.some.inj hstep).symm
  subst hinside
  rw [track_append] at hrest
  obtain ⟨q, hq, hrest⟩ := Option.bind_eq_some_iff.mp hrest
  obtain ⟨-, rfl⟩ | ⟨habsurd, -⟩ := track_opposite ht hq
  · -- what follows stays in the string
    have hstays : ∀ {r : Text}, '"' ∉ r → '\\' ∉ r → track .inside r ≠ some .outside := by
      intro r
      induction r with
      | nil => exact fun _ _ => by decide
      | cons c r ih =>
        intro hquote hbackslash h
        obtain ⟨q, hq, h⟩ := Option.bind_eq_some_iff.mp h
        rw [List.mem_cons, not_or] at hquote hbackslash
        unfold quotingStep at hq
        dsimp only at hq
        split_ifs at hq with h1 h2
        · exact hquote.1 h1.symm
        · exact hbackslash.1 h2.symm
        · rw [← Option.some.inj hq] at h
          exact ih hquote.2 hbackslash.2 h
    exact hstays hquote hbackslash hrest
  · exact absurd habsurd (by decide)

end JsonText
