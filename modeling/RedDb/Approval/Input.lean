import RedDb.Transfer.DocCsv

/-!
# RedDb — the input of a tool call

What the model asks a write tool to do is a JSON object. The gate makes a prompt of it and the
executor the calls of a driver, each with accessors of its own: a text may be read as it is, only
when it is not empty, or trimmed.

* `get_put_same`, `get_put_ne`  — one member of an input changed;
* `trimmed_pad` — a blank at the end of a text is not seen by who trims it;
* `respArg_append_inj` — the words of a command line are told apart.
-/

namespace RedDb.Approval

open TextCodec JsonText
open RedDb.Transfer (isWhite trimmed)

/-! ## Members -/

def get (key : String) : Json → Option Json
  | .object members => (members.find? fun m => m.1 == key).map Prod.snd
  | _ => none

def asStr : Json → Option Text
  | .string s => some s.toList
  | _ => none

def asBool : Json → Option Bool
  | .bool b => some b
  | _ => none

def asI64 : Json → Option Int
  | .number token => (intOfText token).filter fun n => -2 ^ 63 ≤ n ∧ n < 2 ^ 63
  | _ => none

def asArray : Json → Option (List Json)
  | .array items => some items
  | _ => none

def asObject : Json → Option (List (String × Json))
  | .object members => some members
  | _ => none

def strField (key : String) (input : Json) : Option Text := (get key input).bind asStr

def boolField (key : String) (input : Json) : Option Bool := (get key input).bind asBool

def intField (key : String) (input : Json) : Option Int := (get key input).bind asI64

/-- A text field that is not empty. -/
def filledField (key : String) (input : Json) : Option Text :=
  (strField key input).filter fun t => !t.isEmpty

/-- A text field, trimmed, that is not empty then. -/
def trimmedField (key : String) (input : Json) : Option Text :=
  ((strField key input).map trimmed).filter fun t => !t.isEmpty

/-- The members of an object with one of them set. -/
def put (key : String) (value : Json) : Json → Json
  | .object members => .object ((key, value) :: members.filter fun m => m.1 != key)
  | input => input

variable {input value : Json} {key : String}

theorem get_put_same (h : (asObject input).isSome) :
    get key (put key value input) = some value := by
  cases input with
  | object members => simp [get, put]
  | null | bool _ | number _ | string _ | array _ => exact absurd h (by simp [asObject])

theorem isObject_put (h : (asObject input).isSome) : (asObject (put key value input)).isSome := by
  cases input with
  | object members => rfl
  | null | bool _ | number _ | string _ | array _ => exact h

theorem get_put_ne {other : String} (hne : other ≠ key) (value : Json) (input : Json) :
    get other (put key value input) = get other input := by
  cases input with
  | object members =>
    have hhead : (key == other) = false := beq_eq_false_iff_ne.mpr fun h => hne h.symm
    simp only [get, put, List.find?_cons, hhead, List.find?_filter]
    congr 2
    funext m
    by_cases hm : m.1 = other
    · simp [hm, hne]
    · simp [hm]
  | null | bool _ | number _ | string _ | array _ => rfl

section Others

variable {key other : String} (hne : other ≠ key) (value : Json) (input : Json)

include hne

theorem strField_put_ne : strField other (put key value input) = strField other input := by
  rw [strField, get_put_ne hne, strField]

theorem filledField_put_ne : filledField other (put key value input) = filledField other input := by
  rw [filledField, strField_put_ne hne, filledField]

theorem trimmedField_put_ne : trimmedField other (put key value input) = trimmedField other input := by
  rw [trimmedField, strField_put_ne hne, trimmedField]

theorem boolField_put_ne : boolField other (put key value input) = boolField other input := by
  rw [boolField, get_put_ne hne, boolField]

theorem intField_put_ne : intField other (put key value input) = intField other input := by
  rw [intField, get_put_ne hne, intField]

end Others

/-! ## Blanks around a text -/

/-- A text with a blank behind it. -/
def pad (t : Text) : Text := t ++ [' ']

theorem pad_ne (t : Text) : pad t ≠ t := by
  intro h
  have hlength := congrArg List.length h
  rw [pad, List.length_append, List.length_singleton] at hlength
  omega

theorem trimmed_pad (t : Text) : trimmed (pad t) = trimmed t := by
  have hblank : isWhite ' ' = true := by decide
  unfold trimmed pad
  congr 1
  induction t with
  | nil => simp [hblank]
  | cons c t ih =>
    by_cases hc : isWhite c = true
    · rw [List.cons_append, List.dropWhile_cons_of_pos hc, List.dropWhile_cons_of_pos hc, ih]
    · rw [List.cons_append, List.dropWhile_cons_of_neg hc, List.dropWhile_cons_of_neg hc,
        ← List.cons_append, List.reverse_append, List.reverse_singleton, List.singleton_append,
        List.dropWhile_cons_of_pos hblank]

/-- An input with a blank behind one of its texts. -/
abbrev padField (key : String) (input : Json) : Json :=
  put key (.string (String.ofList (pad ((strField key input).getD [])))) input

variable {t : Text}

theorem strField_of_filled (h : filledField key input = some t) :
    strField key input = some t := (Option.filter_eq_some_iff.mp h).1

section PadField

variable {key : String} {input : Json}

theorem strField_padField (h : (asObject input).isSome) :
    strField key (padField key input) = some (pad ((strField key input).getD [])) := by
  rw [strField, padField, get_put_same h, Option.bind_some, asStr, String.toList_ofList]

theorem filledField_padField (h : (asObject input).isSome) :
    filledField key (padField key input) = some (pad ((strField key input).getD [])) := by
  rw [filledField, strField_padField h, Option.filter_some, if_pos (by simp [pad])]

/-- Who trims a text does not see the blank. -/
theorem trimmedField_padField (h : (asObject input).isSome) :
    trimmedField key (padField key input) = trimmedField key input := by
  rw [trimmedField, trimmedField, strField_padField h, Option.map_some, trimmed_pad]
  cases strField key input with
  | none => rfl
  | some t => rfl

/-- Who does not sees it. -/
theorem filledField_padField_ne (h : (asObject input).isSome) :
    filledField key (padField key input) ≠ filledField key input := by
  rw [filledField_padField h]
  intro heq
  have hsome : strField key input = some (pad ((strField key input).getD [])) := strField_of_filled heq.symm
  exact pad_ne _ (congrArg (fun t => t.getD []) hsome).symm

end PadField

theorem isObject_of_get (h : (get key input).isSome) : (asObject input).isSome := by
  cases input with
  | object members => rfl
  | null | bool _ | number _ | string _ | array _ => exact absurd h (by simp [get])

theorem isObject_of_strField (h : strField key input = some t) : (asObject input).isSome := by
  obtain ⟨v, hv, -⟩ := Option.bind_eq_some_iff.mp h
  exact isObject_of_get (by rw [hv]; rfl)

/-! ## Numbers spelled as numbers -/

theorem lexical_get {v : Json} (h : Lexical input) (hget : get key input = some v) : Lexical v := by
  have hmembers : ∀ {members : List (String × Json)}, LexicalMembers members → ∀ m ∈ members, Lexical m.2 := by
    intro members
    induction members with
    | nil => exact nofun
    | cons m members ih => exact fun h => List.forall_mem_cons.mpr ⟨h.1, ih h.2⟩
  cases input with
  | object members =>
    obtain ⟨m, hm, rfl⟩ := Option.map_eq_some_iff.mp hget
    exact hmembers h m (List.mem_of_find?_eq_some hm)
  | null | bool _ | number _ | string _ | array _ => exact absurd hget (by simp [get])

theorem lexical_put (key : String) (h : Lexical input) (hvalue : Lexical value) :
    Lexical (put key value input) := by
  have hfilter : ∀ {members : List (String × Json)}, LexicalMembers members →
      LexicalMembers (members.filter fun m => m.1 != key) := by
    intro members
    induction members with
    | nil => exact id
    | cons m members ih =>
      intro h
      rw [List.filter_cons]
      split
      · exact ⟨h.1, ih h.2⟩
      · exact ih h.2
  cases input with
  | object members => exact ⟨hvalue, hfilter h⟩
  | null | bool _ | number _ | string _ | array _ => exact h

/-! ## Texts of a prompt -/

/-- The outcome of vetting a tool call. -/
inductive WriteAssessment where
  | notWrite
  | reject (why : Text)
  | needsApproval (sql : Text)
  deriving DecidableEq

/-- At most `max` characters, the last an ellipsis where some are cut. -/
def truncateSummary (s : Text) (max : Nat) : Text :=
  if s.length ≤ max then s else s.take (max - 1) ++ ['…']

def ticked (t : Text) : Text := "`".toList ++ t ++ "`".toList

def isSimple (c : Char) : Bool :=
  c.isAlphanum || [':', '_', '-', '.', '/', '@', '+', '#'].contains c

def respEscape (c : Char) : Text :=
  if c = '"' then ['\\', '"']
  else if c = '\\' then ['\\', '\\']
  else if c = '\n' then ['\\', 'n']
  else if c = '\r' then ['\\', 'r']
  else if c = '\t' then ['\\', 't']
  else [c]

/-- One argument as `redis-cli` echoes it: bare when it is simple, quoted otherwise. -/
def respArg (s : Text) : Text :=
  if !s.isEmpty && s.all isSimple then s else '"' :: s.flatMap respEscape ++ ['"']

/-! ## Words of a line -/

/-- A word ends here: at the end of the line, or before a blank. -/
def WordEnds (rest : Text) : Prop := ∀ c ∈ rest.head?, c = ' '

theorem wordEnds_nil : WordEnds [] := fun c hc => absurd hc (Option.not_mem_none c)

theorem wordEnds_cons (rest : Text) : WordEnds (' ' :: rest) := fun _ hc => (Option.some.inj hc).symm

variable {r r' s : Text}

/-- Two runs of such characters, each followed by another or by none, are the same run. -/
theorem run_append_inj {p : Char → Bool} (hs : ∀ c ∈ s, p c = true) (ht : ∀ c ∈ t, p c = true)
    (hr : ∀ c ∈ r.head?, p c = false) (hr' : ∀ c ∈ r'.head?, p c = false) (h : s ++ r = t ++ r') :
    s = t ∧ r = r' := by
  have htake : ∀ {s r : Text}, (∀ c ∈ s, p c = true) → (∀ c ∈ r.head?, p c = false) →
      (s ++ r).takeWhile p = s := by
    intro s r hs hr
    rw [List.takeWhile_append_of_pos hs]
    cases r with
    | nil => rw [List.takeWhile_nil, List.append_nil]
    | cons c r =>
      rw [List.takeWhile_cons_of_neg (by rw [hr c rfl]; exact Bool.false_ne_true), List.append_nil]
  have hword : s = t := (htake hs hr).symm.trans ((congrArg (List.takeWhile p) h).trans (htake ht hr'))
  subst hword
  exact ⟨rfl, List.append_cancel_left h⟩

/-- Two bare words followed by ends are the same word. -/
theorem bare_append_inj {p : Char → Bool} (hp : p ' ' = false) (hs : ∀ c ∈ s, p c = true)
    (ht : ∀ c ∈ t, p c = true) (hr : WordEnds r) (hr' : WordEnds r') (h : s ++ r = t ++ r') :
    s = t ∧ r = r' :=
  run_append_inj hs ht (fun c hc => by rw [hr c hc, hp]) (fun c hc => by rw [hr' c hc, hp]) h

/-- The character that a backslash and this one stand for. -/
def respUnescape (c : Char) : Char :=
  if c = 'n' then '\n' else if c = 'r' then '\r' else if c = 't' then '\t' else c

/-- A quoted argument behind its opening quote, and what follows it. -/
def readQuoted : Text → Option (Text × Text)
  | [] => none
  | '"' :: rest => some ([], rest)
  | '\\' :: e :: rest => (readQuoted rest).map fun (s, r) => (respUnescape e :: s, r)
  | c :: rest => (readQuoted rest).map fun (s, r) => (c :: s, r)

theorem readQuoted_respEscape (c : Char) (rest : Text) :
    readQuoted (respEscape c ++ rest) = (readQuoted rest).map fun (s, r) => (c :: s, r) := by
  unfold respEscape
  split
  · rename_i h
    subst h
    rfl
  split
  · rename_i h
    subst h
    rfl
  split
  · rename_i h
    subst h
    rfl
  split
  · rename_i h
    subst h
    rfl
  split
  · rename_i h
    subst h
    rfl
  · rename_i hquote hbackslash _ _ _
    rw [List.singleton_append, readQuoted.eq_4 c rest hquote fun e rest' h _ => hbackslash h]

theorem readQuoted_flatMap (s rest : Text) :
    readQuoted (s.flatMap respEscape ++ '"' :: rest) = some (s, rest) := by
  induction s with
  | nil => rfl
  | cons c s ih => rw [List.flatMap_cons, List.append_assoc, readQuoted_respEscape, ih, Option.map_some]

/-- The arguments of a line are told apart. -/
theorem respArg_append_inj (hr : WordEnds r) (hr' : WordEnds r')
    (h : respArg s ++ r = respArg t ++ r') : s = t ∧ r = r' := by
  have hbare : ∀ {s r q : Text}, (!s.isEmpty && s.all isSimple) = true → s ++ r ≠ '"' :: q := by
    intro s r q hs heq
    rw [Bool.and_eq_true] at hs
    cases s with
    | nil => exact absurd hs.1 (by decide)
    | cons c s =>
      have hc : isSimple c = true := List.all_eq_true.mp hs.2 c List.mem_cons_self
      rw [(List.cons.inj heq).1] at hc
      cases hc
  unfold respArg at h
  split at h
  · rename_i hs
    split at h
    · rename_i ht
      rw [Bool.and_eq_true, List.all_eq_true] at hs ht
      exact bare_append_inj (by decide) hs.2 ht.2 hr hr' h
    · exact absurd h (hbare hs)
  · split at h
    · rename_i ht
      exact absurd h.symm (hbare ht)
    have hrest (s r : Text) : '"' :: s.flatMap respEscape ++ ['"'] ++ r =
        '"' :: (s.flatMap respEscape ++ '"' :: r) := by simp
    rw [hrest, hrest] at h
    have hread := congrArg readQuoted (List.cons.inj h).2
    rw [readQuoted_flatMap, readQuoted_flatMap] at hread
    exact Prod.mk.inj (Option.some.inj hread)

end RedDb.Approval
