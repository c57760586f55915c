import RedDb.Driver.PgText
import RedDb.Lib.Blanks

/-!
# RedDb — Redis commands as lines of text

A key export writes one command per line, each argument quoted the way `redis-cli` quotes
it, and an import splits the line again. Text is held as its UTF-8 bytes.

* `lossy_exact` — text without a replacement character was decoded exactly;
* `tokenize_commandLine` — splitting a line that was written gives back its arguments;
* `commandLine_exact` — and the line is one line.
-/

namespace RedDb.Kv

open ByteText RedDb.Driver

/-! ## Lossy text -/

/-- U+FFFD. -/
def replacementChar : Bytes := [0xEF, 0xBF, 0xBD]

/-- The text holds a replacement character. -/
def isLossyText : Bytes → Bool
  | [] => false
  | c :: rest => replacementChar.isPrefixOf (c :: rest) || isLossyText rest

theorem isLossyText_append_right (p : Bytes) {q : Bytes} (h : isLossyText q = true) :
    isLossyText (p ++ q) = true := by
  induction p with
  | nil => exact h
  | cons c p ih => rw [List.cons_append, isLossyText, ih, Bool.or_true]

theorem isLossyText_replacement (q : Bytes) : isLossyText (replacementChar ++ q) = true := rfl

theorem utf8Char_pos (c : UInt8) (rest : Bytes) : 1 ≤ (utf8Char (c :: rest)).1 := by
  rw [utf8Char.eq_def]
  dsimp only
  split
  · exact Nat.le_refl 1
  split
  · split
    · show 1 ≤ 2 + _
      omega
    · exact Nat.le_refl 1
  · exact Nat.le_refl 1

theorem lossyFrom_valid {fuel : Nat} {b : Bytes} (h : validFrom fuel b = true)
    (hfuel : b.length ≤ fuel) : lossyFrom fuel b = b := by
  induction fuel generalizing b with
  | zero =>
    rw [List.length_eq_zero_iff.mp (Nat.le_zero.mp hfuel)]
    rfl
  | succ fuel ih =>
    cases b with
    | nil => rfl
    | cons c rest =>
      rw [validFrom, Bool.and_eq_true] at h
      have hpos := utf8Char_pos c rest
      rw [lossyFrom]
      dsimp only
      rw [if_pos h.1, ih h.2, List.take_append_drop]
      rw [List.length_drop]
      omega

theorem isLossyText_lossyFrom {fuel : Nat} {b : Bytes} (h : validFrom fuel b = false) :
    isLossyText (lossyFrom fuel b) = true := by
  induction fuel generalizing b with
  | zero => cases h
  | succ fuel ih =>
    cases b with
    | nil => cases h
    | cons c rest =>
      rw [validFrom, Bool.and_eq_false_iff] at h
      rw [lossyFrom]
      dsimp only
      cases hwhole : (utf8Char (c :: rest)).2 with
      | false =>
        rw [if_neg Bool.false_ne_true]
        exact isLossyText_replacement _
      | true =>
        rw [hwhole] at h
        exact isLossyText_append_right _ (ih (h.resolve_left (by decide)))

theorem fromUtf8Lossy_valid {b : Bytes} (h : validUtf8 b = true) : fromUtf8Lossy b = b :=
  lossyFrom_valid h (Nat.le_refl _)

/-- Text without a replacement character was decoded exactly, from valid bytes. -/
theorem lossy_exact {b : Bytes} (h : isLossyText (fromUtf8Lossy b) = false) :
    fromUtf8Lossy b = b ∧ validUtf8 b = true := by
  cases hvalid : validUtf8 b with
  | true => exact ⟨fromUtf8Lossy_valid hvalid, rfl⟩
  | false =>
    have hlossy : isLossyText (fromUtf8Lossy b) = true := isLossyText_lossyFrom hvalid
    rw [h] at hlossy
    cases hlossy

/-! ## Quoting -/

/-- The characters that need no quoting: letters, digits and `- _ . : / @ + #`. -/
def isBareSafe (c : UInt8) : Bool :=
  isAsciiAlphanumeric c || [45, 95, 46, 58, 47, 64, 43, 35].contains c

def lowerHex (n : Nat) : UInt8 := UInt8.ofNat (if n < 10 then 48 + n else 87 + n)

/-- One character inside double quotes. Control characters ride as their byte. -/
def escape (c : UInt8) : Bytes :=
  if c = 34 then [92, 34]
  else if c = 92 then [92, 92]
  else if c = 10 then [92, 110]
  else if c = 13 then [92, 114]
  else if c = 9 then [92, 116]
  else if c < 0x20 ∨ c = 0x7F then [92, 120, lowerHex (c.toNat / 16), lowerHex (c.toNat % 16)]
  else [c]

def quoteArg (s : Bytes) : Bytes :=
  if !s.isEmpty && s.all isBareSafe then s else [34] ++ s.flatMap escape ++ [34]

def commandLine (argv : List Bytes) : Bytes := [32].intercalate (argv.map quoteArg)

/-! ## Splitting -/

def hexDigitValue (c : UInt8) : Option Nat :=
  if 48 ≤ c ∧ c ≤ 57 then some (c.toNat - 48)
  else if 97 ≤ c ∧ c ≤ 102 then some (c.toNat - 87)
  else if 65 ≤ c ∧ c ≤ 70 then some (c.toNat - 55)
  else none

/-- Two hex digits as one byte. -/
@[grind =] def takeHexByte : Bytes → Option UInt8
  | hi :: lo :: _ =>
    match hexDigitValue hi, hexDigitValue lo with
    | some h, some l => some (UInt8.ofNat (h * 16 + l))
    | _, _ => none
  | _ => none

/-- What a backslash stands for, and how many bytes behind it belong to it. -/
def unescape : Bytes → Bytes × Nat
  | [] => ([], 0)
  | c :: rest =>
    if c = 110 then ([10], 1)
    else if c = 114 then ([13], 1)
    else if c = 116 then ([9], 1)
    else if c = 98 then ([8], 1)
    else if c = 97 then ([7], 1)
    else if c = 120 then
      match takeHexByte rest with
      | some b => ([b], 3)
      -- Not two hex digits: the text is literal.
      | none => ([120], 1)
    else ([c], 1)

/-- What the splitter is in: between arguments, or in one of which `tok` was read. `skip`
bytes were looked at already. -/
inductive Splitting where
  | gap (skip : Nat)
  | bare (tok : Bytes)
  | single (tok : Bytes)
  | quoted (skip : Nat) (tok : Bytes)

@[grind =] def tokenizeFrom : Splitting → Bytes → List Bytes
  | .gap _, [] => []
  | .bare tok, [] | .single tok, [] | .quoted _ tok, [] => [fromUtf8Lossy tok]
  | .gap (skip + 1), _ :: rest => tokenizeFrom (.gap skip) rest
  | .gap 0, c :: rest =>
    match wsLen (c :: rest) with
    | k + 1 => tokenizeFrom (.gap k) rest
    | 0 =>
      if c = 39 then tokenizeFrom (.single []) rest
      else if c = 34 then tokenizeFrom (.quoted 0 []) rest
      else tokenizeFrom (.bare [c]) rest
  | .bare tok, c :: rest =>
    match wsLen (c :: rest) with
    | k + 1 => fromUtf8Lossy tok :: tokenizeFrom (.gap k) rest
    | 0 => tokenizeFrom (.bare (tok ++ [c])) rest
  | .single tok, c :: rest =>
    if c = 39 then fromUtf8Lossy tok :: tokenizeFrom (.gap 0) rest
    else tokenizeFrom (.single (tok ++ [c])) rest
  | .quoted (skip + 1) tok, _ :: rest => tokenizeFrom (.quoted skip tok) rest
  | .quoted 0 tok, c :: rest =>
    if c = 34 then fromUtf8Lossy tok :: tokenizeFrom (.gap 0) rest
    else if c = 92 then
      let (pushed, skip) := unescape rest
      tokenizeFrom (.quoted skip (tok ++ pushed)) rest
    else tokenizeFrom (.quoted 0 (tok ++ [c])) rest

def tokenizeCommand (line : Bytes) : List Bytes := tokenizeFrom (.gap 0) line

/-! ## Round trip -/

/-- What holds of the 256 bytes holds of every byte. -/
theorem forall_byte {p : UInt8 → Bool} (h : ∀ n < 256, p (UInt8.ofNat n) = true) (c : UInt8) :
    p c = true := by
  have := h c.toNat c.toNat_lt
  rwa [UInt8.ofNat_toNat] at this

theorem bareSafe_plain {c : UInt8} (h : isBareSafe c = true) :
    isBlankByte c = false ∧ c ≠ singleQuote ∧ c ≠ doubleQuote := by
  have hall := forall_byte (p := fun c => !isBareSafe c ||
    (!isBlankByte c && c != singleQuote && c != doubleQuote)) (by decide +kernel) c
  simpa [h, and_assoc] using hall

theorem hex_escape {c : UInt8} : hexDigitValue (lowerHex (c.toNat / 16)) = some (c.toNat / 16) ∧
      hexDigitValue (lowerHex (c.toNat % 16)) = some (c.toNat % 16) := by
  have hall := forall_byte (p := fun c =>
    hexDigitValue (lowerHex (c.toNat / 16)) == some (c.toNat / 16) &&
      hexDigitValue (lowerHex (c.toNat % 16)) == some (c.toNat % 16)) (by decide +kernel) c
  simpa using hall

/-- What escaping writes, the splitter reads. -/
theorem tokenize_escape (c : UInt8) (tok rest : Bytes) :
    tokenizeFrom (.quoted 0 tok) (escape c ++ rest) = tokenizeFrom (.quoted 0 (tok ++ [c])) rest := by
  unfold escape
  split
  · rename_i h
    rw [h]
    rfl
  split
  · rename_i h
    rw [h]
    rfl
  split
  · rename_i h
    rw [h]
    rfl
  split
  · rename_i h
    rw [h]
    rfl
  split
  · rename_i h
    rw [h]
    rfl
  split
  · have hbyte : UInt8.ofNat (c.toNat / 16 * 16 + c.toNat % 16) = c := by
      rw [Nat.div_add_mod', UInt8.ofNat_toNat]
    have hunescape : unescape (120 :: lowerHex (c.toNat / 16) :: lowerHex (c.toNat % 16) :: rest) =
        ([c], 3) := by
      show (match takeHexByte (_ :: _ :: rest) with | some b => ([b], 3) | none => _) = _
      rw [takeHexByte, hex_escape.1, hex_escape.2]
      dsimp only
      rw [hbyte]
    show tokenizeFrom (.quoted (unescape (120 :: _ :: _ :: rest)).2
      (tok ++ (unescape (120 :: _ :: _ :: rest)).1)) (120 :: _ :: _ :: rest) = _
    rw [hunescape]
    rfl
  · rename_i h34 h92 _ _ _ _
    show tokenizeFrom _ (c :: rest) = _
    rw [tokenizeFrom, if_neg h34, if_neg h92]

theorem tokenize_escaped (s tok rest : Bytes) :
    tokenizeFrom (.quoted 0 tok) (s.flatMap escape ++ doubleQuote :: rest) =
      fromUtf8Lossy (tok ++ s) :: tokenizeFrom (.gap 0) rest := by
  induction s generalizing tok with
  | nil =>
    rw [List.append_nil]
    rfl
  | cons c s ih =>
    rw [List.flatMap_cons, List.append_assoc, tokenize_escape, ih, List.append_assoc]
    rfl

/-- A bare argument ends at a space or at the end of the line. -/
theorem tokenize_bare {s : Bytes} (h : s.all isBareSafe = true) (tok rest : Bytes) :
    tokenizeFrom (.bare tok) (s ++ space :: rest) =
        fromUtf8Lossy (tok ++ s) :: tokenizeFrom (.gap 0) rest ∧
      tokenizeFrom (.bare tok) s = [fromUtf8Lossy (tok ++ s)] := by
  induction s generalizing tok with
  | nil =>
    rw [List.append_nil]
    exact ⟨rfl, rfl⟩
  | cons c s ih =>
    rw [List.all_cons, Bool.and_eq_true] at h
    have hblank := wsLen_ascii (bareSafe_plain h.1).1
    rw [List.cons_append, tokenizeFrom, tokenizeFrom, hblank, hblank,
      show tok ++ c :: s = tok ++ [c] ++ s by rw [List.append_assoc]; rfl]
    exact ih h.2 (tok ++ [c])

/-- An argument as it was quoted, at the end of the line or in front of the next one. -/
theorem tokenize_quoteArg (s rest : Bytes) : tokenizeFrom (.gap 0) (quoteArg s ++ space :: rest) =
        fromUtf8Lossy s :: tokenizeFrom (.gap 0) rest ∧
      tokenizeFrom (.gap 0) (quoteArg s) = [fromUtf8Lossy s] := by
  unfold quoteArg
  split
  · rename_i hbare
    obtain ⟨hne, hall⟩ := Bool.and_eq_true_iff.mp hbare
    obtain ⟨c, s, rfl⟩ := List.exists_cons_of_ne_nil
      (List.isEmpty_eq_false_iff.mp (Bool.not_eq_true' _ ▸ hne))
    rw [List.all_cons, Bool.and_eq_true] at hall
    obtain ⟨hblank, hsingle, hdouble⟩ := bareSafe_plain hall.1
    rw [List.cons_append, tokenizeFrom, tokenizeFrom, wsLen_ascii hblank, wsLen_ascii hblank]
    simp only [if_neg hsingle, if_neg hdouble]
    exact tokenize_bare hall.2 [c] rest
  · have hclose : ∀ tail, tokenizeFrom (.gap 0) ([34] ++ s.flatMap escape ++ [34] ++ tail) =
        fromUtf8Lossy s :: tokenizeFrom (.gap 0) tail := by
      intro tail
      rw [List.append_assoc, List.append_assoc, List.singleton_append, tokenizeFrom,
        wsLen_ascii (by decide)]
      exact tokenize_escaped s [] tail
    constructor
    · rw [hclose]
      rfl
    · have := hclose []
      rwa [List.append_nil] at this

/-- **Command lines.** -/
theorem tokenize_commandLine {argv : List Bytes} (h : ∀ s ∈ argv, validUtf8 s = true) :
    tokenizeCommand (commandLine argv) = argv := by
  have hlossy : ∀ argv : List Bytes, tokenizeCommand (commandLine argv) = argv.map fromUtf8Lossy := by
    intro argv
    induction argv with
    | nil => rfl
    | cons s rest ih =>
      cases rest with
      | nil =>
        rw [commandLine, List.map_singleton, List.intercalate_singleton]
        exact (tokenize_quoteArg s []).2
      | cons t rest =>
        rw [commandLine, List.map_cons, List.map_cons, List.intercalate_cons_cons,
          List.append_assoc, tokenizeCommand, List.singleton_append, (tokenize_quoteArg s _).1]
        exact congrArg _ ih
  rw [hlossy, List.map_congr_left fun s hs => fromUtf8Lossy_valid (h s hs)]
  exact List.map_id _

theorem escape_unbroken (c : UInt8) : ∀ e ∈ escape c, e ≠ newline ∧ e ≠ carriageReturn := by
  have hall := forall_byte (p := fun c => (escape c).all fun e => e != newline && e != carriageReturn)
    (by decide +kernel) c
  intro e he
  simpa using List.all_eq_true.mp hall e he

theorem bareSafe_unbroken {c : UInt8} (h : isBareSafe c = true) : c ≠ newline ∧ c ≠ carriageReturn := by
  constructor
  · rintro rfl
    exact absurd h (by decide)
  · rintro rfl
    exact absurd h (by decide)

theorem quoteArg_unbroken (s : Bytes) : ∀ c ∈ quoteArg s, c ≠ newline ∧ c ≠ carriageReturn := by
  intro c hc
  unfold quoteArg at hc
  split at hc
  · rename_i hbare
    exact bareSafe_unbroken (List.all_eq_true.mp (Bool.and_eq_true_iff.mp hbare).2 c hc)
  rw [List.mem_append, List.mem_append, List.mem_singleton] at hc
  rcases hc with (rfl | hc) | rfl
  · decide
  · obtain ⟨e, -, hc⟩ := List.mem_flatMap.mp hc
    exact escape_unbroken e c hc
  · decide

theorem commandLine_unbroken (argv : List Bytes) :
    ∀ c ∈ commandLine argv, c ≠ newline ∧ c ≠ carriageReturn := by
  induction argv with
  | nil => exact fun c hc => absurd hc List.not_mem_nil
  | cons s rest ih =>
    cases rest with
    | nil =>
      rw [commandLine, List.map_singleton, List.intercalate_singleton]
      exact quoteArg_unbroken s
    | cons t rest =>
      intro c hc
      rw [commandLine, List.map_cons, List.map_cons, List.intercalate_cons_cons, List.mem_append,
        List.mem_append, List.mem_singleton] at hc
      rcases hc with (hc | rfl) | hc
      · exact quoteArg_unbroken s c hc
      · decide
      · exact ih c hc

/-- **A command is one line**, and the line is split into the command again. -/
theorem commandLine_exact {argv : List Bytes} (h : ∀ s ∈ argv, validUtf8 s = true) :
    tokenizeCommand (commandLine argv) = argv ∧
      ∀ c ∈ commandLine argv, c ≠ newline ∧ c ≠ carriageReturn :=
  ⟨tokenize_commandLine h, commandLine_unbroken argv⟩

theorem commandLine_exact_set :
    commandLine [ascii "SET", [], [10, 34, 92, 13]] = ascii "SET \"\" \"\\n\\\"\\\\\\r\"" ∧
      tokenizeCommand (commandLine [ascii "SET", [], [10, 34, 92, 13]]) = [ascii "SET", [], [10, 34, 92, 13]] := by
  have hvalid : ∀ s ∈ [ascii "SET", [], [10, 34, 92, 13]], validUtf8 s = true := by decide
  exact ⟨by decide, (commandLine_exact hvalid).1⟩

end RedDb.Kv
