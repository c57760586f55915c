import RedDb.Lib.TextCodec

/-!
# RedDb — text in a spreadsheet

A text cell is written into an XML element, and what XML cannot hold rides as SpreadsheetML's own
`_xHHHH_` escape. A reader undoes the XML first and the escapes then.

* `readXml_cons` — what undoing the XML leaves of a character;
* `unescape_kept` — a character that is read back;
* `readCell_iff` — the texts that a reader gets back.
-/

namespace RedDb.Transfer

open TextCodec

/-! ## The writer -/

def isHexDigit (c : Char) : Bool := (hexValue c).isSome

def upperHex (n : Nat) : Char := Char.ofNat (if n < 10 then 48 + n else 55 + n)

/-- Four upper-case digits. -/
def upperHex4 (n : Nat) : Text :=
  [upperHex (n / 4096 % 16), upperHex (n / 256 % 16), upperHex (n / 16 % 16), upperHex (n % 16)]

/-- Whether the text starts with a literal `_xHHHH_`. -/
def looksLikeEscape : Text → Bool
  | '_' :: 'x' :: a :: b :: c :: d :: '_' :: _ => isHexDigit a && isHexDigit b && isHexDigit c && isHexDigit d
  | _ => false

/-- Control characters other than tab and line ends, and the two noncharacters. -/
def isUnwritable (c : Char) : Bool :=
  (c.toNat < 0x20 && c != '\t' && c != '\n' && c != '\r') || c.toNat == 0xFFFE || c.toNat == 0xFFFF

def cellEscape (n : Nat) : Text := '_' :: 'x' :: upperHex4 n ++ ['_']

def xlsxText : Text → Text
  | [] => []
  | c :: rest =>
    (if c = '&' then ['&', 'a', 'm', 'p', ';']
      else if c = '<' then ['&', 'l', 't', ';']
      else if c = '>' then ['&', 'g', 't', ';']
      else if c = '"' then ['&', 'q', 'u', 'o', 't', ';']
      else if c = '\x27' then ['&', 'a', 'p', 'o', 's', ';']
      else if looksLikeEscape (c :: rest) then ['_', 'x', '0', '0', '5', 'F', '_']
      else if isUnwritable c then cellEscape c.toNat
      else [c]) ++ xlsxText rest

/-! ## The reader -/

/-- Line ends as XML has them. -/
def normalizeLines : Text → Text
  | [] => []
  | c :: rest =>
    if c = '\r' then
      if rest.head? = some '\n' then normalizeLines rest else '\n' :: normalizeLines rest
    else c :: normalizeLines rest

def entities : List (Text × Char) :=
  [(['&', 'a', 'm', 'p', ';'], '&'), (['&', 'l', 't', ';'], '<'), (['&', 'g', 't', ';'], '>'),
    (['&', 'q', 'u', 'o', 't', ';'], '"'), (['&', 'a', 'p', 'o', 's', ';'], '\x27')]

/-- The text with its entities undone; `skip` characters belong to the last one. -/
def unescapeXml : Nat → Text → Text
  | _, [] => []
  | skip + 1, _ :: rest => unescapeXml skip rest
  | 0, c :: rest =>
    match entities.find? fun e => e.1.isPrefixOf (c :: rest) with
    | some (name, e) => e :: unescapeXml (name.length - 1) rest
    | none => c :: unescapeXml 0 rest

/-- The code of the escape that the text starts with. -/
def cellUnit : Text → Option Nat
  | '_' :: 'x' :: a :: b :: c :: d :: '_' :: _ =>
    (hexValue a).bind fun a => (hexValue b).bind fun b => (hexValue c).bind fun c =>
      (hexValue d).map fun d => 4096 * a + 256 * b + 16 * c + d
  | _ => none

/-- The code points of a cell, its escapes read from left to right. -/
@[grind =] def unescapeCell : Nat → Text → List Nat
  | _, [] => []
  | skip + 1, _ :: rest => unescapeCell skip rest
  | 0, c :: rest =>
    match cellUnit (c :: rest) with
    | some n => n :: unescapeCell 6 rest
    | none => c.toNat :: unescapeCell 0 rest

/-- The text of an element, with the XML undone. -/
def readXml (text : Text) : Text := unescapeXml 0 (normalizeLines text)

def readCell (text : Text) : List Nat := unescapeCell 0 (readXml text)

/-! ## What a reader gets back -/

/-- What would be an escape, as the character behind it is written with an underscore in front. -/
def tears : Text → Bool
  | '_' :: 'x' :: a :: b :: c :: d :: e :: _ =>
    isHexDigit a && isHexDigit b && isHexDigit c && isHexDigit d && isUnwritable e
  | _ => false

/-- A character of the cell, with the XML undone. -/
def inCell (c : Char) (rest : Text) : Text :=
  if looksLikeEscape (c :: rest) then ['_', 'x', '0', '0', '5', 'F', '_']
  else if isUnwritable c then cellEscape c.toNat
  else [c]

section Cell

variable {c : Char} {s t : Text}

theorem normalizeLines_append (h : '\r' ∉ s) (t : Text) : normalizeLines (s ++ t) = s ++ normalizeLines t := by
  induction s with
  | nil => rfl
  | cons c s ih =>
    rw [List.mem_cons, not_or] at h
    rw [List.cons_append, normalizeLines, if_neg (Ne.symm h.1), ih h.2, List.cons_append]

theorem unescapeXml_append (h : '&' ∉ s) (t : Text) : unescapeXml 0 (s ++ t) = s ++ unescapeXml 0 t := by
  induction s with
  | nil => rfl
  | cons c s ih =>
    rw [List.mem_cons, not_or] at h
    have hnone : (entities.find? fun e => e.1.isPrefixOf (c :: (s ++ t))) = none := by
      rw [List.find?_eq_none]
      intro e he hprefix
      obtain ⟨u, hu⟩ := List.isPrefixOf_iff_prefix.mp hprefix
      have hfirst : ∀ e ∈ entities, e.1.head? = some '&' := by decide
      obtain ⟨name, hname⟩ : ∃ name, e.1 = '&' :: name := by
        have hhead := hfirst e he
        cases hn : e.1 with
        | nil => rw [hn] at hhead; cases hhead
        | cons d name => exact ⟨name, by rw [hn] at hhead; rw [Option.some.inj hhead]⟩
      rw [hname, List.cons_append] at hu
      exact h.1 (List.cons.inj hu).1
    rw [List.cons_append, unescapeXml, hnone]
    exact congrArg (c :: ·) (ih h.2)

/-- The digits of an escape are no line end, no ampersand and no underscore. -/
theorem upperHex_spec {n : Nat} (h : n < 16) :
    hexValue (upperHex n) = some n ∧ upperHex n ≠ '\r' ∧ upperHex n ≠ '&' := by
  have hall : ∀ n < 16, hexValue (upperHex n) = some n ∧ upperHex n ≠ '\r' ∧ upperHex n ≠ '&' := by decide
  exact hall n h

theorem inCell_plain (h : c ≠ '\r') (hamp : c ≠ '&') (rest : Text) : '\r' ∉ inCell c rest ∧ '&' ∉ inCell c rest := by
  have hdigit := fun n : Nat => (upperHex_spec (Nat.mod_lt n (by decide : 0 < 16))).2
  unfold inCell
  split
  · decide
  split
  · simp only [cellEscape, upperHex4, List.cons_append, List.nil_append, List.mem_cons, List.not_mem_nil,
      or_false, not_or]
    exact ⟨⟨by decide, by decide, (hdigit _).1.symm, (hdigit _).1.symm, (hdigit _).1.symm, (hdigit _).1.symm,
      by decide⟩, by decide, by decide, (hdigit _).2.symm, (hdigit _).2.symm, (hdigit _).2.symm,
      (hdigit _).2.symm, by decide⟩
  · simp only [List.mem_singleton]
    exact ⟨Ne.symm h, Ne.symm hamp⟩

/-- Undoing the XML leaves a character as it is, or its escape. -/
theorem readXml_cons (h : c ≠ '\r') (s : Text) :
    readXml (xlsxText (c :: s)) = inCell c s ++ readXml (xlsxText s) := by
  have hentity : ∀ (name : Text) (e : Char), (name, e) ∈ entities → '\r' ∉ name →
      looksLikeEscape (e :: s) = false → isUnwritable e = false →
      readXml (name ++ xlsxText s) = inCell e s ++ readXml (xlsxText s) := by
    intro name e he hname hlooks hwritable
    rw [inCell, hlooks, hwritable, readXml, normalizeLines_append hname]
    simp only [entities, List.mem_cons, List.not_mem_nil, or_false, Prod.mk.injEq] at he
    rcases he with ⟨rfl, rfl⟩ | ⟨rfl, rfl⟩ | ⟨rfl, rfl⟩ | ⟨rfl, rfl⟩ | ⟨rfl, rfl⟩ <;> rfl
  have hlooks : ∀ e, e ≠ '_' → looksLikeEscape (e :: s) = false := by
    intro e he
    unfold looksLikeEscape
    split
    · rename_i heq
      exact absurd (List.cons.inj heq).1 he
    · rfl
  rw [xlsxText]
  split
  · rename_i heq
    rw [heq]
    exact hentity _ _ (by decide) (by decide) (hlooks _ (by decide)) (by decide)
  split
  · rename_i heq
    rw [heq]
    exact hentity _ _ (by decide) (by decide) (hlooks _ (by decide)) (by decide)
  split
  · rename_i heq
    rw [heq]
    exact hentity _ _ (by decide) (by decide) (hlooks _ (by decide)) (by decide)
  split
  · rename_i heq
    rw [heq]
    exact hentity _ _ (by decide) (by decide) (hlooks _ (by decide)) (by decide)
  split
  · rename_i heq
    rw [heq]
    exact hentity _ _ (by decide) (by decide) (hlooks _ (by decide)) (by decide)
  rename_i hamp _ _ _ _
  obtain ⟨hcr, hplain⟩ := inCell_plain h hamp s
  have hsame : (if looksLikeEscape (c :: s) then ['_', 'x', '0', '0', '5', 'F', '_']
      else if isUnwritable c then cellEscape c.toNat else [c]) = inCell c s := rfl
  rw [hsame, readXml, normalizeLines_append hcr, unescapeXml_append hplain]
  rfl

/-- A carriage return is gone. -/
theorem readXml_return (s : Text) : (readXml (xlsxText ('\r' :: s))).head? = some '\n' := by
  have hshape : xlsxText ('\r' :: s) = '\r' :: xlsxText s := by
    have hlooks : looksLikeEscape ('\r' :: s) = false := rfl
    rw [xlsxText, hlooks]
    rfl
  have hfeed : ∀ t, (unescapeXml 0 ('\n' :: t)).head? = some '\n' := fun t => rfl
  rw [hshape, readXml, normalizeLines, if_pos rfl]
  split
  · rename_i hnext
    cases ht : xlsxText s with
    | nil => rw [ht] at hnext; cases hnext
    | cons d t =>
      rw [ht] at hnext
      rw [Option.some.inj hnext, normalizeLines, if_neg (by decide)]
      exact hfeed _
  · exact hfeed _

theorem hexDigit_spec {c : Char} (h : isHexDigit c = true) :
    c ≠ '_' ∧ c ≠ '\n' ∧ c ≠ '\r' ∧ isUnwritable c = false := by
  have hout : ∀ d : Char, hexValue d = none → c ≠ d := by
    rintro d hd rfl
    rw [isHexDigit, hd] at h
    cases h
  refine ⟨hout _ (by decide), hout _ (by decide), hout _ (by decide), ?_⟩
  have hrange : 48 ≤ c.toNat ∧ c.toNat ≤ 102 := by
    rw [isHexDigit, hexValue] at h
    split_ifs at h <;> first | omega | cases h
  have h1 : ¬ c.toNat < 0x20 := by omega
  have h2 : c.toNat ≠ 0xFFFE := by omega
  have h3 : c.toNat ≠ 0xFFFF := by omega
  simp [isUnwritable, h1, h2, h3]

/-- A character that is written as itself stands first only where it did. -/
theorem peel {p : Char} (hp : p ≠ '_' ∧ p ≠ '\n') (h : readXml (xlsxText s) = p :: t) :
    ∃ s', s = p :: s' ∧ readXml (xlsxText s') = t := by
  cases s with
  | nil => cases h
  | cons c s =>
    by_cases hc : c = '\r'
    · have hhead := readXml_return s
      rw [← hc, h] at hhead
      exact absurd (Option.some.inj hhead) hp.2
    rw [readXml_cons hc] at h
    unfold inCell at h
    split at h
    · exact absurd (List.cons.inj h).1.symm hp.1
    split at h
    · exact absurd (List.cons.inj h).1.symm hp.1
    · obtain ⟨rfl, ht⟩ := List.cons.inj h
      exact ⟨s, rfl, ht⟩

theorem peel_underscore (h : readXml (xlsxText s) = '_' :: t) :
    ∃ e s', s = e :: s' ∧ (e = '_' ∨ isUnwritable e = true) := by
  cases s with
  | nil => cases h
  | cons c s =>
    by_cases hc : c = '\r'
    · have hhead := readXml_return s
      rw [← hc, h] at hhead
      exact absurd (Option.some.inj hhead) (by decide)
    refine ⟨c, s, rfl, ?_⟩
    rw [readXml_cons hc] at h
    unfold inCell at h
    split at h
    · rename_i hlooks
      unfold looksLikeEscape at hlooks
      split at hlooks
      · rename_i heq
        exact Or.inl (List.cons.inj heq).1
      · cases hlooks
    · split at h
      · rename_i hwritable
        exact Or.inr hwritable
      · exact Or.inl (List.cons.inj h).1

/-- An escape is found where it stands, its digits and its marks. -/
theorem cellUnit_some {n : Nat} (h : cellUnit t = some n) : ∃ a b c d behind,
    t = '_' :: 'x' :: a :: b :: c :: d :: '_' :: behind ∧ isHexDigit a = true ∧ isHexDigit b = true ∧
      isHexDigit c = true ∧ isHexDigit d = true := by
  unfold cellUnit at h
  split at h
  · rename_i a b c d behind
    refine ⟨a, b, c, d, behind, rfl, ?_⟩
    simp only [Option.bind_eq_some_iff, Option.map_eq_some_iff] at h
    obtain ⟨a', ha, b', hb, c', hc, d', hd, -⟩ := h
    simp [isHexDigit, ha, hb, hc, hd]
  · cases h

theorem unescapeCell_plain (h : cellUnit (c :: t) = none) :
    unescapeCell 0 (c :: t) = c.toNat :: unescapeCell 0 t := by
  rw [unescapeCell, h]

theorem unescapeCell_other (h : c ≠ '_') (t : Text) : unescapeCell 0 (c :: t) = c.toNat :: unescapeCell 0 t := by
  refine unescapeCell_plain ?_
  cases hunit : cellUnit (c :: t) with
  | none => rfl
  | some n =>
    obtain ⟨_, _, _, _, _, heq, -⟩ := cellUnit_some hunit
    exact absurd (List.cons.inj heq).1 h

theorem cellUnit_digits {n : Nat} (h : n < 65536) (t : Text) : cellUnit (cellEscape n ++ t) = some n := by
  have hdigit := fun n : Nat => (upperHex_spec (Nat.mod_lt n (by decide : 0 < 16))).1
  have hshape : cellEscape n ++ t = '_' :: 'x' :: upperHex (n / 4096 % 16) :: upperHex (n / 256 % 16) ::
      upperHex (n / 16 % 16) :: upperHex (n % 16) :: '_' :: t := rfl
  rw [hshape, cellUnit, hdigit, hdigit, hdigit, hdigit, Option.bind_some, Option.bind_some, Option.bind_some,
    Option.map_some]
  exact congrArg some (by omega)

theorem unwritable_lt (h : isUnwritable c = true) : c.toNat < 65536 := by
  simp only [isUnwritable, Bool.or_eq_true, Bool.and_eq_true, decide_eq_true_eq, beq_iff_eq] at h
  omega

/-- **A character that is read back.** -/
theorem unescape_kept (hc : c ≠ '\r') (htears : tears (c :: s) = false) :
    unescapeCell 0 (readXml (xlsxText (c :: s))) = c.toNat :: unescapeCell 0 (readXml (xlsxText s)) := by
  rw [readXml_cons hc]
  cases hlooks : looksLikeEscape (c :: s) with
  | true =>
    have hunder : c = '_' := by
      unfold looksLikeEscape at hlooks
      split at hlooks
      · rename_i heq
        exact (List.cons.inj heq).1
      · cases hlooks
    rw [inCell, hlooks, hunder]
    rfl
  | false =>
    cases hwritable : isUnwritable c with
    | true =>
      have hshape : inCell c s = cellEscape c.toNat := by rw [inCell, hlooks, hwritable]; rfl
      have hunit := cellUnit_digits (unwritable_lt hwritable) (readXml (xlsxText s))
      have hcons : cellEscape c.toNat ++ readXml (xlsxText s) =
          '_' :: ('x' :: upperHex4 c.toNat ++ ['_'] ++ readXml (xlsxText s)) := rfl
      rw [hshape]
      rw [hcons] at hunit ⊢
      rw [unescapeCell, hunit]
      rfl
    | false =>
      have hshape : inCell c s = [c] := by rw [inCell, hlooks, hwritable]; rfl
      rw [hshape, List.singleton_append]
      refine unescapeCell_plain ?_
      cases hunit : cellUnit (c :: readXml (xlsxText s)) with
      | none => rfl
      | some n =>
        -- the digits stand in the text itself, and what is behind them begins with an underscore
        obtain ⟨a, b, e, d, behind, heq, ha, hb, he, hd⟩ := cellUnit_some hunit
        have hhex := fun {c : Char} (h : isHexDigit c = true) => (⟨(hexDigit_spec h).1, (hexDigit_spec h).2.1⟩ :
          c ≠ '_' ∧ c ≠ '\n')
        obtain ⟨rfl, hx⟩ := List.cons.inj heq
        obtain ⟨s1, rfl, h1⟩ := peel (by decide) hx
        obtain ⟨s2, rfl, h2⟩ := peel (hhex ha) h1
        obtain ⟨s3, rfl, h3⟩ := peel (hhex hb) h2
        obtain ⟨s4, rfl, h4⟩ := peel (hhex he) h3
        obtain ⟨s5, rfl, h5⟩ := peel (hhex hd) h4
        obtain ⟨f, s6, rfl, hf⟩ := peel_underscore h5
        rcases hf with rfl | hf
        · simp [looksLikeEscape, ha, hb, he, hd] at hlooks
        · simp [tears, ha, hb, he, hd, hf] at htears

/-- A text that is torn at its start is not read back. -/
theorem unescape_torn (h : tears s = true) : unescapeCell 0 (readXml (xlsxText s)) ≠ s.map Char.toNat := by
  unfold tears at h
  split at h
  · rename_i a b c d e rest
    simp only [Bool.and_eq_true] at h
    obtain ⟨⟨⟨⟨ha, hb⟩, hc⟩, hd⟩, he⟩ := h
    have hunder : e ≠ '_' := by
      rintro rfl
      exact absurd he (by decide)
    have hreturn : e ≠ '\r' := by
      rintro rfl
      exact absurd he (by decide)
    have hlooks : ∀ {f : Char} {t : Text}, f ≠ '_' → looksLikeEscape (f :: t) = false := by
      intro f t hf
      unfold looksLikeEscape
      split
      · rename_i heq
        exact absurd (List.cons.inj heq).1 hf
      · rfl
    have hself : ∀ {f : Char} (t : Text), isHexDigit f = true →
        readXml (xlsxText (f :: t)) = f :: readXml (xlsxText t) := by
      intro f t hf
      obtain ⟨hf1, -, hf2, hf3⟩ := hexDigit_spec hf
      rw [readXml_cons hf2, inCell, hlooks hf1, hf3]
      rfl
    have hx : ∀ t, readXml (xlsxText ('x' :: t)) = 'x' :: readXml (xlsxText t) := by
      intro t
      rw [readXml_cons (by decide), inCell, hlooks (by decide)]
      rfl
    have hfirst : readXml (xlsxText ('_' :: 'x' :: a :: b :: c :: d :: e :: rest)) =
        '_' :: readXml (xlsxText ('x' :: a :: b :: c :: d :: e :: rest)) := by
      have hno : looksLikeEscape ('_' :: 'x' :: a :: b :: c :: d :: e :: rest) = false := by
        unfold looksLikeEscape
        split
        · rename_i heq
          simp only [List.cons.injEq] at heq
          exact absurd heq.2.2.2.2.2.2.1 hunder
        · rfl
      rw [readXml_cons (by decide), inCell, hno]
      rfl
    have hlast : readXml (xlsxText (e :: rest)) = cellEscape e.toNat ++ readXml (xlsxText rest) := by
      rw [readXml_cons hreturn, inCell, hlooks hunder, he]
      rfl
    obtain ⟨a', ha'⟩ := Option.isSome_iff_exists.mp ha
    obtain ⟨b', hb'⟩ := Option.isSome_iff_exists.mp hb
    obtain ⟨c', hc'⟩ := Option.isSome_iff_exists.mp hc
    obtain ⟨d', hd'⟩ := Option.isSome_iff_exists.mp hd
    have hdigit := fun n : Nat => upperHex_spec (Nat.mod_lt n (by decide : 0 < 16))
    have hnot : ∀ n, upperHex (n % 16) ≠ '_' := by
      have hall : ∀ n < 16, upperHex n ≠ '_' := by decide
      exact fun n => hall _ (Nat.mod_lt n (by decide))
    have hread : unescapeCell 0 (readXml (xlsxText ('_' :: 'x' :: a :: b :: c :: d :: e :: rest))) =
        (4096 * a' + 256 * b' + 16 * c' + d') :: 'x'.toNat :: (upperHex (e.toNat / 4096 % 16)).toNat ::
          (upperHex (e.toNat / 256 % 16)).toNat :: (upperHex (e.toNat / 16 % 16)).toNat ::
          (upperHex (e.toNat % 16)).toNat :: unescapeCell 0 ('_' :: readXml (xlsxText rest)) := by
      rw [hfirst, hx, hself _ ha, hself _ hb, hself _ hc, hself _ hd, hlast]
      have hunit : cellUnit ('_' :: 'x' :: a :: b :: c :: d :: (cellEscape e.toNat ++ readXml (xlsxText rest))) =
          some (4096 * a' + 256 * b' + 16 * c' + d') := by
        show ((hexValue a).bind _) = _
        simp only [ha', hb', hc', hd', Option.bind_some, Option.map_some]
      rw [unescapeCell, hunit]
      refine congrArg (_ :: ·) ?_
      show unescapeCell 0 ('x' :: upperHex _ :: upperHex _ :: upperHex _ :: upperHex _ :: '_' :: _) = _
      rw [unescapeCell_other (by decide), unescapeCell_other (hnot _), unescapeCell_other (hnot _),
        unescapeCell_other (hnot _), unescapeCell_other (hnot _)]
      rfl
    intro heq
    rw [hread] at heq
    simp only [List.map_cons, List.cons.injEq] at heq
    obtain ⟨hunder', -, h1, h2, h3, h4, -⟩ := heq
    rw [← Char.toNat_inj.mp h1, (hdigit _).1] at ha'
    rw [← Char.toNat_inj.mp h2, (hdigit _).1] at hb'
    rw [← Char.toNat_inj.mp h3, (hdigit _).1] at hc'
    rw [← Char.toNat_inj.mp h4, (hdigit _).1] at hd'
    have hlt := unwritable_lt he
    have hcode : '_'.toNat = 95 := by decide
    have hvalue : e.toNat = 95 := by
      have := Option.some.inj ha'
      have := Option.some.inj hb'
      have := Option.some.inj hc'
      have := Option.some.inj hd'
      omega
    refine hunder (Char.toNat_inj.mp (hvalue.trans hcode.symm))
  · cases h

theorem unescape_return (s : Text) :
    unescapeCell 0 (readXml (xlsxText ('\r' :: s))) ≠ ('\r' :: s).map Char.toNat := by
  have hhead := readXml_return s
  cases ht : readXml (xlsxText ('\r' :: s)) with
  | nil =>
    rw [ht] at hhead
    cases hhead
  | cons c t =>
    rw [ht] at hhead
    rw [Option.some.inj hhead, unescapeCell_other (by decide), List.map_cons]
    intro heq
    exact absurd (List.cons.inj heq).1 (by decide)

end Cell

/-- **The texts that a reader gets back**: those without a carriage return, and without four digits behind
`_x` in front of a character that is escaped. -/
theorem readCell_iff (s : Text) :
    readCell (xlsxText s) = s.map Char.toNat ↔ '\r' ∉ s ∧ ∀ t, t <:+ s → tears t = false := by
  unfold readCell
  induction s with
  | nil =>
    refine ⟨fun _ => ⟨List.not_mem_nil, fun t ht => ?_⟩, fun _ => rfl⟩
    rw [List.suffix_nil.mp ht]
    rfl
  | cons c s ih =>
    constructor
    · intro h
      have hc : c ≠ '\r' := by
        rintro rfl
        exact unescape_return s h
      have htears : tears (c :: s) = false := by
        cases ht : tears (c :: s) with
        | false => rfl
        | true => exact absurd h (unescape_torn ht)
      rw [unescape_kept hc htears, List.map_cons] at h
      obtain ⟨hreturn, hrest⟩ := ih.mp (List.cons.inj h).2
      refine ⟨?_, fun t ht => ?_⟩
      · rw [List.mem_cons, not_or]
        exact ⟨Ne.symm hc, hreturn⟩
      · rcases List.suffix_cons_iff.mp ht with rfl | ht
        · exact htears
        · exact hrest t ht
    · rintro ⟨hreturn, hrest⟩
      rw [List.mem_cons, not_or] at hreturn
      rw [unescape_kept (Ne.symm hreturn.1) (hrest _ (List.suffix_refl _)), List.map_cons,
        ih.mpr ⟨hreturn.2, fun t ht => hrest t (ht.trans (List.suffix_cons c s))⟩]

/-- A line that ends as Windows ends it, and a half-written escape in front of a control character. -/
theorem cells_lost : readCell (xlsxText ['a', '\r', '\n', 'b']) = ['a', '\n', 'b'].map Char.toNat ∧
      readCell (xlsxText ['_', 'x', '0', '0', '4', '1', '\x01']) =
        ['A', 'x', '0', '0', '0', '1', '_'].map Char.toNat := by
  decide

end RedDb.Transfer
