import RedDb.Lib.ByteText

/-!
# Numbers in texts

Decimal numerals as bytes, the number a text ends with, and the place where a phrase
first stands in it.

* `lastNumber_decimal` — a numeral written behind anything but a digit is read back;
* `splitOnce_clear` — a text that no occurrence of the phrase begins in is passed over.
-/

namespace ByteText

/-- The decimal numeral of a number. -/
def decimal (n : Nat) : Bytes := ascii (toString n)

/-- The number that a run of digits stands for. -/
def ofDigits (b : Bytes) : Nat := b.foldl (fun n c => 10 * n + (c.toNat - 48)) 0

/-- The last run of digits of a text, as a number; 0 if it has none. -/
def lastNumber (b : Bytes) : Nat :=
  ofDigits (((b.reverse.dropWhile fun c => !isAsciiDigit c).takeWhile isAsciiDigit).reverse)

/-- `split_once`: the text before the first occurrence of the phrase, and behind it. -/
@[grind =] def splitOnce (phrase : Bytes) : Bytes → Option (Bytes × Bytes)
  | [] => if phrase.isEmpty then some ([], []) else none
  | c :: rest =>
    if phrase.isPrefixOf (c :: rest) then some ([], (c :: rest).drop phrase.length)
    else (splitOnce phrase rest).map fun (head, tail) => (c :: head, tail)

/-! ## Numerals -/

theorem decimal_eq (n : Nat) :
    decimal n = (Nat.toDigits 10 n).map fun c => UInt8.ofNat c.toNat := by
  unfold decimal ascii
  rw [Nat.toString_eq_ofList_toDigits, String.toList_ofList]

theorem decimal_ne_nil (n : Nat) : decimal n ≠ [] := by
  rw [decimal_eq]
  exact fun h => Nat.toDigits_ne_nil (List.map_eq_nil_iff.mp h)

theorem digit_toNat {c : Char} (h : c.isDigit = true) :
    (UInt8.ofNat c.toNat).toNat = c.toNat ∧ 48 ≤ c.toNat ∧ c.toNat ≤ 57 := by
  have hrange : 48 ≤ c.toNat ∧ c.toNat ≤ 57 := by
    simpa [Char.isDigit, UInt32.le_iff_toNat_le] using h
  refine ⟨?_, hrange⟩
  rw [UInt8.toNat_ofNat']
  exact Nat.mod_eq_of_lt (by omega)

theorem decimal_digits {n : Nat} {c : UInt8} (hc : c ∈ decimal n) : isAsciiDigit c = true := by
  rw [decimal_eq] at hc
  obtain ⟨d, hd, rfl⟩ := List.mem_map.mp hc
  obtain ⟨hnat, hlo, hhi⟩ := digit_toNat (Nat.isDigit_of_mem_toDigits (by decide) (Nat.le_refl 10) hd)
  unfold isAsciiDigit
  rw [Bool.and_eq_true, decide_eq_true_eq, decide_eq_true_eq, UInt8.le_iff_toNat_le,
    UInt8.le_iff_toNat_le, hnat]
  exact ⟨hlo, hhi⟩

theorem ofDigits_decimal (n : Nat) : ofDigits (decimal n) = n := by
  have hfold : ∀ (cs : List Char) (k : Nat), (∀ c ∈ cs, c.isDigit = true) →
      (cs.map fun c => UInt8.ofNat c.toNat).foldl (fun n c => 10 * n + (c.toNat - 48)) k =
        Nat.ofDigitChars 10 cs k := by
    intro cs
    induction cs with
    | nil =>
      intro k _
      rfl
    | cons c cs ih =>
      intro k hcs
      rw [List.map_cons, List.foldl_cons, Nat.ofDigitChars_cons,
        (digit_toNat (hcs c List.mem_cons_self)).1]
      exact ih _ fun d hd => hcs d (List.mem_cons_of_mem c hd)
  unfold ofDigits
  rw [decimal_eq, hfold _ 0 fun c hc => Nat.isDigit_of_mem_toDigits (by decide) (Nat.le_refl 10) hc]
  exact Nat.ofDigitChars_ten_toDigits

theorem takeWhile_run {α : Type*} {p : α → Bool} {run rest : List α} (h : ∀ a ∈ run, p a = true)
    (hrest : ∀ a, rest.head? = some a → p a = false) : (run ++ rest).takeWhile p = run := by
  rw [List.takeWhile_append_of_pos h]
  cases rest with
  | nil => rw [List.takeWhile_nil, List.append_nil]
  | cons a rest => rw [List.takeWhile_cons_of_neg (by simp [hrest a rfl]), List.append_nil]

/-- **The numeral is read back** if no digit stands right before it. -/
theorem lastNumber_decimal (p : Bytes) (n : Nat) {c d : UInt8} (hc : isAsciiDigit c = false)
    (hd : isAsciiDigit d = false) : lastNumber (p ++ [c] ++ (decimal n ++ [d])) = n := by
  have hrun : ∀ e ∈ (decimal n).reverse, isAsciiDigit e = true := by
    intro e he
    exact decimal_digits (List.mem_reverse.mp he)
  have hdrop : ((decimal n).reverse ++ (c :: p.reverse)).dropWhile (fun e => !isAsciiDigit e) =
      (decimal n).reverse ++ (c :: p.reverse) := by
    obtain ⟨e, rest, he⟩ : ∃ e rest, (decimal n).reverse = e :: rest :=
      List.exists_cons_of_ne_nil fun h => decimal_ne_nil n (List.reverse_eq_nil_iff.mp h)
    rw [he, List.cons_append, List.dropWhile_cons_of_neg]
    rw [hrun e (he ▸ List.mem_cons_self)]
    exact Bool.false_ne_true
  unfold lastNumber
  rw [List.reverse_append, List.reverse_append, List.reverse_append, List.reverse_singleton,
    List.reverse_singleton, List.append_assoc, List.singleton_append, List.singleton_append,
    List.dropWhile_cons_of_pos (by rw [hd]; rfl), hdrop, takeWhile_run hrun, List.reverse_reverse,
    ofDigits_decimal]
  intro a ha
  rwa [← Option.some.inj ha]

/-! ## Looking for a phrase -/

/-- No occurrence of the phrase begins inside the text, whatever stands behind it. -/
@[grind =] def clearOf (phrase : Bytes) : Bytes → Bool
  | [] => true
  | c :: rest =>
    !phrase.isPrefixOf (c :: rest) && !(c :: rest).isPrefixOf phrase && clearOf phrase rest

theorem prefix_append_cases {phrase p q : Bytes} (h : phrase <+: p ++ q) :
    phrase <+: p ∨ p <+: phrase :=
  List.prefix_or_prefix_of_prefix h (List.prefix_append p q)

theorem isPrefixOf_append_false {phrase p : Bytes} (h : phrase.isPrefixOf p = false)
    (h' : p.isPrefixOf phrase = false) (q : Bytes) : phrase.isPrefixOf (p ++ q) = false := by
  rw [Bool.eq_false_iff] at h h' ⊢
  intro hpre
  rcases prefix_append_cases (List.isPrefixOf_iff_prefix.mp hpre) with hp | hp
  · exact h (List.isPrefixOf_iff_prefix.mpr hp)
  · exact h' (List.isPrefixOf_iff_prefix.mpr hp)

theorem clearOf_append {phrase p q : Bytes} (hp : clearOf phrase p = true)
    (hq : clearOf phrase q = true) : clearOf phrase (p ++ q) = true := by
  induction p with
  | nil => exact hq
  | cons c p ih =>
    rw [clearOf, Bool.and_eq_true, Bool.and_eq_true, Bool.not_eq_true', Bool.not_eq_true'] at hp
    obtain ⟨⟨hnot, hnot'⟩, hrest⟩ := hp
    have hlong : (c :: (p ++ q)).isPrefixOf phrase = false := by
      rw [Bool.eq_false_iff] at hnot' ⊢
      intro hpre
      have hshort := (List.prefix_append (c :: p) q).trans (List.isPrefixOf_iff_prefix.mp hpre)
      exact hnot' (List.isPrefixOf_iff_prefix.mpr hshort)
    rw [List.cons_append, clearOf, ← List.cons_append, isPrefixOf_append_false hnot hnot' q,
      List.cons_append, hlong, ih hrest]
    rfl

theorem splitOnce_clear {phrase p : Bytes} (h : clearOf phrase p = true) (q : Bytes) :
    splitOnce phrase (p ++ q) = (splitOnce phrase q).map fun (head, tail) => (p ++ head, tail) := by
  induction p with
  | nil => simp
  | cons c p ih =>
    rw [clearOf, Bool.and_eq_true, Bool.and_eq_true, Bool.not_eq_true', Bool.not_eq_true'] at h
    obtain ⟨⟨hnot, hnot'⟩, hrest⟩ := h
    have hhere := isPrefixOf_append_false hnot hnot' q
    rw [List.cons_append] at hhere
    rw [List.cons_append, splitOnce, hhere, if_neg Bool.false_ne_true, ih hrest, Option.map_map]
    rfl

theorem splitOnce_here {phrase : Bytes} (hne : phrase ≠ []) (q : Bytes) :
    splitOnce phrase (phrase ++ q) = some ([], q) := by
  obtain ⟨c, rest, rfl⟩ := List.exists_cons_of_ne_nil hne
  have hpre : (c :: rest).isPrefixOf (c :: (rest ++ q)) = true :=
    List.isPrefixOf_iff_prefix.mpr (List.prefix_append (c :: rest) q)
  rw [List.cons_append, splitOnce, if_pos hpre]
  exact congrArg some (congrArg (Prod.mk []) (List.drop_left' rfl))

/-- A text that lacks the byte the phrase begins with. -/
theorem clearOf_of_head {c : UInt8} {phrase p : Bytes} (h : c ∉ p) :
    clearOf (c :: phrase) p = true := by
  induction p with
  | nil => rfl
  | cons d p ih =>
    have hne : (c == d) = false := beq_false_of_ne fun heq => h (heq ▸ List.mem_cons_self)
    have hne' : (d == c) = false := beq_false_of_ne fun heq => h (heq ▸ List.mem_cons_self)
    rw [clearOf, ih fun hmem => h (List.mem_cons_of_mem d hmem), List.isPrefixOf, List.isPrefixOf,
      hne, hne']
    rfl

end ByteText
