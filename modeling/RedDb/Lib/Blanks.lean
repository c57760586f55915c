import RedDb.Lib.ByteText
import Mathlib.Data.List.Basic

/-!
# Blanks and trimming

The encodings of the white space form a prefix code that can be read from either
end, so a run of blanks (`Blank`) may be put before or behind a text without
changing what `trim` leaves of it, and `trim` takes nothing else away.
-/

namespace ByteText

/-- The encoding of one blank. -/
inductive IsBlank : Bytes → Prop where
  | one {c : UInt8} (h : ws1 c = true) : IsBlank [c]
  | two {c d : UInt8} (h : ws2 c d = true) : IsBlank [c, d]
  | three {c d e : UInt8} (h : ws3 c d e = true) : IsBlank [c, d, e]

/-- A run of blanks. -/
inductive Blank : Bytes → Prop where
  | nil : Blank []
  | cons {e rest : Bytes} (he : IsBlank e) (hrest : Blank rest) : Blank (e ++ rest)

/-- A byte that stands in the encoding of some blank, or in a non-ASCII character. -/
def isBlankByte (c : UInt8) : Bool := ws1 c || 0x80 ≤ c

/-! ## One blank -/

variable {c d : UInt8}

theorem ws2_bytes (h : ws2 c d = true) : 0x80 ≤ c ∧ 0x80 ≤ d := by
  simp only [ws2, Bool.and_eq_true, Bool.or_eq_true, beq_iff_eq] at h
  obtain ⟨rfl, rfl | rfl⟩ := h <;> decide

theorem ws3_bytes {e : UInt8} (h : ws3 c d e = true) :
    0x80 ≤ c ∧ 0x80 ≤ d ∧ 0x80 ≤ e ∧ c ≠ 0xC2 ∧ d ≠ 0xC2 := by
  simp only [ws3, Bool.and_eq_true, Bool.or_eq_true, beq_iff_eq, decide_eq_true_eq] at h
  rcases h with ((⟨⟨rfl, rfl⟩, rfl⟩ | ⟨⟨rfl, rfl⟩, h⟩) | ⟨⟨rfl, rfl⟩, rfl⟩) | ⟨⟨rfl, rfl⟩, rfl⟩
  · decide
  · refine ⟨by decide, by decide, ?_, by decide, by decide⟩
    rcases h with ((⟨h, -⟩ | rfl) | rfl) | rfl
    · exact h
    all_goals decide
  · decide
  · decide

theorem ws1_of_high (h : 0x80 ≤ c) : ws1 c = false := by
  cases hw : ws1 c with
  | false => rfl
  | true =>
    simp only [ws1, Bool.or_eq_true, Bool.and_eq_true, decide_eq_true_eq, beq_iff_eq] at hw
    rw [UInt8.le_iff_toNat_le] at h
    rcases hw with ⟨-, hle⟩ | rfl
    · rw [UInt8.le_iff_toNat_le] at hle
      exact absurd (Nat.le_trans h hle) (by decide)
    · exact absurd h (by decide)

theorem ws2_of_ne (h : c ≠ 0xC2) : ws2 c d = false := by
  simp [ws2, h]

variable {e : Bytes}

theorem IsBlank.bytes (h : IsBlank e) : ∀ c ∈ e, isBlankByte c = true := by
  intro c hc
  cases h with
  | one h =>
    obtain rfl := List.mem_singleton.mp hc
    simp [isBlankByte, h]
  | two h =>
    obtain ⟨h1, h2⟩ := ws2_bytes h
    simp only [List.mem_cons, List.not_mem_nil, or_false] at hc
    rcases hc with rfl | rfl <;> simp [isBlankByte, *]
  | three h =>
    obtain ⟨h1, h2, h3, -, -⟩ := ws3_bytes h
    simp only [List.mem_cons, List.not_mem_nil, or_false] at hc
    rcases hc with rfl | rfl | rfl <;> simp [isBlankByte, *]

theorem IsBlank.pos (h : IsBlank e) : 0 < e.length := by
  cases h <;> simp

theorem IsBlank.wsLen (h : IsBlank e) (rest : Bytes) : wsLen (e ++ rest) = e.length := by
  cases h with
  | one h => simp [ByteText.wsLen, h]
  | two h => simp [ByteText.wsLen, ws1_of_high (ws2_bytes h).1, h]
  | three h =>
    obtain ⟨h1, -, -, hne, -⟩ := ws3_bytes h
    simp [ByteText.wsLen, ws1_of_high h1, ws2_of_ne hne, h]

theorem IsBlank.wsLenRev (h : IsBlank e) (rest : Bytes) :
    wsLenRev (e.reverse ++ rest) = e.length := by
  cases h with
  | one h => simp [ByteText.wsLenRev, h]
  | two h => simp [ByteText.wsLenRev, ws1_of_high (ws2_bytes h).2, h]
  | three h =>
    obtain ⟨-, -, h3, -, hne⟩ := ws3_bytes h
    simp [ByteText.wsLenRev, ws1_of_high h3, ws2_of_ne hne, h]

/-- A text begins with no blank, or with one. -/
theorem wsLen_cases (b : Bytes) : wsLen b = 0 ∨ ∃ e rest, IsBlank e ∧ b = e ++ rest := by
  unfold ByteText.wsLen
  split
  · exact Or.inl rfl
  split
  · exact Or.inr ⟨[_], _, IsBlank.one ‹_›, rfl⟩
  split
  · exact Or.inl rfl
  split
  · exact Or.inr ⟨[_, _], _, IsBlank.two ‹_›, rfl⟩
  split
  · exact Or.inl rfl
  split
  · exact Or.inr ⟨[_, _, _], _, IsBlank.three ‹_›, rfl⟩
  · exact Or.inl rfl

/-- A text read backwards begins with no blank, or with one. -/
theorem wsLenRev_cases (b : Bytes) :
    wsLenRev b = 0 ∨ ∃ e rest, IsBlank e ∧ b = e.reverse ++ rest := by
  unfold ByteText.wsLenRev
  split
  · exact Or.inl rfl
  split
  · exact Or.inr ⟨[_], _, IsBlank.one ‹_›, rfl⟩
  split
  · exact Or.inl rfl
  split
  · exact Or.inr ⟨[_, _], _, IsBlank.two ‹_›, rfl⟩
  split
  · exact Or.inl rfl
  split
  · exact Or.inr ⟨[_, _, _], _, IsBlank.three ‹_›, rfl⟩
  · exact Or.inl rfl

/-- No blank begins with an ASCII character that is none. -/
theorem wsLen_ascii (h : isBlankByte c = false) (rest : Bytes) : wsLen (c :: rest) = 0 := by
  rcases wsLen_cases (c :: rest) with h0 | ⟨e, rest', he, hcons⟩
  · exact h0
  obtain ⟨x, xs, rfl⟩ := List.exists_cons_of_ne_nil (List.length_pos_iff.mp he.pos)
  obtain ⟨rfl, -⟩ := List.cons.inj hcons
  rw [he.bytes c (List.mem_cons_self ..)] at h
  exact Bool.noConfusion h

/-! ## Runs -/

variable {p : Bytes}

theorem Blank.append {q : Bytes} (hp : Blank p) (hq : Blank q) : Blank (p ++ q) := by
  induction hp with
  | nil => exact hq
  | cons he _ ih =>
    rw [List.append_assoc]
    exact Blank.cons he ih

theorem Blank.bytes (h : Blank p) : ∀ c ∈ p, isBlankByte c = true := by
  induction h with
  | nil =>
    intro c hc
    exact absurd hc List.not_mem_nil
  | cons he _ ih =>
    intro c hc
    rcases List.mem_append.mp hc with hc | hc
    · exact he.bytes c hc
    · exact ih c hc

theorem dropBlanks_skip (len : Bytes → Nat) (u rest : Bytes) :
    dropBlanks len u.length (u ++ rest) = dropBlanks len 0 rest := by
  induction u with
  | nil => rfl
  | cons c u ih =>
    rw [List.cons_append, List.length_cons, dropBlanks]
    exact ih

/-- A reader of blanks drops the one a text begins with. -/
theorem dropBlanks_blank {len : Bytes → Nat} {u rest : Bytes} (hpos : 0 < u.length)
    (hlen : len (u ++ rest) = u.length) : dropBlanks len 0 (u ++ rest) = dropBlanks len 0 rest := by
  obtain ⟨c, v, rfl⟩ := List.exists_cons_of_ne_nil (List.length_pos_iff.mp hpos)
  rw [List.cons_append] at hlen ⊢
  rw [dropBlanks, hlen, List.length_cons]
  exact dropBlanks_skip len v rest

variable {b : Bytes}

theorem dropBlanks_none {len : Bytes → Nat} (h : len b = 0) : dropBlanks len 0 b = b := by
  cases b with
  | nil => rfl
  | cons c rest => rw [dropBlanks, h]

theorem trimStart_none (h : wsLen b = 0) : trimStart b = b := dropBlanks_none h

/-- **Leading blanks.** `trim_start` does not see them. -/
theorem trimStart_append (hp : Blank p) (b : Bytes) : trimStart (p ++ b) = trimStart b := by
  induction hp with
  | nil => rfl
  | cons he _ ih =>
    rw [List.append_assoc]
    exact (dropBlanks_blank he.pos (he.wsLen _)).trans ih

/-- **Trailing blanks.** `trim_end` does not see them. -/
theorem trimEnd_append {q : Bytes} (hq : Blank q) (b : Bytes) : trimEnd (b ++ q) = trimEnd b := by
  induction hq generalizing b with
  | nil => rw [List.append_nil]
  | @cons e rest he _ ih =>
    rw [← List.append_assoc, ih (b ++ e)]
    unfold trimEnd
    rw [List.reverse_append,
      dropBlanks_blank (by simpa using he.pos) (by simpa using he.wsLenRev b.reverse)]

/-- `trim_start` drops a run of blanks and stops at the first character that is none. -/
theorem trimStart_spec (b : Bytes) :
    ∃ p, Blank p ∧ b = p ++ trimStart b ∧ wsLen (trimStart b) = 0 := by
  induction hn : b.length using Nat.strongRecOn generalizing b with
  | _ n ih =>
    subst hn
    rcases wsLen_cases b with h | ⟨e, rest, he, rfl⟩
    · exact ⟨[], Blank.nil, by rw [trimStart_none h, List.nil_append], by rwa [trimStart_none h]⟩
    have hlt : rest.length < (e ++ rest).length := by
      rw [List.length_append]
      have := he.pos
      omega
    obtain ⟨p, hp, hrest, hlen⟩ := ih _ hlt rest rfl
    have htrim : trimStart (e ++ rest) = trimStart rest := dropBlanks_blank he.pos (he.wsLen _)
    refine ⟨e ++ p, Blank.cons he hp, ?_, by rwa [htrim]⟩
    rw [htrim, List.append_assoc, ← hrest]

/-- `trim_end` drops a run of blanks. -/
theorem trimEnd_spec (b : Bytes) : ∃ q, Blank q ∧ b = trimEnd b ++ q := by
  induction hn : b.length using Nat.strongRecOn generalizing b with
  | _ n ih =>
    subst hn
    rcases wsLenRev_cases b.reverse with h | ⟨e, rest, he, hrev⟩
    · refine ⟨[], Blank.nil, ?_⟩
      unfold trimEnd
      rw [dropBlanks_none h, List.reverse_reverse, List.append_nil]
    obtain rfl : b = rest.reverse ++ e := by
      rw [← List.reverse_reverse b, hrev, List.reverse_append, List.reverse_reverse]
    have hlt : rest.reverse.length < (rest.reverse ++ e).length := by
      rw [List.length_append]
      have := he.pos
      omega
    obtain ⟨q, hq, hrest⟩ := ih _ hlt rest.reverse rfl
    have he' : Blank e := by
      rw [← List.append_nil e]
      exact Blank.cons he Blank.nil
    rw [trimEnd_append he']
    refine ⟨q ++ e, hq.append he', ?_⟩
    rw [← List.append_assoc, ← hrest]

/-- Behind a byte that is in no blank, `trim_end` only takes from what follows it. -/
theorem trimEnd_behind (p : Bytes) (hc : isBlankByte c = false) (t : Bytes) :
    ∃ t' q, Blank q ∧ t = t' ++ q ∧ trimEnd (p ++ c :: t) = p ++ c :: t' := by
  obtain ⟨q, hq, hspec⟩ := trimEnd_spec (p ++ c :: t)
  have hcut : (p ++ [c]) ++ t = trimEnd (p ++ c :: t) ++ q := by
    rw [← hspec, List.append_assoc, List.singleton_append]
  rcases List.append_eq_append_iff.mp hcut with ⟨a, htrim, ht⟩ | ⟨a, hpc, hqa⟩
  · exact ⟨a, q, hq, ht, by rw [htrim, List.append_assoc, List.singleton_append]⟩
  rcases List.eq_nil_or_concat a with rfl | ⟨a', d, rfl⟩
  · refine ⟨[], q, hq, hqa.symm, ?_⟩
    rw [← hpc.trans (List.append_nil _)]
  have hd : c = d := by
    have hlast := congrArg List.getLast? hpc
    rw [List.concat_eq_append, ← List.append_assoc, List.getLast?_concat,
      List.getLast?_concat] at hlast
    exact Option.some.inj hlast
  have hmem : c ∈ q := by
    rw [hqa, hd, List.concat_eq_append]
    simp
  rw [hq.bytes c hmem] at hc
  cases hc

/-- `trim` takes a run of blanks from either end. -/
theorem trim_spec (b : Bytes) : ∃ p q, Blank p ∧ Blank q ∧ b = p ++ (trim b ++ q) := by
  obtain ⟨p, hp, hstart, -⟩ := trimStart_spec b
  obtain ⟨q, hq, hend⟩ := trimEnd_spec (trimStart b)
  refine ⟨p, q, hp, hq, ?_⟩
  unfold trim
  rw [← hend]
  exact hstart

/-- A trimmed text has nothing left to trim. -/
theorem trim_trim (b : Bytes) : trim (trim b) = trim b := by
  obtain ⟨-, -, -, hnone⟩ := trimStart_spec b
  obtain ⟨q, hq, hend⟩ := trimEnd_spec (trimStart b)
  have hstart : wsLen (trimEnd (trimStart b)) = 0 := by
    rcases wsLen_cases (trimEnd (trimStart b)) with h | ⟨e, rest, he, hcut⟩
    · exact h
    · rw [hend, hcut, List.append_assoc, he.wsLen] at hnone
      exact absurd hnone (Nat.ne_of_gt he.pos)
  have htwice : trimEnd (trimEnd (trimStart b)) = trimEnd (trimStart b) := by
    rw [← trimEnd_append hq (trimEnd (trimStart b)), ← hend]
  unfold trim
  rw [trimStart_none hstart, htwice]

theorem trimStart_blank (hp : Blank p) : trimStart p = [] := by
  have := trimStart_append hp []
  rwa [List.append_nil] at this

/-- **Blank texts.** They are what `trim` leaves nothing of. -/
theorem trim_eq_nil_iff : trim b = [] ↔ Blank b := by
  constructor
  · intro h
    obtain ⟨p, q, hp, hq, hb⟩ := trim_spec b
    rw [h, List.nil_append] at hb
    rw [hb]
    exact hp.append hq
  · intro h
    unfold trim
    rw [trimStart_blank h]
    rfl

/-- A trimmed text has nothing to trim at its start. -/
theorem trimStart_of_trim (h : trim b = b) : trimStart b = b := by
  obtain ⟨lead, -, hstart, -⟩ := trimStart_spec b
  obtain ⟨q, -, hend⟩ := trimEnd_spec (trimStart b)
  have hlen := congrArg List.length hstart
  have hlen' := congrArg List.length hend
  have hlen'' := congrArg List.length h
  rw [trim] at hlen''
  rw [List.length_append] at hlen hlen'
  have hnil : lead = [] := List.length_eq_zero_iff.mp (by omega)
  rw [hnil, List.nil_append] at hstart
  exact hstart.symm

/-- Nor at its end. -/
theorem trimEnd_of_trim (h : trim b = b) : trimEnd b = b := by
  have hstart := trimStart_of_trim h
  rw [trim, hstart] at h
  exact h

/-- What has no blank at its end keeps it behind an ASCII byte. -/
theorem trimEnd_keep (u : Bytes) {s : UInt8} (hs : s < 0x80) (hne : p ≠ [])
    (h : trimEnd p = p) : trimEnd (u ++ s :: p) = u ++ s :: p := by
  have hnone : wsLenRev p.reverse = 0 := by
    rcases wsLenRev_cases p.reverse with h0 | ⟨e, rest, he, hrev⟩
    · exact h0
    have hp : p = rest.reverse ++ e := by
      rw [← List.reverse_reverse p, hrev, List.reverse_append, List.reverse_reverse]
    have hblank : Blank e := by
      rw [← List.append_nil e]
      exact Blank.cons he Blank.nil
    obtain ⟨q, -, hspec⟩ := trimEnd_spec rest.reverse
    rw [hp, trimEnd_append hblank] at h
    have hlen := congrArg List.length h
    have hlen' := congrArg List.length hspec
    rw [List.length_append] at hlen hlen'
    have := he.pos
    omega
  have hs2 : ∀ c, ws2 s c = false := fun c => ws2_of_ne (by rintro rfl; exact absurd hs (by decide))
  have hs3 : ∀ c e, ws3 s c e = false := by
    intro c e
    cases h3 : ws3 s c e with
    | false => rfl
    | true => exact absurd (ws3_bytes h3).1 (UInt8.not_le.mpr hs)
  have hmid : ∀ c e, ws3 c s e = false := by
    intro c e
    cases h3 : ws3 c s e with
    | false => rfl
    | true => exact absurd (ws3_bytes h3).2.1 (UInt8.not_le.mpr hs)
  unfold trimEnd
  rw [dropBlanks_none, List.reverse_reverse]
  rw [List.reverse_append, List.reverse_cons]
  cases hrev : p.reverse with
  | nil => exact absurd (List.reverse_eq_nil_iff.mp hrev) hne
  | cons c r =>
    rw [hrev] at hnone
    rw [List.append_assoc, List.cons_append]
    have hc : ws1 c = false := by
      cases h1 : ws1 c with
      | false => rfl
      | true =>
        simp only [wsLenRev, h1, if_true] at hnone
        exact absurd hnone (by decide)
    rcases r with _ | ⟨c', _ | ⟨c'', r⟩⟩
    · cases hu : u.reverse with
      | nil => simp [wsLenRev, hc, hs2]
      | cons e rest => simp [wsLenRev, hc, hs2, hmid]
    · have hc' : ws2 c' c = false := by
        simp only [wsLenRev, hc] at hnone
        simpa using hnone
      simp [wsLenRev, hc, hc', hs3]
    · exact hnone

/-- `trim_end_matches` drops a run of the byte, and all of it. -/
theorem trimEndMatches_spec (c : UInt8) (b : Bytes) :
    ∃ k, b = trimEndMatches c b ++ List.replicate k c := by
  refine ⟨(b.reverse.takeWhile (· == c)).length, ?_⟩
  have hsame : b.reverse.takeWhile (· == c) =
      List.replicate (b.reverse.takeWhile (· == c)).length c := by
    rw [List.eq_replicate_iff]
    exact ⟨rfl, fun x hx => beq_iff_eq.mp (List.all_eq_true.mp List.all_takeWhile x hx)⟩
  unfold trimEndMatches
  rw [← List.reverse_replicate, ← hsame, ← List.reverse_append, List.takeWhile_append_dropWhile,
    List.reverse_reverse]

/-- A text that does not end in the byte keeps its end. -/
theorem trimEndMatches_keep (h : b.getLast? ≠ some c) : trimEndMatches c b = b := by
  unfold trimEndMatches
  cases hrev : b.reverse with
  | nil =>
    rw [List.reverse_eq_nil_iff.mp hrev]
    rfl
  | cons x rest =>
    have hx : ¬ (x == c) = true := by
      intro heq
      rw [beq_iff_eq] at heq
      rw [← List.head?_reverse, hrev, heq] at h
      exact h rfl
    rw [List.dropWhile_cons, if_neg hx, ← hrev, List.reverse_reverse]

/-- Behind a text that does not end in the byte, only what follows loses it. -/
theorem trimEndMatches_append (h : p.getLast? ≠ some c) (t : Bytes) :
    trimEndMatches c (p ++ t) = p ++ trimEndMatches c t := by
  unfold trimEndMatches
  rw [List.reverse_append]
  cases hall : t.reverse.dropWhile (· == c) with
  | nil =>
    have hkeep := trimEndMatches_keep h
    unfold trimEndMatches at hkeep
    rw [List.dropWhile_append, hall, List.isEmpty_nil, if_pos rfl, hkeep]
    simp
  | cons x rest =>
    rw [List.dropWhile_append, hall, List.isEmpty_cons, if_neg Bool.false_ne_true]
    simp

/-- A blank that is cut off in front of an ASCII byte leaves the text in front of it. -/
theorem trimEnd_ascii (hp : trimEnd p = p) {t : Bytes} (ht : ∀ c ∈ t.head?, c < 0x80) :
    trimEnd (p ++ t) = p ++ trimEnd t := by
  obtain ⟨q, hq, hspec⟩ := trimEnd_spec t
  have htwice : trimEnd (trimEnd t) = trimEnd t := by
    rw [← trimEnd_append hq (trimEnd t), ← hspec]
  have hleft : trimEnd (p ++ t) = trimEnd (p ++ trimEnd t) := by
    conv_lhs => rw [hspec, ← List.append_assoc]
    exact trimEnd_append hq _
  rw [hleft]
  cases hkept : trimEnd t with
  | nil => rw [List.append_nil, hp]
  | cons e rest =>
    have he : e < 0x80 := by
      refine ht e ?_
      rw [hspec, hkept]
      rfl
    rw [hkept] at htwice
    cases hrest : rest with
    | nil =>
      rw [hrest] at htwice
      have hblank : isBlankByte e = false := by
        cases hb : isBlankByte e with
        | false => rfl
        | true =>
          have hws : ws1 e = true := by
            rw [isBlankByte, Bool.or_eq_true, decide_eq_true_eq] at hb
            exact hb.resolve_right (UInt8.not_le.mpr he)
          have hone : Blank [e] := Blank.cons (IsBlank.one hws) Blank.nil
          have hnil := trimEnd_append hone []
          rw [List.nil_append, htwice] at hnil
          exact absurd hnil (List.cons_ne_nil _ _)
      obtain ⟨t', q', -, hnil, htrim⟩ := trimEnd_behind p hblank []
      rw [htrim, (List.append_eq_nil_iff.mp hnil.symm).1]
    | cons x more =>
      rw [← hrest]
      refine trimEnd_keep p he (by rw [hrest]; exact List.cons_ne_nil _ _) ?_
      obtain ⟨q', hq', hspec'⟩ := trimEnd_spec rest
      have hshort : trimEnd (e :: trimEnd rest) = e :: rest := by
        rw [← trimEnd_append hq' (e :: trimEnd rest), List.cons_append, ← hspec', htwice]
      obtain ⟨q'', -, hspec''⟩ := trimEnd_spec (e :: trimEnd rest)
      rw [hshort] at hspec''
      have hlen := congrArg List.length hspec'
      have hlen' := congrArg List.length hspec''
      rw [List.length_append] at hlen
      rw [List.length_cons, List.length_append, List.length_cons] at hlen'
      have hnil : q' = [] := List.length_eq_zero_iff.mp (by omega)
      rw [hnil, List.append_nil] at hspec'
      exact hspec'.symm

/-- A text that is trimmed begins with no blank, and with none in front of an ASCII byte. -/
theorem trimStart_ascii (hne : p ≠ []) (hp : trim p = p) {t : Bytes}
    (ht : ∀ c ∈ t.head?, c < 0x80) : trimStart (p ++ t) = p ++ t := by
  obtain ⟨-, -, -, hnone⟩ := trimStart_spec p
  rw [trimStart_of_trim hp] at hnone
  refine trimStart_none ?_
  obtain ⟨c, r, rfl⟩ := List.exists_cons_of_ne_nil hne
  have hc : ws1 c = false := by
    cases h1 : ws1 c with
    | false => rfl
    | true =>
      simp only [wsLen, h1, if_true] at hnone
      exact absurd hnone (by decide)
  have hlow : ∀ e ∈ t.head?, (∀ x, ws2 x e = false) ∧ ∀ x y, ws3 x e y = false ∧ ws3 x y e = false := by
    intro e he
    have hlt := UInt8.not_le.mpr (ht e he)
    refine ⟨fun x => Bool.eq_false_iff.mpr fun h => hlt (ws2_bytes h).2, fun x y => ⟨?_, ?_⟩⟩
    · exact Bool.eq_false_iff.mpr fun h => hlt (ws3_bytes h).2.1
    · exact Bool.eq_false_iff.mpr fun h => hlt (ws3_bytes h).2.2.1
  rcases r with _ | ⟨c', _ | ⟨c'', r⟩⟩
  · cases t with
    | nil => simp [wsLen, hc]
    | cons e t =>
      obtain ⟨h2, h3⟩ := hlow e rfl
      cases t with
      | nil => simp [wsLen, hc, h2]
      | cons e' t => simp [wsLen, hc, h2, (h3 c e').1]
  · have hc' : ws2 c c' = false := by
      simp only [wsLen, hc] at hnone
      simpa using hnone
    cases t with
    | nil => simp [wsLen, hc, hc']
    | cons e t => simp [wsLen, hc, hc', ((hlow e rfl).2 c c').2]
  · exact hnone

end ByteText
