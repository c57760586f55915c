import RedDb.Kv.Reads

/-!
# RedDb — a string under the display cap

A string longer than the cap is shown by its beginning: the first bytes, decoded with a
replacement for each broken piece, and the text cut at the cap again. The cut panics inside
a character.

* `shows_lossy` — a decoded text, cut between characters, shows the bytes;
* `capStringValue_iff` — when a read is what it promises to be.
-/

namespace RedDb.Kv

open ByteText RedDb.Driver

/-- The text is the beginning of the bytes, but for replacements of pieces that are not UTF-8. -/
inductive Shows : Bytes → Bytes → Prop where
  | stop (value : Bytes) : Shows [] value
  | char {c head value : Bytes} (hc : validUtf8 c = true) (h : Shows head value) : Shows (c ++ head) (c ++ value)
  | broken {c head value : Bytes} (hc : validUtf8 c = false) (h : Shows head value) :
      Shows (replacementChar ++ head) (c ++ value)

/-- A value under the cap comes as it is; of another its length and a beginning that fits. -/
def Caps (bytes : Bytes) : Except ReadError ReadText → Prop
  | .ok (.text s) => s = bytes ∧ bytes.length ≤ stringPreviewCap ∧ validUtf8 bytes = true
  | .ok (.blob b) => b = bytes ∧ bytes.length ≤ stringPreviewCap ∧ validUtf8 bytes = false
  | .ok (.capped c) => stringPreviewCap < bytes.length ∧ c.len = bytes.length ∧
      c.head.length ≤ stringPreviewCap ∧ Shows c.head bytes
  | .error _ => False

/-- A byte inside a character. -/
abbrev Continues (c : UInt8) : Prop := 0x80 ≤ c.toNat ∧ c.toNat ≤ 0xBF

theorem utf8Lead_range {c : UInt8} {lo hi want : Nat} (h : utf8Lead c = some (lo, hi, want)) :
    0x80 ≤ lo ∧ hi ≤ 0xBF := by
  unfold utf8Lead at h
  dsimp only at h
  split_ifs at h <;> cases h <;> decide

theorem utf8Tail_spec (want : Nat) (b : Bytes) :
    utf8Tail want b ≤ b.length ∧ utf8Tail want (b.take (utf8Tail want b)) = utf8Tail want b ∧
      ∀ c ∈ b.take (utf8Tail want b), Continues c := by
  fun_induction utf8Tail want b with
  | case1 want c rest h ih =>
    refine ⟨Nat.succ_le_succ ih.1, ?_, ?_⟩
    · rw [List.take_succ_cons, utf8Tail, if_pos h, ih.2.1]
    · rw [List.take_succ_cons]
      exact List.forall_mem_cons.mpr ⟨h, ih.2.2⟩
  | case2 want c rest h => simp [utf8Tail]
  | case3 want b h => cases want <;> simp [utf8Tail]

/-- The piece a text starts with, by itself, is the same piece; the bytes behind its first go on. -/
theorem utf8Char_spec (c : UInt8) (rest : Bytes) : ∃ more, (c :: rest).take (utf8Char (c :: rest)).1 = c :: more ∧
    utf8Char (c :: more) = utf8Char (c :: rest) ∧ (c :: more).length = (utf8Char (c :: rest)).1 ∧
      ∀ d ∈ more, Continues d := by
  by_cases hascii : c.toNat < 0x80
  · have hone (rest : Bytes) : utf8Char (c :: rest) = (1, true) := by
      rw [utf8Char.eq_def]
      exact if_pos hascii
    exact ⟨[], by simp [hone]⟩
  cases hlead : utf8Lead c with
  | none =>
    have hone (rest : Bytes) : utf8Char (c :: rest) = (1, false) := by
      rw [utf8Char.eq_def]
      dsimp only
      rw [if_neg hascii, hlead]
    exact ⟨[], by simp [hone]⟩
  | some range =>
    obtain ⟨lo, hi, want⟩ := range
    cases rest with
    | nil => exact ⟨[], by simp [utf8Char, hascii, hlead]⟩
    | cons d rest =>
      by_cases hd : lo ≤ d.toNat ∧ d.toNat ≤ hi
      · have hmore (rest : Bytes) : utf8Char (c :: d :: rest) =
            (2 + utf8Tail want rest, utf8Tail want rest == want) := by
          rw [utf8Char.eq_def]
          dsimp only
          rw [if_neg hascii, hlead]
          exact if_pos hd
        obtain ⟨hlen, htail, hall⟩ := utf8Tail_spec want rest
        refine ⟨d :: rest.take (utf8Tail want rest), ?_, ?_, ?_, ?_⟩
        · rw [hmore, Nat.add_comm, List.take_succ_cons, List.take_succ_cons]
        · rw [hmore, hmore, htail]
        · rw [hmore, List.length_cons, List.length_cons, List.length_take, Nat.min_eq_left hlen]
          omega
        · have hrange := utf8Lead_range hlead
          exact List.forall_mem_cons.mpr ⟨⟨by omega, by omega⟩, hall⟩
      · have hone : utf8Char (c :: d :: rest) = (1, false) := by
          rw [utf8Char.eq_def]
          dsimp only
          rw [if_neg hascii, hlead]
          exact if_neg hd
        rw [hone]
        exact ⟨[], by simp [utf8Char.eq_def, hascii, hlead]⟩

theorem isCharBoundary_append {p more : Bytes} {n : Nat} (h : isCharBoundary n (p ++ more) = true)
    (hp : ∀ d ∈ p.tail, Continues d) :
    n = 0 ∨ p.length ≤ n ∧ isCharBoundary (n - p.length) more = true := by
  rcases Nat.eq_zero_or_pos n with hn | hn
  · exact .inl hn
  refine .inr ?_
  rcases Nat.lt_or_ge n p.length with hlt | hge
  · cases p with
    | nil => exact absurd hlt (Nat.not_lt_zero n)
    | cons c more =>
      obtain ⟨n, rfl⟩ := Nat.exists_eq_succ_of_ne_zero hn.ne'
      have hlt' : n < more.length := Nat.lt_of_succ_lt_succ hlt
      have hd := hp _ (List.getElem_mem hlt')
      unfold isCharBoundary at h
      rw [List.cons_append, List.drop_succ_cons, List.drop_append_of_le_length hlt'.le,
        List.drop_eq_getElem_cons hlt', List.cons_append] at h
      exact absurd h (by simp [hd.1, hd.2])
  · refine ⟨hge, ?_⟩
    unfold isCharBoundary at h ⊢
    rwa [List.drop_append, List.drop_of_length_le hge, List.nil_append] at h

/-- A decoded text that is cut between characters shows the bytes. -/
theorem shows_lossy (fuel : Nat) (b rest : Bytes) {n : Nat} (h : isCharBoundary n (lossyFrom fuel b) = true) :
    Shows ((lossyFrom fuel b).take n) (b ++ rest) := by
  induction fuel generalizing b n with
  | zero => simpa [lossyFrom] using .stop _
  | succ fuel ih =>
    cases b with
    | nil => simpa [lossyFrom] using .stop _
    | cons c b =>
      obtain ⟨more, htake, hchar, hlen, hmore⟩ := utf8Char_spec c b
      have hvalid : validUtf8 (c :: more) = (utf8Char (c :: b)).2 := by
        rw [validUtf8, List.length_cons, validFrom, hchar, ← hlen, List.drop_length]
        cases more.length <;> simp [validFrom]
      have hvalue : c :: b ++ rest = (c :: more) ++ ((c :: b).drop (utf8Char (c :: b)).1 ++ rest) := by
        rw [← htake, ← List.append_assoc, List.take_append_drop]
      rw [lossyFrom] at h ⊢
      dsimp only at h ⊢
      rw [htake] at h ⊢
      cases hwhole : (utf8Char (c :: b)).2 with
      | true =>
        rw [hwhole] at h
        rw [if_pos rfl] at h ⊢
        rcases isCharBoundary_append h hmore with rfl | ⟨hle, h⟩
        · exact .stop _
        · rw [List.take_append, List.take_of_length_le hle, hvalue]
          exact .char (hvalid.trans hwhole) (ih _ h)
      | false =>
        rw [hwhole] at h
        rw [if_neg Bool.false_ne_true] at h ⊢
        rcases isCharBoundary_append h (by decide) with rfl | ⟨hle, h⟩
        · exact .stop _
        · rw [List.take_append, List.take_of_length_le hle, hvalue]
          exact .broken (hvalid.trans hwhole) (ih _ h)

/-- A read of a string is what it promises to be exactly when the string is within the cap, or a
character of its first bytes, decoded, starts at the cap or they end before it. -/
theorem capStringValue_iff (bytes : Bytes) : Caps bytes (capStringValue bytes) ↔
    bytes.length ≤ stringPreviewCap ∨
      isCharBoundary stringPreviewCap (fromUtf8Lossy (bytes.take stringPreviewCap)) = true := by
  unfold capStringValue
  by_cases hle : bytes.length ≤ stringPreviewCap
  · rw [if_pos hle, wholeText]
    cases hvalid : validUtf8 bytes with
    | true | false => exact iff_of_true ⟨rfl, hle, hvalid⟩ (.inl hle)
  rw [if_neg hle, or_iff_right hle]
  dsimp only
  have hshows (h : isCharBoundary stringPreviewCap (fromUtf8Lossy (bytes.take stringPreviewCap)) = true) :
      Shows ((fromUtf8Lossy (bytes.take stringPreviewCap)).take stringPreviewCap) bytes := by
    have hrest := shows_lossy _ _ (bytes.drop stringPreviewCap) h
    rwa [List.take_append_drop] at hrest
  by_cases hhead : (fromUtf8Lossy (bytes.take stringPreviewCap)).length ≤ stringPreviewCap
  · have hend : isCharBoundary stringPreviewCap (fromUtf8Lossy (bytes.take stringPreviewCap)) = true := by
      rw [isCharBoundary, List.drop_of_length_le hhead]
    rw [if_pos hhead]
    have hall := hshows hend
    rw [List.take_of_length_le hhead] at hall
    exact iff_of_true ⟨Nat.lt_of_not_le hle, rfl, hhead, hall⟩ hend
  · rw [if_neg hhead]
    split
    · rename_i hb
      exact iff_of_true ⟨Nat.lt_of_not_le hle, rfl, List.length_take_le _ _, hshows hb⟩ hb
    · rename_i hb
      exact iff_of_false id hb

theorem lossyFrom_letters (k fuel : Nat) (b : Bytes) :
    lossyFrom (k + fuel) (List.replicate k 97 ++ b) = List.replicate k 97 ++ lossyFrom fuel b := by
  induction k with
  | zero => rw [Nat.zero_add]; rfl
  | succ k ih =>
    rw [Nat.succ_add, List.replicate_succ, List.cons_append, lossyFrom]
    exact congrArg (97 :: ·) ih

/-- As many letters as fit but one, and a letter of two bytes, which the cap cuts. -/
theorem cut_letter {k : Nat} (hk : stringPreviewCap = k + 1) :
    capStringValue (List.replicate k 97 ++ [0xC3, 0xA9]) = .error .charBoundary := by
  have hwindow : (List.replicate k (97 : UInt8) ++ [0xC3, 0xA9]).take (k + 1) = List.replicate k 97 ++ [0xC3] := by
    simp [List.take_append]
  have hhead : fromUtf8Lossy (List.replicate k 97 ++ [0xC3]) = List.replicate k 97 ++ replacementChar := by
    rw [fromUtf8Lossy, List.length_append, List.length_replicate, List.length_singleton, lossyFrom_letters]
    rfl
  have hcut : isCharBoundary (k + 1) (List.replicate k 97 ++ replacementChar) = false := by
    simp [isCharBoundary, List.drop_append, replacementChar]
  unfold capStringValue
  dsimp only
  rw [hk, hwindow, hhead, hcut, if_neg (by simp), if_neg (by simp [replacementChar])]
  rfl

theorem cut_letter_panics :
    ¬ Caps (List.replicate 8191 97 ++ [0xC3, 0xA9]) (capStringValue (List.replicate 8191 97 ++ [0xC3, 0xA9])) := by
  rw [cut_letter rfl]
  exact id

end RedDb.Kv
