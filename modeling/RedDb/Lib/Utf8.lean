import RedDb.Lib.ByteText

/-!
# UTF-8 texts by their bytes

A scanner that works on the bytes of a text has to end where characters do.

* `cut_boundary` — a text is cut in two at a boundary;
* `boundary_after` — behind an ASCII byte there is one;
* `encode_append_inj` — what is behind the characters of a text is a text.
-/

namespace Utf8

open ByteText

def encode (t : List Char) : Bytes := t.flatMap String.utf8EncodeChar

/-- No character goes on at `i`. -/
def Boundary (b : Bytes) (i : Nat) : Prop := ∀ c, b[i]? = some c → c.IsUTF8FirstByte

variable {t u v : List Char} {b : Bytes} {i : Nat} {c : UInt8}

@[simp] theorem encode_nil : encode [] = [] := rfl

theorem encode_cons (x : Char) (t : List Char) : encode (x :: t) = String.utf8EncodeChar x ++ encode t :=
  List.flatMap_cons

theorem encode_append (u v : List Char) : encode (u ++ v) = encode u ++ encode v := List.flatMap_append

theorem boundary_end : Boundary b b.length := by
  intro c hc
  rw [List.getElem?_length] at hc
  exact absurd hc.symm (Option.some_ne_none c)

/-- The bytes of a character: the first begins it, the others do not. -/
theorem firstByte_iff {x : Char} (hc : (String.utf8EncodeChar x)[i]? = some c) : c.IsUTF8FirstByte ↔ i = 0 := by
  obtain ⟨hi, rfl⟩ := List.getElem?_eq_some_iff.mp hc
  exact UInt8.isUTF8FirstByte_getElem_utf8EncodeChar

theorem length_char_pos (x : Char) : 0 < (String.utf8EncodeChar x).length := by
  rw [String.length_utf8EncodeChar]
  exact x.utf8Size_pos

theorem boundary_zero (t : List Char) : Boundary (encode t) 0 := by
  cases t with
  | nil => exact boundary_end
  | cons x t =>
    intro c hc
    rw [encode_cons, List.getElem?_append_left (length_char_pos x)] at hc
    exact (firstByte_iff hc).mpr rfl

theorem boundary_append (u v : List Char) : Boundary (encode (u ++ v)) (encode u).length := by
  intro c hc
  rw [encode_append, List.getElem?_append_right (Nat.le_refl _), Nat.sub_self] at hc
  exact boundary_zero v c hc

/-- A text is cut in two at a boundary. -/
theorem cut_boundary (h : Boundary (encode t) i) (hi : i ≤ (encode t).length) :
    ∃ u v, t = u ++ v ∧ (encode u).length = i := by
  induction t generalizing i with
  | nil => exact ⟨[], [], rfl, (Nat.le_zero.mp hi).symm⟩
  | cons x t ih =>
    rcases Nat.eq_zero_or_pos i with rfl | hpos
    · exact ⟨[], x :: t, rfl, rfl⟩
    rcases Nat.lt_or_ge i (String.utf8EncodeChar x).length with hlt | hge
    · have hc := List.getElem?_eq_getElem hlt
      have hzero := (firstByte_iff hc).mp (h _ (by rw [encode_cons, List.getElem?_append_left hlt, hc]))
      omega
    rw [encode_cons, List.length_append] at hi
    have hrest : Boundary (encode t) (i - (String.utf8EncodeChar x).length) := by
      intro c hc
      exact h c (by rw [encode_cons, List.getElem?_append_right hge, hc])
    obtain ⟨u, v, rfl, hlen⟩ := ih hrest (by omega)
    refine ⟨x :: u, v, rfl, ?_⟩
    rw [encode_cons, List.length_append]
    omega

theorem take_boundary (h : Boundary (encode t) i) (hi : i ≤ (encode t).length) :
    ∃ u v, t = u ++ v ∧ (encode t).take i = encode u ∧ (encode t).drop i = encode v := by
  obtain ⟨u, v, rfl, hlen⟩ := cut_boundary h hi
  rw [encode_append]
  exact ⟨u, v, rfl, by rw [← hlen, List.take_left], by rw [← hlen, List.drop_left]⟩

/-- UTF-8 is a prefix code. -/
theorem encodeChar_inj {x y : Char} {r s : Bytes} (h : String.utf8EncodeChar x ++ r = String.utf8EncodeChar y ++ s) :
    x = y ∧ r = s := by
  have hx := ByteArray.utf8DecodeChar?_utf8EncodeChar_append (b := r.toByteArray) (c := x)
  have hy := ByteArray.utf8DecodeChar?_utf8EncodeChar_append (b := s.toByteArray) (c := y)
  rw [← List.toByteArray_append] at hx hy
  rw [h] at hx
  obtain rfl := Option.some.inj (hx.symm.trans hy)
  exact ⟨rfl, List.append_cancel_left h⟩

/-- What is behind the characters of a text is a text. -/
theorem encode_append_inj {rest : Bytes} (h : encode v = encode u ++ rest) : ∃ w, v = u ++ w ∧ rest = encode w := by
  induction u generalizing v with
  | nil => exact ⟨v, rfl, h.symm⟩
  | cons x u ih =>
    cases v with
    | nil =>
      have hlen : 0 = ((String.utf8EncodeChar x ++ encode u) ++ rest).length := congrArg List.length h
      rw [List.length_append, List.length_append] at hlen
      have := length_char_pos x
      omega
    | cons y v =>
      rw [encode_cons, encode_cons, List.append_assoc] at h
      obtain ⟨rfl, hbehind⟩ := encodeChar_inj h
      obtain ⟨w, rfl, hrest⟩ := ih hbehind
      exact ⟨w, rfl, hrest⟩

/-! ## The character at a boundary -/

theorem char_at (h : Boundary (encode t) i) (hi : i < (encode t).length) :
    ∃ x w, (encode t).drop i = String.utf8EncodeChar x ++ encode w := by
  obtain ⟨u, v, rfl, -, hdrop⟩ := take_boundary h (Nat.le_of_lt hi)
  cases v with
  | nil =>
    have hlen := congrArg List.length hdrop
    rw [List.length_drop, encode_nil, List.length_nil] at hlen
    omega
  | cons x w => exact ⟨x, w, hdrop⟩

section CharAt

variable {x : Char} (hdrop : b.drop i = String.utf8EncodeChar x ++ encode v)

include hdrop

theorem getElem?_char {k : Nat} (hk : k < (String.utf8EncodeChar x).length) :
    b[i + k]? = (String.utf8EncodeChar x)[k]? := by
  rw [← List.getElem?_drop, hdrop, List.getElem?_append_left hk]

theorem boundary_behind : Boundary b (i + (String.utf8EncodeChar x).length) := by
  intro c hc
  rw [← List.getElem?_drop, hdrop, List.getElem?_append_right (Nat.le_refl _), Nat.sub_self] at hc
  exact boundary_zero v c hc

/-- The next boundary is behind the character. -/
theorem char_le_boundary {stop : Nat} (hlt : i < stop) (hstop : Boundary b stop) :
    i + (String.utf8EncodeChar x).length ≤ stop := by
  by_contra hgt
  have hk := List.getElem?_eq_getElem (l := String.utf8EncodeChar x) (i := stop - i) (by omega)
  have hsame := getElem?_char hdrop (k := stop - i) (by omega)
  rw [Nat.add_sub_cancel' (Nat.le_of_lt hlt), hk] at hsame
  have := (firstByte_iff hk).mp (hstop _ hsame)
  omega

theorem slice_char : slice b i (i + (String.utf8EncodeChar x).length) = String.utf8EncodeChar x := by
  unfold slice
  rw [List.drop_take, Nat.add_sub_cancel_left, hdrop, List.take_left]

end CharAt

/-! ## ASCII bytes -/

theorem ascii_firstByte (h : c < 0x80) : c.IsUTF8FirstByte := by
  have hall : ∀ n : Fin 128, (UInt8.ofNat n.val).IsUTF8FirstByte := by decide
  have hc := hall ⟨c.toNat, UInt8.lt_iff_toNat_lt.mp h⟩
  rwa [UInt8.ofNat_toNat] at hc

theorem encode_ascii (h : c < 0x80) : String.utf8EncodeChar (Char.ofNat c.toNat) = [c] := by
  have hall : ∀ n : Fin 128, String.utf8EncodeChar (Char.ofNat n.val) = [UInt8.ofNat n.val] := by decide
  have hc := hall ⟨c.toNat, UInt8.lt_iff_toNat_lt.mp h⟩
  rwa [UInt8.ofNat_toNat] at hc

/-- A character with an ASCII byte is that byte. -/
theorem encodeChar_ascii {x : Char} (hc : (String.utf8EncodeChar x)[i]? = some c) (h : c < 0x80) :
    String.utf8EncodeChar x = [c] := by
  obtain rfl := (firstByte_iff hc).mp (ascii_firstByte h)
  have hfront : String.utf8EncodeChar x ++ [] =
      String.utf8EncodeChar (Char.ofNat c.toNat) ++ (String.utf8EncodeChar x).tail := by
    rw [encode_ascii h, List.append_nil]
    cases hw : String.utf8EncodeChar x with
    | nil => rw [hw] at hc; exact absurd hc.symm (Option.some_ne_none c)
    | cons d w => rw [hw] at hc; rw [Option.some.inj hc]; rfl
  rw [(encodeChar_inj hfront).1, encode_ascii h]

theorem boundary_ascii (hc : b[i]? = some c) (h : c < 0x80) : Boundary b i := fun d hd => by
  rw [← Option.some.inj (hc.symm.trans hd)]
  exact ascii_firstByte h

/-- Behind an ASCII byte a character begins. -/
theorem boundary_after (hc : (encode t)[i]? = some c) (h : c < 0x80) : Boundary (encode t) (i + 1) := by
  obtain ⟨hi, -⟩ := List.getElem?_eq_some_iff.mp hc
  obtain ⟨u, v, rfl, hlen⟩ := cut_boundary (boundary_ascii hc h) (Nat.le_of_lt hi)
  cases v with
  | nil =>
    rw [List.append_nil] at hi
    omega
  | cons x v =>
    have hfirst : String.utf8EncodeChar x ++ encode v = c :: (String.utf8EncodeChar x ++ encode v).tail := by
      rw [encode_append, List.getElem?_append_right (by omega), hlen, Nat.sub_self, encode_cons] at hc
      cases hw : String.utf8EncodeChar x ++ encode v with
      | nil => rw [hw] at hc; exact absurd hc.symm (Option.some_ne_none c)
      | cons d w => rw [hw] at hc; rw [Option.some.inj hc]; rfl
    have hx : x = Char.ofNat c.toNat :=
      (encodeChar_inj (s := (String.utf8EncodeChar x ++ encode v).tail) (by rw [encode_ascii h]; exact hfirst)).1
    have hsplit : (encode (u ++ [x])).length = i + 1 := by
      rw [encode_append, List.length_append, hlen, encode_cons, encode_nil, List.append_nil, hx, encode_ascii h]
      rfl
    rw [← hsplit, show u ++ x :: v = (u ++ [x]) ++ v by simp]
    exact boundary_append _ _

end Utf8
