import Mathlib.Tactic.Ring
import RedDb.Driver.PgText
import RedDb.Lib.Numerals

/-!
# RedDb — the decimals of the renderers

The numerals that the Postgres renderers write, bare and zero-padded, as digits of a fixed width,
and the number that such a text is.

* `padNat_eq_fixed` — a padded number is its last digits;
* `ofDigits_append` — the number of two texts in a row.
-/

namespace RedDb.Driver

open ByteText

/-- The last `w` decimal digits. -/
@[grind =] def fixed : Nat → Nat → Bytes
  | 0, _ => []
  | w + 1, n => fixed w (n / 10) ++ [48 + UInt8.ofNat (n % 10)]

theorem length_fixed (w n : Nat) : (fixed w n).length = w := by
  induction w generalizing n with
  | zero => rfl
  | succ w ih => rw [fixed, List.length_append, ih, List.length_singleton]

theorem fixed_zero (w : Nat) : fixed w 0 = List.replicate w 48 := by
  induction w with
  | zero => rfl
  | succ w ih => rw [fixed, Nat.zero_div, ih, List.replicate_succ']; rfl

theorem digitByte_toNat {n : Nat} (h : n < 10) : (48 + UInt8.ofNat n).toNat = 48 + n := by
  rw [UInt8.toNat_add, UInt8.toNat_ofNat']
  change (48 + n % 256) % 256 = 48 + n
  omega

theorem decimalFrom_eq {n fuel fuel' : Nat} (h : n < fuel) (h' : n < fuel') :
    decimalFrom fuel n = decimalFrom fuel' n := by
  induction fuel generalizing n fuel' with
  | zero => omega
  | succ fuel ih =>
    obtain ⟨k, rfl⟩ : ∃ k, fuel' = k + 1 := ⟨fuel' - 1, by omega⟩
    unfold decimalFrom
    split
    · rfl
    · rw [@ih (n / 10) k (by omega) (by omega)]

theorem decimal_of_ge {n : Nat} (h : 10 ≤ n) :
    decimal n = decimal (n / 10) ++ [48 + UInt8.ofNat (n % 10)] := by
  unfold decimal
  rw [decimalFrom, if_neg (by omega),
    @decimalFrom_eq (n / 10) n _ (by omega) (Nat.lt_succ_self _)]

theorem padNat_eq_fixed {w n : Nat} (hw : 0 < w) (h : n < 10 ^ w) : padNat w n = fixed w n := by
  induction w generalizing n with
  | zero => omega
  | succ w ih =>
    rw [fixed]
    rcases lt_or_ge n 10 with hn | hn
    · have hdec : decimal n = [48 + UInt8.ofNat n] := by
        rw [decimal, decimalFrom, if_pos hn]
      rw [padNat, hdec, Nat.div_eq_of_lt hn, fixed_zero, Nat.mod_eq_of_lt hn]
      rfl
    · have hpos : 0 < w := by
        rcases Nat.eq_zero_or_pos w with rfl | hpos
        · omega
        · exact hpos
      rw [← ih hpos (by rw [Nat.pow_succ] at h; omega), padNat, padNat, decimal_of_ge hn,
        List.length_append, List.length_singleton, Nat.add_sub_add_right, List.append_assoc]

theorem length_padNat {w n : Nat} (hw : 0 < w) (h : n < 10 ^ w) : (padNat w n).length = w := by
  rw [padNat_eq_fixed hw h, length_fixed]

/-! ## The number of a text -/

theorem ofDigits_append (s t : Bytes) : ofDigits (s ++ t) = ofDigits s * 10 ^ t.length + ofDigits t := by
  have hfold : ∀ (t : Bytes) (n : Nat), t.foldl (fun n c => 10 * n + (c.toNat - 48)) n =
      n * 10 ^ t.length + ofDigits t := by
    intro t
    induction t with
    | nil =>
      intro n
      show n = n * 1 + 0
      omega
    | cons c t ih =>
      intro n
      have hrest : ofDigits (c :: t) = (10 * 0 + (c.toNat - 48)) * 10 ^ t.length + ofDigits t := ih _
      rw [List.foldl_cons, ih, hrest, List.length_cons, Nat.pow_succ]
      ring
  unfold ofDigits
  rw [List.foldl_append]
  exact hfold t _

/-- Every byte is a decimal digit. -/
def AllDigits (t : Bytes) : Prop := ∀ c ∈ t, isAsciiDigit c = true

theorem digit_range {c : UInt8} (h : isAsciiDigit c = true) : 48 ≤ c.toNat ∧ c.toNat ≤ 57 := by
  simpa [isAsciiDigit, UInt8.le_iff_toNat_le] using h

theorem allDigits_digit {n : Nat} (h : n < 10) : isAsciiDigit (48 + UInt8.ofNat n) = true := by
  have hvalue := digitByte_toNat h
  simp only [isAsciiDigit, Bool.and_eq_true, decide_eq_true_eq, UInt8.le_iff_toNat_le, hvalue]
  show 48 ≤ 48 + n ∧ 48 + n ≤ 57
  omega

theorem AllDigits.append {s t : Bytes} (hs : AllDigits s) (ht : AllDigits t) : AllDigits (s ++ t) := by
  intro c hc
  rcases List.mem_append.mp hc with hc | hc
  · exact hs c hc
  · exact ht c hc

theorem allDigits_fixed (w n : Nat) : AllDigits (fixed w n) := by
  induction w generalizing n with
  | zero =>
    intro c hc
    exact absurd hc List.not_mem_nil
  | succ w ih =>
    refine (ih (n / 10)).append fun c hc => ?_
    rw [List.mem_singleton.mp hc]
    exact allDigits_digit (Nat.mod_lt n (by omega))

theorem ofDigits_lt {t : Bytes} (h : AllDigits t) : ofDigits t < 10 ^ t.length := by
  induction t with
  | nil => exact Nat.one_pos
  | cons c t ih =>
    obtain ⟨hc, ht⟩ := List.forall_mem_cons.mp h
    have hdigit := digit_range hc
    have hrest := ih ht
    have hsplit := ofDigits_append [c] t
    have hhead : ofDigits [c] = c.toNat - 48 := by
      show 10 * 0 + (c.toNat - 48) = _
      omega
    rw [List.singleton_append, hhead] at hsplit
    rw [hsplit, List.length_cons, Nat.pow_succ]
    have hle : (c.toNat - 48) * 10 ^ t.length ≤ 9 * 10 ^ t.length := Nat.mul_le_mul_right _ (by omega)
    omega

theorem ofDigits_fixed (w n : Nat) : ofDigits (fixed w n) = n % 10 ^ w := by
  induction w generalizing n with
  | zero =>
    rw [Nat.pow_zero, Nat.mod_one]
    rfl
  | succ w ih =>
    have hdigit : ofDigits [48 + UInt8.ofNat (n % 10)] = n % 10 := by
      show 10 * 0 + ((48 + UInt8.ofNat (n % 10)).toNat - 48) = _
      rw [digitByte_toNat (Nat.mod_lt n (by omega))]
      omega
    rw [fixed, ofDigits_append, ih, hdigit, List.length_singleton, Nat.pow_one, Nat.pow_succ', Nat.mod_mul]
    omega

theorem ofDigits_padNat {w n : Nat} (hw : 0 < w) (h : n < 10 ^ w) : ofDigits (padNat w n) = n := by
  rw [padNat_eq_fixed hw h, ofDigits_fixed, Nat.mod_eq_of_lt h]

theorem allDigits_padNat {w n : Nat} (hw : 0 < w) (h : n < 10 ^ w) : AllDigits (padNat w n) := by
  rw [padNat_eq_fixed hw h]
  exact allDigits_fixed w n

/-- A bare numeral: its digits, and no zero in front. -/
theorem decimal_spec (n : Nat) : AllDigits (decimal n) ∧ ofDigits (decimal n) = n ∧ decimal n ≠ [] ∧
      (n ≠ 0 → (decimal n).head? ≠ some 48) := by
  induction n using Nat.strong_induction_on with
  | _ n ih =>
    rcases Nat.lt_or_ge n 10 with hn | hn
    · have hdec : decimal n = [48 + UInt8.ofNat n] := by rw [decimal, decimalFrom, if_pos hn]
      rw [hdec]
      refine ⟨fun c hc => ?_, ?_, List.cons_ne_nil _ _, fun hne hzero => hne ?_⟩
      · rw [List.mem_singleton.mp hc]
        exact allDigits_digit hn
      · show 10 * 0 + ((48 + UInt8.ofNat n).toNat - 48) = n
        rw [digitByte_toNat hn]
        omega
      · have hbyte := congrArg UInt8.toNat (Option.some.inj hzero)
        rw [digitByte_toNat hn] at hbyte
        have hbyte : 48 + n = 48 := hbyte
        omega
    · obtain ⟨hdigits, hvalue, hne, hhead⟩ := ih (n / 10) (by omega)
      have hlast : n % 10 < 10 := Nat.mod_lt n (by omega)
      rw [decimal_of_ge hn]
      refine ⟨hdigits.append fun c hc => ?_, ?_, fun h => hne (List.append_eq_nil_iff.mp h).1, fun _ => ?_⟩
      · rw [List.mem_singleton.mp hc]
        exact allDigits_digit hlast
      · have hdigit : ofDigits [48 + UInt8.ofNat (n % 10)] = n % 10 := by
          show 10 * 0 + ((48 + UInt8.ofNat (n % 10)).toNat - 48) = _
          rw [digitByte_toNat hlast]
          omega
        rw [ofDigits_append, hvalue, hdigit, List.length_singleton]
        omega
      · obtain ⟨c, t, ht⟩ := List.exists_cons_of_ne_nil hne
        have hzero := hhead (by omega)
        rw [ht] at hzero ⊢
        exact hzero

end RedDb.Driver
