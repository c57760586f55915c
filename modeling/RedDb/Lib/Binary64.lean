import Mathlib.Data.Nat.Log
import Mathlib.Order.WithBot
import Mathlib.Tactic.Positivity
import Mathlib.Tactic.Ring

/-!
# Doubles as the numbers they stand for

A binary64 is read from its 64 bits. Every finite one is a multiple of
`2 ^ -1074`, so its value is an integer count of that unit and comparing two of
them is comparing integers. An infinity counts as `2 ^ 1024`, past every finite
double.

* `decode`, `partialCmp`     — the value of the bits, and IEEE comparison;
* `ofInt` — the nearest double of an integer, ties to even;
* `roundNat_le_magnitude`,
  `magnitude_le_roundNat`    — rounding an integer carries it past no double.
-/

namespace Binary64

/-- A double: not a number, or a count of units. -/
inductive Double where
  | nan
  | num (units : Int)

/-! ## Decoding -/

/-- One, in units. -/
def one : Nat := 2 ^ 1074

/-- The value of the low 63 bits: a subnormal as it stands, else a 53-bit
significand and its exponent. -/
def magnitude (m : Nat) : Nat :=
  if m < 2 ^ 52 then m else (2 ^ 52 + m % 2 ^ 52) * 2 ^ (m / 2 ^ 52 - 1)

def decode (bits : UInt64) : Double :=
  let m := bits.toNat % 2 ^ 63
  if 0x7FF0000000000000 < m then .nan
  else if bits.toNat < 2 ^ 63 then .num (magnitude m) else .num (-magnitude m)

def Double.isNaN : Double → Bool
  | .nan => true
  | .num _ => false

/-- `partial_cmp`: no answer when either side is not a number. -/
def Double.partialCmp : Double → Double → Option Ordering
  | .num x, .num y => some (compare x y)
  | _, _ => none

/-- `==`: not a number equals nothing. -/
def Double.eq : Double → Double → Bool
  | .num x, .num y => x == y
  | _, _ => false

/-- The place of a double among all of them, not a number last. -/
def Double.place : Double → WithTop Int
  | .nan => ⊤
  | .num x => x

/-- The order of the places, not a number last and equal to itself. -/
def Double.order : Double → Double → Ordering
  | .nan, .nan => .eq
  | .nan, .num _ => .gt
  | .num _, .nan => .lt
  | .num x, .num y => compare x y

/-! ## Rounding -/

/-- The nearest natural number with at most 53 significant bits, ties to even. -/
def roundNat (n : Nat) : Nat :=
  let s := n.log2 - 52
  let q := n / 2 ^ s
  let r := n % 2 ^ s
  if 2 ^ s < 2 * r ∨ (2 * r = 2 ^ s ∧ q % 2 = 1) then (q + 1) * 2 ^ s else q * 2 ^ s

/-- `n as f64`, for an integer the exponent reaches. -/
def ofInt (n : Int) : Double :=
  if n < 0 then .num (-(roundNat n.natAbs * one : Nat)) else .num (roundNat n.natAbs * one : Nat)

/-- Small enough integers are doubles. -/
theorem roundNat_of_lt {n : Nat} (h : n < 2 ^ 53) : roundNat n = n := by
  have hs : n.log2 - 52 = 0 := by
    rcases Nat.eq_zero_or_pos n with rfl | hn
    · rfl
    · have := (Nat.log2_lt hn.ne').mpr h
      omega
  unfold roundNat
  simp [hs, Nat.mod_one]

/-- The two neighbours a rounding chooses from. -/
theorem roundNat_cases (n : Nat) : (roundNat n = n / 2 ^ (n.log2 - 52) * 2 ^ (n.log2 - 52)) ∨
      (roundNat n = (n / 2 ^ (n.log2 - 52) + 1) * 2 ^ (n.log2 - 52) ∧
        n / 2 ^ (n.log2 - 52) * 2 ^ (n.log2 - 52) < n) := by
  have hsplit := Nat.div_add_mod' n (2 ^ (n.log2 - 52))
  have hpow : 0 < 2 ^ (n.log2 - 52) := by positivity
  unfold roundNat
  simp only
  split
  · right
    refine ⟨rfl, ?_⟩
    omega
  · exact Or.inl rfl

/-- A double that large has no finer digits. -/
theorem dvd_magnitude {m s : Nat} (h : 2 ^ (52 + s) * one ≤ magnitude m) :
    2 ^ s * one ∣ magnitude m := by
  have hone : 2 ^ (52 + s) * one = 2 ^ (52 + s + 1074) := by
    rw [one, ← Nat.pow_add]
  unfold magnitude at h ⊢
  split at h
  · rename_i hm
    have : 2 ^ 52 ≤ 2 ^ (52 + s + 1074) := Nat.pow_le_pow_right (by omega) (by omega)
    omega
  rename_i hm
  rw [if_neg hm]
  have hsig : 2 ^ 52 + m % 2 ^ 52 < 2 ^ 53 := by omega
  have hlt : 2 ^ (52 + s + 1074) < 2 ^ (53 + (m / 2 ^ 52 - 1)) := by
    calc 2 ^ (52 + s + 1074) = 2 ^ (52 + s) * one := hone.symm
      _ ≤ (2 ^ 52 + m % 2 ^ 52) * 2 ^ (m / 2 ^ 52 - 1) := h
      _ < 2 ^ 53 * 2 ^ (m / 2 ^ 52 - 1) :=
        Nat.mul_lt_mul_of_pos_right hsig (by positivity)
      _ = 2 ^ (53 + (m / 2 ^ 52 - 1)) := (Nat.pow_add ..).symm
  have hexp := (Nat.pow_lt_pow_iff_right (by omega)).mp hlt
  rw [one, ← Nat.pow_add]
  exact Dvd.dvd.mul_left (Nat.pow_dvd_pow 2 (by omega)) _

/-- The scale of a number too large to be exact. -/
theorem two_pow_le {n : Nat} (h : 2 ^ 53 ≤ n) : 2 ^ (52 + (n.log2 - 52)) ≤ n := by
  have hlog : 53 ≤ n.log2 := (Nat.le_log2 (by omega)).mpr h
  rw [Nat.add_sub_cancel' (by omega)]
  exact Nat.log2_self_le (by omega)

/-- Rounding up stops at the next double. -/
theorem roundNat_le_magnitude {n m : Nat} (h : n * one ≤ magnitude m) :
    roundNat n * one ≤ magnitude m := by
  rcases lt_or_ge n (2 ^ 53) with hsmall | hlarge
  · simpa only [roundNat_of_lt hsmall] using h
  rcases roundNat_cases n with hr | ⟨hr, hlt⟩ <;> rw [hr]
  · exact (Nat.mul_le_mul_right one (Nat.div_mul_le_self ..)).trans h
  have hpos : 0 < one := by unfold one; positivity
  obtain ⟨c, hc⟩ := dvd_magnitude
    ((Nat.mul_le_mul_right one (two_pow_le hlarge)).trans h)
  rw [hc, mul_assoc, mul_comm _ c]
  refine Nat.mul_le_mul_right _ (Nat.succ_le_of_lt ?_)
  by_contra hge
  have hcn : c * 2 ^ (n.log2 - 52) < n := by
    calc c * 2 ^ (n.log2 - 52) ≤ n / 2 ^ (n.log2 - 52) * 2 ^ (n.log2 - 52) :=
          Nat.mul_le_mul_right _ (not_lt.mp hge)
      _ < n := hlt
  have : magnitude m < n * one := by
    calc magnitude m = c * 2 ^ (n.log2 - 52) * one := by rw [hc]; ring
      _ < n * one := Nat.mul_lt_mul_of_pos_right hcn hpos
  omega

/-- Rounding down stops at the double below. -/
theorem magnitude_le_roundNat {n m : Nat} (h : magnitude m ≤ n * one) :
    magnitude m ≤ roundNat n * one := by
  rcases lt_or_ge n (2 ^ 53) with hsmall | hlarge
  · simpa only [roundNat_of_lt hsmall] using h
  have hpow : 0 < 2 ^ (n.log2 - 52) := by positivity
  have hsplit := Nat.div_add_mod' n (2 ^ (n.log2 - 52))
  have hmod := Nat.mod_lt n hpow
  rcases roundNat_cases n with hr | ⟨hr, hlt⟩ <;> rw [hr]
  · rcases lt_or_ge (magnitude m) (2 ^ (52 + (n.log2 - 52)) * one) with hlow | hhigh
    · refine hlow.le.trans (Nat.mul_le_mul_right one ?_)
      rw [Nat.pow_add]
      refine Nat.mul_le_mul_right _ ((Nat.le_div_iff_mul_le hpow).mpr ?_)
      rw [← Nat.pow_add]
      exact two_pow_le hlarge
    · obtain ⟨c, hc⟩ := dvd_magnitude hhigh
      rw [hc, mul_comm _ c, ← mul_assoc, mul_right_comm] at h ⊢
      have hpos : 0 < one := by unfold one; positivity
      rw [mul_right_comm] at h ⊢
      refine Nat.mul_le_mul_right one (Nat.mul_le_mul_right _ ?_)
      exact (Nat.le_div_iff_mul_le hpow).mpr (Nat.le_of_mul_le_mul_right h hpos)
  · refine h.trans (Nat.mul_le_mul_right one ?_)
    rw [add_mul, one_mul]
    omega

/-- The integer itself, in units. -/
theorem natAbs_units (n : Int) :
    n * (one : Nat) = if n < 0 then -((n.natAbs * one : Nat) : Int) else (n.natAbs * one : Nat) := by
  split
  · rename_i hneg
    rw [Nat.cast_mul, Int.ofNat_natAbs_of_nonpos hneg.le, neg_mul, neg_neg]
  · rename_i hpos
    rw [Nat.cast_mul, Int.natAbs_of_nonneg (not_lt.mp hpos)]

/-- The double of an integer is on the same side of every double as the integer. -/
theorem ofInt_side (n : Int) {bits : UInt64} {y : Int} (h : decode bits = .num y) :
    ∃ x, ofInt n = .num x ∧ (n * (one : Nat) ≤ y → x ≤ y) ∧ (y ≤ n * (one : Nat) → y ≤ x) := by
  have hup := @roundNat_le_magnitude n.natAbs (bits.toNat % 2 ^ 63)
  have hdown := @magnitude_le_roundNat n.natAbs (bits.toNat % 2 ^ 63)
  rw [natAbs_units]
  obtain ⟨m, hm, hy⟩ : ∃ m, m = magnitude (bits.toNat % 2 ^ 63) ∧ (y = m ∨ y = -m) := by
    refine ⟨_, rfl, ?_⟩
    unfold decode at h
    simp only at h
    split at h
    · cases h
    · split at h
      · exact Or.inl (Double.num.inj h).symm
      · exact Or.inr (Double.num.inj h).symm
  rw [← hm] at hup hdown
  unfold ofInt
  generalize roundNat n.natAbs * one = r at hup hdown
  have hzero : n.natAbs * one = 0 → n = 0 := by
    intro hz
    have hone : one ≠ 0 := by unfold one; positivity
    exact Int.natAbs_eq_zero.mp ((Nat.mul_eq_zero.mp hz).resolve_right hone)
  generalize n.natAbs * one = u at hup hdown hzero
  split
  · exact ⟨_, rfl, by omega, by omega⟩
  · exact ⟨_, rfl, by omega, by omega⟩

end Binary64
