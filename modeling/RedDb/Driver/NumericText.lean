import Mathlib.Algebra.BigOperators.Intervals
import Mathlib.Data.Rat.Cast.Order
import Mathlib.Tactic.FieldSimp
import Mathlib.Tactic.Positivity
import RedDb.Driver.PgDigits

/-!
# RedDb — the text of a `numeric`

A `numeric` comes as groups of four decimal digits, the first of them with the exponent `weight`, and
the number of decimal places to show. The groups are printed from the most significant one on, those
that are not stored as zeros, and the last is cut at the scale.

* `window_value` — the groups from a place up to another, as one number;
* `numeric_exact` — the text is the number, to exactly its scale.
-/

namespace RedDb.Driver

open ByteText

/-! ## Groups -/

/-- Groups in a row as one number. -/
def groupsValue (gs : List Nat) : Nat := gs.foldl (fun n g => n * 10000 + g) 0

/-- The group at a place, zero where none is stored. -/
def groupAt (gs : List Nat) (i : Int) : Nat := if 0 ≤ i then (gs[i.toNat]?).getD 0 else 0

/-- The `k` groups from place `s` on. -/
def window (gs : List Nat) (s : Int) (k : Nat) : List Nat :=
  (List.range k).map fun (j : Nat) => groupAt gs (s + j)

def padded (gs : List Nat) : Bytes := gs.flatMap (padNat 4)

section Groups

variable {gs hs : List Nat} {s : Int} {k : Nat}

theorem groupsValue_singleton (g : Nat) : groupsValue [g] = g := by
  show 0 * 10000 + g = g
  omega

theorem groupsValue_append (gs hs : List Nat) :
    groupsValue (gs ++ hs) = groupsValue gs * 10000 ^ hs.length + groupsValue hs := by
  have hfold : ∀ (hs : List Nat) (n : Nat), hs.foldl (fun n g => n * 10000 + g) n =
      n * 10000 ^ hs.length + groupsValue hs := by
    intro hs
    induction hs with
    | nil =>
      intro n
      show n = n * 1 + 0
      omega
    | cons h hs ih =>
      intro n
      have hrest : groupsValue (h :: hs) = (0 * 10000 + h) * 10000 ^ hs.length + groupsValue hs := ih _
      rw [List.foldl_cons, ih, hrest, List.length_cons, Nat.pow_succ]
      ring
  unfold groupsValue
  rw [List.foldl_append]
  exact hfold hs _

theorem groupsValue_lt (h : ∀ g ∈ gs, g < 10000) : groupsValue gs < 10000 ^ gs.length := by
  induction gs with
  | nil => exact Nat.one_pos
  | cons g gs ih =>
    obtain ⟨hg, hgs⟩ := List.forall_mem_cons.mp h
    have hrest := ih hgs
    have hsplit := groupsValue_append [g] gs
    rw [List.singleton_append, groupsValue_singleton] at hsplit
    rw [hsplit, List.length_cons, Nat.pow_succ]
    have hle : g * 10000 ^ gs.length ≤ 9999 * 10000 ^ gs.length := Nat.mul_le_mul_right _ (by omega)
    omega

theorem groupAt_lt (h : ∀ g ∈ gs, g < 10000) (i : Int) : groupAt gs i < 10000 := by
  unfold groupAt
  split
  · cases hg : gs[i.toNat]? with
    | none => exact Nat.succ_pos _
    | some g => exact h g (List.mem_of_getElem? hg)
  · exact Nat.succ_pos _

theorem window_succ (gs : List Nat) (s : Int) (k : Nat) :
    window gs s (k + 1) = window gs s k ++ [groupAt gs (s + k)] := by
  unfold window
  rw [List.range_succ, List.map_append, List.map_singleton]

theorem window_append (gs : List Nat) (s : Int) (j k : Nat) :
    window gs s (j + k) = window gs s j ++ window gs (s + j) k := by
  induction k with
  | zero => exact (List.append_nil _).symm
  | succ k ih =>
    have hplace : s + ((j + k : Nat) : Int) = s + (j : Int) + (k : Int) := by omega
    rw [← Nat.add_assoc, window_succ, ih, window_succ, List.append_assoc, hplace]

theorem window_lt (h : ∀ g ∈ gs, g < 10000) : ∀ g ∈ window gs s k, g < 10000 := by
  intro g hg
  obtain ⟨j, -, rfl⟩ := List.mem_map.mp hg
  exact groupAt_lt h _

/-- The groups from a place in front of the first one on: the stored ones, as many as there are, and
zeros behind them. -/
theorem window_value (hs : s ≤ 0) : groupsValue (window gs s k) =
    groupsValue (gs.take (s + k).toNat) * 10000 ^ ((s + k).toNat - gs.length) := by
  induction k with
  | zero =>
    have hstart : (s + (0 : Nat)).toNat = 0 := by omega
    rw [hstart, Nat.zero_sub, Nat.pow_zero]
    rfl
  | succ k ih =>
    rw [window_succ, groupsValue_append, ih]
    show _ * 10000 + (0 * 10000 + groupAt gs (s + k)) = _
    rcases lt_or_ge (s + (k : Int)) 0 with hneg | hpos
    · have hnow : (s + k).toNat = 0 := by omega
      have hnext : (s + (k + 1 : Nat)).toNat = 0 := by omega
      have hnone : groupsValue (gs.take 0) = 0 := by
        rw [List.take_zero]
        rfl
      rw [hnow, hnext, groupAt, if_neg (by omega), hnone]
      omega
    · obtain ⟨i, hi⟩ := Int.eq_ofNat_of_zero_le hpos
      have hnow : (s + k).toNat = i := by omega
      have hnext : (s + (k + 1 : Nat)).toNat = i + 1 := by omega
      have hgroup : groupAt gs (s + k) = (gs[i]?).getD 0 := by rw [groupAt, if_pos hpos, hnow]
      rw [hnow, hnext, hgroup]
      rcases Nat.lt_or_ge i gs.length with hin | hout
      · have hone : i + 1 - gs.length = 0 := by omega
        have hzero : i - gs.length = 0 := by omega
        rw [hone, hzero, List.take_add_one, List.getElem?_eq_getElem hin, groupsValue_append]
        show _ * 1 * 10000 + (0 * 10000 + gs[i]) = (_ * 10000 ^ 1 + (0 * 10000 + gs[i])) * 1
        omega
      · have hsucc : i + 1 - gs.length = (i - gs.length) + 1 := by omega
        rw [hsucc, List.take_of_length_le hout, List.take_of_length_le (Nat.le_succ_of_le hout),
          List.getElem?_eq_none hout, Nat.pow_succ, Option.getD_none]
        ring

theorem padded_spec (gs : List Nat) (h : ∀ g ∈ gs, g < 10000) :
    ofDigits (padded gs) = groupsValue gs ∧ (padded gs).length = 4 * gs.length ∧
      AllDigits (padded gs) := by
  induction gs with
  | nil => exact ⟨rfl, rfl, fun c hc => absurd hc List.not_mem_nil⟩
  | cons g gs ih =>
    obtain ⟨hg, hgs⟩ := List.forall_mem_cons.mp h
    obtain ⟨hvalue, hlength, hdigits⟩ := ih hgs
    have hwidth : 0 < 4 := by omega
    have hshape : padded (g :: gs) = padNat 4 g ++ padded gs := List.flatMap_cons
    have hgroups := groupsValue_append [g] gs
    rw [List.singleton_append, groupsValue_singleton] at hgroups
    refine ⟨?_, ?_, ?_⟩
    · rw [hshape, ofDigits_append, hvalue, hlength, ofDigits_padNat hwidth hg, hgroups, Nat.pow_mul]
    · rw [hshape, List.length_append, hlength, length_padNat hwidth hg, List.length_cons]
      omega
    · rw [hshape]
      exact (allDigits_padNat hwidth hg).append hdigits

end Groups

/-! ## The wire -/

section Wire

variable (raw : Bytes)

def numericDigits : Nat := (be16 raw 0).toNat

def numericWeight : Int := be16 raw 1

def numericSign : Nat := beNat (slice raw 4 6)

def numericScale : Nat := (be16 raw 3).toNat

def numericGroups : List Nat := (List.range (numericDigits raw)).map fun i => (be16 raw (4 + i)).toNat

/-- The number without its sign. -/
def magnitude : ℚ :=
  (groupsValue (numericGroups raw) : ℚ) * 10000 ^ (numericWeight raw + 1 - numericDigits raw)

end Wire

/-- The bytes of a number, as the server sends it: the groups it counts, each of four digits, and no
digit behind the scale. -/
structure WireNumeric where
  raw : Bytes
  length : raw.length = 8 + numericDigits raw * 2
  sign : numericSign raw = 0 ∨ numericSign raw = 0x4000
  groups : ∀ i < numericDigits raw, 0 ≤ be16 raw (4 + i) ∧ be16 raw (4 + i) < 10000
  scaled : ∃ k : Nat, magnitude raw * 10 ^ numericScale raw = k

namespace WireNumeric

variable (n : WireNumeric)

theorem groups_lt : ∀ g ∈ numericGroups n.raw, g < 10000 := by
  intro g hg
  obtain ⟨i, hi, rfl⟩ := List.mem_map.mp hg
  obtain ⟨hlow, hhigh⟩ := n.groups i (List.mem_range.mp hi)
  omega

theorem length_groups : (numericGroups n.raw).length = numericDigits n.raw := by
  rw [numericGroups, List.length_map, List.length_range]

/-- The group the printer reads at a place. -/
theorem numericGroup_eq (i : Int) :
    numericGroup n.raw (numericDigits n.raw) i = groupAt (numericGroups n.raw) i := by
  unfold numericGroup groupAt
  by_cases hi : 0 ≤ i
  · rw [if_pos hi]
    by_cases hlt : i.toNat < numericDigits n.raw
    · rw [if_pos ⟨hi, hlt⟩, numericGroups, List.getElem?_map, List.getElem?_range hlt]
      exact (Int.toNat_of_nonneg (n.groups _ hlt).1).symm
    have hout : (numericGroups n.raw).length ≤ i.toNat := by
      rw [n.length_groups]
      omega
    rw [if_neg fun h => hlt h.2, List.getElem?_eq_none hout]
    rfl
  · rw [if_neg hi, if_neg fun h => hi h.1]
    rfl

theorem padInt_group {w : Nat} (i : Int) :
    padInt w (numericGroup n.raw (numericDigits n.raw) i) = padNat w (groupAt (numericGroups n.raw) i) := by
  rw [n.numericGroup_eq, padInt, if_neg (by omega), Int.natAbs_natCast]

/-- The places behind the point, as many groups as the scale takes. -/
theorem numericFraction_eq (fuel : Nat) (i : Int) (frac : Bytes)
    (hfuel : numericScale n.raw ≤ frac.length + 4 * fuel) :
    ∃ k, numericFraction n.raw (numericDigits n.raw) (numericScale n.raw) fuel i frac =
        frac ++ padded (window (numericGroups n.raw) i k) ∧ numericScale n.raw ≤ frac.length + 4 * k := by
  induction fuel generalizing i frac with
  | zero => exact ⟨0, (List.append_nil _).symm, hfuel⟩
  | succ fuel ih =>
    rw [numericFraction]
    split_ifs with hmore
    · have hgroup := groupAt_lt n.groups_lt i
      have hlength : (padNat 4 (groupAt (numericGroups n.raw) i)).length = 4 :=
        length_padNat (by omega) hgroup
      rw [n.padInt_group]
      obtain ⟨k, heq, hscale⟩ := ih (i + 1) (frac ++ padNat 4 (groupAt (numericGroups n.raw) i))
        (by rw [List.length_append, hlength]; omega)
      refine ⟨1 + k, ?_, ?_⟩
      · rw [heq, window_append, List.append_assoc]
        have hfirst : window (numericGroups n.raw) i 1 = [groupAt (numericGroups n.raw) i] := by
          show [groupAt (numericGroups n.raw) (i + (0 : Nat))] = _
          rw [Nat.cast_zero, Int.add_zero]
        rw [hfirst]
        rfl
      · rw [List.length_append, hlength] at hscale
        omega
    · exact ⟨0, (List.append_nil _).symm, by omega⟩

/-- The digits in front of the point. -/
def whole : Bytes :=
  if numericWeight n.raw < 0 then [48]
  else (List.range ((numericWeight n.raw).toNat + 1)).flatMap fun (i : Nat) =>
    padInt (if (i : Int) = 0 then 1 else 4) (numericGroup n.raw (numericDigits n.raw) i)

theorem padNat_one (g : Nat) : padNat 1 g = decimal g := by
  have hpos := List.length_pos_iff.mpr (decimal_spec g).2.2.1
  rw [padNat, Nat.sub_eq_zero_of_le hpos]
  rfl

/-- The groups down to the one with the exponent zero, the first of them bare. -/
theorem whole_eq {w : Nat} (hw : numericWeight n.raw = w) : n.whole =
    decimal (groupAt (numericGroups n.raw) 0) ++ padded (window (numericGroups n.raw) 1 w) := by
  have hnat : (numericWeight n.raw).toNat = w := by omega
  unfold whole
  rw [if_neg (by omega), hnat, List.range_succ_eq_map, List.flatMap_cons,
    if_pos Nat.cast_zero, n.padInt_group, Nat.cast_zero,
    padNat_one, List.flatMap_map, padded, window, List.flatMap_map]
  refine congrArg _ (List.flatMap_congr fun j _ => ?_)
  rw [if_neg (by omega), n.padInt_group]
  have hplace : ((j.succ : Nat) : Int) = 1 + (j : Int) := by omega
  rw [hplace]

/-- The printed places as one number: the groups from the first one printed on. -/
theorem printed_value (k : Nat) : ∃ (s : Int) (j : Nat), s ≤ 0 ∧ s + j = numericWeight n.raw + 1 + k ∧
    ofDigits (n.whole ++ padded (window (numericGroups n.raw) (numericWeight n.raw + 1) k)) =
      groupsValue (window (numericGroups n.raw) s j) := by
  have hfraction := padded_spec (window (numericGroups n.raw) (numericWeight n.raw + 1) k)
    (window_lt n.groups_lt)
  rcases lt_or_ge (numericWeight n.raw) 0 with hneg | hpos
  · refine ⟨numericWeight n.raw + 1, k, by omega, rfl, ?_⟩
    have hwhole : n.whole = [48] := if_pos hneg
    have hzero : ofDigits [48] = 0 := rfl
    rw [hwhole, ofDigits_append, hzero, Nat.zero_mul, Nat.zero_add, hfraction.1]
  obtain ⟨w, hw⟩ := Int.eq_ofNat_of_zero_le hpos
  have hrest := padded_spec (window (numericGroups n.raw) 1 (w + k)) (window_lt n.groups_lt)
  have hplace : numericWeight n.raw + 1 = 1 + (w : Int) := by omega
  have hsplit : padded (window (numericGroups n.raw) 1 w) ++
      padded (window (numericGroups n.raw) (1 + w) k) =
        padded (window (numericGroups n.raw) 1 (w + k)) := by
    rw [window_append]
    exact List.flatMap_append.symm
  have hfirst : window (numericGroups n.raw) 0 (1 + (w + k)) =
      [groupAt (numericGroups n.raw) 0] ++ window (numericGroups n.raw) 1 (w + k) := by
    rw [window_append]
    rfl
  have hlength : (window (numericGroups n.raw) 1 (w + k)).length = w + k := by
    rw [window, List.length_map, List.length_range]
  refine ⟨0, 1 + (w + k), Int.le_refl 0, by omega, ?_⟩
  rw [n.whole_eq hw, hplace, List.append_assoc, hsplit, ofDigits_append, (decimal_spec _).2.1, hrest.1,
    hrest.2.1, hfirst, groupsValue_append, groupsValue_singleton, hlength, Nat.pow_mul]

theorem eq_of_mul_add {a b k r : Nat} (h : a * b + r = k * b) (hr : r < b) : a = k := by
  have hb : 0 < b := Nat.lt_of_le_of_lt (Nat.zero_le r) hr
  have hdiv := congrArg (· / b) h
  simp only [Nat.mul_div_cancel _ hb] at hdiv
  rwa [Nat.add_comm, Nat.add_mul_div_right _ _ hb, Nat.div_eq_of_lt hr, Nat.zero_add] at hdiv

/-- What the stored groups up to a place make is the scaled number, where the scale lies in front of
that place: no group behind it has a digit. -/
theorem stored_value {k m : Nat} {e : Int} (hm : magnitude n.raw * 10 ^ numericScale n.raw = m)
    (he : e = numericWeight n.raw + 1 + k) (hk : numericScale n.raw ≤ 4 * k) :
    groupsValue ((numericGroups n.raw).take e.toNat) * 10000 ^ (e.toNat - (numericGroups n.raw).length) =
      m * 10 ^ (4 * k - numericScale n.raw) := by
  have hlength := n.length_groups
  have hvalue : ((m * 10 ^ (4 * k - numericScale n.raw) : Nat) : ℚ) =
      (groupsValue (numericGroups n.raw) : ℚ) * 10000 ^ (e - numericDigits n.raw) := by
    have hscale : (10 : ℚ) ^ numericScale n.raw * 10 ^ (4 * k - numericScale n.raw) =
        10000 ^ (k : Int) := by
      rw [← pow_add, Nat.add_sub_cancel' hk, pow_mul, zpow_natCast]
      norm_num
    have hexp : e - numericDigits n.raw = (numericWeight n.raw + 1 - numericDigits n.raw) + (k : Int) := by
      omega
    push_cast
    rw [← hm, mul_assoc, hscale, magnitude, mul_assoc, hexp, zpow_add₀ (by norm_num)]
  rcases lt_or_ge e (numericDigits n.raw) with hcut | hwhole
  · -- some groups are not printed: they are zero, since the scale lies in front of them
    obtain ⟨j, hj⟩ := Int.eq_ofNat_of_zero_le (by omega : 0 ≤ (numericDigits n.raw : Int) - e)
    have hexp : e - numericDigits n.raw = -(j : Int) := by omega
    have hnat : m * 10 ^ (4 * k - numericScale n.raw) * 10000 ^ j = groupsValue (numericGroups n.raw) := by
      rw [hexp, zpow_neg, zpow_natCast] at hvalue
      have hcleared := congrArg (· * (10000 : ℚ) ^ j) hvalue
      have hne : (10000 : ℚ) ^ j ≠ 0 := pow_ne_zero j (by norm_num)
      simp only [mul_assoc, inv_mul_cancel₀ hne, mul_one] at hcleared
      exact_mod_cast hcleared
    have hdrop : groupsValue ((numericGroups n.raw).drop e.toNat) < 10000 ^ j := by
      refine Nat.lt_of_lt_of_le (groupsValue_lt fun g hg => n.groups_lt g (List.mem_of_mem_drop hg)) ?_
      refine Nat.pow_le_pow_right (by omega) ?_
      rw [List.length_drop, hlength]
      omega
    have hnone : e.toNat - (numericGroups n.raw).length = 0 := by omega
    rw [hnone, Nat.pow_zero, Nat.mul_one]
    refine eq_of_mul_add ?_ hdrop
    rcases lt_or_ge e 0 with hneg | hpos
    · have hzero : e.toNat = 0 := by omega
      rw [hzero] at hdrop ⊢
      rw [hnat]
      show 0 * _ + groupsValue (numericGroups n.raw) = _
      omega
    · have hsplit :=
        groupsValue_append ((numericGroups n.raw).take e.toNat) ((numericGroups n.raw).drop e.toNat)
      have hrest : ((numericGroups n.raw).drop e.toNat).length = j := by
        rw [List.length_drop, hlength]
        omega
      rw [List.take_append_drop, hrest] at hsplit
      rw [hnat, hsplit]
  · obtain ⟨j, hj⟩ := Int.eq_ofNat_of_zero_le (by omega : 0 ≤ e - (numericDigits n.raw : Int))
    have hcount : e.toNat - (numericGroups n.raw).length = j := by omega
    rw [hcount, List.take_of_length_le (by omega)]
    rw [hj, zpow_natCast] at hvalue
    exact_mod_cast hvalue.symm

end WireNumeric

/-- A text is a number to `scale` places, with a sign in front, and with no zero in front of its digits
where the number was sent without one. -/
def IsDecimal (text : Option Bytes) (minus : Bool) (value : ℚ) (scale : Nat) (bare : Prop) : Prop :=
  ∃ whole frac : Bytes,
    text = some ((if minus then [dash] else []) ++ whole ++ (if 0 < scale then dot :: frac else [])) ∧
      AllDigits whole ∧ AllDigits frac ∧ whole ≠ [] ∧ frac.length = scale ∧
      (ofDigits (whole ++ frac) : ℚ) = value * 10 ^ scale ∧
      (bare → whole.head? = some 48 → whole = [48])

/-- The first group has a digit where it is one of several in front of the point. -/
def LeadingGroup (raw : Bytes) : Prop := 0 < numericWeight raw → groupAt (numericGroups raw) 0 ≠ 0

/-- The places of the bytes that are read. -/
def numericReads (raw : Bytes) : List Nat :=
  if raw.length < 8 then []
  else List.range 8 ++
    if numericSign raw ∈ [0xC000, 0xD000, 0xF000] ∨ raw.length < 8 + numericDigits raw * 2 then []
    else (List.range (numericDigits raw)).flatMap fun (i : Nat) => [8 + i * 2, 8 + i * 2 + 1]

namespace WireNumeric

variable (n : WireNumeric)

theorem allDigits_whole : AllDigits n.whole ∧ n.whole ≠ [] := by
  rcases lt_or_ge (numericWeight n.raw) 0 with hneg | hpos
  · rw [whole, if_pos hneg]
    exact ⟨by unfold AllDigits; decide, List.cons_ne_nil _ _⟩
  obtain ⟨w, hw⟩ := Int.eq_ofNat_of_zero_le hpos
  obtain ⟨hdigits, -, hne, -⟩ := decimal_spec (groupAt (numericGroups n.raw) 0)
  rw [n.whole_eq hw]
  exact ⟨hdigits.append (padded_spec _ (window_lt n.groups_lt)).2.2,
    fun h => hne (List.append_eq_nil_iff.mp h).1⟩

theorem flatMap_places (f : Int → Bytes) (l : List Nat) :
    List.flatMap f (do let i ← l; pure (i : Int)) = l.flatMap fun (i : Nat) => f i := by
  induction l with
  | nil => rfl
  | cons i l ih =>
    rw [List.flatMap_cons, ← ih]
    rfl

theorem numericToString_eq : numericToString n.raw =
    some ((if numericSign n.raw = 0x4000 then [dash] else []) ++ n.whole ++
      (if 0 < numericScale n.raw then dot :: (numericFraction n.raw (numericDigits n.raw) (numericScale n.raw)
        (numericScale n.raw) (numericWeight n.raw + 1) []).take (numericScale n.raw) else [])) := by
  have hlength := n.length
  unfold numericToString
  rw [if_neg (by omega)]
  dsimp only
  have hsign : beNat (slice n.raw 4 6) = 0 ∨ beNat (slice n.raw 4 6) = 0x4000 := n.sign
  rw [if_neg (by omega), if_neg (by omega), if_neg (by omega),
    if_neg (by unfold numericDigits at hlength; omega), flatMap_places]
  rfl

theorem whole_bare (hlead : LeadingGroup n.raw) (hzero : n.whole.head? = some 48) : n.whole = [48] := by
  rcases lt_or_ge (numericWeight n.raw) 0 with hneg | hpos
  · exact if_pos hneg
  obtain ⟨w, hw⟩ := Int.eq_ofNat_of_zero_le hpos
  obtain ⟨-, -, hne, hhead⟩ := decimal_spec (groupAt (numericGroups n.raw) 0)
  obtain ⟨c, t, ht⟩ := List.exists_cons_of_ne_nil hne
  rw [n.whole_eq hw] at hzero ⊢
  have hfirst : (decimal (groupAt (numericGroups n.raw) 0)).head? = some 48 := by
    rw [ht] at hzero ⊢
    exact hzero
  have hnone : groupAt (numericGroups n.raw) 0 = 0 := by
    by_contra h
    exact hhead h hfirst
  have hweight : w = 0 := by
    by_contra h
    exact hlead (by omega) hnone
  rw [hnone, hweight]
  rfl

/-- The text of a number of the wire is the number, to exactly its scale. -/
theorem isDecimal : IsDecimal (numericToString n.raw) (numericSign n.raw == 0x4000) (magnitude n.raw)
    (numericScale n.raw) (LeadingGroup n.raw) := by
  obtain ⟨k, hfraction, hk⟩ := n.numericFraction_eq (numericScale n.raw) (numericWeight n.raw + 1) []
    (by rw [List.length_nil]; omega)
  rw [List.length_nil, Nat.zero_add] at hk
  obtain ⟨s, j, hs, hsum, hprinted⟩ := n.printed_value k
  obtain ⟨m, hm⟩ := n.scaled
  have hstored := n.stored_value (e := s + j) hm hsum hk
  rw [window_value hs, hstored] at hprinted
  obtain ⟨-, hlength, hdigits⟩ := padded_spec (window (numericGroups n.raw) (numericWeight n.raw + 1) k)
    (window_lt n.groups_lt)
  rw [List.nil_append] at hfraction
  rw [n.numericToString_eq, hfraction]
  obtain ⟨hwhole, hne⟩ := n.allDigits_whole
  set full := padded (window (numericGroups n.raw) (numericWeight n.raw + 1) k)
  have hcount : (window (numericGroups n.raw) (numericWeight n.raw + 1) k).length = k := by
    rw [window, List.length_map, List.length_range]
  rw [hcount] at hlength
  have hrest : (full.drop (numericScale n.raw)).length = 4 * k - numericScale n.raw := by
    rw [List.length_drop, hlength]
  have hcut : ofDigits (n.whole ++ full.take (numericScale n.raw)) = m := by
    have hdrop : AllDigits (full.drop (numericScale n.raw)) := fun c hc => hdigits c (List.mem_of_mem_drop hc)
    have hlt := ofDigits_lt hdrop
    have hsplit :=
      ofDigits_append (n.whole ++ full.take (numericScale n.raw)) (full.drop (numericScale n.raw))
    rw [List.append_assoc, List.take_append_drop, hrest, hprinted] at hsplit
    rw [hrest] at hlt
    exact eq_of_mul_add hsplit.symm hlt
  refine ⟨n.whole, full.take (numericScale n.raw), ?_, hwhole,
    fun c hc => hdigits c (List.mem_of_mem_take hc), hne, ?_, ?_, n.whole_bare⟩
  · simp only [beq_iff_eq]
  · rw [List.length_take, hlength]
    omega
  · rw [hcut]
    exact hm.symm

end WireNumeric

theorem numericToString_special {raw : Bytes} (hlength : 8 ≤ raw.length) :
    (numericSign raw = 0xC000 → numericToString raw = some (ascii "NaN")) ∧
      (numericSign raw = 0xD000 → numericToString raw = some (ascii "Infinity")) ∧
      (numericSign raw = 0xF000 → numericToString raw = some (ascii "-Infinity")) := by
  unfold numericSign numericToString
  rw [if_neg (by omega)]
  dsimp only
  refine ⟨fun h => if_pos h, fun h => ?_, fun h => ?_⟩
  · rw [if_neg (by omega), if_pos h]
  · rw [if_neg (by omega), if_neg (by omega), if_pos h]

theorem numericReads_inside (raw : Bytes) : ∀ o ∈ numericReads raw, o < raw.length := by
  intro o ho
  unfold numericReads at ho
  split_ifs at ho with hshort hrest
  · exact absurd ho List.not_mem_nil
  · rw [List.append_nil, List.mem_range] at ho
    omega
  · rcases List.mem_append.mp ho with ho | ho
    · rw [List.mem_range] at ho
      omega
    obtain ⟨i, hi, ho⟩ := List.mem_flatMap.mp ho
    rw [List.mem_range] at hi
    simp only [List.mem_cons, List.not_mem_nil, or_false] at ho
    omega

end RedDb.Driver
