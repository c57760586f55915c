import RedDb.Diff.Job
import RedDb.Driver.PgDigits

/-!
# RedDb — the order Postgres is asked for and the order the walk assumes

The diff asks the server for rows in key order and decodes the keys with `pgValue`;
the walk then compares them with `keyCmp`. A text key is asked for by its bytes, any
other in its type's own order, which the server applies to the value and `keyCmp` to
whatever the value was decoded to.

* `cmpBytes_padNat` — zero-padded numbers compare as the numbers;
* `cmpBytes_hms` — so do times of day, `cmpBytes_uuid` the bytes of a uuid;
* `pg_order_agrees_iff` — the key types for which the two orders are the same.
-/

namespace RedDb.Diff

open ByteText RedDb.Driver

/-! ## Comparing bytes piece by piece -/

section Bytes

variable {c d : UInt8} {s t s' t' : Bytes}

theorem cmpBytes_self : cmpBytes s s = .eq := by
  simp [cmpBytes, cmp, cmpUsing]

theorem cmpBytes_nil_cons : cmpBytes [] (d :: t) = .lt := by
  simp [cmpBytes, cmp, cmpUsing]

theorem cmpBytes_cons_nil : cmpBytes (c :: s) [] = .gt := by
  simp [cmpBytes, cmp, cmpUsing]

theorem cmpBytes_cons :
    cmpBytes (c :: s) (d :: t) = (compare c.toNat d.toNat).then (cmpBytes s t) := by
  simp only [cmpBytes, cmp, cmpUsing, List.map_cons, List.cons_lt_cons_iff]
  rcases lt_trichotomy c.toNat d.toNat with h | h | h
  · rw [compare_lt_iff_lt.mpr h]
    simp [h]
  · rw [compare_eq_iff_eq.mpr h]
    simp [h]
  · rw [compare_gt_iff_gt.mpr h]
    simp [h, h.asymm, h.ne']

/-- Texts of one length first, then the rest. -/
theorem cmpBytes_append (h : s.length = s'.length) :
    cmpBytes (s ++ t) (s' ++ t') = (cmpBytes s s').then (cmpBytes t t') := by
  induction s generalizing s' with
  | nil =>
    rw [List.eq_nil_of_length_eq_zero h.symm, cmpBytes_self]
    rfl
  | cons c s ih =>
    cases s' with
    | nil => cases h
    | cons d s' =>
      rw [List.cons_append, List.cons_append, cmpBytes_cons, cmpBytes_cons,
        ih (Nat.succ.inj h), Ordering.then_assoc]

end Bytes

/-- A number by its quotient and its remainder. -/
theorem compare_div_mod {k : Nat} (hk : 0 < k) (m n : Nat) :
    compare m n = (compare (m / k) (n / k)).then (compare (m % k) (n % k)) := by
  have hm := Nat.div_add_mod m k
  have hn := Nat.div_add_mod n k
  have hmk := Nat.mod_lt m hk
  have hnk := Nat.mod_lt n hk
  rcases lt_trichotomy (m / k) (n / k) with h | h | h
  · rw [compare_lt_iff_lt.mpr h, compare_lt_iff_lt.mpr (Nat.lt_of_div_lt_div h)]
    rfl
  · rw [compare_eq_iff_eq.mpr h]
    rw [h] at hm
    change _ = compare (m % k) (n % k)
    rcases lt_trichotomy (m % k) (n % k) with h' | h' | h'
    · rw [compare_lt_iff_lt.mpr h', compare_lt_iff_lt.mpr (by omega)]
    · rw [compare_eq_iff_eq.mpr h', compare_eq_iff_eq.mpr (by omega)]
    · rw [compare_gt_iff_gt.mpr h', compare_gt_iff_gt.mpr (by omega)]
  · rw [compare_gt_iff_gt.mpr h, compare_gt_iff_gt.mpr (Nat.lt_of_div_lt_div h)]
    rfl

/-- Comparing is blind to what a strictly increasing function does to both sides. -/
theorem compare_map {α β : Type*} [LinearOrder α] [LinearOrder β] {f : α → β}
    (hf : StrictMono f) (m n : α) : compare (f m) (f n) = compare m n := by
  rcases lt_trichotomy m n with h | h | h
  · rw [compare_lt_iff_lt.mpr h, compare_lt_iff_lt.mpr (hf h)]
  · rw [compare_eq_iff_eq.mpr h, compare_eq_iff_eq.mpr (congrArg f h)]
  · rw [compare_gt_iff_gt.mpr h, compare_gt_iff_gt.mpr (hf h)]

/-! ## Numbers of a fixed width -/

theorem cmpBytes_fixed {w m n : Nat} (hm : m < 10 ^ w) (hn : n < 10 ^ w) :
    cmpBytes (fixed w m) (fixed w n) = compare m n := by
  induction w generalizing m n with
  | zero =>
    rw [Nat.pow_zero, Nat.lt_one_iff] at hm hn
    rw [hm, hn]
    rfl
  | succ w ih =>
    rw [Nat.pow_succ] at hm hn
    rw [fixed, fixed, cmpBytes_append (by rw [length_fixed, length_fixed]),
      ih (by omega) (by omega), cmpBytes_cons, digitByte_toNat (Nat.mod_lt _ (by omega)),
      digitByte_toNat (Nat.mod_lt _ (by omega)), compare_div_mod (k := 10) (by omega) m n]
    rw [cmpBytes_self, Ordering.then_eq]
    exact congrArg _ (compare_map (fun _ _ h => Nat.add_lt_add_left h 48) (m % 10) (n % 10))

/-- Zero-padded numbers compare as the numbers. -/
theorem cmpBytes_padNat {w m n : Nat} (hw : 0 < w) (hm : m < 10 ^ w) (hn : n < 10 ^ w) :
    cmpBytes (padNat w m) (padNat w n) = compare m n := by
  rw [padNat_eq_fixed hw hm, padNat_eq_fixed hw hn, cmpBytes_fixed hm hn]

/-! ## Times of day -/

/-- Every byte is a decimal digit. -/
def Digits (s : Bytes) : Prop := ∀ c ∈ s, 48 ≤ c.toNat

theorem digits_fixed (w n : Nat) : Digits (fixed w n) := by
  induction w generalizing n with
  | zero =>
    intro c hc
    cases hc
  | succ w ih =>
    intro c hc
    rcases List.mem_append.mp hc with hc | hc
    · exact ih _ c hc
    · rw [List.mem_singleton.mp hc, digitByte_toNat (Nat.mod_lt _ (by omega))]
      omega

/-- Trailing zeros go, from the back. -/
theorem trimZeros_cons (c : UInt8) (s : Bytes) : trimEndMatches 48 (c :: s) =
      if c = 48 ∧ trimEndMatches 48 s = [] then [] else c :: trimEndMatches 48 s := by
  simp only [trimEndMatches, List.reverse_cons, List.dropWhile_append, List.reverse_eq_nil_iff,
    List.isEmpty_iff]
  by_cases h : List.dropWhile (· == 48) s.reverse = []
  · rw [if_pos h]
    by_cases hc : c = 48
    · simp [hc, h]
    · simp [hc, h]
  · rw [if_neg h, if_neg (fun hand => h hand.2), List.reverse_append, List.reverse_singleton,
      List.singleton_append]

theorem zero_lt_digit {d : UInt8} (h : 48 ≤ d.toNat) (hne : d ≠ 48) :
    (48 : UInt8).toNat < d.toNat := by
  refine Nat.lt_of_le_of_ne h fun heq => hne ?_
  exact UInt8.toNat_inj.mp heq.symm

/-- Texts of digits of one length compare as they do without their trailing zeros. -/
theorem cmpBytes_trimZeros {s t : Bytes} (hlen : s.length = t.length) (hs : Digits s)
    (ht : Digits t) : cmpBytes (trimEndMatches 48 s) (trimEndMatches 48 t) = cmpBytes s t := by
  induction s generalizing t with
  | nil =>
    rw [List.eq_nil_of_length_eq_zero hlen.symm]
    rfl
  | cons c s ih =>
    cases t with
    | nil => cases hlen
    | cons d t =>
      rw [Digits, List.forall_mem_cons] at hs ht
      have hrest := ih (Nat.succ.inj hlen) hs.2 ht.2
      rw [trimZeros_cons, trimZeros_cons, cmpBytes_cons, ← hrest]
      -- a side is trimmed away whole only when it is all zeros, which nothing is below
      split <;> split
      · rename_i hc hd
        rw [hc.1, hc.2, hd.1, hd.2]
        rfl
      · rename_i hc hd
        rw [cmpBytes_nil_cons, hc.1, hc.2]
        by_cases hz : d = 48
        · obtain ⟨x, xs, hx⟩ := List.exists_cons_of_ne_nil fun h => hd ⟨hz, h⟩
          rw [hz, hx, cmpBytes_nil_cons]
          rfl
        · rw [compare_lt_iff_lt.mpr (zero_lt_digit ht.1 hz)]
          rfl
      · rename_i hc hd
        rw [cmpBytes_cons_nil, hd.1, hd.2]
        by_cases hz : c = 48
        · obtain ⟨x, xs, hx⟩ := List.exists_cons_of_ne_nil fun h => hc ⟨hz, h⟩
          rw [hz, hx, cmpBytes_cons_nil]
          rfl
        · rw [compare_gt_iff_gt.mpr (zero_lt_digit hs.1 hz)]
          rfl
      · rw [cmpBytes_cons]

theorem cmpBytes_fractionText {m n : Nat} (hm : m < 1000000) (hn : n < 1000000) :
    cmpBytes (fractionText m) (fractionText n) = compare m n := by
  have hcmp : cmpBytes (trimEndMatches 48 (padNat 6 m)) (trimEndMatches 48 (padNat 6 n)) =
      compare m n := by
    rw [padNat_eq_fixed (by omega) hm, padNat_eq_fixed (by omega) hn,
      cmpBytes_trimZeros (by rw [length_fixed, length_fixed]) (digits_fixed _ _)
        (digits_fixed _ _), cmpBytes_fixed hm hn]
  unfold fractionText
  split <;> split
  · rename_i hm hn
    rw [hm, hn]
    rfl
  · rename_i hm hn
    rw [cmpBytes_nil_cons, compare_lt_iff_lt.mpr (by omega)]
  · rename_i hm hn
    rw [cmpBytes_cons_nil, compare_gt_iff_gt.mpr (by omega)]
  · rw [cmpBytes_cons, compare_eq_iff_eq.mpr rfl]
    exact hcmp

theorem hms_nat (n : Nat) : hms n =
    padNat 2 (n / 1000000 / 3600) ++ [colon] ++ padNat 2 (n / 1000000 % 3600 / 60) ++ [colon] ++
      padNat 2 (n / 1000000 % 60) ++ fractionText (n % 1000000) := by
  have hdiv : ((n : Int).fdiv 1000000).toNat = n / 1000000 := by
    rw [Int.fdiv_eq_ediv_of_nonneg _ (by omega)]
    omega
  have hmod : ((n : Int).fmod 1000000).toNat = n % 1000000 := by
    rw [Int.fmod_eq_emod_of_nonneg _ (by omega)]
    omega
  rw [hms, hdiv, hmod]

/-- Times of day, up to the midnight that ends one, compare as the microseconds. -/
theorem cmpBytes_hms {m n : Nat} (hm : m ≤ 86400000000) (hn : n ≤ 86400000000) :
    cmpBytes (hms m) (hms n) = compare m n := by
  have hpair : ∀ {w m n : Nat} {s t : Bytes}, 0 < w → m < 10 ^ w → n < 10 ^ w →
      cmpBytes (padNat w m ++ s) (padNat w n ++ t) = (compare m n).then (cmpBytes s t) := by
    intro w m n s t hw hm hn
    rw [cmpBytes_append (by rw [length_padNat hw hm, length_padNat hw hn]),
      cmpBytes_padNat hw hm hn]
  have hcolon : ∀ {s t : Bytes}, cmpBytes ([colon] ++ s) ([colon] ++ t) = cmpBytes s t := by
    intro s t
    rw [cmpBytes_append rfl, cmpBytes_self]
    rfl
  -- hours, minutes, seconds and the fraction are the digits of the microseconds
  rw [hms_nat, hms_nat]
  simp only [List.append_assoc]
  rw [hpair (by omega) (by omega) (by omega), hcolon, hpair (by omega) (by omega) (by omega),
    hcolon, hpair (by omega) (by omega) (by omega),
    cmpBytes_fractionText (Nat.mod_lt _ (by omega)) (Nat.mod_lt _ (by omega)),
    @compare_div_mod 1000000 (by omega) m n,
    @compare_div_mod 3600 (by omega) (m / 1000000) (n / 1000000),
    @compare_div_mod 60 (by omega) (m / 1000000 % 3600) (n / 1000000 % 3600),
    Ordering.then_assoc, Ordering.then_assoc]
  simp only [Nat.mod_mod_of_dvd _ (by decide : 60 ∣ 3600)]

/-! ## Hexadecimal -/

theorem hexDigit_toNat {n : Nat} (h : n < 16) :
    (hexDigit n).toNat = if n < 10 then 48 + n else 87 + n := by
  unfold hexDigit
  split
  · exact digitByte_toNat ‹_›
  · rw [UInt8.toNat_add, UInt8.toNat_ofNat']
    change (87 + n % 256) % 256 = 87 + n
    omega

theorem compare_hexDigit {m n : Nat} (hm : m < 16) (hn : n < 16) :
    compare (hexDigit m).toNat (hexDigit n).toNat = compare m n := by
  rw [hexDigit_toNat hm, hexDigit_toNat hn]
  refine compare_map (f := fun n => if n < 10 then 48 + n else 87 + n) (fun a b hab => ?_) m n
  simp only
  split <;> split <;> omega

theorem cmpBytes_hex {s t : Bytes} (h : s.length = t.length) :
    cmpBytes (hex s) (hex t) = cmpBytes s t := by
  induction s generalizing t with
  | nil =>
    rw [List.eq_nil_of_length_eq_zero h.symm]
    rfl
  | cons c s ih =>
    cases t with
    | nil => cases h
    | cons d t =>
      have hc := c.toNat_lt
      have hd := d.toNat_lt
      have hbyte : cmpBytes (hexByte c) (hexByte d) = compare c.toNat d.toNat := by
        rw [hexByte, hexByte, cmpBytes_cons, cmpBytes_cons, cmpBytes_self, Ordering.then_eq,
          compare_hexDigit (by omega) (by omega), compare_hexDigit (by omega) (by omega),
          ← compare_div_mod (by omega)]
      have hrest : cmpBytes (s.flatMap hexByte) (t.flatMap hexByte) = cmpBytes s t :=
        ih (Nat.succ.inj h)
      have hlen : (hexByte c).length = (hexByte d).length := rfl
      rw [hex, hex, List.flatMap_cons, List.flatMap_cons, cmpBytes_append hlen, hbyte, hrest,
        cmpBytes_cons]

theorem length_hex (s : Bytes) : (hex s).length = 2 * s.length := by
  induction s with
  | nil => rfl
  | cons c s ih =>
    rw [hex, List.flatMap_cons, List.length_append, List.length_cons]
    have : (s.flatMap hexByte).length = 2 * s.length := ih
    rw [this, hexByte]
    simp
    omega

/-- Rendered uuids compare as their bytes. -/
theorem cmpBytes_uuid {s t : Bytes} (hs : s.length = 16) (ht : t.length = 16) :
    ∃ x y, uuidToString s = some x ∧ uuidToString t = some y ∧ cmpBytes x y = cmpBytes s t := by
  refine ⟨_, _, if_neg (by omega), if_neg (by omega), ?_⟩
  have hlen : ∀ {i j}, j ≤ 16 → (slice s i j).length = (slice t i j).length := by
    intro i j hj
    rw [length_slice (by omega), length_slice (by omega)]
  have hpiece : ∀ {a b x y : Bytes}, a.length = b.length →
      cmpBytes (hex a ++ x) (hex b ++ y) = (cmpBytes a b).then (cmpBytes x y) := by
    intro a b x y h
    rw [cmpBytes_append (by rw [length_hex, length_hex, h]), cmpBytes_hex h]
  have hdash : ∀ {x y : Bytes}, cmpBytes ([dash] ++ x) ([dash] ++ y) = cmpBytes x y := by
    intro x y
    rw [cmpBytes_append rfl, cmpBytes_self]
    rfl
  have hwhole : ∀ {u : Bytes}, u.length = 16 → u =
      slice u 0 4 ++ (slice u 4 6 ++ (slice u 6 8 ++ (slice u 8 10 ++ slice u 10 16))) := by
    intro u hu
    rw [← slice_split (by omega) (by omega), ← slice_split (by omega) (by omega),
      ← slice_split (by omega) (by omega), ← slice_split (by omega) (by omega), slice,
      List.drop_zero, List.take_of_length_le (by omega)]
  conv_rhs => rw [hwhole hs, hwhole ht]
  simp only [List.append_assoc]
  rw [hpiece (hlen (by omega)), hdash, hpiece (hlen (by omega)), hdash, hpiece (hlen (by omega)),
    hdash, hpiece (hlen (by omega)), hdash, cmpBytes_hex (hlen (by omega)),
    cmpBytes_append (hlen (by omega)), cmpBytes_append (hlen (by omega)),
    cmpBytes_append (hlen (by omega)), cmpBytes_append (hlen (by omega))]

/-! ## The order of the server -/

/-- A key the diff orders by, and whether byte by byte. -/
structure OrderTerm where
  key : Bytes
  collateC : Bool

def OrderTerm.text (t : OrderTerm) : Bytes :=
  pgQuote t.key ++
    (if t.collateC then ascii " COLLATE \"C\" ASC NULLS FIRST" else ascii " ASC NULLS FIRST")

/-- A text key is asked for by its bytes. -/
def pgDiffOrder (key : Bytes) (keyIsText : Bool) : OrderTerm := ⟨key, keyIsText⟩

def pgDiffOrderClause (key : Bytes) (keyIsText : Bool) : Bytes := (pgDiffOrder key keyIsText).text

/-- The order of `jsonb` values, by their text. Numbers come by value. -/
structure JsonbOrder where
  cmp : Bytes → Bytes → Ordering
  numbers : ∀ m n : Nat, cmp (Driver.decimal m) (Driver.decimal n) = compare m n

/-- A `numeric` as its coefficient and its power of 10000; the others are the values
that are no number. -/
inductive Numeric where
  | negInfinity
  | finite (coefficient : Int) (exponent : Int)
  | infinity
  | nan

def numericValue (raw : Bytes) : Numeric :=
  let ndigits := (be16 raw 0).toNat
  let sign := beNat (slice raw 4 6)
  if sign = 0xC000 then .nan
  else if sign = 0xD000 then .infinity
  else if sign = 0xF000 then .negInfinity
  else
    let coefficient := (List.range ndigits).foldl
      (fun n i => n * 10000 + numericGroup raw ndigits i) 0
    .finite (if sign = 0x4000 then -coefficient else coefficient) (be16 raw 1 - (ndigits - 1))

def Numeric.rank : Numeric → Nat
  | negInfinity => 0
  | finite .. => 1
  | infinity => 2
  | nan => 3

/-- Numbers by value, between the infinities; not a number last. -/
def Numeric.cmp : Numeric → Numeric → Ordering
  | finite c e, finite c' e' =>
    compare (c * 10000 ^ (e - min e e').toNat) (c' * 10000 ^ (e' - min e e').toNat)
  | x, y => compare x.rank y.rank

/-- A time with its zone: the instant in UTC, then the zone. -/
def timetzCmp (raw raw' : Bytes) : Ordering :=
  let utc (raw : Bytes) : Int := beInt (raw.take 8) + beInt (raw.drop 8) * 1000000
  (compare (utc raw) (utc raw')).then (compare (beInt (raw.drop 8)) (beInt (raw'.drop 8)))

/-- Two values of a type in the type's own order, by their wire bytes; none for a type
that has no order. -/
def typeCmp (J : JsonbOrder) : PgType → Bytes → Bytes → Option Ordering
  | .bool, x, y => some (compare (beNat x) (beNat y))
  | .int2, x, y => some (compare (beInt x) (beInt y))
  | .int4, x, y => some (compare (beInt x) (beInt y))
  | .int8, x, y => some (compare (beInt x) (beInt y))
  | .float4, x, y => some ((Binary64.decode (widen (beNat x))).order
      (Binary64.decode (widen (beNat y))))
  | .float8, x, y => some ((Binary64.decode (UInt64.ofNat (beNat x))).order
      (Binary64.decode (UInt64.ofNat (beNat y))))
  | .numeric, x, y => some ((numericValue x).cmp (numericValue y))
  | .timestamp, x, y => some (compare (beInt x) (beInt y))
  | .timestamptz, x, y => some (compare (beInt x) (beInt y))
  | .date, x, y => some (compare (beInt x) (beInt y))
  | .time, x, y => some (compare (beInt x) (beInt y))
  | .timetz, x, y => some (timetzCmp x y)
  | .uuid, x, y => some (cmpBytes x y)
  | .json, _, _ => none
  | .jsonb, x, y => some (J.cmp x.tail y.tail)
  | .bytea, x, y => some (cmpBytes x y)
  | .text _, x, y => some (cmpBytes x y)

/-- The order the server returns two keys in: by bytes under `COLLATE "C"`, else in the
type's own order. -/
def serverCmp (J : JsonbOrder) (ty : PgType) (term : OrderTerm) (x y : Bytes) :
    Option Ordering :=
  if term.collateC then some (cmpBytes x y) else typeCmp J ty x y

/-- How the diff asks for a key of the type. -/
def askedOrder (ty : PgType) (key : Bytes) : OrderTerm :=
  pgDiffOrder key (isTextDecl (some ty.udtName))

/-- The wire bytes of the values of a type. -/
def Wire : PgType → Bytes → Prop
  | .bool, b => b = [0] ∨ b = [1]
  | .int2, b => b.length = 2
  | .int4, b => b.length = 4
  | .int8, b => b.length = 8
  | .float4, b => b.length = 4
  | .float8, b => b.length = 8
  | .numeric, b => 8 ≤ b.length ∧ 0 ≤ be16 b 0 ∧ b.length = 8 + 2 * (be16 b 0).toNat ∧
      0 ≤ be16 b 3 ∧ beNat (slice b 4 6) ∈ [0, 0x4000, 0xC000, 0xD000, 0xF000] ∧
      ∀ i < (be16 b 0).toNat, 0 ≤ be16 b (4 + i) ∧ be16 b (4 + i) ≤ 9999
  | .timestamp, b => b.length = 8
  | .timestamptz, b => b.length = 8
  | .date, b => b.length = 4
  | .time, b => b.length = 8 ∧ 0 ≤ beInt b ∧ beInt b ≤ usecsPerDay
  | .timetz, b => b.length = 12 ∧ 0 ≤ beInt (b.take 8) ∧ beInt (b.take 8) ≤ usecsPerDay ∧
      (beInt (b.drop 8)).natAbs < 16 * 3600
  | .uuid, b => b.length = 16
  | .json, b => validUtf8 b = true
  | .jsonb, b => b.head? = some 1 ∧ validUtf8 b.tail = true
  | .bytea, _ => True
  | .text _, b => validUtf8 b = true

/-- The two orders agree on the keys of a type: the walk compares two decoded keys as
the server orders their values. -/
def OrdersAgree (J : JsonbOrder) (ty : PgType) : Prop :=
  ∀ key x y, Wire ty x → Wire ty y →
    ∀ o, serverCmp J ty (askedOrder ty key) x y = some o →
      keyCmp (pgValue ty (some x)) (pgValue ty (some y)) = o

/-- The types whose decoded keys keep their order; a `json` key the server refuses to
order. -/
def KeepsOrder : PgType → Bool
  | .bool | .int2 | .int4 | .int8 | .float4 | .float8 | .time | .uuid | .json | .text _ => true
  | .numeric | .timestamp | .timestamptz | .date | .timetz | .jsonb | .bytea => false

section Agree

variable {J : JsonbOrder}

/-- Of the catalog's type names, the text types' read as text. -/
theorem isTextDecl_udtName (ty : PgType) :
    isTextDecl (some ty.udtName) = match ty with
      | .text _ => true
      | _ => false := by
  cases ty with
  | text ty => cases ty <;> decide
  | _ => decide

theorem agree_integers {ty : PgType} {size : Nat}
    (hvalue : ∀ b, pgValue ty (some b) = scalar b size fun b => .integer (beInt b))
    (hwire : ∀ b, Wire ty b → b.length = size)
    (hcmp : ∀ key x y, serverCmp J ty (askedOrder ty key) x y =
      some (compare (beInt x) (beInt y))) : OrdersAgree J ty := by
  intro key x y hx hy o ho
  rw [hcmp, Option.some.injEq] at ho
  rw [hvalue, hvalue, scalar, scalar, if_pos (hwire x hx), if_pos (hwire y hy), ← ho]
  rfl

theorem totalF64_order (x y : Binary64.Double) : totalF64 x y = x.order y := by
  cases x <;> cases y <;> rfl

theorem agree_floats {ty : PgType} {size : Nat} {bits : Bytes → UInt64}
    (hvalue : ∀ b, pgValue ty (some b) = scalar b size fun b => .real (bits b))
    (hwire : ∀ b, Wire ty b → b.length = size)
    (hcmp : ∀ key x y, serverCmp J ty (askedOrder ty key) x y =
      some ((Binary64.decode (bits x)).order (Binary64.decode (bits y)))) : OrdersAgree J ty := by
  intro key x y hx hy o ho
  rw [hcmp, Option.some.injEq] at ho
  rw [hvalue, hvalue, scalar, scalar, if_pos (hwire x hx), if_pos (hwire y hy), ← ho]
  exact totalF64_order _ _

theorem serverCmp_own {ty : PgType} (h : isTextDecl (some ty.udtName) = false)
    (key x y : Bytes) : serverCmp J ty (askedOrder ty key) x y = typeCmp J ty x y := by
  rw [serverCmp, askedOrder, pgDiffOrder, h]
  rfl

theorem agree_bool : OrdersAgree J .bool := by
  intro key x y hx hy o ho
  rw [serverCmp_own (isTextDecl_udtName _)] at ho
  cases ho
  rcases hx with rfl | rfl <;> rcases hy with rfl | rfl <;> rfl

theorem pgValue_time {b : Bytes} (h : Wire .time b) :
    ∃ n : Nat, n ≤ 86400000000 ∧ beInt b = n ∧ pgValue .time (some b) = .text (hms n) := by
  obtain ⟨hlen, hlow, hhigh⟩ := h
  obtain ⟨n, hn⟩ := Int.eq_ofNat_of_zero_le hlow
  refine ⟨n, ?_, hn, ?_⟩
  · rw [hn] at hhigh
    exact Int.ofNat_le.mp hhigh
  · rw [pgValue, decodeRaw, beI64, if_pos hlen, hn]
    rfl

theorem agree_time : OrdersAgree J .time := by
  intro key x y hx hy o ho
  rw [serverCmp_own (isTextDecl_udtName _)] at ho
  obtain ⟨m, hm, hxm, hxv⟩ := pgValue_time hx
  obtain ⟨n, hn, hyn, hyv⟩ := pgValue_time hy
  simp only [typeCmp, hxm, hyn, Option.some.injEq] at ho
  rw [hxv, hyv, ← ho, compare_map (fun _ _ h => Int.ofNat_lt.mpr h) m n]
  exact cmpBytes_hms hm hn

theorem agree_uuid : OrdersAgree J .uuid := by
  intro key x y hx hy o ho
  rw [serverCmp_own (isTextDecl_udtName _)] at ho
  cases ho
  obtain ⟨s, t, hs, ht, hcmp⟩ := cmpBytes_uuid hx hy
  rw [pgValue, pgValue, decodeRaw, decodeRaw, hs, ht]
  exact hcmp

theorem agree_text (ty : TextType) : OrdersAgree J (.text ty) := by
  intro key x y hx hy o ho
  rw [serverCmp, askedOrder, pgDiffOrder, isTextDecl_udtName, if_pos rfl, Option.some.injEq] at ho
  have hx : validUtf8 x = true := hx
  have hy : validUtf8 y = true := hy
  rw [pgValue, pgValue, if_pos hx, if_pos hy, ← ho]
  rfl

theorem agree_of_keepsOrder {ty : PgType} (h : KeepsOrder ty = true) : OrdersAgree J ty := by
  cases ty with
  | bool => exact agree_bool
  | int2 => exact agree_integers (fun _ => rfl) (fun _ h => h) (serverCmp_own (isTextDecl_udtName _))
  | int4 | int8 => exact agree_integers (fun _ => rfl) (fun _ h => h) (serverCmp_own (isTextDecl_udtName _))
  | float4 | float8 => exact agree_floats (fun _ => rfl) (fun _ h => h) (serverCmp_own (isTextDecl_udtName _))
  | time => exact agree_time
  | uuid => exact agree_uuid
  | json =>
    intro key x y _ _ o ho
    rw [serverCmp_own (isTextDecl_udtName _)] at ho
    cases ho
  | text ty => exact agree_text ty
  | _ => cases h

/-- Two values the server puts one way and the walk another. -/
theorem disagree {ty : PgType} {x y : Bytes} (hx : Wire ty x) (hy : Wire ty y)
    (htext : isTextDecl (some ty.udtName) = false) (hserver : typeCmp J ty x y = some .lt)
    (hwalk : keyCmp (pgValue ty (some x)) (pgValue ty (some y)) ≠ .lt) : ¬ OrdersAgree J ty := by
  intro h
  refine hwalk (h [] x y hx hy _ ?_)
  rw [serverCmp_own htext, hserver]

/-- The numbers 9 and 10, which come back as the texts `9` and `10`. -/
def nine : Bytes := [0, 1, 0, 0, 0, 0, 0, 0, 0, 9]

def ten : Bytes := [0, 1, 0, 0, 0, 0, 0, 0, 0, 10]

theorem numeric_wire {b : Bytes} (h : b = nine ∨ b = ten) : Wire .numeric b := by
  rcases h with rfl | rfl
  · exact ⟨by decide, by decide, by decide, by decide, by decide, by decide⟩
  · exact ⟨by decide, by decide, by decide, by decide, by decide, by decide⟩

theorem numeric_disagree : ¬ OrdersAgree J .numeric := by
  refine disagree (numeric_wire (Or.inl rfl)) (numeric_wire (Or.inr rfl))
    (isTextDecl_udtName _) ?_ (by decide)
  exact congrArg some (by decide : (numericValue nine).cmp (numericValue ten) = .lt)

/-- The last day of the year 9999 and the day after, in microseconds and in days. -/
def lastMicros : Bytes := [3, 128, 230, 247, 115, 100, 32, 0]

def nextMicros : Bytes := [3, 128, 231, 11, 145, 59, 128, 0]

def lastDay : Bytes := [0, 44, 149, 211]

def nextDay : Bytes := [0, 44, 149, 212]

theorem timestamp_disagree : ¬ OrdersAgree J .timestamp := by
  refine disagree (x := lastMicros) (y := nextMicros) rfl rfl (isTextDecl_udtName _) ?_ (by decide)
  exact congrArg some (by decide : compare (beInt lastMicros) (beInt nextMicros) = .lt)

theorem timestamptz_disagree : ¬ OrdersAgree J .timestamptz := by
  refine disagree (x := lastMicros) (y := nextMicros) rfl rfl (isTextDecl_udtName _) ?_ (by decide)
  exact congrArg some (by decide : compare (beInt lastMicros) (beInt nextMicros) = .lt)

theorem date_disagree : ¬ OrdersAgree J .date := by
  refine disagree (x := lastDay) (y := nextDay) rfl rfl (isTextDecl_udtName _) ?_ (by decide)
  exact congrArg some (by decide : compare (beInt lastDay) (beInt nextDay) = .lt)

/-- One o'clock two hours east of UTC, and half past midnight in UTC. -/
def oneEast : Bytes := [0, 0, 0, 0, 214, 147, 164, 0, 255, 255, 227, 224]

def halfUtc : Bytes := [0, 0, 0, 0, 107, 73, 210, 0, 0, 0, 0, 0]

theorem timetz_disagree : ¬ OrdersAgree J .timetz := by
  refine disagree (x := oneEast) (y := halfUtc) ⟨rfl, by decide, by decide, by decide⟩
    ⟨rfl, by decide, by decide, by decide⟩ (isTextDecl_udtName _) ?_ (by decide)
  exact congrArg some (by decide : timetzCmp oneEast halfUtc = .lt)

theorem jsonb_disagree : ¬ OrdersAgree J .jsonb := by
  refine disagree (x := 1 :: Driver.decimal 9) (y := 1 :: Driver.decimal 10) ⟨rfl, by decide⟩ ⟨rfl, by decide⟩
    (isTextDecl_udtName _) ?_ (by decide)
  exact congrArg some ((J.numbers 9 10).trans (by decide))

theorem bytea_disagree : ¬ OrdersAgree J .bytea := by
  refine disagree (x := [1]) (y := [2]) trivial trivial (isTextDecl_udtName _) ?_ (by decide)
  exact congrArg some (by decide : cmpBytes [1] [2] = .lt)

end Agree

/-- **The two orders agree exactly for the key types whose decoding keeps the order.** -/
theorem pg_order_agrees_iff (J : JsonbOrder) (ty : PgType) :
    OrdersAgree J ty ↔ KeepsOrder ty = true := by
  constructor
  · intro h
    cases ty with
    | numeric => exact absurd h numeric_disagree
    | timestamp => exact absurd h timestamp_disagree
    | timestamptz => exact absurd h timestamptz_disagree
    | date => exact absurd h date_disagree
    | timetz => exact absurd h timetz_disagree
    | jsonb => exact absurd h jsonb_disagree
    | bytea => exact absurd h bytea_disagree
    | _ => rfl
  · exact agree_of_keepsOrder

section Example

/-- The number a text of digits stands for. -/
def digitsValue (b : Bytes) : Nat := b.foldl (fun n c => n * 10 + (c.toNat - 48)) 0

theorem digitsValue_decimalFrom {fuel n : Nat} (h : n < fuel) :
    digitsValue (decimalFrom fuel n) = n := by
  induction fuel generalizing n with
  | zero => omega
  | succ fuel ih =>
    unfold decimalFrom
    split
    · simp only [digitsValue, List.foldl_cons, List.foldl_nil]
      rw [digitByte_toNat ‹_›]
      omega
    · have hrest : digitsValue (decimalFrom fuel (n / 10)) = n / 10 := ih (by omega)
      have hdigit := digitByte_toNat (Nat.mod_lt n (by omega : 10 > 0))
      simp only [digitsValue] at hrest ⊢
      simp only [List.foldl_append, List.foldl_cons, List.foldl_nil, hrest, hdigit]
      omega

/-- A server whose `jsonb` keys are all numbers. -/
def jsonbNumbers : JsonbOrder where
  cmp x y := compare (digitsValue x) (digitsValue y)
  numbers m n := by
    rw [Driver.decimal, Driver.decimal, digitsValue_decimalFrom (Nat.lt_succ_self m),
      digitsValue_decimalFrom (Nat.lt_succ_self n)]

/-- `numeric` keys: the server puts 9 before 10 and the walk 10 before 9, so a row that
is on both sides is reported as added and as removed. -/
theorem numericKeys_reversed : ¬ OrdersAgree jsonbNumbers .numeric ∧
      (diffSorted (fun _ => []) [[pgValue .numeric (some nine)], [pgValue .numeric (some ten)]]
        [[pgValue .numeric (some ten)]] 0 diffRowCap).summary = ⟨1, 2, 0, 0⟩ :=
  ⟨numeric_disagree, by decide⟩

end Example

end RedDb.Diff
