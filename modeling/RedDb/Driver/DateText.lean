import RedDb.Driver.PgDigits
import RedDb.Lib.Blanks
import RedDb.Lib.CivilDate

/-!
# RedDb — the text of a `date` and a `timestamp`

The server takes a date as a year of three digits or more, a month and a day. There is no year zero:
a year before the first is a positive number with ` BC` behind the text, and neither `0000` nor a
sign in front of the year is a date. The renderers print the astronomical year instead.

* `civilFromDays_days` — the calendar arithmetic;
* `readNumber_run` — a field of a text is read as its digits;
* `rendered_reads_iff` — which days and microseconds come back from their text.
-/

namespace RedDb.Driver

open ByteText CivilDate

/-! ## What the server reads -/

/-- The digits a text starts with: how many, their number, and the rest. -/
def readNumber (b : Bytes) : Option (Nat × Nat × Bytes) :=
  let run := b.takeWhile isAsciiDigit
  if run = [] then none else some (run.length, ofDigits run, b.drop run.length)

def expect (c : UInt8) : Bytes → Option Bytes
  | [] => none
  | d :: rest => if d = c then some rest else none

/-- Year, month and day; a first field of three digits is the year under every `DateStyle`. -/
def readDate (b : Bytes) : Option (Nat × Nat × Nat × Bytes) := do
  let (width, year, b) ← readNumber b
  if width < 3 then none
  let (_, month, b) ← (← expect dash b) |> readNumber
  let (_, day, b) ← (← expect dash b) |> readNumber
  some (year, month, day, b)

/-- The microseconds behind the second, if there are any. -/
def readFraction (b : Bytes) : Option (Nat × Bytes) :=
  match expect dot b with
  | none => some (0, b)
  | some b => do
    let (width, n, b) ← readNumber b
    if width ≤ 6 then some (n * 10 ^ (6 - width), b) else none

/-- A time of day in microseconds. -/
def readTime (b : Bytes) : Option (Nat × Bytes) := do
  let (_, hour, b) ← readNumber b
  let (_, minute, b) ← (← expect colon b) |> readNumber
  let (_, second, b) ← (← expect colon b) |> readNumber
  let (frac, b) ← readFraction b
  if hour < 24 ∧ minute < 60 ∧ second < 60 then
    some (((hour * 60 + minute) * 60 + second) * 1000000 + frac, b)
  else none

/-- The end of the text: whether the year counts backwards. -/
def readEra (b : Bytes) : Option Bool :=
  if b = [] then some false else if b = ascii " BC" then some true else none

/-- The day of a date as it is written, counted from 2000-01-01. -/
def dayOf (bc : Bool) (year month day : Nat) : Option Int :=
  let civil : Int := if bc then 1 - year else year
  if 0 < year ∧ (1 ≤ month ∧ month ≤ 12) ∧ 1 ≤ day ∧ day ≤ monthDays civil month then
    some (daysFromCivil civil month day - pgEpochUnixDays)
  else none

/-- The days from 4714-11-24 BC to 5874897-12-31. -/
def DayInRange (days : Int) : Prop := -2451545 ≤ days ∧ days ≤ 2145031948

/-- The microseconds from 4714-11-24 BC to the end of 294276. -/
def MicrosInRange (micros : Int) : Prop := -211813488000000000 ≤ micros ∧ micros < 9223371331200000000

instance (days : Int) : Decidable (DayInRange days) := inferInstanceAs (Decidable (_ ∧ _))

instance (micros : Int) : Decidable (MicrosInRange micros) := inferInstanceAs (Decidable (_ ∧ _))

def dateIn (b : Bytes) : Option Int :=
  if b = ascii "infinity" then some (2 ^ 31 - 1)
  else if b = ascii "-infinity" then some (-2 ^ 31)
  else do
    let (year, month, day, b) ← readDate b
    let days ← dayOf (← readEra b) year month day
    if DayInRange days then some days else none

def timestampIn (b : Bytes) : Option Int :=
  if b = ascii "infinity" then some (2 ^ 63 - 1)
  else if b = ascii "-infinity" then some (-2 ^ 63)
  else do
    let (year, month, day, b) ← readDate b
    let (time, b) ← (← expect space b) |> readTime
    let days ← dayOf (← readEra b) year month day
    let micros := days * usecsPerDay + time
    if MicrosInRange micros then some micros else none

/-- A day count the server sends. -/
structure WireDate where
  days : Int
  valid : (days = 2 ^ 31 - 1 ∨ days = -2 ^ 31) ∨ DayInRange days

/-- A microsecond count the server sends. -/
structure WireTimestamp where
  micros : Int
  valid : (micros = 2 ^ 63 - 1 ∨ micros = -2 ^ 63) ∨ MicrosInRange micros

/-- The day of 0001-01-01. -/
def firstDay : Int := -730119

/-! ## The calendar -/

/-- The date of a day is one of the calendar, and that day's. -/
theorem civilFromDays_days (z : Int) :
    daysFromCivil (civilFromDays z).1 (civilFromDays z).2.1 (civilFromDays z).2.2 = z ∧
      (1 ≤ (civilFromDays z).2.1 ∧ (civilFromDays z).2.1 ≤ 12) ∧ 1 ≤ (civilFromDays z).2.2 ∧
      (civilFromDays z).2.2 ≤ monthDays (civilFromDays z).1 (civilFromDays z).2.1 := by
  obtain ⟨doe, hdoe⟩ : ∃ doe, doe = z + 719468 - (z + 719468) / 146097 * 146097 := ⟨_, rfl⟩
  have h0 : 0 ≤ doe := by omega
  have h1 : doe < 146097 := by omega
  obtain ⟨yoe, hyoe⟩ :
      ∃ yoe, yoe = (doe - doe / 1460 + doe / 36524 - doe / 146096) / 365 := ⟨_, rfl⟩
  have hyear := yearOfEra_range h0 h1
  rw [← hyoe] at hyear
  have hrange := dayOfYear_range h0 h1 hyoe
  have hleap := dayOfYear_leap h0 h1 hyoe
  obtain ⟨doy, hdoy⟩ : ∃ doy, doy = doe - (365 * yoe + yoe / 4 - yoe / 100) := ⟨_, rfl⟩
  rw [← hdoy] at hrange hleap
  obtain ⟨mp, hmp⟩ : ∃ mp, mp = (5 * doy + 2) / 153 := ⟨_, rfl⟩
  have hdivYear : (doe - doe / 1460 + doe / 36524 - doe / 146096).tdiv 365 = yoe := by
    rw [Int.tdiv_eq_ediv_of_nonneg (by omega), hyoe]
  have hdivMonth : (5 * doy + 2).tdiv 153 = mp := by
    rw [Int.tdiv_eq_ediv_of_nonneg (by omega), hmp]
  have hdivDay : (153 * mp + 2).tdiv 5 = (153 * mp + 2) / 5 :=
    Int.tdiv_eq_ediv_of_nonneg (by omega)
  have hcivil : civilFromDays z =
      (if (if mp < 10 then mp + 3 else mp - 9) ≤ 2 then yoe + (z + 719468) / 146097 * 400 + 1
        else yoe + (z + 719468) / 146097 * 400,
      (if mp < 10 then mp + 3 else mp - 9).toNat, (doy - (153 * mp + 2) / 5 + 1).toNat) := by
    unfold civilFromDays
    dsimp only
    rw [era_eq, ← hdoe, Int.tdiv_eq_ediv_of_nonneg h0, Int.tdiv_eq_ediv_of_nonneg h0,
      Int.tdiv_eq_ediv_of_nonneg h0, hdivYear, Int.tdiv_eq_ediv_of_nonneg hyear.1,
      Int.tdiv_eq_ediv_of_nonneg hyear.1, ← hdoy, hdivMonth, hdivDay]
  rw [hcivil]
  refine ⟨daysFromCivil_parts hdoe hyear hdoy hrange hmp, ?_, ?_,
    day_le_monthDays hrange hleap hmp⟩
  · dsimp only
    split <;> omega
  · dsimp only
    omega

/-- The years from the first on are the days from its first on. -/
theorem year_pos_iff {year : Int} {month day : Nat} (hmonth : 1 ≤ month ∧ month ≤ 12)
    (hday : 1 ≤ day ∧ day ≤ monthDays year month) :
    0 < year ↔ firstDay + pgEpochUnixDays ≤ daysFromCivil year month day := by
  have hlast : day ≤ 31 := by
    refine Nat.le_trans hday.2 ?_
    unfold monthDays
    split
    · split <;> omega
    · split <;> omega
  unfold daysFromCivil firstDay pgEpochUnixDays
  dsimp only
  constructor
  · intro h
    split <;> omega
  · intro h
    split at h <;> omega

/-! ## Fields -/

theorem readNumber_run {run rest : Bytes} (hdigits : AllDigits run) (hne : run ≠ [])
    (hrest : ∀ c, rest.head? = some c → isAsciiDigit c = false) :
    readNumber (run ++ rest) = some (run.length, ofDigits run, rest) := by
  unfold readNumber
  rw [takeWhile_run hdigits hrest]
  dsimp only
  rw [if_neg hne, List.drop_left]

theorem readNumber_none {c : UInt8} {rest : Bytes} (h : isAsciiDigit c = false) :
    readNumber (c :: rest) = none := by
  unfold readNumber
  rw [List.takeWhile_cons_of_neg (by rw [h]; exact Bool.false_ne_true)]
  rfl

@[simp] theorem expect_cons (c : UInt8) (rest : Bytes) : expect c (c :: rest) = some rest :=
  if_pos rfl

/-- A padded number of any size is digits, as many as the width or more. -/
theorem padNat_spec (w n : Nat) : AllDigits (padNat w n) ∧ ofDigits (padNat w n) = n ∧
    padNat w n ≠ [] ∧ w ≤ (padNat w n).length := by
  obtain ⟨hdigits, hvalue, hne, -⟩ := decimal_spec n
  have hzeros := fixed_zero (w - (decimal n).length)
  unfold padNat
  rw [← hzeros]
  refine ⟨(allDigits_fixed _ _).append hdigits, ?_, fun h => hne (List.append_eq_nil_iff.mp h).2, ?_⟩
  · rw [ofDigits_append, ofDigits_fixed, Nat.zero_mod, Nat.zero_mul, Nat.zero_add, hvalue]
  · rw [List.length_append, length_fixed]
    omega

theorem readNumber_padNat {w n : Nat} {rest : Bytes}
    (hrest : ∀ c, rest.head? = some c → isAsciiDigit c = false) :
    ∃ width, w ≤ width ∧ readNumber (padNat w n ++ rest) = some (width, n, rest) := by
  obtain ⟨hdigits, hvalue, hne, hwidth⟩ := padNat_spec w n
  exact ⟨_, hwidth, by rw [readNumber_run hdigits hne hrest, hvalue]⟩

theorem head_not_digit {c : UInt8} {rest : Bytes} (h : isAsciiDigit c = false) :
    ∀ d, (c :: rest).head? = some d → isAsciiDigit d = false := by
  intro d hd
  rwa [← Option.some.inj hd]

theorem readDate_ymd {year month day : Nat} {rest : Bytes}
    (hrest : ∀ c, rest.head? = some c → isAsciiDigit c = false) :
    readDate (ymd year month day ++ rest) = some (year, month, day, rest) := by
  have hdash : isAsciiDigit dash = false := by decide
  have hyear : padInt 4 year = padNat 4 year := by
    rw [padInt, if_neg (by omega), Int.natAbs_natCast]
  obtain ⟨v, -, hday⟩ := @readNumber_padNat 2 day rest hrest
  obtain ⟨w, -, hmonth⟩ := @readNumber_padNat 2 month (dash :: (padNat 2 day ++ rest)) (head_not_digit hdash)
  obtain ⟨width, hwidth, hyears⟩ :=
    @readNumber_padNat 4 year (dash :: (padNat 2 month ++ dash :: (padNat 2 day ++ rest)))
      (head_not_digit hdash)
  have hshape : ymd year month day ++ rest =
      padNat 4 year ++ dash :: (padNat 2 month ++ dash :: (padNat 2 day ++ rest)) := by
    rw [ymd, hyear]
    simp only [List.append_assoc, List.cons_append, List.nil_append]
  unfold readDate
  rw [hshape, hyears]
  simp only [Option.bind_eq_bind, Option.bind_some, if_neg (Nat.not_lt.mpr (Nat.le_of_succ_le hwidth)),
    expect_cons, hmonth, hday]

/-- A year below zero has a sign in front of it. -/
theorem readDate_negative {year : Int} {month day : Nat} {rest : Bytes} (h : year < 0) :
    readDate (ymd year month day ++ rest) = none := by
  unfold readDate
  rw [ymd, padInt, if_pos h]
  simp only [List.append_assoc, List.cons_append]
  rw [readNumber_none (by decide)]
  rfl

/-- Neither word of an infinity has a digit in it. -/
theorem ymd_not_word (year : Int) (month day : Nat) (rest : Bytes) :
    ymd year month day ++ rest ≠ ascii "infinity" ∧ ymd year month day ++ rest ≠ ascii "-infinity" := by
  obtain ⟨hdigits, -, hne, -⟩ := padNat_spec 2 day
  obtain ⟨c, t, ht⟩ := List.exists_cons_of_ne_nil hne
  have hc : isAsciiDigit c = true := hdigits c (by rw [ht]; exact List.mem_cons_self)
  have hmem : c ∈ ymd year month day ++ rest := by
    rw [ymd, ht]
    simp
  have hfree : (∀ d ∈ ascii "infinity", isAsciiDigit d = false) ∧
      ∀ d ∈ ascii "-infinity", isAsciiDigit d = false := by
    decide
  constructor
  · intro h
    exact Bool.false_ne_true ((hfree.1 c (h ▸ hmem)).symm.trans hc)
  · intro h
    exact Bool.false_ne_true ((hfree.2 c (h ▸ hmem)).symm.trans hc)

/-- The fraction loses its trailing zeros and nothing else. -/
theorem readFraction_text {frac : Nat} (h : frac < 1000000) :
    readFraction (fractionText frac) = some (frac, []) := by
  unfold fractionText
  split
  · rename_i hzero
    rw [hzero]
    rfl
  rename_i hpos
  obtain ⟨k, hk⟩ := trimEndMatches_spec 48 (padNat 6 frac)
  have hwidth := length_padNat (by decide : 0 < 6) h
  have hdigits := allDigits_padNat (by decide : 0 < 6) h
  have hvalue := ofDigits_padNat (by decide : 0 < 6) h
  rw [hk] at hwidth hdigits hvalue
  generalize trimEndMatches 48 (padNat 6 frac) = t at hwidth hdigits hvalue
  rw [← fixed_zero, ofDigits_append, ofDigits_fixed, Nat.zero_mod, length_fixed, Nat.add_zero] at hvalue
  rw [List.length_append, List.length_replicate] at hwidth
  have hne : t ≠ [] := by
    intro hnil
    rw [hnil] at hvalue
    exact hpos (hvalue.symm.trans (Nat.zero_mul _))
  have hrun : readNumber t = some (t.length, ofDigits t, []) := by
    have hend := @readNumber_run t [] (fun c hc => hdigits c (List.mem_append_left _ hc)) hne
      (fun c hc => by cases hc)
    rwa [List.append_nil] at hend
  have hscale : 6 - t.length = k := by omega
  unfold readFraction
  rw [expect_cons]
  simp only [Option.bind_eq_bind, hrun, Option.bind_some, hscale, hvalue]
  exact if_pos (by omega)

theorem readTime_hms {micros : Nat} (h : micros < 86400000000) :
    readTime (hms micros) = some (micros, []) := by
  have hcolon : isAsciiDigit colon = false := by decide
  have hdiv : ((micros : Int).fdiv 1000000).toNat = micros / 1000000 := by
    rw [Int.fdiv_eq_ediv_of_nonneg _ (by omega)]
    omega
  have hmod : ((micros : Int).fmod 1000000).toNat = micros % 1000000 := by
    rw [Int.fmod_eq_emod_of_nonneg _ (by omega)]
    omega
  have hfrac := readFraction_text (Nat.mod_lt micros (by decide : 0 < 1000000))
  have hend : ∀ c, (fractionText (micros % 1000000)).head? = some c → isAsciiDigit c = false := by
    intro c hc
    unfold fractionText at hc
    split at hc
    · cases hc
    · rw [← Option.some.inj hc]
      decide
  obtain ⟨u, -, hsecond⟩ := @readNumber_padNat 2 (micros / 1000000 % 60) _ hend
  obtain ⟨v, -, hminute⟩ := @readNumber_padNat 2 (micros / 1000000 % 3600 / 60)
    (colon :: (padNat 2 (micros / 1000000 % 60) ++ fractionText (micros % 1000000))) (head_not_digit hcolon)
  obtain ⟨w, -, hhour⟩ := @readNumber_padNat 2 (micros / 1000000 / 3600)
    (colon :: (padNat 2 (micros / 1000000 % 3600 / 60) ++
      colon :: (padNat 2 (micros / 1000000 % 60) ++ fractionText (micros % 1000000))))
    (head_not_digit hcolon)
  have hshape : hms micros = padNat 2 (micros / 1000000 / 3600) ++
      colon :: (padNat 2 (micros / 1000000 % 3600 / 60) ++
        colon :: (padNat 2 (micros / 1000000 % 60) ++ fractionText (micros % 1000000))) := by
    rw [hms, hdiv, hmod]
    simp only [List.append_assoc, List.cons_append, List.nil_append]
  have hvalue : ((micros / 1000000 / 3600 * 60 + micros / 1000000 % 3600 / 60) * 60 +
      micros / 1000000 % 60) * 1000000 + micros % 1000000 = micros := by
    omega
  unfold readTime
  rw [hshape, hhour]
  simp only [Option.bind_eq_bind, Option.bind_some, expect_cons, hminute, hsecond, hfrac, hvalue]
  exact if_pos (by omega)

/-! ## The round trip -/

/-- The date of a day: one of the server's calendar, or of a year that the calendar does not have. -/
theorem civil_cases (days : Int) : (firstDay ≤ days ∧ ∃ year month day : Nat,
      civilFromDays (days + pgEpochUnixDays) = ((year : Int), month, day) ∧
      dayOf false year month day = some days) ∨
    (days < firstDay ∧ (civilFromDays (days + pgEpochUnixDays)).1 ≤ 0) := by
  obtain ⟨hdays, hmonth, hday⟩ := civilFromDays_days (days + pgEpochUnixDays)
  have hiff := year_pos_iff hmonth hday
  rw [hdays] at hiff
  generalize civilFromDays (days + pgEpochUnixDays) = date at hdays hmonth hday hiff ⊢
  obtain ⟨year, month, day⟩ := date
  rcases lt_or_ge days firstDay with hlt | hge
  · right
    exact ⟨hlt, by dsimp only at hiff ⊢; omega⟩
  left
  have hpos := hiff.mpr (by omega)
  obtain ⟨y, rfl⟩ := Int.eq_ofNat_of_zero_le (Int.le_of_lt hpos)
  refine ⟨hge, y, month, day, rfl, ?_⟩
  unfold dayOf
  dsimp only at hdays hmonth hday hpos ⊢
  rw [if_neg Bool.false_ne_true, if_pos ⟨by omega, hmonth, hday⟩, hdays, Int.add_sub_cancel]

/-- A text with a year that the calendar does not have is no date. -/
theorem readDate_no_year {year : Int} {month day : Nat} {rest : Bytes} (hyear : year ≤ 0)
    (hrest : ∀ c, rest.head? = some c → isAsciiDigit c = false) :
    readDate (ymd year month day ++ rest) = none ∨
      readDate (ymd year month day ++ rest) = some (0, month, day, rest) := by
  rcases lt_or_ge year 0 with hneg | hnonneg
  · left
    exact readDate_negative hneg
  · right
    obtain rfl : year = ((0 : Nat) : Int) := by omega
    exact readDate_ymd hrest

theorem dayOf_zero (bc : Bool) (month day : Nat) : dayOf bc 0 month day = none := by
  unfold dayOf
  exact if_neg fun h => Nat.lt_irrefl 0 h.1

theorem dateIn_finite {days : Int} (h : DayInRange days) :
    dateIn (dateToString days) = some days ↔ firstDay ≤ days := by
  obtain ⟨hlow, hhigh⟩ := h
  have hend : ∀ c, ([] : Bytes).head? = some c → isAsciiDigit c = false := fun c hc => by cases hc
  rw [dateToString, if_neg (by omega), if_neg (by omega)]
  rcases civil_cases days with ⟨hge, year, month, day, hcivil, hdayOf⟩ | ⟨hlt, hyear⟩
  · rw [hcivil]
    obtain ⟨hword, hword'⟩ := ymd_not_word year month day []
    have hread := @readDate_ymd year month day [] hend
    rw [List.append_nil] at hword hword' hread
    have hera : readEra [] = some false := rfl
    refine ⟨fun _ => hge, fun _ => ?_⟩
    unfold dateIn
    dsimp only
    rw [if_neg hword, if_neg hword', hread]
    simp only [Option.bind_eq_bind, Option.bind_some, hera, hdayOf]
    exact if_pos ⟨hlow, hhigh⟩
  · refine ⟨fun h => ?_, fun h => absurd hlt (Int.not_lt.mpr h)⟩
    generalize civilFromDays (days + pgEpochUnixDays) = date at hyear h
    obtain ⟨year, month, day⟩ := date
    obtain ⟨hword, hword'⟩ := ymd_not_word year month day []
    have hread := @readDate_no_year year month day [] hyear hend
    rw [List.append_nil] at hword hword' hread
    unfold dateIn at h
    dsimp only at h
    rw [if_neg hword, if_neg hword'] at h
    rcases hread with hread | hread
    · rw [hread] at h
      cases h
    rw [hread] at h
    simp only [Option.bind_eq_bind, Option.bind_some, dayOf_zero, Option.bind_none,
      Option.bind_fun_none] at h
    cases h

theorem timestampIn_finite {micros : Int} (h : MicrosInRange micros) :
    timestampIn (timestampToString micros) = some micros ↔ firstDay * usecsPerDay ≤ micros := by
  obtain ⟨hlow, hhigh⟩ := h
  have hspace : ∀ {rest : Bytes}, ∀ c, (space :: rest).head? = some c → isAsciiDigit c = false :=
    head_not_digit (by decide)
  have hdays : micros.fdiv usecsPerDay = micros / 86400000000 := Int.fdiv_eq_ediv_of_nonneg _ (by decide)
  obtain ⟨time, htime⟩ : ∃ time : Nat, micros.fmod usecsPerDay = time :=
    Int.eq_ofNat_of_zero_le (Int.fmod_nonneg_of_pos _ (by decide))
  have hsplit : micros.fdiv usecsPerDay * usecsPerDay + (time : Int) = micros := by
    rw [← htime, Int.mul_comm]
    exact Int.mul_fdiv_add_fmod _ _
  have hshort : time < 86400000000 := by
    have hlt : micros.fmod usecsPerDay < usecsPerDay := Int.fmod_lt_of_pos _ (by decide)
    rw [htime] at hlt
    unfold usecsPerDay at hlt
    omega
  have hfirst : firstDay * usecsPerDay ≤ micros ↔ firstDay ≤ micros.fdiv usecsPerDay := by
    rw [hdays]
    unfold firstDay usecsPerDay
    omega
  rw [timestampToString, if_neg (by omega), if_neg (by omega), htime, hfirst]
  rcases civil_cases (micros.fdiv usecsPerDay) with ⟨hge, year, month, day, hcivil, hdayOf⟩ | ⟨hlt, hyear⟩
  · rw [hcivil]
    obtain ⟨hword, hword'⟩ := ymd_not_word year month day (space :: hms time)
    have hread := @readDate_ymd year month day (space :: hms time) hspace
    have hera : readEra [] = some false := rfl
    refine ⟨fun _ => hge, fun _ => ?_⟩
    dsimp only
    rw [List.append_assoc, List.singleton_append]
    unfold timestampIn
    rw [if_neg hword, if_neg hword', hread]
    simp only [Option.bind_eq_bind, Option.bind_some, expect_cons, readTime_hms hshort, hera, hdayOf, hsplit]
    exact if_pos ⟨hlow, hhigh⟩
  · refine ⟨fun h => ?_, fun h => absurd hlt (Int.not_lt.mpr h)⟩
    generalize civilFromDays (micros.fdiv usecsPerDay + pgEpochUnixDays) = date at hyear h
    obtain ⟨year, month, day⟩ := date
    obtain ⟨hword, hword'⟩ := ymd_not_word year month day (space :: hms time)
    have hread := @readDate_no_year year month day (space :: hms time) hyear hspace
    dsimp only at h
    rw [List.append_assoc, List.singleton_append] at h
    unfold timestampIn at h
    rw [if_neg hword, if_neg hword'] at h
    rcases hread with hread | hread
    · rw [hread] at h
      cases h
    rw [hread] at h
    simp only [Option.bind_eq_bind, Option.bind_some, expect_cons, dayOf_zero,
      Option.bind_none, Option.bind_fun_none] at h
    cases h

/-- **A date and a timestamp come back from their text exactly when they are infinite, or not before
the first year.** -/
theorem rendered_reads_iff (d : WireDate) (t : WireTimestamp) :
    (dateIn (dateToString d.days) = some d.days ↔
      (d.days = 2 ^ 31 - 1 ∨ d.days = -2 ^ 31) ∨ firstDay ≤ d.days) ∧
    (timestampIn (timestampToString t.micros) = some t.micros ↔
      (t.micros = 2 ^ 63 - 1 ∨ t.micros = -2 ^ 63) ∨ firstDay * usecsPerDay ≤ t.micros) := by
  obtain ⟨days, hdays⟩ := d
  obtain ⟨micros, hmicros⟩ := t
  dsimp only
  constructor
  · rcases hdays with hinf | hrange
    · refine ⟨fun _ => Or.inl hinf, fun _ => ?_⟩
      rcases hinf with rfl | rfl <;> decide
    rw [dateIn_finite hrange]
    refine ⟨Or.inr, fun h => h.resolve_left fun hinf => ?_⟩
    unfold DayInRange at hrange
    omega
  · rcases hmicros with hinf | hrange
    · refine ⟨fun _ => Or.inl hinf, fun _ => ?_⟩
      rcases hinf with rfl | rfl <;> decide
    rw [timestampIn_finite hrange]
    refine ⟨Or.inr, fun h => h.resolve_left fun hinf => ?_⟩
    unfold MicrosInRange at hrange
    omega

/-- The last day of 1 BC is printed with the year zero, and that text is no date. -/
theorem year_zero_unread :
    (∃ d : WireDate, d.days = -730120 ∧ dateToString d.days = ascii "0000-12-31" ∧
      dateIn (dateToString d.days) = none) ∧
    dateIn (ascii "0001-12-31 BC") = some (-730120) :=
  ⟨⟨⟨-730120, Or.inr (by decide)⟩, rfl, by decide, by decide⟩, by decide⟩

end RedDb.Driver
