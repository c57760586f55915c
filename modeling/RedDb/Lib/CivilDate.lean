import Mathlib.Tactic.IntervalCases

/-!
# Days of the Gregorian calendar

Days count from 1970-01-01. A year starts in March here, so that a leap day is its last,
and four hundred of them are 146097 days.

* `daysFromCivil` — the day count of a date;
* `dayOfYear_range` — the year of an era that a day falls in, found by division;
* `daysFromCivil_parts`,
  `day_le_monthDays`    — the date that the divisions make up.
-/

namespace CivilDate

/-- The day count of a year, a month and a day. -/
def daysFromCivil (year : Int) (month day : Nat) : Int :=
  let year := if month ≤ 2 then year - 1 else year
  let month : Int := if month ≤ 2 then month + 9 else month - 3
  365 * year + year / 4 - year / 100 + year / 400 + (153 * month + 2) / 5 + day - 719469

def isLeap (year : Int) : Bool := year % 4 = 0 && (year % 100 ≠ 0 || year % 400 = 0)

def monthDays (year : Int) (month : Nat) : Nat :=
  if month = 2 then if isLeap year then 29 else 28
  else if month = 4 ∨ month = 6 ∨ month = 9 ∨ month = 11 then 30 else 31

/-- Milliseconds since the epoch of a date and a time of day. -/
def instant (year : Int) (month day hour minute second milli : Nat) : Int :=
  daysFromCivil year month day * 86400000 +
    ((hour * 3600 + minute * 60 + second) * 1000 + milli : Nat)

/-- The era of a day, by division towards zero. -/
theorem era_eq (z : Int) : (if 0 ≤ z then z else z - 146096).tdiv 146097 = z / 146097 := by
  split
  · exact Int.tdiv_eq_ediv_of_nonneg (by omega)
  · have hneg : z - 146096 = -(146096 - z) := by omega
    rw [hneg, Int.neg_tdiv, Int.tdiv_eq_ediv_of_nonneg (by omega)]
    omega

theorem yearOfEra_range {doe : Int} (h0 : 0 ≤ doe) (h1 : doe < 146097) :
    0 ≤ (doe - doe / 1460 + doe / 36524 - doe / 146096) / 365 ∧
      (doe - doe / 1460 + doe / 36524 - doe / 146096) / 365 ≤ 399 := by
  omega

theorem dayOfYear_range {doe yoe : Int} (h0 : 0 ≤ doe) (h1 : doe < 146097)
    (h : yoe = (doe - doe / 1460 + doe / 36524 - doe / 146096) / 365) :
    0 ≤ doe - (365 * yoe + yoe / 4 - yoe / 100) ∧
      doe - (365 * yoe + yoe / 4 - yoe / 100) ≤ 365 := by
  obtain ⟨century, hcentury⟩ : ∃ century, century = doe / 36524 := ⟨_, rfl⟩
  have hlow : 0 ≤ century := by omega
  have hhigh : century ≤ 4 := by omega
  have hcycle : doe / 1460 = yoe / 4 ∨ doe / 1460 = yoe / 4 + 1 := by omega
  rw [← hcentury] at h
  rcases hcycle with hcycle | hcycle
  · interval_cases century <;> omega
  · interval_cases century <;> omega

/-- The date that the divisions make up is that of the day. -/
theorem daysFromCivil_parts {z doe yoe doy mp : Int}
    (hdoe : doe = z + 719468 - (z + 719468) / 146097 * 146097) (hyoe : 0 ≤ yoe ∧ yoe ≤ 399)
    (hdoy : doy = doe - (365 * yoe + yoe / 4 - yoe / 100)) (hrange : 0 ≤ doy ∧ doy ≤ 365)
    (hmp : mp = (5 * doy + 2) / 153) :
    daysFromCivil
        (if (if mp < 10 then mp + 3 else mp - 9) ≤ 2 then yoe + (z + 719468) / 146097 * 400 + 1
          else yoe + (z + 719468) / 146097 * 400)
        (if mp < 10 then mp + 3 else mp - 9).toNat (doy - (153 * mp + 2) / 5 + 1).toNat = z := by
  generalize (z + 719468) / 146097 = era at *
  have hday : ((doy - (153 * mp + 2) / 5 + 1).toNat : Int) = doy - (153 * mp + 2) / 5 + 1 := by omega
  dsimp only [daysFromCivil]
  rw [hday]
  by_cases hlate : mp < 10
  · rw [if_pos hlate, if_neg (by omega), if_neg (by omega), if_neg (by omega)]
    have hmonth : ((mp + 3).toNat : Int) = mp + 3 := by omega
    rw [hmonth]
    omega
  · rw [if_neg hlate, if_pos (by omega), if_pos (by omega), if_pos (by omega)]
    have hmonth : ((mp - 9).toNat : Int) = mp - 9 := by omega
    rw [hmonth]
    omega

/-- Only a leap year has a last day. -/
theorem dayOfYear_leap {doe yoe : Int} (h0 : 0 ≤ doe) (h1 : doe < 146097)
    (h : yoe = (doe - doe / 1460 + doe / 36524 - doe / 146096) / 365)
    (hlast : doe - (365 * yoe + yoe / 4 - yoe / 100) = 365) :
    (yoe + 1) % 4 = 0 ∧ ((yoe + 1) % 100 ≠ 0 ∨ yoe = 399) := by
  by_cases hend : doe = 146096
  · subst hend
    omega
  have hera : doe / 146096 = 0 := by omega
  have hcycle : doe / 1460 = yoe / 4 ∨ doe / 1460 = yoe / 4 + 1 := by omega
  have hcentury : doe / 36524 = yoe / 100 ∧ doe / 1460 = yoe / 4 + 1 := by
    obtain ⟨century, hc⟩ : ∃ century, century = doe / 36524 := ⟨_, rfl⟩
    have hlow : 0 ≤ century := by omega
    have hhigh : century ≤ 4 := by omega
    rw [← hc] at h ⊢
    rcases hcycle with hcycle | hcycle <;> interval_cases century <;> omega
  obtain ⟨hcentury, hcycle⟩ := hcentury
  rw [hera, hcentury, hcycle] at h
  have hquarter : yoe % 4 = 0 ∨ yoe % 4 = 1 ∨ yoe % 4 = 2 ∨ yoe % 4 = 3 := by omega
  rcases hquarter with hquarter | hquarter | hquarter | hquarter <;> constructor <;> omega

/-- The date that the divisions make up is one of the calendar. -/
theorem day_le_monthDays {era yoe doy mp : Int} (hrange : 0 ≤ doy ∧ doy ≤ 365)
    (hleap : doy = 365 → (yoe + 1) % 4 = 0 ∧ ((yoe + 1) % 100 ≠ 0 ∨ yoe = 399))
    (hmp : mp = (5 * doy + 2) / 153) :
    (doy - (153 * mp + 2) / 5 + 1).toNat ≤ monthDays
      (if (if mp < 10 then mp + 3 else mp - 9) ≤ 2 then yoe + era * 400 + 1 else yoe + era * 400)
      (if mp < 10 then mp + 3 else mp - 9).toNat := by
  have hmp0 : 0 ≤ mp := by omega
  have hmp1 : mp ≤ 11 := by omega
  by_cases hfeb : mp = 11
  · have hmonth : (if mp < 10 then mp + 3 else mp - 9) = 2 := by
      rw [if_neg (by omega)]
      omega
    have hyear : doy = 365 → isLeap (yoe + era * 400 + 1) = true := by
      intro h
      have hleap := hleap h
      rw [isLeap, Bool.and_eq_true, Bool.or_eq_true, decide_eq_true_eq, decide_eq_true_eq,
        decide_eq_true_eq]
      omega
    rw [hmonth, if_pos (Int.le_refl 2)]
    show _ ≤ if isLeap (yoe + era * 400 + 1) then 29 else 28
    split
    · omega
    · rename_i hnot
      have hlast : doy ≠ 365 := fun h => hnot (hyear h)
      omega
  · rw [monthDays, if_neg (by split <;> omega)]
    interval_cases mp <;> simp <;> omega
end CivilDate
