import Mathlib.Algebra.BigOperators.Intervals
import Mathlib.Algebra.Order.BigOperators.Group.Finset
import Mathlib.Data.Nat.PSub
import Mathlib.Tactic.IntervalCases
import StackMachine.Log.Calendar

/-!
# Dates by counting

The calendar as people keep it: which years are leap years, how many days a month has, and which day
follows which.  The number of a date counts days from the start of 1970, year by year and month by
month, backwards for the years before.

A date that is found by division is a date of this calendar, and its number is the day that was
asked for.  Three facts carry the proof.

* An era has four centuries, a century has cycles of four years, and each of them has a year or a
  day that breaks the rule, at its end (`exists_place`).
* The first of March of a year has a number that divisions of the year give (`daysToYear_march`).
* From March on, the starts of the months lie on a line with slope 153 / 5, rounded down
  (`marchDays_succ`).

The numbers of dates grow with the dates, so a day has one date only, and the date of the next day
is the next date.
-/

namespace StackMachine.Log.Date

open Finset (Ico Icc range)

variable {d e : Date}

/-! ## Lengths -/

/-- A leap year is divisible by 4 and not by 100, or by 400. -/
def IsLeap (year : Int) : Prop := (4 ∣ year ∧ ¬ 100 ∣ year) ∨ 400 ∣ year

instance (year : Int) : Decidable (IsLeap year) :=
  inferInstanceAs (Decidable ((4 ∣ year ∧ ¬ 100 ∣ year) ∨ 400 ∣ year))

/-- The number of days of a month. -/
def monthLength (year : Int) : Nat → Nat
  | 2 => if IsLeap year then 29 else 28
  | 4 | 6 | 9 | 11 => 30
  | _ => 31

/-- The number of days of a year. -/
def yearLength (year : Int) : Nat := ∑ month ∈ Icc 1 12, monthLength year month

/-- The month is one of twelve, and the day one of the month's. -/
structure IsCivil (d : Date) : Prop where
  one_le_month : 1 ≤ d.month
  month_le : d.month ≤ 12
  one_le_day : 1 ≤ d.day
  day_le : d.day ≤ monthLength d.year d.month

/-- The number of days from the start of 1970 to the start of a year, negative for earlier years. -/
def daysToYear (year : Int) : Int :=
  ∑ i ∈ range (year - 1970).toNat, (yearLength (1970 + i) : Int) -
    ∑ i ∈ range (1970 - year).toNat, (yearLength (year + i) : Int)

/-- The number of days from the start of a year to the start of a month. -/
def daysToMonth (year : Int) (month : Nat) : Nat := ∑ m ∈ Ico 1 month, monthLength year m

/-- The number of days from 1970-01-01 to a date, negative for earlier dates. -/
def dayNumber (d : Date) : Int :=
  daysToYear d.year + daysToMonth d.year d.month + (d.day - 1 : Int)

/-- The date of the day after. -/
def next (d : Date) : Date :=
  if d.day < monthLength d.year d.month then ⟨d.year, d.month, d.day + 1⟩
  else if d.month < 12 then ⟨d.year, d.month + 1, 1⟩
  else ⟨d.year + 1, 1, 1⟩

/-- The number of days that a year has beyond 365. -/
def leapDay (year : Int) : Nat := if IsLeap year then 1 else 0

theorem monthLength_february (year : Int) : monthLength year 2 = 28 + leapDay year := by
  show (if IsLeap year then 29 else 28) = 28 + (if IsLeap year then 1 else 0)
  split <;> rfl

theorem one_le_monthLength (year : Int) (month : Nat) : 1 ≤ monthLength year month := by
  unfold monthLength
  split
  · split <;> omega
  all_goals omega

theorem yearLength_eq (year : Int) : yearLength year = 365 + leapDay year := by
  have h : yearLength year = 31 + monthLength year 2 + 306 := by
    simp [yearLength, Finset.sum_Icc_succ_top, monthLength]
  rw [h, monthLength_february]
  omega

@[simp] theorem daysToMonth_one (year : Int) : daysToMonth year 1 = 0 := rfl

theorem daysToMonth_succ (year : Int) {month : Nat} (h : 1 ≤ month) :
    daysToMonth year (month + 1) = daysToMonth year month + monthLength year month :=
  Finset.sum_Ico_succ_top h _

/-- The months make up the year. -/
theorem daysToMonth_thirteen (year : Int) : daysToMonth year 13 = yearLength year := rfl

theorem daysToYear_succ (year : Int) :
    daysToYear (year + 1) = daysToYear year + yearLength year := by
  unfold daysToYear
  -- Of the two sums one is empty; the year leaves the second or joins the first.
  rcases lt_or_ge year 1970 with h | h
  · have hbefore : (1970 - year).toNat = (1970 - (year + 1)).toNat + 1 := by omega
    have hshift : ∀ i : Nat, year + (i + 1 : Nat) = year + 1 + i := by
      intro i
      omega
    rw [Int.toNat_of_nonpos (show year - 1970 ≤ 0 by omega),
      Int.toNat_of_nonpos (show year + 1 - 1970 ≤ 0 by omega), hbefore, Finset.sum_range_succ']
    simp only [hshift, Finset.range_zero, Finset.sum_empty, Nat.cast_zero, add_zero]
    omega
  · have hafter : (year + 1 - 1970).toNat = (year - 1970).toNat + 1 := by omega
    have hlast : 1970 + ((year - 1970).toNat : Int) = year := by omega
    rw [Int.toNat_of_nonpos (show 1970 - year ≤ 0 by omega),
      Int.toNat_of_nonpos (show 1970 - (year + 1) ≤ 0 by omega), hafter, Finset.sum_range_succ,
      hlast]
    simp only [Finset.range_zero, Finset.sum_empty]
    omega

/-! ## The order of dates -/

/-- One date is before another: by year, then by month, then by day. -/
def Before (d e : Date) : Prop :=
  d.year < e.year ∨ d.year = e.year ∧ (d.month < e.month ∨ d.month = e.month ∧ d.day < e.day)

theorem daysToMonth_mono (year : Int) {month later : Nat} (h : month ≤ later) :
    daysToMonth year month ≤ daysToMonth year later := by
  unfold daysToMonth
  exact Finset.sum_le_sum_of_subset (Finset.Ico_subset_Ico_right h)

theorem daysToYear_mono {year later : Int} (h : year ≤ later) :
    daysToYear year ≤ daysToYear later := by
  induction later, h using Int.leInduction with
  | base => exact le_rfl
  | succ later _ ih =>
    rw [daysToYear_succ]
    omega

/-- The numbers of a month's dates lie between its start and the start of the next month. -/
theorem IsCivil.dayNumber_mem (h : d.IsCivil) :
    daysToYear d.year + daysToMonth d.year d.month ≤ d.dayNumber ∧
      d.dayNumber < daysToYear d.year + daysToMonth d.year (d.month + 1) := by
  have hpos := h.one_le_day
  have hle := h.day_le
  rw [daysToMonth_succ _ h.one_le_month]
  unfold dayNumber
  push_cast
  omega

/-- Later dates have larger numbers. -/
theorem dayNumber_lt_of_before (hd : d.IsCivil) (he : e.IsCivil) (h : d.Before e) :
    d.dayNumber < e.dayNumber := by
  have hend := hd.dayNumber_mem.2
  have hstart := he.dayNumber_mem.1
  rcases h with hy | ⟨hy, hm | ⟨hm, hday⟩⟩
  · have hmonth := daysToMonth_mono d.year (show d.month + 1 ≤ 13 from Nat.succ_le_succ hd.month_le)
    have hyear := daysToYear_mono (Int.add_one_le_of_lt hy)
    rw [daysToMonth_thirteen] at hmonth
    rw [daysToYear_succ] at hyear
    omega
  · have hmonth := daysToMonth_mono d.year (show d.month + 1 ≤ e.month from hm)
    rw [← hy] at hstart
    omega
  · unfold dayNumber
    rw [hy, hm]
    omega

/-- A day has one date. -/
theorem eq_of_dayNumber_eq (hd : d.IsCivil) (he : e.IsCivil) (h : d.dayNumber = e.dayNumber) :
    d = e := by
  have hde : ¬ d.Before e := fun hb => absurd (dayNumber_lt_of_before hd he hb) (by omega)
  have hed : ¬ e.Before d := fun hb => absurd (dayNumber_lt_of_before he hd hb) (by omega)
  obtain ⟨year, month, day⟩ := d
  obtain ⟨year', month', day'⟩ := e
  simp only [Before] at hde hed
  rw [mk.injEq]
  omega

/-- The next date is the date of the next day. -/
theorem IsCivil.next (h : d.IsCivil) : d.next.IsCivil ∧ d.next.dayNumber = d.dayNumber + 1 := by
  have hle := h.day_le
  unfold Date.next
  split
  · rename_i hday
    refine ⟨⟨h.one_le_month, h.month_le, Nat.succ_pos _, hday⟩, ?_⟩
    simp only [dayNumber]
    omega
  · split
    · rename_i hday hmonth
      refine ⟨⟨Nat.succ_pos _, hmonth, le_rfl, one_le_monthLength _ _⟩, ?_⟩
      simp only [dayNumber, daysToMonth_succ _ h.one_le_month]
      omega
    · rename_i hday hmonth
      have hdecember : d.month = 12 := Nat.le_antisymm h.month_le (Nat.not_lt.1 hmonth)
      have hyear := daysToMonth_succ d.year h.one_le_month
      rw [hdecember, daysToMonth_thirteen] at hyear
      rw [hdecember] at hle hday
      refine ⟨⟨le_rfl, (by decide : 1 ≤ 12), le_rfl, one_le_monthLength _ _⟩, ?_⟩
      simp only [dayNumber, daysToYear_succ, daysToMonth_one, hdecember]
      omega

/-! ## Years that start in March -/

/-- The number of leap years after year 0 up to a year. -/
def leapsThrough (year : Int) : Int := year / 4 - year / 100 + year / 400

theorem leapsThrough_succ (year : Int) :
    leapsThrough (year + 1) = leapsThrough year + leapDay (year + 1) := by
  unfold leapsThrough leapDay
  split
  · rename_i h
    unfold IsLeap at h
    omega
  · rename_i h
    unfold IsLeap at h
    omega

theorem daysToYear_eq (year : Int) :
    daysToYear year = 365 * (year - 1970) + leapsThrough (year - 1) - 477 := by
  have hstep : ∀ y, daysToYear (y + 1) = daysToYear y + 365 + leapDay y ∧
      leapsThrough (y + 1 - 1) = leapsThrough (y - 1) + leapDay y := by
    intro y
    have h := leapsThrough_succ (y - 1)
    rw [Int.sub_add_cancel] at h
    rw [daysToYear_succ, yearLength_eq, Int.add_sub_cancel]
    omega
  -- From 1970 on forwards and backwards, one year at a time.
  induction year using Int.inductionOn' (b := 1970) with
  | zero => decide
  | succ year _ ih =>
    obtain ⟨hdays, hleaps⟩ := hstep year
    omega
  | pred year _ ih =>
    obtain ⟨hdays, hleaps⟩ := hstep (year - 1)
    rw [Int.sub_add_cancel] at hdays hleaps
    omega

/-- The number of days from the first of March of year 0 to the first of March of a year. -/
def daysToMarch (year : Int) : Int := 365 * year + leapsThrough year

/-- The first of March has 59 days of its year before it, or 60, and 306 days of it follow. -/
theorem daysToYear_march (year : Int) :
    daysToYear year + 59 + leapDay year = daysToMarch year - epochShift ∧
      daysToYear (year + 1) = daysToMarch year + 306 - epochShift := by
  have hnext := daysToYear_succ year
  have heq := daysToYear_eq (year + 1)
  rw [Int.add_sub_cancel] at heq
  rw [yearLength_eq] at hnext
  unfold daysToMarch epochShift
  omega

/-- The number of days from the first of March to the first of a month counted from March. -/
def marchDays (offset : Nat) : Nat := (153 * offset + 2) / 5

theorem marchDays_succ (year : Int) {offset : Nat} (h : offset < 10) :
    marchDays (offset + 1) = marchDays offset + monthLength year (offset + 3) := by
  interval_cases offset <;> rfl

theorem daysToMonth_from_march (year : Int) {offset : Nat} (h : offset < 10) :
    daysToMonth year (offset + 3) = 59 + leapDay year + marchDays offset := by
  induction offset with
  | zero =>
    have hfebruary : daysToMonth year 2 = 31 := rfl
    show daysToMonth year (2 + 1) = 59 + leapDay year + 0
    rw [daysToMonth_succ year (by decide), hfebruary, monthLength_february]
    omega
  | succ offset ih =>
    have hnext := daysToMonth_succ year (show 1 ≤ offset + 3 by omega)
    rw [ih (by omega)] at hnext
    rw [marchDays_succ year (by omega), ← Nat.add_assoc, ← hnext, Nat.add_right_comm]

/-- The month that is found for a day holds the day. -/
theorem monthFromMarch_spec {day : Nat} (h : day ≤ 365) :
    monthFromMarch day ≤ 11 ∧ marchDays (monthFromMarch day) ≤ day ∧
      day < marchDays (monthFromMarch day + 1) := by
  unfold monthFromMarch marchDays
  omega

/-- The date of a day of a year that starts in March. -/
def ofMarchYear (year : Int) (day : Nat) : Date :=
  let offset := monthFromMarch day
  let month := if offset < 10 then offset + 3 else offset - 9
  ⟨year + if month ≤ 2 then 1 else 0, month, day - marchDays offset + 1⟩

/-- A day of a year that starts in March, the leap day at its end included, has a date of the
calendar with the right number. -/
theorem ofMarchYear_civil {year : Int} {day : Nat}
    (h : day < 365 ∨ day = 365 ∧ IsLeap (year + 1)) :
    (ofMarchYear year day).IsCivil ∧
      (ofMarchYear year day).dayNumber = daysToMarch year + day - epochShift := by
  obtain ⟨hoffset, hle, hlt⟩ := monthFromMarch_spec (show day ≤ 365 by omega)
  obtain ⟨hyear, hnext⟩ := daysToYear_march year
  have hcases : monthFromMarch day < 10 ∨ monthFromMarch day = 10 ∨ monthFromMarch day = 11 := by
    omega
  rcases hcases with ho | ho | ho
  · -- March to December lie in the year itself.
    have hdate : ofMarchYear year day =
        ⟨year, monthFromMarch day + 3, day - marchDays (monthFromMarch day) + 1⟩ := by
      simp [ofMarchYear, ho]
    rw [marchDays_succ year ho] at hlt
    rw [hdate]
    refine ⟨⟨?_, ?_, Nat.succ_pos _, ?_⟩, ?_⟩
    · exact Nat.le_add_left 1 _
    · show monthFromMarch day + 3 ≤ 12
      omega
    · show day - marchDays (monthFromMarch day) + 1 ≤ monthLength year (monthFromMarch day + 3)
      omega
    · simp only [dayNumber, daysToMonth_from_march year ho]
      omega
  · -- January follows it.
    have hdate : ofMarchYear year day = ⟨year + 1, 1, day - 306 + 1⟩ := by
      simp [ofMarchYear, ho, marchDays]
    rw [ho] at hle hlt
    rw [hdate]
    simp only [marchDays] at hle hlt
    refine ⟨⟨le_rfl, (by decide : 1 ≤ 12), Nat.succ_pos _, ?_⟩, ?_⟩
    · show day - 306 + 1 ≤ 31
      omega
    · simp only [dayNumber, daysToMonth_one]
      omega
  · -- February ends the year, with the leap day as its last day.
    have hdate : ofMarchYear year day = ⟨year + 1, 2, day - 337 + 1⟩ := by
      simp [ofMarchYear, ho, marchDays]
    have hfebruary : daysToMonth (year + 1) 2 = 31 := rfl
    rw [ho] at hle
    rw [hdate]
    simp only [marchDays] at hle
    refine ⟨⟨(by decide : 1 ≤ 2), (by decide : 2 ≤ 12), Nat.succ_pos _, ?_⟩, ?_⟩
    · show day - 337 + 1 ≤ monthLength (year + 1) 2
      rw [monthLength_february]
      rcases h with h | ⟨rfl, hleap⟩
      · omega
      · rw [leapDay, if_pos hleap]
    · simp only [dayNumber, hfebruary]
      omega

/-! ## Days of an era -/

/-- The place of a day in its era: its century, its cycle of four years, its year and its day.  The
last year of a cycle has a leap day, unless the cycle ends a century that does not end the era. -/
theorem exists_place {day : Nat} (h : day < eraDays) :
    ∃ century cycle year rest,
      day = 36524 * century + 1461 * cycle + 365 * year + rest ∧
        century < 4 ∧ cycle < 25 ∧ year < 4 ∧
        (rest < 365 ∨ rest = 365 ∧ year = 3 ∧ (cycle < 24 ∨ century = 3)) := by
  unfold eraDays at h
  let century := min (day / 36524) 3
  let cycle := (day - 36524 * century) / 1461
  let year := min ((day - 36524 * century - 1461 * cycle) / 365) 3
  refine ⟨century, cycle, year, day - 36524 * century - 1461 * cycle - 365 * year, ?_⟩
  omega

section Place

variable {century cycle year rest : Nat} (hc : century < 4) (hq : cycle < 25) (hy : year < 4)
  (hr : rest < 365 ∨ rest = 365 ∧ year = 3 ∧ (cycle < 24 ∨ century = 3))

include hc hq hy hr

theorem yearOfEra_of_place :
    yearOfEra (36524 * century + 1461 * cycle + 365 * year + rest) =
      100 * century + 4 * cycle + year := by
  have hcycle : (36524 * century + 1461 * cycle + 365 * year + rest) / 1460 =
      25 * century + cycle + (24 * century + cycle + 365 * year + rest) / 1460 := by
    omega
  have hlast : 1461 * cycle + 365 * year + rest < 36524 ∨
      century = 3 ∧ 1461 * cycle + 365 * year + rest = 36524 := by
    omega
  -- Only the last day of the era is counted to a fifth century, and taken off again.
  have hcentury : (36524 * century + 1461 * cycle + 365 * year + rest) / 36524 =
      century + (36524 * century + 1461 * cycle + 365 * year + rest) / 146096 := by
    rcases hlast with h | ⟨rfl, h⟩
    · omega
    · omega
  unfold yearOfEra
  rw [hcycle, hcentury]
  omega

theorem dayOfYear_of_place :
    dayOfYear (36524 * century + 1461 * cycle + 365 * year + rest) = rest := by
  simp only [dayOfYear, yearOfEra_of_place hc hq hy hr]
  omega

end Place

/-- The number of days of an era before one of its years. -/
def daysToYearOfEra (year : Nat) : Nat := 365 * year + year / 4 - year / 100

/-- The year and the day of the year that are found for a day of an era. -/
theorem yearOfEra_spec {day : Nat} (h : day < eraDays) :
    yearOfEra day < 400 ∧ day = daysToYearOfEra (yearOfEra day) + dayOfYear day ∧
      (dayOfYear day < 365 ∨ dayOfYear day = 365 ∧ IsLeap (yearOfEra day + 1)) := by
  obtain ⟨century, cycle, year, rest, rfl, hc, hq, hy, hr⟩ := exists_place h
  rw [yearOfEra_of_place hc hq hy hr, dayOfYear_of_place hc hq hy hr]
  unfold daysToYearOfEra IsLeap
  omega

/-- The calendar repeats after an era. -/
theorem daysToMarch_era (era : Int) {year : Nat} (h : year < 400) :
    daysToMarch (year + era * 400) = era * eraDays + daysToYearOfEra year := by
  unfold daysToMarch leapsThrough eraDays daysToYearOfEra
  omega

theorem isLeap_era (era year : Int) : IsLeap (year + era * 400) ↔ IsLeap year := by
  unfold IsLeap
  omega

theorem toNat_emod_lt (count : Int) : (count % eraDays).toNat < eraDays := by
  unfold eraDays
  omega

/-- The date that is found for a day is a date of the calendar, with the number of the day. -/
theorem ofMarchDay_civil (count : Int) :
    (ofMarchDay count).IsCivil ∧ (ofMarchDay count).dayNumber = count - epochShift := by
  obtain ⟨hyear, hday, hlong⟩ := yearOfEra_spec (toNat_emod_lt count)
  have hcount : count = count / eraDays * eraDays + (count % eraDays).toNat := by
    unfold eraDays
    omega
  have hmarch := daysToMarch_era (count / eraDays) hyear
  have hdate : ofMarchDay count =
      ofMarchYear (yearOfEra (count % eraDays).toNat + count / eraDays * 400)
        (dayOfYear (count % eraDays).toNat) := rfl
  rw [hdate]
  rw [← isLeap_era (count / eraDays), Int.add_right_comm] at hlong
  obtain ⟨hcivil, hnumber⟩ := ofMarchYear_civil hlong
  refine ⟨hcivil, ?_⟩
  rw [hnumber, hmarch]
  omega

/-! ## Subtractions within their domain -/

/-- `yearOfEra` with differences that have no value where they would be negative. -/
def yearOfEra? (day : Nat) : Option Nat := do
  let short ← Nat.psub day (day / 1460)
  let long ← Nat.psub (short + day / 36524) (day / 146096)
  some (long / 365)

/-- `dayOfYear` with checked differences. -/
def dayOfYear? (day : Nat) : Option Nat := do
  let year ← yearOfEra? day
  let before ← Nat.psub (365 * year + year / 4) (year / 100)
  Nat.psub day before

/-- The number of a month counted from March, with checked differences. -/
def month? (offset : Nat) : Option Nat :=
  if offset < 10 then some (offset + 3) else Nat.psub offset 9

/-- `ofMarchDay` with checked differences. -/
def ofMarchDay? (count : Int) : Option Date := do
  let era := count / eraDays
  let dayOfEra := (count % eraDays).toNat
  let year ← yearOfEra? dayOfEra
  let dayOfYear ← dayOfYear? dayOfEra
  let offset := monthFromMarch dayOfYear
  let day ← Nat.psub dayOfYear ((153 * offset + 2) / 5)
  let month ← month? offset
  some ⟨year + era * 400 + if month ≤ 2 then 1 else 0, month, day + 1⟩

theorem yearOfEra?_eq (day : Nat) : yearOfEra? day = some (yearOfEra day) := by
  have hlong : day / 146096 ≤ day - day / 1460 + day / 36524 := by omega
  simp only [yearOfEra?, Nat.psub_eq_sub (Nat.div_le_self day 1460), Option.bind_eq_bind,
    Option.bind_some, Nat.psub_eq_sub hlong]
  rfl

theorem dayOfYear?_eq {day : Nat} (h : day < eraDays) : dayOfYear? day = some (dayOfYear day) := by
  obtain ⟨-, hday, -⟩ := yearOfEra_spec h
  have hbefore : yearOfEra day / 100 ≤ 365 * yearOfEra day + yearOfEra day / 4 := by omega
  have hle : 365 * yearOfEra day + yearOfEra day / 4 - yearOfEra day / 100 ≤ day :=
    Nat.le.intro hday.symm
  simp only [dayOfYear?, yearOfEra?_eq, Option.bind_eq_bind, Option.bind_some,
    Nat.psub_eq_sub hbefore, Nat.psub_eq_sub hle]
  rfl

theorem month?_eq (offset : Nat) :
    month? offset = some (if offset < 10 then offset + 3 else offset - 9) := by
  unfold month?
  split
  · rfl
  · exact Nat.psub_eq_sub (by omega)

/-- No difference is negative. -/
theorem ofMarchDay?_eq (count : Int) : ofMarchDay? count = some (ofMarchDay count) := by
  have h := toNat_emod_lt count
  obtain ⟨-, -, hlong⟩ := yearOfEra_spec h
  obtain ⟨-, hle, -⟩ := monthFromMarch_spec (show dayOfYear (count % eraDays).toNat ≤ 365 by omega)
  unfold marchDays at hle
  simp only [ofMarchDay?, yearOfEra?_eq, dayOfYear?_eq h, month?_eq, Option.bind_eq_bind,
    Option.bind_some, Nat.psub_eq_sub hle]
  rfl

/-! ## Day numbers in two's complement -/

/-- Below the last day numbers the shift to the first of March does not wrap. -/
theorem ofWord_eq {word : UInt64} (h : word.toInt64.toInt ≤ 2 ^ 63 - 1 - 719468) :
    ofWord word = ofMarchDay (word.toInt64.toInt + epochShift) := by
  have hword : word.toInt64.toInt = Int.bmod word.toNat UInt64.size :=
    BitVec.toInt_eq_toNat_bmod word.toBitVec
  have hlow : -2 ^ 63 ≤ word.toInt64.toInt := BitVec.le_toInt word.toBitVec
  unfold ofWord
  rw [← Int.bmod_add_bmod, ← hword]
  congr 1
  apply Int.bmod_eq_of_le
  · show -(18446744073709551616 / 2 : Int) ≤ _ + 719468
    omega
  · show _ + 719468 < ((18446744073709551616 + 1) / 2 : Int)
    omega

/-- **The date of a day number is the date of the Gregorian calendar.**  Take a day number in 64-bit
two's complement, below the last 719468 ones.  Its date, whose year is shown modulo `2 ^ 32`, is a
date of the calendar, and so many days lie between 1970-01-01 and it.  So the day 0 is 1970-01-01,
and the date of the next day number is the next date.  No subtraction on the way has a negative
result. -/
theorem ofWord_is_gregorian (word : UInt64) (h : word.toInt64.toInt ≤ 2 ^ 63 - 1 - 719468) :
    let d : Date := ofWord word
    let k := word.toInt64.toInt
    ((d.shortYear : Int) = d.year % 2 ^ 32 ∧ d.IsCivil ∧ d.dayNumber = k) ∧
      (k = 0 → d = ⟨1970, 1, 1⟩) ∧
      (∀ tomorrow : UInt64, tomorrow.toInt64.toInt = k + 1 → k + 1 ≤ 2 ^ 63 - 1 - 719468 →
        ofWord tomorrow = d.next) ∧
      ofMarchDay? (k + epochShift) = some d := by
  have hdate : ∀ w : UInt64, w.toInt64.toInt ≤ 2 ^ 63 - 1 - 719468 →
      (ofWord w).IsCivil ∧ (ofWord w).dayNumber = w.toInt64.toInt := by
    intro w hw
    obtain ⟨hcivil, hnumber⟩ := ofMarchDay_civil (w.toInt64.toInt + epochShift)
    rw [Int.add_sub_cancel] at hnumber
    rw [ofWord_eq hw]
    exact ⟨hcivil, hnumber⟩
  intro d k
  obtain ⟨hcivil, hnumber⟩ := hdate word h
  refine ⟨⟨?_, hcivil, hnumber⟩, ?_, ?_, ?_⟩
  · exact Int.toNat_of_nonneg (Int.emod_nonneg _ (by decide))
  · intro hk
    have hepoch : IsCivil ⟨1970, 1, 1⟩ := ⟨le_rfl, by decide, le_rfl, by decide⟩
    exact eq_of_dayNumber_eq hcivil hepoch (hnumber.trans hk)
  · intro tomorrow hk hle
    obtain ⟨hcivil', hnumber'⟩ := hdate tomorrow (hk ▸ hle)
    obtain ⟨hnext, hsucc⟩ := hcivil.next
    exact eq_of_dayNumber_eq hcivil' hnext (by rw [hnumber', hk, hsucc, hnumber])
  · rw [ofMarchDay?_eq]
    exact congrArg some (ofWord_eq h).symm

/-- The last day of February of a year that ends a century and no era, before 1970: 1900-02-28 has
the number -25509, and the first of March follows it. -/
theorem ofWord_is_gregorian_century :
    let word : UInt64 := 18446744073709526107
    word.toInt64.toInt = -25509 ∧ ofWord word = ⟨1900, 2, 28⟩ ∧ (ofWord word).IsCivil ∧
      (ofWord word).dayNumber = -25509 ∧ ofWord (word + 1) = ⟨1900, 3, 1⟩ := by
  intro word
  have hk : word.toInt64.toInt = -25509 := by decide
  obtain ⟨⟨-, hcivil, hnumber⟩, -, hnext, -⟩ := ofWord_is_gregorian word (by omega)
  have hdate : ofWord word = ⟨1900, 2, 28⟩ := by
    rw [ofWord_eq (by omega), hk]
    decide
  refine ⟨hk, hdate, hcivil, hnumber.trans hk, ?_⟩
  rw [hnext (word + 1) (by decide) (by omega), hdate]
  decide

end StackMachine.Log.Date
