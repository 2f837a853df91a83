import StackMachine.Log.Timestamp
import StackMachine.Proofs.CivilCalendar
import StackMachine.Proofs.NumberFields

/-!
# The order of timestamps

The text of a moment is a row of seven numbers in a layout, the date and the time of the day.  Later
dates have larger day numbers, and within a day the time counts on from its start, so rows are
ordered as the moments are in whole milliseconds (`row_lt_row_iff`).  Since texts of one layout are
ordered as their rows, a list of timestamps that is sorted as text is sorted by time.

This holds up to the last millisecond of the year 9999; from then on a year has a digit more than
its field.
-/

namespace StackMachine.Log

open Text (Field fill pattern)

namespace Date

variable {d e : Date}

/-- The numbers of a date, in order of weight. -/
def row (d : Date) : List Nat := [d.shortYear, d.month, d.day]

theorem length_row (d e : Date) : d.row.length = e.row.length := rfl

/-- The year has four digits. -/
def HasShortYear (d : Date) : Prop := 0 ≤ d.year ∧ d.year < 10000

theorem shortYear_eq (h : d.HasShortYear) : (d.shortYear : Int) = d.year := by
  obtain ⟨hlow, hhigh⟩ := h
  unfold shortYear
  rw [Int.toNat_of_nonneg (Int.emod_nonneg _ (by decide))]
  apply Int.emod_eq_of_lt hlow
  exact Int.lt_trans hhigh (by decide)

/-- Dates are ordered by their numbers. -/
theorem row_lt_row_iff (hd : d.HasShortYear) (he : e.HasShortYear) :
    d.row < e.row ↔ d.Before e := by
  have hyear := shortYear_eq hd
  have hyear' := shortYear_eq he
  have hlt : d.shortYear < e.shortYear ↔ d.year < e.year := by omega
  have heq : d.shortYear = e.shortYear ↔ d.year = e.year := by omega
  simp only [row, Before, List.cons_lt_cons_iff, hlt, heq, List.lt_irrefl, and_false, or_false]

theorem eq_of_row_eq (hd : d.HasShortYear) (he : e.HasShortYear) (h : d.row = e.row) : d = e := by
  have hyear := shortYear_eq hd
  have hyear' := shortYear_eq he
  simp only [row, List.cons.injEq, and_true] at h
  obtain ⟨hshort, hmonth, hday⟩ := h
  have hequal : d.year = e.year := by omega
  show Date.mk d.year d.month d.day = Date.mk e.year e.month e.day
  rw [hequal, hmonth, hday]

theorem monthLength_le (year : Int) (month : Nat) : monthLength year month ≤ 31 := by
  unfold monthLength
  split
  · split <;> omega
  all_goals omega

/-- A date whose day number is within the years 1970 to 9999 has a year of four digits. -/
theorem IsCivil.hasShortYear (h : d.IsCivil) (hlow : 0 ≤ d.dayNumber)
    (hhigh : d.dayNumber < 2932897) : d.HasShortYear := by
  obtain ⟨hstart, hend⟩ := h.dayNumber_mem
  have hmonth := daysToMonth_mono d.year (show d.month + 1 ≤ 13 from Nat.succ_le_succ h.month_le)
  rw [daysToMonth_thirteen] at hmonth
  constructor
  · by_contra hyear
    have hmono := daysToYear_mono (show d.year + 1 ≤ 1970 by omega)
    have hepoch : daysToYear 1970 = 0 := rfl
    rw [daysToYear_succ] at hmono
    omega
  · by_contra hyear
    have hmono := daysToYear_mono (show 10000 ≤ d.year by omega)
    have hlast : daysToYear 10000 = 2932897 := by
      rw [daysToYear_eq]
      decide
    omega

end Date

namespace Moment

variable {t u : Moment}

/-- A moment before the year 10000, with nanoseconds that make up no whole second. -/
structure InRange (t : Moment) : Prop where
  seconds_lt : t.seconds < 253402300800
  nanoseconds_lt : t.nanoseconds < 10 ^ 9

/-- The whole milliseconds since the start of 1970. -/
def milliseconds (t : Moment) : Nat := t.seconds * 1000 + t.nanoseconds / 1000000

/-- The numbers of the time of the day, in order of weight. -/
def clock (t : Moment) : List Nat :=
  [t.seconds / 3600 % 24, t.seconds / 60 % 60, t.seconds % 60, t.nanoseconds / 1000000]

/-- The numbers of a timestamp. -/
def row (t : Moment) : List Nat := t.date.row ++ t.clock

/-- The fields of a timestamp. -/
def layout : List Field :=
  [⟨4, ['-']⟩, ⟨2, ['-']⟩, ⟨2, [' ']⟩, ⟨2, [':']⟩, ⟨2, [':']⟩, ⟨2, ['.']⟩, ⟨3, []⟩]

/-- The text of seven numbers.  It is said of any numbers, so that no date is computed. -/
theorem fill_layout (year month day hour minute second millisecond : Nat) :
    fill layout [year, month, day, hour, minute, second, millisecond] =
      Text.zeroPadded 4 year ++ '-' :: Text.zeroPadded 2 month ++ '-' :: Text.zeroPadded 2 day ++
        ' ' :: Text.zeroPadded 2 hour ++ ':' :: Text.zeroPadded 2 minute ++
        ':' :: Text.zeroPadded 2 second ++ '.' :: Text.zeroPadded 3 millisecond := by
  simp only [layout, fill, List.cons_append, List.nil_append, List.append_assoc, List.append_nil]

theorem render_eq_fill (t : Moment) : t.render = fill layout t.row :=
  (fill_layout _ _ _ _ _ _ _).symm

/-! ## Dates of moments -/

/-- The date of a moment is the date of its day. -/
theorem date_civil (h : t.InRange) :
    t.date.IsCivil ∧ t.date.dayNumber = (t.seconds / 86400 : Nat) := by
  have hseconds := h.seconds_lt
  have hword : (UInt64.ofNat (t.seconds / 86400)).toNat = t.seconds / 86400 :=
    UInt64.toNat_ofNat_of_lt' (show t.seconds / 86400 < 18446744073709551616 by omega)
  have hday : (UInt64.ofNat (t.seconds / 86400)).toInt64.toInt = (t.seconds / 86400 : Nat) := by
    have hsmall : 2 * (UInt64.ofNat (t.seconds / 86400)).toNat < 2 ^ 64 := by omega
    have hbits : (UInt64.ofNat (t.seconds / 86400)).toInt64.toInt =
        (UInt64.ofNat (t.seconds / 86400)).toNat :=
      BitVec.toInt_eq_toNat_of_lt hsmall
    rw [hbits, hword]
  obtain ⟨hcivil, hnumber⟩ := Date.ofMarchDay_civil ((t.seconds / 86400 : Nat) + Date.epochShift)
  rw [Int.add_sub_cancel] at hnumber
  rw [date, Date.ofWord_eq (by omega), hday]
  exact ⟨hcivil, hnumber⟩

theorem date_hasShortYear (h : t.InRange) : t.date.HasShortYear := by
  have hseconds := h.seconds_lt
  obtain ⟨hcivil, hnumber⟩ := date_civil h
  exact hcivil.hasShortYear (by omega) (by omega)

/-- The numbers of a timestamp have room in its fields. -/
theorem holds_row (h : t.InRange) : List.Forall₂ Field.Holds layout t.row := by
  have hseconds := h.seconds_lt
  have hnanoseconds := h.nanoseconds_lt
  obtain ⟨hcivil, -⟩ := date_civil h
  obtain ⟨hlow, hhigh⟩ := date_hasShortYear h
  have hyear := Date.shortYear_eq (date_hasShortYear h)
  have hmonth := hcivil.month_le
  have hday : t.date.day ≤ 31 :=
    Nat.le_trans hcivil.day_le (Date.monthLength_le t.date.year t.date.month)
  refine .cons ⟨by decide, ?_⟩ <| .cons ⟨by decide, ?_⟩ <| .cons ⟨by decide, ?_⟩ <|
    .cons ⟨by decide, ?_⟩ <| .cons ⟨by decide, ?_⟩ <| .cons ⟨by decide, ?_⟩ <|
    .cons ⟨by decide, ?_⟩ .nil
  all_goals
    simp only [Nat.reducePow] at *
    omega

/-! ## Rows and milliseconds -/

/-- Moments of one day are ordered by their time of the day. -/
theorem clock_lt_clock_iff (ht : t.InRange) (hu : u.InRange)
    (hday : t.seconds / 86400 = u.seconds / 86400) :
    t.clock < u.clock ↔ t.milliseconds < u.milliseconds := by
  have hnanoseconds := ht.nanoseconds_lt
  have hnanoseconds' := hu.nanoseconds_lt
  simp only [clock, milliseconds, List.cons_lt_cons_iff, List.lt_irrefl, and_false, or_false]
  omega

theorem eq_of_clock_eq (hday : t.seconds / 86400 = u.seconds / 86400) (h : t.clock = u.clock) :
    t.milliseconds = u.milliseconds := by
  simp only [clock, List.cons.injEq, and_true] at h
  unfold milliseconds
  omega

/-- The day of a moment is the number of its date. -/
theorem day_eq_of_date_eq (ht : t.InRange) (hu : u.InRange) (h : t.date = u.date) :
    t.seconds / 86400 = u.seconds / 86400 := by
  have hnumber := (date_civil ht).2
  have hnumber' := (date_civil hu).2
  rw [h, hnumber'] at hnumber
  omega

/-- A smaller row belongs to an earlier millisecond. -/
theorem milliseconds_lt_of_row_lt (ht : t.InRange) (hu : u.InRange) (h : t.row < u.row) :
    t.milliseconds < u.milliseconds := by
  obtain ⟨hcivil, hnumber⟩ := date_civil ht
  obtain ⟨hcivil', hnumber'⟩ := date_civil hu
  have hshort := date_hasShortYear ht
  have hshort' := date_hasShortYear hu
  rw [row, row, Text.append_lt_append_iff (Date.length_row _ _),
    Date.row_lt_row_iff hshort hshort'] at h
  rcases h with hbefore | ⟨hrow, hclock⟩
  · -- An earlier date is an earlier day, and a day is longer than what is left of another.
    have hday := Date.dayNumber_lt_of_before hcivil hcivil' hbefore
    have hnanoseconds := ht.nanoseconds_lt
    unfold milliseconds
    omega
  · have hday := day_eq_of_date_eq ht hu (Date.eq_of_row_eq hshort hshort' hrow)
    exact (clock_lt_clock_iff ht hu hday).1 hclock

theorem milliseconds_eq_of_row_eq (ht : t.InRange) (hu : u.InRange) (h : t.row = u.row) :
    t.milliseconds = u.milliseconds := by
  obtain ⟨hrow, hclock⟩ := List.append_inj h (Date.length_row _ _)
  have hdate := Date.eq_of_row_eq (date_hasShortYear ht) (date_hasShortYear hu) hrow
  exact eq_of_clock_eq (day_eq_of_date_eq ht hu hdate) hclock

/-- **Rows are ordered as moments are in whole milliseconds.** -/
theorem row_lt_row_iff (ht : t.InRange) (hu : u.InRange) :
    t.row < u.row ↔ t.milliseconds < u.milliseconds := by
  constructor
  · exact milliseconds_lt_of_row_lt ht hu
  · intro hlt
    by_contra hrow
    by_cases hback : u.row < t.row
    · exact absurd (milliseconds_lt_of_row_lt hu ht hback) (by omega)
    · have heq := milliseconds_eq_of_row_eq ht hu (Text.eq_of_not_lt hrow hback)
      omega

theorem row_eq_row_iff (ht : t.InRange) (hu : u.InRange) :
    t.row = u.row ↔ t.milliseconds = u.milliseconds := by
  constructor
  · exact milliseconds_eq_of_row_eq ht hu
  · intro heq
    apply Text.eq_of_not_lt
    · rw [row_lt_row_iff ht hu]
      omega
    · rw [row_lt_row_iff hu ht]
      omega

/-- **Timestamps sort chronologically.**  Before the year 10000 the text of a moment has 23
characters, digits and marks at fixed places, and texts are ordered, and equal, as the moments are
in whole milliseconds. -/
theorem render_sorts {a b : Moment} (ha : a.InRange) (hb : b.InRange) :
    (a.render.length = 23 ∧
      List.Forall₂ Text.Fits "dddd-dd-dd dd:dd:dd.ddd".toList a.render) ∧
    (String.ofList a.render < String.ofList b.render ↔ a.milliseconds < b.milliseconds) ∧
    (String.ofList a.render = String.ofList b.render ↔ a.milliseconds = b.milliseconds) := by
  have hshape : List.Forall₂ Text.Fits "dddd-dd-dd dd:dd:dd.ddd".toList a.render := by
    rw [render_eq_fill]
    exact Text.fits_fill (by decide) (holds_row ha)
  refine ⟨⟨hshape.length_eq.symm, hshape⟩, ?_, ?_⟩
  · rw [String.lt_iff, String.toList_ofList, String.toList_ofList, render_eq_fill, render_eq_fill,
      Text.fill_lt_fill_iff (holds_row ha) (holds_row hb), row_lt_row_iff ha hb]
  · rw [String.ofList_inj, render_eq_fill, render_eq_fill, ← row_eq_row_iff ha hb]
    constructor
    · exact Text.fill_inj (holds_row ha) (holds_row hb)
    · exact congrArg _

/-- The last millisecond of 2000-02-29, the leap day of a year that ends a century, and the one
after it. -/
theorem render_sorts_leap_day :
    let a : Moment := ⟨951868799, 999999999⟩
    let b : Moment := ⟨951868800, 0⟩
    a.InRange ∧ b.InRange ∧ a.milliseconds < b.milliseconds ∧
      String.ofList a.render < String.ofList b.render ∧
      List.Forall₂ Text.Fits "dddd-dd-dd dd:dd:dd.ddd".toList a.render := by
  intro a b
  have ha : a.InRange := ⟨by decide, by decide⟩
  have hb : b.InRange := ⟨by decide, by decide⟩
  obtain ⟨⟨-, hshape⟩, horder, -⟩ := render_sorts ha hb
  exact ⟨ha, hb, by decide, horder.2 (by decide), hshape⟩

end Moment

end StackMachine.Log
