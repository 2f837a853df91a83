/-!
# The civil calendar

The date of a day counted from 1970-01-01, in the proleptic Gregorian calendar.  The calendar
repeats after an era of 400 years, which has 146097 days; counting eras from the first of March of
year 0 puts the leap day at the end of a year, so that a date is found by division alone.
-/

namespace StackMachine.Log

/-- A day of the calendar. -/
structure Date where
  year : Int
  month : Nat
  day : Nat
deriving DecidableEq, Repr

namespace Date

/-- The number of days of 400 years. -/
def eraDays : Nat := 146097

/-- The number of days from the first of March of year 0 to the first of January 1970. -/
def epochShift : Int := 719468

/-- The year of an era that holds a day of the era; years start in March. -/
def yearOfEra (day : Nat) : Nat := (day - day / 1460 + day / 36524 - day / 146096) / 365

/-- The day of its year of a day of an era. -/
def dayOfYear (day : Nat) : Nat :=
  let year := yearOfEra day
  day - (365 * year + year / 4 - year / 100)

/-- The month of a day of the year, counted from March. -/
def monthFromMarch (day : Nat) : Nat := (5 * day + 2) / 153

/-- The date of a day counted from the first of March of year 0. -/
def ofMarchDay (count : Int) : Date :=
  let era := count / eraDays
  let day := (count % eraDays).toNat
  let offset := monthFromMarch (dayOfYear day)
  let month := if offset < 10 then offset + 3 else offset - 9
  { year := yearOfEra day + era * 400 + if month ≤ 2 then 1 else 0
    month
    day := dayOfYear day - (153 * offset + 2) / 5 + 1 }

/-- The date of a day counted from the first of January 1970, in 64-bit two's complement.  The shift
to the first of March wraps modulo `2 ^ 64`. -/
def ofWord (day : UInt64) : Date := ofMarchDay (Int.bmod (day.toNat + epochShift) UInt64.size)

/-- The year modulo `2 ^ 32`. -/
def shortYear (d : Date) : Nat := (d.year % UInt32.size).toNat

end Date

end StackMachine.Log
