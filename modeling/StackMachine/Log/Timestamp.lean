import StackMachine.Log.Calendar
import StackMachine.Text.Numeral

/-!
# Timestamps

A moment, in seconds and nanoseconds since 1970-01-01, written as `YYYY-MM-DD HH:MM:SS.mmm`.  Every
field has a fixed number of digits, up to the year 9999.
-/

namespace StackMachine.Log

/-- A moment since the start of 1970. -/
structure Moment where
  seconds : Nat
  nanoseconds : Nat
deriving DecidableEq, Repr

namespace Moment

/-- The date of a moment. -/
def date (t : Moment) : Date := Date.ofWord (UInt64.ofNat (t.seconds / 86400))

/-- The text of a moment, to the millisecond. -/
def render (t : Moment) : List Char :=
  Text.zeroPadded 4 t.date.shortYear ++ '-' :: Text.zeroPadded 2 t.date.month ++
    '-' :: Text.zeroPadded 2 t.date.day ++ ' ' :: Text.zeroPadded 2 (t.seconds / 3600 % 24) ++
    ':' :: Text.zeroPadded 2 (t.seconds / 60 % 60) ++ ':' :: Text.zeroPadded 2 (t.seconds % 60) ++
    '.' :: Text.zeroPadded 3 (t.nanoseconds / 1000000)

end Moment

end StackMachine.Log
