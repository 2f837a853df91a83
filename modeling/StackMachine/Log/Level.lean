/-!
# Log levels

Three levels, in increasing order of weight, and their names aligned in a column.
-/

namespace StackMachine.Log

/-- Where a text stands in a column that is wider than it. -/
inductive Alignment where
  | left
  | right
  | center
deriving DecidableEq, Repr

/-- A text filled with blanks to at least `width` characters.  An odd blank of a centred text goes
to its right. -/
def Alignment.pad (a : Alignment) (width : Nat) (text : List Char) : List Char :=
  let room := width - text.length
  match a with
  | left => text ++ List.replicate room ' '
  | right => List.replicate room ' ' ++ text
  | center => List.replicate (room / 2) ' ' ++ text ++ List.replicate (room - room / 2) ' '

/-- The weight of a log line. -/
inductive Level where
  | info
  | warn
  | error
deriving DecidableEq, Repr

namespace Level

/-- The name of a level. -/
def name : Level → String
  | info => "INFO"
  | warn => "WARN"
  | error => "ERROR"

/-- The place of a level in the order. -/
def rank : Level → Nat
  | info => 1
  | warn => 2
  | error => 3

/-- The order of two levels. -/
def order (a b : Level) : Ordering := compare a.rank b.rank

/-- The name of a level in a column. -/
def aligned (l : Level) (a : Alignment) (width : Nat) : List Char := a.pad width l.name.toList

end Level

end StackMachine.Log
