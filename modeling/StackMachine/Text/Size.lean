import StackMachine.Text.Blank
import StackMachine.Text.Numeral

/-!
# Sizes

A size is a number as people write capacities: blanks around it do not count, `0x` or `0X` marks
hexadecimal, one plus sign may stand before the digits, and a last letter K, M or G of either case
multiplies by a power of 1024.  A size is below `2 ^ 64`, and so is the number its digits denote.
-/

namespace StackMachine.Text.Size

/-- The sizes and the numbers in them lie below this bound. -/
def bound : Nat := UInt64.size

/-- The factor that a last letter stands for. -/
def unit? (c : Char) : Option Nat :=
  match c.toUpper with
  | 'K' => some 1024
  | 'M' => some (1024 * 1024)
  | 'G' => some (1024 * 1024 * 1024)
  | _ => none

/-- The numeral of a size and the factor of its unit. -/
def splitUnit (cs : List Char) : List Char × Nat :=
  match cs.getLast? with
  | none => (cs, 1)
  | some c =>
    match unit? c with
    | some factor => (cs.dropLast, factor)
    | none => (cs, 1)

/-- The radix of a numeral and what follows its mark. -/
def splitRadix : List Char → Nat × List Char
  | '0' :: 'x' :: cs => (16, cs)
  | '0' :: 'X' :: cs => (16, cs)
  | cs => (10, cs)

/-- The text without one plus sign at its front. -/
def dropPlus : List Char → List Char
  | '+' :: cs => cs
  | cs => cs

/-- The value of a numeral with an optional plus sign, if it is below the bound. -/
def readNumeral (radix : Nat) (cs : List Char) : Option Nat :=
  (readDigits radix (dropPlus cs)).filter (· < bound)

/-- The value of a size. -/
def read? (cs : List Char) : Option Nat :=
  let (numeral, factor) := splitUnit (trim cs)
  let (radix, digits) := splitRadix numeral
  (readNumeral radix digits).bind fun n => if n * factor < bound then some (n * factor) else none

end StackMachine.Text.Size
