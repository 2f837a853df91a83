/-!
# Classes of characters

A class of characters given by a table of changes: the code points, in ascending order, at which
membership changes.  The first change starts a run of members, the second one ends it, and so on.
-/

namespace StackMachine.Text

/-- Whether an odd number of ascending changes lie at a code point or below it. -/
def isWithin (n : Nat) : List Nat → Bool
  | [] => false
  | change :: changes => change ≤ n && !isWithin n changes

end StackMachine.Text
