/-!
# The environment

The variables that a program is started with, as far as their values are Unicode texts.  A variable
with any other value counts as unset.
-/

namespace StackMachine

/-- Variables by name; the first entry of a name counts. -/
abbrev Environment := List (String × String)

end StackMachine
