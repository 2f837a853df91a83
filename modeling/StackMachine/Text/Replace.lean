/-!
# Replacement

Every occurrence of a pattern in a text replaced by another text.  Occurrences are found from left
to right and do not overlap: after one, the search goes on behind it.
-/

namespace StackMachine.Text

/-- The text with a non-empty pattern replaced; an empty pattern occurs nowhere. -/
def replaceAll (pattern replacement : List Char) (cs : List Char) : List Char :=
  match cs with
  | [] => []
  | c :: rest =>
    if pattern ≠ [] ∧ pattern.isPrefixOf (c :: rest) = true then
      replacement ++ replaceAll pattern replacement (rest.drop (pattern.length - 1))
    else c :: replaceAll pattern replacement rest
termination_by cs.length
decreasing_by
  · rw [List.length_drop, List.length_cons]
    omega
  · exact Nat.lt_succ_self _

@[simp] theorem replaceAll_nil (pattern replacement : List Char) :
    replaceAll pattern replacement [] = [] := by
  rw [replaceAll]

end StackMachine.Text
