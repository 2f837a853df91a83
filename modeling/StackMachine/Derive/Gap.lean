import StackMachine.Text.Blank

/-!
# Gaps between tokens

What may stand between the tokens of a declaration without meaning: blanks, the two marks of
writing direction, and comments.  A comment goes from two slashes to the end of the line, or stands
between `/*` and `*/` with further comments of that kind inside.

A documentation comment is no gap, because it stands for an attribute.  It opens with a third slash
or a second star, but not with more of them, or with an exclamation mark.
-/

namespace StackMachine.Derive.Gap

/-- Blanks and the marks of writing direction. -/
def isBlank (c : Char) : Bool := Text.isBlank c || c == '\u200e' || c == '\u200f'

/-- Whether a line comment is documentation, given what follows its two slashes. -/
def isLineDocumentation : List Char → Bool
  | '!' :: _ => true
  | '/' :: '/' :: _ => false
  | '/' :: _ => true
  | _ => false

/-- Whether a block comment is documentation, given what follows its opening. -/
def isBlockDocumentation : List Char → Bool
  | '!' :: _ => true
  | '*' :: '*' :: _ => false
  | '*' :: '/' :: _ => false
  | '*' :: _ => true
  | _ => false

/-- The text behind the end of a block comment that stands inside `depth` others. -/
def afterBlock : Nat → List Char → Option (List Char)
  | _, [] => none
  | depth, '/' :: '*' :: cs => afterBlock (depth + 1) cs
  | 0, '*' :: '/' :: cs => some cs
  | depth + 1, '*' :: '/' :: cs => afterBlock depth cs
  | depth, _ :: cs => afterBlock depth cs

/-- The text behind the comment at the front of a text, if one is there. -/
def afterComment? : List Char → Option (List Char)
  | '/' :: '/' :: cs => if isLineDocumentation cs then none else some (cs.dropWhile (· != '\n'))
  | '/' :: '*' :: cs => if isBlockDocumentation cs then none else afterBlock 0 cs
  | _ => none

/-- What follows a block comment is shorter than the comment and it. -/
theorem length_lt_of_afterBlock {depth : Nat} {cs rest : List Char}
    (h : afterBlock depth cs = some rest) : rest.length < cs.length := by
  fun_induction afterBlock depth cs with
  | case1 => exact absurd h (by simp)
  | case2 depth cs ih => exact Nat.lt_succ_of_lt (Nat.lt_succ_of_lt (ih h))
  | case3 cs =>
    obtain rfl := Option.some.inj h
    exact Nat.lt_succ_of_lt (Nat.lt_succ_self _)
  | case4 depth cs ih => exact Nat.lt_succ_of_lt (Nat.lt_succ_of_lt (ih h))
  | case5 depth c cs _ _ _ ih => exact Nat.lt_succ_of_lt (ih h)

/-- What follows a comment is shorter than the comment and it. -/
theorem length_lt_of_afterComment? {cs rest : List Char} (h : afterComment? cs = some rest) :
    rest.length < cs.length := by
  unfold afterComment? at h
  split at h
  · rename_i cs'
    split at h
    · exact absurd h (by simp)
    · obtain rfl := Option.some.inj h
      have hs := (List.dropWhile_suffix (fun c => c != '\n') (l := cs')).length_le
      exact Nat.lt_succ_of_lt (Nat.lt_succ_of_le hs)
  · split at h
    · exact absurd h (by simp)
    · exact Nat.lt_succ_of_lt (Nat.lt_succ_of_lt (length_lt_of_afterBlock h))
  · exact absurd h (by simp)

/-- The text from its first character that belongs to no gap. -/
def skip (cs : List Char) : List Char :=
  match h : afterComment? cs with
  | some rest =>
    have : rest.length < cs.length := length_lt_of_afterComment? h
    skip rest
  | none =>
    match cs with
    | [] => []
    | c :: rest => if isBlank c then skip rest else c :: rest
termination_by cs.length
decreasing_by
  · exact this
  · exact Nat.lt_succ_self _

@[simp] theorem skip_nil : skip [] = [] := by
  rw [skip]
  rfl

end StackMachine.Derive.Gap
