import StackMachine.Text.Blank
import StackMachine.Text.Numeral
import StackMachine.Text.Replace

/-!
# Message templates

A message template is text with placeholders in braces: a name, and after a colon a format.  Two
opening braces stand for a brace in the text.  A placeholder's name ends at a closing brace, at a
colon or at the end of the template, and blanks around it do not count.

Placeholders that are numbers refer to fields by position.  `renamePositional` gives them names:
`0` becomes `f0`, with its format kept.
-/

namespace StackMachine.Derive.Template

/-- The brace that opens a placeholder. -/
def openBrace : Char := '\x7b'

/-- The brace that closes a placeholder. -/
def closeBrace : Char := '\x7d'

/-- The characters that end a placeholder's name. -/
def endsName (c : Char) : Bool := c == closeBrace || c == ':'

/-- The names of all placeholders, in order, as they are written. -/
def rawNames (cs : List Char) : List (List Char) :=
  match cs with
  | [] => []
  | c :: rest =>
    if c = openBrace then
      match rest with
      | [] => [[]]
      | d :: rest' =>
        if d = openBrace then rawNames rest'
        else
          (d :: rest').takeWhile (!endsName ·) ::
            rawNames (((d :: rest').dropWhile (!endsName ·)).drop 1)
    else rawNames rest
termination_by cs.length
decreasing_by
  · exact Nat.lt_succ_of_lt (Nat.lt_succ_self _)
  · have h := (List.dropWhile_suffix (fun x => !endsName x) (l := d :: rest')).length_le
    rw [List.length_drop, List.length_cons]
    omega
  · exact Nat.lt_succ_self _

/-- The names that a template refers to, in order of first occurrence. -/
def placeholders (cs : List Char) : List (List Char) :=
  (((rawNames cs).map Text.trim).filter (!·.isEmpty)).eraseDups

/-- The name of the field at a position. -/
def fieldName (index : Nat) : List Char := 'f' :: Text.decimal index

/-- The template with the placeholders of a position renamed: those that are closed first, then
those that have a format. -/
def renamePositional (cs : List Char) (index : Nat) : List Char :=
  let closed := Text.replaceAll (openBrace :: Text.decimal index ++ [closeBrace])
    (openBrace :: fieldName index ++ [closeBrace]) cs
  Text.replaceAll (openBrace :: Text.decimal index ++ [':'])
    (openBrace :: fieldName index ++ [':']) closed

/-- The template with the placeholders of several positions renamed, one position after the
other. -/
def renameAll (cs : List Char) (indices : List Nat) : List Char :=
  indices.foldl renamePositional cs

end StackMachine.Derive.Template
