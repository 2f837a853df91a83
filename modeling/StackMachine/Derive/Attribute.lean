import StackMachine.Derive.Gap
import StackMachine.Derive.StringLiteral

/-!
# Attributes

The attributes before a declaration, as far as they matter here: an attribute named `error` gives
the declaration's message, if its only argument is a string literal.  Gaps may stand between all
its tokens, and a name may follow the literal directly, as a suffix without meaning.  The first
attribute of that name decides.

An attribute named by a path of several names is another one.
-/

namespace StackMachine.Derive

/-- An attribute: one named `error`, with its message unless it is malformed, or another one. -/
inductive Attribute where
  | error (message : Option String)
  | other
deriving DecidableEq, Repr

namespace Attribute

/-- The characters of a name: letters, digits and underscores of ASCII, and outside of it all
characters that are no gaps. -/
def isNameChar (c : Char) : Bool :=
  c.isAlphanum || c == '_' || (0x80 ≤ c.toNat && !Gap.isBlank c)

/-- The brackets that may stand around arguments. -/
def brackets : List (Char × Char) := [('(', ')'), ('[', ']'), ('\x7b', '\x7d')]

/-- The text without the name that follows a literal directly; a name starts with no digit. -/
def dropSuffix (cs : List Char) : List Char :=
  if cs.head?.any Char.isDigit then cs else cs.dropWhile isNameChar

/-- The string literal that is the only argument in brackets. -/
def argument? : List Char → Option (List Char)
  | [] => none
  | opening :: rest =>
    match brackets.lookup opening, StringLiteral.read? (Gap.skip rest) with
    | some closing, some (value, after) =>
      if (Gap.skip (dropSuffix after)).head? = some closing then some value else none
    | _, _ => none

/-- Whether a name goes on as a path of several names. -/
def continuesPath : List Char → Bool
  | ':' :: ':' :: _ => true
  | _ => false

/-- Read the text between an attribute's outer brackets. -/
def parse (text : String) : Attribute :=
  let cs := Gap.skip text.toList
  let rest := Gap.skip (cs.dropWhile isNameChar)
  if cs.takeWhile isNameChar ≠ "error".toList ∨ continuesPath rest then other
  else error ((argument? rest).map String.ofList)

/-- The message that attributes give, if one of them is named `error`. -/
def message? : List Attribute → Option (Option String)
  | [] => none
  | error message :: _ => some message
  | other :: rest => message? rest

end Attribute

end StackMachine.Derive
