import StackMachine.Error
import StackMachine.Text.Lines

/-!
# Diagnostics

The report of an assembly error against its source: the message, the place, and if the source has
that line, the line behind a gutter with its number and a caret under the column at fault.
-/

namespace StackMachine.Assembly.Diagnostic

/-- The text without the carriage returns at its end. -/
def withoutReturns (cs : List Char) : List Char := (cs.reverse.dropWhile (· == '\r')).reverse

/-- The source line with its number, and the caret below it. -/
def excerpt (text : List Char) (line column : Nat) : List Char :=
  "  |\n".toList ++ (Text.decimal line).leftpad 4 ' ' ++ " | ".toList ++ withoutReturns text ++
    "\n  | ".toList ++ List.replicate (column - 1) ' ' ++ "^\n".toList

/-- The report of a message about a place of a source.  Line 0 shows the first line. -/
def render (file source : String) (line column : Nat) (message : String) : String :=
  "error: " ++ message ++ "\n --> " ++ file ++ ":" ++ number line ++ ":" ++ number column ++ "\n" ++
    match (Text.lines source.toList)[line - 1]? with
    | some text => String.ofList (excerpt text line column)
    | none => ""

end StackMachine.Assembly.Diagnostic
