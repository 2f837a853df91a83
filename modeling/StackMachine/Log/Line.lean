import StackMachine.Environment
import StackMachine.Log.Level
import StackMachine.Text.Blank

/-!
# Log lines

A log line is a timestamp, the level in brackets and the message; the first two can be switched
off.  On a terminal with colour a line stands between escape sequences: a reset, bold yellow for a
warning and bold red for an error before it, and a reset after it.
-/

namespace StackMachine.Log

/-- What log lines show. -/
structure Style where
  timestamps : Bool := true
  levels : Bool := true
  color : Bool := false
deriving DecidableEq, Repr

namespace Style

/-- The variable that switches timestamps. -/
def timestampVariable : String := "STACKVM_LOG_TIMESTAMPS"

/-- The variable that names the terminal. -/
def terminalVariable : String := "TERM"

/-- The variable that switches colour off, whatever its value. -/
def plainVariable : String := "NO_COLOR"

/-- What the value of a switch asks for; an unknown value asks for nothing. -/
def readSwitch (raw : String) : Option Bool :=
  let value := String.ofList ((Text.trim raw.toList).map Char.toLower)
  if value = "0" ∨ value = "false" ∨ value = "off" ∨ value = "no" then some false
  else if value = "1" ∨ value = "true" ∨ value = "on" ∨ value = "yes" then some true
  else none

/-- What an optional switch asks for. -/
def readSwitch? (raw : Option String) : Option Bool := raw.bind readSwitch

/-- Colour needs a terminal that is not a plain one, and an environment that does not refuse it. -/
def allowsColor (env : Environment) : Bool :=
  (match env.lookup terminalVariable with
    | none => false
    | some terminal => terminal != "dumb") &&
    (env.lookup plainVariable).isNone

/-- The style that the environment asks for. -/
def withEnvironment (s : Style) (env : Environment) : Style :=
  { s with
    timestamps := (readSwitch? (env.lookup timestampVariable)).getD s.timestamps
    color := allowsColor env }

end Style

/-- The escape sequence that a code selects. -/
def escape (code : String) : String := "\x1b[" ++ code ++ "m"

/-- The escape sequences before a line of a level. -/
def opening : Level → String
  | .info => escape "0"
  | .warn => escape "0" ++ escape "1" ++ escape "33"
  | .error => escape "0" ++ escape "1" ++ escape "31"

/-- The line of a message, given the text of the moment. -/
def line (style : Style) (moment : String) (level : Level) (message : String) : String :=
  (if style.color then opening level else "") ++
    (if style.timestamps then moment ++ " " else "") ++
    (if style.levels then "[" ++ String.ofList (level.aligned .left 5) ++ "] " else "") ++
    message ++ "\n" ++
    (if style.color then escape "0" else "")

end StackMachine.Log
