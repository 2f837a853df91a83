import StackMachine.Log.Line

/-!
# Reports

What a command line leads to: an exit code, the text on standard output, and what goes to standard
error in order, log lines and plain texts.  A log line gets its form, and the moment it shows, only
when it is written.

Printing is taken to succeed: both streams are there and stay open.
-/

namespace StackMachine.Command

/-- One piece of standard error. -/
inductive Emission where
  | log (level : Log.Level) (message : String)
  | text (content : String)
deriving DecidableEq, Repr

/-- The text of a piece, written at a moment. -/
def Emission.render (style : Log.Style) (moment : String) : Emission → String
  | log level message => Log.line style moment level message
  | text content => content

/-- What a command leads to. -/
structure Report where
  code : Nat
  stdout : String
  stderr : List Emission
deriving DecidableEq, Repr

namespace Report

/-- A failure with nothing on standard output. -/
def failure (stderr : List Emission) : Report := ⟨1, "", stderr⟩

/-- A failure reported by one log line. -/
def fail (message : String) : Report := failure [.log .error message]

/-- A success. -/
def success (stdout : String) (stderr : List Emission) : Report := ⟨0, stdout, stderr⟩

/-- The text on standard error, all of it written at one moment. -/
def stderrText (r : Report) (style : Log.Style) (moment : String) : String :=
  String.join (r.stderr.map (·.render style moment))

/-- A report with pieces put before its own on standard error. -/
def after (r : Report) (before : List Emission) : Report := { r with stderr := before ++ r.stderr }

end Report

/-- How a program was started: under a name and with arguments, which are Unicode texts.  A start with
an argument that is no Unicode text is no invocation.  It ends with exit code 101 before a file is
looked at, and with nothing on standard output. -/
structure Invocation where
  program : String
  arguments : List String
  environment : Environment
deriving DecidableEq, Repr

/-- A first argument that asks for the usage. -/
def isHelp (argument : String) : Bool := argument == "--help" || argument == "-h"

/-- The lines of a text, each ended by a newline. -/
def paragraph (lines : List String) : String := String.join (lines.map (· ++ "\n"))

end StackMachine.Command
