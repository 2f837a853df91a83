import StackMachine.Assembly.Diagnostic
import StackMachine.Assembly.Source
import StackMachine.Command.Path
import StackMachine.Command.Report
import StackMachine.Text.Utf8

/-!
# Program files

From the bytes of a file to code.  A file with the extension of an assembly source is read as text
and assembled; any other file is code.  A source that does not assemble is reported twice: by a
diagnostic against the source, and by the error itself.
-/

namespace StackMachine.Command

/-- Code, or the error with what goes to standard error before it is reported. -/
abbrev Loaded := Except (List Emission × Error) (List UInt8)

/-- What a file that can be read holds, or the report of why it cannot. -/
abbrev Contents := Except String (List UInt8)

/-- The extensions of assembly sources. -/
def sourceExtensions : List String := ["asm", "s"]

/-- Whether a path names an assembly source. -/
def isSource (path : String) : Bool :=
  match Path.extension? path.toList with
  | some extension => sourceExtensions.contains (String.ofList extension)
  | none => false

/-- The diagnostic of an error against its source. -/
def diagnose (path source : String) (e : Error) : List Emission :=
  match e.location? with
  | some (line, column, cause) =>
    [.text (Assembly.Diagnostic.render path source line column cause ++ "\n")]
  | none => [.text ("error: " ++ e.message ++ "\n")]

/-- Assemble the source that a file holds. -/
def assembleFile (path : String) : Contents → Loaded
  | .error cause => .error ([], .file path cause)
  | .ok bytes =>
    match Text.Utf8.decode bytes with
    | .error _ => .error ([], .file path "stream did not contain valid UTF-8")
    | .ok cs =>
      let source := String.ofList cs
      match Assembly.assemble source with
      | .ok code => .ok code
      | .error e => .error (diagnose path source e, e)

/-- The code of a program file. -/
def loadProgram (path : String) (contents : Contents) : Loaded :=
  if isSource path then assembleFile path contents
  else
    match contents with
    | .ok code => .ok code
    | .error cause => .error ([], .file path cause)

end StackMachine.Command
