import StackMachine.Command.Assembler
import StackMachine.Command.Runner
import StackMachine.Log.Timestamp
import Std.Time.DateTime.Timestamp

/-!
# The programs

The two commands on the real file system, clock and environment.  The executable is the assembler
if it is installed under a name that ends in `asm`, and the runner under any other name.
-/

namespace StackMachine.Program

open StackMachine.Command

/-- The variables that the commands look at. -/
def watched : List String :=
  [Capacities.stackVariable, Capacities.memoryVariable, Log.Style.timestampVariable,
    Log.Style.terminalVariable, Log.Style.plainVariable]

/-- The environment, as far as the commands look at it. -/
def environment : IO Environment :=
  watched.filterMapM fun name => do
    return (← IO.getEnv name).map fun value => (name, value)

/-- The report of a failed access to a file.  The code of a directory or of a file in the wrong
place comes with either sign. -/
def cause : IO.Error → String
  | .noFileOrDirectory .. => FileFault.missing.message
  | .inappropriateType _ code details =>
    if code = 20 ∨ code = 0 - 20 then FileFault.notDirectory.message
    else if code = 21 ∨ code = 0 - 21 then FileFault.isDirectory.message
    else details
  | .invalidArgument _ code details =>
    if code = 36 ∨ code = 0 - 36 then FileFault.nameTooLong.message else details
  | e => toString e

/-- The bytes of a file, or why they cannot be read. -/
def contents (path : String) : IO Contents := do
  try
    return .ok (← IO.FS.readBinFile path).toList
  catch e => return .error (cause e)

/-- Whether a path names a file or a directory. -/
def isPresent (path : String) : IO Bool := do
  if path.isEmpty then return false
  return ← ((← IO.currentDir) / path).pathExists

/-- The text of the present moment. -/
def now : IO String := do
  let time := (← Std.Time.Timestamp.now).val
  let moment : Log.Moment := ⟨time.second.val.toNat, time.nano.val.toNat⟩
  return String.ofList moment.render

/-- Write a report and give its exit code. -/
def emit (style : Log.Style) (r : Report) : IO UInt32 := do
  for piece in r.stderr do
    IO.eprint (piece.render style (← now))
  IO.print r.stdout
  return UInt32.ofNat r.code

/-- The report of the runner. -/
def runner (i : Invocation) : IO Report := do
  match Runner.plan i with
  | .error report => return report
  | .ok p => return p.complete (← contents p.path)

/-- The report of the assembler, which writes its output file. -/
def assembler (i : Invocation) : IO Report := do
  match Assembler.plan i with
  | .error report => return report
  | .ok p =>
    let paths := p.input :: p.directory?.toList
    let present ← paths.filterM isPresent
    match p.refusal? (present.contains ·) with
    | some report => return report
    | none =>
      match p.compile (← contents p.input) with
      | .error report => return report
      | .ok code =>
        try
          IO.FS.writeBinFile p.target ⟨code.toArray⟩
          return p.finish code
        catch e => return Assembler.Plan.unwritten (cause e)

/-- Run the command that the executable's name stands for. -/
def start (arguments : List String) : IO UInt32 := do
  let program := ((← IO.appPath).fileName).getD "stackvm"
  let environment ← environment
  let invocation : Invocation := { program, arguments, environment }
  let style := ({} : Log.Style).withEnvironment environment
  let report ← if program.endsWith "asm" then assembler invocation else runner invocation
  emit style report

end StackMachine.Program

/-- The entry of the executable. -/
def main (arguments : List String) : IO UInt32 := StackMachine.Program.start arguments
