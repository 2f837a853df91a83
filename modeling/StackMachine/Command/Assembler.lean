import StackMachine.Command.FileTree
import StackMachine.Command.Program

/-!
# The assembler

The command that assembles a source into a file of code.  The first argument is the source's path;
options follow.  Unless an option names the output, it goes beside the source, under the source's
stem with the extension `bin`.

`plan` reads the arguments into a plan.  A plan first asks whether the source and the output's
directory are there (`Plan.refusal?`), then for the source's contents (`Plan.compile`), then writes
the code and reports (`Plan.finish`, or `Plan.unwritten` if the write fails); `run` does all this on
a file tree and a medium.
-/

namespace StackMachine.Command.Assembler

/-- The usage of the command under a name. -/
def usage (program : String) : String :=
  paragraph [
    "Stack VM Assembler",
    "",
    "USAGE:",
    "    " ++ program ++ " <input.asm> [OPTIONS]",
    "",
    "ARGS:",
    "    <input.asm>    Assembly source file to compile",
    "",
    "OPTIONS:",
    "    -o, --output <file>    Output file path (defaults to <input>.bin)",
    "    -l, --listing          Print the disassembled bytecode after compiling",
    "    -h, --help             Print this help message",
    "",
    "EXAMPLES:",
    "    # Compile to default output name",
    "    " ++ program ++ " program.asm",
    "",
    "    # Compile with explicit output",
    "    " ++ program ++ " program.asm -o output.bin"]

/-- What the arguments ask for; no output stands for the one beside the source. -/
structure Plan where
  input : String
  output : Option String := none
  listing : Bool := false
deriving DecidableEq, Repr

/-- The report of an argument that is no option. -/
def unexpected (program argument : String) : Report :=
  .failure [.log .error ("Unexpected argument: " ++ argument ++ "\n"),
    .log .info (usage program)]

/-- The plan after the remaining arguments. -/
def options (program : String) (p : Plan) : List String → Except Report Plan
  | [] => .ok p
  | argument :: rest =>
    if argument = "--output" ∨ argument = "-o" then
      match rest with
      | [] => .error (.fail (argument ++ " requires an argument"))
      | value :: rest => options program { p with output := some value } rest
    else if argument = "--listing" ∨ argument = "-l" then
      options program { p with listing := true } rest
    else .error (unexpected program argument)

/-- What an invocation asks for, or the report that ends it. -/
def plan (i : Invocation) : Except Report Plan :=
  match i.arguments with
  | [] => .error ⟨1, "", [.log .info (usage i.program)]⟩
  | input :: rest =>
    if isHelp input then .error ⟨0, "", [.log .info (usage i.program)]⟩
    else options i.program { input } rest

/-- The output beside a source: its stem with the extension `bin`. -/
def defaultOutput (input : String) : String :=
  let path := input.toList
  String.ofList
    (Path.within ((Path.parent? path).getD ['.']) ((Path.stem? path).getD [] ++ ".bin".toList))

namespace Plan

/-- Where the code goes. -/
def target (p : Plan) : String := p.output.getD (defaultOutput p.input)

/-- The directory that must be there for the output, if it is not the one at hand. -/
def directory? (p : Plan) : Option String :=
  match Path.parent? p.target.toList with
  | none => none
  | some directory => if directory.isEmpty then none else some (String.ofList directory)

/-- The report that ends the command early, given which paths are there. -/
def refusal? (p : Plan) (isPresent : String → Bool) : Option Report :=
  if !isPresent p.input then some (.fail ("Input file does not exist: " ++ p.input))
  else
    match p.directory? with
    | none => none
    | some directory =>
      if isPresent directory then none
      else some (.fail ("Output directory does not exist: " ++ directory))

/-- The code of the source, or the report of why there is none. -/
def compile (p : Plan) (contents : Contents) : Except Report (List UInt8) :=
  match assembleFile p.input contents with
  | .ok code => .ok code
  | .error (emissions, e) =>
    .error (.failure (emissions ++ [.log .error ("Assembly failed: " ++ e.message)]))

/-- The report of written code. -/
def finish (p : Plan) (code : List UInt8) : Report :=
  let note := .log .info ("Compiled " ++ p.input ++ " -> " ++ p.target ++ " (" ++
    number code.length ++ " bytes)")
  if p.listing then
    match Listing.disassemble code with
    | .ok listing => .success listing [note]
    | .error e => .failure [note, .log .error ("Disassembly failed: " ++ e.message)]
  else .success "" [note]

/-- The report of code that could not be written. -/
def unwritten (cause : String) : Report := .fail ("Failed to write output file: " ++ cause)

end Plan

/-- Run the command on a file tree; the tree afterwards is the second part.  The medium decides
whether the write of the output breaks off. -/
def run (i : Invocation) (files : FileTree) (medium : Medium := .ample) : Report × FileTree :=
  match plan i with
  | .error report => (report, files)
  | .ok p =>
    match p.refusal? files.isPresent with
    | some report => (report, files)
    | none =>
      match p.compile ((files.read p.input).mapError FileFault.message) with
      | .error report => (report, files)
      | .ok code =>
        match files.write p.target code medium with
        | .error (cause, left) => (Plan.unwritten cause, left)
        | .ok files' => (p.finish code, files')

end StackMachine.Command.Assembler
