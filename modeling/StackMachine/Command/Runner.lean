import StackMachine.Command.FileTree
import StackMachine.Command.Program
import StackMachine.Decoding
import StackMachine.Machine

/-!
# The runner

The command that runs a program and prints its output.  The first argument is the program's path;
options follow.  Capacities come from the environment and options override them; of an option that
is given twice the last one counts, and the first argument that is wrong ends the reading.

`plan` reads the arguments, `Plan.complete` goes on from the contents of the program's file, and
`run` puts both together on a file tree.
-/

namespace StackMachine.Command.Runner

/-- The usage of the command under a name. -/
def usage (program : String) : String :=
  paragraph [
    "Stack VM",
    "",
    "USAGE:",
    "    " ++ program ++ " <program> [OPTIONS]",
    "",
    "ARGS:",
    "    <program>    Assembly source (.asm, .s) or raw bytecode file",
    "",
    "OPTIONS:",
    "    --stack <words>       Operand stack capacity (default 32)",
    "    --memory <bytes>      Memory capacity, K/M/G suffixes allowed (default 64K)",
    "    --decode <format>     Print the result as u64, i64, hex or text (default u64)",
    "    --disassemble         Print the program as assembly and exit",
    "    -h, --help            Print this help message",
    "",
    "ENVIRONMENT:",
    "    STACKVM_STACK_CAPACITY     Stack capacity when --stack is absent",
    "    STACKVM_MEMORY_CAPACITY    Memory capacity when --memory is absent",
    "    STACKVM_LOG_TIMESTAMPS     Set to 0 to drop timestamps from log lines",
    "",
    "EXAMPLES:",
    "    # Assemble and run, printing the result as an unsigned integer",
    "    " ++ program ++ " program.asm",
    "",
    "    # Run bytecode produced by stackvm-asm with 4 GiB of memory",
    "    " ++ program ++ " program.bin --memory 4G --decode hex",
    "",
    "    # Show what a bytecode file contains",
    "    " ++ program ++ " program.bin --disassemble",
    ""]

/-- What the arguments ask for. -/
structure Plan where
  path : String
  capacities : Capacities
  decoding : Decoding := .unsigned
  disassemble : Bool := false
deriving DecidableEq, Repr

/-- The options that take a value. -/
inductive Flag where
  | stack
  | memory
  | decode
deriving DecidableEq, Repr

/-- The option that an argument names. -/
def Flag.ofArgument? : String → Option Flag
  | "--stack" => some .stack
  | "--memory" => some .memory
  | "--decode" => some .decode
  | _ => none

/-- The plan with the value of an option. -/
def Plan.apply (p : Plan) (value : String) : Flag → Result Plan
  | .stack =>
    (Capacities.parseSize value).map fun n =>
      { p with capacities := { p.capacities with stack := n } }
  | .memory =>
    (Capacities.parseSize value).map fun n =>
      { p with capacities := { p.capacities with memory := n } }
  | .decode => (Decoding.parse value).map fun d => { p with decoding := d }

/-- The report of an argument that is no option. -/
def unexpected (program argument : String) : Report :=
  .failure [.log .error ("Unexpected argument: " ++ argument ++ "\n"), .text (usage program)]

/-- The plan after the remaining arguments. -/
def options (program : String) (p : Plan) : List String → Except Report Plan
  | [] => .ok p
  | argument :: rest =>
    match Flag.ofArgument? argument with
    | some flag =>
      match rest with
      | [] => .error (.fail (argument ++ " requires an argument"))
      | value :: rest =>
        match p.apply value flag with
        | .error e => .error (.fail (argument ++ ": " ++ e.message))
        | .ok p => options program p rest
    | none =>
      if argument = "--disassemble" then options program { p with disassemble := true } rest
      else .error (unexpected program argument)

/-- What an invocation asks for, or the report that ends it. -/
def plan (i : Invocation) : Except Report Plan :=
  match i.arguments with
  | [] => .error ⟨1, "", [.text (usage i.program)]⟩
  | path :: rest =>
    if isHelp path then .error ⟨0, "", [.text (usage i.program)]⟩
    else
      match Capacities.ofEnvironment i.environment with
      | .error e => .error (.fail e.message)
      | .ok capacities => options i.program { path, capacities } rest

/-- The words of a stack in brackets. -/
def wordsText (ws : List UInt64) : String :=
  "[" ++ ", ".intercalate (ws.map fun w => number w.toNat) ++ "]"

namespace Plan

/-- The log line that opens a run. -/
def opening (p : Plan) (code : List UInt8) : Emission :=
  .log .info ("Running " ++ p.path ++ " (" ++ number code.length ++ " bytes, stack " ++
    number p.capacities.stack ++ " words, memory " ++ number p.capacities.memory ++ " bytes)")

/-- The report of the listing of code. -/
def list (code : List UInt8) : Report :=
  match Listing.disassemble code with
  | .ok listing => .success listing []
  | .error e => .fail ("Disassembly failed: " ++ e.message)

/-- The report of a finished run. -/
def finish (p : Plan) (result : Result (List UInt8)) (m : Machine) : Report :=
  match result with
  | .error e =>
    .failure [
      .log .warn ("vm fault at offset " ++ number m.position ++ ": " ++ e.message),
      .log .error ("Execution failed at offset " ++ number m.position ++ ": " ++ e.message)]
  | .ok bytes =>
    let warning :=
      if m.status = .halted .exhausted then
        [.log .warn ("Program ended without RETURN; final stack: " ++ wordsText m.words)]
      else []
    match p.decoding.decode bytes with
    | .ok text => .success (text ++ "\n") warning
    | .error e => .failure (warning ++ [.log .error e.message])

/-- The report of the execution of code. -/
def execute (p : Plan) (code : List UInt8) : Report :=
  match Machine.create p.capacities with
  | .error e => .fail e.message
  | .ok machine =>
    let (result, m) := (machine.load code).run
    (p.finish result m).after [p.opening code]

/-- The report of a plan, given the contents of the program's file. -/
def complete (p : Plan) (contents : Contents) : Report :=
  match loadProgram p.path contents with
  | .error (emissions, e) =>
    .failure (emissions ++ [.log .error ("Failed to load " ++ p.path ++ ": " ++ e.message)])
  | .ok code => if p.disassemble then list code else p.execute code

end Plan

/-- Run the command on a file tree. -/
def run (i : Invocation) (files : FileTree) : Report :=
  match plan i with
  | .error report => report
  | .ok p => p.complete ((files.read p.path).mapError FileFault.message)

end StackMachine.Command.Runner
