import StackMachine.Assembly.Literal
import StackMachine.Assembly.Token
import StackMachine.Listing
import StackMachine.Text.Lines

/-!
# Assembly sources

A source is a text with one instruction to a line; lines without tokens are skipped.  An
instruction line is a mnemonic followed by a literal if the opcode has an immediate.  The first
line that is no instruction is the error, and it points at a token:

* the mnemonic, if no opcode has it or operands are missing;
* the first operand too many;
* the operand that is no literal of the immediate's width.
-/

namespace StackMachine.Assembly

/-- The number of operands that an opcode takes. -/
def arity (o : Opcode) : Nat := if o.width = 0 then 0 else 1

/-- An error at a token of a line. -/
def errorAt (line : Nat) (token : Token) (e : Error) : Error :=
  .assembly line token.column e.message

/-- The instruction of an opcode and its operand, if it takes one. -/
def instructionOf (line : Nat) (o : Opcode) : List Token → Result Instruction
  | [] => .ok (.ofOpcode o 0)
  | operand :: _ =>
    match Literal.parse operand.text o.width with
    | .ok value => .ok (.ofOpcode o value)
    | .error e => .error (errorAt line operand e)

/-- The instruction that the tokens of a line spell. -/
def parseLine (line : Nat) : List Token → Result Instruction
  | [] => .error (.assembly line 1 "missing opcode")
  | head :: operands =>
    match Opcode.parse head.text with
    | .error e => .error (errorAt line head e)
    | .ok o =>
      if operands.length = arity o then instructionOf line o operands
      else
        .error (errorAt line (operands[arity o]?.getD head)
          (.operandCount head.text (arity o) operands.length))

/-- The instructions of lines, the first of which has the number `line`. -/
def parseLines (line : Nat) : List (List Char) → Result (List Instruction)
  | [] => .ok []
  | l :: ls =>
    match Token.tokenize l with
    | [] => parseLines (line + 1) ls
    | token :: tokens =>
      match parseLine line (token :: tokens) with
      | .error e => .error e
      | .ok i => (parseLines (line + 1) ls).map (i :: ·)

/-- The instructions of a source. -/
def parse (source : String) : Result (List Instruction) :=
  parseLines 1 (Text.lines source.toList)

/-- The code of a source. -/
def assemble (source : String) : Result (List UInt8) := (parse source).map Listing.encode

@[simp] theorem parseLines_nil (line : Nat) : parseLines line [] = .ok [] := rfl

/-- A line without tokens is skipped. -/
theorem parseLines_blank {l : List Char} (h : Token.tokenize l = []) (line : Nat)
    (ls : List (List Char)) : parseLines line (l :: ls) = parseLines (line + 1) ls := by
  rw [parseLines, h]

/-- A line that spells an instruction comes first. -/
theorem parseLines_instruction {line : Nat} {l : List Char} {i : Instruction}
    (h : parseLine line (Token.tokenize l) = .ok i) (ls : List (List Char)) :
    parseLines line (l :: ls) = (parseLines (line + 1) ls).map (i :: ·) := by
  rw [parseLines]
  cases ht : Token.tokenize l with
  | nil =>
    rw [ht] at h
    exact absurd h (by simp [parseLine])
  | cons token tokens =>
    rw [ht] at h
    simp [h]

end StackMachine.Assembly
