import StackMachine.Text.Numeral

/-!
# Errors

Every way in which the tools fail, as a cause with its data, and the one text that reports it.
Sizes and positions are plain numbers; a cause that quotes another report (an assembly error, a
file error) carries that report as text.
-/

namespace StackMachine

/-- The decimal text of a number, as a string. -/
def number (n : Nat) : String := String.ofList (Text.decimal n)

/-- Why an operation failed. -/
inductive Error where
  /-- The text names no opcode. -/
  | unknownMnemonic (mnemonic : String)
  /-- The byte at `offset` is no opcode. -/
  | undefinedOpcode (byte : UInt8) (offset : Nat)
  /-- A push on a stack that holds `capacity` words. -/
  | stackOverflow (capacity : Nat)
  /-- An operation that needs more words than the stack holds. -/
  | stackUnderflow (required available : Nat)
  /-- An access that ends past the memory's last byte. -/
  | outOfBounds (offset length capacity : Nat)
  /-- A division by zero. -/
  | divisionByZero
  /-- Code that ends inside an instruction. -/
  | truncated (position requested available : Nat)
  /-- A capacity that cannot be read or is outside its range. -/
  | invalidCapacity (reason : String)
  /-- An instruction line with too few or too many operands. -/
  | operandCount (instruction : String) (expected actual : Nat)
  /-- An operand that is no literal of `width` bytes. -/
  | invalidOperand (token : String) (width : Nat)
  /-- A source line that does not assemble, with the column of the token at fault. -/
  | assembly (line column : Nat) (cause : String)
  /-- A file that cannot be read or written. -/
  | file (path cause : String)
  /-- Bytes that a decoding does not show, or a decoding that does not exist. -/
  | undecodable (reason : String)
deriving DecidableEq, Repr

namespace Error

/-- The report of an error. -/
def message : Error → String
  | unknownMnemonic mnemonic => "unknown opcode: " ++ mnemonic
  | undefinedOpcode byte offset =>
    "undefined opcode 0x" ++ String.ofList (Text.byteHex byte) ++ " at offset " ++ number offset
  | stackOverflow capacity => "stack overflow (capacity " ++ number capacity ++ ")"
  | stackUnderflow required available =>
    "stack underflow: required " ++ number required ++ " operands, " ++ number available ++
      " available"
  | outOfBounds offset length capacity =>
    "memory access out of bounds: offset " ++ number offset ++ " + " ++ number length ++
      " bytes exceeds capacity " ++ number capacity
  | divisionByZero => "division by zero"
  | truncated position requested available =>
    "unexpected end of bytecode at " ++ number position ++ ": requested " ++ number requested ++
      " bytes, " ++ number available ++ " available"
  | invalidCapacity reason => "invalid configuration: " ++ reason
  | operandCount instruction expected actual =>
    "operand count mismatch for " ++ instruction ++ ": expected " ++ number expected ++ ", got " ++
      number actual
  | invalidOperand token width =>
    "invalid operand '" ++ token ++ "': expected an unsigned " ++ number width ++ "-byte integer"
  | assembly line column cause =>
    "line " ++ number line ++ ":" ++ number column ++ ": " ++ cause
  | file path cause => "io error on " ++ path ++ ": " ++ cause
  | undecodable reason => "decoding error: " ++ reason

/-- The line, the column and the cause of an assembly error. -/
def location? : Error → Option (Nat × Nat × String)
  | assembly line column cause => some (line, column, cause)
  | _ => none

end Error

/-- The result of an operation that may fail. -/
abbrev Result (α : Type) := Except Error α

namespace Result

variable {α β : Type} {f : α → β} {x : Result α}

theorem map_eq_ok_iff {b : β} : x.map f = .ok b ↔ ∃ a, x = .ok a ∧ f a = b := by
  cases x with
  | ok a => simp [Except.map]
  | error e => simp [Except.map]

theorem map_eq_error_iff {e : Error} : x.map f = .error e ↔ x = .error e := by
  cases x with
  | ok a => simp [Except.map]
  | error e => simp [Except.map]

end Result

end StackMachine
