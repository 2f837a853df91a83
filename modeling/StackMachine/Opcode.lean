import StackMachine.Error

/-!
# Opcodes

The eleven operations of the machine, each with its byte, its mnemonic and the number of immediate
bytes that follow it in code.  Bytes and mnemonics identify an opcode: `ofByte?_eq_some_iff` and
`ofMnemonic?_eq_some_iff`.
-/

namespace StackMachine

/-- An operation of the machine. -/
inductive Opcode where
  /-- Drop the top word. -/
  | pop
  /-- Push an immediate byte. -/
  | push1
  /-- Push an immediate word. -/
  | push8
  /-- Sum of the two top words. -/
  | add
  /-- Difference of the two top words. -/
  | sub
  /-- Product of the two top words. -/
  | mul
  /-- Quotient of the two top words. -/
  | div
  /-- Store the low byte of a word. -/
  | store1
  /-- Store a word. -/
  | store8
  /-- Load a word. -/
  | load8
  /-- End the program with bytes of memory as its output. -/
  | ret
deriving DecidableEq, Repr

namespace Opcode

/-- All opcodes, in the order of their bytes. -/
def all : List Opcode :=
  [pop, push1, push8, add, sub, mul, div, store1, store8, load8, ret]

/-- The byte that stands for an opcode in code. -/
def byte : Opcode → UInt8
  | pop => 0x00
  | push1 => 0x01
  | push8 => 0x02
  | add => 0x10
  | sub => 0x11
  | mul => 0x12
  | div => 0x13
  | store1 => 0x20
  | store8 => 0x21
  | load8 => 0x22
  | ret => 0x30

/-- The name of an opcode in assembly text. -/
def mnemonic : Opcode → String
  | pop => "POP"
  | push1 => "PUSH1"
  | push8 => "PUSH8"
  | add => "ADD"
  | sub => "SUB"
  | mul => "MUL"
  | div => "DIV"
  | store1 => "STORE1"
  | store8 => "STORE8"
  | load8 => "LOAD8"
  | ret => "RETURN"

/-- The number of immediate bytes after the opcode. -/
def width : Opcode → Nat
  | push1 => 1
  | push8 => 8
  | _ => 0

/-- The number of bytes of an instruction with this opcode. -/
def size (o : Opcode) : Nat := 1 + o.width

/-- The opcode that a byte stands for. -/
def ofByte? (b : UInt8) : Option Opcode := all.find? (·.byte == b)

/-- The opcode that a text names; mnemonics are exact. -/
def ofMnemonic? (s : String) : Option Opcode := all.find? (·.mnemonic == s)

/-- The opcode at an offset of code, given its byte. -/
def decode (b : UInt8) (offset : Nat) : Result Opcode :=
  match ofByte? b with
  | some o => .ok o
  | none => .error (.undefinedOpcode b offset)

/-- The opcode that a text names, or an error that quotes the text. -/
def parse (s : String) : Result Opcode :=
  match ofMnemonic? s with
  | some o => .ok o
  | none => .error (.unknownMnemonic s)

/-- An instruction has at least its opcode byte. -/
theorem size_pos (o : Opcode) : 0 < o.size := by
  rw [size]
  omega

/-- Every opcode is in the table. -/
theorem mem_all (o : Opcode) : o ∈ all := by
  cases o <;> decide

@[simp] theorem ofByte?_byte (o : Opcode) : ofByte? o.byte = some o := by
  cases o <;> rfl

@[simp] theorem ofMnemonic?_mnemonic (o : Opcode) : ofMnemonic? o.mnemonic = some o := by
  cases o <;> decide

/-- A byte stands for at most one opcode. -/
theorem ofByte?_eq_some_iff {b : UInt8} {o : Opcode} : ofByte? b = some o ↔ b = o.byte := by
  constructor
  · intro h
    have hb := List.find?_some (p := fun o : Opcode => o.byte == b) h
    exact (eq_of_beq hb).symm
  · rintro rfl
    exact ofByte?_byte o

/-- Different opcodes have different bytes. -/
theorem byte_injective {o p : Opcode} (h : o.byte = p.byte) : o = p := by
  have ho := ofByte?_byte o
  rw [h, ofByte?_byte] at ho
  exact (Option.some.inj ho).symm

/-- A text names at most one opcode. -/
theorem ofMnemonic?_eq_some_iff {s : String} {o : Opcode} :
    ofMnemonic? s = some o ↔ s = o.mnemonic := by
  constructor
  · intro h
    have hs := List.find?_some (p := fun o : Opcode => o.mnemonic == s) h
    exact (eq_of_beq hs).symm
  · rintro rfl
    exact ofMnemonic?_mnemonic o

end Opcode

end StackMachine
