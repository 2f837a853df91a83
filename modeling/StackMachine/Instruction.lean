import StackMachine.Bytes
import StackMachine.Opcode

/-!
# Instructions

An instruction is an opcode together with its immediate value.  In code it is the opcode's byte
followed by the immediate, most significant byte first; in text it is the mnemonic followed by the
immediate in hexadecimal.

`decode` reads the instruction at the front of code; listings are made with it.
`decode_encode_append` and `eq_encode_append` say that it accepts exactly the encodings, whatever
follows them.
-/

namespace StackMachine

/-- An opcode with its immediate value. -/
inductive Instruction where
  | pop
  | push1 (value : UInt8)
  | push8 (value : UInt64)
  | add
  | sub
  | mul
  | div
  | store1
  | store8
  | load8
  | ret
deriving DecidableEq, Repr

namespace Instruction

/-- The opcode of an instruction. -/
def opcode : Instruction → Opcode
  | pop => .pop
  | push1 _ => .push1
  | push8 _ => .push8
  | add => .add
  | sub => .sub
  | mul => .mul
  | div => .div
  | store1 => .store1
  | store8 => .store8
  | load8 => .load8
  | ret => .ret

/-- The immediate value of an instruction that has one. -/
def operand? : Instruction → Option Nat
  | push1 value => some value.toNat
  | push8 value => some value.toNat
  | _ => none

/-- The instruction of an opcode and a value; an opcode without immediate ignores the value. -/
def ofOpcode (o : Opcode) (value : Nat) : Instruction :=
  match o with
  | .pop => pop
  | .push1 => push1 (UInt8.ofNat value)
  | .push8 => push8 (UInt64.ofNat value)
  | .add => add
  | .sub => sub
  | .mul => mul
  | .div => div
  | .store1 => store1
  | .store8 => store8
  | .load8 => load8
  | .ret => ret

/-- The number of bytes of an instruction. -/
def size (i : Instruction) : Nat := i.opcode.size

/-- The bytes of an instruction. -/
def encode (i : Instruction) : List UInt8 :=
  i.opcode.byte :: Bytes.bigEndian i.opcode.width (i.operand?.getD 0)

/-- The text of an instruction. -/
def text (i : Instruction) : List Char :=
  i.opcode.mnemonic.toList ++
    match i.operand? with
    | some value => ' ' :: '0' :: 'x' :: Text.hexadecimal value
    | none => []

/-- The instruction at the front of code that starts at `offset`, and the code after it. -/
def decode (offset : Nat) : List UInt8 → Result (Instruction × List UInt8)
  | [] => .error (.truncated offset 1 0)
  | b :: rest =>
    match Opcode.decode b offset with
    | .error e => .error e
    | .ok o =>
      let immediate := rest.take o.width
      if immediate.length = o.width then
        .ok (ofOpcode o (Bytes.value immediate), rest.drop o.width)
      else .error (.truncated (offset + 1) o.width immediate.length)

/-- The instruction at an offset of code, and the offset of the next one. -/
def decodeAt (code : List UInt8) (offset : Nat) : Result (Instruction × Nat) :=
  match decode offset (code.drop offset) with
  | .error e => .error e
  | .ok (i, _) => .ok (i, offset + i.size)

/-! ## Encoding and decoding -/

@[simp] theorem opcode_ofOpcode (o : Opcode) (value : Nat) : (ofOpcode o value).opcode = o := by
  cases o <;> rfl

@[simp] theorem ofOpcode_operand (i : Instruction) :
    ofOpcode i.opcode (i.operand?.getD 0) = i := by
  cases i <;> simp [ofOpcode, opcode, operand?]

@[simp] theorem length_encode (i : Instruction) : i.encode.length = i.size := by
  simp [encode, size, Opcode.size, Nat.add_comm]

theorem size_pos (i : Instruction) : 0 < i.size := i.opcode.size_pos

/-- The immediate of an instruction fits the opcode's width. -/
theorem operand_lt (i : Instruction) : i.operand?.getD 0 < Bytes.count i.opcode.width := by
  cases i <;> simp [operand?, opcode, Opcode.width, Bytes.count]
  · exact UInt8.toNat_lt _
  · exact UInt64.toNat_lt _

/-- The value of an immediate is the value of the bytes it was read from. -/
theorem operand_ofOpcode {o : Opcode} {value : Nat} (h : value < Bytes.count o.width) :
    (ofOpcode o value).operand?.getD 0 = value := by
  cases o <;> simp [ofOpcode, operand?, Opcode.width, Bytes.count] at h ⊢ <;> omega

/-- Decoding reads an encoding back and leaves what follows it. -/
theorem decode_encode_append (offset : Nat) (i : Instruction) (rest : List UInt8) :
    decode offset (i.encode ++ rest) = .ok (i, rest) := by
  have hw : (Bytes.bigEndian i.opcode.width (i.operand?.getD 0)).length = i.opcode.width := by
    simp
  simp only [encode, List.cons_append, decode, Opcode.decode, Opcode.ofByte?_byte]
  rw [List.take_left' hw, List.drop_left' hw, if_pos hw, Bytes.value_bigEndian,
    Nat.mod_eq_of_lt (operand_lt i), ofOpcode_operand]

/-- What was decoded is the encoding of the instruction followed by the rest. -/
theorem eq_encode_append {offset : Nat} {code rest : List UInt8} {i : Instruction}
    (h : decode offset code = .ok (i, rest)) : code = i.encode ++ rest := by
  cases code with
  | nil => simp [decode] at h
  | cons b bs =>
    cases hb : Opcode.ofByte? b with
    | none => simp [decode, Opcode.decode, hb] at h
    | some o =>
      simp only [decode, Opcode.decode, hb] at h
      split at h
      · rename_i hw
        simp only [Except.ok.injEq, Prod.mk.injEq] at h
        obtain ⟨rfl, rfl⟩ := h
        have hv := Bytes.value_lt (bs.take o.width)
        rw [hw] at hv
        have hbytes := Bytes.bigEndian_value (bs.take o.width)
        rw [hw] at hbytes
        rw [encode, opcode_ofOpcode, operand_ofOpcode hv, hbytes, List.cons_append,
          List.take_append_drop, Opcode.ofByte?_eq_some_iff.1 hb]
      · simp at h

/-- Decoding uses up code. -/
theorem length_lt_of_decode {offset : Nat} {code rest : List UInt8} {i : Instruction}
    (h : decode offset code = .ok (i, rest)) : rest.length < code.length := by
  rw [eq_encode_append h, List.length_append, length_encode]
  have := size_pos i
  omega

end Instruction

end StackMachine
