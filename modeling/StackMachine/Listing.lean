import StackMachine.Instruction

/-!
# Listings

Code read as a list of instructions, and the text that shows them one to a line.  Code is read from
its start, one instruction after the other; the first place that cannot be read is the error.
-/

namespace StackMachine.Listing

/-- The instructions of code that starts at `offset`. -/
def instructions (offset : Nat) (code : List UInt8) : Result (List Instruction) :=
  match code with
  | [] => .ok []
  | b :: bs =>
    match h : Instruction.decode offset (b :: bs) with
    | .error e => .error e
    | .ok (i, rest) =>
      have : rest.length < (b :: bs).length := Instruction.length_lt_of_decode h
      (instructions (offset + i.size) rest).map (i :: ·)
termination_by code.length
decreasing_by exact this

/-- The text of a list of instructions, one to a line. -/
def render (is : List Instruction) : List Char := is.flatMap fun i => i.text ++ ['\n']

/-- The listing of code. -/
def disassemble (code : List UInt8) : Result String :=
  (instructions 0 code).map fun is => String.ofList (render is)

/-- The code of a list of instructions. -/
def encode (is : List Instruction) : List UInt8 := is.flatMap Instruction.encode

@[simp] theorem instructions_nil (offset : Nat) : instructions offset [] = .ok [] := by
  rw [instructions]

/-- Reading starts with the instruction at the front. -/
theorem instructions_encode_append (offset : Nat) (i : Instruction) (rest : List UInt8) :
    instructions offset (i.encode ++ rest) =
      (instructions (offset + i.size) rest).map (i :: ·) := by
  have hd := Instruction.decode_encode_append offset i rest
  rw [Instruction.encode, List.cons_append] at hd ⊢
  rw [instructions]
  split
  · rename_i e h
    rw [hd] at h
    exact absurd h (by simp)
  · rename_i j r h
    rw [hd] at h
    simp only [Except.ok.injEq, Prod.mk.injEq] at h
    obtain ⟨rfl, rfl⟩ := h
    rfl

/-- Encoded instructions are read back. -/
theorem instructions_encode (offset : Nat) (is : List Instruction) :
    instructions offset (encode is) = .ok is := by
  induction is generalizing offset with
  | nil => simp [encode]
  | cons i is ih =>
    rw [encode] at ih ⊢
    rw [List.flatMap_cons, instructions_encode_append, ih]
    rfl

/-- Code that can be read is the code of what was read. -/
theorem eq_encode_of_instructions {offset : Nat} {code : List UInt8} {is : List Instruction}
    (h : instructions offset code = .ok is) : code = encode is := by
  fun_induction instructions offset code generalizing is with
  | case1 offset =>
    obtain rfl := Except.ok.inj h
    rfl
  | case2 offset b bs e hd => exact absurd h (by simp)
  | case3 offset b bs i rest hd hlt ih =>
    obtain ⟨js, hr, rfl⟩ := Result.map_eq_ok_iff.1 h
    rw [Instruction.eq_encode_append hd, ih hr]
    rfl

end StackMachine.Listing
