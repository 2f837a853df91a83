import StackMachine.Machine
import StackMachine.Proofs.FlatMemory

/-!
# The reference machine

The rules of the machine in their plainest form.  The stack is a list of words, top first, and the
memory is a list of bytes; there are no slots, no pages and no table of handlers.  An instruction is
read off the code at the position, and `effect` says for each opcode what it does to the two lists.

Which error an instruction has is fixed by the order of the questions:

* is the byte an opcode;
* does the code hold the whole immediate;
* does the stack hold the operands, or have room for a push;
* is the divisor zero, does the access end within the memory.

Arithmetic is that of the integers, wrapped to a word once at the end.  A failing instruction has no
effect at all: `effect` gives an error in place of new lists.
-/

namespace StackMachine

/-- A machine with a list of words, top first, and a list of bytes, by address. -/
@[ext] structure Reference where
  capacities : Capacities
  code : List UInt8
  position : Nat
  stack : List UInt64
  memory : List UInt8
  status : Status

namespace Reference

/-- What an instruction that succeeds does. -/
inductive Effect where
  /-- Go on with these words and bytes. -/
  | next (stack : List UInt64) (memory : List UInt8)
  /-- End the program with this output, and with these words left. -/
  | output (bytes : List UInt8) (stack : List UInt64)

/-- The number of words that an opcode takes off the stack. -/
def operands : Opcode → Nat
  | .push1 | .push8 => 0
  | .pop | .load8 => 1
  | _ => 2

/-- The word that an operation on integers makes of two words. -/
def wrapped (f : Int → Int → Int) (below top : UInt64) : UInt64 :=
  UInt64.ofInt (f below.toNat top.toNat)

/-- The effect of an opcode with an immediate on words and bytes. -/
def effect (c : Capacities) (immediate : Nat) (memory : List UInt8) :
    Opcode → List UInt64 → Result Effect
  | .push1, ws | .push8, ws =>
    if ws.length < c.stack then .ok (.next (UInt64.ofNat immediate :: ws) memory)
    else .error (.stackOverflow c.stack)
  | .pop, _ :: ws => .ok (.next ws memory)
  | .add, top :: below :: ws => .ok (.next (wrapped (· + ·) below top :: ws) memory)
  | .sub, top :: below :: ws => .ok (.next (wrapped (· - ·) below top :: ws) memory)
  | .mul, top :: below :: ws => .ok (.next (wrapped (· * ·) below top :: ws) memory)
  | .div, top :: below :: ws =>
    if top = 0 then .error .divisionByZero
    else .ok (.next (wrapped (· / ·) below top :: ws) memory)
  | .store1, offset :: value :: ws =>
    (Flat.write memory offset.toNat (Bytes.bigEndian 1 value.toNat)).map (.next ws)
  | .store8, offset :: value :: ws =>
    (Flat.write memory offset.toNat (Bytes.bigEndian 8 value.toNat)).map (.next ws)
  | .load8, offset :: ws =>
    (Flat.read memory offset.toNat 8).map fun bs =>
      .next (UInt64.ofNat (Bytes.value bs) :: ws) memory
  | .ret, offset :: size :: ws =>
    (Flat.read memory offset.toNat size.toNat).map fun bs => .output bs ws
  | o, ws => .error (.stackUnderflow (operands o) ws.length)

/-- The value of the immediate of an opcode, whose bytes start at `start`. -/
def immediate (code : List UInt8) (start : Nat) (o : Opcode) : Result Nat :=
  if start + o.width ≤ code.length then .ok (Bytes.value ((code.drop start).take o.width))
  else .error (.truncated start o.width (code.length - start))

/-- The effect of an opcode at the position. -/
def effectAt (r : Reference) (o : Opcode) : Result Effect := do
  let value ← immediate r.code (r.position + 1) o
  effect r.capacities value r.memory o r.stack

/-- The opcode that a byte at the position stands for, and its effect. -/
def instruct (r : Reference) (b : UInt8) : Result (Opcode × Effect) :=
  match Opcode.ofByte? b with
  | some o => (r.effectAt o).map (o, ·)
  | none => .error (.undefinedOpcode b r.position)

/-- Execute from the position until the program ends. -/
def run (r : Reference) : Result (List UInt8) × Reference :=
  if h : r.position < r.code.length then
    match r.instruct r.code[r.position] with
    | .ok (o, .next stack memory) =>
      have : 0 < o.size := o.size_pos
      run { r with stack, memory, position := r.position + o.size }
    | .ok (o, .output bytes stack) =>
      (.ok bytes,
        { r with stack, position := r.position + o.size, status := .halted .returned })
    | .error e => (.error e, { r with status := .halted .faulted })
  else (.ok [], { r with status := .halted .exhausted })
termination_by r.code.length - r.position

/-- A machine without code, with no words and a memory of zeros. -/
def fresh (c : Capacities) : Reference where
  capacities := c
  code := []
  position := 0
  stack := []
  memory := List.replicate c.memory 0
  status := .ready

/-- Replace the code and go to its start. -/
def load (r : Reference) (code : List UInt8) : Reference :=
  { r with code, position := 0, status := .ready }

/-- Drop all words, make all bytes zero and go to the start of the code. -/
def reset (r : Reference) : Reference :=
  { r with
    stack := []
    memory := List.replicate r.capacities.memory 0
    position := 0
    status := .ready }

/-- Run code from an empty stack and a memory of zeros. -/
def runFresh (r : Reference) (code : List UInt8) : Result (List UInt8) × Reference :=
  (r.reset.load code).run

/-- The bytes of memory from `offset` on. -/
def readMemory (r : Reference) (offset length : UInt64) : Result (List UInt8) :=
  Flat.read r.memory offset.toNat length.toNat

/-- Put bytes into memory; a write that fails changes nothing. -/
def writeMemory (r : Reference) (offset : UInt64) (bs : List UInt8) : Result Unit × Reference :=
  match Flat.write r.memory offset.toNat bs with
  | .ok memory => (.ok (), { r with memory })
  | .error e => (.error e, r)

theorem writeMemory_of_ok {r : Reference} {offset : UInt64} {bs memory : List UInt8}
    (h : Flat.write r.memory offset.toNat bs = .ok memory) :
    r.writeMemory offset bs = (.ok (), { r with memory }) := by
  rw [writeMemory, h]

theorem writeMemory_of_error {r : Reference} {offset : UInt64} {bs : List UInt8} {e : Error}
    (h : Flat.write r.memory offset.toNat bs = .error e) :
    r.writeMemory offset bs = (.error e, r) := by
  rw [writeMemory, h]

/-! ## Immediates and operands -/

theorem immediate_of_width_eq_zero {o : Opcode} (h : o.width = 0) {code : List UInt8} {start : Nat}
    (hs : start ≤ code.length) : immediate code start o = .ok 0 := by
  rw [immediate, h, Nat.add_zero, if_pos hs, List.take_zero, Bytes.value_nil]

/-- An opcode with too few words to take off the stack fails. -/
theorem effect_of_short {o : Opcode} {ws : List UInt64} (h : ws.length < operands o)
    (c : Capacities) (value : Nat) (memory : List UInt8) :
    effect c value memory o ws = .error (.stackUnderflow (operands o) ws.length) := by
  match o, ws with
  | .push1, _ | .push8, _ => exact absurd h (Nat.not_lt_zero _)
  | .pop, [] | .load8, [] => rfl
  | .pop, _ :: _ | .load8, _ :: _ => exact absurd h (by simp [operands])
  -- Two operands are missing, or one of two.
  | .add, [] | .sub, [] | .mul, [] | .div, [] | .store1, [] | .store8, [] | .ret, [] => rfl
  | .add, [_] | .sub, [_] | .mul, [_] | .div, [_] | .store1, [_] | .store8, [_] | .ret, [_] => rfl
  | .add, _ :: _ :: _ | .sub, _ :: _ :: _ | .mul, _ :: _ :: _ | .div, _ :: _ :: _
  | .store1, _ :: _ :: _ | .store8, _ :: _ :: _ | .ret, _ :: _ :: _ =>
    exact absurd h (by simp [operands])

/-! ## What an instruction takes -/

variable {r : Reference} {b : UInt8} {o : Opcode}

/-- With its immediate read, an instruction has the effect of its opcode. -/
theorem instruct_of_immediate {value : Nat} (ho : Opcode.ofByte? b = some o)
    (hv : immediate r.code (r.position + 1) o = .ok value) :
    r.instruct b = (effect r.capacities value r.memory o r.stack).map (o, ·) := by
  rw [instruct, ho]
  show (r.effectAt o).map (o, ·) = _
  rw [effectAt, hv]
  rfl

/-- An instruction whose immediate cannot be read fails, whatever the words and the bytes. -/
theorem instruct_of_immediate_error {e : Error} (ho : Opcode.ofByte? b = some o)
    (hv : immediate r.code (r.position + 1) o = .error e) : r.instruct b = .error e := by
  rw [instruct, ho]
  show (r.effectAt o).map (o, ·) = _
  rw [effectAt, hv]
  rfl

/-- An instruction succeeds exactly if its byte is an opcode, its immediate can be read and the
opcode's effect is defined. -/
theorem instruct_eq_ok_iff {f : Effect} :
    r.instruct b = .ok (o, f) ↔
      Opcode.ofByte? b = some o ∧ ∃ value, immediate r.code (r.position + 1) o = .ok value ∧
        effect r.capacities value r.memory o r.stack = .ok f := by
  constructor
  · intro h
    cases ho : Opcode.ofByte? b with
    | none =>
      rw [instruct, ho] at h
      exact absurd h (by simp)
    | some p =>
      cases hv : immediate r.code (r.position + 1) p with
      | error e =>
        rw [instruct_of_immediate_error ho hv] at h
        exact absurd h (by simp)
      | ok value =>
        rw [instruct_of_immediate ho hv] at h
        obtain ⟨g, hf, hg⟩ := Result.map_eq_ok_iff.1 h
        obtain ⟨rfl, rfl⟩ := Prod.mk.inj hg
        exact ⟨rfl, value, hv, hf⟩
  · rintro ⟨ho, value, hv, hf⟩
    rw [instruct_of_immediate ho hv, hf]
    rfl

/-! ## The steps of a run -/

theorem run_of_length_le {r : Reference} (h : r.code.length ≤ r.position) :
    r.run = (.ok [], { r with status := .halted .exhausted }) := by
  rw [run, dif_neg (Nat.not_lt.2 h)]

variable {stack : List UInt64}

theorem run_of_next {h : r.position < r.code.length} {memory : List UInt8}
    (hi : r.instruct r.code[r.position] = .ok (o, .next stack memory)) :
    r.run = run { r with stack, memory, position := r.position + o.size } := by
  rw [run, dif_pos h, hi]

theorem run_of_output {h : r.position < r.code.length} {bytes : List UInt8}
    (hi : r.instruct r.code[r.position] = .ok (o, .output bytes stack)) :
    r.run = (.ok bytes,
      { r with stack, position := r.position + o.size, status := .halted .returned }) := by
  rw [run, dif_pos h, hi]

theorem run_of_error {h : r.position < r.code.length} {e : Error}
    (hi : r.instruct r.code[r.position] = .error e) :
    r.run = (.error e, { r with status := .halted .faulted }) := by
  rw [run, dif_pos h, hi]

/-! ## What a run keeps -/

theorem capacities_run (r : Reference) : r.run.2.capacities = r.capacities := by
  fun_induction run r with
  | case1 r h o stack memory hi hs ih => exact ih
  | case2 r h o bytes stack hi => rfl
  | case3 r h e hi => rfl
  | case4 r h => rfl

theorem code_run (r : Reference) : r.run.2.code = r.code := by
  fun_induction run r with
  | case1 r h o stack memory hi hs ih => exact ih
  | case2 r h o bytes stack hi => rfl
  | case3 r h e hi => rfl
  | case4 r h => rfl

/-- A run never moves back behind the position where it starts. -/
theorem position_le_run (r : Reference) : r.position ≤ r.run.2.position := by
  fun_induction run r with
  | case1 r h o stack memory hi hs ih => exact Nat.le_trans (Nat.le_add_right _ _) ih
  | case2 r h o bytes stack hi => exact Nat.le_add_right _ _
  | case3 r h e hi => exact Nat.le_refl _
  | case4 r h => exact Nat.le_refl _

end Reference

end StackMachine
