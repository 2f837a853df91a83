import StackMachine.Proofs.Session

/-!
# The engine with checked domains

The machine again, with every partial operation asked whether it is within its domain.  Nothing here
carries a proof of its own well-formedness: the stack is a list of slots and a number, and nothing
says that the number is not too large.  A subtraction, an index, a slice, a division or a sum of
addresses is demanded, and where it has no value the engine stops with `outside`, which is no error
that a machine reports.  So does an action that must not fail because of a check made before it, and
a turn of a loop that would bring the loop no closer to its end.

From the states that a machine can be in, `outside` never happens: whatever is asked of the checked
engine, it answers as the machine does.
-/

namespace StackMachine

/-- Why a checked action stops. -/
inductive Stop where
  /-- The engine reports an error. -/
  | error (e : Error)
  /-- A partial operation is applied outside its domain. -/
  | outside

/-- A change of a state that gives a value, reports an error or leaves a domain. -/
abbrev Checked (σ α : Type) := EStateM Stop σ α

namespace Checked

variable {σ α : Type}

/-- Report an error. -/
def fail (e : Error) : Checked σ α := fun s => .error (.error e) s

/-- The value of a partial operation. -/
def demand : Option α → Checked σ α
  | some a => pure a
  | none => fun s => .error .outside s

/-- An action that may not fail. -/
def must (x : Checked σ α) : Checked σ α := fun s =>
  match x s with
  | .ok a t => .ok a t
  | .error _ t => .error .outside t

/-! ## Partial operations -/

/-- The difference of two numbers. -/
def sub? (a b : Nat) : Option Nat := if b ≤ a then some (a - b) else none

/-- The quotient of two words. -/
def div? (a b : UInt64) : Option UInt64 := if b = 0 then none else some (a / b)

/-- The elements from `start` up to `stop`. -/
def slice? (l : List α) (start stop : Nat) : Option (List α) :=
  if start ≤ stop ∧ stop ≤ l.length then some ((l.drop start).take (stop - start)) else none

/-- The list with elements copied over those from `start` up to `stop`, as many as these are. -/
def copy? (l : List α) (start stop : Nat) (source : List α) : Option (List α) :=
  if start ≤ stop ∧ stop ≤ l.length ∧ source.length = stop - start then
    some (l.take start ++ source ++ l.drop stop)
  else none

/-- The page with bytes copied over those from `start` up to `stop`, as many as these are. -/
def copyPage? (p : Page) (start stop : Nat) (source : List UInt8) : Option Page :=
  if start ≤ stop ∧ stop ≤ pageSize ∧ source.length = stop - start then
    some (p.overwrite start source)
  else none

/-- An array of as many bytes as it takes. -/
def array? (width : Nat) (bs : List UInt8) : Option (Vector UInt8 width) :=
  if h : bs.length = width then some ⟨bs.toArray, h⟩ else none

/-! ## Memory -/

/-- The part of an access that starts `done` bytes into it and lies within one page. -/
def chunk? (offset : UInt64) (total done : Nat) : Option Span := do
  let address ← Memory.stop? offset done
  let start := (address % UInt64.ofNat pageSize).toNat
  let room ← sub? pageSize start
  let left ← sub? total done
  pure ⟨(address / UInt64.ofNat pageSize).toNat, start, min room left⟩

/-- Fill a buffer of `total` bytes from its byte `done` on. -/
def fill (pages : PageTable) (offset : UInt64) (total done : Nat) (buffer : List UInt8) :
    Option (List UInt8) :=
  if _ : done < total then do
    let span ← chunk? offset total done
    -- A chunk without a byte would be the next one again.
    if _ : 0 < span.length then
      let bytes ← slice? (pages.page span.page).toList span.start (span.start + span.length)
      let buffer ← copy? buffer done (done + span.length) bytes
      fill pages offset total (done + span.length) buffer
    else none
  else some buffer
termination_by total - done

/-- Put data into pages from its byte `done` on. -/
def commit (offset : UInt64) (data : List UInt8) (done : Nat) (pages : PageTable) :
    Option PageTable :=
  if _ : done < data.length then do
    let span ← chunk? offset data.length done
    if _ : 0 < span.length then
      let bytes ← slice? data done (done + span.length)
      let frame ← copyPage? (pages.page span.page) span.start (span.start + span.length) bytes
      commit offset data (done + span.length) (pages.insert span.page frame)
    else none
  else some pages
termination_by data.length - done

/-- Ask for an access to end within the memory. -/
def check (offset : UInt64) (length : Nat) : Checked Memory Unit := do
  let m ← get
  match m.check offset length with
  | .ok () => pure ()
  | .error e => fail e

/-- The `length` bytes from `offset` on. -/
def read (offset : UInt64) (length : Nat) : Checked Memory (List UInt8) := do
  check offset length
  let m ← get
  demand (fill m.pages offset length 0 (List.replicate length 0))

/-- Put bytes into the memory from `offset` on. -/
def write (offset : UInt64) (bs : List UInt8) : Checked Memory Unit := do
  check offset bs.length
  let m ← get
  let pages ← demand (commit offset bs 0 m.pages)
  set { m with pages }

/-- The word at `offset`. -/
def readWord (offset : UInt64) : Checked Memory UInt64 := do
  let bs ← read offset 8
  pure (UInt64.ofNat (Bytes.value bs))

/-- Put a word into the memory at `offset`. -/
def writeWord (offset w : UInt64) : Checked Memory Unit := write offset (Bytes.bigEndian 8 w.toNat)

/-- The bytes from `offset` on, as many as a word says. -/
def slice (offset length : UInt64) : Checked Memory (List UInt8) := do
  check offset length.toNat
  read offset length.toNat

end Checked

/-! ## The stack -/

/-- Slots for words and the number of live ones. -/
structure Cells where
  slots : List UInt64
  depth : Nat

namespace Cells

open Checked (fail demand sub? slice?)

/-- The word in a live slot. -/
def live? (s : Cells) (i : Nat) : Option UInt64 := if i < s.depth then s.slots[i]? else none

/-- The slots with another word in a live one. -/
def put? (s : Cells) (i : Nat) (w : UInt64) : Option (List UInt64) :=
  if i < s.depth ∧ i < s.slots.length then some (s.slots.set i w) else none

/-- The live words, bottom first. -/
def words? (s : Cells) : Option (List UInt64) := slice? s.slots 0 s.depth

/-- Ask for at least `n` live words. -/
def require (n : Nat) : Checked Cells Unit := do
  let s ← get
  if n ≤ s.depth then pure () else fail (.stackUnderflow n s.depth)

/-- The word `below` places under the top. -/
def peek (below : Nat) : Checked Cells UInt64 := do
  require (below + 1)
  let s ← get
  let top ← demand (sub? s.depth 1)
  let i ← demand (sub? top below)
  demand (s.live? i)

/-- Put a word on top. -/
def push (w : UInt64) : Checked Cells Unit := do
  let s ← get
  if s.depth < s.slots.length then set (Cells.mk (s.slots.set s.depth w) (s.depth + 1))
  else fail (.stackOverflow s.slots.length)

/-- Take the top word off. -/
def pop : Checked Cells UInt64 := do
  require 1
  let s ← get
  let depth ← demand (sub? s.depth 1)
  let top ← demand (s.live? depth)
  set { s with depth }
  pure top

/-- Take the two top words off; the lower one comes first. -/
def popTwo : Checked Cells (UInt64 × UInt64) := do
  require 2
  let s ← get
  let i ← demand (sub? s.depth 1)
  let top ← demand (s.live? i)
  let depth ← demand (sub? s.depth 2)
  let below ← demand (s.live? depth)
  set { s with depth }
  pure (below, top)

/-- Put a word in the place of the top word. -/
def replaceTop (w : UInt64) : Checked Cells Unit := do
  require 1
  let s ← get
  let i ← demand (sub? s.depth 1)
  let slots ← demand (s.put? i w)
  set { s with slots }

end Cells

/-! ## The machine -/

/-- A machine whose parts need not fit each other. -/
structure Bare where
  code : List UInt8
  position : Nat
  cells : Cells
  memory : Memory
  status : Status

namespace Bare

open Checked (fail demand must sub? div? slice? array?)

variable {α : Type}

/-- An action on the stack. -/
def onCells (x : Checked Cells α) : Checked Bare α := fun b =>
  match x b.cells with
  | .ok a cells => .ok a { b with cells }
  | .error e cells => .error e { b with cells }

/-- An action on the memory. -/
def onMemory (x : Checked Memory α) : Checked Bare α := fun b =>
  match x b.memory with
  | .ok a memory => .ok a { b with memory }
  | .error e memory => .error e { b with memory }

/-- Read the immediate at the position and move over it. -/
def readImmediate (width : Nat) : Checked Bare (Vector UInt8 width) := do
  let b ← get
  let stop := b.position + width
  if stop ≤ b.code.length then
    let bytes ← demand (slice? b.code b.position stop)
    let immediate ← demand (array? width bytes)
    set { b with position := stop }
    pure immediate
  -- A start past the end leaves no bytes; this difference is meant to stop at zero.
  else fail (.truncated b.position width (b.code.length - b.position))

/-- Fail with the byte before the position. -/
def undefined : Checked Bare Step := do
  let b ← get
  let offset ← demand (sub? b.position 1)
  let byte ← demand b.code[offset]?
  fail (.undefinedOpcode byte offset)

/-- Drop the top word. -/
def pop : Checked Bare Step := do
  let _ ← onCells Cells.pop
  pure .next

/-- Push a word made from the immediate. -/
def push (width : Nat) (word : Vector UInt8 width → UInt64) : Checked Bare Step := do
  let immediate ← readImmediate width
  onCells (Cells.push (word immediate))
  pure .next

/-- Replace the two top words by the result of an operation, which must have one. -/
def binary (f : UInt64 → UInt64 → Option UInt64) : Checked Bare Step := do
  let (left, right) ← onCells Cells.popTwo
  let w ← demand (f left right)
  -- The operands leave room for the result.
  must (onCells (Cells.push w))
  pure .next

/-- Quotient of the two top words. -/
def divide : Checked Bare Step := do
  onCells (Cells.require 2)
  let divisor ← must (onCells (Cells.peek 0))
  if divisor = 0 then fail .divisionByZero else binary div?

/-- Write the second word into memory, at the offset on top. -/
def store (write : UInt64 → UInt64 → Checked Memory Unit) : Checked Bare Step := do
  onCells (Cells.require 2)
  let offset ← must (onCells (Cells.peek 0))
  let value ← must (onCells (Cells.peek 1))
  onMemory (write offset value)
  -- Both words were asked for and looked at, and the write does not touch them.
  let _ ← must (onCells Cells.popTwo)
  pure .next

/-- Replace the offset on top by the word there. -/
def load : Checked Bare Step := do
  let offset ← onCells (Cells.peek 0)
  let value ← onMemory (Checked.readWord offset)
  must (onCells (Cells.replaceTop value))
  pure .next

/-- End the program with bytes of memory: the offset on top, their number below. -/
def finish : Checked Bare Step := do
  onCells (Cells.require 2)
  let offset ← must (onCells (Cells.peek 0))
  let size ← must (onCells (Cells.peek 1))
  let output ← onMemory (Checked.slice offset size)
  let _ ← must (onCells Cells.popTwo)
  pure (.output output)

/-- The checked handler of an opcode. -/
def ofOpcode : Opcode → Checked Bare Step
  | .pop => pop
  | .push1 => push 1 fun immediate => (immediate.get ⟨0, Nat.one_pos⟩).toUInt64
  | .push8 => push 8 fun immediate => UInt64.ofNat (Bytes.value immediate.toList)
  | .add => binary fun left right => some (left + right)
  | .sub => binary fun left right => some (left - right)
  | .mul => binary fun left right => some (left * right)
  | .div => divide
  | .store1 => store fun offset value => Checked.write offset [value.toUInt8]
  | .store8 => store Checked.writeWord
  | .load8 => load
  | .ret => finish

/-- The checked handler of a byte. -/
def ofByte (b : UInt8) : Checked Bare Step :=
  match Opcode.ofByte? b with
  | some o => ofOpcode o
  | none => undefined

/-- The checked handlers of all bytes. -/
def table : List (Checked Bare Step) := (List.range 256).map fun n => ofByte (UInt8.ofNat n)

/-- Fetch the byte at the position, move over it and handle it. -/
def handleNext : Checked Bare Step := do
  let b ← get
  let byte ← demand b.code[b.position]?
  set { b with position := b.position + 1 }
  let handler ← demand table[byte.toNat]?
  handler

/-- Execute from the position until the program ends. -/
def run (b : Bare) : Option (Result (List UInt8) × Bare) :=
  if b.position < b.code.length then
    match handleNext.run b with
    | .ok .next t =>
      -- A turn that uses up no code would be taken again and again.
      if _ : t.code.length - t.position < b.code.length - b.position then run t else none
    | .ok (.output bytes) t => some (.ok bytes, { t with status := .halted .returned })
    | .error (.error e) t =>
      some (.error e, { t with position := b.position, status := .halted .faulted })
    | .error .outside _ => none
  else some (.ok [], { b with status := .halted .exhausted })
termination_by b.code.length - b.position

/-- A machine without code, with no live word and a memory of zeros. -/
def fresh (c : Capacities) : Bare where
  code := []
  position := 0
  cells := ⟨List.replicate c.stack 0, 0⟩
  memory := Memory.zeros (UInt64.ofNat c.memory)
  status := .ready

/-- Replace the code and go to its start. -/
def reload (b : Bare) (code : List UInt8) : Bare := { b with code, position := 0, status := .ready }

/-- Drop all words and pages and go to the start of the code. -/
def reset (b : Bare) : Bare :=
  { b with
    cells := { b.cells with depth := 0 }
    memory := b.memory.clear
    position := 0
    status := .ready }

/-- The answer of an action and the machine after it. -/
def answer (x : Checked Bare α) (b : Bare) : Option (Result α × Bare) :=
  match x.run b with
  | .ok a t => some (.ok a, t)
  | .error (.error e) t => some (.error e, t)
  | .error .outside _ => none

/-- The answer to an operation and the machine after it. -/
def perform (b : Bare) : Operation → Option (Result (List UInt8) × Bare)
  | .load code => some (.ok [], b.reload code)
  | .run => b.run
  | .reset => some (.ok [], b.reset)
  | .runFresh code => (b.reset.reload code).run
  | .readMemory offset length => answer (onMemory (Checked.slice offset length)) b
  | .writeMemory offset bytes =>
    answer (do onMemory (Checked.write offset bytes); pure []) b

/-- The answers to operations, one after the other, and the machine after the last. -/
def drive (b : Bare) : List Operation → Option (List (Result (List UInt8)) × Bare)
  | [] => some ([], b)
  | op :: ops => do
    let first ← b.perform op
    let rest ← first.2.drive ops
    pure (first.1 :: rest.1, rest.2)

end Bare

end StackMachine
