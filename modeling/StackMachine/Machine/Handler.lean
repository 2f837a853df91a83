import StackMachine.Machine.State
import StackMachine.Opcode

/-!
# Instruction handlers

What single instructions do.  A handler runs with the position just past the opcode's byte; it reads
the immediate, if the opcode has one, and moves the position over it.

Operands stand on the stack in the order in which they were pushed: the left operand of an
arithmetic instruction lies below the right one, a store and a return take their offset from the
top and the value or the size from below it.  Arithmetic wraps modulo `2 ^ 64`.

Handlers are found in a table with an entry for each byte.  Bytes that are no opcode share one
handler, which fails: `dispatch_byte` and `dispatch_of_undefined`.
-/

namespace StackMachine

/-- What an instruction that succeeds leads to. -/
inductive Step where
  /-- Go on with the next instruction. -/
  | next
  /-- End the program with these bytes. -/
  | output (bytes : List UInt8)
deriving DecidableEq, Repr

/-- What the machine does for an opcode. -/
abbrev Handler := Action Machine Step

namespace Handler

open Machine (onStack onMemory)

/-- Read the immediate at the position and move over it. -/
def readImmediate (width : Nat) : Action Machine (Vector UInt8 width) := fun m =>
  let start := m.position
  if h : start + width ≤ m.bytes.size then
    .ok ⟨m.bytes.extract start (start + width), by rw [Array.size_extract]; omega⟩
      { m with position := start + width }
  else .error (.truncated start width (m.bytes.size - start)) m

/-- Fail with the byte before the position. -/
def undefined : Handler := do
  let m ← get
  let offset := m.position - 1
  Action.fail (.undefinedOpcode (m.bytes.getD offset 0) offset)

/-- Drop the top word. -/
def pop : Handler := do
  let _ ← onStack Stack.pop
  pure .next

/-- Push a word made from the immediate. -/
def push (width : Nat) (word : Vector UInt8 width → UInt64) : Handler := do
  let immediate ← readImmediate width
  onStack (Stack.push (word immediate))
  pure .next

/-- Replace the two top words by the result of an operation. -/
def binary (f : UInt64 → UInt64 → UInt64) : Handler := do
  let (left, right) ← onStack Stack.popTwo
  onStack (Stack.push (f left right))
  pure .next

/-- Quotient of the two top words. -/
def divide : Handler := do
  Action.look (·.stack.require 2)
  -- The divisor is only looked at: a division by zero leaves both words.
  let divisor ← Action.look (·.stack.peek 0)
  if divisor = 0 then Action.fail .divisionByZero else binary (· / ·)

/-- Write the second word into memory, at the offset on top. -/
def store (write : UInt64 → UInt64 → Action Memory Unit) : Handler := do
  Action.look (·.stack.require 2)
  let offset ← Action.look (·.stack.peek 0)
  let value ← Action.look (·.stack.peek 1)
  -- A write that is out of bounds fails here, with both words still on the stack.
  onMemory (write offset value)
  let _ ← onStack Stack.popTwo
  pure .next

/-- Replace the offset on top by the word there. -/
def load : Handler := do
  let offset ← Action.look (·.stack.peek 0)
  let value ← Action.look (·.memory.readWord offset)
  onStack (Stack.replaceTop value)
  pure .next

/-- End the program with bytes of memory: the offset on top, their number below. -/
def finish : Handler := do
  Action.look (·.stack.require 2)
  let offset ← Action.look (·.stack.peek 0)
  let size ← Action.look (·.stack.peek 1)
  -- The words are dropped only once the output has been read.
  let output ← Action.look (·.memory.slice offset size)
  let _ ← onStack Stack.popTwo
  pure (.output output)

/-- The handler of an opcode. -/
def ofOpcode : Opcode → Handler
  | .pop => pop
  | .push1 => push 1 fun immediate => (immediate.get ⟨0, Nat.one_pos⟩).toUInt64
  | .push8 => push 8 fun immediate => UInt64.ofNat (Bytes.value immediate.toList)
  | .add => binary (· + ·)
  | .sub => binary (· - ·)
  | .mul => binary (· * ·)
  | .div => divide
  | .store1 => store fun offset value => Memory.write offset [value.toUInt8]
  | .store8 => store Memory.writeWord
  | .load8 => load
  | .ret => finish

/-- The table with the handler of an opcode at the opcode's byte. -/
def install (t : Vector Handler 256) (o : Opcode) : Vector Handler 256 :=
  have := o.byte.toNat_lt
  t.set o.byte.toNat (ofOpcode o)

/-- The handlers of all bytes. -/
def table : Vector Handler 256 := Opcode.all.foldl install (Vector.replicate 256 undefined)

/-- The handler of a byte. -/
def dispatch (b : UInt8) : Handler :=
  have := b.toNat_lt
  table[b.toNat]

/-! ## The table -/

/-- Installing handlers of other bytes leaves an entry alone. -/
theorem getElem_foldl_install {i : Nat} (hi : i < 256) (os : List Opcode)
    (h : ∀ o ∈ os, o.byte.toNat ≠ i) (t : Vector Handler 256) :
    (os.foldl install t)[i] = t[i] := by
  induction os generalizing t with
  | nil => rfl
  | cons o os ih =>
    have ho := h o List.mem_cons_self
    rw [List.foldl_cons, ih fun p hp => h p (List.mem_cons_of_mem _ hp)]
    exact Vector.getElem_set_ne o.byte.toNat_lt hi ho

/-- The last handler that was installed for a byte is its entry. -/
theorem getElem_foldl_install_byte {o : Opcode} (hi : o.byte.toNat < 256) (os : List Opcode)
    (h : o ∈ os) (t : Vector Handler 256) :
    (os.foldl install t)[o.byte.toNat] = ofOpcode o := by
  induction os generalizing t with
  | nil => exact absurd h List.not_mem_nil
  | cons p os ih =>
    rw [List.foldl_cons]
    by_cases hmem : o ∈ os
    · exact ih hmem _
    · -- Nothing is installed at this byte after `p`, because no later opcode has it.
      obtain rfl : o = p := (List.mem_cons.1 h).resolve_right hmem
      have hne : ∀ q ∈ os, q.byte.toNat ≠ o.byte.toNat := by
        intro q hq hb
        have hqo : q = o := Opcode.byte_injective (UInt8.toNat_inj.1 hb)
        exact hmem (hqo ▸ hq)
      rw [getElem_foldl_install hi os hne]
      exact Vector.getElem_set_self hi

theorem dispatch_byte (o : Opcode) : dispatch o.byte = ofOpcode o :=
  getElem_foldl_install_byte o.byte.toNat_lt Opcode.all (Opcode.mem_all o) _

theorem dispatch_of_undefined {b : UInt8} (h : Opcode.ofByte? b = none) :
    dispatch b = undefined := by
  have hne : ∀ o ∈ Opcode.all, o.byte.toNat ≠ b.toNat := by
    intro o _ ho
    rw [← UInt8.toNat_inj.1 ho, Opcode.ofByte?_byte] at h
    exact absurd h (by simp)
  have hi := b.toNat_lt
  rw [dispatch, table, getElem_foldl_install hi _ hne, Vector.getElem_replicate]

/-! ## What handlers keep -/

open Machine (Steady)

theorem steady_readImmediate (width : Nat) : Steady (readImmediate width) := by
  intro m
  simp only [EStateM.run, readImmediate]
  split
  · exact ⟨rfl, rfl, rfl, Nat.le_add_right _ _⟩
  · exact Machine.Keeps.refl m

theorem steady_undefined : Steady undefined :=
  .bind (fun m => Machine.Keeps.refl m) fun _ => .fail _

theorem steady_push (width : Nat) (word : Vector UInt8 width → UInt64) :
    Steady (push width word) :=
  .bind (steady_readImmediate width) fun _ => .bind (.onStack _) fun _ => .pure _

theorem steady_binary (f : UInt64 → UInt64 → UInt64) : Steady (binary f) :=
  .bind (.onStack _) fun _ => .bind (.onStack _) fun _ => .pure _

theorem steady_divide : Steady divide := by
  refine .bind (.look _) fun _ => .bind (.look _) fun divisor => ?_
  split
  · exact .fail _
  · exact steady_binary _

theorem steady_store (write : UInt64 → UInt64 → Action Memory Unit) : Steady (store write) :=
  .bind (.look _) fun _ => .bind (.look _) fun _ => .bind (.look _) fun _ =>
    .bind (.onMemory _) fun _ => .bind (.onStack _) fun _ => .pure _

theorem steady_ofOpcode (o : Opcode) : Steady (ofOpcode o) := by
  cases o with
  | pop => exact .bind (.onStack _) fun _ => .pure _
  | push1 => exact steady_push _ _
  | push8 => exact steady_push _ _
  | add => exact steady_binary _
  | sub => exact steady_binary _
  | mul => exact steady_binary _
  | div => exact steady_divide
  | store1 => exact steady_store _
  | store8 => exact steady_store _
  | load8 =>
    exact .bind (.look _) fun _ => .bind (.look _) fun _ => .bind (.onStack _) fun _ => .pure _
  | ret =>
    exact .bind (.look _) fun _ => .bind (.look _) fun _ => .bind (.look _) fun _ =>
      .bind (.look _) fun _ => .bind (.onStack _) fun _ => .pure _

/-- No handler touches the code, the capacities or the status, or moves back. -/
theorem steady_dispatch (b : UInt8) : Steady (dispatch b) := by
  cases h : Opcode.ofByte? b with
  | none =>
    rw [dispatch_of_undefined h]
    exact steady_undefined
  | some o =>
    rw [Opcode.ofByte?_eq_some_iff.1 h, dispatch_byte]
    exact steady_ofOpcode o

end Handler

end StackMachine
