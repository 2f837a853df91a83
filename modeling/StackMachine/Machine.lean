import StackMachine.Machine.Handler

/-!
# The machine

Loading code keeps the stack and the memory, so that programs can hand data to each other; a reset
empties both and keeps the code.  A run starts at the machine's position, wherever the last one left
it: past the instruction that ended the program, at the end of the code, or at the instruction that
failed.

A run fetches the byte at the position, moves over it and calls the byte's handler, until a handler
ends the program, one fails, or the code ends.  When a handler fails, the position goes back to the
byte that was fetched; the rest of the state stays as the handler left it.
-/

namespace StackMachine.Machine

/-- A machine without code, with an empty stack and a memory of zeros. -/
def fresh (c : Capacities) : Machine where
  capacities := c
  bytes := #[]
  position := 0
  stack := Stack.empty c.stack
  memory := Memory.zeros (UInt64.ofNat c.memory)
  status := .ready

/-- A machine with the given capacities, if they are within their ranges. -/
def create (c : Capacities) : Result Machine := c.validate.map fresh

/-- A machine with the default capacities. -/
instance : Inhabited Machine := ⟨fresh {}⟩

/-- Replace the code and go to its start. -/
def load (m : Machine) (code : List UInt8) : Machine :=
  { m with bytes := code.toArray, position := 0, status := .ready }

/-- Empty the stack and the memory and go to the start of the code. -/
def reset (m : Machine) : Machine :=
  { m with stack := m.stack.clear, memory := m.memory.clear, position := 0, status := .ready }

/-- Fetch the byte at the position, move over it and handle it. -/
def handleNext (m : Machine) (h : m.position < m.bytes.size) : EStateM.Result Error Machine Step :=
  (Handler.dispatch m.bytes[m.position]).run { m with position := m.position + 1 }

/-- The code, the capacities and the status are kept, and the position moves over the byte. -/
theorem keeps_handleNext (m : Machine) (h : m.position < m.bytes.size) :
    Keeps { m with position := m.position + 1 } (left (m.handleNext h)) :=
  Handler.steady_dispatch m.bytes[m.position] { m with position := m.position + 1 }

/-- After each instruction less code is left. -/
theorem left_lt_of_handleNext {m t : Machine} {h : m.position < m.bytes.size} {s : Step}
    (hs : m.handleNext h = .ok s t) : t.bytes.size - t.position < m.bytes.size - m.position := by
  have hk := keeps_handleNext m h
  rw [hs] at hk
  have hb : t.bytes = m.bytes := hk.bytes
  have hp : m.position + 1 ≤ t.position := hk.position_le
  rw [hb]
  omega

/-- Execute from the machine's position until the program ends. -/
def run (m : Machine) : Result (List UInt8) × Machine :=
  if h : m.position < m.bytes.size then
    match hs : m.handleNext h with
    | .ok .next t =>
      have := left_lt_of_handleNext hs
      run t
    | .ok (.output bytes) t => (.ok bytes, { t with status := .halted .returned })
    -- The handler may have moved over an immediate before it failed.
    | .error e t => (.error e, { t with position := m.position, status := .halted .faulted })
  else (.ok [], { m with status := .halted .exhausted })
termination_by m.bytes.size - m.position

/-- Run code from an empty stack and a memory of zeros. -/
def runFresh (m : Machine) (code : List UInt8) : Result (List UInt8) × Machine :=
  (m.reset.load code).run

/-- The bytes of memory from `offset` on. -/
def readMemory (m : Machine) (offset length : UInt64) : Result (List UInt8) :=
  m.memory.slice offset length

/-- Put bytes into memory. -/
def writeMemory (m : Machine) (offset : UInt64) (bs : List UInt8) : Result Unit × Machine :=
  match (onMemory (Memory.write offset bs)).run m with
  | .ok () t => (.ok (), t)
  | .error e t => (.error e, t)

@[simp] theorem code_load (m : Machine) (code : List UInt8) : (m.load code).code = code := rfl

@[simp] theorem words_reset (m : Machine) : m.reset.words = [] := by
  simp [reset, words]

/-! ## The steps of a run -/

/-- A run that starts at the end of the code has no output. -/
theorem run_of_size_le {m : Machine} (h : m.bytes.size ≤ m.position) :
    m.run = (.ok [], { m with status := .halted .exhausted }) := by
  rw [run, dif_neg (Nat.not_lt.2 h)]

/-- A run that starts within the code begins with the instruction there. -/
theorem run_of_lt {m : Machine} (h : m.position < m.bytes.size) :
    m.run =
      match m.handleNext h with
      | .ok .next t => t.run
      | .ok (.output bytes) t => (.ok bytes, { t with status := .halted .returned })
      | .error e t => (.error e, { t with position := m.position, status := .halted .faulted }) := by
  rw [run, dif_pos h]
  split
  · rename_i t hs
    show t.run = _
    rw [hs]
  · rename_i bytes t hs
    rw [hs]
  · rename_i e t hs
    rw [hs]

theorem run_of_next {m t : Machine} {h : m.position < m.bytes.size}
    (hs : m.handleNext h = .ok .next t) : m.run = t.run := by
  rw [run_of_lt h, hs]

theorem run_of_output {m t : Machine} {h : m.position < m.bytes.size} {bytes : List UInt8}
    (hs : m.handleNext h = .ok (.output bytes) t) :
    m.run = (.ok bytes, { t with status := .halted .returned }) := by
  rw [run_of_lt h, hs]

theorem run_of_error {m t : Machine} {h : m.position < m.bytes.size} {e : Error}
    (hs : m.handleNext h = .error e t) :
    m.run = (.error e, { t with position := m.position, status := .halted .faulted }) := by
  rw [run_of_lt h, hs]

/-- A run keeps the capacities that the machine was made with. -/
theorem capacities_run (m : Machine) : m.run.2.capacities = m.capacities := by
  fun_induction run m with
  | case1 m h t hs hlt ih =>
    have hk := keeps_handleNext m h
    rw [hs] at hk
    exact ih.trans hk.capacities
  | case2 m h bytes t hs =>
    have hk := keeps_handleNext m h
    rw [hs] at hk
    exact hk.capacities
  | case3 m h e t hs =>
    have hk := keeps_handleNext m h
    rw [hs] at hk
    exact hk.capacities
  | case4 m h => rfl

end StackMachine.Machine
