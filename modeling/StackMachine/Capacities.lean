import StackMachine.Environment
import StackMachine.Error
import StackMachine.Text.Size

/-!
# Capacities

How many words the stack and how many bytes the memory of a machine may hold.  Both have a range;
the stack's is checked first.  Capacities come from the defaults, from the environment and from
options, in this order; texts are read as sizes.
-/

namespace StackMachine

/-- The number of words of a stack and the number of bytes of a memory. -/
structure Capacities where
  stack : Nat := 32
  memory : Nat := 65536
deriving DecidableEq, Repr

namespace Capacities

/-- The largest number of stack words. -/
def maxStack : Nat := 1048576

/-- The largest number of memory bytes. -/
def maxMemory : Nat := 4294967296

/-- The variable that sets the number of stack words. -/
def stackVariable : String := "STACKVM_STACK_CAPACITY"

/-- The variable that sets the number of memory bytes. -/
def memoryVariable : String := "STACKVM_MEMORY_CAPACITY"

/-- Both capacities are within their ranges. -/
def Valid (c : Capacities) : Prop :=
  (1 ≤ c.stack ∧ c.stack ≤ maxStack) ∧ (1 ≤ c.memory ∧ c.memory ≤ maxMemory)

instance (c : Capacities) : Decidable c.Valid :=
  inferInstanceAs
    (Decidable ((1 ≤ c.stack ∧ c.stack ≤ maxStack) ∧ (1 ≤ c.memory ∧ c.memory ≤ maxMemory)))

/-- The error for a capacity outside `1 ..= limit`. -/
def outside (what : String) (capacity limit : Nat) : Error :=
  .invalidCapacity (what ++ " capacity " ++ number capacity ++ " outside 1..=" ++ number limit)

/-- The capacities themselves, if they are within their ranges. -/
def validate (c : Capacities) : Result Capacities :=
  if ¬(1 ≤ c.stack ∧ c.stack ≤ maxStack) then .error (outside "stack" c.stack maxStack)
  else if ¬(1 ≤ c.memory ∧ c.memory ≤ maxMemory) then .error (outside "memory" c.memory maxMemory)
  else .ok c

/-- The capacity that a text denotes. -/
def parseSize (raw : String) : Result Nat :=
  match Text.Size.read? raw.toList with
  | some n => .ok n
  | none => .error (.invalidCapacity ("invalid size '" ++ raw ++ "'"))

/-- The capacity that an optional text denotes, with a default. -/
def sizeOr (default : Nat) : Option String → Result Nat
  | none => .ok default
  | some raw => parseSize raw

/-- The capacities that two optional texts set, within their ranges. -/
def ofTexts (stack memory : Option String) : Result Capacities := do
  let defaults : Capacities := {}
  let words ← sizeOr defaults.stack stack
  let bytes ← sizeOr defaults.memory memory
  validate ⟨words, bytes⟩

/-- The capacities that the environment sets. -/
def ofEnvironment (env : Environment) : Result Capacities :=
  ofTexts (env.lookup stackVariable) (env.lookup memoryVariable)

/-- Exactly the valid capacities pass. -/
theorem validate_eq_ok_iff {c d : Capacities} : c.validate = .ok d ↔ c.Valid ∧ d = c := by
  unfold validate Valid
  by_cases hs : 1 ≤ c.stack ∧ c.stack ≤ maxStack
  · by_cases hm : 1 ≤ c.memory ∧ c.memory ≤ maxMemory
    · simp [hs, hm, eq_comm]
    · simp [hs, hm]
  · simp [hs]

/-- The default capacities are valid. -/
theorem valid_default : Valid {} := by
  decide

end Capacities

end StackMachine
