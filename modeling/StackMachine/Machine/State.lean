import StackMachine.Capacities
import StackMachine.Machine.Memory
import StackMachine.Machine.Stack

/-!
# The state of a machine

A machine holds code, the position of the next byte to read, a stack, a memory and how its last run
ended.  Actions on the stack or on the memory act on the machine that holds them, also when they
fail.

`Keeps` is what everything that happens within a run respects: the code, the capacities and the
status stay, and the position never moves back.
-/

namespace StackMachine

/-- How a run ended. -/
inductive Halt where
  | returned
  | exhausted
  | faulted
deriving DecidableEq, Repr

/-- Whether the machine waits for a run, or how its last run ended. -/
inductive Status where
  | ready
  | halted (how : Halt)
deriving DecidableEq, Repr

/-- A machine with its code and its state. -/
structure Machine where
  capacities : Capacities
  bytes : Array UInt8
  position : Nat
  stack : Stack
  memory : Memory
  status : Status

namespace Machine

variable {α : Type}

/-- The code. -/
def code (m : Machine) : List UInt8 := m.bytes.toList

/-- The words on the stack, bottom first. -/
def words (m : Machine) : List UInt64 := m.stack.words

/-- An action on the stack. -/
def onStack (x : Action Stack α) : Action Machine α :=
  fun ⟨capacities, bytes, position, stack, memory, status⟩ =>
    match x stack with
    | .ok a stack => .ok a ⟨capacities, bytes, position, stack, memory, status⟩
    | .error e stack => .error e ⟨capacities, bytes, position, stack, memory, status⟩

/-- An action on the memory. -/
def onMemory (x : Action Memory α) : Action Machine α :=
  fun ⟨capacities, bytes, position, stack, memory, status⟩ =>
    match x memory with
    | .ok a memory => .ok a ⟨capacities, bytes, position, stack, memory, status⟩
    | .error e memory => .error e ⟨capacities, bytes, position, stack, memory, status⟩

@[simp] theorem length_code (m : Machine) : m.code.length = m.bytes.size := by
  rw [code, Array.length_toList]

@[simp] theorem run_onStack (x : Action Stack α) (m : Machine) :
    (onStack x).run m =
      match x.run m.stack with
      | .ok a s => .ok a { m with stack := s }
      | .error e s => .error e { m with stack := s } := rfl

@[simp] theorem run_onMemory (x : Action Memory α) (m : Machine) :
    (onMemory x).run m =
      match x.run m.memory with
      | .ok a s => .ok a { m with memory := s }
      | .error e s => .error e { m with memory := s } := rfl

/-! ## What a run keeps -/

/-- The code, the capacities and the status are kept, and the position is not moved back. -/
structure Keeps (m t : Machine) : Prop where
  bytes : t.bytes = m.bytes
  capacities : t.capacities = m.capacities
  status : t.status = m.status
  position_le : m.position ≤ t.position

theorem Keeps.refl (m : Machine) : Keeps m m := ⟨rfl, rfl, rfl, Nat.le_refl _⟩

theorem Keeps.trans {m t u : Machine} (h : Keeps m t) (h' : Keeps t u) : Keeps m u where
  bytes := h'.bytes.trans h.bytes
  capacities := h'.capacities.trans h.capacities
  status := h'.status.trans h.status
  position_le := Nat.le_trans h.position_le h'.position_le

/-- The state that an action leaves, whether it fails or not. -/
def left : EStateM.Result Error Machine α → Machine
  | .ok _ t => t
  | .error _ t => t

/-- An action that respects `Keeps` from every state. -/
def Steady (x : Action Machine α) : Prop := ∀ m, Keeps m (left (x.run m))

namespace Steady

variable {β : Type}

theorem pure (a : α) : Steady (pure a) := Keeps.refl

theorem fail (e : Error) : Steady (Action.fail e : Action Machine α) := Keeps.refl

theorem bind {x : Action Machine α} {f : α → Action Machine β} (hx : Steady x)
    (hf : ∀ a, Steady (f a)) : Steady (x >>= f) := by
  intro m
  have h := hx m
  rw [EStateM.run_bind]
  cases hr : x.run m with
  | ok a t =>
    rw [hr] at h
    exact h.trans (hf a t)
  | error e t =>
    rw [hr] at h
    exact h

theorem look (f : Machine → Result α) : Steady (Action.look f) := by
  intro m
  rw [Action.run_look]
  cases f m with
  | ok a => exact Keeps.refl m
  | error e => exact Keeps.refl m

theorem onStack (x : Action Stack α) : Steady (onStack x) := by
  intro m
  rw [run_onStack]
  cases x.run m.stack with
  | ok a s => exact ⟨rfl, rfl, rfl, Nat.le_refl _⟩
  | error e s => exact ⟨rfl, rfl, rfl, Nat.le_refl _⟩

theorem onMemory (x : Action Memory α) : Steady (onMemory x) := by
  intro m
  rw [run_onMemory]
  cases x.run m.memory with
  | ok a s => exact ⟨rfl, rfl, rfl, Nat.le_refl _⟩
  | error e s => exact ⟨rfl, rfl, rfl, Nat.le_refl _⟩

end Steady

end Machine

end StackMachine
