import StackMachine.Error

/-!
# Actions

Changes of a state that give a value or fail.  A failing action hands back the state as it left it:
what was changed before the failure stays changed.  An action that is meant to leave a state alone
when it fails has to make its checks before its first change.
-/

namespace StackMachine

/-- A change of a state that gives a value or fails. -/
abbrev Action (σ α : Type) := EStateM Error σ α

namespace Action

variable {σ α : Type}

/-- Look something up in the state and leave it as it is. -/
def look (f : σ → Result α) : Action σ α := fun s =>
  match f s with
  | .ok a => .ok a s
  | .error e => .error e s

/-- Fail without a change. -/
def fail (e : Error) : Action σ α := fun s => .error e s

@[simp] theorem run_look (f : σ → Result α) (s : σ) :
    (look f).run s =
      match f s with
      | .ok a => .ok a s
      | .error e => .error e s := rfl

@[simp] theorem run_fail (e : Error) (s : σ) : (fail e : Action σ α).run s = .error e s := rfl

end Action

end StackMachine
