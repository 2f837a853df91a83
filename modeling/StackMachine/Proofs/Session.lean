import StackMachine.Proofs.Refinement

/-!
# Sessions

A session is a sequence of operations on one machine: loading, running, resetting, reading and
writing memory, in any order and number.  `drive` gives the answers of a session and the machine
that it leaves; the states that sessions lead to are the reachable ones.

A machine and the reference machine, made with the same capacities and driven by the same
operations, give the same answers and show the same state.  In particular a run does from every
reachable state what the reference machine's run does: `run_refines_reference`.
-/

namespace StackMachine

/-- What can be asked of a machine. -/
inductive Operation where
  | load (code : List UInt8)
  | run
  | reset
  | runFresh (code : List UInt8)
  | readMemory (offset length : UInt64)
  | writeMemory (offset : UInt64) (bytes : List UInt8)

namespace Machine

/-- The answer to an operation and the machine after it.  An operation without output answers with
no bytes. -/
def perform (m : Machine) : Operation → Result (List UInt8) × Machine
  | .load code => (.ok [], m.load code)
  | .run => m.run
  | .reset => (.ok [], m.reset)
  | .runFresh code => m.runFresh code
  | .readMemory offset length => (m.readMemory offset length, m)
  | .writeMemory offset bytes =>
    ((m.writeMemory offset bytes).1.map fun _ => [], (m.writeMemory offset bytes).2)

/-- The answers to operations, one after the other, and the machine after the last. -/
def drive (m : Machine) : List Operation → List (Result (List UInt8)) × Machine
  | [] => ([], m)
  | op :: ops =>
    ((m.perform op).1 :: ((m.perform op).2.drive ops).1, ((m.perform op).2.drive ops).2)

/-- A machine as it is made, with capacities that are within their ranges or with the default
ones. -/
inductive Made : Capacities → Machine → Prop
  | create {c : Capacities} {m : Machine} (h : Machine.create c = .ok m) : Made c m
  | default : Made {} default

theorem Made.valid_and_eq {c : Capacities} {m : Machine} (h : Made c m) :
    c.Valid ∧ m = fresh c := by
  cases h with
  | default => exact ⟨Capacities.valid_default, rfl⟩
  | create h =>
    obtain ⟨d, hv, rfl⟩ := Result.map_eq_ok_iff.1 h
    obtain ⟨hc, rfl⟩ := Capacities.validate_eq_ok_iff.1 hv
    exact ⟨hc, rfl⟩

end Machine

namespace Reference

/-- The answer to an operation and the reference machine after it. -/
def perform (r : Reference) : Operation → Result (List UInt8) × Reference
  | .load code => (.ok [], r.load code)
  | .run => r.run
  | .reset => (.ok [], r.reset)
  | .runFresh code => r.runFresh code
  | .readMemory offset length => (r.readMemory offset length, r)
  | .writeMemory offset bytes =>
    ((r.writeMemory offset bytes).1.map fun _ => [], (r.writeMemory offset bytes).2)

/-- The answers to operations, one after the other, and the reference machine after the last. -/
def drive (r : Reference) : List Operation → List (Result (List UInt8)) × Reference
  | [] => ([], r)
  | op :: ops =>
    ((r.perform op).1 :: ((r.perform op).2.drive ops).1, ((r.perform op).2.drive ops).2)

/-! ## What a session keeps -/

theorem capacities_perform (r : Reference) (op : Operation) :
    (r.perform op).2.capacities = r.capacities := by
  cases op with
  | load code => rfl
  | run => exact capacities_run r
  | reset => rfl
  | runFresh code => exact capacities_run _
  | readMemory offset length => rfl
  | writeMemory offset bytes =>
    simp only [perform, writeMemory]
    split
    · rfl
    · rfl

theorem capacities_drive (r : Reference) (ops : List Operation) :
    (r.drive ops).2.capacities = r.capacities := by
  induction ops generalizing r with
  | nil => rfl
  | cons op ops ih => exact (ih _).trans (capacities_perform r op)

end Reference

namespace Machine

/-! ## The squares of the operations -/

theorem view_load (m : Machine) (code : List UInt8) :
    (m.load code).view = m.view.load code := rfl

theorem view_reset (m : Machine) : m.reset.view = m.view.reset := by
  simp only [view, reset, Reference.reset, code, Stack.column_clear, Stack.capacity_clear,
    Memory.flat_clear, Memory.capacity_clear]

theorem readMemory_view (m : Machine) (offset length : UInt64) :
    m.view.readMemory offset length = m.readMemory offset length :=
  (Memory.slice_eq_flat m.memory offset length).symm

theorem view_writeMemory (m : Machine) (offset : UInt64) (bytes : List UInt8) :
    m.view.writeMemory offset bytes =
      ((m.writeMemory offset bytes).1, (m.writeMemory offset bytes).2.view) := by
  have hf := Memory.write_flat m.memory offset bytes
  -- Both sides branch on the same flat write.
  cases hw : Flat.write m.memory.flat offset.toNat bytes with
  | error e =>
    rw [hw] at hf
    rw [Reference.writeMemory_of_error hw]
    simp only [writeMemory, run_onMemory, hf]
  | ok memory =>
    rw [hw] at hf
    obtain ⟨s, hs, hc, rfl⟩ := hf
    rw [Reference.writeMemory_of_ok hw]
    simp only [writeMemory, run_onMemory, hs]
    exact congrArg _ (view_withMemory hc).symm

/-- One operation of the machine is that operation of the reference machine. -/
theorem view_perform (m : Machine) (op : Operation) :
    m.view.perform op = ((m.perform op).1, (m.perform op).2.view) := by
  cases op with
  | load code => rfl
  | run => exact view_run m
  | reset => exact congrArg _ (view_reset m).symm
  | runFresh code =>
    show (m.view.reset.load code).run = _
    rw [← view_reset, ← view_load]
    exact view_run _
  | readMemory offset length => exact congrArg (·, m.view) (readMemory_view m offset length)
  | writeMemory offset bytes =>
    simp only [Reference.perform, view_writeMemory]
    rfl

/-- A session with the machine is that session with the reference machine. -/
theorem view_drive (m : Machine) (ops : List Operation) :
    m.view.drive ops = ((m.drive ops).1, (m.drive ops).2.view) := by
  induction ops generalizing m with
  | nil => rfl
  | cons op ops ih =>
    rw [Reference.drive, view_perform, ih]
    rfl

theorem view_fresh {c : Capacities} (h : c.Valid) : (fresh c).view = Reference.fresh c := by
  have hm : c.memory < UInt64.size := Nat.lt_of_le_of_lt h.2.2 (by decide)
  have hc : (UInt64.ofNat c.memory).toNat = c.memory := UInt64.toNat_ofNat_of_lt' hm
  simp only [view, fresh, Reference.fresh, code, Stack.capacity_empty, Stack.column_empty,
    Memory.capacity_zeros, Memory.flat_zeros, hc]

/-- A first run of code is a first run of the reference machine. -/
theorem view_run_load_fresh {c : Capacities} (h : c.Valid) (code : List UInt8) :
    ((Reference.fresh c).load code).run =
      (((fresh c).load code).run.1, ((fresh c).load code).run.2.view) := by
  rw [← view_fresh h]
  exact view_run ((fresh c).load code)

/-- From the same capacities on, the view of a session is a session of the reference machine. -/
theorem Made.view_drive {c : Capacities} {m : Machine} (h : Made c m) (ops : List Operation) :
    (Reference.fresh c).drive ops = ((m.drive ops).1, (m.drive ops).2.view) := by
  obtain ⟨hv, rfl⟩ := h.valid_and_eq
  rw [← view_fresh hv, Machine.view_drive]

/-- What can be seen of a machine is what can be seen of a reference machine: the words on the
stack, the position, the status and every answer to a read of memory. -/
structure Shows (m : Machine) (r : Reference) : Prop where
  words : m.words = r.stack.reverse
  position : m.position = r.position
  status : m.status = r.status
  code : m.code = r.code
  memory : ∀ offset length, m.readMemory offset length = r.readMemory offset length

theorem shows_view (m : Machine) : m.Shows m.view where
  words := (List.reverse_reverse m.words).symm
  position := rfl
  status := rfl
  code := rfl
  memory offset length := (readMemory_view m offset length).symm

/-- The view of a machine holds no more words than the capacity, and as many bytes as the memory. -/
theorem view_bounded (m : Machine) :
    m.view.stack.length ≤ m.view.capacities.stack ∧
      m.view.memory.length = m.view.capacities.memory := by
  constructor
  · show m.stack.column.length ≤ m.stack.capacity
    rw [Stack.length_column]
    exact m.stack.depth_le_capacity
  · exact Memory.length_flat m.memory

/-- **A run refines the run of the reference machine.**  From every state that a session leads to,
and after loading any code there, a run has the result of the reference machine that was driven by
the same operations, and leaves a machine that shows the same state.  The reference machine holds at
most `c.stack` words and exactly `c.memory` bytes. -/
theorem run_refines_reference {c : Capacities} {m : Machine} (h : Made c m) (ops : List Operation)
    (code : List UInt8) :
    let t := (m.drive ops).2
    let r := ((Reference.fresh c).drive ops).2
    (t.run.1 = r.run.1 ∧ t.run.2.Shows r.run.2) ∧
      ((t.load code).run.1 = (r.load code).run.1 ∧
        (t.load code).run.2.Shows (r.load code).run.2) ∧
      (m.drive ops).1 = ((Reference.fresh c).drive ops).1 ∧
      r.run.2.stack.length ≤ c.stack ∧ r.run.2.memory.length = c.memory := by
  intro t r
  have hd := h.view_drive ops
  have hr : r = t.view := congrArg Prod.snd hd
  have hrun : r.run = (t.run.1, t.run.2.view) := hr ▸ view_run t
  have hload : (r.load code).run = ((t.load code).run.1, (t.load code).run.2.view) :=
    hr ▸ view_run (t.load code)
  -- Nothing in a session changes the capacities, so the bounds are those the machine was made with.
  have hc : t.run.2.view.capacities = c := by
    calc t.run.2.view.capacities = r.run.2.capacities := by rw [hrun]
      _ = r.capacities := Reference.capacities_run r
      _ = c := Reference.capacities_drive (Reference.fresh c) ops
  have hb := view_bounded t.run.2
  rw [hrun, hload]
  refine ⟨⟨rfl, shows_view _⟩, ⟨rfl, shows_view _⟩, (congrArg Prod.fst hd).symm, ?_, ?_⟩
  · exact hc ▸ hb.1
  · exact hc ▸ hb.2

/-- A machine whose last run failed goes on with what was written into its memory. -/
theorem run_refines_reference_after_fault :
    Machine.create ⟨4, 16⟩ = .ok (fresh ⟨4, 16⟩) ∧
      ((((fresh ⟨4, 16⟩).drive
          [.writeMemory 14 [1, 2], .writeMemory 15 [1, 2], .load [0x13], .run]).2.load
        [0x01, 8, 0x22, 0x01, 2, 0x12, 0x01, 0, 0x21, 0x01, 8, 0x01, 0, 0x30]).run.1 =
        .ok [0, 0, 0, 0, 0, 0, 2, 4]) := by
  have hm : Made ⟨4, 16⟩ (fresh ⟨4, 16⟩) := .create rfl
  -- The memory after the two writes, of which the second is out of bounds.
  let memory : List UInt8 := [0, 0, 0, 0, 0, 0, 0, 0, 0, 0, 0, 0, 0, 0, 1, 2]
  have hfault : Reference.run ⟨⟨4, 16⟩, [0x13], 0, [], memory, .ready⟩ =
      (.error (.stackUnderflow 2 0), ⟨⟨4, 16⟩, [0x13], 0, [], memory, .halted .faulted⟩) := by
    cbv
  refine ⟨rfl, (run_refines_reference hm _ _).2.1.1.trans ?_⟩
  show ((Reference.run ⟨⟨4, 16⟩, [0x13], 0, [], memory, .ready⟩).2.load _).run.1 = _
  rw [hfault]
  show (Reference.run ⟨⟨4, 16⟩, _, 0, [], memory, .ready⟩).1 = _
  cbv

end Machine

end StackMachine
