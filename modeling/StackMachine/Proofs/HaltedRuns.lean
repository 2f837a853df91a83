import StackMachine.Proofs.FreshRun

/-!
# A halted machine stays put

A machine whose last run failed stands at the failing instruction, and one that came to the end of
its code stands there.  A further run finds the same instruction, or no instruction, and ends as the
last one did.  Writing to memory in between makes no difference: which error an instruction has
depends on how many bytes the memory has, and never on the bytes.

`Rests` says where such a machine stands and what a run of it answers.  Runs and accesses to memory
keep a machine at rest and change nothing but the memory; by induction so does every sequence of
them.  That a faulted machine is at rest with the error of its last run is an invariant of sessions.
-/

namespace StackMachine

namespace Operation

/-- Operations that leave the program where it is: a run, and reading and writing memory. -/
def IsQuiet : Operation → Prop
  | run | readMemory _ _ | writeMemory _ _ => True
  | load _ | reset | runFresh _ => False

/-- Operations that execute code. -/
def isRun : Operation → Bool
  | run | runFresh _ => true
  | load _ | reset | readMemory _ _ | writeMemory _ _ => false

/-- The answer of the last run among operations with their answers. -/
def lastRun? : List Operation → List (Result (List UInt8)) → Option (Result (List UInt8))
  | op :: ops, answer :: answers =>
    (lastRun? ops answers).or (if op.isRun then some answer else none)
  | _, _ => none

end Operation

/-! ## Errors and the bytes of memory -/

namespace Flat

variable {memory memory' : List UInt8} {offset : Nat} {e : Error}

theorem read_error_of_length {length : Nat} (hl : memory'.length = memory.length)
    (h : read memory offset length = .error e) : read memory' offset length = .error e := by
  unfold read at h ⊢
  rw [hl]
  split at h
  · exact absurd h (by simp)
  · rename_i hb
    rw [if_neg hb, h]

theorem write_error_of_length {bs : List UInt8} (hl : memory'.length = memory.length)
    (h : write memory offset bs = .error e) : write memory' offset bs = .error e := by
  unfold write at h ⊢
  rw [hl]
  split at h
  · exact absurd h (by simp)
  · rename_i hb
    rw [if_neg hb, h]

/-- A write keeps the number of bytes. -/
theorem length_write {bs : List UInt8} (h : write memory offset bs = .ok memory') :
    memory'.length = memory.length := by
  unfold write at h
  split at h
  · rename_i hb
    rw [← Except.ok.inj h, List.length_append, List.length_append, List.length_take,
      List.length_drop]
    omega
  · exact absurd h (by simp)

end Flat

namespace Reference

/-- An opcode that fails fails the same way on any memory of the same size. -/
theorem effect_error_of_length {c : Capacities} {value : Nat} {memory memory' : List UInt8}
    {o : Opcode} {ws : List UInt64} {e : Error} (hl : memory'.length = memory.length)
    (h : effect c value memory o ws = .error e) : effect c value memory' o ws = .error e := by
  match o, ws with
  | .push1, ws | .push8, ws =>
    simp only [effect] at h ⊢
    split at h
    · exact absurd h (by simp)
    · rename_i hb
      rw [if_neg hb, h]
  | .div, top :: below :: ws =>
    simp only [effect] at h ⊢
    split at h
    · rename_i hz
      rw [if_pos hz, h]
    · exact absurd h (by simp)
  | .store1, _ :: _ :: _ | .store8, _ :: _ :: _ =>
    apply Result.map_eq_error_iff.2
    exact Flat.write_error_of_length hl (Result.map_eq_error_iff.1 h)
  | .load8, _ :: _ | .ret, _ :: _ :: _ =>
    apply Result.map_eq_error_iff.2
    exact Flat.read_error_of_length hl (Result.map_eq_error_iff.1 h)
  | .pop, _ :: _ | .add, _ :: _ :: _ | .sub, _ :: _ :: _ | .mul, _ :: _ :: _ =>
    exact absurd h (by simp [effect])
  -- Too few operands: the memory is not looked at.
  | .pop, [] | .load8, []
  | .add, [] | .sub, [] | .mul, [] | .div, [] | .store1, [] | .store8, [] | .ret, []
  | .add, [_] | .sub, [_] | .mul, [_] | .div, [_] | .store1, [_] | .store8, [_] | .ret, [_] =>
    exact h

/-- An instruction that fails fails the same way on any memory of the same size. -/
theorem instruct_error_of_length {r : Reference} {memory : List UInt8} {b : UInt8} {e : Error}
    (hl : memory.length = r.memory.length) (h : r.instruct b = .error e) :
    instruct { r with memory } b = .error e := by
  cases ho : Opcode.ofByte? b with
  | none =>
    rw [instruct, ho] at h ⊢
    exact h
  | some o =>
    cases hv : immediate r.code (r.position + 1) o with
    | error d =>
      rw [instruct_of_immediate_error ho hv] at h
      rw [instruct_of_immediate_error (r := { r with memory }) ho hv, h]
    | ok value =>
      rw [instruct_of_immediate ho hv] at h
      rw [instruct_of_immediate (r := { r with memory }) ho hv]
      apply Result.map_eq_error_iff.2
      exact effect_error_of_length hl (Result.map_eq_error_iff.1 h)

/-! ## Machines at rest -/

/-- A machine that halted and stands where every further run ends at once, with the given answer:
at an instruction that fails, or at the end of the code. -/
inductive Rests : Result (List UInt8) → Reference → Prop
  | atFault {r : Reference} {e : Error} (hlt : r.position < r.code.length)
      (hi : r.instruct r.code[r.position] = .error e) (hs : r.status = .halted .faulted) :
      Rests (.error e) r
  | atEnd {r : Reference} (hle : r.code.length ≤ r.position)
      (hs : r.status = .halted .exhausted) : Rests (.ok []) r

/-- A run of a machine at rest changes nothing. -/
theorem Rests.run_eq {r : Reference} {x : Result (List UInt8)} (h : Rests x r) :
    r.run = (x, r) := by
  cases h with
  | atFault hlt hi hs => rw [run_of_error hi, ← hs]
  | atEnd hle hs => rw [run_of_length_le hle, ← hs]

/-- The bytes of memory do not matter for a machine at rest. -/
theorem Rests.withMemory {r : Reference} {x : Result (List UInt8)} {memory : List UInt8}
    (h : Rests x r) (hl : memory.length = r.memory.length) : Rests x { r with memory } := by
  cases h with
  | atFault hlt hi hs =>
    exact .atFault (r := { r with memory }) hlt (instruct_error_of_length hl hi) hs
  | atEnd hle hs => exact .atEnd (r := { r with memory }) hle hs

/-- A run that fails leaves a machine at rest, and only such a run leaves a faulted one. -/
theorem rests_of_faulted {r : Reference} (h : r.run.2.status = .halted .faulted) :
    ∃ e, r.run.1 = .error e ∧ Rests (.error e) r.run.2 := by
  fun_induction run r with
  | case1 r hlt o stack memory hi hs ih => exact ih h
  | case2 r hlt o bytes stack hi => exact absurd h (by simp)
  | case3 r hlt e hi => exact ⟨e, rfl, .atFault hlt hi rfl⟩
  | case4 r hge => exact absurd h (by simp)

/-- A quiet operation keeps a machine at rest and changes nothing but its memory. -/
theorem Rests.perform {r : Reference} {x : Result (List UInt8)} {op : Operation} (h : Rests x r)
    (hq : op.IsQuiet) :
    ∃ memory, (r.perform op).2 = { r with memory } ∧ Rests x { r with memory } := by
  cases op with
  | load code => exact absurd hq id
  | reset => exact absurd hq id
  | runFresh code => exact absurd hq id
  | run =>
    refine ⟨r.memory, ?_, h⟩
    show r.run.2 = r
    rw [h.run_eq]
  | readMemory offset length => exact ⟨r.memory, rfl, h⟩
  | writeMemory offset bytes =>
    simp only [Reference.perform]
    cases hw : Flat.write r.memory offset.toNat bytes with
    | error e =>
      rw [writeMemory_of_error hw]
      exact ⟨r.memory, rfl, h⟩
    | ok memory =>
      rw [writeMemory_of_ok hw]
      exact ⟨memory, rfl, h.withMemory (Flat.length_write hw)⟩

/-- Any number of quiet operations keep a machine at rest and change nothing but its memory. -/
theorem Rests.drive {r : Reference} {x : Result (List UInt8)} (h : Rests x r)
    {ops : List Operation} (hq : ∀ op ∈ ops, op.IsQuiet) :
    ∃ memory, (r.drive ops).2 = { r with memory } ∧ Rests x { r with memory } := by
  induction ops generalizing r with
  | nil => exact ⟨r.memory, rfl, h⟩
  | cons op ops ih =>
    obtain ⟨memory, hm, hr⟩ := h.perform (hq op List.mem_cons_self)
    obtain ⟨memory', hd, hr'⟩ := ih hr fun p hp => hq p (List.mem_cons_of_mem op hp)
    refine ⟨memory', ?_, hr'⟩
    show ((r.perform op).2.drive ops).2 = _
    rw [hm, hd]

/-! ## Faulted machines in sessions -/

/-- If the machine is faulted, the last run failed, and the machine rests with that error. -/
def Settled (last? : Option (Result (List UInt8))) (r : Reference) : Prop :=
  r.status = .halted .faulted → ∃ e, last? = some (.error e) ∧ Rests (.error e) r

theorem settled_of_run (r : Reference) : Settled (some r.run.1) r.run.2 := by
  intro hs
  obtain ⟨e, he, hr⟩ := rests_of_faulted hs
  exact ⟨e, congrArg some he, hr⟩

theorem settled_perform {last? : Option (Result (List UInt8))} {r : Reference}
    (h : Settled last? r) (op : Operation) :
    Settled ((if op.isRun then some (r.perform op).1 else none).or last?) (r.perform op).2 := by
  cases op with
  | load code => exact fun hs => absurd hs (by simp [perform, load])
  | reset => exact fun hs => absurd hs (by simp [perform, reset])
  | run => exact settled_of_run r
  | runFresh code => exact settled_of_run (r.reset.load code)
  | readMemory offset length => exact h
  | writeMemory offset bytes =>
    intro hs
    simp only [perform] at hs ⊢
    cases hw : Flat.write r.memory offset.toNat bytes with
    | error e =>
      rw [writeMemory_of_error hw] at hs ⊢
      exact h hs
    | ok memory =>
      rw [writeMemory_of_ok hw] at hs ⊢
      obtain ⟨e, he, hr⟩ := h hs
      exact ⟨e, he, hr.withMemory (Flat.length_write hw)⟩

/-- Along a session, a faulted machine rests with the error of the last run. -/
theorem settled_drive {last? : Option (Result (List UInt8))} {r : Reference}
    (h : Settled last? r) (ops : List Operation) :
    Settled ((Operation.lastRun? ops (r.drive ops).1).or last?) (r.drive ops).2 := by
  induction ops generalizing last? r with
  | nil => exact h
  | cons op ops ih =>
    have hs := ih (settled_perform h op)
    rw [← Option.or_assoc] at hs
    exact hs

end Reference

namespace Machine

/-- A machine whose view is at rest answers a run with that answer, and nothing that can be seen of
it changes. -/
theorem run_of_rests {m : Machine} {x : Result (List UInt8)} (h : Reference.Rests x m.view) :
    m.run.1 = x ∧ m.run.2.observe = m.observe := by
  have hr : (m.run.1, m.run.2.view) = (x, m.view) := (view_run m).symm.trans h.run_eq
  obtain ⟨hx, hv⟩ := Prod.mk.inj hr
  have ha : Alike m.run.2 m := ⟨hv, capacities_run m⟩
  exact ⟨hx, ha.observe⟩

/-- A machine at rest that is only run, read and written keeps its words, its position and its
status, and a run of it answers as before and changes nothing. -/
theorem drive_of_rests {m : Machine} {x : Result (List UInt8)} (h : Reference.Rests x m.view)
    {ops : List Operation} (hq : ∀ op ∈ ops, op.IsQuiet) :
    let t := (m.drive ops).2
    t.run.1 = x ∧ t.run.2.observe = t.observe ∧
      t.words = m.words ∧ t.position = m.position ∧ t.status = m.status := by
  intro t
  obtain ⟨memory, hd, hr⟩ := h.drive hq
  have hv : t.view = { m.view with memory } := by
    rw [← hd, view_drive]
  obtain ⟨hx, ho⟩ := run_of_rests (m := t) (hv ▸ hr)
  refine ⟨hx, ho, ?_, ?_, ?_⟩
  · rw [(shows_view t).words, hv]
    exact (shows_view m).words.symm
  · exact congrArg Reference.position hv
  · exact congrArg Reference.status hv

/-- **A halted run is stable.**  Take a machine after any session, and then only run it and read and
write its memory, in any order and number.  If it was faulted, the last run of the session failed,
and each further run fails with the same error; if it was exhausted, each further run has no output.
The words, the position and the status stay what they were at the end of the session, and a further
run changes nothing that can be seen, no byte of memory included. -/
theorem halted_run_stable {c : Capacities} {m : Machine} (h : Made c m)
    (ops quiet : List Operation) (hq : ∀ op ∈ quiet, op.IsQuiet) :
    let t := (m.drive ops).2
    let u := (t.drive quiet).2
    (t.status = .halted .faulted →
      ∃ e, Operation.lastRun? ops (m.drive ops).1 = some (.error e) ∧
        u.run.1 = .error e ∧ u.run.2.observe = u.observe ∧
        u.words = t.words ∧ u.position = t.position ∧ u.status = t.status) ∧
    (t.status = .halted .exhausted →
      u.run.1 = .ok [] ∧ u.run.2.observe = u.observe ∧
        u.words = t.words ∧ u.position = t.position ∧ u.status = t.status) := by
  intro t u
  have hd := h.view_drive ops
  have hview : ((Reference.fresh c).drive ops).2 = t.view := congrArg Prod.snd hd
  constructor
  · intro hs
    have hfresh : Reference.Settled none (Reference.fresh c) := by
      intro hready
      exact absurd hready (by simp [Reference.fresh])
    have hsettled := Reference.settled_drive hfresh ops
    rw [Option.or_none, hd] at hsettled
    obtain ⟨e, he, hr⟩ := hsettled hs
    exact ⟨e, he, drive_of_rests hr hq⟩
  · intro hs
    -- The invariant of sessions puts an exhausted machine at the end of its code.
    have hplaced := Reference.placed_drive (r := Reference.fresh c) (.of_start []) ops
    rw [hview] at hplaced
    have hend : t.view.code.length ≤ t.view.position := Nat.le_of_eq (hplaced.exhausted hs).symm
    exact drive_of_rests (.atEnd hend hs) hq

/-- A division by a word of memory that is zero.  Another byte in its place, and a run in between,
do not mend it: the divisor is on the stack. -/
theorem halted_run_stable_division :
    let t := ((fresh ⟨4, 16⟩).drive [.load [0x01, 6, 0x01, 0, 0x22, 0x13], .run]).2
    let u := (t.drive [.writeMemory 7 [3], .run, .readMemory 0 8]).2
    t.status = .halted .faulted ∧ t.words = [6, 0] ∧
      u.run.1 = .error .divisionByZero ∧ u.words = [6, 0] ∧ u.position = 5 := by
  intro t u
  have hm : Made ⟨4, 16⟩ (fresh ⟨4, 16⟩) := .create rfl
  have hr : ((Reference.fresh ⟨4, 16⟩).load [0x01, 6, 0x01, 0, 0x22, 0x13]).run =
      (.error .divisionByZero,
        ⟨⟨4, 16⟩, [0x01, 6, 0x01, 0, 0x22, 0x13], 5, [0, 6], List.replicate 16 0,
          .halted .faulted⟩) := by
    cbv
  rw [view_run_load_fresh (by decide)] at hr
  obtain ⟨hx, hv⟩ := Prod.mk.inj hr
  have hs : t.status = .halted .faulted := congrArg Reference.status hv
  have hw : t.words = [6, 0] := List.reverse_inj.1 (congrArg Reference.stack hv)
  have hp : t.position = 5 := congrArg Reference.position hv
  obtain ⟨e, he, hrun, _, hwords, hposition, _⟩ := (halted_run_stable hm
    [.load [0x01, 6, 0x01, 0, 0x22, 0x13], .run] [.writeMemory 7 [3], .run, .readMemory 0 8]
    (by simp [Operation.IsQuiet])).1 hs
  obtain rfl : Error.divisionByZero = e := by
    have hlast : some ((fresh ⟨4, 16⟩).load [0x01, 6, 0x01, 0, 0x22, 0x13]).run.1 =
      some (.error e) := he
    rw [hx] at hlast
    exact Except.error.inj (Option.some.inj hlast)
  exact ⟨hs, hw, hrun, hwords.trans hw, hposition.trans hp⟩

end Machine

end StackMachine
