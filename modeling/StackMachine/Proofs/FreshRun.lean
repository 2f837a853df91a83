import StackMachine.Proofs.Invariant

/-!
# A fresh run leaks nothing

A reset takes all words off the stack, but they stay in their slots, so a machine that was reset is
not the machine that was made.  From outside there is no difference.

`Alike` relates machines that differ at most in what is out of reach: in slots past the depth of the
stack, and in how the bytes of memory lie on pages.  Such machines show the same, and whatever is
asked of both, they give the same answer and stay alike; by induction this holds for sessions of any
length.  A reset brings every machine to one that is like a new machine of its capacities.
-/

namespace StackMachine

/-- What can be seen of a machine: the words on its stack, its position, its status, its code, its
capacities and its answer to every read of memory. -/
structure Observation where
  words : List UInt64
  position : Nat
  status : Status
  code : List UInt8
  capacities : Capacities
  memory : UInt64 → UInt64 → Result (List UInt8)

/-- A reset forgets all but the capacities once other code is loaded. -/
theorem Reference.load_reset (r : Reference) (code : List UInt8) :
    r.reset.load code = (Reference.fresh r.capacities).load code := rfl

namespace Machine

/-- All that can be seen of a machine. -/
def observe (m : Machine) : Observation where
  words := m.words
  position := m.position
  status := m.status
  code := m.code
  capacities := m.capacities
  memory := m.readMemory

/-- The record of a session: each answer, with what can be seen of the machine after it. -/
def record (m : Machine) : List Operation → List (Result (List UInt8) × Observation)
  | [] => []
  | op :: ops => ((m.perform op).1, (m.perform op).2.observe) :: (m.perform op).2.record ops

/-- The answers in a record are those of the session. -/
theorem map_fst_record (m : Machine) (ops : List Operation) :
    (m.record ops).map Prod.fst = (m.drive ops).1 := by
  induction ops generalizing m with
  | nil => rfl
  | cons op ops ih =>
    show (m.perform op).1 :: ((m.perform op).2.record ops).map Prod.fst = _
    rw [ih]
    rfl

/-- Machines that differ at most in slots past the depth and in how bytes lie on pages. -/
structure Alike (m t : Machine) : Prop where
  view : m.view = t.view
  capacities : m.capacities = t.capacities

namespace Alike

variable {m t : Machine}

/-- Machines that are alike show the same. -/
theorem observe (h : Alike m t) : m.observe = t.observe := by
  have hw : m.words = t.words := by
    rw [(shows_view m).words, h.view]
    exact (shows_view t).words.symm
  have hm : m.readMemory = t.readMemory := by
    funext offset length
    rw [← readMemory_view, h.view, readMemory_view]
  have hp : m.position = t.position := congrArg Reference.position h.view
  have hs : m.status = t.status := congrArg Reference.status h.view
  have hc : m.code = t.code := congrArg Reference.code h.view
  simp only [Machine.observe, hw, hp, hs, hc, h.capacities, hm]

/-- Machines that are alike give the same answer and stay alike. -/
theorem perform (h : Alike m t) (op : Operation) :
    (m.perform op).1 = (t.perform op).1 ∧ Alike (m.perform op).2 (t.perform op).2 := by
  have hv : ((m.perform op).1, (m.perform op).2.view) =
      ((t.perform op).1, (t.perform op).2.view) := by
    rw [← view_perform, h.view, view_perform]
  obtain ⟨ha, hs⟩ := Prod.mk.inj hv
  refine ⟨ha, hs, ?_⟩
  rw [capacities_perform, capacities_perform, h.capacities]

/-- Sessions with machines that are alike have the same record. -/
theorem record (h : Alike m t) (ops : List Operation) : m.record ops = t.record ops := by
  induction ops generalizing m t with
  | nil => rfl
  | cons op ops ih =>
    obtain ⟨ha, hs⟩ := h.perform op
    show ((m.perform op).1, (m.perform op).2.observe) :: (m.perform op).2.record ops =
      ((t.perform op).1, (t.perform op).2.observe) :: (t.perform op).2.record ops
    rw [ha, hs.observe, ih hs]

end Alike

/-- After any session a reset leads to a machine that is like a new one, for any code. -/
theorem Made.alike_reset {c : Capacities} {m : Machine} (h : Made c m) (ops : List Operation)
    (code : List UInt8) : Alike ((m.drive ops).2.reset.load code) ((fresh c).load code) := by
  obtain ⟨hv, rfl⟩ := h.valid_and_eq
  constructor
  · have hr : ((Reference.fresh c).drive ops).2 = ((fresh c).drive ops).2.view :=
      congrArg Prod.snd (h.view_drive ops)
    have hc : ((fresh c).drive ops).2.view.capacities = c := by
      rw [← hr]
      exact Reference.capacities_drive (Reference.fresh c) ops
    calc (((fresh c).drive ops).2.reset.load code).view
        = ((fresh c).drive ops).2.view.reset.load code := by rw [view_load, view_reset]
      _ = (Reference.fresh c).load code := by rw [Reference.load_reset, hc]
      _ = ((fresh c).load code).view := by rw [view_load, view_fresh hv]
  · exact capacities_drive (fresh c) ops

/-- **A fresh run leaks nothing.**  Valid capacities make a new machine.  However another machine of
these capacities was used before, also in runs that failed, a fresh run of code on it has the result
of a first run on the new machine.  From then on the two show the same, and every further session
has the same record on both. -/
theorem runFresh_leaks_nothing {c : Capacities} (hc : c.Valid) :
    ∃ n, Machine.create c = .ok n ∧
      ∀ m, Made c m → ∀ (ops : List Operation) (code : List UInt8) (later : List Operation),
        let t := (m.drive ops).2.runFresh code
        let u := (n.load code).run
        t.1 = u.1 ∧ t.2.observe = u.2.observe ∧ t.2.record later = u.2.record later := by
  have hn : Machine.create c = .ok (fresh c) := by
    rw [create, Capacities.validate_eq_ok_iff.2 ⟨hc, rfl⟩]
    rfl
  refine ⟨fresh c, hn, ?_⟩
  intro m hm ops code later t u
  obtain ⟨ha, hs⟩ := (hm.alike_reset ops code).perform .run
  exact ⟨ha, hs.observe, hs.record later⟩

/-- A program that fails with two words on the stack, on a memory that was written to.  A fresh run
that returns those bytes finds zeros, and a later program finds no words. -/
theorem runFresh_leaks_nothing_after_fault :
    Capacities.Valid ⟨4, 16⟩ ∧
      let t := ((fresh ⟨4, 16⟩).drive
        [.writeMemory 8 [1, 2, 3], .load [0x01, 7, 0x01, 0, 0x13], .run]).2
      (t.words = [7, 0] ∧ t.readMemory 8 3 = .ok [1, 2, 3]) ∧
        (t.runFresh [0x01, 3, 0x01, 8, 0x30]).1 = .ok [0, 0, 0] ∧
        ((t.runFresh [0x01, 3, 0x01, 8, 0x30]).2.record [.load [0x00], .run]).map Prod.fst =
          [.ok [], .error (.stackUnderflow 1 0)] := by
  have hc : Capacities.Valid ⟨4, 16⟩ := by decide
  have hm : Made ⟨4, 16⟩ (fresh ⟨4, 16⟩) := .create rfl
  refine ⟨hc, ?_⟩
  intro t
  -- The memory that the program finds and leaves.
  let memory : List UInt8 := [0, 0, 0, 0, 0, 0, 0, 0, 1, 2, 3, 0, 0, 0, 0, 0]
  have hfault : Reference.run ⟨⟨4, 16⟩, [0x01, 7, 0x01, 0, 0x13], 0, [], memory, .ready⟩ =
      (.error .divisionByZero,
        ⟨⟨4, 16⟩, [0x01, 7, 0x01, 0, 0x13], 4, [0, 7], memory, .halted .faulted⟩) := by
    cbv
  have hfresh : ((Reference.fresh ⟨4, 16⟩).load [0x01, 3, 0x01, 8, 0x30]).run =
      (.ok [0, 0, 0], ⟨⟨4, 16⟩, [0x01, 3, 0x01, 8, 0x30], 5, [], List.replicate 16 0,
        .halted .returned⟩) := by
    cbv
  have hlater : Reference.run ⟨⟨4, 16⟩, [0x00], 0, [], List.replicate 16 0, .ready⟩ =
      (.error (.stackUnderflow 1 0),
        ⟨⟨4, 16⟩, [0x00], 0, [], List.replicate 16 0, .halted .faulted⟩) := by
    cbv
  have hview : t.view =
      ⟨⟨4, 16⟩, [0x01, 7, 0x01, 0, 0x13], 4, [0, 7], memory, .halted .faulted⟩ :=
    (congrArg Prod.snd (hm.view_drive _)).symm.trans (congrArg Prod.snd hfault)
  rw [view_run_load_fresh hc] at hfresh
  obtain ⟨hr, hv⟩ := Prod.mk.inj hfresh
  obtain ⟨n, hn, hleak⟩ := runFresh_leaks_nothing hc
  obtain rfl : fresh ⟨4, 16⟩ = n := Except.ok.inj hn
  obtain ⟨hresult, _, hrecord⟩ := hleak _ hm
    [.writeMemory 8 [1, 2, 3], .load [0x01, 7, 0x01, 0, 0x13], .run] [0x01, 3, 0x01, 8, 0x30]
    [.load [0x00], .run]
  refine ⟨⟨?_, ?_⟩, hresult.trans hr, ?_⟩
  · rw [(shows_view t).words, hview]
    rfl
  · rw [(shows_view t).memory, hview]
    rfl
  · rw [hrecord, map_fst_record, ← congrArg Prod.fst (view_drive _ [.load [0x00], .run]), hv]
    show [.ok [], (Reference.run ⟨⟨4, 16⟩, [0x00], 0, [], List.replicate 16 0, .ready⟩).1] = _
    rw [hlater]

end Machine

end StackMachine
