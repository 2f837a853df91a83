import StackMachine.Proofs.Session

/-!
# Faults are atomic

A run that fails has the effect of the instructions before the failing one and no other.  Cut the
code at the position that the fault reports and run what is left: that run comes to its end, and it
leaves the words, the memory and the position that the failing run left.

For the reference machine this is an induction over the run.  An instruction that ends before the
cut reads the same immediate in the cut code, so it has the same effect; the failing one has none,
and starts at the cut.  The machine inherits the fact through its view, and a failing handler leaves
the words and the memory alone by `handleNext_of_opcode`.
-/

namespace StackMachine

namespace Reference

/-- The reference machine with nothing but the first `k` bytes of its code. -/
def cut (r : Reference) (k : Nat) : Reference := { r with code := r.code.take k }

/-- Code that holds an immediate holds it also when it is cut after the immediate. -/
theorem immediate_take {code : List UInt8} {start k value : Nat} {o : Opcode}
    (h : immediate code start o = .ok value) (hk : start + o.width ≤ k) :
    immediate (code.take k) start o = .ok value := by
  unfold immediate at h ⊢
  split at h
  · rename_i hle
    have hl : start + o.width ≤ (code.take k).length := by
      rw [List.length_take]
      omega
    have hw : ((code.take k).drop start).take o.width = (code.drop start).take o.width := by
      rw [List.drop_take, List.take_take, Nat.min_eq_left (by omega)]
    rw [if_pos hl, hw, h]
  · exact absurd h (by simp)

/-- An instruction before the cut has the effect that it has in the whole code. -/
theorem instruct_cut {r : Reference} {b : UInt8} {o : Opcode} {f : Effect} {k : Nat}
    (h : r.instruct b = .ok (o, f)) (hk : r.position + o.size ≤ k) :
    (r.cut k).instruct b = .ok (o, f) := by
  obtain ⟨ho, value, hv, hf⟩ := instruct_eq_ok_iff.1 h
  have hw : r.position + 1 + o.width ≤ k := by
    rw [Opcode.size] at hk
    omega
  exact instruct_eq_ok_iff.2 ⟨ho, value, immediate_take hv hw, hf⟩

/-- After a fault, running the code that is cut at the position comes to the end with the state
that the fault left. -/
theorem run_cut_of_error {r : Reference} {e : Error} (h : r.run.1 = .error e) :
    r.run.2.status = .halted .faulted ∧
      (r.cut r.run.2.position).run =
        (.ok [], { r.run.2.cut r.run.2.position with status := .halted .exhausted }) := by
  fun_induction run r with
  | case1 r hlt o stack memory hi hs ih =>
    -- The position only grows, so this instruction lies before the cut.
    obtain ⟨hstatus, hcut⟩ := ih h
    refine ⟨hstatus, ?_⟩
    rw [← hcut]
    generalize hk : (run { r with stack, memory, position := r.position + o.size }).2.position = k
    have hle : r.position + o.size ≤ k := by
      rw [← hk]
      exact position_le_run { r with stack, memory, position := r.position + o.size }
    have hpos : (r.cut k).position < (r.cut k).code.length := by
      show r.position < (r.code.take k).length
      rw [List.length_take]
      omega
    have hb : (r.cut k).code[(r.cut k).position] = r.code[r.position] := List.getElem_take
    rw [run_of_next (r := r.cut k) (h := hpos) (hb ▸ instruct_cut hi hle)]
    rfl
  | case2 r hlt o bytes stack hi => exact absurd h (by simp)
  | case3 r hlt e' hi =>
    refine ⟨rfl, ?_⟩
    have hend : (r.cut r.position).code.length ≤ (r.cut r.position).position := by
      show (r.code.take r.position).length ≤ r.position
      rw [List.length_take]
      omega
    exact run_of_length_le hend
  | case4 r hge => exact absurd h (by simp)

end Reference

namespace Machine

/-- The machine with nothing but the first `k` bytes of its code. -/
def cut (m : Machine) (k : Nat) : Machine := { m with bytes := (m.code.take k).toArray }

theorem view_cut (m : Machine) (k : Nat) : (m.cut k).view = m.view.cut k := rfl

/-- Two machines hold the same words and the same bytes of memory, and are at the same position. -/
structure Agrees (m t : Machine) : Prop where
  words : m.words = t.words
  memory : ∀ offset length, m.readMemory offset length = t.readMemory offset length
  position : m.position = t.position

theorem agrees_of_view {m t : Machine} (hs : m.view.stack = t.view.stack)
    (hm : m.view.memory = t.view.memory) (hp : m.view.position = t.view.position) :
    m.Agrees t where
  words := List.reverse_inj.1 hs
  memory offset length := by
    rw [← readMemory_view, ← readMemory_view, Reference.readMemory, hm, Reference.readMemory]
  position := hp

/-- An instruction that fails leaves everything but the position as it was. -/
theorem view_of_handleNext_error {m t : Machine} {h : m.position < m.bytes.size} {e : Error}
    (hs : m.handleNext h = .error e t) : { t.view with position := m.position } = m.view := by
  cases ho : Opcode.ofByte? m.bytes[m.position] with
  | none =>
    rw [handleNext_of_undefined ho] at hs
    cases hs
    rfl
  | some o =>
    have hr := handleNext_of_opcode (h := h) ho
    rw [hs] at hr
    cases hf : m.view.effectAt o with
    | error e' =>
      rw [hf] at hr
      obtain ⟨u, hu, hv⟩ := hr
      cases hu
      exact congrArg (fun v : Reference => { v with position := m.position }) hv
    | ok f =>
      -- An effect that is defined is realized by a handler that succeeds.
      rw [hf] at hr
      cases f with
      | next stack memory =>
        obtain ⟨u, hu, _⟩ := hr
        cases hu
      | output bytes stack =>
        obtain ⟨u, hu, _⟩ := hr
        cases hu

/-- **Faults are atomic.**  Suppose that a run fails.  Then it halts as faulted with the code and
the capacities it started with, and running the code before the failing instruction, from the same
state, comes to the end of that code at the same position and with the same words and memory.  In
particular an instruction that fails changes no word and no byte of memory, and the run puts the
position back. -/
theorem fault_atomic (m : Machine) :
    (∀ e, m.run.1 = .error e →
      let t := m.run.2
      let p := (m.cut t.position).run
      t.status = .halted .faulted ∧ t.code = m.code ∧ t.capacities = m.capacities ∧
        p.1 = .ok [] ∧ p.2.status = .halted .exhausted ∧ p.2.Agrees t) ∧
    (∀ (h : m.position < m.bytes.size) (e : Error) (t : Machine), m.handleNext h = .error e t →
      m.run.1 = .error e ∧ t.words = m.words ∧
        (∀ offset length, t.readMemory offset length = m.readMemory offset length) ∧
        m.run.2.Agrees m) := by
  refine ⟨?_, ?_⟩
  · intro e he t p
    have hview : m.view.run = (m.run.1, t.view) := view_run m
    have herr : m.view.run.1 = .error e := by rw [hview, he]
    obtain ⟨hstatus, hcut⟩ := Reference.run_cut_of_error herr
    have hcode := Reference.code_run m.view
    rw [hview] at hstatus hcut hcode
    have hp : (m.cut t.position).view.run = (p.1, p.2.view) := view_run (m.cut t.position)
    rw [view_cut] at hp
    obtain ⟨hp1, hpv⟩ := Prod.mk.inj (hp.symm.trans hcut)
    have hps := congrArg Reference.stack hpv
    have hpm := congrArg Reference.memory hpv
    have hpp := congrArg Reference.position hpv
    refine ⟨hstatus, hcode, capacities_run m, hp1, ?_, ?_⟩
    · exact congrArg Reference.status hpv
    · exact agrees_of_view hps hpm hpp
  · intro h e t hs
    have hv := view_of_handleNext_error hs
    have hst := congrArg Reference.stack hv
    have hmem := congrArg Reference.memory hv
    have ha : Agrees { t with position := m.position, status := .halted .faulted } m :=
      agrees_of_view hst hmem rfl
    rw [run_of_error hs]
    exact ⟨rfl, ha.words, ha.memory, ha⟩

/-- A store that ends past the memory leaves the two words that it would have taken, as the code
before it does; a drop from an empty stack leaves the stack empty. -/
theorem fault_atomic_store :
    let m := (fresh ⟨4, 16⟩).load [0x01, 7, 0x01, 12, 0x21]
    let d := (fresh ⟨4, 16⟩).load [0x00]
    (m.run.1 = .error (.outOfBounds 12 8 16) ∧ m.run.2.position = 4 ∧ m.run.2.words = [7, 12] ∧
        (m.cut 4).run.2.Agrees m.run.2) ∧
      d.run.1 = .error (.stackUnderflow 1 0) ∧ d.run.2.Agrees d := by
  intro m d
  have hr : ((Reference.fresh ⟨4, 16⟩).load [0x01, 7, 0x01, 12, 0x21]).run =
      (.error (.outOfBounds 12 8 16),
        ⟨⟨4, 16⟩, [0x01, 7, 0x01, 12, 0x21], 4, [12, 7], List.replicate 16 0,
          .halted .faulted⟩) := by
    cbv
  rw [view_run_load_fresh (by decide)] at hr
  obtain ⟨he, hv⟩ := Prod.mk.inj hr
  have hp : m.run.2.position = 4 := congrArg Reference.position hv
  have hw : m.run.2.view.stack = [12, 7] := congrArg Reference.stack hv
  have ha := ((fault_atomic m).1 _ he).2.2.2.2.2
  rw [hp] at ha
  have hd : d.handleNext Nat.one_pos = .error (.stackUnderflow 1 0) d.fetched := by
    show (Handler.dispatch Opcode.pop.byte).run d.fetched = _
    rw [Handler.dispatch_byte]
    rfl
  obtain ⟨hde, _, _, hda⟩ := (fault_atomic d).2 _ _ _ hd
  exact ⟨⟨he, hp, List.reverse_inj.1 hw, ha⟩, hde, hda⟩

end Machine

end StackMachine
