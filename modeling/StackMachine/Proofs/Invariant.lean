import StackMachine.Proofs.FetchAgreement

/-!
# What every session keeps

Whatever is asked of a machine, in any order, its position is a *boundary* of its code: it is
reached from the start by moving over instructions that can be decoded, one after the other.  A run
goes on from wherever the last one stopped, so this is what makes it read code the way a listing
does.  The status says more about the position:

* a machine that is ready is at the start;
* after a run to the end it is at the end, and after a fault it is before it, at an instruction;
* after a return it is just behind a return, which is an instruction of the code and no byte of an
  immediate.

`Placed` collects these facts.  A run from a boundary leaves a machine that is placed, by induction
over the run, and the other operations either go to the start or leave the position alone.
-/

namespace StackMachine

namespace Listing

/-- The places of code that are reached from its start by moving over instructions, each of which
can be decoded.  The end of code that can be decoded as a whole is one of them. -/
inductive Boundary (code : List UInt8) : Nat → Prop
  | start : Boundary code 0
  | next {k : Nat} {i : Instruction} (hk : Boundary code k)
      (hd : Instruction.decodeAt code k = .ok (i, k + i.size)) : Boundary code (k + i.size)

/-- An instruction that can be decoded ends within the code, and the next one starts there. -/
theorem next_of_decodeAt {code : List UInt8} {k next : Nat} {i : Instruction}
    (h : Instruction.decodeAt code k = .ok (i, next)) :
    next = k + i.size ∧ next ≤ code.length := by
  unfold Instruction.decodeAt at h
  split at h
  · exact absurd h (by simp)
  · rename_i j rest hr
    obtain ⟨rfl, rfl⟩ := Prod.mk.inj (Except.ok.inj h)
    have hl := congrArg List.length (Instruction.eq_encode_append hr)
    rw [List.length_drop, List.length_append, Instruction.length_encode] at hl
    have hs := j.size_pos
    refine ⟨rfl, ?_⟩
    omega

/-- Behind an instruction that starts at a boundary is a boundary. -/
theorem Boundary.of_decodeAt {code : List UInt8} {k next : Nat} {i : Instruction}
    (hk : Boundary code k) (hd : Instruction.decodeAt code k = .ok (i, next)) :
    Boundary code next := by
  obtain ⟨rfl, _⟩ := next_of_decodeAt hd
  exact .next hk hd

theorem Boundary.le {code : List UInt8} {k : Nat} (h : Boundary code k) : k ≤ code.length := by
  cases h with
  | start => exact Nat.zero_le _
  | next hk hd => exact (next_of_decodeAt hd).2

end Listing

open Listing (Boundary)

/-- A position fits code and a status: it is a boundary within the code, and where the status says
how the last run ended, it is where such a run ends. -/
structure Placed (code : List UInt8) (position : Nat) (status : Status) : Prop where
  position_le : position ≤ code.length
  boundary : Boundary code position
  ready : status = .ready → position = 0
  exhausted : status = .halted .exhausted → position = code.length
  faulted : status = .halted .faulted → position < code.length
  returned : status = .halted .returned →
    1 ≤ position ∧ Boundary code (position - 1) ∧ code[position - 1]? = some 0x30

namespace Placed

variable {code : List UInt8} {k : Nat}

theorem of_start (code : List UInt8) : Placed code 0 .ready where
  position_le := Nat.zero_le _
  boundary := .start
  ready _ := rfl
  exhausted h := absurd h (by decide)
  faulted h := absurd h (by decide)
  returned h := absurd h (by decide)

theorem of_end (hb : Boundary code k) (hk : code.length ≤ k) :
    Placed code k (.halted .exhausted) where
  position_le := hb.le
  boundary := hb
  ready h := absurd h (by decide)
  exhausted _ := Nat.le_antisymm hb.le hk
  faulted h := absurd h (by decide)
  returned h := absurd h (by decide)

theorem of_fault (hb : Boundary code k) (hk : k < code.length) :
    Placed code k (.halted .faulted) where
  position_le := hb.le
  boundary := hb
  ready h := absurd h (by decide)
  exhausted h := absurd h (by decide)
  faulted _ := hk
  returned h := absurd h (by decide)

theorem of_return {i : Instruction} (hb : Boundary code k)
    (hd : Instruction.decodeAt code k = .ok (i, k + 1)) (hr : code[k]? = some Opcode.ret.byte) :
    Placed code (k + 1) (.halted .returned) where
  position_le := (hb.of_decodeAt hd).le
  boundary := hb.of_decodeAt hd
  ready h := absurd h (by decide)
  exhausted h := absurd h (by decide)
  faulted h := absurd h (by decide)
  returned _ := ⟨Nat.le_add_left 1 k, hb, hr⟩

end Placed

namespace Reference

/-! ## Runs -/

/-- Only a return ends a program with an output. -/
theorem eq_ret_of_output {c : Capacities} {value : Nat} {memory : List UInt8} {o : Opcode}
    {ws stack : List UInt64} {bytes : List UInt8}
    (h : effect c value memory o ws = .ok (.output bytes stack)) : o = .ret := by
  match o, ws with
  | .ret, _ => rfl
  | .push1, _ | .push8, _ =>
    simp only [effect] at h
    split at h
    · exact absurd h (by simp)
    · exact absurd h (by simp)
  | .div, _ :: _ :: _ =>
    simp only [effect] at h
    split at h
    · exact absurd h (by simp)
    · exact absurd h (by simp)
  | .store1, _ :: _ :: _ | .store8, _ :: _ :: _ | .load8, _ :: _ =>
    obtain ⟨_, _, hf⟩ := Result.map_eq_ok_iff.1 h
    exact absurd hf (by simp)
  | .pop, _ :: _ | .add, _ :: _ :: _ | .sub, _ :: _ :: _ | .mul, _ :: _ :: _
  | .pop, [] | .load8, []
  | .add, [] | .sub, [] | .mul, [] | .div, [] | .store1, [] | .store8, []
  | .add, [_] | .sub, [_] | .mul, [_] | .div, [_] | .store1, [_] | .store8, [_] =>
    exact absurd h (by simp [effect])

/-- **A run from a boundary ends at a place that fits how it ended.** -/
theorem placed_run {r : Reference} (hb : Boundary r.code r.position) :
    Placed r.run.2.code r.run.2.position r.run.2.status := by
  fun_induction run r with
  | case1 r hlt o stack memory hi hs ih =>
    obtain ⟨i, hd⟩ := decodeAt_of_instruct hi
    exact ih (hb.of_decodeAt hd)
  | case2 r hlt o bytes stack hi =>
    obtain ⟨i, hd⟩ := decodeAt_of_instruct hi
    obtain ⟨ho, value, _, hf⟩ := instruct_eq_ok_iff.1 hi
    obtain rfl := eq_ret_of_output hf
    have hbyte : r.code[r.position]? = some Opcode.ret.byte := by
      rw [List.getElem?_eq_getElem hlt, Opcode.ofByte?_eq_some_iff.1 ho]
    exact .of_return hb hd hbyte
  | case3 r hlt e hi => exact .of_fault hb hlt
  | case4 r hge => exact .of_end hb (Nat.le_of_not_lt hge)

/-! ## Sessions -/

theorem placed_perform {r : Reference} (h : Placed r.code r.position r.status) (op : Operation) :
    Placed (r.perform op).2.code (r.perform op).2.position (r.perform op).2.status := by
  cases op with
  | load code => exact .of_start code
  | run => exact placed_run h.boundary
  | reset => exact .of_start r.code
  | runFresh code => exact placed_run (r := r.reset.load code) .start
  | readMemory offset length => exact h
  | writeMemory offset bytes =>
    simp only [perform, writeMemory]
    split
    · exact h
    · exact h

/-- From a place that fits, a session leads to such places only. -/
theorem placed_drive {r : Reference} (h : Placed r.code r.position r.status)
    (ops : List Operation) :
    Placed (r.drive ops).2.code (r.drive ops).2.position (r.drive ops).2.status := by
  induction ops generalizing r with
  | nil => exact h
  | cons op ops ih => exact ih (placed_perform h op)

end Reference

namespace Machine

theorem capacities_perform (m : Machine) (op : Operation) :
    (m.perform op).2.capacities = m.capacities := by
  cases op with
  | load code => rfl
  | run => exact capacities_run m
  | reset => rfl
  | runFresh code => exact capacities_run (m.reset.load code)
  | readMemory offset length => rfl
  | writeMemory offset bytes =>
    have hk := Steady.onMemory (Memory.write offset bytes) m
    simp only [perform, writeMemory]
    split
    · rename_i t ht
      rw [ht] at hk
      exact hk.capacities
    · rename_i e t ht
      rw [ht] at hk
      exact hk.capacities

/-- A machine keeps the capacities that it was made with. -/
theorem capacities_drive (m : Machine) (ops : List Operation) :
    (m.drive ops).2.capacities = m.capacities := by
  induction ops generalizing m with
  | nil => rfl
  | cons op ops ih => exact (ih (m.perform op).2).trans (capacities_perform m op)

/-- **The invariant of all sessions.**  However a machine was used since it was made, its capacities
are those it was made with, its stack holds no more words than they allow, and its position is a
boundary of its code that fits its status. -/
theorem session_invariant {c : Capacities} {m : Machine} (h : Made c m) (ops : List Operation) :
    let t := (m.drive ops).2
    t.capacities = c ∧ t.words.length ≤ c.stack ∧ Placed t.code t.position t.status := by
  intro t
  have hr : ((Reference.fresh c).drive ops).2 = t.view := congrArg Prod.snd (h.view_drive ops)
  refine ⟨?_, ?_, ?_⟩
  · obtain ⟨_, rfl⟩ := h.valid_and_eq
    exact capacities_drive (fresh c) ops
  · -- The stack was made with the capacity of the machine, and nothing changes it.
    have hc : t.view.capacities = c := by
      rw [← hr]
      exact Reference.capacities_drive (Reference.fresh c) ops
    have hb := (view_bounded t).1
    rw [hc] at hb
    show t.words.length ≤ c.stack
    rw [← List.length_reverse]
    exact hb
  · have hp : Placed t.view.code t.view.position t.view.status := by
      rw [← hr]
      exact Reference.placed_drive (.of_start []) ops
    exact hp

/-- A program whose first immediate is the byte of a return: the machine stands behind the return at
the end, which starts at a boundary, and not behind the immediate. -/
theorem session_invariant_returned :
    Machine.create ⟨4, 64⟩ = .ok (fresh ⟨4, 64⟩) ∧
      let t := ((fresh ⟨4, 64⟩).drive [.load [0x01, 0x30, 0x01, 0, 0x30], .run]).2
      t.status = .halted .returned ∧ t.position = 5 ∧ Boundary t.code 4 ∧
        t.code[4]? = some 0x30 := by
  refine ⟨rfl, ?_⟩
  intro t
  have hr : ((Reference.fresh ⟨4, 64⟩).load [0x01, 0x30, 0x01, 0, 0x30]).run =
      (.ok (List.replicate 48 0),
        ⟨⟨4, 64⟩, [0x01, 0x30, 0x01, 0, 0x30], 5, [], List.replicate 64 0,
          .halted .returned⟩) := by
    cbv
  rw [view_run_load_fresh (by decide)] at hr
  have hv : t.view = _ := (Prod.mk.inj hr).2
  have hs : t.status = .halted .returned := congrArg Reference.status hv
  have hp : t.position = 5 := congrArg Reference.position hv
  obtain ⟨_, _, hplaced⟩ := session_invariant (.create (c := ⟨4, 64⟩) rfl)
    [.load [0x01, 0x30, 0x01, 0, 0x30], .run]
  obtain ⟨_, hb, hbyte⟩ := hplaced.returned hs
  rw [hp] at hb hbyte
  exact ⟨hs, hp, hb, hbyte⟩

end Machine

end StackMachine
