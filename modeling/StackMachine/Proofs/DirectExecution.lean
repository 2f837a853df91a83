import StackMachine.Proofs.Invariant
import StackMachine.Proofs.Spelling

/-!
# Executing the instructions of a source

Instructions can be executed without code: one after the other, each with the effect of its opcode
and its operand on a list of words and a list of bytes, up to the first return, the first fault or
the end of the list.  `execute` does this.  It knows no encodings and no positions; it only counts
the instructions that it has passed.

Assembling a source and running the code comes to the same.  For encoded instructions the argument
is an induction over the list: what is left of the code is the encoding of the instructions that are
left, so each turn of the run decodes the next one, whatever its immediate looks like, and the
position moves by its size.  A source enters only through the instructions that its lines spell.
-/

namespace StackMachine

/-- How the execution of a list of instructions ended. -/
structure Ending where
  result : Result (List UInt8)
  halt : Halt
  /-- The number of instructions before the one that ended the program. -/
  passed : Nat
  stack : List UInt64
  memory : List UInt8

/-- The ending with one more instruction passed before it. -/
def Ending.behind (ending : Ending) : Ending := { ending with passed := ending.passed + 1 }

/-- What an instruction does to words, top first, and bytes. -/
def Instruction.effect (c : Capacities) (i : Instruction) (stack : List UInt64)
    (memory : List UInt8) : Result Reference.Effect :=
  Reference.effect c (i.operand?.getD 0) memory i.opcode stack

namespace Listing

/-- Execute instructions one after the other until one of them ends the program. -/
def execute (c : Capacities) : List Instruction → List UInt64 → List UInt8 → Ending
  | [], stack, memory => ⟨.ok [], .exhausted, 0, stack, memory⟩
  | i :: is, stack, memory =>
    match i.effect c stack memory with
    | .ok (.next stack memory) => (execute c is stack memory).behind
    | .ok (.output bytes stack) => ⟨.ok bytes, .returned, 0, stack, memory⟩
    | .error e => ⟨.error e, .faulted, 0, stack, memory⟩

/-- The number of bytes of a list of instructions in code. -/
def size : List Instruction → Nat
  | [] => 0
  | i :: is => i.size + size is

/-- The number of bytes that an execution of instructions moves over: those that were passed, and a
return if it was executed. -/
def reach (is : List Instruction) (ending : Ending) : Nat :=
  size (is.take ending.passed) + if ending.halt = .returned then 1 else 0

variable {c : Capacities} {i : Instruction} {is : List Instruction} {stack ws : List UInt64}
  {memory bytes : List UInt8}

theorem execute_of_next (h : i.effect c ws memory = .ok (.next stack bytes)) :
    execute c (i :: is) ws memory = (execute c is stack bytes).behind := by
  rw [execute, h]

theorem execute_of_output (h : i.effect c ws memory = .ok (.output bytes stack)) :
    execute c (i :: is) ws memory = ⟨.ok bytes, .returned, 0, stack, memory⟩ := by
  rw [execute, h]

theorem execute_of_error {e : Error} (h : i.effect c ws memory = .error e) :
    execute c (i :: is) ws memory = ⟨.error e, .faulted, 0, ws, memory⟩ := by
  rw [execute, h]

/-- An instruction that is passed adds its size to the reach. -/
theorem reach_cons (i : Instruction) (is : List Instruction) (ending : Ending) :
    reach (i :: is) ending.behind = i.size + reach is ending := by
  show i.size + size (is.take ending.passed) + (if ending.halt = .returned then 1 else 0) = _
  unfold reach
  omega

/-- Instructions that are executed directly do not fail with an error of reading. -/
theorem not_isReading_of_execute {e : Error} (h : (execute c is ws memory).result = .error e) :
    ¬ e.IsReading := by
  induction is generalizing ws memory with
  | nil => exact absurd h (by simp [execute])
  | cons i is ih =>
    cases hf : i.effect c ws memory with
    | error e' =>
      rw [execute_of_error hf] at h
      obtain rfl := Except.error.inj h
      exact Reference.not_isReading_of_effect hf
    | ok effect =>
      cases effect with
      | next stack bytes =>
        rw [execute_of_next hf] at h
        exact ih h
      | output bytes stack =>
        rw [execute_of_output hf] at h
        exact absurd h (by simp)

/-- At the encoding of an instruction that instruction is decoded. -/
theorem decodeAt_of_drop {code rest : List UInt8} {k : Nat} {i : Instruction}
    (h : code.drop k = i.encode ++ rest) : Instruction.decodeAt code k = .ok (i, k + i.size) := by
  unfold Instruction.decodeAt
  rw [h, Instruction.decode_encode_append]

end Listing

namespace Reference

open Listing (execute reach)

/-- The state that an execution of instructions leaves of a machine. -/
def after (r : Reference) (is : List Instruction) (ending : Ending) : Reference :=
  { r with
    position := r.position + reach is ending
    stack := ending.stack
    memory := ending.memory
    status := .halted ending.halt }

/-- An instruction that is passed moves the position by its size. -/
theorem after_behind (r : Reference) (i : Instruction) (is : List Instruction) (ending : Ending)
    (stack : List UInt64) (memory : List UInt8) :
    r.after (i :: is) ending.behind =
      after { r with stack, memory, position := r.position + i.size } is ending := by
  unfold after
  rw [Listing.reach_cons, ← Nat.add_assoc]
  rfl

/-- **A run over encoded instructions executes them.** -/
theorem run_of_drop {r : Reference} {is : List Instruction}
    (h : r.code.drop r.position = Listing.encode is) :
    r.run = ((execute r.capacities is r.stack r.memory).result,
      r.after is (execute r.capacities is r.stack r.memory)) := by
  -- On the instructions that are left; the machine at the next one has passed the first.
  induction is generalizing r with
  | nil =>
    have hle : r.code.length ≤ r.position := List.drop_eq_nil_iff.1 h
    exact run_of_length_le hle
  | cons i is ih =>
    have hd := Listing.decodeAt_of_drop h
    have hnext : r.code.drop (r.position + i.size) = Listing.encode is := by
      rw [← List.drop_drop, h]
      exact List.drop_left' i.length_encode
    have hlt : r.position < r.code.length := by
      have hle := (Listing.next_of_decodeAt hd).2
      have hs := i.size_pos
      omega
    have hi := instruct_of_decodeAt hlt hd
    cases hf : i.effect r.capacities r.stack r.memory with
    | error e =>
      rw [Instruction.effect] at hf
      rw [hf] at hi
      rw [run_of_error hi, Listing.execute_of_error hf]
      rfl
    | ok effect =>
      rw [Instruction.effect] at hf
      rw [hf] at hi
      cases effect with
      | next stack memory =>
        rw [run_of_next hi, Listing.execute_of_next hf, after_behind r i is _ stack memory]
        exact ih hnext
      | output bytes stack =>
        -- The instruction that ends the program is a return, of one byte.
        have ho : i.opcode = .ret := eq_ret_of_output hf
        rw [run_of_output hi, Listing.execute_of_output hf, ho]
        rfl

end Reference

namespace Machine

open Listing (execute reach)

/-- **Assembling and running a source executes its instructions.**  A source that assembles spells
one list of instructions.  Load its code into any machine and run it: the result, the words, the
memory and the status are those of executing these instructions on the words and the memory of the
machine.  The position is the number of bytes of the instructions before the one that ended the
program, and one more if it was a return.  The run does not fail with an error of reading. -/
theorem run_assembled {source : String} {code : List UInt8}
    (h : Assembly.assemble source = .ok code) :
    ∃ is, Assembly.Spelled (Text.lines source.toList) is ∧
      (∀ js, Assembly.Spelled (Text.lines source.toList) js → js = is) ∧
      ∀ m : Machine,
        let t := (m.load code).run
        let ending := execute m.view.capacities is m.view.stack m.view.memory
        t.1 = ending.result ∧
          t.2.Shows
            { capacities := m.view.capacities
              code := code
              position := reach is ending
              stack := ending.stack
              memory := ending.memory
              status := .halted ending.halt } ∧
          ∀ e : Error, e.IsReading → t.1 ≠ .error e := by
  obtain ⟨is, hp, rfl⟩ := Result.map_eq_ok_iff.1 h
  have hs := Assembly.parse_eq_ok_iff.1 hp
  refine ⟨is, hs, fun js hj => hs.unique hj, ?_⟩
  intro m t ending
  have hrun : (m.view.load (Listing.encode is)).run =
      (ending.result, (m.view.load (Listing.encode is)).after is ending) :=
    Reference.run_of_drop rfl
  have hview : (m.view.load (Listing.encode is)).run = (t.1, t.2.view) :=
    view_run (m.load (Listing.encode is))
  obtain ⟨ht, hv⟩ := Prod.mk.inj (hview.symm.trans hrun)
  refine ⟨ht, ?_, ?_⟩
  · have hshow := shows_view t.2
    rw [hv] at hshow
    unfold Reference.after at hshow
    rw [show (m.view.load (Listing.encode is)).position + reach is ending = reach is ending from
      Nat.zero_add _] at hshow
    exact hshow
  · intro e he hte
    rw [ht] at hte
    exact Listing.not_isReading_of_execute hte he

/-- A source whose first operand looks like a return: the run passes the two pushes of two and nine
bytes and returns from the third instruction, so the fourth is not executed. -/
theorem run_assembled_return :
    let source := "PUSH1 0x30 # not a return\n\n\tPUSH8, 1_6\nRETURN\nPOP\n"
    let code : List UInt8 := [0x01, 0x30, 0x02, 0, 0, 0, 0, 0, 0, 0, 16, 0x30, 0x00]
    Assembly.assemble source = .ok code ∧
      let t := ((fresh ⟨4, 64⟩).load code).run
      t.1 = .ok (List.replicate 48 0) ∧ t.2.position = 12 ∧ t.2.status = .halted .returned := by
  intro source code
  have hparse : Assembly.parse source = .ok [.push1 0x30, .push8 16, .ret, .pop] := by
    rw [Assembly.parse, String.toList_ofList]
    -- Scanning a line recurses on its length, which `rfl` does not unfold by itself.
    with_unfolding_all rfl
  have hcode : Assembly.assemble source = .ok code := by
    rw [Assembly.assemble, hparse]
    rfl
  obtain ⟨is, _, hu, hm⟩ := run_assembled hcode
  obtain rfl := hu _ (Assembly.parse_eq_ok_iff.1 hparse)
  obtain ⟨hr, hs, _⟩ := hm (fresh ⟨4, 64⟩)
  have he : execute ⟨4, 64⟩ [.push1 0x30, .push8 16, .ret, .pop] [] (List.replicate 64 0) =
      ⟨.ok (List.replicate 48 0), .returned, 2, [], List.replicate 64 0⟩ := by
    rfl
  rw [view_fresh (by decide)] at hr hs
  simp only [Reference.fresh] at hr hs
  rw [he] at hr hs
  exact ⟨hcode, hr, hs.position, hs.status⟩

end Machine

end StackMachine
