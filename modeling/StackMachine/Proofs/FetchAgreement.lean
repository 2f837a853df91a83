import StackMachine.Listing
import StackMachine.Proofs.Session

/-!
# The machine and the listing read code alike

Code is read in two places: a listing decodes one instruction after the other, and a run looks up a
handler for each byte and lets the handler read the immediate.  Both stop at the same boundaries
and, where code cannot be read, with the same error.

`StopsAt code e k start` says that decoding from `start` on, instruction after instruction, fails
with `e` at the instruction that starts at `k`.  A run from `start` fails there too, unless it ended
before: it cannot pass an instruction that cannot be decoded.  Conversely a run that fails with an
error of reading has met such an instruction, because no effect of an opcode has an error of that
kind.
-/

namespace StackMachine

/-- The errors of reading code: a byte that is no opcode, and code that ends within an
instruction. -/
def Error.IsReading : Error → Prop
  | .undefinedOpcode _ _ => True
  | .truncated _ _ _ => True
  | _ => False

namespace Listing

/-- Decoding from a start on, one instruction after the other, fails with `e` at the instruction
that starts at `k`. -/
inductive StopsAt (code : List UInt8) (e : Error) (k : Nat) : Nat → Prop
  | here (hk : k < code.length) (hd : Instruction.decodeAt code k = .error e) : StopsAt code e k k
  | later {start next : Nat} {i : Instruction} (hs : start < code.length)
      (hd : Instruction.decodeAt code start = .ok (i, next)) (hn : StopsAt code e k next) :
      StopsAt code e k start

/-- The next instruction starts past the one that was decoded. -/
theorem lt_of_decodeAt {code : List UInt8} {start next : Nat} {i : Instruction}
    (h : Instruction.decodeAt code start = .ok (i, next)) : start < next := by
  unfold Instruction.decodeAt at h
  split at h
  · exact absurd h (by simp)
  · obtain ⟨rfl, rfl⟩ := Prod.mk.inj (Except.ok.inj h)
    exact Nat.lt_add_of_pos_right (Instruction.size_pos _)

theorem StopsAt.le {code : List UInt8} {e : Error} {k start : Nat} (h : StopsAt code e k start) :
    start ≤ k := by
  induction h with
  | here hk hd => exact Nat.le_refl k
  | later hs hd hn ih => exact Nat.le_trans (Nat.le_of_lt (lt_of_decodeAt hd)) ih

theorem StopsAt.lt {code : List UInt8} {e : Error} {k start : Nat} (h : StopsAt code e k start) :
    start < code.length := by
  cases h with
  | here hk hd => exact hk
  | later hs hd hn => exact hs

/-- Behind an instruction that can be decoded, decoding stops where it stopped before. -/
theorem StopsAt.of_decodeAt {code : List UInt8} {e : Error} {k start next : Nat} {i : Instruction}
    (h : StopsAt code e k start) (hd : Instruction.decodeAt code start = .ok (i, next)) :
    StopsAt code e k next := by
  cases h with
  | here _ hd' =>
    rw [hd] at hd'
    exact absurd hd' (by simp)
  | later _ hd' hn =>
    rw [hd] at hd'
    obtain ⟨_, rfl⟩ := Prod.mk.inj (Except.ok.inj hd')
    exact hn

/-! ## Listings that fail -/

theorem instructions_of_decodeAt_error {code : List UInt8} {e : Error} {k : Nat}
    (hk : k < code.length) (hd : Instruction.decodeAt code k = .error e) :
    instructions k (code.drop k) = .error e := by
  have hc : code.drop k = code[k] :: code.drop (k + 1) := List.drop_eq_getElem_cons hk
  unfold Instruction.decodeAt at hd
  rw [hc] at hd ⊢
  rw [instructions]
  split
  · rename_i e' hr
    rw [hr] at hd
    obtain rfl := Except.error.inj hd
    rfl
  · rename_i i rest hr
    rw [hr] at hd
    exact absurd hd (by simp)

/-- A listing that starts at an instruction goes on at the next one. -/
theorem instructions_of_decodeAt {code : List UInt8} {start next : Nat} {i : Instruction}
    (hd : Instruction.decodeAt code start = .ok (i, next)) :
    instructions start (code.drop start) =
      (instructions next (code.drop next)).map (i :: ·) := by
  unfold Instruction.decodeAt at hd
  split at hd
  · exact absurd hd (by simp)
  · rename_i j rest hr
    obtain ⟨rfl, rfl⟩ := Prod.mk.inj (Except.ok.inj hd)
    have he := Instruction.eq_encode_append hr
    have hrest : code.drop (start + j.size) = rest := by
      rw [← List.drop_drop, he, List.drop_left' (Instruction.length_encode j)]
    rw [he, instructions_encode_append, hrest]

theorem exists_stopsAt {code : List UInt8} {e : Error} {start : Nat}
    (h : instructions start (code.drop start) = .error e) : ∃ k, StopsAt code e k start := by
  -- On the code that is left after `start`.
  generalize hn : code.length - start = n
  induction n using Nat.strongRecOn generalizing start with
  | _ n ih =>
    rcases Nat.lt_or_ge start code.length with hs | hs
    · cases hd : Instruction.decodeAt code start with
      | error e' =>
        rw [instructions_of_decodeAt_error hs hd] at h
        obtain rfl := Except.error.inj h
        exact ⟨start, .here hs hd⟩
      | ok p =>
        obtain ⟨i, next⟩ := p
        rw [instructions_of_decodeAt hd] at h
        have hlt := lt_of_decodeAt hd
        have hr := Result.map_eq_error_iff.1 h
        obtain ⟨k, hk⟩ := ih (code.length - next) (by omega) hr rfl
        exact ⟨k, .later hs hd hk⟩
    · rw [List.drop_eq_nil_of_le hs, instructions_nil] at h
      exact absurd h (by simp)

theorem StopsAt.instructions_eq {code : List UInt8} {e : Error} {k start : Nat}
    (h : StopsAt code e k start) : instructions start (code.drop start) = .error e := by
  induction h with
  | here hk hd => exact instructions_of_decodeAt_error hk hd
  | later hs hd hn ih =>
    rw [instructions_of_decodeAt hd, ih]
    rfl

/-- A listing fails with the error of the first instruction that cannot be decoded. -/
theorem disassemble_eq_error_iff {code : List UInt8} {e : Error} :
    disassemble code = .error e ↔ ∃ k, StopsAt code e k 0 := by
  constructor
  · intro h
    exact exists_stopsAt (Result.map_eq_error_iff.1 h)
  · rintro ⟨k, hk⟩
    exact Result.map_eq_error_iff.2 hk.instructions_eq

end Listing

namespace Reference

open Listing (StopsAt)

/-! ## One instruction -/

theorem not_isReading_of_read {memory : List UInt8} {offset length : Nat} {e : Error}
    (h : Flat.read memory offset length = .error e) : ¬ e.IsReading := by
  unfold Flat.read at h
  split at h
  · exact absurd h (by simp)
  · obtain rfl := Except.error.inj h
    exact id

theorem not_isReading_of_write {memory : List UInt8} {offset : Nat} {bs : List UInt8} {e : Error}
    (h : Flat.write memory offset bs = .error e) : ¬ e.IsReading := by
  unfold Flat.write at h
  split at h
  · exact absurd h (by simp)
  · obtain rfl := Except.error.inj h
    exact id

/-- No effect of an opcode fails with an error of reading. -/
theorem not_isReading_of_effect {c : Capacities} {value : Nat} {memory : List UInt8} {o : Opcode}
    {ws : List UInt64} {e : Error} (h : effect c value memory o ws = .error e) :
    ¬ e.IsReading := by
  match o, ws with
  -- A push can overflow, a division can meet a zero, an access can be out of bounds; the rest is
  -- underflow.
  | .push1, _ | .push8, _ =>
    simp only [effect] at h
    split at h
    · exact absurd h (by simp)
    · obtain rfl := Except.error.inj h
      exact id
  | .pop, _ :: _ | .add, _ :: _ :: _ | .sub, _ :: _ :: _ | .mul, _ :: _ :: _ =>
    exact absurd h (by simp [effect])
  | .div, _ :: _ :: _ =>
    simp only [effect] at h
    split at h
    · obtain rfl := Except.error.inj h
      exact id
    · exact absurd h (by simp)
  | .store1, _ :: _ :: _ | .store8, _ :: _ :: _ =>
    exact not_isReading_of_write (Result.map_eq_error_iff.1 h)
  | .load8, _ :: _ | .ret, _ :: _ :: _ =>
    exact not_isReading_of_read (Result.map_eq_error_iff.1 h)
  | .pop, [] | .load8, []
  | .add, [] | .sub, [] | .mul, [] | .div, [] | .store1, [] | .store8, [] | .ret, []
  | .add, [_] | .sub, [_] | .mul, [_] | .div, [_] | .store1, [_] | .store8, [_] | .ret, [_] =>
    obtain rfl := Except.error.inj h
    exact id

/-- A byte that is no opcode cannot be decoded. -/
theorem decodeAt_of_undefined {code : List UInt8} {k : Nat} (hk : k < code.length)
    (ho : Opcode.ofByte? code[k] = none) :
    Instruction.decodeAt code k = .error (.undefinedOpcode code[k] k) := by
  rw [Instruction.decodeAt, List.drop_eq_getElem_cons hk, Instruction.decode, Opcode.decode, ho]

/-- An opcode decodes with its immediate, or fails as the immediate does. -/
theorem decodeAt_of_opcode {code : List UInt8} {k : Nat} {o : Opcode} (hk : k < code.length)
    (ho : Opcode.ofByte? code[k] = some o) :
    Instruction.decodeAt code k =
      (immediate code (k + 1) o).map fun value => (.ofOpcode o value, k + o.size) := by
  rw [Instruction.decodeAt, List.drop_eq_getElem_cons hk, Instruction.decode, Opcode.decode, ho,
    immediate]
  simp only [List.length_take, List.length_drop]
  by_cases h : k + 1 + o.width ≤ code.length
  · rw [if_pos h, if_pos (by omega)]
    simp [Except.map, Instruction.size]
  · rw [if_neg h, if_neg (by omega), Nat.min_eq_right (by omega)]
    rfl

/-- The value of an immediate fits its width. -/
theorem lt_of_immediate {code : List UInt8} {start value : Nat} {o : Opcode}
    (h : immediate code start o = .ok value) : value < Bytes.count o.width := by
  unfold immediate at h
  split at h
  · rename_i hle
    obtain rfl := Except.ok.inj h
    have hl : ((code.drop start).take o.width).length = o.width := by
      rw [List.length_take, List.length_drop]
      omega
    have hv := Bytes.value_lt ((code.drop start).take o.width)
    rwa [hl] at hv
  · exact absurd h (by simp)

variable {r : Reference} {e : Error} {k : Nat}

/-- Decoding fails with errors of reading only. -/
theorem isReading_of_stopsAt {code : List UInt8} {start : Nat} (h : StopsAt code e k start) :
    e.IsReading := by
  induction h with
  | here hk hd =>
    cases ho : Opcode.ofByte? code[k] with
    | none =>
      rw [decodeAt_of_undefined hk ho] at hd
      obtain rfl := Except.error.inj hd
      exact trivial
    | some o =>
      rw [decodeAt_of_opcode hk ho] at hd
      have hv := Result.map_eq_error_iff.1 hd
      unfold immediate at hv
      split at hv
      · exact absurd hv (by simp)
      · obtain rfl := Except.error.inj hv
        exact trivial
  | later hs hd hn ih => exact ih

/-- What cannot be decoded cannot be executed, and both say why in the same way. -/
theorem instruct_of_decodeAt_error {hk : r.position < r.code.length}
    (hd : Instruction.decodeAt r.code r.position = .error e) :
    r.instruct r.code[r.position] = .error e := by
  cases ho : Opcode.ofByte? r.code[r.position] with
  | none =>
    rw [decodeAt_of_undefined hk ho] at hd
    obtain rfl := Except.error.inj hd
    rw [instruct, ho]
  | some o =>
    rw [decodeAt_of_opcode hk ho] at hd
    exact instruct_of_immediate_error ho (Result.map_eq_error_iff.1 hd)

/-- An instruction that succeeds is decoded, with the same end. -/
theorem decodeAt_of_instruct {hk : r.position < r.code.length} {o : Opcode} {f : Effect}
    (hi : r.instruct r.code[r.position] = .ok (o, f)) :
    ∃ i, Instruction.decodeAt r.code r.position = .ok (i, r.position + o.size) := by
  obtain ⟨ho, value, hv, _⟩ := instruct_eq_ok_iff.1 hi
  refine ⟨.ofOpcode o value, ?_⟩
  rw [decodeAt_of_opcode hk ho, hv]
  rfl

/-- An instruction that is decoded has the effect of its opcode with its operand. -/
theorem instruct_of_decodeAt (hk : r.position < r.code.length) {i : Instruction} {next : Nat}
    (hd : Instruction.decodeAt r.code r.position = .ok (i, next)) :
    r.instruct r.code[r.position] =
      (effect r.capacities (i.operand?.getD 0) r.memory i.opcode r.stack).map (i.opcode, ·) := by
  cases ho : Opcode.ofByte? r.code[r.position] with
  | none =>
    rw [decodeAt_of_undefined hk ho] at hd
    exact absurd hd (by simp)
  | some o =>
    rw [decodeAt_of_opcode hk ho] at hd
    obtain ⟨value, hv, hi⟩ := Result.map_eq_ok_iff.1 hd
    obtain ⟨rfl, _⟩ := Prod.mk.inj hi
    rw [instruct_of_immediate ho hv, Instruction.opcode_ofOpcode,
      Instruction.operand_ofOpcode (lt_of_immediate hv)]

/-- An instruction that is decoded does not fail with an error of reading. -/
theorem not_isReading_of_decodeAt {hk : r.position < r.code.length} {i : Instruction} {next : Nat}
    (hd : Instruction.decodeAt r.code r.position = .ok (i, next))
    (hi : r.instruct r.code[r.position] = .error e) : ¬ e.IsReading := by
  rw [instruct_of_decodeAt hk hd] at hi
  exact not_isReading_of_effect (Result.map_eq_error_iff.1 hi)

/-! ## Whole runs -/

/-- A run that fails with an error of reading has met an instruction that cannot be decoded. -/
theorem stopsAt_of_run (h : r.run.1 = .error e) (he : e.IsReading) :
    StopsAt r.code e r.run.2.position r.position := by
  fun_induction run r with
  | case1 r hlt o stack memory hi hs ih =>
    obtain ⟨i, hd⟩ := decodeAt_of_instruct hi
    exact .later hlt hd (ih h)
  | case2 r hlt o bytes stack hi => exact absurd h (by simp)
  | case3 r hlt e' hi =>
    obtain rfl := Except.error.inj h
    cases hd : Instruction.decodeAt r.code r.position with
    | error e =>
      rw [instruct_of_decodeAt_error hd] at hi
      obtain rfl := Except.error.inj hi
      exact .here hlt hd
    | ok p =>
      -- Here the opcode's effect failed, and that is no error of reading.
      exact absurd he (not_isReading_of_decodeAt hd hi)
  | case4 r hge => exact absurd h (by simp)

/-- A run towards an instruction that cannot be decoded fails there with the decoder's error, or has
ended before: with an output, or with an error of another kind. -/
theorem run_of_stopsAt (h : StopsAt r.code e k r.position) :
    (r.run.1 = .error e ∧ r.run.2.status = .halted .faulted ∧ r.run.2.position = k) ∨
      (r.run.2.status = .halted .returned ∧ r.run.2.position ≤ k) ∨
      ∃ e', r.run.1 = .error e' ∧ e' ≠ e ∧ r.run.2.status = .halted .faulted ∧
        r.run.2.position < k := by
  fun_induction run r with
  | case1 r hlt o stack memory hi hs ih =>
    obtain ⟨i, hd⟩ := decodeAt_of_instruct hi
    exact ih (h.of_decodeAt hd)
  | case2 r hlt o bytes stack hi =>
    obtain ⟨i, hd⟩ := decodeAt_of_instruct hi
    exact .inr (.inl ⟨rfl, (h.of_decodeAt hd).le⟩)
  | case3 r hlt e' hi =>
    cases h with
    | here _ hd =>
      rw [instruct_of_decodeAt_error hd] at hi
      obtain rfl := Except.error.inj hi
      exact .inl ⟨rfl, rfl, rfl⟩
    | later _ hd hn =>
      -- The instruction is readable, so its error is of another kind, and decoding goes on past it.
      refine .inr (.inr ⟨e', rfl, ?_, rfl, ?_⟩)
      · rintro rfl
        exact not_isReading_of_decodeAt hd hi (isReading_of_stopsAt hn)
      · exact Nat.lt_of_lt_of_le (Listing.lt_of_decodeAt hd) hn.le
  | case4 r hge => exact absurd h.lt hge

end Reference

namespace Machine

/-- **The machine and the listing read code alike.**  Load code into any machine and run it.

* If the code has a listing, the run does not fail with an error of reading.
* If the run fails with an error of reading, the listing fails with the same error.
* If the run comes to the end of the code, the code has a listing.
* If the listing fails, it fails at some instruction.  There the run fails with the same error,
  unless it stopped earlier: it returned at the start of that instruction or before, or it failed
  before with another error. -/
theorem fetch_agrees_with_listing (m : Machine) (code : List UInt8) :
    let t := (m.load code).run
    (∀ text, Listing.disassemble code = .ok text → ∀ e : Error, e.IsReading → t.1 ≠ .error e) ∧
      (∀ e : Error, e.IsReading → t.1 = .error e → Listing.disassemble code = .error e) ∧
      (t.2.status = .halted .exhausted → ∃ text, Listing.disassemble code = .ok text) ∧
      (∀ e, Listing.disassemble code = .error e →
        (∃ k, Listing.StopsAt code e k 0) ∧
          ∀ k, Listing.StopsAt code e k 0 →
            (t.1 = .error e ∧ t.2.status = .halted .faulted ∧ t.2.position = k) ∨
              (t.2.status = .halted .returned ∧ t.2.position ≤ k) ∨
              ∃ e', t.1 = .error e' ∧ e' ≠ e ∧ t.2.status = .halted .faulted ∧
                t.2.position < k) := by
  intro t
  have hview : (m.view.load code).run = (t.1, t.2.view) := view_run (m.load code)
  have hb : ∀ e : Error, e.IsReading → t.1 = .error e → Listing.disassemble code = .error e := by
    intro e he ht
    have hr : (m.view.load code).run.1 = .error e := by rw [hview, ht]
    exact Listing.disassemble_eq_error_iff.2 ⟨_, Reference.stopsAt_of_run hr he⟩
  have hd {e : Error} {k : Nat} (hk : Listing.StopsAt code e k 0) :=
    Reference.run_of_stopsAt (r := m.view.load code) hk
  rw [hview] at hd
  refine ⟨?_, hb, ?_, ?_⟩
  · intro text htext e he ht
    rw [hb e he ht] at htext
    exact absurd htext (by simp)
  · intro hs
    cases hl : Listing.disassemble code with
    | ok text => exact ⟨text, rfl⟩
    | error e =>
      obtain ⟨k, hk⟩ := Listing.disassemble_eq_error_iff.1 hl
      have hne : t.2.status ≠ .halted .exhausted := by
        rcases hd hk with ⟨_, hf, _⟩ | ⟨hf, _⟩ | ⟨_, _, _, hf, _⟩
        all_goals
          intro h
          exact absurd (hf.symm.trans h) (by decide)
      exact absurd hs hne
  · intro e he
    exact ⟨Listing.disassemble_eq_error_iff.1 he, fun k hk => hd hk⟩

/-- Code that ends within its second immediate: the run and the listing report the same missing
bytes.  Without that instruction the run comes to the end, and there is a listing. -/
theorem fetch_agrees_with_listing_truncated :
    let m := fresh ⟨4, 16⟩
    let t := (m.load [0x01, 7, 0x02, 1]).run
    (t.1 = .error (.truncated 3 8 1) ∧
        Listing.disassemble [0x01, 7, 0x02, 1] = .error (.truncated 3 8 1) ∧
        Listing.StopsAt [0x01, 7, 0x02, 1] (.truncated 3 8 1) 2 0) ∧
      (m.load [0x01, 7]).run.2.status = .halted .exhausted ∧
        ∃ text, Listing.disassemble [0x01, 7] = .ok text := by
  intro m t
  have hr : ((Reference.fresh ⟨4, 16⟩).load [0x01, 7, 0x02, 1]).run =
      (.error (.truncated 3 8 1),
        ⟨⟨4, 16⟩, [0x01, 7, 0x02, 1], 2, [7], List.replicate 16 0, .halted .faulted⟩) := by
    cbv
  have he : ((Reference.fresh ⟨4, 16⟩).load [0x01, 7]).run =
      (.ok [], ⟨⟨4, 16⟩, [0x01, 7], 2, [7], List.replicate 16 0, .halted .exhausted⟩) := by
    cbv
  rw [view_run_load_fresh (by decide)] at hr he
  have ht : t.1 = .error (.truncated 3 8 1) := (Prod.mk.inj hr).1
  have hs : (m.load [0x01, 7]).run.2.status = .halted .exhausted :=
    congrArg Reference.status (Prod.mk.inj he).2
  have hstop : Listing.StopsAt [0x01, 7, 0x02, 1] (.truncated 3 8 1) 2 0 :=
    .later (i := .push1 7) (by decide) rfl (.here (by decide) rfl)
  obtain ⟨_, hb, _, _⟩ := fetch_agrees_with_listing m [0x01, 7, 0x02, 1]
  obtain ⟨_, _, hc, _⟩ := fetch_agrees_with_listing m [0x01, 7]
  exact ⟨⟨ht, hb _ trivial ht, hstop⟩, hs, hc hs⟩

end Machine

end StackMachine
