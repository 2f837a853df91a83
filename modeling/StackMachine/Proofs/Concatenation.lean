import StackMachine.Proofs.FaultAtomicity
import StackMachine.Proofs.Invariant

/-!
# Running a concatenation

No instruction looks at code outside its own bytes.  Two facts about runs follow.

* *What follows does not matter.*  Replace the code by code that agrees with it before the place
  where a run ends.  If the run returned, it does the same again; otherwise the machine comes to that
  place in the same state and goes on from there: `run_of_take_eq`.
* *What comes before does not matter.*  Put bytes in front of the code and start behind them.  The
  run does the same, at positions that are larger by their number, and the errors that name a
  position name the larger one: `run_behind`.

A run that comes to the end of its code is therefore continued by a run of what is appended, and a
run that returns keeps its outcome whatever is put behind the return.
-/

namespace StackMachine

/-- The error that names a place `n` bytes further on, if it names one. -/
def Error.shift (n : Nat) : Error → Error
  | .undefinedOpcode byte offset => .undefinedOpcode byte (offset + n)
  | .truncated position requested available => .truncated (position + n) requested available
  | e => e

/-- Only errors of reading name a place. -/
theorem Error.shift_of_not_isReading {e : Error} (h : ¬ e.IsReading) (n : Nat) : e.shift n = e := by
  cases e with
  | undefinedOpcode byte offset => exact absurd trivial h
  | truncated position requested available => exact absurd trivial h
  | _ => rfl

namespace Reference

/-! ## Code that agrees up to a place -/

/-- An immediate that lies before a cut is there also when the code goes on behind the cut. -/
theorem immediate_of_take {code : List UInt8} {start k value : Nat} {o : Opcode}
    (h : immediate (code.take k) start o = .ok value) : immediate code start o = .ok value := by
  unfold immediate at h ⊢
  split at h
  · rename_i hle
    rw [List.length_take] at hle
    have hw : ((code.take k).drop start).take o.width = (code.drop start).take o.width := by
      rw [List.drop_take, List.take_take, Nat.min_eq_left (by omega)]
    rw [if_pos (by omega), ← hw, h]
  · exact absurd h (by simp)

/-- The reference machine with other code. -/
def withCode (r : Reference) (code : List UInt8) : Reference := { r with code }

variable {r : Reference} {code : List UInt8} {k : Nat}

/-- An instruction that ends before a place has the same effect in code that agrees up to it. -/
theorem instruct_of_take_eq {b : UInt8} {o : Opcode} {f : Effect}
    (hc : code.take k = r.code.take k) (h : r.instruct b = .ok (o, f))
    (hk : r.position + o.size ≤ k) : (r.withCode code).instruct b = .ok (o, f) := by
  -- Both codes have the same cut, and the instruction lies before it.
  obtain ⟨ho, value, hv, hf⟩ := instruct_eq_ok_iff.1 (instruct_cut h hk)
  have hcut : immediate (code.take k) (r.position + 1) o = .ok value := by
    rw [hc]
    exact hv
  exact instruct_eq_ok_iff.2 ⟨ho, value, immediate_of_take hcut, hf⟩

/-- Codes that agree up to a place have the same bytes before it. -/
theorem getElem?_of_take_eq (hc : code.take k = r.code.take k) {i : Nat} (hi : i < k) :
    code[i]? = r.code[i]? := by
  rw [← List.getElem?_take_of_lt hi, hc, List.getElem?_take_of_lt hi]

/-- The instruction at the position, if it ends before the place, is the same in both codes. -/
theorem exists_instruct_of_take_eq {hlt : r.position < r.code.length} {o : Opcode} {f : Effect}
    (hc : code.take k = r.code.take k) (h : r.instruct r.code[r.position] = .ok (o, f))
    (hk : r.position + o.size ≤ k) :
    ∃ hlt' : (r.withCode code).position < (r.withCode code).code.length,
      (r.withCode code).instruct (r.withCode code).code[(r.withCode code).position] = .ok (o, f) := by
  have hpos : r.position < k := by
    have hs := o.size_pos
    omega
  have hb : code[r.position]? = some r.code[r.position] := by
    rw [getElem?_of_take_eq hc hpos, List.getElem?_eq_getElem hlt]
  obtain ⟨hlt', hbyte⟩ := List.getElem?_eq_some_iff.1 hb
  refine ⟨hlt', ?_⟩
  show (r.withCode code).instruct code[r.position] = .ok (o, f)
  rw [hbyte]
  exact instruct_of_take_eq hc h hk

/-- **A run is not affected by code behind the place where it ends.**  In code that agrees up to
there, a run that returned returns again, and any other run arrives at that place in the same
state. -/
theorem run_of_take_eq (hc : code.take r.run.2.position = r.code.take r.run.2.position) :
    (r.run.2.status = .halted .returned →
      (r.withCode code).run = (r.run.1, r.run.2.withCode code)) ∧
    (r.run.2.status ≠ .halted .returned →
      (r.withCode code).run = run { r.run.2.withCode code with status := r.status }) := by
  fun_induction run r with
  | case1 r hlt o stack memory hi hs ih =>
    have hle := position_le_run { r with stack, memory, position := r.position + o.size }
    obtain ⟨hlt', hi'⟩ := exists_instruct_of_take_eq hc hi hle
    rw [run_of_next hi']
    exact ih hc
  | case2 r hlt o bytes stack hi =>
    obtain ⟨hlt', hi'⟩ := exists_instruct_of_take_eq hc hi (Nat.le_refl _)
    refine ⟨fun _ => ?_, fun hne => absurd rfl hne⟩
    rw [run_of_output hi']
    rfl
  | case3 r hlt e hi => exact ⟨fun h => absurd h (by simp), fun _ => rfl⟩
  | case4 r hge => exact ⟨fun h => absurd h (by simp), fun _ => rfl⟩

/-! ## Code behind other code -/

/-- The reference machine with bytes put in front of its code, at the same place of its code. -/
def behind (front : List UInt8) (r : Reference) : Reference :=
  { r with code := front ++ r.code, position := r.position + front.length }

theorem immediate_append (front code : List UInt8) (start : Nat) (o : Opcode) :
    immediate (front ++ code) (start + front.length) o =
      (immediate code start o).mapError (Error.shift front.length) := by
  unfold immediate
  rw [List.length_append]
  by_cases h : start + o.width ≤ code.length
  · have hd : (front ++ code).drop (start + front.length) = code.drop start := by
      rw [Nat.add_comm, List.drop_append]
      simp
    rw [if_pos h, if_pos (by omega), hd]
    rfl
  · have ha : front.length + code.length - (start + front.length) = code.length - start := by
      omega
    rw [if_neg h, if_neg (by omega), ha]
    rfl

/-- The instruction at the position does the same behind other code, and its error names the place
there. -/
theorem instruct_behind (front : List UInt8) (r : Reference) (b : UInt8) :
    (r.behind front).instruct b = (r.instruct b).mapError (Error.shift front.length) := by
  cases ho : Opcode.ofByte? b with
  | none =>
    unfold instruct
    rw [ho]
    rfl
  | some o =>
    have hi : immediate (r.behind front).code ((r.behind front).position + 1) o =
        (immediate r.code (r.position + 1) o).mapError (Error.shift front.length) := by
      show immediate (front ++ r.code) (r.position + front.length + 1) o = _
      rw [Nat.add_right_comm]
      exact immediate_append front r.code (r.position + 1) o
    cases hv : immediate r.code (r.position + 1) o with
    | error e =>
      rw [hv] at hi
      rw [instruct_of_immediate_error ho hv, instruct_of_immediate_error ho hi]
      rfl
    | ok value =>
      rw [hv] at hi
      rw [instruct_of_immediate ho hv, instruct_of_immediate ho hi]
      show (effect r.capacities value r.memory o r.stack).map (o, ·) = _
      cases hf : effect r.capacities value r.memory o r.stack with
      | ok f => rfl
      | error e =>
        -- The effect of an opcode names no place.
        have he := Error.shift_of_not_isReading (not_isReading_of_effect hf) front.length
        show Except.error e = Except.error (e.shift front.length)
        rw [he]

/-- The byte at the position is the same behind other code, and so is the instruction there. -/
theorem exists_instruct_behind (front : List UInt8) {r : Reference}
    (hlt : r.position < r.code.length) :
    ∃ hlt' : (r.behind front).position < (r.behind front).code.length,
      (r.behind front).instruct (r.behind front).code[(r.behind front).position] =
        (r.instruct r.code[r.position]).mapError (Error.shift front.length) := by
  have hb : (front ++ r.code)[r.position + front.length]? = some r.code[r.position] := by
    rw [List.getElem?_append_right (Nat.le_add_left _ _), Nat.add_sub_cancel,
      List.getElem?_eq_getElem hlt]
  obtain ⟨hlt', hbyte⟩ := List.getElem?_eq_some_iff.1 hb
  refine ⟨hlt', ?_⟩
  rw [← hbyte]
  exact instruct_behind front r _

/-- **A run behind other code does the same, further on.** -/
theorem run_behind (front : List UInt8) (r : Reference) :
    (r.behind front).run =
      (r.run.1.mapError (Error.shift front.length), r.run.2.behind front) := by
  fun_induction run r with
  | case1 r hlt o stack memory hi hs ih =>
    obtain ⟨hlt', hi'⟩ := exists_instruct_behind front hlt
    rw [hi] at hi'
    rw [run_of_next hi', ← ih]
    unfold behind
    rw [Nat.add_right_comm]
  | case2 r hlt o bytes stack hi =>
    obtain ⟨hlt', hi'⟩ := exists_instruct_behind front hlt
    rw [hi] at hi'
    rw [run_of_output hi']
    unfold behind
    rw [Nat.add_right_comm]
    rfl
  | case3 r hlt e hi =>
    obtain ⟨hlt', hi'⟩ := exists_instruct_behind front hlt
    rw [hi] at hi'
    rw [run_of_error hi']
    rfl
  | case4 r hge =>
    have hle : (r.behind front).code.length ≤ (r.behind front).position := by
      show (front ++ r.code).length ≤ r.position + front.length
      rw [List.length_append]
      omega
    exact run_of_length_le hle

/-! ## Loaded code -/

/-- A run that comes to the end of loaded code leaves the machine there. -/
theorem position_of_exhausted {r : Reference} {code : List UInt8}
    (h : (r.load code).run.2.status = .halted .exhausted) :
    (r.load code).run.2.position = code.length := by
  have hp := (placed_run (r := r.load code) .start).exhausted h
  rw [code_run] at hp
  exact hp

/-- Code that runs to its end is continued by the code behind it. -/
theorem run_load_append {r : Reference} {front : List UInt8} (tail : List UInt8)
    (h : (r.load front).run.2.status = .halted .exhausted) :
    (r.load (front ++ tail)).run =
      ((((r.load front).run.2.load tail).run.1.mapError (Error.shift front.length)),
        ((r.load front).run.2.load tail).run.2.behind front) := by
  have hp := position_of_exhausted h
  have hne : (r.load front).run.2.status ≠ .halted .returned := by
    rw [h]
    decide
  have hc : (front ++ tail).take (r.load front).run.2.position =
      (r.load front).code.take (r.load front).run.2.position := by
    rw [hp]
    exact List.take_append_of_le_length (Nat.le_refl _)
  -- The end of the first code is the start of the second one, put behind the first.
  have hstart : { (r.load front).run.2.withCode (front ++ tail) with status := .ready } =
      ((r.load front).run.2.load tail).behind front := by
    unfold behind withCode load
    rw [Nat.zero_add]
    exact congrArg
      (fun position =>
        { (r.load front).run.2 with code := front ++ tail, position, status := .ready }) hp
  have hrun := (run_of_take_eq hc).2 hne
  calc (r.load (front ++ tail)).run
      = run { (r.load front).run.2.withCode (front ++ tail) with status := .ready } := hrun
    _ = (((r.load front).run.2.load tail).behind front).run := by rw [hstart]
    _ = _ := run_behind front _

/-- A run that returns does the same with any code behind the return. -/
theorem run_load_take_append {r : Reference} {code : List UInt8} (tail : List UInt8)
    (h : (r.load code).run.2.status = .halted .returned) :
    (r.load (code.take (r.load code).run.2.position ++ tail)).run =
      ((r.load code).run.1,
        (r.load code).run.2.withCode (code.take (r.load code).run.2.position ++ tail)) := by
  have hle : (r.load code).run.2.position ≤ code.length := by
    have hp := (placed_run (r := r.load code) .start).position_le
    rw [code_run] at hp
    exact hp
  have hc : (code.take (r.load code).run.2.position ++ tail).take (r.load code).run.2.position =
      (r.load code).code.take (r.load code).run.2.position := by
    have hl : (code.take (r.load code).run.2.position).length = (r.load code).run.2.position :=
      List.length_take_of_le hle
    exact List.take_left' hl
  exact (run_of_take_eq hc).1 h

end Reference

namespace Machine

/-- **Running a concatenation is running its parts in turn.**  If a run of loaded code comes to its
end, then the code with more behind it does what that code does on the machine that the first run
left: the same output, status, words and memory, at a position that is larger by the length of the
first part, and on a fault the same error, which names the larger position if it names one.  If a
run of loaded code returns, then the code up to the return does the same with anything behind it. -/
theorem run_append (m : Machine) :
    (∀ front tail : List UInt8,
      let s := (m.load front).run.2
      let t := (m.load (front ++ tail)).run
      let u := (s.load tail).run
      s.status = .halted .exhausted →
        t.1 = u.1.mapError (Error.shift front.length) ∧ t.2.status = u.2.status ∧
          t.2.words = u.2.words ∧
          (∀ offset length, t.2.readMemory offset length = u.2.readMemory offset length) ∧
          t.2.position = u.2.position + front.length) ∧
    (∀ code tail : List UInt8,
      let t := (m.load code).run
      let u := (m.load (code.take t.2.position ++ tail)).run
      t.2.status = .halted .returned →
        u.1 = t.1 ∧ u.2.status = t.2.status ∧ u.2.Agrees t.2) := by
  refine ⟨?_, ?_⟩
  · intro front tail s t u hs
    have hfirst : (m.view.load front).run = ((m.load front).run.1, s.view) :=
      view_run (m.load front)
    have hsecond : (s.view.load tail).run = (u.1, u.2.view) := view_run (s.load tail)
    have hwhole : (m.view.load (front ++ tail)).run = (t.1, t.2.view) :=
      view_run (m.load (front ++ tail))
    have hexh : (m.view.load front).run.2.status = .halted .exhausted := by
      rw [hfirst]
      exact hs
    have hr := Reference.run_load_append tail hexh
    rw [hfirst, hsecond, hwhole] at hr
    obtain ⟨h1, hv⟩ := Prod.mk.inj hr
    -- The two views differ in the code and in the position only.
    have hstack := congrArg Reference.stack hv
    have hmemory := congrArg Reference.memory hv
    have ha : Agrees { t.2 with position := u.2.position } u.2 :=
      agrees_of_view hstack hmemory rfl
    refine ⟨h1, ?_, ha.words, ha.memory, ?_⟩
    · exact congrArg Reference.status hv
    · exact congrArg Reference.position hv
  · intro code tail t u ht
    have hfirst : (m.view.load code).run = (t.1, t.2.view) := view_run (m.load code)
    have hagain : (m.view.load (code.take t.2.position ++ tail)).run = (u.1, u.2.view) :=
      view_run (m.load (code.take t.2.position ++ tail))
    have hret : (m.view.load code).run.2.status = .halted .returned := by
      rw [hfirst]
      exact ht
    have hr := Reference.run_load_take_append tail hret
    rw [hfirst] at hr
    obtain ⟨h1, hv⟩ := Prod.mk.inj (hagain.symm.trans hr)
    have hstack := congrArg Reference.stack hv
    have hmemory := congrArg Reference.memory hv
    have hposition := congrArg Reference.position hv
    refine ⟨h1, ?_, ?_⟩
    · exact congrArg Reference.status hv
    · exact agrees_of_view hstack hmemory hposition

/-- A byte that is no opcode, behind a drop: it is reported at offset 1, and at offset 3 with a push
in front.  A return keeps its two bytes of output when what follows it is replaced. -/
theorem run_append_undefined :
    let m := fresh ⟨4, 16⟩
    let s := (m.load [0x01, 7]).run.2
    let t := (m.load [0x01, 2, 0x01, 0, 0x30, 0x10]).run
    (s.status = .halted .exhausted ∧
        (s.load [0x00, 0xff]).run.1 = .error (.undefinedOpcode 0xff 1) ∧
        (m.load ([0x01, 7] ++ [0x00, 0xff])).run.1 = .error (.undefinedOpcode 0xff 3)) ∧
      t.2.status = .halted .returned ∧ t.2.position = 5 ∧
        (m.load ([0x01, 2, 0x01, 0, 0x30] ++ [0xff])).run.1 = .ok [0, 0] := by
  intro m s t
  have hfirst : ((Reference.fresh ⟨4, 16⟩).load [0x01, 7]).run =
      (.ok [], ⟨⟨4, 16⟩, [0x01, 7], 2, [7], List.replicate 16 0, .halted .exhausted⟩) := by
    cbv
  have hsecond : Reference.run ⟨⟨4, 16⟩, [0x00, 0xff], 0, [7], List.replicate 16 0, .ready⟩ =
      (.error (.undefinedOpcode 0xff 1),
        ⟨⟨4, 16⟩, [0x00, 0xff], 1, [], List.replicate 16 0, .halted .faulted⟩) := by
    cbv
  have hreturn : ((Reference.fresh ⟨4, 16⟩).load [0x01, 2, 0x01, 0, 0x30, 0x10]).run =
      (.ok [0, 0],
        ⟨⟨4, 16⟩, [0x01, 2, 0x01, 0, 0x30, 0x10], 5, [], List.replicate 16 0,
          .halted .returned⟩) := by
    cbv
  rw [view_run_load_fresh (by decide)] at hfirst hreturn
  have hsv : s.view = _ := (Prod.mk.inj hfirst).2
  have hs : s.status = .halted .exhausted := congrArg Reference.status hsv
  have hu : (s.load [0x00, 0xff]).run.1 = .error (.undefinedOpcode 0xff 1) := by
    have hrun := view_run (s.load [0x00, 0xff])
    rw [view_load, hsv] at hrun
    exact (Prod.mk.inj (hrun.symm.trans hsecond)).1
  obtain ⟨ht, htv⟩ := Prod.mk.inj hreturn
  have hstatus : t.2.status = .halted .returned := congrArg Reference.status htv
  have hposition : t.2.position = 5 := congrArg Reference.position htv
  have hwhole := ((run_append m).1 [0x01, 7] [0x00, 0xff] hs).1
  rw [hu] at hwhole
  have hagain := ((run_append m).2 [0x01, 2, 0x01, 0, 0x30, 0x10] [0xff] hstatus).1
  rw [hposition, ht] at hagain
  exact ⟨⟨hs, hu, hwhole⟩, hstatus, hposition, hagain⟩

end Machine

end StackMachine
