import StackMachine.Proofs.Invariant

/-!
# Control does not depend on data

There is no jump, and no instruction asks for a word before it goes on, with two exceptions: a
division by zero fails, and so does an access that ends past the memory.  Up to such a fault a run
is fixed by the code, the position, the depth of the stack and its capacity.

These four are the *outline* of a machine.  An outline runs by itself: it counts words where the
machine computes with them.  An effect that is defined leaves as many words as the outline counts,
and an error is either the outline's own or one of the two that depend on data; that is one case for
each opcode.  By induction a run ends as its outline does, or has a fault that depends on data at a
place that the outline moves past.  Two machines with the same outline are compared through it.
-/

namespace StackMachine

/-- The errors that depend on the words of the stack or on the size of the memory. -/
def Error.IsData : Error → Prop
  | .divisionByZero => True
  | .outOfBounds _ _ _ => True
  | _ => False

/-- A result is a fault that depends on data. -/
def DataFault {α : Type} (x : Result α) : Prop := ∃ e : Error, x = .error e ∧ e.IsData

/-- The error of a result that has one. -/
def fault? {α : Type} : Result α → Option Error
  | .ok _ => none
  | .error e => some e

theorem fault?_eq_some_iff {α : Type} {x : Result α} {e : Error} :
    fault? x = some e ↔ x = .error e := by
  cases x with
  | ok a => simp [fault?]
  | error d => simp [fault?]

theorem not_dataFault_ok {α : Type} (a : α) : ¬ DataFault (.ok a : Result α) := by
  rintro ⟨e, he, _⟩
  exact absurd he (by simp)

/-- What control depends on: the stack's capacity, the code, the position and how many words the
stack holds. -/
structure Outline where
  capacity : Nat
  code : List UInt8
  position : Nat
  depth : Nat

/-- How a run ended: its error, its status, and the position and the depth that it left. -/
structure Finish where
  error? : Option Error
  status : Status
  position : Nat
  depth : Nat

namespace Outline

open Reference (operands immediate)

/-- The number of words that an opcode puts on the stack. -/
def results : Opcode → Nat
  | .pop | .store1 | .store8 | .ret => 0
  | _ => 1

/-- The number of words after an opcode. -/
def depthAfter (capacity : Nat) (o : Opcode) (depth : Nat) : Result Nat :=
  if depth < operands o then .error (.stackUnderflow (operands o) depth)
  else if operands o = 0 ∧ capacity ≤ depth then .error (.stackOverflow capacity)
  else .ok (depth - operands o + results o)

/-- The opcode that a byte at the position stands for, and the number of words after it. -/
def next (s : Outline) (b : UInt8) : Result (Opcode × Nat) :=
  match Opcode.ofByte? b with
  | some o => do
    let _ ← immediate s.code (s.position + 1) o
    let depth ← depthAfter s.capacity o s.depth
    pure (o, depth)
  | none => .error (.undefinedOpcode b s.position)

/-- Count words from the position on until the program ends. -/
def run (s : Outline) : Finish :=
  if h : s.position < s.code.length then
    match s.next s.code[s.position] with
    | .ok (o, depth) =>
      have : 0 < o.size := o.size_pos
      if o = .ret then ⟨none, .halted .returned, s.position + o.size, depth⟩
      else run { s with position := s.position + o.size, depth }
    | .error e => ⟨some e, .halted .faulted, s.position, s.depth⟩
  else ⟨none, .halted .exhausted, s.position, s.depth⟩
termination_by s.code.length - s.position

/-! ## The steps of an outline -/

/-- A push asks for room only. -/
theorem depthAfter_of_push {o : Opcode} (ho : operands o = 0) (capacity depth : Nat) :
    depthAfter capacity o depth =
      if depth < capacity then .ok (depth + results o) else .error (.stackOverflow capacity) := by
  rw [depthAfter, ho, if_neg (Nat.not_lt_zero _), Nat.sub_zero]
  by_cases h : depth < capacity
  · rw [if_pos h, if_neg (by omega)]
  · rw [if_neg h, if_pos ⟨rfl, Nat.le_of_not_lt h⟩]

/-- What takes operands asks for them only. -/
theorem depthAfter_of_pos {o : Opcode} {capacity depth : Nat} (ho : 0 < operands o)
    (h : operands o ≤ depth) :
    depthAfter capacity o depth = .ok (depth - operands o + results o) := by
  rw [depthAfter, if_neg (Nat.not_lt.2 h), if_neg (by omega)]

variable {s : Outline} {h : s.position < s.code.length} {o : Opcode} {depth : Nat}

theorem next_of_immediate {b : UInt8} {value : Nat} (ho : Opcode.ofByte? b = some o)
    (hv : immediate s.code (s.position + 1) o = .ok value) :
    s.next b = (depthAfter s.capacity o s.depth).map (o, ·) := by
  simp only [next, ho, hv]
  rfl

theorem next_of_immediate_error {b : UInt8} {e : Error} (ho : Opcode.ofByte? b = some o)
    (hv : immediate s.code (s.position + 1) o = .error e) : s.next b = .error e := by
  simp only [next, ho, hv]
  rfl

theorem run_of_next (hn : s.next s.code[s.position] = .ok (o, depth)) (ho : o ≠ .ret) :
    s.run = run { s with position := s.position + o.size, depth } := by
  rw [run, dif_pos h, hn]
  exact if_neg ho

theorem run_of_ret (hn : s.next s.code[s.position] = .ok (.ret, depth)) :
    s.run = ⟨none, .halted .returned, s.position + Opcode.ret.size, depth⟩ := by
  rw [run, dif_pos h, hn]
  exact if_pos rfl

theorem run_of_error {e : Error} (hn : s.next s.code[s.position] = .error e) :
    s.run = ⟨some e, .halted .faulted, s.position, s.depth⟩ := by
  rw [run, dif_pos h, hn]

theorem run_of_length_le {s : Outline} (h : s.code.length ≤ s.position) :
    s.run = ⟨none, .halted .exhausted, s.position, s.depth⟩ := by
  rw [run, dif_neg (Nat.not_lt.2 h)]

theorem position_le_run (s : Outline) : s.position ≤ s.run.position := by
  fun_induction run s with
  | case1 s h depth hn hs => exact Nat.le_add_right _ _
  | case2 s h o depth hn hs ho ih => exact Nat.le_trans (Nat.le_add_right _ _) ih
  | case3 s h e hn => exact Nat.le_refl _
  | case4 s h => exact Nat.le_refl _

/-- An outline that has an instruction to count moves past it. -/
theorem position_lt_run (hn : s.next s.code[s.position] = .ok (o, depth)) :
    s.position < s.run.position := by
  have hs := o.size_pos
  by_cases ho : o = .ret
  · subst ho
    rw [run_of_ret hn]
    exact Nat.lt_add_of_pos_right hs
  · rw [run_of_next hn ho]
    have hle := position_le_run { s with position := s.position + o.size, depth }
    exact Nat.lt_of_lt_of_le (Nat.lt_add_of_pos_right hs) hle

end Outline

namespace Reference

open Outline (depthAfter depthAfter_of_push depthAfter_of_pos)

/-- What a reference machine's control depends on. -/
def outline (r : Reference) : Outline where
  capacity := r.capacities.stack
  code := r.code
  position := r.position
  depth := r.stack.length

/-- How a run of a reference machine ended. -/
def finish (x : Result (List UInt8) × Reference) : Finish where
  error? := fault? x.1
  status := x.2.status
  position := x.2.position
  depth := x.2.stack.length

/-- The number of words that an effect leaves. -/
def Effect.depth : Effect → Nat
  | .next stack _ => stack.length
  | .output _ stack => stack.length

/-- An effect goes by a count of words: where it is defined it leaves as many, and where it fails it
is the count that fails, or the words and bytes are to blame. -/
def Follows (d : Result Nat) : Result Effect → Prop
  | .ok f => d = .ok f.depth
  | .error e => (¬ e.IsData ∧ d = .error e) ∨ (e.IsData ∧ ∃ n, d = .ok n)

/-- What fails because of data only, and leaves one number of words if it does not, goes by it. -/
theorem follows_map {α : Type} {x : Result α} {g : α → Effect} {n : Nat}
    (hx : ∀ e, x = .error e → e.IsData) (hg : ∀ a, (g a).depth = n) :
    Follows (.ok n) (x.map g) := by
  cases x with
  | ok a => exact congrArg Except.ok (hg a).symm
  | error e => exact .inr ⟨hx e rfl, n, rfl⟩

/-- A flat read or write fails because of where it ends only. -/
theorem isData_of_read {memory : List UInt8} {offset length : Nat} {e : Error}
    (h : Flat.read memory offset length = .error e) : e.IsData := by
  unfold Flat.read at h
  split at h
  · exact absurd h (by simp)
  · rw [← Except.error.inj h]
    exact True.intro

theorem isData_of_write {memory bs : List UInt8} {offset : Nat} {e : Error}
    (h : Flat.write memory offset bs = .error e) : e.IsData := by
  unfold Flat.write at h
  split at h
  · exact absurd h (by simp)
  · rw [← Except.error.inj h]
    exact True.intro

/-- **The effect of every opcode goes by the count of words.** -/
theorem effect_follows (c : Capacities) (value : Nat) (memory : List UInt8) (o : Opcode)
    (ws : List UInt64) :
    Follows (depthAfter c.stack o ws.length) (effect c value memory o ws) := by
  rcases Nat.lt_or_ge ws.length (operands o) with hs | hs
  · -- Too few words: the underflow is the outline's as well.
    rw [effect_of_short hs, depthAfter, if_pos hs]
    exact .inl ⟨id, rfl⟩
  · match o, ws with
    | .push1, ws | .push8, ws =>
      simp only [effect]
      rcases Nat.lt_or_ge ws.length c.stack with hlt | hge
      · rw [if_pos hlt, depthAfter_of_push rfl, if_pos hlt]
        rfl
      · rw [if_neg (Nat.not_lt.2 hge), depthAfter_of_push rfl, if_neg (Nat.not_lt.2 hge)]
        exact .inl ⟨id, rfl⟩
    | .pop, _ :: _ | .add, _ :: _ :: _ | .sub, _ :: _ :: _ | .mul, _ :: _ :: _ =>
      rw [depthAfter_of_pos (by decide) hs]
      rfl
    | .div, top :: below :: ws =>
      rw [depthAfter_of_pos (by decide) hs]
      simp only [effect]
      split
      · exact .inr ⟨True.intro, _, rfl⟩
      · rfl
    | .store1, _ :: _ :: _ | .store8, _ :: _ :: _ =>
      rw [depthAfter_of_pos (by decide) hs]
      exact follows_map (fun e => isData_of_write) fun _ => rfl
    | .load8, _ :: _ | .ret, _ :: _ :: _ =>
      rw [depthAfter_of_pos (by decide) hs]
      exact follows_map (fun e => isData_of_read) fun _ => rfl
    | .pop, [] | .load8, []
    | .add, [] | .sub, [] | .mul, [] | .div, [] | .store1, [] | .store8, [] | .ret, []
    | .add, [_] | .sub, [_] | .mul, [_] | .div, [_] | .store1, [_] | .store8, [_] | .ret, [_] =>
      exact absurd hs (by simp [operands])

/-- A return does not go on. -/
theorem ne_ret_of_next {c : Capacities} {value : Nat} {memory after : List UInt8} {o : Opcode}
    {ws stack : List UInt64} (h : effect c value memory o ws = .ok (.next stack after)) :
    o ≠ .ret := by
  rintro rfl
  match ws with
  | [] | [_] => exact absurd h (by simp [effect])
  | _ :: _ :: _ =>
    obtain ⟨_, _, hf⟩ := Result.map_eq_ok_iff.1 h
    exact absurd hf (by simp)

variable {r : Reference} {b : UInt8} {o : Opcode}

/-! ## A step and its outline -/

theorem next_outline_of_ok {f : Effect} (h : r.instruct b = .ok (o, f)) :
    r.outline.next b = .ok (o, f.depth) := by
  obtain ⟨ho, value, hv, hf⟩ := instruct_eq_ok_iff.1 h
  have hd := effect_follows r.capacities value r.memory o r.stack
  rw [hf] at hd
  have hd' : depthAfter r.capacities.stack o r.stack.length = .ok f.depth := hd
  rw [Outline.next_of_immediate (s := r.outline) ho hv]
  exact congrArg (Except.map (o, ·)) hd'

/-- An instruction that fails fails in its outline, or depends on data and has one that goes on. -/
theorem next_outline_of_error {e : Error} (h : r.instruct b = .error e) :
    (¬ e.IsData ∧ r.outline.next b = .error e) ∨
      (e.IsData ∧ ∃ o depth, r.outline.next b = .ok (o, depth)) := by
  cases ho : Opcode.ofByte? b with
  | none =>
    rw [instruct, ho] at h
    rw [← Except.error.inj h, Outline.next, ho]
    exact .inl ⟨id, rfl⟩
  | some o =>
    cases hv : immediate r.code (r.position + 1) o with
    | error d =>
      rw [instruct_of_immediate_error ho hv] at h
      obtain rfl := Except.error.inj h
      refine .inl ⟨?_, ?_⟩
      · -- An immediate can only be cut short, and that is seen in the code.
        unfold immediate at hv
        split at hv
        · exact absurd hv (by simp)
        · rw [← Except.error.inj hv]
          exact id
      · exact Outline.next_of_immediate_error (s := r.outline) ho hv
    | ok value =>
      rw [instruct_of_immediate ho hv] at h
      have hd := effect_follows r.capacities value r.memory o r.stack
      rw [Result.map_eq_error_iff.1 h] at hd
      rw [Outline.next_of_immediate (s := r.outline) ho hv]
      rcases hd with ⟨he, hd⟩ | ⟨he, n, hd⟩
      · exact .inl ⟨he, congrArg (Except.map (o, ·)) hd⟩
      · exact .inr ⟨he, o, n, congrArg (Except.map (o, ·)) hd⟩

/-! ## A run and its outline -/

/-- **A run ends as its outline does, unless it has a fault that depends on data**, and the outline
moves past the place of such a fault. -/
theorem run_outline (r : Reference) :
    (DataFault r.run.1 ∧ r.run.2.position < r.outline.run.position) ∨
      (¬ DataFault r.run.1 ∧ finish r.run = r.outline.run) := by
  fun_induction run r with
  | case1 r hlt o stack memory hi hs ih =>
    obtain ⟨_, value, _, hf⟩ := instruct_eq_ok_iff.1 hi
    have hn := next_outline_of_ok hi
    rw [Outline.run_of_next (s := r.outline) (h := hlt) hn (ne_ret_of_next hf)]
    exact ih
  | case2 r hlt o bytes stack hi =>
    obtain ⟨_, value, _, hf⟩ := instruct_eq_ok_iff.1 hi
    obtain rfl := eq_ret_of_output hf
    have hn := next_outline_of_ok hi
    rw [Outline.run_of_ret (s := r.outline) (h := hlt) hn]
    exact .inr ⟨not_dataFault_ok bytes, rfl⟩
  | case3 r hlt e hi =>
    rcases next_outline_of_error hi with ⟨he, hn⟩ | ⟨he, o, depth, hn⟩
    · rw [Outline.run_of_error (s := r.outline) (h := hlt) hn]
      refine .inr ⟨?_, rfl⟩
      rintro ⟨d, hd, hdata⟩
      rw [← Except.error.inj hd] at hdata
      exact he hdata
    · exact .inl ⟨⟨e, rfl, he⟩, Outline.position_lt_run (s := r.outline) (h := hlt) hn⟩
  | case4 r hge =>
    rw [Outline.run_of_length_le (s := r.outline) (Nat.le_of_not_lt hge)]
    exact .inr ⟨not_dataFault_ok [], rfl⟩

end Reference

namespace Machine

/-- What a machine's control depends on. -/
def outline (m : Machine) : Outline := m.view.outline

theorem outline_eq {m t : Machine} (hc : m.code = t.code) (hp : m.position = t.position)
    (hd : m.words.length = t.words.length) (hs : m.stack.capacity = t.stack.capacity) :
    m.outline = t.outline := by
  have hw : m.stack.column.length = t.stack.column.length := by
    rw [Stack.column, Stack.column, List.length_reverse, List.length_reverse]
    exact hd
  show Outline.mk m.stack.capacity m.code m.position m.stack.column.length =
    Outline.mk t.stack.capacity t.code t.position t.stack.column.length
  rw [hc, hp, hw, hs]

/-- A run without a fault that depends on data ends as the machine's outline does. -/
theorem finish_run {m : Machine} (h : ¬ DataFault m.run.1) :
    (⟨fault? m.run.1, m.run.2.status, m.run.2.position, m.run.2.words.length⟩ : Finish) =
      m.outline.run := by
  have ho := Reference.run_outline m.view
  rw [view_run] at ho
  rcases ho with ⟨hf, _⟩ | ⟨_, hf⟩
  · exact absurd hf h
  · have hl : m.run.2.view.stack.length = m.run.2.words.length := List.length_reverse
    rw [Reference.finish, hl] at hf
    exact hf

/-- A fault that depends on data is at a place that the machine's outline moves past. -/
theorem position_run_lt {m : Machine} (h : DataFault m.run.1) :
    m.run.2.position < m.outline.run.position := by
  have ho := Reference.run_outline m.view
  rw [view_run] at ho
  rcases ho with ⟨_, hp⟩ | ⟨hf, _⟩
  · exact hp
  · exact absurd h hf

theorem fst_run_of_view {m : Machine} {r s : Reference} {x : Result (List UInt8)}
    (hv : m.view = r) (hr : r.run = (x, s)) : m.run.1 = x := by
  rw [← hv, view_run] at hr
  exact (Prod.mk.inj hr).1

/-- If only the first of two machines with one outline has a fault that depends on data, the second
one gets further. -/
theorem position_lt_of_dataFault {m t : Machine} (h : m.outline = t.outline)
    (hm : DataFault m.run.1) (ht : ¬ DataFault t.run.1) :
    m.run.2.position < t.run.2.position := by
  have hp : t.run.2.position = t.outline.run.position := congrArg Finish.position (finish_run ht)
  have hlt := position_run_lt hm
  rw [h, ← hp] at hlt
  exact hlt

/-- **Control does not depend on data.**  Take two machines with the same code and position, with
stacks of one depth and capacity, and with any words and memories.  If neither run fails with a
division by zero or an access out of bounds, both end at the same position, with the same status,
with stacks of one depth, and with the same error if they fail.  If just one of them fails so, the
other one ends at a later position. -/
theorem run_control_eq {m t : Machine} (hc : m.code = t.code) (hp : m.position = t.position)
    (hd : m.words.length = t.words.length) (hs : m.stack.capacity = t.stack.capacity) :
    (¬ DataFault m.run.1 → ¬ DataFault t.run.1 →
      m.run.2.position = t.run.2.position ∧ m.run.2.status = t.run.2.status ∧
        m.run.2.words.length = t.run.2.words.length ∧
        ∀ e, m.run.1 = .error e ↔ t.run.1 = .error e) ∧
      (DataFault m.run.1 → ¬ DataFault t.run.1 → m.run.2.position < t.run.2.position) ∧
      (DataFault t.run.1 → ¬ DataFault m.run.1 → t.run.2.position < m.run.2.position) := by
  have ho := outline_eq hc hp hd hs
  refine ⟨?_, position_lt_of_dataFault ho, position_lt_of_dataFault ho.symm⟩
  intro hm ht
  have hf := (finish_run hm).trans ((congrArg Outline.run ho).trans (finish_run ht).symm)
  obtain ⟨he, hstatus, hposition, hdepth⟩ := Finish.mk.inj hf
  refine ⟨hposition, hstatus, hdepth, ?_⟩
  intro e
  rw [← fault?_eq_some_iff, ← fault?_eq_some_iff, he]

/-- A division by a byte of memory: where it is zero the run stops there, and with two other
bytes, in memories of different sizes, both runs go on to the same underflow. -/
theorem run_control_eq_divisor :
    let code : List UInt8 := [0x01, 6, 0x01, 0, 0x22, 0x13, 0x00, 0x00]
    let m := ((fresh ⟨4, 8⟩).drive [.load code]).2
    let t := ((fresh ⟨4, 8⟩).drive [.writeMemory 7 [3], .load code]).2
    let u := ((fresh ⟨4, 9⟩).drive [.writeMemory 7 [5], .load code]).2
    m.run.1 = .error .divisionByZero ∧ m.run.2.position < t.run.2.position ∧
      t.run.1 = .error (.stackUnderflow 1 0) ∧ u.run.1 = .error (.stackUnderflow 1 0) ∧
      t.run.2.position = u.run.2.position := by
  intro code m t u
  have hmade : Made ⟨4, 8⟩ (fresh ⟨4, 8⟩) := .create rfl
  have hmade' : Made ⟨4, 9⟩ (fresh ⟨4, 9⟩) := .create rfl
  have hm : m.view = ⟨⟨4, 8⟩, code, 0, [], [0, 0, 0, 0, 0, 0, 0, 0], .ready⟩ :=
    (congrArg Prod.snd (hmade.view_drive _)).symm
  have ht : t.view = ⟨⟨4, 8⟩, code, 0, [], [0, 0, 0, 0, 0, 0, 0, 3], .ready⟩ :=
    (congrArg Prod.snd (hmade.view_drive _)).symm
  have hu : u.view = ⟨⟨4, 9⟩, code, 0, [], [0, 0, 0, 0, 0, 0, 0, 5, 0], .ready⟩ :=
    (congrArg Prod.snd (hmade'.view_drive _)).symm
  -- The results of the three runs, from their reference machines.
  have hmr : m.run.1 = .error .divisionByZero := by
    have hr : Reference.run ⟨⟨4, 8⟩, code, 0, [], [0, 0, 0, 0, 0, 0, 0, 0], .ready⟩ =
        (.error .divisionByZero,
          ⟨⟨4, 8⟩, code, 5, [0, 6], [0, 0, 0, 0, 0, 0, 0, 0], .halted .faulted⟩) := by
      cbv
    exact fst_run_of_view hm hr
  have htr : t.run.1 = .error (.stackUnderflow 1 0) := by
    have hr : Reference.run ⟨⟨4, 8⟩, code, 0, [], [0, 0, 0, 0, 0, 0, 0, 3], .ready⟩ =
        (.error (.stackUnderflow 1 0),
          ⟨⟨4, 8⟩, code, 7, [], [0, 0, 0, 0, 0, 0, 0, 3], .halted .faulted⟩) := by
      cbv
    exact fst_run_of_view ht hr
  have hur : u.run.1 = .error (.stackUnderflow 1 0) := by
    have hr : Reference.run ⟨⟨4, 9⟩, code, 0, [], [0, 0, 0, 0, 0, 0, 0, 5, 0], .ready⟩ =
        (.error (.stackUnderflow 1 0),
          ⟨⟨4, 9⟩, code, 7, [], [0, 0, 0, 0, 0, 0, 0, 5, 0], .halted .faulted⟩) := by
      cbv
    exact fst_run_of_view hu hr
  have hnot : ∀ x : Result (List UInt8), x = .error (.stackUnderflow 1 0) → ¬ DataFault x := by
    rintro x rfl ⟨e, he, hdata⟩
    rw [← Except.error.inj he] at hdata
    exact hdata
  have hwords : ∀ v : Machine, v.view.stack = [] → v.words = [] :=
    fun v hv => List.reverse_eq_nil_iff.1 hv
  have hmw : m.words.length = t.words.length := by
    rw [hwords m (congrArg Reference.stack hm), hwords t (congrArg Reference.stack ht)]
  have htw : t.words.length = u.words.length := by
    rw [hwords t (congrArg Reference.stack ht), hwords u (congrArg Reference.stack hu)]
  obtain ⟨_, hlt, _⟩ := run_control_eq (m := m) (t := t)
    ((congrArg Reference.code hm).trans (congrArg Reference.code ht).symm)
    ((congrArg Reference.position hm).trans (congrArg Reference.position ht).symm) hmw
    ((congrArg (fun v : Reference => v.capacities.stack) hm).trans
      (congrArg (fun v : Reference => v.capacities.stack) ht).symm)
  obtain ⟨heq, _, _⟩ := run_control_eq (m := t) (t := u)
    ((congrArg Reference.code ht).trans (congrArg Reference.code hu).symm)
    ((congrArg Reference.position ht).trans (congrArg Reference.position hu).symm) htw
    ((congrArg (fun v : Reference => v.capacities.stack) ht).trans
      (congrArg (fun v : Reference => v.capacities.stack) hu).symm)
  exact ⟨hmr, hlt ⟨_, hmr, True.intro⟩ (hnot _ htr), htr, hur, (heq (hnot _ htr) (hnot _ hur)).1⟩

end Machine

end StackMachine
