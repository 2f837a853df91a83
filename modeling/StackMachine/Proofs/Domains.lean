import StackMachine.Proofs.CheckedParts

/-!
# No operation leaves its domain

The checked engine follows the machine through handlers, runs and sessions.  Each handler is tracked
with what its checks leave behind: two words that were asked for can be looked at and taken off, two
words that were taken off leave room for one, and a divisor that was looked at is the one that is
divided by.  A run fetches bytes within the code only, and its handlers stand behind the byte that
was fetched.
-/

namespace StackMachine

open Checked (Tracks image)

/-! ## Actions on parts -/

/-- A look that succeeds leaves the state as it is. -/
theorem Action.eq_of_look {σ α : Type} {g : σ → Result α} {a : α} {s t : σ}
    (h : (look g).run s = .ok a t) : g s = .ok a ∧ t = s := by
  rw [run_look] at h
  cases hg : g s with
  | error e =>
    rw [hg] at h
    exact absurd h (by simp)
  | ok b =>
    rw [hg] at h
    obtain ⟨rfl, rfl⟩ := EStateM.Result.ok.inj h
    exact ⟨rfl, rfl⟩

theorem Action.run_look_of_ok {σ α : Type} {g : σ → Result α} {a : α} {s : σ} (h : g s = .ok a) :
    (look g).run s = .ok a s := by
  rw [run_look, h]

namespace Machine

variable {α : Type} {m t : Machine}

/-- A look at the stack of a machine is an action on the stack. -/
theorem onStack_look (g : Stack → Result α) :
    onStack (Action.look g) = Action.look fun m => g m.stack := by
  funext m
  simp only [onStack, Action.look]
  cases g m.stack with
  | ok a => rfl
  | error e => rfl

theorem onMemory_look (g : Memory → Result α) :
    onMemory (Action.look g) = Action.look fun m => g m.memory := by
  funext m
  simp only [onMemory, Action.look]
  cases g m.memory with
  | ok a => rfl
  | error e => rfl

theorem exists_of_onStack {y : Action Stack α} {a : α} (h : (onStack y).run m = .ok a t) :
    ∃ s, y.run m.stack = .ok a s ∧ t = { m with stack := s } := by
  rw [run_onStack] at h
  cases hy : y.run m.stack with
  | error e s =>
    rw [hy] at h
    exact absurd h (by simp)
  | ok b s =>
    rw [hy] at h
    obtain ⟨rfl, rfl⟩ := EStateM.Result.ok.inj h
    exact ⟨s, rfl, rfl⟩

theorem stack_of_onMemory {y : Action Memory α} {a : α} (h : (onMemory y).run m = .ok a t) :
    t.stack = m.stack := by
  rw [run_onMemory] at h
  cases hy : y.run m.memory with
  | error e s =>
    rw [hy] at h
    exact absurd h (by simp)
  | ok b s =>
    rw [hy] at h
    rw [← (EStateM.Result.ok.inj h).2]

end Machine

/-- A machine without what its types say of its stack. -/
def Machine.bare (m : Machine) : Bare where
  code := m.code
  position := m.position
  cells := m.stack.cells
  memory := m.memory
  status := m.status

namespace Bare

open Machine (bare)

variable {α : Type} {m : Machine}

theorem tracks_onCells {x : Checked Cells α} {y : Action Stack α}
    (h : Tracks Stack.cells m.stack x y) : Tracks bare m (onCells x) (Machine.onStack y) := by
  rw [Tracks] at h ⊢
  rw [Machine.run_onStack]
  have hx : x m.bare.cells = image Stack.cells (y.run m.stack) := h
  simp only [EStateM.run, onCells, hx]
  cases y m.stack with
  | ok a s => rfl
  | error e s => rfl

theorem tracks_onMemory {x : Checked Memory α} {y : Action Memory α}
    (h : Tracks id m.memory x y) : Tracks bare m (onMemory x) (Machine.onMemory y) := by
  rw [Tracks] at h ⊢
  rw [Machine.run_onMemory]
  have hx : x m.bare.memory = image id (y.run m.memory) := h
  simp only [EStateM.run, onMemory, hx]
  cases y m.memory with
  | ok a s => rfl
  | error e s => rfl

theorem tracks_require (m : Machine) (n : Nat) :
    Tracks bare m (onCells (Cells.require n)) (Action.look (·.stack.require n)) := by
  rw [← Machine.onStack_look (·.require n)]
  exact tracks_onCells (Cells.tracks_require m.stack n)

theorem tracks_peek (m : Machine) (below : Nat) :
    Tracks bare m (onCells (Cells.peek below)) (Action.look (·.stack.peek below)) := by
  rw [← Machine.onStack_look (·.peek below)]
  exact tracks_onCells (Cells.tracks_peek m.stack below)

theorem tracks_readWord (m : Machine) (offset : UInt64) :
    Tracks bare m (onMemory (Checked.readWord offset))
      (Action.look (·.memory.readWord offset)) := by
  rw [← Machine.onMemory_look (·.readWord offset)]
  exact tracks_onMemory (Checked.tracks_readWord m.memory offset)

theorem tracks_slice (m : Machine) (offset length : UInt64) :
    Tracks bare m (onMemory (Checked.slice offset length))
      (Action.look (·.memory.slice offset length)) := by
  rw [← Machine.onMemory_look (·.slice offset length)]
  exact tracks_onMemory (Checked.tracks_slice m.memory offset length)

/-! ## Handlers -/

theorem run_popTwo (h : 2 ≤ m.stack.depth) :
    ∃ p, (Machine.onStack Stack.popTwo).run m = .ok p { m with stack := m.stack.drop 2 } := by
  obtain ⟨left, right, hp, _⟩ := Cells.run_popTwo_of_le h
  exact ⟨(left, right), by rw [Machine.run_onStack, hp]⟩

/-- Two words that were asked for can be looked at. -/
theorem tracks_topTwo {β : Type} {g : UInt64 → UInt64 → Checked Bare β}
    {h : UInt64 → UInt64 → Action Machine β}
    (hg : ∀ top below, 2 ≤ m.stack.depth → Tracks bare m (g top below) (h top below)) :
    Tracks bare m
      (do
        onCells (Cells.require 2)
        let top ← Checked.must (onCells (Cells.peek 0))
        let below ← Checked.must (onCells (Cells.peek 1))
        g top below)
      (do
        Action.look (·.stack.require 2)
        let top ← Action.look (·.stack.peek 0)
        let below ← Action.look (·.stack.peek 1)
        h top below) := by
  refine .bind (tracks_require m 2) ?_
  intro _ t ht
  obtain ⟨hr, rfl⟩ := Action.eq_of_look ht
  have hd := Stack.le_of_require hr
  obtain ⟨top, below, ws, hc⟩ := Stack.exists_of_two_le_depth hd
  obtain ⟨_, htop, hbelow⟩ := Stack.looks_of_column hc
  refine .bind (.must (tracks_peek t 0) (Action.run_look_of_ok htop)) ?_
  intro a u hu
  obtain ⟨_, rfl⟩ := Action.eq_of_look hu
  refine .bind (.must (tracks_peek u 1) (Action.run_look_of_ok hbelow)) ?_
  intro b v hv
  obtain ⟨_, rfl⟩ := Action.eq_of_look hv
  exact hg a b hd

/-- The operands of an operation leave room for its result. -/
theorem tracks_binary {f : UInt64 → UInt64 → Option UInt64} {g : UInt64 → UInt64 → UInt64}
    (hf : ∀ left right t, Stack.popTwo.run m.stack = .ok (left, right) t →
      f left right = some (g left right)) :
    Tracks bare m (binary f) (Handler.binary g) := by
  refine .bind (tracks_onCells (Cells.tracks_popTwo m.stack)) ?_
  rintro ⟨left, right⟩ t ht
  obtain ⟨s, hs, rfl⟩ := Machine.exists_of_onStack ht
  obtain ⟨hd, rfl⟩ := Stack.eq_of_popTwo hs
  refine .demand (hf left right _ hs) ?_
  have hroom : (m.stack.drop 2).depth < (m.stack.drop 2).capacity := by
    have hle := m.stack.depth_le_capacity
    simp only [Stack.drop]
    omega
  obtain ⟨u, hu, _⟩ := Stack.push_of_lt hroom (g left right)
  have hpush : (Machine.onStack (Stack.push (g left right))).run
      { m with stack := m.stack.drop 2 } = .ok () { m with stack := u } := by
    rw [Machine.run_onStack, hu]
  exact .bind (.must (tracks_onCells (Cells.tracks_push _ _)) hpush) fun _ _ _ => .pure _

theorem tracks_divide (m : Machine) : Tracks bare m divide Handler.divide := by
  refine .bind (tracks_require m 2) ?_
  intro _ t ht
  obtain ⟨hr, rfl⟩ := Action.eq_of_look ht
  obtain ⟨top, below, ws, hc⟩ := Stack.exists_of_two_le_depth (Stack.le_of_require hr)
  obtain ⟨_, htop, _⟩ := Stack.looks_of_column hc
  refine .bind (.must (tracks_peek t 0) (Action.run_look_of_ok htop)) ?_
  intro divisor u hu
  obtain ⟨hpeek, rfl⟩ := Action.eq_of_look hu
  obtain rfl : top = divisor := Except.ok.inj (htop.symm.trans hpeek)
  by_cases hz : top = 0
  · rw [if_pos hz, if_pos hz]
    exact .fail _
  · rw [if_neg hz, if_neg hz]
    -- The word that was looked at is the one that is taken off as the divisor.
    apply tracks_binary
    intro left right s hs
    rw [Stack.popTwo_of_column hc] at hs
    obtain ⟨_, rfl⟩ := Prod.mk.inj (EStateM.Result.ok.inj hs).1
    exact Checked.div?_of_ne hz

/-- A write leaves the stack alone, so the words that were looked at can be taken off. -/
theorem tracks_store {x : UInt64 → UInt64 → Checked Memory Unit}
    {y : UInt64 → UInt64 → Action Memory Unit}
    (h : ∀ offset value, Tracks id m.memory (x offset value) (y offset value)) :
    Tracks bare m (store x) (Handler.store y) := by
  refine tracks_topTwo fun offset value hd => .bind (tracks_onMemory (h offset value)) ?_
  intro _ t ht
  have hs : t.stack = m.stack := Machine.stack_of_onMemory ht
  obtain ⟨p, hp⟩ := run_popTwo (m := t) (hs ▸ hd)
  exact .bind (.must (tracks_onCells (Cells.tracks_popTwo t.stack)) hp) fun _ _ _ => .pure _

theorem tracks_load (m : Machine) : Tracks bare m load Handler.load := by
  refine .bind (tracks_peek m 0) ?_
  intro offset t ht
  obtain ⟨hpeek, rfl⟩ := Action.eq_of_look ht
  refine .bind (tracks_readWord t offset) ?_
  intro value u hu
  obtain ⟨_, rfl⟩ := Action.eq_of_look hu
  obtain ⟨top, ws, hc⟩ := Stack.exists_of_one_le_depth (Stack.lt_of_peek hpeek)
  obtain ⟨s, hs, _⟩ := Stack.replaceTop_of_column hc value
  have hreplace : (Machine.onStack (Stack.replaceTop value)).run u =
      .ok () { u with stack := s } := by
    rw [Machine.run_onStack, hs]
  exact .bind (.must (tracks_onCells (Cells.tracks_replaceTop _ _)) hreplace) fun _ _ _ => .pure _

theorem tracks_finish (m : Machine) : Tracks bare m finish Handler.finish := by
  refine tracks_topTwo fun offset size hd => .bind (tracks_slice m offset size) ?_
  intro output t ht
  obtain ⟨_, rfl⟩ := Action.eq_of_look ht
  obtain ⟨p, hp⟩ := run_popTwo hd
  exact .bind (.must (tracks_onCells (Cells.tracks_popTwo t.stack)) hp) fun _ _ _ => .pure _

theorem tracks_readImmediate (m : Machine) (width : Nat) :
    Tracks bare m (readImmediate width) (Handler.readImmediate width) := by
  have hl : m.bare.code.length = m.bytes.size := m.length_code
  rw [Tracks]
  rcases Nat.lt_or_ge m.bytes.size (m.position + width) with h | h
  · have hc : ¬ m.bare.position + width ≤ m.bare.code.length := by
      rw [hl]
      exact Nat.not_le.2 h
    rw [Handler.run_readImmediate_of_lt h]
    simp only [readImmediate, EStateM.run_bind, EStateM.run_get, if_neg hc, Checked.run_fail]
    rfl
  · have hc : m.bare.position + width ≤ m.bare.code.length := by
      rw [hl]
      exact h
    obtain ⟨v, hv, hb⟩ := Handler.run_readImmediate_of_le h
    have hslice := Checked.slice?_of_le (Nat.le_add_right m.bare.position width) hc
    have hbytes : (m.bare.code.drop m.bare.position).take
        (m.bare.position + width - m.bare.position) = v.toList := by
      rw [Nat.add_sub_cancel_left]
      exact hb.symm
    rw [hv]
    simp only [readImmediate, EStateM.run_bind, EStateM.run_get, if_pos hc, hslice, hbytes,
      Checked.array?_toList, Checked.run_demand_some, EStateM.run_set, EStateM.run_pure]
    rfl

theorem tracks_push (m : Machine) (width : Nat) (word : Vector UInt8 width → UInt64) :
    Tracks bare m (push width word) (Handler.push width word) :=
  .bind (tracks_readImmediate m width) fun _ _ _ =>
    .bind (tracks_onCells (Cells.tracks_push _ _)) fun _ _ _ => .pure _

theorem tracks_ofOpcode (m : Machine) (o : Opcode) :
    Tracks bare m (ofOpcode o) (Handler.ofOpcode o) := by
  cases o with
  | pop => exact .bind (tracks_onCells (Cells.tracks_pop _)) fun _ _ _ => .pure _
  | push1 => exact tracks_push m 1 _
  | push8 => exact tracks_push m 8 _
  | add => exact tracks_binary fun _ _ _ _ => rfl
  | sub => exact tracks_binary fun _ _ _ _ => rfl
  | mul => exact tracks_binary fun _ _ _ _ => rfl
  | div => exact tracks_divide m
  | store1 => exact tracks_store fun offset value => Checked.tracks_write m.memory offset _
  | store8 => exact tracks_store fun offset value => Checked.tracks_write m.memory offset _
  | load8 => exact tracks_load m
  | ret => exact tracks_finish m

/-- The handler of bytes that are no opcode looks at the byte before the position. -/
theorem tracks_undefined {m : Machine} (h : 1 ≤ m.position) (hp : m.position ≤ m.bytes.size) :
    Tracks bare m undefined Handler.undefined := by
  have hi : m.position - 1 < m.bytes.size := by omega
  have hbyte : m.bare.code[m.bare.position - 1]? = some (m.bytes.getD (m.position - 1) 0) := by
    show m.bytes.toList[m.position - 1]? = _
    rw [Array.getElem?_toList, Array.getElem?_eq_getElem hi, ← Array.getElem_eq_getD 0]
  have hsub : Checked.sub? m.bare.position 1 = some (m.bare.position - 1) := Checked.sub?_of_le h
  rw [Tracks]
  simp only [undefined, EStateM.run_bind, EStateM.run_get, hsub, Checked.run_demand_some, hbyte,
    Checked.run_fail, Handler.undefined, Action.run_fail]
  rfl

theorem getElem?_table (b : UInt8) : table[b.toNat]? = some (ofByte b) := by
  rw [table, List.getElem?_map, List.getElem?_range b.toNat_lt, Option.map_some, UInt8.ofNat_toNat]

/-- A turn of a run: the byte that is fetched is within the code, and its handler in the table. -/
theorem run_handleNext {m : Machine} (h : m.position < m.bytes.size) :
    handleNext.run m.bare = image bare (m.handleNext h) := by
  have hbyte : m.bare.code[m.bare.position]? = some m.bytes[m.position] := by
    show m.bytes.toList[m.position]? = _
    rw [Array.getElem?_toList, Array.getElem?_eq_getElem h]
  simp only [handleNext, EStateM.run_bind, EStateM.run_get, hbyte, Checked.run_demand_some,
    EStateM.run_set, getElem?_table]
  rw [Machine.handleNext, ofByte]
  cases ho : Opcode.ofByte? m.bytes[m.position] with
  | none =>
    rw [Handler.dispatch_of_undefined ho]
    exact tracks_undefined (m := m.fetched) (Nat.succ_le_succ (Nat.zero_le _)) h
  | some o =>
    rw [Opcode.ofByte?_eq_some_iff.1 ho, Handler.dispatch_byte]
    exact tracks_ofOpcode m.fetched o

/-! ## Runs and sessions -/

variable {b t : Bare}

theorem run_of_next (h : b.position < b.code.length) (hn : handleNext.run b = .ok .next t)
    (hlt : t.code.length - t.position < b.code.length - b.position) : b.run = t.run := by
  rw [run, if_pos h, hn]
  exact dif_pos hlt

theorem run_of_output (h : b.position < b.code.length) {bytes : List UInt8}
    (hn : handleNext.run b = .ok (.output bytes) t) :
    b.run = some (.ok bytes, { t with status := .halted .returned }) := by
  rw [run, if_pos h, hn]

theorem run_of_error (h : b.position < b.code.length) {e : Error}
    (hn : handleNext.run b = .error (.error e) t) :
    b.run = some (.error e, { t with position := b.position, status := .halted .faulted }) := by
  rw [run, if_pos h, hn]

theorem run_of_length_le (h : b.code.length ≤ b.position) :
    b.run = some (.ok [], { b with status := .halted .exhausted }) := by
  rw [run, if_neg (Nat.not_lt.2 h)]

end Bare

namespace Machine

/-- **A checked run ends as the machine's run does.** -/
theorem checked_run (m : Machine) : m.bare.run = some (m.run.1, m.run.2.bare) := by
  -- Along the machine's run: each turn is tracked, and uses up code.
  fun_induction run m with
  | case1 m h t hs hlt ih =>
    have hn := Bare.run_handleNext h
    rw [hs] at hn
    exact (Bare.run_of_next h hn hlt).trans ih
  | case2 m h bytes t hs =>
    have hn := Bare.run_handleNext h
    rw [hs] at hn
    exact Bare.run_of_output h hn
  | case3 m h e t hs =>
    have hn := Bare.run_handleNext h
    rw [hs] at hn
    exact Bare.run_of_error h hn
  | case4 m h => exact Bare.run_of_length_le (Nat.le_of_not_lt h)

theorem bare_fresh (c : Capacities) : (fresh c).bare = Bare.fresh c := rfl

theorem bare_load (m : Machine) (code : List UInt8) : (m.load code).bare = m.bare.reload code := rfl

theorem bare_reset (m : Machine) : m.reset.bare = m.bare.reset := by
  have hd : m.stack.depth - m.stack.depth = 0 := Nat.sub_self _
  simp only [bare, reset, code, Stack.cells, Stack.clear, Stack.drop, hd, Bare.reset]

variable {α : Type} {m t : Machine} {x : Checked Bare α} {y : Action Machine α}

theorem answer_of_ok (h : Tracks bare m x y) {a : α} (hy : y.run m = .ok a t) :
    Bare.answer x m.bare = some (.ok a, t.bare) := by
  rw [Bare.answer, h, hy]
  rfl

theorem answer_of_error (h : Tracks bare m x y) {e : Error} (hy : y.run m = .error e t) :
    Bare.answer x m.bare = some (.error e, t.bare) := by
  rw [Bare.answer, h, hy]
  rfl

/-- A checked operation is answered, as the machine answers it. -/
theorem checked_perform (m : Machine) (op : Operation) :
    m.bare.perform op = some ((m.perform op).1, (m.perform op).2.bare) := by
  cases op with
  | load code => rfl
  | run => exact checked_run m
  | reset => exact congrArg (fun b => some (Except.ok [], b)) (bare_reset m).symm
  | runFresh code =>
    show (m.bare.reset.reload code).run = _
    rw [← bare_reset, ← bare_load]
    exact checked_run (m.reset.load code)
  | readMemory offset length =>
    have ht := Bare.tracks_slice m offset length
    cases hr : m.memory.slice offset length with
    | ok bs =>
      simp only [Bare.perform, perform, readMemory, hr]
      exact answer_of_ok ht (Action.run_look_of_ok hr)
    | error e =>
      simp only [Bare.perform, perform, readMemory, hr]
      exact answer_of_error ht (by rw [Action.run_look, hr])
  | writeMemory offset bytes =>
    have ht := Bare.tracks_onMemory (Checked.tracks_write m.memory offset bytes)
    have hb : Tracks bare m (do Bare.onMemory (Checked.write offset bytes); pure [])
        (do onMemory (Memory.write offset bytes); pure ([] : List UInt8)) :=
      .bind ht fun _ _ _ => .pure _
    cases hw : (onMemory (Memory.write offset bytes)).run m with
    | ok u t =>
      simp only [Bare.perform, perform, writeMemory, hw]
      exact answer_of_ok hb (by rw [EStateM.run_bind, hw]; rfl)
    | error e t =>
      simp only [Bare.perform, perform, writeMemory, hw]
      exact answer_of_error hb (by rw [EStateM.run_bind, hw])

/-- **No session leaves a domain.** -/
theorem checked_drive (m : Machine) (ops : List Operation) :
    m.bare.drive ops = some ((m.drive ops).1, (m.drive ops).2.bare) := by
  induction ops generalizing m with
  | nil => rfl
  | cons op ops ih =>
    simp only [Bare.drive, checked_perform, Option.bind_eq_bind, Option.bind_some, ih]
    rfl

/-- **No operation leaves its domain.**  Make a machine with capacities that are within their
ranges, and ask it anything, in any order: loads of any bytes, runs, resets, reads and writes of
memory at any offsets.  The checked engine, which stops where a difference, an index, a slice, a
quotient or a sum of addresses has no value, where an action fails that was checked to succeed, or
where a loop would not come closer to its end, answers all of it.  Its answers are those of the
machine, and so is the state that it leaves, whose live slots can be taken as a slice. -/
theorem checked_drive_eq_some {c : Capacities} {m : Machine} (h : Made c m)
    (ops : List Operation) :
    (Bare.fresh c).drive ops = some ((m.drive ops).1, (m.drive ops).2.bare) ∧
      (m.drive ops).2.bare.cells.words? = some (m.drive ops).2.words := by
  obtain ⟨_, rfl⟩ := h.valid_and_eq
  refine ⟨?_, Cells.words?_cells _⟩
  rw [← bare_fresh]
  exact checked_drive (fresh c) ops

/-- Accesses at and up to the last address, and a byte that is no opcode: the checked engine reports
errors. -/
theorem checked_drive_eq_some_errors :
    Machine.create ⟨2, 8⟩ = .ok (fresh ⟨2, 8⟩) ∧
      ((Bare.fresh ⟨2, 8⟩).drive [.writeMemory 0xFFFFFFFFFFFFFFFF [1],
        .readMemory 8 0xFFFFFFFFFFFFFFFF, .load [0x0F], .run]).map Prod.fst =
        some [.error (.outOfBounds 0xFFFFFFFFFFFFFFFF 1 8),
          .error (.outOfBounds 8 0xFFFFFFFFFFFFFFFF 8), .ok [],
          .error (.undefinedOpcode 0x0F 0)] := by
  have hm : Made ⟨2, 8⟩ (fresh ⟨2, 8⟩) := .create rfl
  refine ⟨rfl, ?_⟩
  rw [(checked_drive_eq_some hm _).1, Option.map_some]
  refine congrArg some ((congrArg Prod.fst (hm.view_drive _)).symm.trans ?_)
  have hrun : Reference.run ⟨⟨2, 8⟩, [0x0F], 0, [], List.replicate 8 0, .ready⟩ =
      (.error (.undefinedOpcode 0x0F 0),
        ⟨⟨2, 8⟩, [0x0F], 0, [], List.replicate 8 0, .halted .faulted⟩) := by
    cbv
  show [_, _, _, (Reference.run ⟨⟨2, 8⟩, [0x0F], 0, [], List.replicate 8 0, .ready⟩).1] = _
  rw [hrun]
  rfl

-- The engine does stop on a state that no machine has: here the live word has no slot.
example : Cells.pop.run ⟨[], 1⟩ = .error .outside ⟨[], 1⟩ := rfl

end Machine

end StackMachine
