import StackMachine.Proofs.Reference

/-!
# The machine refines the reference machine

`Machine.view` reads a machine as a reference machine: the live slots of its stack as a list, its
pages as a flat list of bytes.  What the machine does, seen through the view, is what the reference
machine does.

The argument goes up in three steps.  A handler realizes the effect of its opcode, also where it
fails: then it leaves the words and the bytes alone and at most moves over an immediate, which the
run undoes.  So one turn of the run's loop is one instruction of the reference machine, and by
induction on the code that is left a run is a run.
-/

namespace StackMachine

namespace Machine

/-- The reference machine that a machine stands for. -/
def view (m : Machine) : Reference where
  capacities := ⟨m.stack.capacity, m.memory.capacity.toNat⟩
  code := m.code
  position := m.position
  stack := m.stack.column
  memory := m.memory.flat
  status := m.status

theorem view_withStack {m : Machine} {s : Stack} (h : s.capacity = m.stack.capacity) :
    view { m with stack := s } = { m.view with stack := s.column } := by
  simp only [view, code, h]

theorem view_withMemory {m : Machine} {s : Memory} (h : s.capacity = m.memory.capacity) :
    view { m with memory := s } = { m.view with memory := s.flat } := by
  simp only [view, code, h]

end Machine

namespace Reference

/-- A result of a handler does to the view `v` what an effect of its opcode says.  A failure keeps
all of the view but the position. -/
def Realizes (v : Reference) (o : Opcode) (r : EStateM.Result Error Machine Step) :
    Result Effect → Prop
  | .ok (.next stack memory) =>
    ∃ t, r = .ok .next t ∧
      t.view = { v with stack, memory, position := v.position + o.width }
  | .ok (.output bytes stack) =>
    ∃ t, r = .ok (.output bytes) t ∧
      t.view = { v with stack, position := v.position + o.width }
  | .error e => ∃ t, r = .error e t ∧ { t.view with position := v.position } = v

end Reference

namespace Handler

open Reference (Realizes effect operands wrapped)

variable {m : Machine}

/-! ## Arithmetic on words -/

theorem ofInt_natCast (n : Nat) : UInt64.ofInt n = UInt64.ofNat n := by
  have h : ((n : Int) % 18446744073709551616).toNat = n % UInt64.size := by
    simp only [UInt64.size]
    omega
  exact (congrArg UInt64.ofNat h).trans UInt64.ofNat_mod_size

theorem ofInt_toNat (w : UInt64) : UInt64.ofInt w.toNat = w := by
  rw [ofInt_natCast, UInt64.ofNat_toNat]

theorem wrapped_add (below top : UInt64) : wrapped (· + ·) below top = below + top := by
  rw [wrapped, UInt64.ofInt_add, ofInt_toNat, ofInt_toNat]

theorem wrapped_sub (below top : UInt64) : wrapped (· - ·) below top = below - top := by
  rw [wrapped, Int.sub_eq_add_neg, UInt64.ofInt_add, UInt64.ofInt_neg, ofInt_toNat, ofInt_toNat,
    ← UInt64.sub_eq_add_neg]

theorem wrapped_mul (below top : UInt64) : wrapped (· * ·) below top = below * top := by
  rw [wrapped, UInt64.ofInt_mul, ofInt_toNat, ofInt_toNat]

theorem wrapped_div (below top : UInt64) : wrapped (· / ·) below top = below / top := by
  rw [wrapped, ← Int.natCast_ediv, ofInt_natCast, ← UInt64.toNat_div, UInt64.ofNat_toNat]

/-- The last byte of a word is its low byte. -/
theorem bigEndian_one (w : UInt64) : Bytes.bigEndian 1 w.toNat = [w.toUInt8] := by
  have h : UInt8.ofNat (w.toNat % 256) = w.toUInt8 := by
    apply UInt8.toNat_inj.1
    rw [UInt8.toNat_ofNat', UInt64.toNat_toUInt8]
    omega
  rw [Bytes.bigEndian, Bytes.bigEndian, List.nil_append, h]

/-- The value of a single byte is the byte. -/
theorem word_of_one (v : Vector UInt8 1) :
    (v.get ⟨0, Nat.one_pos⟩).toUInt64 = UInt64.ofNat (Bytes.value v.toList) := by
  generalize hw : v.get ⟨0, Nat.one_pos⟩ = b
  have hv : v.toList = [b] := by
    apply List.ext_getElem
    · simp
    · intro i hi _
      obtain rfl : i = 0 := by simpa using hi
      simpa [Vector.get] using hw
  apply UInt64.toNat_inj.1
  rw [hv, UInt8.toNat_toUInt64, UInt64.toNat_ofNat']
  have hb := b.toNat_lt
  simp only [Bytes.value, Bytes.valueFrom, List.foldl_cons, List.foldl_nil]
  omega

/-! ## Handlers with enough operands -/

theorem realizes_pop {top : UInt64} {ws : List UInt64} (h : m.stack.column = top :: ws) :
    Realizes m.view .pop (pop.run m) (.ok (.next ws m.memory.flat)) := by
  refine ⟨{ m with stack := m.stack.drop 1 }, ?_, ?_⟩
  · simp only [pop, EStateM.run_bind, Machine.run_onStack, Stack.pop_of_column h,
      EStateM.run_pure]
  · rw [Machine.view_withStack (Stack.capacity_drop _ _), Stack.column_drop, h]
    rfl

theorem realizes_binary {o : Opcode} (ho : o.width = 0) {f : UInt64 → UInt64 → UInt64}
    {g : Int → Int → Int} {top below : UInt64} (hg : wrapped g below top = f below top)
    {ws : List UInt64} (h : m.stack.column = top :: below :: ws) :
    Realizes m.view o ((binary f).run m)
      (.ok (.next (wrapped g below top :: ws) m.memory.flat)) := by
  -- The operands leave room for the result, so the push cannot fail.
  have hd : (m.stack.drop 2).depth < (m.stack.drop 2).capacity := by
    have hl : m.stack.depth = ws.length + 2 := by
      rw [← Stack.length_column, h]
      rfl
    have hle := m.stack.depth_le_capacity
    simp only [Stack.drop]
    omega
  obtain ⟨s, hs, hcol, hcap⟩ := Stack.push_of_lt hd (f below top)
  refine ⟨{ m with stack := s }, ?_, ?_⟩
  · simp only [binary, EStateM.run_bind, Machine.run_onStack, Stack.popTwo_of_column h, hs,
      EStateM.run_pure]
  · rw [Machine.view_withStack hcap, hcol, Stack.column_drop, h, hg, ho]
    rfl

theorem realizes_divide {top below : UInt64} {ws : List UInt64}
    (h : m.stack.column = top :: below :: ws) :
    Realizes m.view .div (divide.run m)
      (if top = 0 then .error .divisionByZero
        else .ok (.next (wrapped (· / ·) below top :: ws) m.memory.flat)) := by
  obtain ⟨hd, ht, _⟩ := Stack.looks_of_column h
  -- A zero divisor is found by a look, before `binary` takes anything off the stack.
  have hr : divide.run m =
      if top = 0 then .error .divisionByZero m else (binary (· / ·)).run m := by
    simp only [divide, EStateM.run_bind, Action.run_look, hd, ht]
    split
    · rfl
    · rfl
  rw [hr]
  split
  · exact ⟨m, rfl, rfl⟩
  · exact realizes_binary rfl (wrapped_div below top) h

/-- A store writes the second word at the offset on top, or fails as the write does. -/
theorem realizes_store {o : Opcode} (ho : o.width = 0)
    {write : UInt64 → UInt64 → Action Memory Unit} (width : Nat)
    (hw : ∀ offset value,
      write offset value = Memory.write offset (Bytes.bigEndian width value.toNat))
    {offset value : UInt64} {ws : List UInt64} (h : m.stack.column = offset :: value :: ws) :
    Realizes m.view o ((store write).run m)
      ((Flat.write m.memory.flat offset.toNat (Bytes.bigEndian width value.toNat)).map
        (.next ws)) := by
  obtain ⟨hd, ht, hb⟩ := Stack.looks_of_column h
  have hf := Memory.write_flat m.memory offset (Bytes.bigEndian width value.toNat)
  cases hr : Flat.write m.memory.flat offset.toNat (Bytes.bigEndian width value.toNat) with
  | error e =>
    rw [hr] at hf
    refine ⟨m, ?_, rfl⟩
    simp only [store, EStateM.run_bind, Action.run_look, hd, ht, hb, hw,
      Machine.run_onMemory, hf]
  | ok memory =>
    rw [hr] at hf
    obtain ⟨s, hs, hcap, rfl⟩ := hf
    -- The words are still there after the write, so taking them off succeeds.
    refine ⟨{ m with stack := m.stack.drop 2, memory := s }, ?_, ?_⟩
    · simp only [store, EStateM.run_bind, Action.run_look, hd, ht, hb, hw,
        Machine.run_onMemory, hs, Machine.run_onStack, Stack.popTwo_of_column h, EStateM.run_pure]
    · simp only [Machine.view, Machine.code, hcap, Stack.capacity_drop, Stack.column_drop, h, ho,
        List.drop_succ_cons, List.drop_zero, Nat.add_zero]

theorem realizes_load {offset : UInt64} {ws : List UInt64} (h : m.stack.column = offset :: ws) :
    Realizes m.view .load8 (load.run m)
      ((Flat.read m.memory.flat offset.toNat 8).map fun bs =>
        .next (UInt64.ofNat (Bytes.value bs) :: ws) m.memory.flat) := by
  have ht : m.stack.peek 0 = .ok offset := Stack.peek_of_column (by rw [h]; rfl)
  have hr := Memory.read_eq_flat m.memory offset 8
  cases hf : Flat.read m.memory.flat offset.toNat 8 with
  | error e =>
    have hw : m.memory.readWord offset = .error e := by
      rw [Memory.readWord, hr, hf]
      rfl
    refine ⟨m, ?_, rfl⟩
    simp only [load, EStateM.run_bind, Action.run_look, ht, hw]
  | ok bs =>
    have hw : m.memory.readWord offset = .ok (UInt64.ofNat (Bytes.value bs)) := by
      rw [Memory.readWord, hr, hf]
      rfl
    -- The word goes into the slot of the offset: no push, so no overflow on a full stack.
    obtain ⟨s, hs, hcol, hcap⟩ :=
      Stack.replaceTop_of_column h (UInt64.ofNat (Bytes.value bs))
    refine ⟨{ m with stack := s }, ?_, ?_⟩
    · simp only [load, EStateM.run_bind, Action.run_look, ht, hw, Machine.run_onStack, hs,
        EStateM.run_pure]
    · rw [Machine.view_withStack hcap, hcol]
      rfl

theorem realizes_finish {offset size : UInt64} {ws : List UInt64}
    (h : m.stack.column = offset :: size :: ws) :
    Realizes m.view .ret (finish.run m)
      ((Flat.read m.memory.flat offset.toNat size.toNat).map fun bs => .output bs ws) := by
  obtain ⟨hd, ht, hb⟩ := Stack.looks_of_column h
  have hr := Memory.slice_eq_flat m.memory offset size
  cases hf : Flat.read m.memory.flat offset.toNat size.toNat with
  | error e =>
    rw [hf] at hr
    refine ⟨m, ?_, rfl⟩
    simp only [finish, EStateM.run_bind, Action.run_look, hd, ht, hb, hr]
  | ok bs =>
    rw [hf] at hr
    refine ⟨{ m with stack := m.stack.drop 2 }, ?_, ?_⟩
    · simp only [finish, EStateM.run_bind, Action.run_look, hd, ht, hb, hr,
        Machine.run_onStack, Stack.popTwo_of_column h, EStateM.run_pure]
    · rw [Machine.view_withStack (Stack.capacity_drop _ _), Stack.column_drop, h]
      rfl

/-! ## Pushes -/

theorem run_readImmediate_of_le {width : Nat} (h : m.position + width ≤ m.bytes.size) :
    ∃ v : Vector UInt8 width,
      (readImmediate width).run m = .ok v { m with position := m.position + width } ∧
        v.toList = (m.code.drop m.position).take width := by
  simp only [EStateM.run, readImmediate, dif_pos h]
  refine ⟨_, rfl, ?_⟩
  simp only [Machine.code, Vector.toList_mk, Array.toList_extract, List.extract_eq_take_drop,
    Nat.add_sub_cancel_left]

theorem run_readImmediate_of_lt {width : Nat} (h : m.bytes.size < m.position + width) :
    (readImmediate width).run m =
      .error (.truncated m.position width (m.bytes.size - m.position)) m := by
  simp only [EStateM.run, readImmediate, dif_neg (Nat.not_le.2 h)]

/-- The immediate is read before the stack is looked at. -/
theorem realizes_push {o : Opcode} {word : Vector UInt8 o.width → UInt64}
    (hw : ∀ v, word v = UInt64.ofNat (Bytes.value v.toList)) :
    Realizes m.view o ((push o.width word).run m)
      (do
        let value ← Reference.immediate m.code m.position o
        if m.stack.column.length < m.stack.capacity then
          .ok (.next (UInt64.ofNat value :: m.stack.column) m.memory.flat)
        else .error (.stackOverflow m.stack.capacity)) := by
  rw [Reference.immediate, Machine.length_code, Stack.length_column]
  rcases Nat.lt_or_ge m.bytes.size (m.position + o.width) with hi | hi
  · rw [if_neg (Nat.not_le.2 hi)]
    refine ⟨m, ?_, rfl⟩
    simp only [push, EStateM.run_bind, run_readImmediate_of_lt hi]
  · obtain ⟨v, hv, hb⟩ := run_readImmediate_of_le hi
    rw [if_pos hi, ← hb]
    show Realizes m.view o _
      (if m.stack.depth < m.stack.capacity then
        .ok (.next (UInt64.ofNat (Bytes.value v.toList) :: m.stack.column) m.memory.flat)
      else .error (.stackOverflow m.stack.capacity))
    rcases Nat.lt_or_ge m.stack.depth m.stack.capacity with hd | hd
    · obtain ⟨s, hs, hcol, hcap⟩ := Stack.push_of_lt hd (word v)
      rw [if_pos hd]
      refine ⟨{ m with stack := s, position := m.position + o.width }, ?_, ?_⟩
      · simp only [push, EStateM.run_bind, hv, Machine.run_onStack, hs, EStateM.run_pure]
      · rw [← hw, ← hcol]
        simp only [Machine.view, Machine.code, hcap]
    · -- A full stack leaves the position past the immediate.
      rw [if_neg (Nat.not_lt.2 hd)]
      refine ⟨{ m with position := m.position + o.width }, ?_, rfl⟩
      simp only [push, EStateM.run_bind, hv, Machine.run_onStack, Stack.push_of_ge hd]

/-! ## Every opcode -/

/-- On a short stack every handler fails, and leaves the machine as it is. -/
theorem run_of_short {o : Opcode} (h : m.stack.depth < operands o) :
    (ofOpcode o).run m = .error (.stackUnderflow (operands o) m.stack.depth) m := by
  cases o with
  | push1 | push8 => exact absurd h (Nat.not_lt_zero _)
  | pop =>
    simp only [ofOpcode, pop, EStateM.run_bind, Machine.run_onStack, Stack.pop_of_lt h, operands]
  | load8 =>
    have h1 : m.stack.depth ≤ 0 := Nat.le_of_lt_succ h
    simp only [ofOpcode, load, EStateM.run_bind, Action.run_look, Stack.peek_of_le h1, operands]
  | add | sub | mul =>
    simp only [ofOpcode, binary, EStateM.run_bind, Machine.run_onStack, Stack.popTwo_of_lt h,
      operands]
  | div =>
    have h2 : m.stack.depth < 2 := h
    simp only [ofOpcode, divide, EStateM.run_bind, Action.run_look, Stack.require_of_lt h2,
      operands]
  | store1 | store8 =>
    have h2 : m.stack.depth < 2 := h
    simp only [ofOpcode, store, EStateM.run_bind, Action.run_look, Stack.require_of_lt h2, operands]
  | ret =>
    have h2 : m.stack.depth < 2 := h
    simp only [ofOpcode, finish, EStateM.run_bind, Action.run_look, Stack.require_of_lt h2,
      operands]

/-- With enough operands, the handler of an opcode without immediate has the opcode's effect. -/
theorem realizes_of_operands_le {o : Opcode} (hw : o.width = 0) (h : operands o ≤ m.stack.depth)
    (value : Nat) :
    Realizes m.view o ((ofOpcode o).run m)
      (effect m.view.capacities value m.memory.flat o m.stack.column) := by
  cases o with
  | push1 | push8 => exact absurd hw (by decide)
  | pop =>
    obtain ⟨top, ws, hc⟩ := Stack.exists_of_one_le_depth h
    rw [hc]
    exact realizes_pop hc
  | load8 =>
    obtain ⟨offset, ws, hc⟩ := Stack.exists_of_one_le_depth h
    rw [hc]
    exact realizes_load hc
  | add =>
    obtain ⟨top, below, ws, hc⟩ := Stack.exists_of_two_le_depth h
    rw [hc]
    exact realizes_binary hw (wrapped_add below top) hc
  | sub =>
    obtain ⟨top, below, ws, hc⟩ := Stack.exists_of_two_le_depth h
    rw [hc]
    exact realizes_binary hw (wrapped_sub below top) hc
  | mul =>
    obtain ⟨top, below, ws, hc⟩ := Stack.exists_of_two_le_depth h
    rw [hc]
    exact realizes_binary hw (wrapped_mul below top) hc
  | div =>
    obtain ⟨top, below, ws, hc⟩ := Stack.exists_of_two_le_depth h
    rw [hc]
    exact realizes_divide hc
  | store1 =>
    obtain ⟨offset, value, ws, hc⟩ := Stack.exists_of_two_le_depth h
    rw [hc]
    exact realizes_store hw 1 (fun _ _ => congrArg _ (bigEndian_one _).symm) hc
  | store8 =>
    obtain ⟨offset, value, ws, hc⟩ := Stack.exists_of_two_le_depth h
    rw [hc]
    exact realizes_store hw 8 (fun _ _ => rfl) hc
  | ret =>
    obtain ⟨offset, size, ws, hc⟩ := Stack.exists_of_two_le_depth h
    rw [hc]
    exact realizes_finish hc

/-- The handler of an opcode does what the reference machine says of the opcode. -/
theorem realizes_ofOpcode (o : Opcode) (hp : m.position ≤ m.bytes.size) :
    Realizes m.view o ((ofOpcode o).run m)
      (do
        let value ← Reference.immediate m.code m.position o
        effect m.view.capacities value m.memory.flat o m.stack.column) := by
  -- Without an immediate the first question is the operands; the two pushes ask for theirs first.
  by_cases hw : o.width = 0
  · rw [Reference.immediate_of_width_eq_zero hw (by simpa using hp)]
    show Realizes m.view o _ (effect m.view.capacities 0 m.memory.flat o m.stack.column)
    rcases Nat.lt_or_ge m.stack.depth (operands o) with hs | hs
    · rw [Reference.effect_of_short (by simpa using hs), Stack.length_column]
      exact ⟨m, run_of_short hs, rfl⟩
    · exact realizes_of_operands_le hw hs 0
  · cases o with
    | push1 => exact realizes_push (o := .push1) word_of_one
    | push8 => exact realizes_push (o := .push8) fun _ => rfl
    | _ => exact absurd rfl hw

end Handler

namespace Machine

open Reference (Realizes)

/-! ## One turn and a whole run -/

/-- The state in which a handler is called. -/
def fetched (m : Machine) : Machine := { m with position := m.position + 1 }

theorem handleNext_of_undefined {m : Machine} {h : m.position < m.bytes.size}
    (ho : Opcode.ofByte? m.bytes[m.position] = none) :
    m.handleNext h = .error (.undefinedOpcode m.bytes[m.position] m.position) m.fetched := by
  -- The handler looks one byte back from the position, which is the byte that was fetched.
  have hb : m.bytes.getD m.position 0 = m.bytes[m.position] := (Array.getElem_eq_getD 0).symm
  rw [handleNext, Handler.dispatch_of_undefined ho]
  simp only [Handler.undefined, EStateM.run_bind, EStateM.run_get, Action.run_fail,
    Nat.add_sub_cancel, hb, fetched]

theorem handleNext_of_opcode {m : Machine} {h : m.position < m.bytes.size} {o : Opcode}
    (ho : Opcode.ofByte? m.bytes[m.position] = some o) :
    Realizes m.fetched.view o (m.handleNext h) (m.view.effectAt o) := by
  have hr := Handler.realizes_ofOpcode (m := m.fetched) o h
  rw [handleNext, Opcode.ofByte?_eq_some_iff.1 ho, Handler.dispatch_byte]
  exact hr

/-- **A run of the machine is a run of the reference machine.** -/
theorem view_run (m : Machine) : m.view.run = (m.run.1, m.run.2.view) := by
  -- On the code that is left: each turn moves the position past its opcode.
  generalize hk : m.bytes.size - m.position = k
  induction k using Nat.strongRecOn generalizing m with
  | _ k ih =>
    rcases Nat.lt_or_ge m.position m.bytes.size with h | h
    · have h' : m.view.position < m.view.code.length := by simpa [view] using h
      have hb : m.view.code[m.view.position] = m.bytes[m.position] := Array.getElem_toList h
      cases ho : Opcode.ofByte? m.bytes[m.position] with
      | none =>
        have hi : m.view.instruct m.view.code[m.view.position] =
            .error (.undefinedOpcode m.bytes[m.position] m.position) := by
          rw [hb, Reference.instruct, ho]
          rfl
        rw [Reference.run_of_error hi, run_of_error (handleNext_of_undefined ho)]
        rfl
      | some o =>
        have hi : m.view.instruct m.view.code[m.view.position] =
            (m.view.effectAt o).map (o, ·) := by
          rw [hb, Reference.instruct, ho]
        have hr := handleNext_of_opcode (h := h) ho
        cases hp : m.view.effectAt o with
        | error e =>
          -- The position is put back on the machine's side; the reference machine never moved it.
          rw [hp] at hi hr
          obtain ⟨t, ht, hv⟩ := hr
          rw [Reference.run_of_error hi, run_of_error ht]
          exact congrArg
            (fun v : Reference =>
              (Except.error e, { v with position := m.position, status := .halted .faulted })) hv.symm
        | ok effect =>
          rw [hp] at hi hr
          cases effect with
          | next stack memory =>
            obtain ⟨t, ht, hv⟩ := hr
            have hlt := left_lt_of_handleNext ht
            rw [Reference.run_of_next hi, run_of_next ht, ← ih _ (by omega) t rfl, hv, Opcode.size,
              ← Nat.add_assoc]
            rfl
          | output bytes stack =>
            obtain ⟨t, ht, hv⟩ := hr
            rw [Reference.run_of_output hi, run_of_output ht, Opcode.size, ← Nat.add_assoc]
            exact congrArg
              (fun v : Reference => (Except.ok bytes, { v with status := .halted .returned })) hv.symm
    · rw [run_of_size_le h, Reference.run_of_length_le (by simpa [view] using h)]
      rfl

end Machine

end StackMachine
