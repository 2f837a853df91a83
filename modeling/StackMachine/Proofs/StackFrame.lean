import StackMachine.Proofs.Session

/-!
# Words below the stack and room beyond the capacities

No instruction reaches below its operands, and none asks for less room than it uses.  So a run that
succeeds does the same on a machine with more: with words below its stack, with a larger stack and
with a larger memory that starts with the same bytes.

A reference machine with more is `framed`: words are put below its stack, bytes behind its memory,
and its capacities grow.  An effect that is defined stays defined there, and leaves the words below
and the bytes behind as they are; that is one case for each opcode, and the run lemma follows by
induction over the run.  Nothing is said of runs that fail: with more room they may succeed.
-/

namespace StackMachine

namespace Flat

/-- A read that is allowed gives the same bytes with more bytes behind the memory. -/
theorem read_append {memory bs : List UInt8} {offset length : Nat}
    (h : read memory offset length = .ok bs) (behind : List UInt8) :
    read (memory ++ behind) offset length = .ok bs := by
  unfold read at h ⊢
  split at h
  · rename_i hle
    obtain rfl := Except.ok.inj h
    have hle' : offset + length ≤ (memory ++ behind).length := by
      rw [List.length_append]
      omega
    have hd : length ≤ (memory.drop offset).length := by
      rw [List.length_drop]
      omega
    rw [if_pos hle', List.drop_append_of_le_length (by omega), List.take_append_of_le_length hd]
  · exact absurd h (by simp)

/-- A write that is allowed leaves bytes behind the memory as they are. -/
theorem write_append {memory bs after : List UInt8} {offset : Nat}
    (h : write memory offset bs = .ok after) (behind : List UInt8) :
    write (memory ++ behind) offset bs = .ok (after ++ behind) := by
  unfold write at h ⊢
  split at h
  · rename_i hle
    obtain rfl := Except.ok.inj h
    have hle' : offset + bs.length ≤ (memory ++ behind).length := by
      rw [List.length_append]
      omega
    rw [if_pos hle', List.take_append_of_le_length (by omega), List.drop_append_of_le_length hle,
      List.append_assoc, List.append_assoc, List.append_assoc]
  · exact absurd h (by simp)

end Flat

namespace Reference

/-- The effect with words below the stack and bytes behind the memory. -/
def Effect.framed (below : List UInt64) (behind : List UInt8) : Effect → Effect
  | .next stack memory => .next (stack ++ below) (memory ++ behind)
  | .output bytes stack => .output bytes (stack ++ below)

/-- The reference machine with other capacities, words below its stack and bytes behind its
memory. -/
def framed (r : Reference) (c : Capacities) (below : List UInt64) (behind : List UInt8) :
    Reference :=
  { r with capacities := c, stack := r.stack ++ below, memory := r.memory ++ behind }

variable {c d : Capacities} {below : List UInt64}

/-- **An effect that is defined is defined with more**, and leaves what was added. -/
theorem effect_framed {value : Nat} {memory : List UInt8} {o : Opcode} {ws : List UInt64}
    {f : Effect} (h : effect c value memory o ws = .ok f)
    (hd : c.stack + below.length ≤ d.stack) (behind : List UInt8) :
    effect d value (memory ++ behind) o (ws ++ below) = .ok (f.framed below behind) := by
  match o, ws with
  | .push1, ws | .push8, ws =>
    -- The room for the word is there before and behind the added words.
    simp only [effect] at h ⊢
    split at h
    · rename_i hlt
      obtain rfl := Except.ok.inj h
      have hlt' : (ws ++ below).length < d.stack := by
        rw [List.length_append]
        omega
      rw [if_pos hlt']
      rfl
    · exact absurd h (by simp)
  | .pop, _ :: _ | .add, _ :: _ :: _ | .sub, _ :: _ :: _ | .mul, _ :: _ :: _ =>
    obtain rfl := Except.ok.inj h
    rfl
  | .div, top :: lower :: ws =>
    simp only [effect, List.cons_append] at h ⊢
    split at h
    · exact absurd h (by simp)
    · rename_i hne
      obtain rfl := Except.ok.inj h
      rw [if_neg hne]
      rfl
  | .store1, _ :: _ :: _ | .store8, _ :: _ :: _ =>
    obtain ⟨after, hw, rfl⟩ := Result.map_eq_ok_iff.1 h
    exact Result.map_eq_ok_iff.2 ⟨_, Flat.write_append hw behind, rfl⟩
  | .load8, _ :: _ | .ret, _ :: _ :: _ =>
    obtain ⟨bs, hr, rfl⟩ := Result.map_eq_ok_iff.1 h
    exact Result.map_eq_ok_iff.2 ⟨bs, Flat.read_append hr behind, rfl⟩
  | .pop, [] | .load8, []
  | .add, [] | .sub, [] | .mul, [] | .div, [] | .store1, [] | .store8, [] | .ret, []
  | .add, [_] | .sub, [_] | .mul, [_] | .div, [_] | .store1, [_] | .store8, [_] | .ret, [_] =>
    exact absurd h (by simp [effect])

variable {r : Reference}

theorem instruct_framed {b : UInt8} {o : Opcode} {f : Effect} (h : r.instruct b = .ok (o, f))
    (hd : r.capacities.stack + below.length ≤ d.stack) (behind : List UInt8) :
    (r.framed d below behind).instruct b = .ok (o, f.framed below behind) := by
  obtain ⟨ho, value, hv, hf⟩ := instruct_eq_ok_iff.1 h
  exact instruct_eq_ok_iff.2 ⟨ho, value, hv, effect_framed hf hd behind⟩

/-- **A run that succeeds does the same with more.** -/
theorem run_framed {out : List UInt8} (h : r.run.1 = .ok out)
    (hd : r.capacities.stack + below.length ≤ d.stack) (behind : List UInt8) :
    (r.framed d below behind).run = (.ok out, r.run.2.framed d below behind) := by
  fun_induction run r with
  | case1 r hlt o stack memory hi hs ih =>
    have hi' := instruct_framed hi hd behind
    exact (run_of_next (r := r.framed d below behind) (h := hlt) hi').trans (ih h hd)
  | case2 r hlt o bytes stack hi =>
    have hi' := instruct_framed hi hd behind
    obtain rfl := Except.ok.inj h
    exact run_of_output (r := r.framed d below behind) (h := hlt) hi'
  | case3 r hlt e hi => exact absurd h (by simp)
  | case4 r hge =>
    obtain rfl := Except.ok.inj h
    exact run_of_length_le (r := r.framed d below behind) (Nat.le_of_not_lt hge)

/-- How the last run ended plays no part in the next one. -/
theorem run_withStatus (r : Reference) (s : Status) : run { r with status := s } = r.run := by
  fun_induction run r with
  | case1 r hlt o stack memory hi hs ih =>
    exact (run_of_next (r := { r with status := s }) (h := hlt) hi).trans ih
  | case2 r hlt o bytes stack hi =>
    exact run_of_output (r := { r with status := s }) (h := hlt) hi
  | case3 r hlt e hi => exact run_of_error (r := { r with status := s }) (h := hlt) hi
  | case4 r hge => exact run_of_length_le (r := { r with status := s }) (Nat.le_of_not_lt hge)

end Reference

namespace Memory

theorem getElem?_flat_of_lt {m : Memory} {address : Nat} (h : address < m.capacity.toNat) :
    m.flat[address]? = some (m.byteAt address) := by
  rw [getElem?_flat, if_pos h]

/-- A larger memory that agrees with a smaller one is the smaller one with bytes behind it. -/
theorem flat_eq_append {m t : Memory} (hle : m.capacity ≤ t.capacity)
    (h : ∀ address < m.capacity.toNat, t.byteAt address = m.byteAt address) :
    t.flat = m.flat ++ t.flat.drop m.capacity.toNat := by
  have hle' : m.capacity.toNat ≤ t.capacity.toNat := UInt64.le_iff_toNat_le.1 hle
  conv => lhs; rw [← List.take_append_drop m.capacity.toNat t.flat]
  congr 1
  apply List.ext_getElem?
  intro address
  rcases Nat.lt_or_ge address m.capacity.toNat with hlt | hge
  · rw [List.getElem?_take_of_lt hlt, getElem?_flat_of_lt (by omega), getElem?_flat_of_lt hlt,
      h address hlt]
  · have hlen : (t.flat.take m.capacity.toNat).length ≤ address := by
      rw [List.length_take]
      omega
    rw [List.getElem?_eq_none hlen, List.getElem?_eq_none (by rw [length_flat]; exact hge)]

end Memory

namespace Machine

/-- A machine with all that another one has, and more: the words `below` under the words of its
stack, and capacities that leave as much room above them.  The memories agree where the smaller one
ends. -/
structure Frames (below : List UInt64) (m t : Machine) : Prop where
  code : t.code = m.code
  position : t.position = m.position
  words : t.words = below ++ m.words
  stack_le : below.length + m.stack.capacity ≤ t.stack.capacity
  memory_le : m.memory.capacity ≤ t.memory.capacity
  memory : ∀ address < m.memory.capacity.toNat, t.memory.byteAt address = m.memory.byteAt address

/-- The view of a machine with more is the framed view of the other one. -/
theorem Frames.view_eq {below : List UInt64} {m t : Machine} (h : Frames below m t) :
    t.view = { m.view.framed t.view.capacities below.reverse
      (t.memory.flat.drop m.memory.capacity.toNat) with status := t.status } := by
  have hs : t.stack.column = m.stack.column ++ below.reverse := by
    have hw : t.stack.words = below ++ m.stack.words := h.words
    rw [Stack.column, hw, List.reverse_append]
    rfl
  have hm := Memory.flat_eq_append h.memory_le h.memory
  have hc := h.code
  have hp := h.position
  simp only [view, Reference.framed, hc, hp, hs, ← hm]

theorem Frames.run {below : List UInt64} {m t : Machine} (h : Frames below m t) {out : List UInt8}
    (hr : m.run.1 = .ok out) :
    t.run.1 = .ok out ∧ t.run.2.view =
      m.run.2.view.framed t.view.capacities below.reverse
        (t.memory.flat.drop m.memory.capacity.toNat) := by
  have hm : m.view.run = (m.run.1, m.run.2.view) := view_run m
  have ht : t.view.run = (t.run.1, t.run.2.view) := view_run t
  have hd : m.view.capacities.stack + below.reverse.length ≤ t.view.capacities.stack := by
    have hle := h.stack_le
    rw [List.length_reverse, Nat.add_comm]
    exact hle
  have hout : m.view.run.1 = .ok out := by
    rw [hm]
    exact hr
  have hf := Reference.run_framed hout hd (t.memory.flat.drop m.memory.capacity.toNat)
  rw [h.view_eq, Reference.run_withStatus, hf, hm] at ht
  obtain ⟨h1, h2⟩ := Prod.mk.inj ht
  exact ⟨h1.symm, h2.symm⟩

/-- A run keeps the capacities of the stack and of the memory. -/
theorem view_capacities_run (m : Machine) : m.run.2.view.capacities = m.view.capacities := by
  have hc := Reference.capacities_run m.view
  rw [view_run] at hc
  exact hc

/-- Machines whose views are framed alike after a run are framed alike themselves. -/
theorem Frames.of_view {below : List UInt64} {m t : Machine} (h : Frames below m t)
    (hv : t.run.2.view = m.run.2.view.framed t.view.capacities below.reverse
      (t.memory.flat.drop m.memory.capacity.toNat)) : Frames below m.run.2 t.run.2 := by
  have hstack : t.run.2.stack.column = m.run.2.stack.column ++ below.reverse :=
    congrArg Reference.stack hv
  have hflat : t.run.2.memory.flat =
      m.run.2.memory.flat ++ t.memory.flat.drop m.memory.capacity.toNat :=
    congrArg Reference.memory hv
  have hmc := view_capacities_run m
  have htc := view_capacities_run t
  refine ⟨congrArg Reference.code hv, congrArg Reference.position hv, ?_, ?_, ?_, ?_⟩
  · apply List.reverse_inj.1
    rw [List.reverse_append]
    exact hstack
  · have hm : m.run.2.stack.capacity = m.stack.capacity := congrArg Capacities.stack hmc
    have ht : t.run.2.stack.capacity = t.stack.capacity := congrArg Capacities.stack htc
    rw [hm, ht]
    exact h.stack_le
  · have hm : m.run.2.memory.capacity.toNat = m.memory.capacity.toNat :=
      congrArg Capacities.memory hmc
    have ht : t.run.2.memory.capacity.toNat = t.memory.capacity.toNat :=
      congrArg Capacities.memory htc
    rw [UInt64.le_iff_toNat_le, hm, ht]
    exact UInt64.le_iff_toNat_le.1 h.memory_le
  · intro address hlt
    have hb : m.run.2.memory.flat[address]? = some (m.run.2.memory.byteAt address) :=
      Memory.getElem?_flat_of_lt hlt
    have ha : t.run.2.memory.flat[address]? = some (m.run.2.memory.byteAt address) := by
      rw [hflat, List.getElem?_append_left (by rw [Memory.length_flat]; exact hlt), hb]
    rw [Memory.getElem?_flat] at ha
    split at ha
    · exact Option.some.inj ha
    · exact absurd ha (by simp)

/-- New machines with the same code are framed alike, without words, if the one has larger
capacities. -/
theorem frames_load_fresh {c d : Capacities} (hc : c.Valid) (hd : d.Valid)
    (hs : c.stack ≤ d.stack) (hm : c.memory ≤ d.memory) (code : List UInt8) :
    Frames [] ((fresh c).load code) ((fresh d).load code) where
  code := rfl
  position := rfl
  words := rfl
  stack_le := by
    show 0 + c.stack ≤ d.stack
    omega
  memory_le := by
    show UInt64.ofNat c.memory ≤ UInt64.ofNat d.memory
    have hcm : c.memory < UInt64.size := Nat.lt_of_le_of_lt hc.2.2 (by decide)
    have hdm : d.memory < UInt64.size := Nat.lt_of_le_of_lt hd.2.2 (by decide)
    rw [UInt64.le_iff_toNat_le, UInt64.toNat_ofNat_of_lt' hcm, UInt64.toNat_ofNat_of_lt' hdm]
    exact hm
  memory address _ := by
    show (Memory.zeros _).byteAt address = (Memory.zeros _).byteAt address
    rw [Memory.byteAt_zeros, Memory.byteAt_zeros]

/-- **Words below the stack and room beyond the capacities do not matter to a run that succeeds.**
Let one machine have all that another one has, with the words `below` under its stack.  If the run
of the smaller machine succeeds, the run of the larger one has the same output and ends in the same
way.  It leaves the larger machine with all that the smaller one has then, above the same words,
and with the bytes that it had where the smaller memory ends.  In particular a program that
succeeds on a new machine succeeds, with the same output, on every larger new machine. -/
theorem run_frame_rule :
    (∀ (below : List UInt64) (m t : Machine) (out : List UInt8), Frames below m t →
      m.run.1 = .ok out →
        t.run.1 = .ok out ∧ t.run.2.position = m.run.2.position ∧
          t.run.2.status = m.run.2.status ∧ Frames below m.run.2 t.run.2 ∧
          ∀ address, m.memory.capacity.toNat ≤ address → address < t.memory.capacity.toNat →
            t.run.2.memory.byteAt address = t.memory.byteAt address) ∧
    (∀ (c d : Capacities) (m t : Machine) (code out : List UInt8), Made c m → Made d t →
      c.stack ≤ d.stack → c.memory ≤ d.memory →
        (m.load code).run.1 = .ok out → (t.load code).run.1 = .ok out) := by
  refine ⟨?_, ?_⟩
  · intro below m t out h hr
    obtain ⟨hout, hv⟩ := h.run hr
    have hf := h.of_view hv
    refine ⟨hout, hf.position, congrArg Reference.status hv, hf, ?_⟩
    intro address hge hlt
    have hflat : t.run.2.memory.flat =
        m.run.2.memory.flat ++ t.memory.flat.drop m.memory.capacity.toNat :=
      congrArg Reference.memory hv
    have hmc : m.run.2.memory.capacity.toNat = m.memory.capacity.toNat :=
      congrArg Capacities.memory (view_capacities_run m)
    have htc : t.run.2.memory.capacity.toNat = t.memory.capacity.toNat :=
      congrArg Capacities.memory (view_capacities_run t)
    -- Behind the smaller memory the larger one still holds what it held before the run.
    have hsame : t.run.2.memory.flat[address]? = t.memory.flat[address]? := by
      rw [hflat, List.getElem?_append_right (by rw [Memory.length_flat, hmc]; exact hge),
        Memory.length_flat, hmc, List.getElem?_drop]
      congr 1
      omega
    rw [Memory.getElem?_flat_of_lt hlt, Memory.getElem?_flat_of_lt (by omega)] at hsame
    exact Option.some.inj hsame
  · intro c d m t code out hm ht hs hmem hr
    obtain ⟨hc, rfl⟩ := hm.valid_and_eq
    obtain ⟨hd, rfl⟩ := ht.valid_and_eq
    exact ((frames_load_fresh hc hd hs hmem code).run hr).1

/-- A store and a return on a machine of two words and eight bytes, and on one with a word below and
a byte behind: the word and the byte are still there. -/
theorem run_frame_rule_store :
    let code : List UInt8 := [0x01, 7, 0x01, 0, 0x21, 0x01, 8, 0x01, 0, 0x30]
    let m := (fresh ⟨2, 8⟩).load code
    let t := ((fresh ⟨3, 9⟩).drive
      [.load [0x01, 5], .run, .writeMemory 8 [9], .load code]).2
    Frames [5] m t ∧ m.run.1 = .ok [0, 0, 0, 0, 0, 0, 0, 7] ∧
      t.run.1 = .ok [0, 0, 0, 0, 0, 0, 0, 7] ∧ t.run.2.words = [5] ∧
      t.run.2.memory.byteAt 8 = 9 := by
  intro code m t
  have hpush : Reference.run ⟨⟨3, 9⟩, [0x01, 5], 0, [], List.replicate 9 0, .ready⟩ =
      (.ok [], ⟨⟨3, 9⟩, [0x01, 5], 2, [5], List.replicate 9 0, .halted .exhausted⟩) := by
    cbv
  have hstore : ((Reference.fresh ⟨2, 8⟩).load code).run =
      (.ok [0, 0, 0, 0, 0, 0, 0, 7],
        ⟨⟨2, 8⟩, code, 10, [], [0, 0, 0, 0, 0, 0, 0, 7], .halted .returned⟩) := by
    cbv
  rw [view_run_load_fresh (by decide)] at hstore
  obtain ⟨hr, hmv⟩ := Prod.mk.inj hstore
  have hview : t.view = ⟨⟨3, 9⟩, code, 0, [5], [0, 0, 0, 0, 0, 0, 0, 0, 9], .ready⟩ := by
    have hmade : Made ⟨3, 9⟩ (fresh ⟨3, 9⟩) := .create rfl
    refine (congrArg Prod.snd (hmade.view_drive _)).symm.trans ?_
    show ((Reference.run ⟨⟨3, 9⟩, [0x01, 5], 0, [], List.replicate 9 0, .ready⟩).2.writeMemory
      8 [9]).2.load code = _
    rw [hpush]
    rfl
  have hcap : t.memory.capacity.toNat = 9 :=
    congrArg (fun v : Reference => v.capacities.memory) hview
  have hbyte : ∀ address < 9, t.memory.byteAt address =
      [0, 0, 0, 0, 0, 0, 0, 0, 9].getD address 0 := by
    intro address hlt
    have hb := Memory.getElem?_flat_of_lt (m := t.memory) (hcap.symm ▸ hlt)
    rw [show t.memory.flat = [0, 0, 0, 0, 0, 0, 0, 0, 9] from congrArg Reference.memory hview] at hb
    rw [List.getD_eq_getElem?_getD, hb, Option.getD_some]
  have hf : Frames [5] m t := by
    refine ⟨congrArg Reference.code hview, congrArg Reference.position hview, ?_, ?_, ?_, ?_⟩
    · exact List.reverse_inj.1 (congrArg Reference.stack hview)
    · have hs : t.stack.capacity = 3 := congrArg (fun v : Reference => v.capacities.stack) hview
      rw [hs]
      decide
    · rw [UInt64.le_iff_toNat_le, hcap]
      decide
    · intro address (hlt : address < 8)
      have hz : ∀ a < 8, [0, 0, 0, 0, 0, 0, 0, 0, (9 : UInt8)].getD a 0 = 0 := by decide
      rw [hbyte address (by omega), hz address hlt]
      exact (Memory.byteAt_zeros _ _).symm
  obtain ⟨hout, _, _, hframes, hbehind⟩ := run_frame_rule.1 [5] m t _ hf hr
  refine ⟨hf, hr, hout, ?_, ?_⟩
  · have hw : m.run.2.words = [] := List.reverse_inj.1 (congrArg Reference.stack hmv)
    rw [hframes.words, hw, List.append_nil]
  · rw [hbehind 8 (by decide) (by omega), hbyte 8 (by decide)]
    rfl

end Machine

end StackMachine
