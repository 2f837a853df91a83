import StackMachine.Machine.Memory

/-!
# Memory as a flat list of bytes

A paged memory of `capacity` bytes is the list of its bytes in order of addresses.  `Flat.read` and
`Flat.write` are the two accesses to such a list: both are refused exactly if they end past the end
of the list, a read is a window of the list and a write replaces a window.

The lemmas below are the squares of that view: `read_eq_flat` and `write_flat` say that the accesses
of a paged memory are those of its list, with the same errors.
-/

namespace StackMachine

namespace Flat

/-- The `length` bytes of a flat memory from `offset` on. -/
def read (memory : List UInt8) (offset length : Nat) : Result (List UInt8) :=
  if offset + length ≤ memory.length then .ok ((memory.drop offset).take length)
  else .error (.outOfBounds offset length memory.length)

/-- The flat memory with bytes put over those from `offset` on. -/
def write (memory : List UInt8) (offset : Nat) (bs : List UInt8) : Result (List UInt8) :=
  if offset + bs.length ≤ memory.length then
    .ok (memory.take offset ++ bs ++ memory.drop (offset + bs.length))
  else .error (.outOfBounds offset bs.length memory.length)

/-- A read of what was written gives the bytes that were written. -/
theorem read_write {memory written bs : List UInt8} {offset : Nat}
    (h : write memory offset bs = .ok written) : read written offset bs.length = .ok bs := by
  unfold write at h
  split at h
  · rename_i hle
    obtain rfl := Except.ok.inj h
    have hfront : (memory.take offset).length = offset := by
      rw [List.length_take]
      omega
    have hend : offset + bs.length ≤
        (memory.take offset ++ bs ++ memory.drop (offset + bs.length)).length := by
      rw [List.length_append, List.length_append, hfront]
      omega
    rw [read, if_pos hend, List.append_assoc, List.drop_left' hfront, List.take_left' rfl]
  · exact absurd h (by simp)

end Flat

namespace Memory

/-- All bytes of a memory, in order of addresses. -/
def flat (m : Memory) : List UInt8 := (List.range m.capacity.toNat).map m.byteAt

@[simp] theorem length_flat (m : Memory) : m.flat.length = m.capacity.toNat := by
  rw [flat, List.length_map, List.length_range]

theorem getElem?_flat (m : Memory) (address : Nat) :
    m.flat[address]? = if address < m.capacity.toNat then some (m.byteAt address) else none := by
  rw [flat, List.getElem?_map]
  by_cases h : address < m.capacity.toNat
  · rw [if_pos h, List.getElem?_range h]
    rfl
  · rw [if_neg h, List.getElem?_eq_none (by rw [List.length_range]; omega)]
    rfl

@[simp] theorem flat_zeros (capacity : UInt64) :
    (zeros capacity).flat = List.replicate capacity.toNat 0 := by
  apply List.ext_getElem?
  intro address
  rw [getElem?_flat, List.getElem?_replicate, byteAt_zeros, capacity_zeros]

@[simp] theorem flat_clear (m : Memory) :
    m.clear.flat = List.replicate m.capacity.toNat 0 := by
  apply List.ext_getElem?
  intro address
  rw [getElem?_flat, List.getElem?_replicate, byteAt_clear, capacity_clear]

/-- The window of an access holds the bytes at its addresses. -/
theorem take_drop_flat {m : Memory} {offset length : Nat}
    (h : offset + length ≤ m.capacity.toNat) :
    (m.flat.drop offset).take length =
      (List.range length).map fun i => m.byteAt (offset + i) := by
  apply List.ext_getElem?
  intro i
  by_cases hi : i < length
  · have hc : offset + i < m.capacity.toNat := by omega
    rw [List.getElem?_take_of_lt hi, List.getElem?_drop, getElem?_flat, if_pos hc,
      List.getElem?_map, List.getElem?_range hi]
    rfl
  · have hl : ((m.flat.drop offset).take length).length ≤ i := by
      rw [List.length_take]
      omega
    rw [List.getElem?_eq_none hl, List.getElem?_eq_none (by simpa using hi)]

/-- Reading pages is reading the list. -/
theorem read_eq_flat (m : Memory) (offset : UInt64) (length : Nat) :
    m.read offset length = Flat.read m.flat offset.toNat length := by
  rw [Flat.read, length_flat]
  by_cases h : offset.toNat + length ≤ m.capacity.toNat
  · rw [if_pos h, read_of_le h, take_drop_flat h]
  · rw [if_neg h, read_of_lt (Nat.lt_of_not_le h), outOfBounds]

theorem slice_eq_flat (m : Memory) (offset length : UInt64) :
    m.slice offset length = Flat.read m.flat offset.toNat length.toNat := by
  rw [slice_eq_read, read_eq_flat]

/-- Writing pages is writing the list; a write that is refused leaves the pages as they are. -/
theorem write_flat (m : Memory) (offset : UInt64) (bs : List UInt8) :
    match Flat.write m.flat offset.toNat bs with
    | .ok bytes =>
      ∃ t, (write offset bs).run m = .ok () t ∧ t.capacity = m.capacity ∧ t.flat = bytes
    | .error e => (write offset bs).run m = .error e m := by
  rw [Flat.write, length_flat]
  by_cases h : offset.toNat + bs.length ≤ m.capacity.toNat
  · rw [if_pos h]
    obtain ⟨t, ht, hc, hb⟩ := write_of_le h
    refine ⟨t, ht, hc, ?_⟩
    -- Byte by byte: before the window, in it, and after it.
    apply List.ext_getElem?
    intro address
    have hlen : (m.flat.take offset.toNat).length = offset.toNat := by
      rw [List.length_take, length_flat]
      omega
    rw [getElem?_flat, hc, hb, List.append_assoc]
    rcases Nat.lt_or_ge address offset.toNat with h1 | h1
    · rw [List.getElem?_append_left (by omega), List.getElem?_take_of_lt h1, getElem?_flat,
        if_neg (Nat.not_le.2 h1)]
    · rw [if_pos h1, List.getElem?_append_right (by omega), hlen]
      rcases Nat.lt_or_ge (address - offset.toNat) bs.length with h2 | h2
      · rw [List.getElem?_append_left h2, List.getElem?_eq_getElem h2, Option.getD_some,
          if_pos (by omega)]
      · rw [List.getElem?_append_right h2, List.getElem?_drop, List.getElem?_eq_none h2,
          Option.getD_none, getElem?_flat]
        have ha : offset.toNat + bs.length + (address - offset.toNat - bs.length) = address := by
          omega
        rw [ha]
  · rw [if_neg h]
    exact write_of_lt (Nat.lt_of_not_le h)

end Memory

end StackMachine
