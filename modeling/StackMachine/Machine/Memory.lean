import StackMachine.Action
import StackMachine.Bytes
import StackMachine.Machine.Page

/-!
# Memory

A memory of `capacity` bytes, all zero at first and kept in pages.  Offsets and the capacity are
64-bit words.  The end of an access is computed with an overflow check, so that an access of
`length` bytes at `offset` is allowed exactly if `offset + length ≤ capacity` as numbers, also if
`length` is zero; one that is not allowed changes nothing.

Through `byteAt` a memory is a flat array: `read_of_le` and `write_of_le`.
-/

namespace StackMachine

/-- A memory: its capacity and its committed pages. -/
structure Memory where
  capacity : UInt64
  pages : PageTable

namespace Memory

/-- A memory of zeros. -/
def zeros (capacity : UInt64) : Memory := ⟨capacity, ∅⟩

/-- The address after an access, unless it is past the last address. -/
def stop? (offset : UInt64) (length : Nat) : Option UInt64 :=
  if offset.toNat + length < UInt64.size then some (offset + UInt64.ofNat length) else none

/-- The error of an access that does not end within the memory. -/
def outOfBounds (m : Memory) (offset : UInt64) (length : Nat) : Error :=
  .outOfBounds offset.toNat length m.capacity.toNat

/-- Ask for an access to end within the memory. -/
def check (m : Memory) (offset : UInt64) (length : Nat) : Result Unit :=
  match stop? offset length with
  | some stop => if stop ≤ m.capacity then .ok () else .error (m.outOfBounds offset length)
  | none => .error (m.outOfBounds offset length)

/-- The `length` bytes from `offset` on. -/
def read (m : Memory) (offset : UInt64) (length : Nat) : Result (List UInt8) := do
  m.check offset length
  pure ((Span.spans offset length 0).flatMap m.pages.fetch)

/-- Put bytes into the memory from `offset` on. -/
def write (offset : UInt64) (bs : List UInt8) : Action Memory Unit := do
  Action.look (·.check offset bs.length)
  modify fun m => { m with pages := m.pages.store (Span.spans offset bs.length 0) bs }

/-- The word at `offset`, most significant byte first. -/
def readWord (m : Memory) (offset : UInt64) : Result UInt64 := do
  let bs ← m.read offset 8
  pure (UInt64.ofNat (Bytes.value bs))

/-- Put a word into the memory at `offset`, most significant byte first. -/
def writeWord (offset w : UInt64) : Action Memory Unit := write offset (Bytes.bigEndian 8 w.toNat)

/-- The bytes from `offset` on, as many as a word says. -/
def slice (m : Memory) (offset length : UInt64) : Result (List UInt8) := do
  m.check offset length.toNat
  m.read offset length.toNat

/-- The memory with no page committed. -/
def clear (m : Memory) : Memory := { m with pages := ∅ }

/-- The byte at an address. -/
def byteAt (m : Memory) (address : Nat) : UInt8 := m.pages.byteAt address

@[simp] theorem capacity_zeros (n : UInt64) : (zeros n).capacity = n := rfl

@[simp] theorem capacity_clear (m : Memory) : m.clear.capacity = m.capacity := rfl

@[simp] theorem byteAt_zeros (capacity : UInt64) (address : Nat) :
    (zeros capacity).byteAt address = 0 := by
  simp [zeros, byteAt]

@[simp] theorem byteAt_clear (m : Memory) (address : Nat) : m.clear.byteAt address = 0 := by
  simp [clear, byteAt]

/-! ## Accesses -/

/-- An access is allowed if it ends within the memory. -/
theorem check_of_le {m : Memory} {offset : UInt64} {length : Nat}
    (h : offset.toNat + length ≤ m.capacity.toNat) : m.check offset length = .ok () := by
  have hc := m.capacity.toNat_lt_size
  have hs : offset.toNat + length < UInt64.size := by omega
  have hl : length < UInt64.size := by omega
  have hle : offset + UInt64.ofNat length ≤ m.capacity := by
    rw [UInt64.le_iff_toNat_le, UInt64.toNat_add, UInt64.toNat_ofNat_of_lt' hl,
      Nat.mod_eq_of_lt hs]
    exact h
  rw [check, stop?, if_pos hs]
  exact if_pos hle

/-- An access that ends past the memory, or past the last address, is refused. -/
theorem check_of_lt {m : Memory} {offset : UInt64} {length : Nat}
    (h : m.capacity.toNat < offset.toNat + length) :
    m.check offset length = .error (m.outOfBounds offset length) := by
  rw [check, stop?]
  by_cases hs : offset.toNat + length < UInt64.size
  · have hl : length < UInt64.size := by omega
    have hle : ¬offset + UInt64.ofNat length ≤ m.capacity := by
      rw [UInt64.le_iff_toNat_le, UInt64.toNat_add, UInt64.toNat_ofNat_of_lt' hl,
        Nat.mod_eq_of_lt hs]
      omega
    rw [if_pos hs]
    exact if_neg hle
  · rw [if_neg hs]

/-- A read that is allowed gives the bytes at its addresses. -/
theorem read_of_le {m : Memory} {offset : UInt64} {length : Nat}
    (h : offset.toNat + length ≤ m.capacity.toNat) :
    m.read offset length =
      .ok ((List.range length).map fun i => m.byteAt (offset.toNat + i)) := by
  have hs : offset.toNat + length < UInt64.size := Nat.lt_of_le_of_lt h m.capacity.toNat_lt_size
  rw [read, check_of_le h, Span.spans_eq_cover hs, Nat.add_zero, Nat.sub_zero]
  simp only [bind, Except.bind, pure, Except.pure, PageTable.flatMap_fetch_cover, byteAt]

theorem read_of_lt {m : Memory} {offset : UInt64} {length : Nat}
    (h : m.capacity.toNat < offset.toNat + length) :
    m.read offset length = .error (m.outOfBounds offset length) := by
  rw [read, check_of_lt h]
  rfl

/-- The second check of a slice asks for what the first one did. -/
theorem slice_eq_read (m : Memory) (offset length : UInt64) :
    m.slice offset length = m.read offset length.toNat := by
  rw [slice, read]
  cases m.check offset length.toNat with
  | error e => rfl
  | ok u => rfl

/-- A write that is allowed stores its bytes in the spans of its addresses. -/
theorem run_write_of_le {m : Memory} {offset : UInt64} {bs : List UInt8}
    (h : offset.toNat + bs.length ≤ m.capacity.toNat) :
    (write offset bs).run m =
      .ok () { m with pages := m.pages.store (Span.cover offset.toNat bs.length) bs } := by
  have hs : offset.toNat + bs.length < UInt64.size :=
    Nat.lt_of_le_of_lt h m.capacity.toNat_lt_size
  have hspans : Span.spans offset bs.length 0 = Span.cover offset.toNat bs.length := by
    rw [Span.spans_eq_cover hs, Nat.add_zero, Nat.sub_zero]
  simp only [write, EStateM.run_bind, Action.run_look, check_of_le h, EStateM.run_modify, hspans]

/-- A write that is allowed puts its bytes at their addresses and leaves the others. -/
theorem write_of_le {m : Memory} {offset : UInt64} {bs : List UInt8}
    (h : offset.toNat + bs.length ≤ m.capacity.toNat) :
    ∃ t, (write offset bs).run m = .ok () t ∧ t.capacity = m.capacity ∧
      ∀ address, t.byteAt address =
        if offset.toNat ≤ address then bs[address - offset.toNat]?.getD (m.byteAt address)
        else m.byteAt address :=
  ⟨_, run_write_of_le h, rfl, PageTable.byteAt_store m.pages offset.toNat bs⟩

theorem write_of_lt {m : Memory} {offset : UInt64} {bs : List UInt8}
    (h : m.capacity.toNat < offset.toNat + bs.length) :
    (write offset bs).run m = .error (m.outOfBounds offset bs.length) m := by
  simp only [write, EStateM.run_bind, Action.run_look, check_of_lt h]

end Memory

end StackMachine
