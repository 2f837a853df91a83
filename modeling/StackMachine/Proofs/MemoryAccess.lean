import StackMachine.Proofs.FlatMemory

/-!
# Sequences of accesses to memory

A memory is used through six kinds of access.  `Memory.access` is what the paged memory does for
one; `Flat.access` is what an array of bytes does for it, said address by address:

* an access is allowed exactly if `start + length` is at most the number of bytes, as numbers;
* one that is not allowed is reported with its offset, its length and that number, and leaves the
  array as it is;
* one that is allowed is answered from the bytes at its addresses, and `Access.byteAfter` gives each
  byte of the array after it.

`access_flat` is the square of one access, and `accesses_eq_array` that of any sequence of accesses
to a new memory: the pages, which of them are committed and where accesses are cut cannot be seen.
-/

namespace StackMachine

/-- What can be asked of a memory. -/
inductive Access where
  | read (offset : UInt64) (length : Nat)
  | readWord (offset : UInt64)
  | slice (offset length : UInt64)
  | write (offset : UInt64) (bytes : List UInt8)
  | writeWord (offset word : UInt64)
  | clear
deriving DecidableEq, Repr

/-- What a memory answers. -/
inductive Answer where
  | done
  | bytes (bs : List UInt8)
  | word (w : UInt64)
deriving DecidableEq, Repr

namespace Access

/-- The first address of an access. -/
def start : Access → Nat
  | read offset _ | readWord offset | slice offset _ | write offset _ | writeWord offset _ =>
    offset.toNat
  | clear => 0

/-- The number of bytes that an access asks for. -/
def length : Access → Nat
  | read _ length => length
  | slice _ length => length.toNat
  | write _ bs => bs.length
  | readWord _ | writeWord _ _ => 8
  | clear => 0

/-- The byte at an address after an access that is allowed, given the byte there before it. -/
def byteAfter (a : Access) (address : Nat) (old : UInt8) : UInt8 :=
  match a with
  | write offset bs =>
    if h : offset.toNat ≤ address ∧ address < offset.toNat + bs.length then
      bs.get ⟨address - offset.toNat, by omega⟩
    else old
  | writeWord offset w =>
    -- The last of the eight bytes is the number of ones, the one before it of 256s, and so on.
    if offset.toNat ≤ address ∧ address < offset.toNat + 8 then
      UInt8.ofNat (w.toNat / Bytes.count (offset.toNat + 7 - address))
    else old
  | clear => 0
  | read _ _ | readWord _ | slice _ _ => old

/-- The answer to an access that is allowed, given the bytes at its addresses. -/
def answer (a : Access) (window : List UInt8) : Answer :=
  match a with
  | read _ _ | slice _ _ => .bytes window
  | readWord _ => .word (UInt64.ofNat (Bytes.value window))
  | write _ _ | writeWord _ _ | clear => .done

end Access

/-- Take steps one after the other: what each of them gives, and the state after the last. -/
def sequence {σ α β : Type} (step : σ → α → β × σ) (s : σ) : List α → List β × σ
  | [] => ([], s)
  | a :: as =>
    ((step s a).1 :: (sequence step (step s a).2 as).1, (sequence step (step s a).2 as).2)

/-- Steps that agree through a view of the state agree as sequences. -/
theorem sequence_view {σ τ α β : Type} {step : σ → α → β × σ} {step' : τ → α → β × τ} {view : σ → τ}
    (h : ∀ s a, step' (view s) a = ((step s a).1, view (step s a).2)) (s : σ) (as : List α) :
    sequence step' (view s) as = ((sequence step s as).1, view (sequence step s as).2) := by
  induction as generalizing s with
  | nil => rfl
  | cons a as ih =>
    unfold sequence
    rw [h s a, ih (step s a).2]

namespace Memory

/-- The answer to a write and the memory after it. -/
def written : EStateM.Result Error Memory Unit → Result Answer × Memory
  | .ok () t => (.ok .done, t)
  | .error e t => (.error e, t)

/-- The answer of a paged memory to an access, and the memory after it. -/
def access (m : Memory) : Access → Result Answer × Memory
  | .read offset length => ((m.read offset length).map .bytes, m)
  | .readWord offset => ((m.readWord offset).map .word, m)
  | .slice offset length => ((m.slice offset length).map .bytes, m)
  | .write offset bs => written ((write offset bs).run m)
  | .writeWord offset w => written ((writeWord offset w).run m)
  | .clear => (.ok .done, m.clear)

/-- The answers to accesses, one after the other, and the memory after the last. -/
def accesses (m : Memory) (as : List Access) : List (Result Answer) × Memory :=
  sequence access m as

end Memory

namespace Flat

/-- The answer of an array of bytes to an access, and the array after it. -/
def access (memory : List UInt8) (a : Access) : Result Answer × List UInt8 :=
  if a.start + a.length ≤ memory.length then
    (.ok (a.answer ((memory.drop a.start).take a.length)), memory.mapIdx a.byteAfter)
  else (.error (.outOfBounds a.start a.length memory.length), memory)

/-- The answers to accesses, one after the other, and the array after the last. -/
def accesses (memory : List UInt8) (as : List Access) : List (Result Answer) × List UInt8 :=
  sequence access memory as

theorem access_of_le {memory : List UInt8} {a : Access}
    (h : a.start + a.length ≤ memory.length) :
    access memory a =
      (.ok (a.answer ((memory.drop a.start).take a.length)), memory.mapIdx a.byteAfter) := by
  unfold access
  exact if_pos h

theorem access_of_lt {memory : List UInt8} {a : Access}
    (h : memory.length < a.start + a.length) :
    access memory a = (.error (.outOfBounds a.start a.length memory.length), memory) := by
  unfold access
  exact if_neg (Nat.not_le.2 h)

@[simp] theorem length_access (memory : List UInt8) (a : Access) :
    (access memory a).2.length = memory.length := by
  unfold access
  split
  · exact List.length_mapIdx
  · rfl

/-- No access makes an array longer or shorter. -/
theorem length_accesses (memory : List UInt8) (as : List Access) :
    (accesses memory as).2.length = memory.length := by
  induction as generalizing memory with
  | nil => rfl
  | cons a as ih => exact (ih (access memory a).2).trans (length_access memory a)

end Flat

/-! ## The bytes of a word -/

/-- Byte `i` of a number counts the multiples of a power of 256. -/
theorem Bytes.getElem?_bigEndian {width i : Nat} (h : i < width) (n : Nat) :
    (bigEndian width n)[i]? = some (UInt8.ofNat (n / count (width - 1 - i))) := by
  induction width generalizing n with
  | zero => exact absurd h (Nat.not_lt_zero i)
  | succ width ih =>
    rw [bigEndian]
    rcases Nat.lt_or_ge i width with hi | hi
    · -- A byte before the last one is a byte of the quotient by 256.
      have hc : width + 1 - 1 - i = width - 1 - i + 1 := by omega
      rw [List.getElem?_append_left (by simpa using hi), ih hi, hc, count, Nat.div_div_eq_div_mul]
    · obtain rfl : i = width := by omega
      have hc : i + 1 - 1 - i = 0 := by omega
      have hm : UInt8.ofNat (n % 256) = UInt8.ofNat n := UInt8.ofNat_mod_size
      rw [List.getElem?_append_right (by simp), length_bigEndian, Nat.sub_self, hc, count,
        Nat.div_one, ← hm]
      rfl

namespace Access

/-- A write puts its bytes at its addresses and leaves the others. -/
theorem byteAfter_write (offset : UInt64) (bs : List UInt8) (address : Nat) (old : UInt8) :
    (write offset bs).byteAfter address old =
      if offset.toNat ≤ address then bs[address - offset.toNat]?.getD old else old := by
  unfold byteAfter
  by_cases h : offset.toNat ≤ address
  · rw [if_pos h]
    by_cases hb : address < offset.toNat + bs.length
    · have hi : address - offset.toNat < bs.length := by omega
      simp only [h, hb, and_self, dif_pos, List.getElem?_eq_getElem hi, Option.getD_some,
        List.get_eq_getElem]
    · have hi : bs.length ≤ address - offset.toNat := by omega
      simp only [h, hb, and_false, dif_neg, not_false_eq_true, List.getElem?_eq_none hi,
        Option.getD_none]
  · simp [h]

/-- A word is written as its eight bytes, the most significant one first. -/
theorem byteAfter_writeWord (offset w : UInt64) :
    (writeWord offset w).byteAfter = (write offset (Bytes.bigEndian 8 w.toNat)).byteAfter := by
  funext address old
  rw [byteAfter_write]
  show (if offset.toNat ≤ address ∧ address < offset.toNat + 8 then
    UInt8.ofNat (w.toNat / Bytes.count (offset.toNat + 7 - address)) else old) = _
  by_cases h : offset.toNat ≤ address
  · rw [if_pos h]
    by_cases hb : address < offset.toNat + 8
    · have hi : address - offset.toNat < 8 := by omega
      have hc : 8 - 1 - (address - offset.toNat) = offset.toNat + 7 - address := by omega
      rw [if_pos ⟨h, hb⟩, Bytes.getElem?_bigEndian hi, hc, Option.getD_some]
    · have hn : (Bytes.bigEndian 8 w.toNat)[address - offset.toNat]? = none := by
        apply List.getElem?_eq_none
        rw [Bytes.length_bigEndian]
        omega
      rw [if_neg fun hw => hb hw.2, hn, Option.getD_none]
  · rw [if_neg h, if_neg fun hw => h hw.1]

end Access

namespace Memory

/-! ## One access -/

/-- A memory whose bytes are given by those of another one has the list that is mapped so. -/
theorem flat_eq_mapIdx {m t : Memory} {f : Nat → UInt8 → UInt8} (hc : t.capacity = m.capacity)
    (hb : ∀ address, t.byteAt address = f address (m.byteAt address)) :
    t.flat = m.flat.mapIdx f := by
  apply List.ext_getElem?
  intro address
  rw [List.getElem?_mapIdx, getElem?_flat, getElem?_flat, hc, hb]
  split
  · rfl
  · rfl

theorem flat_eq_mapIdx_self (m : Memory) : m.flat = m.flat.mapIdx fun _ old => old :=
  flat_eq_mapIdx rfl fun _ => rfl

/-- A write of pages is a write of the array. -/
theorem access_flat_write (m : Memory) (offset : UInt64) (bs : List UInt8) :
    Flat.access m.flat (.write offset bs) =
      ((m.access (.write offset bs)).1, (m.access (.write offset bs)).2.flat) := by
  show _ = ((written ((write offset bs).run m)).1, (written ((write offset bs).run m)).2.flat)
  by_cases h : offset.toNat + bs.length ≤ m.capacity.toNat
  · obtain ⟨t, ht, hc, hb⟩ := write_of_le h
    have hf : t.flat = m.flat.mapIdx (Access.write offset bs).byteAfter := by
      apply flat_eq_mapIdx hc
      intro address
      rw [hb, Access.byteAfter_write]
    rw [Flat.access_of_le (by rw [length_flat]; exact h), ht, ← hf]
    rfl
  · have hlt := Nat.lt_of_not_le h
    rw [Flat.access_of_lt (by rw [length_flat]; exact hlt), write_of_lt hlt, length_flat]
    rfl

/-- An access that reads answers from the array and leaves it. -/
theorem access_flat_of_read {m : Memory} {a : Access} (hb : a.byteAfter = fun _ old => old)
    {x : Result Answer} (hx : x = (Flat.read m.flat a.start a.length).map a.answer) :
    Flat.access m.flat a = (x, m.flat) := by
  subst hx
  unfold Flat.read
  by_cases h : a.start + a.length ≤ m.flat.length
  · rw [Flat.access_of_le h, if_pos h, hb, ← flat_eq_mapIdx_self]
    rfl
  · rw [Flat.access_of_lt (Nat.lt_of_not_le h), if_neg h]
    rfl

/-- **One access to the pages is that access to the array of their bytes.** -/
theorem access_flat (m : Memory) (a : Access) :
    Flat.access m.flat a = ((m.access a).1, (m.access a).2.flat) := by
  cases a with
  | read offset length =>
    apply access_flat_of_read rfl
    exact congrArg (Except.map Answer.bytes) (read_eq_flat m offset length)
  | readWord offset =>
    apply access_flat_of_read rfl
    show (m.readWord offset).map Answer.word =
      (Flat.read m.flat offset.toNat 8).map (Access.readWord offset).answer
    rw [readWord, read_eq_flat]
    cases Flat.read m.flat offset.toNat 8 with
    | error e => rfl
    | ok bs => rfl
  | slice offset length =>
    apply access_flat_of_read rfl
    exact congrArg (Except.map Answer.bytes) (slice_eq_flat m offset length)
  | write offset bs => exact access_flat_write m offset bs
  | writeWord offset w =>
    -- The same bytes, and the same addresses: eight of them.
    have hw : Flat.access m.flat (.writeWord offset w) =
        Flat.access m.flat (.write offset (Bytes.bigEndian 8 w.toNat)) := by
      unfold Flat.access
      rw [Access.byteAfter_writeWord]
      rfl
    rw [hw]
    exact access_flat_write m offset (Bytes.bigEndian 8 w.toNat)
  | clear =>
    have hf : m.clear.flat = m.flat.mapIdx Access.clear.byteAfter := by
      apply flat_eq_mapIdx (capacity_clear m)
      exact byteAt_clear m
    rw [Flat.access_of_le (Nat.zero_le _), ← hf]
    rfl

/-! ## Sequences of accesses -/

/-- **A paged memory behaves as one flat array of zeros.**  Whatever is asked of a new memory of `c`
bytes, in any order and at any offsets, it gives the answers of an array of `c` bytes, all zero at
first, and afterwards it holds the bytes of that array. -/
theorem accesses_eq_array (c : UInt64) (as : List Access) :
    let p := (zeros c).accesses as
    let q := Flat.accesses (List.replicate c.toNat 0) as
    p.1 = q.1 ∧ p.2.flat = q.2 ∧ q.2.length = c.toNat := by
  intro p q
  have hq : q = (p.1, p.2.flat) := by
    show sequence Flat.access (List.replicate c.toNat 0) as = _
    rw [← flat_zeros]
    exact sequence_view access_flat (zeros c) as
  refine ⟨?_, ?_, ?_⟩
  · rw [hq]
  · rw [hq]
  · rw [Flat.length_accesses, List.length_replicate]

example :
    Flat.accesses (List.replicate 9 0) [.writeWord 1 258, .write 8 [7, 7], .slice 6 3] =
      ([.ok .done, .error (.outOfBounds 8 2 9), .ok (.bytes [0, 1, 2])],
        [0, 0, 0, 0, 0, 0, 0, 1, 2]) :=
  rfl

end Memory

end StackMachine
