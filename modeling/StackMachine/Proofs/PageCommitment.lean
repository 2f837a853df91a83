import Mathlib.Data.List.Perm.Subperm
import StackMachine.Proofs.MemoryAccess

/-!
# Committed pages

Which pages of a memory are committed, after any accesses: those that a write has touched since the
memory was last cleared.  A write touches the pages from that of its first byte to that of its last
one; its spans visit each of them once, in order (`map_page_cover`).  Everything else that is asked
of a memory leaves its pages as they are: reads, writes of no bytes, and writes that are refused.

`mem_pages_access` says what one access does to the set of committed pages, and
`mem_pages_accesses` what a sequence of them does.  Since a write ends within the memory, so do the
pages that are committed, and what a last page holds past the end of the memory is zero.
-/

namespace StackMachine

namespace Span

/-- An access of `length` bytes at `offset` has a byte in a page. -/
def Touches (offset length page : Nat) : Prop :=
  0 < length ∧ offset / pageSize ≤ page ∧ page ≤ (offset + length - 1) / pageSize

/-- The number of pages that an access has bytes in. -/
def pageCount (offset length : Nat) : Nat :=
  if length = 0 then 0 else (offset + length - 1) / pageSize + 1 - offset / pageSize

/-- **The spans of an access visit its pages, each of them once and in order.** -/
theorem map_page_cover (offset length : Nat) :
    (cover offset length).map Span.page =
      List.range' (offset / pageSize) (pageCount offset length) := by
  induction length using Nat.strongRecOn generalizing offset with
  | _ length ih =>
    rcases Nat.eq_zero_or_pos length with rfl | hpos
    · rw [cover_zero]
      rfl
    · have hroom := room_pos offset
      rw [cover_of_pos hpos, List.map_cons, ih _ (by omega)]
      -- Either the access ends within its first page, or it goes on at the start of the next.
      have hcount : pageCount offset length = pageCount (offset + min (room offset) length)
          (length - min (room offset) length) + 1 := by
        unfold pageCount room pageSize
        split
        · omega
        · split <;> omega
      rw [hcount, List.range'_succ]
      rcases Nat.lt_or_ge (room offset) length with hlt | hge
      · have hnext : (offset + min (room offset) length) / pageSize = offset / pageSize + 1 := by
          rw [Nat.min_eq_left (Nat.le_of_lt hlt)]
          unfold room pageSize
          omega
        rw [hnext]
      · have hnone : length - min (room offset) length = 0 := by omega
        rw [hnone]
        rfl

theorem mem_map_page_cover {offset length page : Nat} :
    page ∈ (cover offset length).map Span.page ↔ Touches offset length page := by
  rw [map_page_cover, List.mem_range'_1, Touches, pageCount]
  split
  · omega
  · have hle : offset / pageSize ≤ (offset + length - 1) / pageSize :=
      Nat.div_le_div_right (by omega)
    omega

end Span

namespace PageTable

/-- Bytes put over spans commit the pages of the spans, and no others. -/
theorem mem_store (t : PageTable) (ss : List Span) (bs : List UInt8) (page : Nat) :
    page ∈ t.store ss bs ↔ page ∈ t ∨ page ∈ ss.map Span.page := by
  induction ss generalizing t bs with
  | nil => simp [store]
  | cons s ss ih =>
    rw [store, ih, Std.TreeMap.mem_insert, Nat.compare_eq_eq, List.map_cons, List.mem_cons,
      eq_comm]
    tauto

end PageTable

namespace Access

/-- Whether an access puts bytes into the memory. -/
def isWrite : Access → Bool
  | write _ _ | writeWord _ _ => true
  | _ => false

end Access

namespace Memory

variable {m : Memory} {a : Access} {page : Nat}

/-! ## Writes -/

theorem access_write_of_le {offset : UInt64} {bs : List UInt8}
    (h : offset.toNat + bs.length ≤ m.capacity.toNat) :
    m.access (.write offset bs) =
      (.ok .done, { m with pages := m.pages.store (Span.cover offset.toNat bs.length) bs }) := by
  rw [access, run_write_of_le h]
  rfl

theorem access_write_of_lt {offset : UInt64} {bs : List UInt8}
    (h : m.capacity.toNat < offset.toNat + bs.length) :
    m.access (.write offset bs) = (.error (m.outOfBounds offset bs.length), m) := by
  rw [access, write_of_lt h]
  rfl

/-- A write of a word is a write of its eight bytes. -/
theorem exists_write (h : a.isWrite = true) :
    ∃ offset bs, a.start = offset.toNat ∧ a.length = bs.length ∧
      ∀ m : Memory, m.access a = m.access (.write offset bs) := by
  cases a with
  | write offset bs => exact ⟨offset, bs, rfl, rfl, fun _ => rfl⟩
  | writeWord offset w =>
    exact ⟨offset, Bytes.bigEndian 8 w.toNat, rfl, (Bytes.length_bigEndian 8 _).symm, fun _ => rfl⟩
  | read | readWord | slice | clear => exact absurd h Bool.false_ne_true

/-- A write succeeds exactly if it ends within the memory. -/
theorem access_write_eq_done_iff (h : a.isWrite = true) :
    (m.access a).1 = .ok .done ↔ a.start + a.length ≤ m.capacity.toNat := by
  obtain ⟨offset, bs, hstart, hlength, haccess⟩ := exists_write h
  rw [haccess, hstart, hlength]
  rcases Nat.lt_or_ge m.capacity.toNat (offset.toNat + bs.length) with hlt | hle
  · rw [access_write_of_lt hlt]
    exact iff_of_false (by simp) (Nat.not_le.2 hlt)
  · rw [access_write_of_le hle]
    exact iff_of_true rfl hle

/-! ## One access -/

/-- An access is a write of some bytes that succeeds. -/
def Stores (m : Memory) (a : Access) : Prop :=
  a.isWrite = true ∧ 0 < a.length ∧ (m.access a).1 = .ok .done

/-- Whatever stores nothing, and is no clearing, leaves the memory as it is. -/
theorem access_of_not_stores (hc : a ≠ .clear) (h : ¬ m.Stores a) : (m.access a).2 = m := by
  by_cases hw : a.isWrite = true
  · have hdone := access_write_eq_done_iff (m := m) hw
    rw [Stores, hdone] at h
    obtain ⟨offset, bs, hstart, hlength, haccess⟩ := exists_write hw
    rw [hstart, hlength] at h
    rw [haccess]
    rcases Nat.lt_or_ge m.capacity.toNat (offset.toNat + bs.length) with hlt | hle
    · rw [access_write_of_lt hlt]
    · have hnone : bs.length = 0 := by
        by_contra hpos
        exact h ⟨hw, Nat.pos_of_ne_zero hpos, hle⟩
      rw [access_write_of_le hle, hnone, Span.cover_zero]
      rfl
  · cases a with
    | clear => exact absurd rfl hc
    | read | readWord | slice => rfl
    | write | writeWord => exact absurd rfl hw

/-- A write that stores bytes ends within the memory and puts them into the spans of its
addresses. -/
theorem access_of_stores (h : m.Stores a) :
    a.start + a.length ≤ m.capacity.toNat ∧
      ∃ bs : List UInt8, a.length = bs.length ∧
        (m.access a).2 = { m with pages := m.pages.store (Span.cover a.start a.length) bs } := by
  obtain ⟨hw, -, hdone⟩ := h
  have hle := (access_write_eq_done_iff hw).1 hdone
  obtain ⟨offset, bs, hstart, hlength, haccess⟩ := exists_write hw
  refine ⟨hle, bs, hlength, ?_⟩
  rw [hstart, hlength] at hle ⊢
  rw [haccess, access_write_of_le hle]

/-- An access stores bytes in a page. -/
def Commits (m : Memory) (a : Access) (page : Nat) : Prop :=
  m.Stores a ∧ a.start / pageSize ≤ page ∧ page ≤ (a.start + a.length - 1) / pageSize

/-- An access keeps the pages that are committed, unless it clears the memory, and adds those in
which it stores bytes. -/
theorem mem_pages_access :
    page ∈ (m.access a).2.pages ↔ (a ≠ .clear ∧ page ∈ m.pages) ∨ m.Commits a page := by
  by_cases hs : m.Stores a
  · have hclear : a ≠ .clear := by
      rintro rfl
      exact absurd hs.1 Bool.false_ne_true
    obtain ⟨-, bs, -, haccess⟩ := access_of_stores hs
    have hpos := hs.2.1
    simp only [haccess, PageTable.mem_store, Span.mem_map_page_cover, Span.Touches, Commits]
    tauto
  · have hnone : ¬ m.Commits a page := fun hcommits => hs hcommits.1
    by_cases hc : a = .clear
    · subst hc
      have hempty : page ∉ (m.access .clear).2.pages := Std.TreeMap.not_mem_emptyc
      tauto
    · rw [access_of_not_stores hc hs]
      tauto

/-! ## What no access changes -/

/-- The bytes past the end of the memory are zero. -/
def IsZeroPastEnd (m : Memory) : Prop :=
  ∀ address, m.capacity.toNat ≤ address → m.byteAt address = 0

/-- An access keeps the capacity, and stores nothing past the end. -/
theorem steady_access (m : Memory) (a : Access) :
    (m.access a).2.capacity = m.capacity ∧
      (m.IsZeroPastEnd → (m.access a).2.IsZeroPastEnd) := by
  by_cases hs : m.Stores a
  · obtain ⟨hle, bs, hlength, haccess⟩ := access_of_stores hs
    rw [haccess]
    refine ⟨rfl, ?_⟩
    intro hzero address haddress
    have hend : m.capacity.toNat ≤ address := haddress
    have hpast : bs.length ≤ address - a.start := by omega
    show PageTable.byteAt _ address = 0
    rw [hlength, PageTable.byteAt_store, List.getElem?_eq_none hpast, Option.getD_none, ite_self]
    exact hzero address hend
  · by_cases hc : a = .clear
    · subst hc
      exact ⟨rfl, fun _ address _ => byteAt_clear m address⟩
    · rw [access_of_not_stores hc hs]
      exact ⟨rfl, id⟩

theorem steady_accesses (m : Memory) (as : List Access) :
    (m.accesses as).2.capacity = m.capacity ∧
      (m.IsZeroPastEnd → (m.accesses as).2.IsZeroPastEnd) := by
  induction as generalizing m with
  | nil => exact ⟨rfl, id⟩
  | cons a as ih =>
    obtain ⟨hcapacity, hzero⟩ := steady_access m a
    obtain ⟨hcapacity', hzero'⟩ := ih (m.access a).2
    exact ⟨hcapacity'.trans hcapacity, fun h => hzero' (hzero h)⟩

/-! ## Sequences of accesses -/

/-- **The committed pages after a sequence of accesses**: those from before it, unless the memory is
cleared, and those in which bytes are stored after the last clearing. -/
theorem mem_pages_accesses (as : List Access) :
    page ∈ (m.accesses as).2.pages ↔
      (.clear ∉ as ∧ page ∈ m.pages) ∨
        ∃ before a after, as = before ++ a :: after ∧ .clear ∉ after ∧
          (m.accesses before).2.Commits a page := by
  induction as generalizing m with
  | nil =>
    constructor
    · intro h
      exact .inl ⟨List.not_mem_nil, h⟩
    · rintro (⟨-, h⟩ | ⟨before, a, after, hsplit, -⟩)
      · exact h
      · exact absurd hsplit (by simp)
  | cons a as ih =>
    have hrest : (m.accesses (a :: as)).2 = ((m.access a).2.accesses as).2 := rfl
    rw [hrest, ih, mem_pages_access]
    constructor
    · rintro (⟨hclear, ⟨ha, hpage⟩ | hcommits⟩ | ⟨before, b, after, rfl, hafter, hcommits⟩)
      · refine .inl ⟨?_, hpage⟩
        rw [List.mem_cons, not_or]
        exact ⟨ha.symm, hclear⟩
      · exact .inr ⟨[], a, as, rfl, hclear, hcommits⟩
      · exact .inr ⟨a :: before, b, after, rfl, hafter, hcommits⟩
    · rintro (⟨hclear, hpage⟩ | ⟨before, b, after, hsplit, hafter, hcommits⟩)
      · rw [List.mem_cons, not_or] at hclear
        exact .inl ⟨hclear.2, .inl ⟨Ne.symm hclear.1, hpage⟩⟩
      · cases before with
        | nil =>
          obtain ⟨rfl, rfl⟩ := List.cons.inj hsplit
          exact .inl ⟨hafter, .inr hcommits⟩
        | cons c before =>
          obtain ⟨rfl, rfl⟩ := List.cons.inj hsplit
          exact .inr ⟨before, b, after, rfl, hafter, hcommits⟩

/-! ## A new memory -/

theorem isZeroPastEnd_zeros (c : UInt64) : (zeros c).IsZeroPastEnd := fun address _ =>
  byteAt_zeros c address

/-- A committed page of a memory that was new starts before the end. -/
theorem page_start_lt {c : UInt64} {as : List Access}
    (h : page ∈ ((zeros c).accesses as).2.pages) : page * pageSize < c.toNat := by
  rcases (mem_pages_accesses as).1 h with ⟨-, hnew⟩ | ⟨before, a, after, -, -, hstores, -, hlast⟩
  · exact absurd hnew Std.TreeMap.not_mem_emptyc
  · obtain ⟨hle, -⟩ := access_of_stores hstores
    have hpos := hstores.2.1
    rw [(steady_accesses (zeros c) before).1, capacity_zeros] at hle
    unfold pageSize at hlast ⊢
    omega

/-- Numbers below a bound are no more than the bound. -/
theorem size_le_of_forall_lt {t : PageTable} {bound : Nat} (h : ∀ n ∈ t, n < bound) :
    t.size ≤ bound := by
  have hsubset : t.keys ⊆ List.range bound := by
    intro n hn
    exact List.mem_range.2 (h n (Std.TreeMap.mem_keys.1 hn))
  have hlength := (List.subperm_of_subset Std.TreeMap.nodup_keys hsubset).length_le
  rwa [Std.TreeMap.length_keys, List.length_range] at hlength

/-- A byte of a committed page is the byte at its address. -/
theorem getElem_page {p : Page} (h : m.pages[page]? = some p) {i : Nat} (hi : i < pageSize) :
    p[i] = m.byteAt (page * pageSize + i) := by
  have hpage : (page * pageSize + i) / pageSize = page := by
    unfold pageSize at hi ⊢
    omega
  have hplace : (page * pageSize + i) % pageSize = i := by
    unfold pageSize at hi ⊢
    omega
  rw [byteAt, PageTable.byteAt, hpage, hplace, PageTable.page,
    Std.TreeMap.getD_eq_getD_getElem?, h, Option.getD_some, Page.get,
    Vector.getElem?_eq_getElem hi, Option.getD_some]

/-- **A page is committed exactly if something was written to it.**  Take a memory of `c` bytes and
any accesses to it.

* A page is committed exactly if, since the last clearing, a write of some bytes succeeded whose
  first byte lies in the page or before it, and whose last byte lies in the page or behind it.
* Other accesses, be they reads, writes of no bytes or writes that are refused, leave the memory as
  it is.
* Committed pages start within the memory, so there are no more of them than it takes to hold `c`
  bytes; and what the last of them holds past the end of the memory is zero. -/
theorem mem_pages_iff_written (c : UInt64) (as : List Access) :
    let m : Memory := ((zeros c).accesses as).2
    (∀ page, page ∈ m.pages ↔ ∃ before a after, as = before ++ a :: after ∧ .clear ∉ after ∧
      (a.isWrite = true ∧ 0 < a.length ∧
        (((zeros c).accesses before).2.access a).1 = .ok .done) ∧
      a.start / 4096 ≤ page ∧ page ≤ (a.start + a.length - 1) / 4096) ∧
    (∀ a, a ≠ .clear →
      ¬ (a.isWrite = true ∧ 0 < a.length ∧ (m.access a).1 = .ok .done) → (m.access a).2 = m) ∧
    (∀ page ∈ m.pages, page * 4096 < c.toNat) ∧
    m.pages.size ≤ (c.toNat + 4095) / 4096 ∧
    ∀ page p, m.pages[page]? = some p → ∀ i (hi : i < 4096), c.toNat ≤ page * 4096 + i →
      Vector.get p ⟨i, hi⟩ = 0 := by
  intro m
  refine ⟨?_, ?_, ?_, ?_, ?_⟩
  · intro page
    have hnew : page ∉ (zeros c).pages := Std.TreeMap.not_mem_emptyc
    rw [mem_pages_accesses]
    simp only [hnew, and_false, false_or]
    rfl
  · intro a hc hnone
    exact access_of_not_stores hc hnone
  · intro page hpage
    exact page_start_lt hpage
  · apply size_le_of_forall_lt
    intro page hpage
    have hstart := page_start_lt hpage
    unfold pageSize at hstart
    omega
  · intro page p hp i hi hend
    have hbyte := getElem_page hp hi
    obtain ⟨hcapacity, hzero⟩ := steady_accesses (zeros c) as
    rw [hzero (isZeroPastEnd_zeros c) _ (by rw [hcapacity]; exact hend)] at hbyte
    exact hbyte

end Memory

end StackMachine
