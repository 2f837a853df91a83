import Std.Data.TreeMap.Lemmas

/-!
# Pages

Bytes by address, kept in pages of 4096.  A page is committed by the first write to it, and bytes
of pages that are not committed are zero.  An access is cut into spans, one for each page that it
touches.

Addresses are 64-bit words, and `Span.chunk` computes with them: a sum past the last address wraps.
`Span.cover` is the same cut with plain numbers, and `spans_eq_cover` says that the two agree for
every access that ends within the addresses.

`byteAt` is the flat view of a page table: the byte at an address, whichever page holds it.
`flatMap_fetch_cover` and `byteAt_store` say that reading and writing the spans of an access is
reading and writing the bytes at its addresses.
-/

namespace StackMachine

/-- The number of bytes of a page. -/
def pageSize : Nat := 4096

/-- The bytes of a page. -/
abbrev Page := Vector UInt8 pageSize

namespace Page

/-- A page of zeros. -/
def blank : Page := Vector.replicate pageSize 0

/-- The byte at a position of a page; positions outside it read as zero. -/
def get (p : Page) (position : Nat) : UInt8 := p[position]?.getD 0

/-- `length` bytes of a page from a position on. -/
def slice (p : Page) (start length : Nat) : List UInt8 :=
  (p.toArray.extract start (start + length)).toList

/-- The page with bytes put over those from a position on. -/
def overwrite (p : Page) (start : Nat) : List UInt8 → Page
  | [] => p
  | b :: bs => overwrite (p.setIfInBounds start b) (start + 1) bs

/-- Setting one byte leaves the others. -/
theorem get_setIfInBounds (p : Page) (i k : Nat) (b : UInt8) :
    get (p.setIfInBounds i b) k = if i = k ∧ k < pageSize then b else p.get k := by
  unfold get
  rw [Vector.getElem?_setIfInBounds]
  by_cases h : i = k
  · subst h
    by_cases hk : i < pageSize
    · simp [hk]
    · simp [hk]
  · simp [h]

/-- A page overwritten from `start` on holds the new bytes there and the old ones elsewhere. -/
theorem get_overwrite (p : Page) (start : Nat) (bs : List UInt8) (k : Nat) :
    (p.overwrite start bs).get k =
      if start ≤ k ∧ k < pageSize then bs[k - start]?.getD (p.get k) else p.get k := by
  induction bs generalizing p start with
  | nil => simp [overwrite]
  | cons b bs ih =>
    rw [overwrite, ih, get_setIfInBounds]
    by_cases hk : k < pageSize
    · rcases Nat.lt_trichotomy start k with h | h | h
      · have : k - start = k - (start + 1) + 1 := by omega
        rw [this]
        simp [hk, Nat.ne_of_lt h, Nat.le_of_lt h, Nat.succ_le_of_lt h]
      · subst h
        simp only [hk, and_true, Nat.le_refl, if_true, Nat.sub_self]
        rw [if_neg (by omega)]
        rfl
      · simp [Nat.ne_of_gt h, Nat.not_le_of_gt h, Nat.not_le_of_gt (Nat.lt_succ_of_lt h)]
    · simp [hk]

/-- A slice holds the bytes at its positions. -/
theorem slice_eq (p : Page) {start length : Nat} (h : start + length ≤ pageSize) :
    p.slice start length = (List.range length).map fun i => p.get (start + i) := by
  apply List.ext_getElem?
  intro i
  by_cases hi : i < length
  · have h1 : start + i < pageSize := by omega
    simp [slice, get, hi, h1]
  · have hs : (p.slice start length).length ≤ i := by
      rw [slice, Array.length_toList, Array.size_extract]
      omega
    have hr : ((List.range length).map fun i => p.get (start + i)).length ≤ i := by
      rw [List.length_map, List.length_range]
      exact Nat.le_of_not_lt hi
    rw [List.getElem?_eq_none hs, List.getElem?_eq_none hr]

end Page

/-- The part of an access that lies within one page. -/
structure Span where
  page : Nat
  start : Nat
  length : Nat
deriving DecidableEq, Repr

namespace Span

/-- The number of bytes from an address to the end of its page. -/
def room (address : Nat) : Nat := pageSize - address % pageSize

/-- An address lies before the end of its page. -/
theorem room_pos (address : Nat) : 0 < room address := by
  have := Nat.mod_lt address (show 0 < pageSize by decide)
  simp only [room]
  omega

/-- The span of an access of `length` bytes at `offset` that starts `done` bytes into it. -/
def chunk (offset : UInt64) (length done : Nat) : Span :=
  let address := offset + UInt64.ofNat done
  let start := (address % UInt64.ofNat pageSize).toNat
  ⟨(address / UInt64.ofNat pageSize).toNat, start, min (pageSize - start) (length - done)⟩

/-- A span starts within its page. -/
theorem start_chunk_lt (offset : UInt64) (length done : Nat) :
    (chunk offset length done).start < pageSize := by
  simp only [chunk, UInt64.toNat_mod]
  exact Nat.mod_lt _ (by decide)

/-- As long as an access is not done, its next span holds a byte. -/
theorem length_chunk_pos (offset : UInt64) {length done : Nat} (h : done < length) :
    0 < (chunk offset length done).length := by
  have hs := start_chunk_lt offset length done
  simp only [chunk] at hs ⊢
  omega

/-- The spans of an access of `length` bytes at `offset` from its byte `done` on. -/
def spans (offset : UInt64) (length done : Nat) : List Span :=
  if h : done < length then
    have := length_chunk_pos offset h
    chunk offset length done :: spans offset length (done + (chunk offset length done).length)
  else []
termination_by length - done

theorem spans_of_lt {length done : Nat} (h : done < length) (offset : UInt64) :
    spans offset length done =
      chunk offset length done ::
        spans offset length (done + (chunk offset length done).length) := by
  rw [spans, dif_pos h]

theorem spans_of_ge {length done : Nat} (h : length ≤ done) (offset : UInt64) :
    spans offset length done = [] := by
  rw [spans, dif_neg (Nat.not_lt.2 h)]

/-- The spans of an access, in order of addresses, with numbers for addresses. -/
def cover (offset length : Nat) : List Span :=
  if length = 0 then []
  else
    let n := min (room offset) length
    ⟨offset / pageSize, offset % pageSize, n⟩ :: cover (offset + n) (length - n)
termination_by length
decreasing_by
  have := room_pos offset
  omega

@[simp] theorem cover_zero (offset : Nat) : cover offset 0 = [] := by
  simp [cover]

/-- The first span of an access reaches to the end of its page or of the access. -/
theorem cover_of_pos {length : Nat} (h : 0 < length) (offset : Nat) :
    cover offset length =
      ⟨offset / pageSize, offset % pageSize, min (room offset) length⟩ ::
        cover (offset + min (room offset) length) (length - min (room offset) length) := by
  rw [cover, if_neg (by omega)]

/-- Below the last address the words of a span are the numbers. -/
theorem chunk_eq {offset : UInt64} {done : Nat} (h : offset.toNat + done < UInt64.size)
    (length : Nat) :
    chunk offset length done =
      ⟨(offset.toNat + done) / pageSize, (offset.toNat + done) % pageSize,
        min (room (offset.toNat + done)) (length - done)⟩ := by
  have hd : done < UInt64.size := by omega
  have ha : (offset + UInt64.ofNat done).toNat = offset.toNat + done := by
    rw [UInt64.toNat_add, UInt64.toNat_ofNat_of_lt' hd, Nat.mod_eq_of_lt h]
  have hp : (UInt64.ofNat pageSize).toNat = pageSize := by decide
  simp only [chunk, room, UInt64.toNat_mod, UInt64.toNat_div, ha, hp]

/-- An access that ends within the addresses is cut like one with numbers for addresses. -/
theorem spans_eq_cover {offset : UInt64} {length : Nat}
    (h : offset.toNat + length < UInt64.size) (done : Nat) :
    spans offset length done = cover (offset.toNat + done) (length - done) := by
  -- On what is left of the access: each span is one of `cover`, and leaves less.
  generalize hk : length - done = k
  induction k using Nat.strongRecOn generalizing done with
  | _ k ih =>
    rcases Nat.lt_or_ge done length with hd | hd
    · have hl := length_chunk_pos offset hd
      have hc := chunk_eq (show offset.toNat + done < UInt64.size by omega) length
      rw [spans_of_lt hd, cover_of_pos (by omega), ih _ (by omega) _ rfl, hc, hk]
      have hn : min (room (offset.toNat + done)) k ≤ k := Nat.min_le_right _ _
      have h1 : length - (done + min (room (offset.toNat + done)) k) =
          k - min (room (offset.toNat + done)) k := by omega
      rw [h1, Nat.add_assoc]
    · obtain rfl : k = 0 := by omega
      rw [spans_of_ge hd, cover_zero]

end Span

/-- Committed pages by number. -/
abbrev PageTable := Std.TreeMap Nat Page

namespace PageTable

/-- The page of a number; a page that is not committed is blank. -/
def page (t : PageTable) (n : Nat) : Page := t.getD n Page.blank

/-- The bytes of a span. -/
def fetch (t : PageTable) (s : Span) : List UInt8 := (t.page s.page).slice s.start s.length

/-- The byte at an address, zero where no page is committed. -/
def byteAt (t : PageTable) (address : Nat) : UInt8 :=
  (t.page (address / pageSize)).get (address % pageSize)

/-- The table with bytes put over those of spans, each page committed that a span touches. -/
def store (t : PageTable) : List Span → List UInt8 → PageTable
  | [], _ => t
  | s :: ss, bs =>
    store (t.insert s.page ((t.page s.page).overwrite s.start (bs.take s.length))) ss
      (bs.drop s.length)

/-! ## The flat view -/

@[simp] theorem byteAt_empty (address : Nat) : byteAt ∅ address = 0 := by
  have hm := Nat.mod_lt address (show 0 < pageSize by decide)
  rw [byteAt, page, Std.TreeMap.getD_emptyc]
  simp [Page.blank, Page.get, hm]

/-- A span within its page holds the bytes at its addresses. -/
theorem fetch_eq (t : PageTable) {offset length : Nat} (h : length ≤ Span.room offset) :
    t.fetch ⟨offset / pageSize, offset % pageSize, length⟩ =
      (List.range length).map fun i => t.byteAt (offset + i) := by
  have hm := Nat.mod_lt offset (show 0 < pageSize by decide)
  simp only [Span.room] at h
  have hle : offset % pageSize + length ≤ pageSize := by omega
  rw [fetch, Page.slice_eq _ hle]
  apply List.map_congr_left
  intro i hi
  rw [List.mem_range] at hi
  have hd : (offset + i) / pageSize = offset / pageSize := by
    simp only [pageSize] at *
    omega
  have hr : (offset + i) % pageSize = offset % pageSize + i := by
    simp only [pageSize] at *
    omega
  rw [byteAt, hd, hr]

/-- The bytes of the spans of an access are the bytes at its addresses. -/
theorem flatMap_fetch_cover (t : PageTable) (offset length : Nat) :
    (Span.cover offset length).flatMap t.fetch =
      (List.range length).map fun i => t.byteAt (offset + i) := by
  induction length using Nat.strongRecOn generalizing offset with
  | _ length ih =>
    rcases Nat.eq_zero_or_pos length with rfl | h
    · simp
    · have hp := Span.room_pos offset
      have hs : length =
          min (Span.room offset) length + (length - min (Span.room offset) length) := by
        omega
      rw [Span.cover_of_pos h, List.flatMap_cons, fetch_eq t (Nat.min_le_left _ _),
        ih _ (by omega)]
      conv => rhs; rw [hs, List.range_add, List.map_append, List.map_map]
      simp only [Function.comp_def, Nat.add_assoc]

/-- A committed page holds the bytes at its addresses. -/
theorem byteAt_insert (t : PageTable) (n : Nat) (p : Page) (k : Nat) :
    PageTable.byteAt (t.insert n p) k =
      if n = k / pageSize then p.get (k % pageSize) else t.byteAt k := by
  unfold byteAt page
  rw [Std.TreeMap.getD_insert]
  by_cases h : n = k / pageSize
  · simp [h]
  · simp [h]

/-- Bytes put over a span that starts at an address are there, and nothing else changed. -/
theorem byteAt_insert_span (t : PageTable) (offset : Nat) (bs : List UInt8)
    (h : bs.length ≤ Span.room offset) (k : Nat) :
    PageTable.byteAt (t.insert (offset / pageSize)
        ((t.page (offset / pageSize)).overwrite (offset % pageSize) bs)) k =
      if offset ≤ k then bs[k - offset]?.getD (t.byteAt k) else t.byteAt k := by
  have hk := Nat.mod_lt k (show 0 < pageSize by decide)
  have hm := Nat.mod_lt offset (show 0 < pageSize by decide)
  rw [byteAt_insert, Page.get_overwrite]
  by_cases hpg : offset / pageSize = k / pageSize
  · have hiff : offset % pageSize ≤ k % pageSize ↔ offset ≤ k := by
      simp only [pageSize] at *
      omega
    have hsub : k % pageSize - offset % pageSize = k - offset := by
      simp only [pageSize] at *
      omega
    simp only [hpg, if_true, hiff, hk, and_true, hsub]
    rfl
  · rw [if_neg hpg]
    by_cases hle : offset ≤ k
    · have hnone : bs[k - offset]? = none := by
        apply List.getElem?_eq_none
        simp only [Span.room, pageSize] at *
        omega
      rw [if_pos hle, hnone]
      rfl
    · rw [if_neg hle]

/-- Bytes put over the spans of an access are at its addresses, and nothing else changed. -/
theorem byteAt_store (t : PageTable) (offset : Nat) (bs : List UInt8) (k : Nat) :
    (t.store (Span.cover offset bs.length) bs).byteAt k =
      if offset ≤ k then bs[k - offset]?.getD (t.byteAt k) else t.byteAt k := by
  generalize hl : bs.length = length
  induction length using Nat.strongRecOn generalizing t offset bs with
  | _ length ih =>
    rcases Nat.eq_zero_or_pos length with rfl | h
    · obtain rfl := List.eq_nil_of_length_eq_zero hl
      simp [store]
    · have hp := Span.room_pos offset
      rw [Span.cover_of_pos h, store]
      generalize hn : min (Span.room offset) length = n
      rw [ih (length - n) (by omega) _ _ _ (by simp [hl]),
        byteAt_insert_span t offset (bs.take n) (by rw [List.length_take]; omega)]
      by_cases h1 : offset + n ≤ k
      · have h2 : k - offset = n + (k - (offset + n)) := by omega
        have h3 : offset ≤ k := by omega
        have h4 : (bs.take n)[n + (k - (offset + n))]? = none := by
          apply List.getElem?_eq_none
          rw [List.length_take]
          omega
        simp only [if_pos h1, if_pos h3, h2, List.getElem?_drop, h4, Option.getD_none]
      · rw [if_neg h1]
        by_cases h3 : offset ≤ k
        · rw [if_pos h3, if_pos h3, List.getElem?_take_of_lt (by omega)]
        · rw [if_neg h3, if_neg h3]

end PageTable

end StackMachine
