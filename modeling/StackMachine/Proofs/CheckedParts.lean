import StackMachine.Proofs.CheckedEngine

/-!
# The stack and the memory of the checked engine

`Tracks` compares a checked action with an action, from one state on: both end alike, with the same
value or the same error, and in states that correspond, so the checked one does not stop with
`outside`.  That an action starts where another one ended can make a check unnecessary, and
`Tracks.bind` hands this on.

Here it is shown of the operations of the stack, whose words lie in live slots, and of accesses to
the memory.  There the loops are compared with the spans of an access, one turn with one span: below
the last address a span ends within its page and within the access, and holds a byte.
-/

namespace StackMachine

namespace Checked

variable {σ τ α β : Type} {f : σ → τ} {s t : σ}

/-- The result of a checked action that goes as an action did. -/
def image (f : σ → τ) : EStateM.Result Error σ α → EStateM.Result Stop τ α
  | .ok a s => .ok a (f s)
  | .error e s => .error (.error e) (f s)

/-- From a state on, a checked action goes as an action does. -/
def Tracks (f : σ → τ) (s : σ) (x : Checked τ α) (y : Action σ α) : Prop :=
  x.run (f s) = image f (y.run s)

namespace Tracks

theorem pure (a : α) : Tracks f s (pure a) (pure a) := rfl

theorem fail (e : Error) : Tracks f s (Checked.fail e) (Action.fail e : Action σ α) := rfl

/-- What follows starts in a state that the action before it can leave. -/
theorem bind {x : Checked τ α} {y : Action σ α} {g : α → Checked τ β} {h : α → Action σ β}
    (hx : Tracks f s x y) (hg : ∀ a t, y.run s = .ok a t → Tracks f t (g a) (h a)) :
    Tracks f s (x >>= g) (y >>= h) := by
  unfold Tracks at hx ⊢
  rw [EStateM.run_bind, EStateM.run_bind, hx]
  cases hy : y.run s with
  | ok a t => exact hg a t hy
  | error e t => rfl

/-- An action that may not fail does not. -/
theorem must {x : Checked τ α} {y : Action σ α} (hx : Tracks f s x y) {a : α}
    (hy : y.run s = .ok a t) : Tracks f s (Checked.must x) y := by
  have hr : x.run (f s) = .ok a (f t) := by
    rw [hx, hy]
    rfl
  have hm : (Checked.must x).run (f s) = .ok a (f t) := by
    simp only [EStateM.run] at hr
    simp only [EStateM.run, Checked.must, hr]
  rw [Tracks, hm, hy]
  rfl

/-- A partial operation within its domain does nothing but give its value. -/
theorem demand {o : Option α} {a : α} (ho : o = some a) {g : α → Checked τ β} {y : Action σ β}
    (hg : Tracks f s (g a) y) : Tracks f s (Checked.demand o >>= g) y := by
  subst ho
  exact hg

end Tracks

@[simp] theorem run_fail (e : Error) (s : σ) :
    (fail e : Checked σ α).run s = .error (.error e) s := rfl

@[simp] theorem run_demand_some (a : α) (s : σ) : (demand (some a)).run s = .ok a s := rfl

theorem sub?_of_le {a b : Nat} (h : b ≤ a) : sub? a b = some (a - b) := if_pos h

theorem div?_of_ne {a b : UInt64} (h : b ≠ 0) : div? a b = some (a / b) := if_neg h

theorem slice?_of_le {l : List α} {start stop : Nat} (h : start ≤ stop) (hl : stop ≤ l.length) :
    slice? l start stop = some ((l.drop start).take (stop - start)) := if_pos ⟨h, hl⟩

theorem array?_toList {width : Nat} (v : Vector UInt8 width) : array? width v.toList = some v := by
  rw [array?, dif_pos Vector.length_toList]
  exact congrArg some (Vector.toArray_inj.1 Array.toArray_toList)

end Checked

open Checked (Tracks image)

/-! ## The stack -/

/-- The slots of a stack, with room for all the words that it may hold. -/
def Stack.cells (s : Stack) : Cells where
  slots := s.slots.toList ++ List.replicate (s.capacity - s.slots.size) 0
  depth := s.depth

namespace Cells

variable {s : Stack}

@[simp] theorem depth_cells (s : Stack) : s.cells.depth = s.depth := rfl

@[simp] theorem length_slots_cells (s : Stack) : s.cells.slots.length = s.capacity := by
  have := s.size_le
  simp only [Stack.cells, List.length_append, Array.length_toList, List.length_replicate]
  omega

/-- A live slot holds its word. -/
theorem live?_cells {i : Nat} (h : i < s.depth) (hi : i < s.slots.size) :
    s.cells.live? i = some s.slots[i] := by
  have hl : i < s.slots.toList.length := hi
  rw [live?, depth_cells, if_pos h, Stack.cells, List.getElem?_append_left hl,
    Array.getElem?_toList, Array.getElem?_eq_getElem hi]

theorem words?_cells (s : Stack) : s.cells.words? = some s.words := by
  have hd : s.cells.depth ≤ s.cells.slots.length := by
    rw [length_slots_cells]
    exact s.depth_le_capacity
  have hl : s.depth ≤ s.slots.toList.length := s.depth_le
  rw [words?, Checked.slice?_of_le (Nat.zero_le _) hd, Nat.sub_zero, List.drop_zero, depth_cells,
    Stack.cells, List.take_append_of_le_length hl, Stack.words]

theorem run_require_of_le {n : Nat} (h : n ≤ s.depth) :
    (require n).run s.cells = .ok () s.cells := by
  have hc : n ≤ s.cells.depth := h
  simp only [require, EStateM.run_bind, EStateM.run_get, if_pos hc, EStateM.run_pure]

theorem run_require_of_lt {n : Nat} (h : s.depth < n) :
    (require n).run s.cells = .error (.error (.stackUnderflow n s.depth)) s.cells := by
  have hc : ¬ n ≤ s.cells.depth := Nat.not_le.2 h
  simp only [require, EStateM.run_bind, EStateM.run_get, if_neg hc, Checked.run_fail]
  rfl

theorem tracks_require (s : Stack) (n : Nat) :
    Tracks Stack.cells s (require n) (Action.look (·.require n)) := by
  rw [Tracks, Action.run_look]
  rcases Nat.lt_or_ge s.depth n with h | h
  · rw [Stack.require_of_lt h, run_require_of_lt h]
    rfl
  · rw [Stack.require_of_le h, run_require_of_le h]
    rfl

theorem tracks_peek (s : Stack) (below : Nat) :
    Tracks Stack.cells s (peek below) (Action.look (·.peek below)) := by
  have hle := s.depth_le
  rw [Tracks, Action.run_look]
  rcases Nat.lt_or_ge below s.depth with h | h
  · have h1 : 1 ≤ s.depth := by omega
    have hb : below ≤ s.depth - 1 := by omega
    have hi := live?_cells (s := s) (i := s.depth - 1 - below) (by omega) (by omega)
    rw [Stack.peek, dif_pos h]
    simp only [peek, EStateM.run_bind, run_require_of_le (Nat.succ_le_of_lt h), EStateM.run_get,
      depth_cells, Checked.sub?_of_le h1, Checked.sub?_of_le hb, hi, Checked.run_demand_some]
    rfl
  · rw [Stack.peek_of_le h]
    simp only [peek, EStateM.run_bind, run_require_of_lt (Nat.lt_succ_of_le h)]
    rfl

/-- A push puts its word into the first slot that is not live. -/
theorem cells_push {t : Stack} {w : UInt64} (h : (Stack.push w).run s = .ok () t) :
    t.cells = ⟨s.cells.slots.set s.depth w, s.depth + 1⟩ := by
  have hle := s.depth_le
  simp only [EStateM.run, Stack.push] at h
  split at h
  · rename_i hc
    split at h
    · rename_i hlt
      -- The slot was there, with a word that had been taken off.
      obtain ⟨-, rfl⟩ := EStateM.Result.ok.inj h
      have hl : s.depth < s.slots.toList.length := hlt
      simp only [Stack.cells, Array.toList_set, Array.size_set, List.set_append_left _ _ hl]
    · rename_i hge
      obtain ⟨-, rfl⟩ := EStateM.Result.ok.inj h
      have hd : s.depth = s.slots.size := by omega
      have hr : s.capacity - s.slots.size = s.capacity - (s.slots.size + 1) + 1 := by omega
      have hl : s.slots.toList.length ≤ s.slots.size := Nat.le_refl _
      simp only [Stack.cells, Array.toList_push, Array.size_push, hr, hd, List.replicate_succ,
        List.set_append_right _ _ hl, Array.length_toList, Nat.sub_self, List.set_cons_zero,
        List.append_assoc, List.singleton_append]
  · exact absurd h (by simp)

theorem tracks_push (s : Stack) (w : UInt64) :
    Tracks Stack.cells s (push w) (Stack.push w) := by
  rw [Tracks]
  rcases Nat.lt_or_ge s.depth s.capacity with h | h
  · obtain ⟨t, ht, _⟩ := Stack.push_of_lt h w
    have hc := cells_push ht
    simp only [push, EStateM.run_bind, EStateM.run_get, depth_cells, length_slots_cells, if_pos h,
      EStateM.run_set, ht, image, hc]
  · simp only [push, EStateM.run_bind, EStateM.run_get, depth_cells, length_slots_cells,
      if_neg (Nat.not_lt.2 h), Checked.run_fail, Stack.push_of_ge h, image]

theorem tracks_pop (s : Stack) : Tracks Stack.cells s pop Stack.pop := by
  have hle := s.depth_le
  rw [Tracks]
  rcases Nat.lt_or_ge s.depth 1 with h | h
  · simp only [pop, EStateM.run_bind, run_require_of_lt h, Stack.pop_of_lt h, image]
  · have hi := live?_cells (s := s) (i := s.depth - 1) (by omega) (by omega)
    have hp : Stack.pop.run s = .ok s.slots[s.depth - 1] (s.drop 1) := dif_pos h
    simp only [pop, EStateM.run_bind, run_require_of_le h, EStateM.run_get, depth_cells,
      Checked.sub?_of_le h, hi, Checked.run_demand_some, EStateM.run_set, EStateM.run_pure, hp]
    rfl

theorem run_popTwo_of_le (h : 2 ≤ s.depth) :
    ∃ left right, Stack.popTwo.run s = .ok (left, right) (s.drop 2) ∧
      s.cells.live? (s.depth - 2) = some left ∧ s.cells.live? (s.depth - 1) = some right := by
  have hle := s.depth_le
  exact ⟨s.slots[s.depth - 2], s.slots[s.depth - 1], dif_pos h,
    live?_cells (by omega) (by omega), live?_cells (by omega) (by omega)⟩

theorem tracks_popTwo (s : Stack) : Tracks Stack.cells s popTwo Stack.popTwo := by
  rw [Tracks]
  rcases Nat.lt_or_ge s.depth 2 with h | h
  · simp only [popTwo, EStateM.run_bind, run_require_of_lt h, Stack.popTwo_of_lt h, image]
  · obtain ⟨left, right, hp, hl, hr⟩ := run_popTwo_of_le h
    have h1 : 1 ≤ s.depth := by omega
    simp only [popTwo, EStateM.run_bind, run_require_of_le h, EStateM.run_get, depth_cells,
      Checked.sub?_of_le h, Checked.sub?_of_le h1, hl, hr, Checked.run_demand_some,
      EStateM.run_set, EStateM.run_pure, hp]
    rfl

theorem tracks_replaceTop (s : Stack) (w : UInt64) :
    Tracks Stack.cells s (replaceTop w) (Stack.replaceTop w) := by
  have hle := s.depth_le
  rw [Tracks]
  rcases Nat.lt_or_ge s.depth 1 with h | h
  · have hr : (Stack.replaceTop w).run s = .error (.stackUnderflow 1 s.depth) s :=
      dif_neg (Nat.not_le.2 h)
    simp only [replaceTop, EStateM.run_bind, run_require_of_lt h, hr, image]
  · have hput : s.cells.put? (s.depth - 1) w = some (s.cells.slots.set (s.depth - 1) w) := by
      have hc := s.depth_le_capacity
      rw [put?, depth_cells, length_slots_cells]
      exact if_pos ⟨by omega, by omega⟩
    have hl : s.depth - 1 < s.slots.toList.length := by
      rw [Array.length_toList]
      omega
    simp only [replaceTop, EStateM.run_bind, run_require_of_le h, EStateM.run_get, depth_cells,
      Checked.sub?_of_le h, hput, Checked.run_demand_some, EStateM.run_set]
    simp only [EStateM.run, Stack.replaceTop, dif_pos h, image, Stack.cells, Array.toList_set,
      Array.size_set, List.set_append_left _ _ hl]

end Cells

namespace Stack

theorem le_of_require {s : Stack} {n : Nat} (h : s.require n = .ok ()) : n ≤ s.depth := by
  rcases Nat.lt_or_ge s.depth n with hlt | hle
  · rw [require_of_lt hlt] at h
    exact absurd h (by simp)
  · exact hle

theorem lt_of_peek {s : Stack} {below : Nat} {w : UInt64} (h : s.peek below = .ok w) :
    below < s.depth := by
  rcases Nat.lt_or_ge below s.depth with hlt | hle
  · exact hlt
  · rw [peek_of_le hle] at h
    exact absurd h (by simp)

theorem eq_of_popTwo {s t : Stack} {p : UInt64 × UInt64} (h : popTwo.run s = .ok p t) :
    2 ≤ s.depth ∧ t = s.drop 2 := by
  rcases Nat.lt_or_ge s.depth 2 with hlt | hle
  · rw [popTwo_of_lt hlt] at h
    exact absurd h (by simp)
  · obtain ⟨left, right, hp, _⟩ := Cells.run_popTwo_of_le hle
    rw [hp] at h
    exact ⟨hle, (EStateM.Result.ok.inj h).2.symm⟩

end Stack

/-! ## Memory -/

/-- A span ends within its page and within its access. -/
theorem Span.chunk_le (offset : UInt64) {total done : Nat} (h : done < total) :
    (chunk offset total done).start + (chunk offset total done).length ≤ pageSize ∧
      done + (chunk offset total done).length ≤ total := by
  have hs := start_chunk_lt offset total done
  simp only [chunk] at hs ⊢
  omega

theorem PageTable.length_fetch (pages : PageTable) {span : Span}
    (h : span.start + span.length ≤ pageSize) : (pages.fetch span).length = span.length := by
  rw [fetch, Page.slice_eq _ h, List.length_map, List.length_range]

namespace Checked

/-- Within the addresses a checked chunk is the span of the access. -/
theorem chunk?_eq {offset : UInt64} {total done : Nat} (h : offset.toNat + total < UInt64.size)
    (hd : done < total) : chunk? offset total done = some (Span.chunk offset total done) := by
  have ha : Memory.stop? offset done = some (offset + UInt64.ofNat done) := if_pos (by omega)
  have hs := Nat.le_of_lt (Span.start_chunk_lt offset total done)
  have hroom := sub?_of_le hs
  have hleft := sub?_of_le (Nat.le_of_lt hd)
  simp only [Span.chunk] at hroom
  simp only [chunk?, ha, Option.bind_eq_bind, Option.bind_some, hroom, hleft, Span.chunk]
  rfl

/-- The slice of a page that a span asks for is the bytes of the span. -/
theorem slice?_page (pages : PageTable) {span : Span} (h : span.start + span.length ≤ pageSize) :
    slice? (pages.page span.page).toList span.start (span.start + span.length) =
      some (pages.fetch span) := by
  rw [slice?_of_le (Nat.le_add_right _ _) (by rw [Vector.length_toList]; exact h),
    PageTable.fetch, Page.slice, Array.toList_extract, List.extract_eq_take_drop]
  rfl

theorem copy?_of_length {l source : List α} {start stop : Nat} (h : start ≤ stop)
    (hl : stop ≤ l.length) (hs : source.length = stop - start) :
    copy? l start stop source = some (l.take start ++ source ++ l.drop stop) :=
  if_pos ⟨h, hl, hs⟩

/-- One turn of a read: the bytes of a span are copied into the buffer. -/
theorem fill_of_lt (pages : PageTable) {offset : UInt64} {total done : Nat} {buffer : List UInt8}
    (h : offset.toNat + total < UInt64.size) (hd : done < total) (hb : buffer.length = total) :
    let span := Span.chunk offset total done
    fill pages offset total done buffer =
      fill pages offset total (done + span.length)
        (buffer.take done ++ pages.fetch span ++ buffer.drop (done + span.length)) := by
  intro span
  obtain ⟨hpage, htotal⟩ := Span.chunk_le offset hd
  have hslice : slice? (pages.page span.page).toList span.start (span.start + span.length) =
      some (pages.fetch span) := slice?_page pages hpage
  have hlen : (pages.fetch span).length = done + span.length - done := by
    rw [PageTable.length_fetch pages hpage, Nat.add_sub_cancel_left]
  have hcopy := copy?_of_length (l := buffer) (Nat.le_add_right done span.length)
    (by rw [hb]; exact htotal) hlen
  rw [fill, dif_pos hd, chunk?_eq h hd]
  simp only [Option.bind_eq_bind, Option.bind_some]
  rw [dif_pos (Span.length_chunk_pos offset hd), hslice, Option.bind_some, hcopy, Option.bind_some]

/-- **A read fills its buffer span by span**, and stays within its buffer and its pages. -/
theorem fill_eq (pages : PageTable) {offset : UInt64} {total : Nat}
    (h : offset.toNat + total < UInt64.size) (done : Nat) (buffer : List UInt8)
    (hd : done ≤ total) (hb : buffer.length = total) :
    fill pages offset total done buffer =
      some (buffer.take done ++ (Span.spans offset total done).flatMap pages.fetch) := by
  -- On the bytes that are left: each span has one at least.
  generalize hk : total - done = k
  induction k using Nat.strongRecOn generalizing done buffer with
  | _ k ih =>
    rcases Nat.lt_or_ge done total with hlt | hge
    · obtain ⟨hpage, htotal⟩ := Span.chunk_le offset hlt
      have hpos := Span.length_chunk_pos offset hlt
      have hlen := PageTable.length_fetch pages hpage
      rw [fill_of_lt pages h hlt hb, Span.spans_of_lt hlt, List.flatMap_cons]
      generalize Span.chunk offset total done = span at hpage htotal hpos hlen
      have htake : (buffer.take done).length = done := by
        rw [List.length_take]
        omega
      have hfront : (buffer.take done ++ pages.fetch span).length = done + span.length := by
        rw [List.length_append, htake, hlen]
      have hbuffer : (buffer.take done ++ pages.fetch span ++
          buffer.drop (done + span.length)).length = total := by
        rw [List.length_append, hfront, List.length_drop]
        omega
      rw [ih _ (by omega) _ _ htotal hbuffer rfl, List.take_left' hfront, List.append_assoc]
    · have hfull : buffer.length ≤ done := by omega
      rw [fill, dif_neg (Nat.not_lt.2 hge), Span.spans_of_ge hge, List.flatMap_nil,
        List.append_nil, List.take_of_length_le hfull]

/-- One turn of a write: the bytes of a span are copied into their page. -/
theorem commit_of_lt {offset : UInt64} {data : List UInt8} {done : Nat} (pages : PageTable)
    (h : offset.toNat + data.length < UInt64.size) (hd : done < data.length) :
    let span := Span.chunk offset data.length done
    commit offset data done pages =
      commit offset data (done + span.length)
        (pages.insert span.page ((pages.page span.page).overwrite span.start
          ((data.drop done).take span.length))) := by
  intro span
  obtain ⟨hpage, htotal⟩ := Span.chunk_le offset hd
  have hslice : slice? data done (done + span.length) =
      some ((data.drop done).take span.length) := by
    rw [slice?_of_le (Nat.le_add_right _ _) htotal, Nat.add_sub_cancel_left]
  have hlen : ((data.drop done).take span.length).length =
      span.start + span.length - span.start := by
    have htotal' : done + span.length ≤ data.length := htotal
    rw [List.length_take, List.length_drop]
    omega
  have hcopy : copyPage? (pages.page span.page) span.start (span.start + span.length)
      ((data.drop done).take span.length) =
        some ((pages.page span.page).overwrite span.start ((data.drop done).take span.length)) :=
    if_pos ⟨Nat.le_add_right _ _, hpage, hlen⟩
  rw [commit, dif_pos hd, chunk?_eq h hd]
  simp only [Option.bind_eq_bind, Option.bind_some]
  rw [dif_pos (Span.length_chunk_pos offset hd), hslice, Option.bind_some, hcopy, Option.bind_some]

/-- **A write commits its data span by span**, and stays within its data and its pages. -/
theorem commit_eq {offset : UInt64} {data : List UInt8}
    (h : offset.toNat + data.length < UInt64.size) (done : Nat) (pages : PageTable) :
    commit offset data done pages =
      some (pages.store (Span.spans offset data.length done) (data.drop done)) := by
  generalize hk : data.length - done = k
  induction k using Nat.strongRecOn generalizing done pages with
  | _ k ih =>
    rcases Nat.lt_or_ge done data.length with hlt | hge
    · have hpos := Span.length_chunk_pos offset hlt
      rw [commit_of_lt pages h hlt, Span.spans_of_lt hlt, PageTable.store, ih _ (by omega) _ _ rfl,
        List.drop_drop]
    · rw [commit, dif_neg (Nat.not_lt.2 hge), Span.spans_of_ge hge, PageTable.store]

theorem run_check_of_ok {m : Memory} {offset : UInt64} {length : Nat}
    (h : m.check offset length = .ok ()) : (check offset length).run m = .ok () m := by
  simp only [check, EStateM.run_bind, EStateM.run_get, h, EStateM.run_pure]

theorem run_check_of_error {m : Memory} {offset : UInt64} {length : Nat} {e : Error}
    (h : m.check offset length = .error e) :
    (check offset length).run m = .error (.error e) m := by
  simp only [check, EStateM.run_bind, EStateM.run_get, h, run_fail]

/-- A check that passes leaves an access below the last address. -/
theorem lt_size_of_check {m : Memory} {offset : UInt64} {length : Nat}
    (h : m.check offset length = .ok ()) : offset.toNat + length < UInt64.size := by
  have hc := m.capacity.toNat_lt_size
  rcases Nat.lt_or_ge m.capacity.toNat (offset.toNat + length) with hlt | hle
  · rw [Memory.check_of_lt hlt] at h
    exact absurd h (by simp)
  · omega

theorem tracks_read (m : Memory) (offset : UInt64) (length : Nat) :
    Tracks id m (read offset length) (Action.look (·.read offset length)) := by
  rw [Tracks, Action.run_look, id]
  cases hc : m.check offset length with
  | error e =>
    simp only [read, EStateM.run_bind, run_check_of_error hc, Memory.read, hc]
    rfl
  | ok u =>
    have hf := fill_eq m.pages (lt_size_of_check hc) 0 (List.replicate length 0) (Nat.zero_le _)
      List.length_replicate
    simp only [read, EStateM.run_bind, run_check_of_ok hc, EStateM.run_get, hf, run_demand_some,
      Memory.read, hc]
    rfl

theorem tracks_readWord (m : Memory) (offset : UInt64) :
    Tracks id m (readWord offset) (Action.look (·.readWord offset)) := by
  have hr := tracks_read m offset 8
  rw [Tracks, Action.run_look, id] at hr ⊢
  cases hm : m.read offset 8 with
  | error e =>
    rw [hm] at hr
    simp only [readWord, EStateM.run_bind, hr, image, Memory.readWord, hm]
    rfl
  | ok bs =>
    rw [hm] at hr
    simp only [readWord, EStateM.run_bind, hr, image, Memory.readWord, hm]
    rfl

theorem tracks_slice (m : Memory) (offset length : UInt64) :
    Tracks id m (slice offset length) (Action.look (·.slice offset length)) := by
  have hr := tracks_read m offset length.toNat
  rw [Tracks, Action.run_look, id] at hr ⊢
  cases hc : m.check offset length.toNat with
  | error e =>
    simp only [slice, EStateM.run_bind, run_check_of_error hc, Memory.slice, hc]
    rfl
  | ok u =>
    simp only [slice, EStateM.run_bind, run_check_of_ok hc, Memory.slice, hc]
    exact hr

theorem tracks_write (m : Memory) (offset : UInt64) (bs : List UInt8) :
    Tracks id m (write offset bs) (Memory.write offset bs) := by
  rw [Tracks, id]
  cases hc : m.check offset bs.length with
  | error e =>
    simp only [write, EStateM.run_bind, run_check_of_error hc, Memory.write, Action.run_look, hc,
      image, id]
  | ok u =>
    have hw := commit_eq (lt_size_of_check hc) 0 m.pages
    simp only [write, EStateM.run_bind, run_check_of_ok hc, EStateM.run_get, hw, run_demand_some,
      EStateM.run_set, Memory.write, Action.run_look, hc, EStateM.run_modify, image, id,
      List.drop_zero]

end Checked

end StackMachine
