import StackMachine.Action

/-!
# The operand stack

A stack of at most `capacity` 64-bit words.  Slots for words are added as the stack grows and are
kept when it shrinks: the first `depth` of them are live, and a word that was popped stays in its
slot, out of reach, until another word takes its place.  What a stack holds is `words`, bottom
first, or `column`, top first.

Every operation checks its demands before it changes anything, and each has a lemma that says what
it does to the column and one that says when it fails.
-/

namespace StackMachine

/-- Slots for words, the first `depth` of them live. -/
structure Stack where
  capacity : Nat
  slots : Array UInt64
  depth : Nat
  depth_le : depth ≤ slots.size
  size_le : slots.size ≤ capacity

namespace Stack

/-- A stack without words. -/
def empty (capacity : Nat) : Stack := ⟨capacity, #[], 0, Nat.le_refl _, Nat.zero_le _⟩

/-- The live words, bottom first. -/
def words (s : Stack) : List UInt64 := s.slots.toList.take s.depth

/-- The live words, top first. -/
def column (s : Stack) : List UInt64 := s.words.reverse

/-- Ask for at least `n` live words. -/
def require (s : Stack) (n : Nat) : Result Unit :=
  if n ≤ s.depth then .ok () else .error (.stackUnderflow n s.depth)

/-- The word `below` places under the top. -/
def peek (s : Stack) (below : Nat) : Result UInt64 :=
  if h : below < s.depth then
    have := s.depth_le
    .ok s.slots[s.depth - 1 - below]
  else .error (.stackUnderflow (below + 1) s.depth)

/-- Put a word on top. -/
def push (w : UInt64) : Action Stack Unit := fun s =>
  if hc : s.depth < s.capacity then
    if h : s.depth < s.slots.size then
      .ok () ⟨s.capacity, s.slots.set s.depth w, s.depth + 1, by rw [Array.size_set]; exact h,
        by rw [Array.size_set]; exact s.size_le⟩
    else
      have hd : s.depth = s.slots.size := Nat.le_antisymm s.depth_le (Nat.le_of_not_lt h)
      .ok () ⟨s.capacity, s.slots.push w, s.depth + 1, by rw [Array.size_push]; omega,
        by rw [Array.size_push]; omega⟩
  else .error (.stackOverflow s.capacity) s

/-- The stack with `n` words fewer. -/
def drop (s : Stack) (n : Nat) : Stack :=
  ⟨s.capacity, s.slots, s.depth - n, Nat.le_trans (Nat.sub_le _ _) s.depth_le, s.size_le⟩

/-- Take the top word off. -/
def pop : Action Stack UInt64 := fun s =>
  if h : 1 ≤ s.depth then
    have := s.depth_le
    .ok s.slots[s.depth - 1] (s.drop 1)
  else .error (.stackUnderflow 1 s.depth) s

/-- Take the two top words off; the lower one comes first. -/
def popTwo : Action Stack (UInt64 × UInt64) := fun s =>
  if h : 2 ≤ s.depth then
    have := s.depth_le
    .ok (s.slots[s.depth - 2], s.slots[s.depth - 1]) (s.drop 2)
  else .error (.stackUnderflow 2 s.depth) s

/-- Put a word in the place of the top word. -/
def replaceTop (w : UInt64) : Action Stack Unit := fun s =>
  if h : 1 ≤ s.depth then
    have := s.depth_le
    .ok () ⟨s.capacity, s.slots.set (s.depth - 1) w, s.depth,
      by rw [Array.size_set]; exact s.depth_le, by rw [Array.size_set]; exact s.size_le⟩
  else .error (.stackUnderflow 1 s.depth) s

/-- Take all words off. -/
def clear (s : Stack) : Stack := s.drop s.depth

/-! ## What a stack holds -/

@[simp] theorem words_empty (capacity : Nat) : (empty capacity).words = [] := by
  simp [empty, words]

@[simp] theorem capacity_empty (n : Nat) : (empty n).capacity = n := rfl

@[simp] theorem length_words (s : Stack) : s.words.length = s.depth := by
  have := s.depth_le
  rw [words, List.length_take, Array.length_toList]
  omega

@[simp] theorem length_column (s : Stack) : s.column.length = s.depth := by
  rw [column, List.length_reverse, length_words]

theorem exists_of_one_le_depth {s : Stack} (h : 1 ≤ s.depth) :
    ∃ top ws, s.column = top :: ws := by
  rw [← length_column] at h
  match s.column, h with
  | top :: ws, _ => exact ⟨top, ws, rfl⟩

theorem exists_of_two_le_depth {s : Stack} (h : 2 ≤ s.depth) :
    ∃ top below ws, s.column = top :: below :: ws := by
  rw [← length_column] at h
  match s.column, h with
  | top :: below :: ws, _ => exact ⟨top, below, ws, rfl⟩

/-- A stack never holds more words than its capacity. -/
theorem depth_le_capacity (s : Stack) : s.depth ≤ s.capacity :=
  Nat.le_trans s.depth_le s.size_le

@[simp] theorem column_empty (capacity : Nat) : (empty capacity).column = [] := by
  simp [column]

@[simp] theorem words_drop (s : Stack) (n : Nat) :
    (s.drop n).words = s.words.take (s.depth - n) := by
  rw [drop, words, words, List.take_take, Nat.min_eq_left (Nat.sub_le _ _)]

@[simp] theorem capacity_drop (s : Stack) (n : Nat) : (s.drop n).capacity = s.capacity := rfl

@[simp] theorem column_drop (s : Stack) (n : Nat) : (s.drop n).column = s.column.drop n := by
  rw [column, words_drop, column, List.drop_reverse, length_words]

@[simp] theorem words_clear (s : Stack) : s.clear.words = [] := by
  simp [clear]

@[simp] theorem column_clear (s : Stack) : s.clear.column = [] := by
  simp [column]

@[simp] theorem capacity_clear (s : Stack) : s.clear.capacity = s.capacity := rfl

/-- Counted from the top, the column starts in the last live slot. -/
theorem slot_of_column {s : Stack} (below : Nat) {w : UInt64} (h : s.column[below]? = some w) :
    below < s.depth ∧ s.slots[s.depth - 1 - below]? = some w := by
  obtain ⟨hb, -⟩ := List.getElem?_eq_some_iff.1 h
  rw [length_column] at hb
  have hi : s.depth - 1 - below < s.depth := by omega
  rw [column, List.getElem?_reverse (by simpa using hb), length_words, words,
    List.getElem?_take_of_lt hi, Array.getElem?_toList] at h
  exact ⟨hb, h⟩

/-! ## What the operations do -/

theorem require_of_le {s : Stack} {n : Nat} (h : n ≤ s.depth) : s.require n = .ok () := by
  rw [require, if_pos h]

theorem require_of_lt {s : Stack} {n : Nat} (h : s.depth < n) :
    s.require n = .error (.stackUnderflow n s.depth) := by
  rw [require, if_neg (Nat.not_le.2 h)]

/-- A peek finds the word that the column has there. -/
theorem peek_of_column {s : Stack} {below : Nat} {w : UInt64} (h : s.column[below]? = some w) :
    s.peek below = .ok w := by
  obtain ⟨hb, hw⟩ := slot_of_column below h
  obtain ⟨_, hw⟩ := Array.getElem?_eq_some_iff.1 hw
  rw [peek, dif_pos hb]
  exact congrArg Except.ok hw

theorem peek_of_le {s : Stack} {below : Nat} (h : s.depth ≤ below) :
    s.peek below = .error (.stackUnderflow (below + 1) s.depth) := by
  rw [peek, dif_neg (Nat.not_lt.2 h)]

/-- A look at the two top words finds them. -/
theorem looks_of_column {s : Stack} {top below : UInt64} {ws : List UInt64}
    (h : s.column = top :: below :: ws) :
    s.require 2 = .ok () ∧ s.peek 0 = .ok top ∧ s.peek 1 = .ok below := by
  have hd : 2 ≤ s.depth := by
    rw [← length_column, h]
    simp
  refine ⟨require_of_le hd, peek_of_column ?_, peek_of_column ?_⟩
  · rw [h]
    rfl
  · rw [h]
    rfl

/-- A stack that is not full takes a word. -/
theorem push_of_lt {s : Stack} (h : s.depth < s.capacity) (w : UInt64) :
    ∃ t, (push w).run s = .ok () t ∧ t.column = w :: s.column ∧ t.capacity = s.capacity := by
  simp only [EStateM.run, push, dif_pos h]
  split
  · rename_i hlt
    refine ⟨_, rfl, ?_, rfl⟩
    simp only [column, words, Array.toList_set]
    rw [List.take_add_one, List.take_set_of_le (Nat.le_refl _)]
    simp [hlt]
  · rename_i hge
    have hd : s.depth = s.slots.toList.length := Nat.le_antisymm s.depth_le (Nat.le_of_not_lt hge)
    refine ⟨_, rfl, ?_, rfl⟩
    simp only [column, words, Array.toList_push]
    rw [hd, List.take_of_length_le (Nat.le_refl _), List.take_of_length_le (by simp)]
    simp

/-- A full stack refuses a word and stays as it is. -/
theorem push_of_ge {s : Stack} (h : s.capacity ≤ s.depth) (w : UInt64) :
    (push w).run s = .error (.stackOverflow s.capacity) s := by
  simp only [EStateM.run, push, dif_neg (Nat.not_lt.2 h)]

theorem pop_of_column {s : Stack} {top : UInt64} {rest : List UInt64}
    (h : s.column = top :: rest) : pop.run s = .ok top (s.drop 1) := by
  obtain ⟨hd, ht⟩ := slot_of_column (s := s) (w := top) 0 (by rw [h]; rfl)
  obtain ⟨_, ht⟩ := Array.getElem?_eq_some_iff.1 ht
  simp only [EStateM.run, pop, dif_pos (Nat.succ_le_of_lt hd)]
  exact congrArg (EStateM.Result.ok · (s.drop 1)) ht

theorem pop_of_lt {s : Stack} (h : s.depth < 1) :
    pop.run s = .error (.stackUnderflow 1 s.depth) s := by
  simp only [EStateM.run, pop, dif_neg (Nat.not_le.2 h)]

theorem popTwo_of_column {s : Stack} {top below : UInt64} {rest : List UInt64}
    (h : s.column = top :: below :: rest) : popTwo.run s = .ok (below, top) (s.drop 2) := by
  obtain ⟨-, ht⟩ := slot_of_column (s := s) (w := top) 0 (by rw [h]; rfl)
  obtain ⟨hd, hb⟩ := slot_of_column (s := s) (w := below) 1 (by rw [h]; rfl)
  obtain ⟨_, ht⟩ := Array.getElem?_eq_some_iff.1 ht
  obtain ⟨_, hb⟩ := Array.getElem?_eq_some_iff.1 hb
  simp only [EStateM.run, popTwo, dif_pos (Nat.succ_le_of_lt hd)]
  exact congrArg (EStateM.Result.ok · (s.drop 2)) (Prod.ext hb ht)

theorem popTwo_of_lt {s : Stack} (h : s.depth < 2) :
    popTwo.run s = .error (.stackUnderflow 2 s.depth) s := by
  simp only [EStateM.run, popTwo, dif_neg (Nat.not_le.2 h)]

/-- Replacing the top word keeps the others. -/
theorem replaceTop_of_column {s : Stack} {top : UInt64} {rest : List UInt64}
    (h : s.column = top :: rest) (w : UInt64) :
    ∃ t, (replaceTop w).run s = .ok () t ∧ t.column = w :: rest ∧ t.capacity = s.capacity := by
  have hd : 1 ≤ s.depth := by
    rw [← length_column, h]
    simp
  have hw : s.words = rest.reverse ++ [top] := by
    rw [← List.reverse_reverse s.words, ← column, h, List.reverse_cons]
  have hl : s.depth - 1 = rest.reverse.length := by
    rw [← length_words, hw]
    simp
  simp only [EStateM.run, replaceTop, dif_pos hd]
  refine ⟨_, rfl, ?_, rfl⟩
  have ht : (s.slots.toList.set (s.depth - 1) w).take s.depth = s.words.set (s.depth - 1) w := by
    rw [words, List.take_set]
  simp only [column, words, Array.toList_set]
  rw [ht, hw, hl]
  simp

end Stack

end StackMachine
