import Mathlib.Data.List.DropRight
import StackMachine.Assembly.Diagnostic
import StackMachine.Proofs.SourceErrors

/-!
# Where a diagnostic's caret stands

A diagnostic shows the line at fault behind a gutter with the line's number, and below it a caret
behind a gutter of its own.  The two gutters differ in width: the first has four places for the
number and three more characters, the second four characters in all.  The caret is moved by the
column at fault, so it stands three columns to the left of the character at that column
(`caret_three_columns_left`), and not under it (`caret_not_under_token`).
-/

namespace StackMachine.Assembly.Diagnostic

variable {source : String} {text : List Char} {line column : Nat}

/-! ## The lines of a diagnostic -/

/-- What stands before the source line. -/
def gutter (line : Nat) : List Char := (Text.decimal line).leftpad 4 ' ' ++ [' ', '|', ' ']

/-- The line with the caret. -/
def caretLine (column : Nat) : List Char :=
  [' ', ' ', '|', ' '] ++ List.replicate (column - 1) ' ' ++ ['^']

theorem length_gutter (h : line < 10000) : (gutter line).length = 7 := by
  have hd : (Text.decimal line).length ≤ 4 :=
    (Nat.length_toDigits_le_iff (by decide) (by decide)).2 h
  rw [gutter, List.length_append, List.length_leftpad, Nat.max_eq_left hd]
  rfl

/-- The caret is the only one in its line. -/
theorem getElem?_caretLine {k : Nat} :
    (caretLine column)[k]? = some '^' ↔ k = 4 + (column - 1) := by
  have hlen : ([' ', ' ', '|', ' '] ++ List.replicate (column - 1) ' ').length =
      4 + (column - 1) := by
    rw [List.length_append, List.length_replicate]
    rfl
  have hblank : ∀ c ∈ [' ', ' ', '|', ' '] ++ List.replicate (column - 1) ' ', c ≠ '^' := by
    intro c hc
    rcases List.mem_append.1 hc with hc | hc
    · rintro rfl
      exact absurd hc (by decide)
    · rw [List.eq_of_mem_replicate hc]
      decide
  rw [caretLine]
  constructor
  · intro h
    rcases Nat.lt_or_ge k (4 + (column - 1)) with hk | hk
    · rw [List.getElem?_append_left (hlen ▸ hk)] at h
      exact absurd rfl (hblank '^' (List.mem_of_getElem? h))
    · rw [List.getElem?_append_right (hlen ▸ hk)] at h
      obtain ⟨hlt, _⟩ := List.getElem?_eq_some_iff.1 h
      rw [hlen, List.length_singleton] at hlt
      omega
  · rintro rfl
    rw [List.getElem?_append_right (Nat.le_of_eq hlen), hlen, Nat.sub_self]
    rfl

theorem mem_gutter {c : Char} (h : c ∈ gutter line) :
    c = ' ' ∨ c = '|' ∨ ∃ d < 10, c = Nat.digitChar d := by
  rw [gutter, List.leftpad, List.append_assoc] at h
  rcases List.mem_append.1 h with h | h
  · exact .inl (List.eq_of_mem_replicate h)
  · rcases List.mem_append.1 h with h | h
    · exact .inr (.inr (Text.exists_digit_of_mem_toDigits (by decide) h))
    · simp only [List.mem_cons, List.not_mem_nil, or_false] at h
      tauto

/-- No character of a gutter ends a line. -/
theorem ne_of_mem_gutter {c : Char} (h : c ∈ gutter line) : c ≠ '\n' ∧ c ≠ '\r' := by
  have hdigit : ∀ d < 10, Nat.digitChar d ≠ '\n' ∧ Nat.digitChar d ≠ '\r' := by decide
  rcases mem_gutter h with rfl | rfl | ⟨d, hd, rfl⟩
  · decide
  · decide
  · exact hdigit d hd

theorem withoutReturns_of_not_mem (h : '\r' ∉ text) : withoutReturns text = text := by
  apply List.rdropWhile_eq_self_iff.2
  intro hne hlast
  exact h (beq_iff_eq.1 hlast ▸ List.getLast_mem hne)

/-- What stands before the lines of the excerpt. -/
def heading (file : String) (line column : Nat) (message : String) : List Char :=
  ("error: " ++ message ++ "\n --> " ++ file ++ ":" ++ number line ++ ":" ++ number column ++
    "\n").toList

/-- The excerpt, line by line. -/
theorem excerpt_eq (hr : '\r' ∉ text) (line column : Nat) :
    excerpt text line column =
      "  |".toList ++ '\n' :: ((gutter line ++ text) ++ '\n' :: (caretLine column ++ ['\n'])) := by
  have hbar : "  |\n".toList = "  |".toList ++ ['\n'] := rfl
  have hnumber : " | ".toList = [' ', '|', ' '] := rfl
  have hgutter : "\n  | ".toList = ['\n', ' ', ' ', '|', ' '] := rfl
  have hcaret : "^\n".toList = ['^', '\n'] := rfl
  unfold excerpt
  simp only [withoutReturns_of_not_mem hr, gutter, caretLine, hbar, hnumber, hgutter, hcaret,
    List.append_assoc, List.cons_append, List.nil_append]

theorem ne_of_mem_caretLine {c : Char} (h : c ∈ caretLine column) : c ≠ '\n' ∧ c ≠ '\r' := by
  have hbar : ∀ d ∈ [' ', ' ', '|', ' '], d ≠ '\n' ∧ d ≠ '\r' := by
    simp only [List.forall_mem_cons]
    exact ⟨by decide, by decide, by decide, by decide, by simp⟩
  rw [caretLine] at h
  rcases List.mem_append.1 h with h | h
  · rcases List.mem_append.1 h with h | h
    · exact hbar c h
    · rw [List.eq_of_mem_replicate h]
      decide
  · rw [List.mem_singleton.1 h]
    decide

/-- The last two lines of a diagnostic are the source line behind its gutter and the caret. -/
theorem lines_render (hl : (Text.lines source.toList)[line - 1]? = some text) (hr : '\r' ∉ text)
    (file : String) (column : Nat) (message : String) :
    ∃ above, Text.lines (render file source line column message).toList =
      above ++ [gutter line ++ text, caretLine column] := by
  have hn : '\n' ∉ text := Text.newline_not_mem_of_mem_lines (List.mem_of_getElem? hl)
  have hrender : (render file source line column message).toList =
      (heading file line column message ++ "  |".toList) ++
        '\n' :: ((gutter line ++ text) ++ '\n' :: (caretLine column ++ ['\n'])) := by
    unfold render
    rw [hl, String.toList_append, String.toList_ofList, excerpt_eq hr, ← List.append_assoc]
    rfl
  have hshown : Text.lines ((gutter line ++ text) ++ '\n' :: (caretLine column ++ ['\n'])) =
      [gutter line ++ text, caretLine column] := by
    rw [Text.lines_append_newline, Text.lines_append_newline, Text.lines_nil]
    · exact fun h => (ne_of_mem_caretLine h).1 rfl
    · exact fun h => (ne_of_mem_caretLine h).2 rfl
    · intro h
      rcases List.mem_append.1 h with h | h
      · exact (ne_of_mem_gutter h).1 rfl
      · exact hn h
    · intro h
      rcases List.mem_append.1 h with h | h
      · exact (ne_of_mem_gutter h).2 rfl
      · exact hr h
  refine ⟨Text.lines ((heading file line column message ++ "  |".toList) ++ ['\n']), ?_⟩
  rw [hrender, Text.lines_append_newline_append, hshown]

/-! ## Sources -/

/-- Printable ASCII characters and newlines. -/
def IsPrintable (cs : List Char) : Prop := ∀ c ∈ cs, c = '\n' ∨ ' ' ≤ c ∧ c ≤ '~'

instance : DecidablePred IsPrintable := fun cs =>
  List.decidableBAll (fun c => c = '\n' ∨ ' ' ≤ c ∧ c ≤ '~') cs

/-- A diagnostic points at a place of a line, counted from 0: it shows the line in full behind some
gutter, and in the line below a caret stands under that place. -/
def PointsAt (diagnostic text : List Char) (index : Nat) : Prop :=
  ∃ front caret, (front ++ text, caret) ∈ (Text.lines diagnostic).zip (Text.lines diagnostic).tail ∧
    caret[front.length + index]? = some '^'

/-- Whether a caret stands under a place of a line that ends the line above. -/
def standsUnder (text : List Char) (index : Nat) (above caret : List Char) : Bool :=
  text.isSuffixOf above && caret[above.length - text.length + index]? == some '^'

theorem pointsAt_iff {diagnostic text : List Char} {index : Nat} :
    PointsAt diagnostic text index ↔
      ((Text.lines diagnostic).zip (Text.lines diagnostic).tail).any
        (fun pair => standsUnder text index pair.1 pair.2) = true := by
  simp only [List.any_eq_true, standsUnder, Bool.and_eq_true, beq_iff_eq,
    List.isSuffixOf_iff_suffix]
  constructor
  · rintro ⟨front, caret, hmem, hcaret⟩
    refine ⟨_, hmem, List.suffix_append front text, ?_⟩
    rwa [List.length_append, Nat.add_sub_cancel]
  · rintro ⟨⟨above, caret⟩, hmem, ⟨front, rfl⟩, hcaret⟩
    refine ⟨front, caret, hmem, ?_⟩
    rwa [List.length_append, Nat.add_sub_cancel] at hcaret

instance (diagnostic text : List Char) (index : Nat) : Decidable (PointsAt diagnostic text index) :=
  decidable_of_iff _ pointsAt_iff.symm

theorem utf8Size_of_isPrintable {cs : List Char} (h : IsPrintable cs) {c : Char} (hc : c ∈ cs) :
    c.utf8Size = 1 := by
  rw [Char.utf8Size_eq_one_iff]
  rcases h c hc with rfl | ⟨_, hle⟩
  · decide
  · exact UInt32.le_trans hle (by decide)

/-- **The caret stands three columns to the left of the token at fault.**  Take a source of printable
ASCII characters and newlines, of fewer than 10000 lines, that does not assemble.  The diagnostic of
the error shows the line at fault in full behind a gutter of seven characters, and the token at fault
starts there behind as many characters as its column says.  The line below holds one caret, and it
stands three columns before the start of the token. -/
theorem caret_three_columns_left {cause : String} (hs : IsPrintable source.toList)
    (hn : (Text.lines source.toList).length < 10000)
    (h : assemble source = .error (.assembly line column cause)) (file : String) :
    ∃ text token e above front caret,
      (Text.lines source.toList)[line - 1]? = some text ∧
      Fault (Token.tokenize text) token e ∧ cause = e.message ∧
      Text.lines (render file source line column cause).toList = above ++ [front ++ text, caret] ∧
      front.length = 7 ∧
      token.text.toList <+: (front ++ text).drop (front.length + (column - 1)) ∧
      ∀ k, caret[k]? = some '^' ↔ k + 3 = front.length + (column - 1) := by
  obtain ⟨before, is, text, after, token, e, hlines, -, hf, he⟩ :=
    firstFault_of_parseLines (Result.map_eq_error_iff.1 h)
  obtain ⟨rfl, rfl, rfl⟩ := Error.assembly.inj he
  have hget : (Text.lines source.toList)[1 + before.length - 1]? = some text := by
    rw [hlines, Nat.add_sub_cancel_left, List.getElem?_append_right (Nat.le_refl _), Nat.sub_self]
    rfl
  have htext : ∀ c ∈ text, c ∈ source.toList := fun c hc =>
    Text.mem_of_mem_lines (List.mem_of_getElem? hget) hc
  have hr : '\r' ∉ text := by
    intro hc
    rcases hs _ (htext _ hc) with h | h
    · exact absurd h (by decide)
    · exact absurd h.1 (by decide)
  have hbound : 1 + before.length < 10000 := by
    rw [hlines, List.length_append, List.length_cons] at hn
    omega
  obtain ⟨above, hrender⟩ := lines_render hget hr file token.column e.message
  refine ⟨text, token, e, above, gutter (1 + before.length), caretLine token.column, hget, hf, rfl,
    hrender, length_gutter hbound, ?_, ?_⟩
  · obtain ⟨front, rest, hline, hcol⟩ := Token.exists_append_of_mem_tokenize hf.mem
    have hwidth : Text.Utf8.width front = front.length := by
      apply Text.Utf8.width_eq_length
      intro c hc
      apply utf8Size_of_isPrintable hs (htext c _)
      rw [hline]
      exact List.mem_append_left _ hc
    rw [List.drop_append, List.drop_eq_nil_of_le (Nat.le_add_right _ _), List.nil_append,
      Nat.add_sub_cancel_left, hcol, hwidth, Nat.add_sub_cancel_left, hline, List.drop_left]
    exact List.prefix_append _ _
  · intro k
    rw [getElem?_caretLine, length_gutter hbound]
    omega

/-- An operand that its immediate does not hold, at column 8 of the second line: the caret is at place
11 of its line, and the operand at place 14 of the line above. -/
theorem caret_three_columns_left_literal :
    let source := "PUSH1 1\n PUSH1 0x1FF"
    let cause := "invalid operand '0x1FF': expected an unsigned 1-byte integer"
    assemble source = .error (.assembly 2 8 cause) ∧
      ∃ above front caret, Text.lines (render "p.asm" source 2 8 cause).toList =
          above ++ [front ++ " PUSH1 0x1FF".toList, caret] ∧
        front.length = 7 ∧ ∀ k, caret[k]? = some '^' ↔ k = 11 := by
  intro source cause
  have h : assemble source = .error (.assembly 2 8 cause) := by
    rw [assemble, parse, String.toList_ofList]
    with_unfolding_all rfl
  have hs : IsPrintable source.toList := by decide
  have hn : (Text.lines source.toList).length < 10000 := by decide
  obtain ⟨text, _, _, above, front, caret, htext, _, _, hlines, hfront, _, hcaret⟩ :=
    caret_three_columns_left hs hn h "p.asm"
  have hsecond : (Text.lines source.toList)[2 - 1]? = some " PUSH1 0x1FF".toList := by decide
  obtain rfl := Option.some.inj (hsecond.symm.trans htext)
  refine ⟨h, above, front, caret, hlines, hfront, ?_⟩
  intro k
  rw [hcaret, hfront]
  omega

/-- **The caret does not stand under the token at fault.**  The one line of this source has a surplus
operand at column 5; the diagnostic shows the line, but the caret below it is not under that
column. -/
theorem caret_not_under_token :
    let cause := "operand count mismatch for ADD: expected 0, got 1"
    (IsPrintable "ADD 7".toList ∧ (Text.lines "ADD 7".toList).length < 10000) ∧
      assemble "ADD 7" = .error (.assembly 1 5 cause) ∧
      ¬PointsAt (render "p.asm" "ADD 7" 1 5 cause).toList "ADD 7".toList (5 - 1) := by
  intro cause
  refine ⟨by decide, ?_, by decide +kernel⟩
  rw [assemble, parse, String.toList_ofList]
  with_unfolding_all rfl

end StackMachine.Assembly.Diagnostic
