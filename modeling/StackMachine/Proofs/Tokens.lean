import StackMachine.Proofs.Spelling

/-!
# Words of a line and their places

Two views of the tokens of a line that do not mention how they are found.

* Their texts are the `pieces` of the line: what is left when the part before the first comment mark
  is cut at every comma and every blank, and empty pieces are dropped.
* Each of them `StandsIn` the line: its column is that of a character, counted in bytes from 1, and
  the bytes of the line go on there with the bytes of the token.
-/

namespace StackMachine

/-- The bytes of two texts, one after the other. -/
@[simp] theorem Text.Utf8.encode_append (xs ys : List Char) :
    encode (xs ++ ys) = encode xs ++ encode ys := by
  rw [encode, List.flatMap_append]
  rfl

namespace Assembly

/-- The part of a line before its first `#`, cut at commas and blanks. -/
def pieces (line : List Char) : List (List Char) :=
  ((line.takeWhile (· != '#')).splitOnP fun c => c == ',' || Text.isBlank c).filter (!·.isEmpty)

namespace Token

/-! ## Texts -/

/-- The characters behind a word are none, or start with a separator. -/
theorem dropWhile_cases (cs : List Char) :
    cs.dropWhile (!isSeparator ·) = [] ∨
      ∃ s rest, cs.dropWhile (!isSeparator ·) = s :: rest ∧ isSeparator s = true := by
  cases h : cs.dropWhile (!isSeparator ·) with
  | nil => exact .inl rfl
  | cons s rest =>
    have hs := List.head_dropWhile_not (!isSeparator ·) (l := cs) (by rw [h]; simp)
    refine .inr ⟨s, rest, rfl, ?_⟩
    simpa [h] using hs

/-- A text that starts with no separator is its first word and what follows. -/
theorem word_append_dropWhile (c : Char) (cs : List Char) :
    (c :: cs.takeWhile (!isSeparator ·)) ++ cs.dropWhile (!isSeparator ·) = c :: cs := by
  rw [List.cons_append, List.takeWhile_append_dropWhile]

/-- Cutting a text after a word gives the word and the pieces of what follows. -/
theorem splitOnP_word {c : Char} (hc : isSeparator c = false) (cs : List Char) :
    ((c :: cs).splitOnP isSeparator).filter (!·.isEmpty) =
      (c :: cs.takeWhile (!isSeparator ·)) ::
        ((cs.dropWhile (!isSeparator ·)).splitOnP isSeparator).filter (!·.isEmpty) := by
  have hword : ∀ d ∈ c :: cs.takeWhile (!isSeparator ·), isSeparator d = false := by
    intro d hd
    rcases List.mem_cons.1 hd with rfl | hd
    · exact hc
    · simpa using List.all_eq_true.1 List.all_takeWhile d hd
  have hsplit := (word_append_dropWhile c cs).symm
  rcases dropWhile_cases cs with hd | ⟨s, rest, hd, hs⟩
  · rw [hd, List.append_nil] at hsplit
    rw [hd, hsplit, List.splitOnP_eq_singleton (hsplit ▸ hword)]
    simp
  · -- The separator that ends the word leaves an empty piece before what follows.
    have hnext : (s :: rest).splitOnP isSeparator = [] :: rest.splitOnP isSeparator := by
      rw [List.splitOnP_cons_eq_if_modifyHead, if_pos hs]
    rw [hd] at hsplit ⊢
    rw [hsplit, List.splitOnP_append_cons_of_forall_mem hword s hs, hnext]
    simp

/-- The texts of the tokens are the pieces between separators. -/
theorem map_text_scan (column : Nat) (cs : List Char) :
    (scan column cs).map text =
      ((cs.splitOnP isSeparator).filter (!·.isEmpty)).map String.ofList := by
  fun_induction scan column cs with
  | case1 column => rfl
  | case2 column c rest hc ih =>
    rw [ih, List.splitOnP_cons_eq_if_modifyHead, if_pos hc]
    rfl
  | case3 column c rest hc word ih =>
    rw [List.map_cons, ih, splitOnP_word (Bool.not_eq_true _ ▸ hc), List.map_cons]

end Token

/-- The words of a line are its pieces. -/
theorem words_eq_map_pieces (line : List Char) : words line = (pieces line).map String.ofList :=
  Token.map_text_scan 1 (Token.beforeComment line)

namespace Token

/-! ## Places -/

/-- A token stands in a line: a character of the line, or its end, has the column of the token, and
from there on the line's bytes start with those of the token. -/
structure StandsIn (token : Token) (line : List Char) : Prop where
  boundary : ∃ before, before <+: line ∧ token.column = 1 + (Text.Utf8.encode before).length
  bytes : Text.Utf8.encode token.text.toList <+:
    (Text.Utf8.encode line).drop (token.column - 1)

/-- A token lies between two parts of the text, and its column counts the bytes of the first. -/
theorem exists_append_of_mem_scan {column : Nat} {cs : List Char} {token : Token}
    (h : token ∈ scan column cs) :
    ∃ before after, cs = before ++ token.text.toList ++ after ∧
      token.column = column + Text.Utf8.width before := by
  fun_induction scan column cs with
  | case1 column => exact absurd h (by simp)
  | case2 column c rest hc ih =>
    obtain ⟨before, after, hcs, hcol⟩ := ih h
    refine ⟨c :: before, after, ?_, ?_⟩
    · rw [hcs]
      rfl
    · rw [hcol, Nat.add_assoc]
      rfl
  | case3 column c rest hc word ih =>
    have hsplit : c :: rest = word ++ rest.dropWhile (!isSeparator ·) :=
      (word_append_dropWhile c rest).symm
    rcases List.mem_cons.1 h with rfl | h
    · refine ⟨[], rest.dropWhile (!isSeparator ·), ?_, rfl⟩
      rw [String.toList_ofList, List.nil_append]
      exact hsplit
    · obtain ⟨before, after, hcs, hcol⟩ := ih h
      refine ⟨word ++ before, after, ?_, ?_⟩
      · rw [hsplit, hcs, List.append_assoc, List.append_assoc, List.append_assoc]
      · rw [hcol, Text.Utf8.width_append, Nat.add_assoc]

/-- A token lies between two parts of its line, and its column counts the bytes of the first. -/
theorem exists_append_of_mem_tokenize {line : List Char} {token : Token}
    (h : token ∈ tokenize line) :
    ∃ before after, line = before ++ (token.text.toList ++ after) ∧
      token.column = 1 + Text.Utf8.width before := by
  obtain ⟨before, after, hcs, hcol⟩ := exists_append_of_mem_scan h
  refine ⟨before, after ++ line.dropWhile (· != '#'), ?_, hcol⟩
  calc line = beforeComment line ++ line.dropWhile (· != '#') :=
        List.takeWhile_append_dropWhile.symm
    _ = _ := by rw [hcs, List.append_assoc, List.append_assoc]

theorem standsIn_of_mem_tokenize {line : List Char} {token : Token} (h : token ∈ tokenize line) :
    token.StandsIn line := by
  obtain ⟨before, after, hline, hcol⟩ := exists_append_of_mem_tokenize h
  rw [← Text.Utf8.length_encode] at hcol
  refine ⟨⟨before, ⟨_, hline.symm⟩, hcol⟩, ?_⟩
  rw [hcol, Nat.add_sub_cancel_left, hline, Text.Utf8.encode_append, List.drop_left,
    Text.Utf8.encode_append]
  exact List.prefix_append _ _

end Token

end Assembly

end StackMachine
