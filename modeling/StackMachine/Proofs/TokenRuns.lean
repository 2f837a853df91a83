import Mathlib.Data.List.Basic
import Mathlib.Data.List.Chain
import StackMachine.Proofs.ByteSlices
import StackMachine.Proofs.Tokens

/-!
# The tokens of a line are its longest words

A word of a text fills it between two parts, holds no separator and cannot be made longer
(`IsWord`).  This says what a token is without saying how it is found.

The scan goes through the text from the front and either passes a separator or takes a word.  Each
of the two steps leaves the words of the rest in place: what a text has in front of its rest only
moves them (`isWord_cons_iff`, `isWord_append_iff`).  So the scan finds the words of the text, each
with its column (`mem_scan_iff`), in order and with a gap between one and the next
(`isChain_scan`).  A character that is no separator lies in a word, hence in a token.

The same tokens are found in one pass over the characters that remembers where the last word began,
and cuts it out of the text by bytes when a separator or the end is reached (`pass?_eq_tokenize`).
-/

namespace StackMachine.Assembly.Token

open Text.Utf8 (width encode)

/-- A comma or a blank. -/
def IsBreak (c : Char) : Prop := c = ',' ∨ Text.isBlank c = true

instance (c : Char) : Decidable (IsBreak c) :=
  inferInstanceAs (Decidable (c = ',' ∨ Text.isBlank c = true))

theorem isSeparator_iff {c : Char} : isSeparator c = true ↔ IsBreak c := by
  rw [isSeparator, Bool.or_eq_true, beq_iff_eq]
  rfl

theorem not_isBreak_of_mem_takeWhile {c : Char} {cs : List Char}
    (h : c ∈ cs.takeWhile (!isSeparator ·)) : ¬IsBreak c := by
  have hc := List.all_eq_true.1 List.all_takeWhile c h
  rw [← isSeparator_iff]
  simpa using hc

/-- A text is a part before a word, the word, and a part behind it.  The word is not empty and holds
no separator.  It cannot be made longer: a separator ends the part before it and starts the part
behind it, where these are not empty. -/
structure IsWord (text before word after : List Char) : Prop where
  append : text = before ++ (word ++ after)
  ne_nil : word ≠ []
  inside : ∀ c ∈ word, ¬IsBreak c
  left : ∀ c ∈ before.getLast?, IsBreak c
  right : ∀ c ∈ after.head?, IsBreak c

variable {column : Nat} {c : Char} {cs before word after rest w : List Char} {t u : Token}

/-! ## Words of a text -/

/-- The word that a text starts with is the longest one. -/
theorem IsWord.takeWhile_eq (h : IsWord cs [] word after) :
    cs.takeWhile (!isSeparator ·) = word := by
  have hw : ∀ c ∈ word, (!isSeparator c) = true := by
    intro c hc
    rw [Bool.not_eq_true', ← Bool.not_eq_true, isSeparator_iff]
    exact h.inside c hc
  rw [h.append, List.nil_append, List.takeWhile_append_of_pos hw]
  cases ha : after with
  | nil => rw [List.takeWhile_nil, List.append_nil]
  | cons c cs =>
    have hc : isSeparator c = true := isSeparator_iff.2 (h.right c (by rw [ha]; rfl))
    rw [List.takeWhile_cons_of_neg (by simp [hc]), List.append_nil]

/-- A separator in front moves the words of a text and adds none. -/
theorem isWord_cons_iff (hc : IsBreak c) :
    IsWord (c :: rest) before w after ↔ ∃ b, before = c :: b ∧ IsWord rest b w after := by
  constructor
  · intro h
    cases before with
    | nil =>
      obtain ⟨d, ds, rfl⟩ := List.exists_cons_of_ne_nil h.ne_nil
      obtain ⟨rfl, _⟩ := List.cons.inj h.append
      exact absurd hc (h.inside c List.mem_cons_self)
    | cons d b =>
      obtain ⟨rfl, hrest⟩ := List.cons.inj h.append
      refine ⟨b, rfl, hrest, h.ne_nil, h.inside, ?_, h.right⟩
      intro e he
      cases b with
      | nil => exact absurd he (by simp)
      | cons f fs => exact h.left e (by rwa [List.getLast?_cons_cons])
  · rintro ⟨b, rfl, h⟩
    refine ⟨?_, h.ne_nil, h.inside, ?_, h.right⟩
    · rw [h.append]
      rfl
    · intro e he
      cases b with
      | nil =>
        obtain rfl := Option.some.inj he
        exact hc
      | cons f fs => exact h.left e (by rwa [List.getLast?_cons_cons] at he)

/-- A text that starts with a word has this word, and those of the rest behind it. -/
theorem isWord_append_iff (h : IsWord (word ++ rest) [] word rest) :
    IsWord (word ++ rest) before w after ↔
      (before = [] ∧ w = word) ∧ after = rest ∨
        ∃ b, before = word ++ b ∧ IsWord rest b w after := by
  constructor
  · intro hw
    rcases List.append_eq_append_iff.1 hw.append with ⟨b, rfl, hb⟩ | ⟨k, hk, hrest⟩
    · refine .inr ⟨b, rfl, hb, hw.ne_nil, hw.inside, ?_, hw.right⟩
      intro c hc
      apply hw.left c
      rw [List.getLast?_append, hc]
      rfl
    · -- What lies before `w` lies in the word, so it does not end with a separator.
      have hbefore : before = [] := by
        rcases before.eq_nil_or_concat with hn | ⟨b, c, hbc⟩
        · exact hn
        · rw [List.concat_eq_append] at hbc
          have hc : c ∈ word := by
            rw [hk, hbc]
            simp
          exact absurd (hw.left c (by rw [hbc]; simp)) (h.inside c hc)
      subst hbefore
      have heq : w = word := hw.takeWhile_eq.symm.trans h.takeWhile_eq
      refine .inl ⟨⟨rfl, heq⟩, ?_⟩
      have happend := hw.append
      rw [List.nil_append, heq] at happend
      exact (List.append_cancel_left happend).symm
  · rintro (⟨⟨rfl, rfl⟩, rfl⟩ | ⟨b, rfl, hw⟩)
    · exact h
    · have hb : b ≠ [] := by
        rintro rfl
        obtain ⟨c, ds, hc⟩ := List.exists_cons_of_ne_nil hw.ne_nil
        refine hw.inside c (by simp [hc]) (h.right c ?_)
        rw [hw.append, hc]
        rfl
      refine ⟨?_, hw.ne_nil, hw.inside, ?_, hw.right⟩
      · rw [hw.append, List.append_assoc]
      · rw [List.getLast?_append_of_ne_nil _ hb]
        exact hw.left

/-- A character that no separator precedes starts a word. -/
theorem isWord_takeWhile (hc : ¬IsBreak c) (cs : List Char) :
    IsWord ((c :: cs.takeWhile (!isSeparator ·)) ++ cs.dropWhile (!isSeparator ·)) []
      (c :: cs.takeWhile (!isSeparator ·)) (cs.dropWhile (!isSeparator ·)) where
  append := rfl
  ne_nil := List.cons_ne_nil _ _
  inside := by
    intro d hd
    rcases List.mem_cons.1 hd with rfl | hd
    · exact hc
    · exact not_isBreak_of_mem_takeWhile hd
  left := by simp
  right := by
    intro d hd
    rcases dropWhile_cases cs with hn | ⟨s, rest, hs, hsep⟩
    · rw [hn] at hd
      exact absurd hd (by simp)
    · rw [hs] at hd
      rw [← Option.some.inj hd]
      exact isSeparator_iff.1 hsep

/-- A character that is no separator lies in a word. -/
theorem exists_isWord_of_not_isBreak (hc : ¬IsBreak c) (before after : List Char) :
    ∃ a x y b, before = a ++ x ∧ IsWord (before ++ c :: after) a (x ++ c :: y) b := by
  induction before with
  | nil =>
    have h := isWord_takeWhile hc after
    rw [word_append_dropWhile] at h
    exact ⟨[], [], _, _, rfl, h⟩
  | cons d before ih =>
    obtain ⟨a, x, y, b, rfl, h⟩ := ih
    by_cases hd : IsBreak d
    · exact ⟨d :: a, x, y, b, rfl, (isWord_cons_iff hd).2 ⟨a, rfl, h⟩⟩
    · cases a with
      | nil =>
        -- The word starts the text, and the character in front makes it longer.
        refine ⟨[], d :: x, y, b, rfl, congrArg (d :: ·) h.append, List.cons_ne_nil _ _, ?_,
          by simp, h.right⟩
        intro e he
        rcases List.mem_cons.1 he with rfl | he
        · exact hd
        · exact h.inside e he
      | cons e a =>
        refine ⟨d :: e :: a, x, y, b, rfl, congrArg (d :: ·) h.append, h.ne_nil, h.inside, ?_,
          h.right⟩
        rw [List.getLast?_cons_cons]
        exact h.left

/-! ## The scan -/

/-- **The scan finds the words of a text, each with its column.** -/
theorem mem_scan_iff :
    t ∈ scan column cs ↔
      ∃ before after, IsWord cs before t.text.toList after ∧ t.column = column + width before := by
  fun_induction scan column cs with
  | case1 column =>
    constructor
    · intro h
      exact absurd h (by simp)
    · rintro ⟨before, after, h, _⟩
      have hnil := List.append_eq_nil_iff.1 h.append.symm
      exact absurd (List.append_eq_nil_iff.1 hnil.2).1 h.ne_nil
  | case2 column c rest hc ih =>
    rw [ih]
    constructor
    · rintro ⟨b, after, h, hcol⟩
      refine ⟨c :: b, after, (isWord_cons_iff (isSeparator_iff.1 hc)).2 ⟨b, rfl, h⟩, ?_⟩
      rw [hcol, width, Nat.add_assoc]
    · rintro ⟨before, after, h, hcol⟩
      obtain ⟨b, rfl, hb⟩ := (isWord_cons_iff (isSeparator_iff.1 hc)).1 h
      refine ⟨b, after, hb, ?_⟩
      rw [hcol, width, Nat.add_assoc]
  | case3 column c rest hc word ih =>
    have hword := isWord_takeWhile (fun hb => hc (isSeparator_iff.2 hb)) rest
    have hsplit : c :: rest = word ++ rest.dropWhile (!isSeparator ·) :=
      (word_append_dropWhile c rest).symm
    rw [hsplit, List.mem_cons, ih]
    constructor
    · rintro (rfl | ⟨b, after, h, hcol⟩)
      · refine ⟨[], rest.dropWhile (!isSeparator ·), ?_, rfl⟩
        rw [String.toList_ofList]
        exact hword
      · refine ⟨word ++ b, after, (isWord_append_iff hword).2 (.inr ⟨b, rfl, h⟩), ?_⟩
        rw [hcol, Text.Utf8.width_append, Nat.add_assoc]
    · rintro ⟨before, after, h, hcol⟩
      rcases (isWord_append_iff hword).1 h with ⟨⟨rfl, ht⟩, _⟩ | ⟨b, rfl, hb⟩
      · left
        obtain ⟨text, start⟩ := t
        rw [mk.injEq, ← String.ofList_toList (s := text), ht]
        exact ⟨rfl, hcol⟩
      · refine .inr ⟨b, after, hb, ?_⟩
        rw [hcol, Text.Utf8.width_append, Nat.add_assoc]

/-- Two tokens of a text whose first character has a column: the second follows the first, and the
gap between them holds separators only and is not empty. -/
def Next (column : Nat) (cs : List Char) (t u : Token) : Prop :=
  ∃ before gap after, cs = before ++ (t.text.toList ++ (gap ++ (u.text.toList ++ after))) ∧
    t.column = column + (encode before).length ∧
    u.column = t.column + (encode t.text.toList).length + (encode gap).length ∧
    gap ≠ [] ∧ ∀ c ∈ gap, IsBreak c

/-- What stands in front of a text leaves its tokens next to each other. -/
theorem Next.behind (front : List Char) (h : Next (column + width front) cs t u) :
    Next column (front ++ cs) t u := by
  obtain ⟨before, gap, after, hcs, ht, hu, hne, hg⟩ := h
  refine ⟨front ++ before, gap, after, ?_, ?_, hu, hne, hg⟩
  · rw [hcs, List.append_assoc]
  · rw [ht, Text.Utf8.encode_append, List.length_append, Text.Utf8.length_encode front,
      Nat.add_assoc]

/-- Separators stand in front of the first token. -/
theorem exists_gap_of_head (h : t ∈ (scan column cs).head?) :
    ∃ gap after, cs = gap ++ (t.text.toList ++ after) ∧
      t.column = column + (encode gap).length ∧ ∀ c ∈ gap, IsBreak c := by
  fun_induction scan column cs with
  | case1 column => exact absurd h (by simp)
  | case2 column c rest hc ih =>
    obtain ⟨gap, after, rfl, ht, hg⟩ := ih h
    refine ⟨c :: gap, after, rfl, ?_, ?_⟩
    · rw [ht, Text.Utf8.length_encode, Text.Utf8.length_encode, width, Nat.add_assoc]
    · intro d hd
      rcases List.mem_cons.1 hd with rfl | hd
      · exact isSeparator_iff.1 hc
      · exact hg d hd
  | case3 column c rest hc word ih =>
    obtain rfl := Option.some.inj h
    refine ⟨[], rest.dropWhile (!isSeparator ·), ?_, rfl, by simp⟩
    rw [String.toList_ofList]
    exact (word_append_dropWhile c rest).symm

/-- **The scan finds words in order, each next to the one before.** -/
theorem isChain_scan (column : Nat) (cs : List Char) :
    (scan column cs).IsChain (Next column cs) := by
  fun_induction scan column cs with
  | case1 column => exact .nil
  | case2 column c rest hc ih =>
    apply ih.imp
    intro t u h
    exact Next.behind [c] h
  | case3 column c rest hc word ih =>
    have hsplit : c :: rest = word ++ rest.dropWhile (!isSeparator ·) :=
      (word_append_dropWhile c rest).symm
    rw [hsplit, List.isChain_cons]
    constructor
    · intro u hu
      obtain ⟨gap, after, hrest, hcol, hg⟩ := exists_gap_of_head hu
      refine ⟨[], gap, after, ?_, rfl, ?_, ?_, hg⟩
      · rw [hrest, String.toList_ofList]
        rfl
      · rw [hcol, String.toList_ofList, Text.Utf8.length_encode word]
      · -- Without a gap the word would go on with the first character of the next token.
        rintro rfl
        obtain ⟨_, _, hu, _⟩ := mem_scan_iff.1 (List.mem_of_head? hu)
        obtain ⟨d, ds, hd⟩ := List.exists_cons_of_ne_nil hu.ne_nil
        have hword := isWord_takeWhile (fun hb => hc (isSeparator_iff.2 hb)) rest
        refine hu.inside d (by simp [hd]) (hword.right d ?_)
        rw [hrest, hd]
        rfl
    · exact ih.imp fun t u h => h.behind word

/-! ## One pass -/

/-- The token between two byte indices of a text. -/
def cut? (text : List Char) (start stop : Nat) : Option Token :=
  (Text.Utf8.slice? text start stop).map fun part => ⟨String.ofList part, start + 1⟩

/-- One pass over a text.  It has come to a byte index, with some characters left, and may have passed
the start of a word that has not ended yet.  A separator ends the word, and so does the end of the
text. -/
def pass? (text : List Char) (start? : Option Nat) (index : Nat) :
    List Char → Option (List Token)
  | [] =>
    match start? with
    | none => some []
    | some start => (cut? text start index).map ([·])
  | c :: rest =>
    match start?, isSeparator c with
    | none, false => pass? text (some index) (index + c.utf8Size) rest
    | some start, true => do
      let token ← cut? text start index
      let tokens ← pass? text none (index + c.utf8Size) rest
      return token :: tokens
    | start?, _ => pass? text start? (index + c.utf8Size) rest

/-- The token between two parts of a text. -/
theorem cut?_width (before word after : List Char) :
    cut? (before ++ (word ++ after)) (width before) (width before + width word) =
      some ⟨String.ofList word, width before + 1⟩ := by
  rw [cut?, Text.Utf8.slice?_width]
  rfl

/-- What a pass finds in the rest of a text.  Outside of a word it finds the tokens of the rest, and
inside of one those of the word and the rest. -/
theorem pass?_eq_scan (rest : List Char) :
    (∀ before, pass? (before ++ rest) none (width before) rest =
      some (scan (width before + 1) rest)) ∧
    ∀ before c word, (∀ d ∈ c :: word, isSeparator d = false) →
      pass? (before ++ (c :: word ++ rest)) (some (width before))
          (width before + width (c :: word)) rest =
        some (scan (width before + 1) (c :: word ++ rest)) := by
  -- A word starts outside of one and a separator ends it, so the two halves need each other.
  induction rest with
  | nil =>
    refine ⟨fun before => by simp [pass?], ?_⟩
    intro before c word hw
    rw [pass?, cut?_width, scan_run (List.cons_ne_nil c word) hw (by simp), scan_nil]
    rfl
  | cons d rest ih =>
    obtain ⟨outside, inside⟩ := ih
    cases hd : isSeparator d with
    | true =>
      -- Behind a separator the pass is outside of a word.
      have hnext (before : List Char) :
          pass? (before ++ d :: rest) none (width before + d.utf8Size) rest =
            some (scan (width before + 1 + d.utf8Size) rest) := by
        have h := outside (before ++ [d])
        rwa [List.append_assoc, Text.Utf8.width_append, width, width, Nat.add_zero,
          Nat.add_right_comm] at h
      constructor
      · intro before
        rw [pass?.eq_def, scan_separator hd]
        simp only [hd]
        exact hnext before
      · intro before c word hw
        have h := hnext (before ++ c :: word)
        rw [List.append_assoc, Text.Utf8.width_append,
          Nat.add_right_comm (width before) (width (c :: word)) 1] at h
        rw [pass?.eq_def, scan_run (List.cons_ne_nil c word) hw (by simpa using hd),
          scan_separator hd]
        simp only [hd, cut?_width, h, Option.bind_eq_bind, Option.bind_some]
        rfl
    | false =>
      constructor
      · intro before
        have h := inside before d [] (by simpa using hd)
        rw [pass?.eq_def]
        simp only [hd]
        exact h
      · intro before c word hw
        have hword : ∀ e ∈ c :: (word ++ [d]), isSeparator e = false := by
          intro e he
          rw [← List.cons_append, List.mem_append, List.mem_singleton] at he
          rcases he with he | rfl
          · exact hw e he
          · exact hd
        have h := inside before c (word ++ [d]) hword
        rw [pass?.eq_def]
        simp only [hd]
        simpa [width, Nat.add_assoc] using h

/-- **The tokens of a line are found in one pass.**  All words are cut out between characters. -/
theorem pass?_eq_tokenize (line : List Char) :
    pass? (beforeComment line) none 0 (beforeComment line) = some (tokenize line) :=
  (pass?_eq_scan (beforeComment line)).1 []

/-! ## Lines -/

theorem Next.column_lt (h : Next column cs t u) : t.column < u.column := by
  obtain ⟨_, gap, _, _, _, hu, hne, _⟩ := h
  obtain ⟨c, gap, rfl⟩ := List.exists_cons_of_ne_nil hne
  have hgap : 0 < (encode (c :: gap)).length := by
    rw [Text.Utf8.length_encode, width]
    exact Nat.add_pos_left c.utf8Size_pos _
  omega

/-- **The tokens of a line are its longest words.**  Let `code` be what stands before the first `#`.

A token is a word of `code` that cannot be made longer, with the place of its first byte, counted
from 1, and each such word is a token.  Their columns increase.  Each token is next to the one before
it, with a gap between them that holds separators and is not empty.  At its column, the bytes of the
line are those of the token.  A character of `code` is a separator or lies in a token. -/
theorem tokenize_longest_words (line : List Char) :
    let code := line.takeWhile (· != '#')
    (∀ token : Token, token ∈ tokenize line ↔ ∃ before after,
      IsWord code before token.text.toList after ∧ token.column = 1 + (encode before).length) ∧
    (tokenize line).Pairwise (·.column < ·.column) ∧
    (tokenize line).IsChain (Next 1 code) ∧
    (∀ token ∈ tokenize line,
      ((encode line).drop (token.column - 1)).take (encode token.text.toList).length =
        encode token.text.toList) ∧
    ∀ before c after, code = before ++ c :: after →
      IsBreak c ∨ ∃ token ∈ tokenize line, ∃ front x y, before = front ++ x ∧
        token.text.toList = x ++ c :: y ∧ token.column = 1 + (encode front).length := by
  intro code
  have hmem (token : Token) : token ∈ tokenize line ↔ ∃ before after,
      IsWord code before token.text.toList after ∧ token.column = 1 + (encode before).length := by
    simp only [Text.Utf8.length_encode]
    exact mem_scan_iff
  have hchain : (tokenize line).IsChain (Next 1 code) := isChain_scan 1 code
  refine ⟨hmem, ?_, hchain, ?_, ?_⟩
  · have hlt : (tokenize line).IsChain (·.column < ·.column) :=
      hchain.imp fun t u h => h.column_lt
    exact List.isChain_iff_pairwise.1 hlt
  · intro token ht
    have hbytes := (standsIn_of_mem_tokenize ht).bytes
    exact (List.prefix_iff_eq_take.1 hbytes).symm
  · intro before c after hcode
    by_cases hc : IsBreak c
    · exact .inl hc
    · obtain ⟨front, x, y, b, hbefore, hword⟩ := exists_isWord_of_not_isBreak hc before after
      rw [← hcode] at hword
      refine .inr ⟨⟨String.ofList (x ++ c :: y), 1 + (encode front).length⟩, ?_, front, x, y,
        hbefore, String.toList_ofList, rfl⟩
      rw [hmem]
      refine ⟨front, b, ?_, rfl⟩
      rw [String.toList_ofList]
      exact hword

/-- A blank of two bytes, a token, two separators, a token of one character and two bytes, and a
comment: the second token has column 8 and two bytes. -/
theorem tokenize_longest_words_wide :
    let line := "\u00a0ADD,,ü#7".toList
    (⟨"ü", 8⟩ : Token) ∈ tokenize line ∧
      ((encode line).drop 7).take (encode ['ü']).length = encode ['ü'] := by
  intro line
  obtain ⟨hmem, _, _, hbytes, _⟩ := tokenize_longest_words line
  have hword : IsWord (line.takeWhile (· != '#')) "\u00a0ADD,,".toList ['ü'] [] := by
    refine ⟨rfl, List.cons_ne_nil _ _, List.forall_mem_singleton.2 (by decide), ?_, by simp⟩
    intro c hc
    obtain rfl : c = ',' := (Option.some.inj hc).symm
    exact .inl rfl
  have hü : (⟨"ü", 8⟩ : Token) ∈ tokenize line := (hmem ⟨"ü", 8⟩).2 ⟨_, _, hword, rfl⟩
  exact ⟨hü, hbytes _ hü⟩

end StackMachine.Assembly.Token
