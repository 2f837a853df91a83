import StackMachine.Text.Blank
import StackMachine.Text.Utf8

/-!
# Tokens of a source line

A line of assembly text is cut at its first comment mark.  What stands before the mark is split
into tokens: the longest runs of characters that are neither commas nor blanks.  A token carries
the column of its first character, counted in UTF-8 bytes from 1.
-/

namespace StackMachine.Assembly

/-- A word of a source line and the byte column where it starts. -/
structure Token where
  text : String
  column : Nat
deriving DecidableEq, Repr

namespace Token

/-- The character that starts a comment. -/
def commentMark : Char := '#'

/-- Commas and blanks stand between tokens. -/
def isSeparator (c : Char) : Bool := c == ',' || Text.isBlank c

/-- The part of a line before its comment. -/
def beforeComment (line : List Char) : List Char := line.takeWhile (· != commentMark)

/-- The tokens of a text whose first character has the given column. -/
def scan (column : Nat) (cs : List Char) : List Token :=
  match cs with
  | [] => []
  | c :: rest =>
    if isSeparator c then scan (column + c.utf8Size) rest
    else
      let word := c :: rest.takeWhile (!isSeparator ·)
      ⟨String.ofList word, column⟩ ::
        scan (column + Text.Utf8.width word) (rest.dropWhile (!isSeparator ·))
termination_by cs.length
decreasing_by
  · exact Nat.lt_succ_self _
  · exact Nat.lt_succ_of_le (List.dropWhile_suffix (fun x => !isSeparator x)).length_le

/-- The tokens of a line. -/
def tokenize (line : List Char) : List Token := scan 1 (beforeComment line)

@[simp] theorem scan_nil (column : Nat) : scan column [] = [] := by
  rw [scan]

/-- A separator at the front only moves the column. -/
theorem scan_separator {c : Char} (h : isSeparator c = true) (column : Nat) (rest : List Char) :
    scan column (c :: rest) = scan (column + c.utf8Size) rest := by
  rw [scan, if_pos h]

/-- A token is the longest run without separators. -/
theorem scan_word {c : Char} (h : isSeparator c = false) (column : Nat) (rest : List Char) :
    scan column (c :: rest) =
      ⟨String.ofList (c :: rest.takeWhile (!isSeparator ·)), column⟩ ::
        scan (column + Text.Utf8.width (c :: rest.takeWhile (!isSeparator ·)))
          (rest.dropWhile (!isSeparator ·)) := by
  rw [scan, if_neg (Bool.not_eq_true _ ▸ h)]

/-- A run of characters without separators, before a separator or the end, is one token. -/
theorem scan_run {word rest : List Char} (hne : word ≠ [])
    (hw : ∀ c ∈ word, isSeparator c = false) (hr : ∀ c ∈ rest.head?, isSeparator c = true)
    (column : Nat) :
    scan column (word ++ rest) =
      ⟨String.ofList word, column⟩ :: scan (column + Text.Utf8.width word) rest := by
  have hrest : rest.takeWhile (!isSeparator ·) = [] ∧ rest.dropWhile (!isSeparator ·) = rest := by
    cases rest with
    | nil => exact ⟨rfl, rfl⟩
    | cons c cs => simp [hr c rfl]
  cases word with
  | nil => exact absurd rfl hne
  | cons c cs =>
    have hcs : ∀ d ∈ cs, (!isSeparator d) = true := by
      intro d hd
      rw [hw d (List.mem_cons_of_mem _ hd)]
      rfl
    rw [List.cons_append, scan_word (hw c List.mem_cons_self),
      List.takeWhile_append_of_pos hcs, List.dropWhile_append_of_pos hcs, hrest.1, hrest.2,
      List.append_nil]

/-! ## Plain words -/

/-- Characters that neither separate tokens nor start a comment. -/
def IsPlain (cs : List Char) : Prop := ∀ c ∈ cs, isSeparator c = false ∧ c ≠ commentMark

instance : DecidablePred IsPlain := fun cs =>
  List.decidableBAll (fun c => isSeparator c = false ∧ c ≠ commentMark) cs

theorem IsPlain.append {xs ys : List Char} (hx : IsPlain xs) (hy : IsPlain ys) :
    IsPlain (xs ++ ys) := by
  intro c hc
  rcases List.mem_append.1 hc with h | h
  · exact hx c h
  · exact hy c h

/-- A line without comment mark is kept whole. -/
theorem beforeComment_of_not_mem {line : List Char} (h : commentMark ∉ line) :
    beforeComment line = line := by
  have hall : ∀ c ∈ line, (c != commentMark) = true := by
    intro c hc
    exact bne_iff_ne.2 fun he => h (he ▸ hc)
  have ht : (line ++ []).takeWhile (· != commentMark) = line ++ [].takeWhile (· != commentMark) :=
    List.takeWhile_append_of_pos hall
  rwa [List.append_nil, List.takeWhile_nil, List.append_nil] at ht

/-- A plain word before a separator or the end is one token. -/
theorem scan_plain {word rest : List Char} (hne : word ≠ []) (hp : IsPlain word)
    (hr : ∀ c ∈ rest.head?, isSeparator c = true) (column : Nat) :
    scan column (word ++ rest) =
      ⟨String.ofList word, column⟩ :: scan (column + Text.Utf8.width word) rest :=
  scan_run hne (fun c hc => (hp c hc).1) hr column

theorem scan_plain_end {word : List Char} (hne : word ≠ []) (hp : IsPlain word) (column : Nat) :
    scan column word = [⟨String.ofList word, column⟩] := by
  have hs : scan column (word ++ []) =
      ⟨String.ofList word, column⟩ :: scan (column + Text.Utf8.width word) [] :=
    scan_plain hne hp (by simp) column
  rwa [List.append_nil, scan_nil] at hs

/-- A line of one plain word. -/
theorem tokenize_plain {word : List Char} (hne : word ≠ []) (hp : IsPlain word) :
    tokenize word = [⟨String.ofList word, 1⟩] := by
  have hm : commentMark ∉ word := fun h => (hp _ h).2 rfl
  rw [tokenize, beforeComment_of_not_mem hm, scan_plain_end hne hp]

/-- A line of two plain words with a space between them. -/
theorem tokenize_plain_space_plain {left right : List Char} (hl : left ≠ []) (hr : right ≠ [])
    (hpl : IsPlain left) (hpr : IsPlain right) :
    tokenize (left ++ ' ' :: right) =
      [⟨String.ofList left, 1⟩,
        ⟨String.ofList right, 1 + Text.Utf8.width left + ' '.utf8Size⟩] := by
  have hm : commentMark ∉ left ++ ' ' :: right := by
    intro h
    rcases List.mem_append.1 h with h | h
    · exact (hpl _ h).2 rfl
    · rcases List.mem_cons.1 h with h | h
      · exact absurd h (by decide)
      · exact (hpr _ h).2 rfl
  have hsep : isSeparator ' ' = true := by decide
  rw [tokenize, beforeComment_of_not_mem hm, scan_plain hl hpl (by simpa using hsep),
    scan_separator hsep, scan_plain_end hr hpr]

end Token

end StackMachine.Assembly
