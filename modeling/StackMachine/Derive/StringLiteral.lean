import StackMachine.Text.Extender
import StackMachine.Text.Ignorable
import StackMachine.Text.Numeral
import StackMachine.Text.Printable

/-!
# String literals

A string literal of a declaration, in one of two forms.  A quoted literal stands between quotes,
with escapes that start with a backslash; a line end in it is one newline, and a backslash at the
end of a line joins the line with the next one, without the margin there.  A raw literal opens with
`r`, any number of hash signs and a quote, and holds everything up to a quote with as many hash
signs as they are.

`read?` gives the value of the literal at the front of a text and what follows it; `write` gives a
quoted literal of a value.
-/

namespace StackMachine.Derive.StringLiteral

/-- A value that was read, and the text behind it. -/
abbrev Reading := List Char × List Char

/-- The reading with characters put before its value. -/
def Reading.after (r : Reading) (before : List Char) : Reading := (before ++ r.1, r.2)

/-- The escapes of one letter. -/
def letters : List (Char × Char) :=
  [('n', '\n'), ('r', '\r'), ('t', '\t'), ('0', '\x00'), ('\\', '\\'), ('\'', '\''), ('"', '"')]

/-- The characters that a joined line may start with. -/
def isMargin (c : Char) : Bool := c == ' ' || c == '\t' || c == '\n' || c == '\r'

/-- The character of a code point, if it is one. -/
def character? (n : Nat) : Option Char := if n.isValidChar then some (Char.ofNat n) else none

/-- Two hexadecimal digits that stand for an ASCII character. -/
def byteEscape : List Char → Option Reading
  | high :: low :: rest =>
    match Text.readDigits 16 [high, low] with
    | some n => if n < 0x80 then some ([Char.ofNat n], rest) else none
    | none => none
  | _ => none

/-- The value of one to six hexadecimal digits with underscores among them, none of them first. -/
def codePoint? (digits : List Char) : Option Char :=
  let plain := digits.filter (· != '_')
  if digits.head? = some '_' ∨ 6 < plain.length then none
  else (Text.readDigits 16 plain).bind character?

/-- A code point in curly brackets. -/
def pointEscape : List Char → Option Reading
  | '\x7b' :: cs =>
    let digits := cs.takeWhile (· != '\x7d')
    match cs.dropWhile (· != '\x7d') with
    | [] => none
    | _ :: rest => (codePoint? digits).map fun c => ([c], rest)
  | _ => none

/-- What an escape stands for, given the text behind its backslash. -/
def escape : List Char → Option Reading
  | [] => none
  | 'x' :: cs => byteEscape cs
  | 'u' :: cs => pointEscape cs
  | '\n' :: cs => some ([], cs.dropWhile isMargin)
  | '\r' :: '\n' :: cs => some ([], cs.dropWhile isMargin)
  | c :: cs => (letters.lookup c).map fun d => ([d], cs)

/-- What follows two digits is shorter. -/
theorem length_le_of_byteEscape {cs : List Char} {r : Reading} (h : byteEscape cs = some r) :
    r.2.length ≤ cs.length := by
  unfold byteEscape at h
  split at h
  · split at h
    · split at h
      · obtain rfl := Option.some.inj h
        exact Nat.le_succ_of_le (Nat.le_succ _)
      · exact absurd h (by simp)
    · exact absurd h (by simp)
  · exact absurd h (by simp)

/-- What follows a code point is shorter. -/
theorem length_le_of_pointEscape {cs : List Char} {r : Reading} (h : pointEscape cs = some r) :
    r.2.length ≤ cs.length := by
  unfold pointEscape at h
  split at h
  · rename_i cs'
    have hs := (List.dropWhile_suffix (fun c => c != '\x7d') (l := cs')).length_le
    simp only at h
    split at h
    · exact absurd h (by simp)
    · rename_i hd
      rw [hd, List.length_cons] at hs
      obtain ⟨c, _, rfl⟩ := Option.map_eq_some_iff.1 h
      rw [List.length_cons]
      exact Nat.le_of_lt (Nat.lt_succ_of_lt hs)
  · exact absurd h (by simp)

/-- What follows an escape is shorter. -/
theorem length_lt_of_escape {cs : List Char} {r : Reading} (h : escape cs = some r) :
    r.2.length < cs.length := by
  have hm (l : List Char) := (List.dropWhile_suffix isMargin (l := l)).length_le
  unfold escape at h
  split at h
  · exact absurd h (by simp)
  · exact Nat.lt_succ_of_le (length_le_of_byteEscape h)
  · exact Nat.lt_succ_of_le (length_le_of_pointEscape h)
  · obtain rfl := Option.some.inj h
    exact Nat.lt_succ_of_le (hm _)
  · obtain rfl := Option.some.inj h
    exact Nat.lt_succ_of_lt (Nat.lt_succ_of_le (hm _))
  · obtain ⟨d, _, rfl⟩ := Option.map_eq_some_iff.1 h
    exact Nat.lt_succ_self _

/-- The value of a quoted literal, from behind its first quote. -/
def quoted (cs : List Char) : Option Reading :=
  match cs with
  | [] => none
  | '"' :: rest => some ([], rest)
  | '\\' :: rest =>
    match h : escape rest with
    | none => none
    | some r =>
      have : r.2.length < rest.length := length_lt_of_escape h
      (quoted r.2).map (·.after r.1)
  | '\r' :: '\n' :: rest => (quoted rest).map (·.after ['\n'])
  | c :: rest => if c = '\r' then none else (quoted rest).map (·.after [c])
termination_by cs.length
decreasing_by
  · exact Nat.lt_succ_of_lt this
  · exact Nat.lt_succ_of_lt (Nat.lt_succ_self _)
  · exact Nat.lt_succ_self _

/-- The value of a raw literal, from behind its first quote, given its hash signs. -/
def rawBody (hashes : List Char) : List Char → Option Reading
  | [] => none
  | c :: rest =>
    if c = '"' ∧ hashes.isPrefixOf rest = true then some ([], rest.drop hashes.length)
    else if c = '\r' ∧ rest.head? ≠ some '\n' then none
    else (rawBody hashes rest).map (·.after [c])

/-- The value of a raw literal, from behind its letter. -/
def raw (cs : List Char) : Option Reading :=
  match cs.dropWhile (· == '#') with
  | '"' :: rest => rawBody (cs.takeWhile (· == '#')) rest
  | _ => none

/-- The value of the literal at the front of a text. -/
def read? : List Char → Option Reading
  | '"' :: rest => quoted rest
  | 'r' :: rest => raw rest
  | _ => none

/-- Whether a character is an octal digit. -/
def isOctal (c : Char) : Bool := '0' ≤ c && c ≤ '7'

/-- A character that would not be seen in a literal, or not as a character of its own. -/
def isHidden (c : Char) : Bool := Text.isCombining c || Text.isIgnorable c || !Text.isPrintable c

/-- A character as a quoted literal shows it, given what follows it.  A null before an octal digit
is shown by two digits, and a hidden character by its code point. -/
def shown (c : Char) (rest : List Char) : List Char :=
  if c = '\x00' then
    if rest.head?.any isOctal then ['\\', 'x', '0', '0'] else ['\\', '0']
  else if c = '\n' then ['\\', 'n']
  else if c = '\r' then ['\\', 'r']
  else if c = '\t' then ['\\', 't']
  else if c = '\\' ∨ c = '"' then ['\\', c]
  else if isHidden c then '\\' :: 'u' :: '\x7b' :: Text.hexadecimal c.toNat ++ ['\x7d']
  else [c]

/-- The inside of a quoted literal of a value. -/
def body : List Char → List Char
  | [] => []
  | c :: rest => shown c rest ++ body rest

/-- A quoted literal of a value. -/
def write (value : List Char) : List Char := '"' :: body value ++ ['"']

@[simp] theorem body_nil : body [] = [] := rfl

@[simp] theorem quoted_nil : quoted [] = none := by
  rw [quoted]

end StackMachine.Derive.StringLiteral
