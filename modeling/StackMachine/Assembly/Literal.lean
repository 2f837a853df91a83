import StackMachine.Bytes
import StackMachine.Error

/-!
# Integer literals

A literal is a decimal numeral, or `0x` followed by a hexadecimal one.  An underscore may stand
between digits, but not first or last.  A literal for `width` bytes is a value that so
many bytes can take, and never above a 64-bit word.
-/

namespace StackMachine.Assembly.Literal

/-- The character that may separate digits. -/
def separator : Char := '_'

/-- The radix of a literal and the digits that follow its mark. -/
def radix : List Char → Nat × List Char
  | '0' :: 'x' :: body => (16, body)
  | body => (10, body)

/-- The value of a digit string with separators, none of them first or last. -/
def readBody (base : Nat) (body : List Char) : Option Nat :=
  if body.head? = some separator ∨ body.getLast? = some separator then none
  else Text.readDigits base (body.filter (· != separator))

/-- The value of a literal, whatever its size. -/
def read? (cs : List Char) : Option Nat := readBody (radix cs).1 (radix cs).2

/-- The values of a literal for `width` bytes lie below this bound. -/
def bound (width : Nat) : Nat := Bytes.count (min width 8)

/-- The value of a token as a literal for `width` bytes. -/
def parse (token : String) (width : Nat) : Result Nat :=
  match read? token.toList with
  | some value => if value < bound width then .ok value else .error (.invalidOperand token width)
  | none => .error (.invalidOperand token width)

/-- A body without separators is read as its digits. -/
theorem readBody_of_not_mem {body : List Char} (h : separator ∉ body) (base : Nat) :
    readBody base body = Text.readDigits base body := by
  have hhead : body.head? ≠ some separator := fun hc => h (List.mem_of_head? hc)
  have hlast : body.getLast? ≠ some separator := fun hc => h (List.mem_of_getLast? hc)
  have hfilter : body.filter (· != separator) = body := by
    apply List.filter_eq_self.2
    intro c hc
    exact bne_iff_ne.2 fun he => h (he ▸ hc)
  rw [readBody, if_neg (not_or.2 ⟨hhead, hlast⟩), hfilter]

/-- A token is a literal exactly if it reads as a number below the bound. -/
theorem parse_eq_ok_iff {token : String} {width value : Nat} :
    parse token width = .ok value ↔ read? token.toList = some value ∧ value < bound width := by
  unfold parse
  cases read? token.toList with
  | none => simp
  | some n =>
    by_cases h : n < bound width
    · simp only [h, if_true, Except.ok.injEq, Option.some.injEq]
      constructor
      · rintro rfl
        exact ⟨rfl, h⟩
      · exact And.left
    · simp only [h, if_false, Option.some.injEq]
      constructor
      · exact fun e => absurd e (by simp)
      · rintro ⟨rfl, hv⟩
        exact absurd hv h

/-- A token that is no literal is quoted in the error. -/
theorem parse_eq_error {token : String} {width : Nat} {e : Error}
    (h : parse token width = .error e) : e = .invalidOperand token width := by
  unfold parse at h
  split at h
  · split at h
    · exact absurd h (by simp)
    · exact (Except.error.inj h).symm
  · exact (Except.error.inj h).symm

end StackMachine.Assembly.Literal
