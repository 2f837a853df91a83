/-!
# Numerals

Positional numerals: the value of a digit, the value of a string of digits, and the shortest
decimal and lowercase hexadecimal texts of a number.  Digits are ASCII only; hexadecimal digits of
either case are read and lowercase ones are written.
-/

namespace StackMachine.Text

/-- The value of an ASCII digit, hexadecimal letters of either case included. -/
def digitValue (c : Char) : Option Nat :=
  if '0' ≤ c ∧ c ≤ '9' then some (c.toNat - '0'.toNat)
  else if 'a' ≤ c ∧ c ≤ 'f' then some (c.toNat - 'a'.toNat + 10)
  else if 'A' ≤ c ∧ c ≤ 'F' then some (c.toNat - 'A'.toNat + 10)
  else none

/-- The value of a digit of the given radix. -/
def digit? (radix : Nat) (c : Char) : Option Nat :=
  (digitValue c).filter (· < radix)

/-- The value of a string of digits, most significant first, after `value` was read. -/
def readDigitsFrom (radix : Nat) (value : Nat) : List Char → Option Nat
  | [] => some value
  | c :: cs =>
    match digit? radix c with
    | some d => readDigitsFrom radix (value * radix + d) cs
    | none => none

/-- The value of a non-empty string of digits. -/
def readDigits (radix : Nat) : List Char → Option Nat
  | [] => none
  | c :: cs => readDigitsFrom radix 0 (c :: cs)

/-- The decimal text of a number, without leading zeros. -/
def decimal (n : Nat) : List Char := Nat.toDigits 10 n

/-- The lowercase hexadecimal text of a number, without leading zeros. -/
def hexadecimal (n : Nat) : List Char := Nat.toDigits 16 n

/-- The decimal text of an integer, with a minus sign if it is negative. -/
def signedDecimal : Int → List Char
  | .ofNat n => decimal n
  | .negSucc n => '-' :: decimal (n + 1)

/-- The decimal text of a number, filled with zeros to at least `width` digits. -/
def zeroPadded (width n : Nat) : List Char := (decimal n).leftpad width '0'

/-- Two lowercase hexadecimal digits for a byte. -/
def byteHex (b : UInt8) : List Char := (hexadecimal b.toNat).leftpad 2 '0'

/-- Reading digits goes on where an earlier part of the string ended. -/
theorem readDigitsFrom_append (radix value : Nat) (xs ys : List Char) :
    readDigitsFrom radix value (xs ++ ys) =
      (readDigitsFrom radix value xs).bind (readDigitsFrom radix · ys) := by
  induction xs generalizing value with
  | nil => rfl
  | cons c cs ih =>
    simp only [List.cons_append, readDigitsFrom]
    cases digit? radix c with
    | none => rfl
    | some d => exact ih _

/-- A string of digits that starts with one is read from zero. -/
theorem readDigits_eq {radix : Nat} {cs : List Char} (h : cs ≠ []) :
    readDigits radix cs = readDigitsFrom radix 0 cs := by
  cases cs with
  | nil => exact absurd rfl h
  | cons c cs => rfl

/-! ## Written numbers -/

theorem digitValue_digitChar {d : Nat} (h : d < 16) : digitValue (Nat.digitChar d) = some d := by
  have hall : ∀ d < 16, digitValue (Nat.digitChar d) = some d := by decide
  exact hall d h

/-- A digit that is written is read as its value. -/
theorem digit?_digitChar {radix d : Nat} (hr : radix ≤ 16) (h : d < radix) :
    digit? radix (Nat.digitChar d) = some d := by
  rw [digit?, digitValue_digitChar (Nat.lt_of_lt_of_le h hr)]
  simp [h]

/-- The digits of a number are read back. -/
theorem readDigitsFrom_toDigits {radix : Nat} (h2 : 1 < radix) (h16 : radix ≤ 16) (n : Nat) :
    readDigitsFrom radix 0 (Nat.toDigits radix n) = some n := by
  induction n using Nat.base_induction radix h2 with
  | single n hn =>
    rw [Nat.toDigits_of_lt_base hn, readDigitsFrom, digit?_digitChar h16 hn]
    simp [readDigitsFrom]
  | digit n d hd hn ih =>
    rw [← Nat.toDigits_append_toDigits h2 hn hd, readDigitsFrom_append, ih,
      Nat.toDigits_of_lt_base hd]
    simp [readDigitsFrom, digit?_digitChar h16 hd, Nat.mul_comm]

theorem readDigits_toDigits {radix : Nat} (h2 : 1 < radix) (h16 : radix ≤ 16) (n : Nat) :
    readDigits radix (Nat.toDigits radix n) = some n := by
  rw [readDigits_eq Nat.toDigits_ne_nil, readDigitsFrom_toDigits h2 h16]

theorem readDigits_decimal (n : Nat) : readDigits 10 (decimal n) = some n :=
  readDigits_toDigits (by decide) (by decide) n

/-- Two numbers with the same decimal text are equal. -/
theorem decimal_injective {m n : Nat} (h : decimal m = decimal n) : m = n := by
  have hread : readDigits 10 (decimal n) = some m := h ▸ readDigits_decimal m
  rw [readDigits_decimal] at hread
  exact (Option.some.inj hread).symm

/-- Every character of a written number is one of its radix's digits. -/
theorem exists_digit_of_mem_toDigits {radix n : Nat} {c : Char} (h2 : 1 < radix)
    (h : c ∈ Nat.toDigits radix n) : ∃ d < radix, c = Nat.digitChar d := by
  induction n using Nat.base_induction radix h2 with
  | single n hn =>
    rw [Nat.toDigits_of_lt_base hn] at h
    exact ⟨n, hn, List.mem_singleton.1 h⟩
  | digit n d hd hn ih =>
    rw [← Nat.toDigits_append_toDigits h2 hn hd, Nat.toDigits_of_lt_base hd] at h
    rcases List.mem_append.1 h with hl | hr
    · exact ih hl
    · exact ⟨d, hd, List.mem_singleton.1 hr⟩

end StackMachine.Text
