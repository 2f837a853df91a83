import Mathlib.Data.Nat.Digits.Defs
import StackMachine.Assembly.Literal

/-!
# The grammar of literals

What a literal is and which number it denotes, said without a reader:

* `IsDigit`: a digit of a radix is one of the characters that numbers are written with, or its upper
  case;
* `Numeral`: digits with separators between them, none of which stands first or last, denote the
  positional value of the digits;
* `Denotes`: a literal is a decimal numeral, or `0x` and a hexadecimal one.

`Literal.read?` accepts exactly these texts, with the number that they denote, and
`Literal.parse` adds the bound on that number.
-/

namespace StackMachine

/-- So many bytes take eight bits each. -/
theorem Bytes.count_eq_two_pow (width : Nat) : count width = 2 ^ (8 * width) := by
  induction width with
  | zero => rfl
  | succ width ih =>
    rw [count, ih, Nat.mul_succ, Nat.pow_add, Nat.mul_comm]

namespace Text

/-- A digit of a radix and its value: `0` to `9`, then `a` to `f` in either case. -/
def IsDigit (radix : Nat) (c : Char) (d : Nat) : Prop :=
  d < radix ∧ (c = Nat.digitChar d ∨ c = (Nat.digitChar d).toUpper)

/-! ## Digits -/

/-- A character is a digit, or its upper case, if it has the code point of one. -/
theorem eq_digitChar_of_toNat {c : Char} {d : Nat}
    (h : (d < 10 ∧ c.toNat = 48 + d) ∨
      ((10 ≤ d ∧ d < 16) ∧ (c.toNat = 87 + d ∨ c.toNat = 55 + d))) :
    c = Nat.digitChar d ∨ c = (Nat.digitChar d).toUpper := by
  have hletter : ∀ d < 16, 10 ≤ d →
      (Nat.digitChar d).toNat = 87 + d ∧ (Nat.digitChar d).toUpper.toNat = 55 + d := by
    decide
  rcases h with ⟨hd, hc⟩ | ⟨⟨hlo, hhi⟩, hc | hc⟩
  · exact .inl (Char.toNat_inj.1 (hc.trans (Nat.toNat_digitChar_of_lt_ten hd).symm))
  · exact .inl (Char.toNat_inj.1 (hc.trans (hletter d hhi hlo).1.symm))
  · exact .inr (Char.toNat_inj.1 (hc.trans (hletter d hhi hlo).2.symm))

theorem digitValue_toUpper {d : Nat} (h : d < 16) :
    digitValue (Nat.digitChar d).toUpper = some d := by
  have hall : ∀ d < 16, digitValue (Nat.digitChar d).toUpper = some d := by decide
  exact hall d h

/-- A character with a value is the digit of that value, or its upper case. -/
theorem eq_digitChar_of_digitValue {c : Char} {d : Nat} (h : digitValue c = some d) :
    c = Nat.digitChar d ∨ c = (Nat.digitChar d).toUpper := by
  unfold digitValue at h
  split at h
  · rename_i hc
    have hlo : 48 ≤ c.toNat := hc.1
    have hhi : c.toNat ≤ 57 := hc.2
    have hd : c.toNat - 48 = d := Option.some.inj h
    exact eq_digitChar_of_toNat (by omega)
  · split at h
    · rename_i hc
      have hlo : 97 ≤ c.toNat := hc.1
      have hhi : c.toNat ≤ 102 := hc.2
      have hd : c.toNat - 97 + 10 = d := Option.some.inj h
      exact eq_digitChar_of_toNat (by omega)
    · split at h
      · rename_i hc
        have hlo : 65 ≤ c.toNat := hc.1
        have hhi : c.toNat ≤ 70 := hc.2
        have hd : c.toNat - 65 + 10 = d := Option.some.inj h
        exact eq_digitChar_of_toNat (by omega)
      · exact absurd h (by simp)

/-- The digits of a radix are read with their values, and nothing else is. -/
theorem digit?_eq_some_iff {radix d : Nat} {c : Char} (hr : radix ≤ 16) :
    digit? radix c = some d ↔ IsDigit radix c d := by
  rw [digit?, Option.filter_eq_some_iff]
  constructor
  · rintro ⟨hv, hd⟩
    exact ⟨of_decide_eq_true hd, eq_digitChar_of_digitValue hv⟩
  · rintro ⟨hd, hc⟩
    have hd16 : d < 16 := Nat.lt_of_lt_of_le hd hr
    refine ⟨?_, decide_eq_true hd⟩
    rcases hc with rfl | rfl
    · exact digitValue_digitChar hd16
    · exact digitValue_toUpper hd16

/-! ## Strings of digits -/

/-- Reading digits from the front adds up their positional value. -/
theorem readDigitsFrom_eq_some_iff {radix : Nat} (hr : radix ≤ 16) {acc value : Nat}
    {cs : List Char} :
    readDigitsFrom radix acc cs = some value ↔
      ∃ ds, List.Forall₂ (IsDigit radix) cs ds ∧
        value = ds.foldl (fun n d => n * radix + d) acc := by
  induction cs generalizing acc with
  | nil =>
    constructor
    · intro h
      exact ⟨[], .nil, (Option.some.inj h).symm⟩
    · rintro ⟨ds, hds, rfl⟩
      cases hds
      rfl
  | cons c cs ih =>
    constructor
    · intro h
      rw [readDigitsFrom] at h
      split at h
      · rename_i d hd
        obtain ⟨ds, hds, hv⟩ := ih.1 h
        exact ⟨d :: ds, .cons ((digit?_eq_some_iff hr).1 hd) hds, hv⟩
      · exact absurd h (by simp)
    · rintro ⟨ds, hds, hv⟩
      cases hds with
      | @cons _ d _ ds hd hds =>
        rw [readDigitsFrom, (digit?_eq_some_iff hr).2 hd]
        exact ih.2 ⟨ds, hds, hv⟩

theorem foldl_digits (radix : Nat) (ds : List Nat) :
    ds.foldl (fun n d => n * radix + d) 0 = Nat.ofDigits radix ds.reverse := by
  rw [Nat.ofDigits_eq_foldr, List.foldr_reverse]
  congr
  funext n d
  rw [Nat.cast_id, Nat.mul_comm, Nat.add_comm]

/-- A string of digits is read with its positional value if it has a digit. -/
theorem readDigits_eq_some_iff {radix : Nat} (hr : radix ≤ 16) {value : Nat} {cs : List Char} :
    readDigits radix cs = some value ↔
      ∃ ds, ds ≠ [] ∧ List.Forall₂ (IsDigit radix) cs ds ∧
        value = Nat.ofDigits radix ds.reverse := by
  cases cs with
  | nil =>
    constructor
    · exact fun h => absurd h (by simp [readDigits])
    · rintro ⟨ds, hne, hds, _⟩
      cases hds
      exact absurd rfl hne
  | cons c cs =>
    show readDigitsFrom radix 0 (c :: cs) = some value ↔ _
    rw [readDigitsFrom_eq_some_iff hr]
    constructor
    · rintro ⟨ds, hds, rfl⟩
      refine ⟨ds, ?_, hds, foldl_digits radix ds⟩
      rintro rfl
      cases hds
    · rintro ⟨ds, _, hds, rfl⟩
      exact ⟨ds, hds, (foldl_digits radix ds).symm⟩

end Text

namespace Assembly.Literal

open Text (IsDigit)

/-- Digits of a radix with underscores between them, and the positional value of the digits.  No
underscore stands first or last, and there is a digit. -/
structure Numeral (radix : Nat) (body : List Char) (value : Nat) : Prop where
  head : body.head? ≠ some '_'
  last : body.getLast? ≠ some '_'
  digits : ∃ ds, ds ≠ [] ∧ List.Forall₂ (IsDigit radix) (body.filter (· != '_')) ds ∧
    value = Nat.ofDigits radix ds.reverse

/-- The number that a literal denotes. -/
inductive Denotes : List Char → Nat → Prop
  | decimal {body : List Char} {value : Nat} (h : Numeral 10 body value) : Denotes body value
  | hexadecimal {body : List Char} {value : Nat} (h : Numeral 16 body value) :
      Denotes ('0' :: 'x' :: body) value

theorem readBody_eq_some_iff {radix : Nat} (hr : radix ≤ 16) {body : List Char} {value : Nat} :
    readBody radix body = some value ↔ Numeral radix body value := by
  unfold readBody
  split
  · rename_i h
    constructor
    · exact fun hv => absurd hv (by simp)
    · intro hn
      rcases h with h | h
      · exact absurd h hn.head
      · exact absurd h hn.last
  · rename_i h
    obtain ⟨hh, hl⟩ := not_or.1 h
    rw [Text.readDigits_eq_some_iff hr]
    constructor
    · exact fun hd => ⟨hh, hl, hd⟩
    · exact Numeral.digits

/-- The mark of the hexadecimal radix starts no decimal numeral. -/
theorem not_numeral_mark {body : List Char} {value : Nat} :
    ¬ Numeral 10 ('0' :: 'x' :: body) value := by
  intro h
  obtain ⟨ds, _, hds, _⟩ := h.digits
  have hfilter : ('0' :: 'x' :: body).filter (· != '_') =
      '0' :: 'x' :: body.filter (· != '_') := rfl
  rw [hfilter] at hds
  rcases hds with _ | ⟨_, _ | ⟨hx, _⟩⟩
  have hnone : Text.digit? 10 'x' = none := by decide
  rw [← Text.digit?_eq_some_iff (by decide), hnone] at hx
  exact absurd hx (by simp)

/-- **A text reads as a number exactly if it is a literal that denotes the number.** -/
theorem read?_eq_some_iff {cs : List Char} {value : Nat} :
    read? cs = some value ↔ Denotes cs value := by
  unfold read?
  constructor
  · intro h
    unfold radix at h
    split at h
    · exact .hexadecimal ((readBody_eq_some_iff (by decide)).1 h)
    · exact .decimal ((readBody_eq_some_iff (by decide)).1 h)
  · intro h
    cases h with
    | @hexadecimal body _ h =>
      show readBody 16 body = some value
      exact (readBody_eq_some_iff (by decide)).2 h
    | decimal h =>
      have hr : radix cs = (10, cs) := by
        unfold radix
        split
        · exact absurd h not_numeral_mark
        · rfl
      rw [hr]
      show readBody 10 cs = some value
      exact (readBody_eq_some_iff (by decide)).2 h

/-- A token is a literal for so many bytes exactly if it denotes a number that they can hold; more
than eight bytes hold no more than eight. -/
theorem parse_eq_ok_iff_denotes {token : String} {width value : Nat} :
    parse token width = .ok value ↔
      Denotes token.toList value ∧ value < 2 ^ (8 * min width 8) := by
  rw [parse_eq_ok_iff, read?_eq_some_iff, bound, Bytes.count_eq_two_pow]

end Assembly.Literal

end StackMachine
