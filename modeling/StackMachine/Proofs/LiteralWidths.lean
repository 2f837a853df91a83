import StackMachine.Proofs.LiteralGrammar

/-!
# Literals of every width

A token is a literal for a number of bytes exactly if it denotes a number that is below `2 ^ 64` and
fits the bytes (`parse_eq_ok_iff_fits`).  There is one error, which quotes the token and the width.

The operands of the two pushes are a byte and a word.  `parseByte` narrows the value of a literal to
a byte with a check of its own.  The check never fails, because a literal for one byte is below 256
already, so a token has the same value as a byte and as a small word.  The two are what the
assembler reads an operand as, with the number in place of the byte or the word
(`map_toNat_parseByte`, `map_toNat_parseWord`).
-/

namespace StackMachine.Assembly.Literal

variable {token : String}

/-- A number is below the largest word and, for fewer bytes than a word has, below the number of
values that the bytes can take. -/
def Fits (width value : Nat) : Prop := value < 2 ^ 64 ∧ (width < 8 → value < 256 ^ width)

/-- A number as a byte, if a byte can hold it. -/
def narrow? (value : Nat) : Option UInt8 :=
  if value < UInt8.size then some (UInt8.ofNat value) else none

/-- The byte that a token denotes.  A value that no byte can hold is an error like the others. -/
def parseByte (token : String) : Result UInt8 := do
  let value ← parse token 1
  match narrow? value with
  | some b => .ok b
  | none => .error (.invalidOperand token 1)

/-- The word that a token denotes. -/
def parseWord (token : String) : Result UInt64 := (parse token 8).map UInt64.ofNat

/-! ## Bounds -/

/-- The bound on a literal is that of its bytes or that of a word, whichever is smaller. -/
theorem lt_bound_iff_fits {width value : Nat} : value < bound width ↔ Fits width value := by
  have hpow : 256 ^ width = 2 ^ (8 * width) := by
    rw [Nat.pow_mul]
  rw [bound, Bytes.count_eq_two_pow, Fits, hpow]
  rcases Nat.lt_or_ge width 8 with hw | hw
  · have hle : 2 ^ (8 * width) ≤ 2 ^ 64 := Nat.pow_le_pow_right (by decide) (by omega)
    rw [Nat.min_eq_left (Nat.le_of_lt hw)]
    constructor
    · intro hv
      exact ⟨Nat.lt_of_lt_of_le hv hle, fun _ => hv⟩
    · intro hv
      exact hv.2 hw
  · rw [Nat.min_eq_right hw]
    constructor
    · intro hv
      exact ⟨hv, fun hlt => absurd hlt (Nat.not_lt.2 hw)⟩
    · exact And.left

theorem fits_byte_iff {value : Nat} : Fits 1 value ↔ value < 256 := by
  constructor
  · intro h
    exact h.2 (by decide)
  · intro h
    exact ⟨Nat.lt_trans h (by decide), fun _ => h⟩

theorem fits_word_iff {value : Nat} : Fits 8 value ↔ value < 2 ^ 64 := by
  constructor
  · exact And.left
  · intro h
    exact ⟨h, fun hlt => absurd hlt (by decide)⟩

theorem parse_eq_ok_iff_fits {width value : Nat} :
    parse token width = .ok value ↔ Denotes token.toList value ∧ Fits width value := by
  rw [parse_eq_ok_iff, read?_eq_some_iff, lt_bound_iff_fits]

/-- What is no literal is refused, with the one error that there is. -/
theorem parse_eq_error_iff {width : Nat} {e : Error} :
    parse token width = .error e ↔
      e = .invalidOperand token width ∧
        ¬ ∃ value, Denotes token.toList value ∧ Fits width value := by
  constructor
  · intro h
    refine ⟨parse_eq_error h, ?_⟩
    rintro ⟨value, hv⟩
    rw [parse_eq_ok_iff_fits.2 hv] at h
    exact absurd h (by simp)
  · rintro ⟨rfl, hnone⟩
    cases hp : parse token width with
    | error e => rw [parse_eq_error hp]
    | ok value => exact absurd ⟨value, parse_eq_ok_iff_fits.1 hp⟩ hnone

/-! ## Bytes and words -/

theorem narrow?_of_lt {value : Nat} (h : value < 256) :
    narrow? value = some (UInt8.ofNat value) :=
  if_pos h

/-- A literal for one byte can be narrowed to it. -/
theorem narrow?_of_parse {value : Nat} (h : parse token 1 = .ok value) :
    narrow? value = some (UInt8.ofNat value) := by
  apply narrow?_of_lt
  exact fits_byte_iff.1 (parse_eq_ok_iff_fits.1 h).2

/-- A literal for one byte is the number of the byte. -/
theorem map_toNat_parseByte (token : String) :
    (parseByte token).map UInt8.toNat = parse token 1 := by
  unfold parseByte
  cases hp : parse token 1 with
  | error e => rfl
  | ok value =>
    have hlt := fits_byte_iff.1 (parse_eq_ok_iff_fits.1 hp).2
    have hbyte : (UInt8.ofNat value).toNat = value := UInt8.toNat_ofNat_of_lt' hlt
    simp only [bind, Except.bind, narrow?_of_parse hp, Except.map, hbyte]

/-- A literal for eight bytes is the number of the word. -/
theorem map_toNat_parseWord (token : String) :
    (parseWord token).map UInt64.toNat = parse token 8 := by
  unfold parseWord
  cases hp : parse token 8 with
  | error e => rfl
  | ok value =>
    have hlt := fits_word_iff.1 (parse_eq_ok_iff_fits.1 hp).2
    exact congrArg Except.ok (UInt64.toNat_ofNat_of_lt' hlt)

theorem parseByte_eq_ok_iff {b : UInt8} :
    parseByte token = .ok b ↔ parse token 1 = .ok b.toNat := by
  rw [← map_toNat_parseByte, Result.map_eq_ok_iff]
  constructor
  · intro hb
    exact ⟨b, hb, rfl⟩
  · rintro ⟨c, hc, hcb⟩
    rw [hc, UInt8.toNat_inj.1 hcb]

theorem parseWord_eq_ok_iff {w : UInt64} :
    parseWord token = .ok w ↔ parse token 8 = .ok w.toNat := by
  rw [← map_toNat_parseWord, Result.map_eq_ok_iff]
  constructor
  · intro hw
    exact ⟨w, hw, rfl⟩
  · rintro ⟨v, hv, hvw⟩
    rw [hv, UInt64.toNat_inj.1 hvw]

/-- **A token is read by the grammar of literals, at every width.**  It is accepted for some bytes,
with a value, exactly if it denotes the value and the value fits; all other tokens are refused with
the error that quotes them and the width.  So the check that narrows a literal to a byte never
fails, and a token is a byte exactly if it is a word below 256, of the same value. -/
theorem parse_exact (token : String) :
    (∀ width value, parse token width = .ok value ↔
      Denotes token.toList value ∧ value < 2 ^ 64 ∧ (width < 8 → value < 256 ^ width)) ∧
    (∀ width e, parse token width = .error e ↔
      e = .invalidOperand token width ∧ ¬ ∃ value,
        Denotes token.toList value ∧ value < 2 ^ 64 ∧ (width < 8 → value < 256 ^ width)) ∧
    (∀ value, parse token 1 = .ok value → narrow? value ≠ none) ∧
    ∀ w : UInt64, parseWord token = .ok w ∧ w.toNat < 256 ↔
      ∃ b : UInt8, parseByte token = .ok b ∧ b.toNat = w.toNat := by
  refine ⟨?_, ?_, ?_, ?_⟩
  · intro width value
    exact parse_eq_ok_iff_fits
  · intro width e
    exact parse_eq_error_iff
  · intro value hp
    rw [narrow?_of_parse hp]
    exact Option.some_ne_none _
  · intro w
    rw [parseWord_eq_ok_iff, parse_eq_ok_iff_fits, fits_word_iff]
    constructor
    · rintro ⟨⟨hdenotes, -⟩, hlt⟩
      have hbyte : (UInt8.ofNat w.toNat).toNat = w.toNat := UInt8.toNat_ofNat_of_lt' hlt
      refine ⟨UInt8.ofNat w.toNat, ?_, hbyte⟩
      rw [parseByte_eq_ok_iff, parse_eq_ok_iff_fits, fits_byte_iff, hbyte]
      exact ⟨hdenotes, hlt⟩
    · rintro ⟨b, hb, hbw⟩
      rw [parseByte_eq_ok_iff, parse_eq_ok_iff_fits, fits_byte_iff, hbw] at hb
      exact ⟨⟨hb.1, w.toNat_lt⟩, hb.2⟩

end StackMachine.Assembly.Literal
