import StackMachine.Decoding
import StackMachine.Proofs.LiteralWidths
import StackMachine.Proofs.Refinement

/-!
# Bytes shown as integers

What the decodings show of bytes, said by position.  Hexadecimal text has two digits for each byte,
from which the bytes are read back (`bytes?_hexText`).  The integers are written in decimal: the
number that the bytes denote most significant byte first, and, if the first bit is set, that number
less the number of values that the bytes can take.

The integers are also those of a whole word.  Zeros on the left do not change the number
(`value_widen_zero`), and copies of a set first bit add what two's complement takes off again
(`toInt_widen`).

The texts are literals of the number, which the assembler reads back.  Bytes that a machine stores
for a word therefore show the word.
-/

namespace StackMachine

/-! ## Numbers by position -/

namespace Bytes

/-- The number that bytes denote has them as its digits, the last one least significant. -/
theorem value_eq_ofDigits (bs : List UInt8) :
    value bs = Nat.ofDigits 256 (bs.map UInt8.toNat).reverse := by
  rw [← Text.foldl_digits, List.foldl_map]
  rfl

/-- The first bit of bytes decides in which half of their range the number lies. -/
theorem two_mul_value_lt_iff (b : UInt8) (bs : List UInt8) :
    2 * value (b :: bs) < count (b :: bs).length ↔ b.toNat < 128 := by
  have hrest := value_lt bs
  have hfront : value (b :: bs) = b.toNat * count bs.length + value bs := by
    have hone : value [b] = b.toNat := Nat.zero_add _
    rw [← List.singleton_append, value_append, hone]
  rw [hfront, List.length_cons, count]
  constructor
  · intro h
    by_contra hb
    have hmul : 128 * count bs.length ≤ b.toNat * count bs.length :=
      Nat.mul_le_mul_right _ (Nat.not_lt.1 hb)
    omega
  · intro h
    have hmul : b.toNat * count bs.length ≤ 127 * count bs.length :=
      Nat.mul_le_mul_right _ (Nat.le_of_lt_succ h)
    omega

end Bytes

namespace Decoding

variable {bs : List UInt8}

/-! ## Hexadecimal text -/

/-- The two hexadecimal digits of a byte, in lowercase. -/
def hexDigits (b : UInt8) : List Char :=
  [Nat.digitChar (b.toNat / 16), Nat.digitChar (b.toNat % 16)]

/-- The hexadecimal text of bytes. -/
def hexText (bs : List UInt8) : List Char := '0' :: 'x' :: bs.flatMap hexDigits

/-- The bytes that pairs of hexadecimal digits stand for. -/
def pairs? : List Char → Option (List UInt8)
  | [] => some []
  | [_] => none
  | high :: low :: cs => do
    let h ← Text.digit? 16 high
    let l ← Text.digit? 16 low
    let bs ← pairs? cs
    some (UInt8.ofNat (16 * h + l) :: bs)

/-- The bytes that a hexadecimal text shows. -/
def bytes? : List Char → Option (List UInt8)
  | '0' :: 'x' :: cs => pairs? cs
  | _ => none

theorem byteHex_eq (b : UInt8) : Text.byteHex b = hexDigits b := by
  have hb := b.toNat_lt
  unfold Text.byteHex Text.hexadecimal hexDigits
  rcases Nat.lt_or_ge b.toNat 16 with h | h
  · rw [Nat.toDigits_of_lt_base h, Nat.div_eq_of_lt h, Nat.mod_eq_of_lt h]
    rfl
  · have hlow : b.toNat % 16 < 16 := Nat.mod_lt _ (by decide)
    have hhigh : b.toNat / 16 < 16 := by omega
    have hsplit : b.toNat = 16 * (b.toNat / 16) + b.toNat % 16 := (Nat.div_add_mod _ _).symm
    rw [hsplit, ← Nat.toDigits_append_toDigits (by decide) (by omega) hlow,
      Nat.toDigits_of_lt_base hhigh, Nat.toDigits_of_lt_base hlow, ← hsplit]
    rfl

theorem decode_hex (bs : List UInt8) : hex.decode bs = .ok (String.ofList (hexText bs)) := by
  have hall : bs.flatMap Text.byteHex = bs.flatMap hexDigits :=
    congrArg (bs.flatMap ·) (funext byteHex_eq)
  show Except.ok (String.ofList ('0' :: 'x' :: bs.flatMap Text.byteHex)) = _
  rw [hall]
  rfl

theorem digit?_high (b : UInt8) :
    Text.digit? 16 (Nat.digitChar (b.toNat / 16)) = some (b.toNat / 16) := by
  have hb := b.toNat_lt
  exact Text.digit?_digitChar (by decide) (by omega)

theorem digit?_low (b : UInt8) :
    Text.digit? 16 (Nat.digitChar (b.toNat % 16)) = some (b.toNat % 16) :=
  Text.digit?_digitChar (by decide) (Nat.mod_lt _ (by decide))

/-- Pairs of digits are read back as their bytes. -/
theorem pairs?_flatMap (bs : List UInt8) : pairs? (bs.flatMap hexDigits) = some bs := by
  induction bs with
  | nil => rfl
  | cons b bs ih =>
    show pairs? (Nat.digitChar (b.toNat / 16) :: Nat.digitChar (b.toNat % 16) ::
      bs.flatMap hexDigits) = _
    rw [pairs?, digit?_high, digit?_low, ih]
    show some (UInt8.ofNat (16 * (b.toNat / 16) + b.toNat % 16) :: bs) = _
    rw [Nat.div_add_mod, UInt8.ofNat_toNat]

/-- A hexadecimal text shows its bytes. -/
theorem bytes?_hexText (bs : List UInt8) : bytes? (hexText bs) = some bs := pairs?_flatMap bs

/-- Different bytes have different hexadecimal texts. -/
theorem eq_of_decode_hex {cs : List UInt8} (h : hex.decode cs = hex.decode bs) : cs = bs := by
  rw [decode_hex, decode_hex] at h
  have htext := String.ofList_injective (Except.ok.inj h)
  have hbytes := congrArg bytes? htext
  rw [bytes?_hexText, bytes?_hexText] at hbytes
  exact Option.some.inj hbytes

/-- Pairs of digits denote the number that their bytes denote. -/
theorem readDigitsFrom_flatMap (acc : Nat) (bs : List UInt8) :
    Text.readDigitsFrom 16 acc (bs.flatMap hexDigits) = some (Bytes.valueFrom acc bs) := by
  induction bs generalizing acc with
  | nil => rfl
  | cons b bs ih =>
    show Text.readDigitsFrom 16 acc (Nat.digitChar (b.toNat / 16) ::
      Nat.digitChar (b.toNat % 16) :: bs.flatMap hexDigits) = _
    have hbyte : (acc * 16 + b.toNat / 16) * 16 + b.toNat % 16 = acc * 256 + b.toNat := by omega
    simp only [Text.readDigitsFrom, digit?_high, digit?_low, hbyte]
    exact ih _

/-! ## Decimal text -/

theorem ofList_decimal (n : Nat) : String.ofList (Text.decimal n) = toString n := rfl

theorem ofList_signedDecimal (z : Int) : String.ofList (Text.signedDecimal z) = toString z := by
  cases z with
  | ofNat n => rfl
  | negSucc n =>
    show String.ofList (['-'] ++ Text.decimal (n + 1)) = "-" ++ toString (n + 1)
    rw [String.ofList_append]
    rfl

theorem decodeInteger_of_le (value : List UInt8 → List Char) (h : bs.length ≤ 8) :
    decodeInteger value bs = .ok (value bs) :=
  if_pos h

theorem decodeInteger_of_lt (value : List UInt8 → List Char) (h : 8 < bs.length) :
    decodeInteger value bs = .error (tooLong bs.length) :=
  if_neg (Nat.not_le.2 h)

theorem decode_unsigned (h : bs.length ≤ 8) :
    unsigned.decode bs = .ok (toString (Bytes.value bs)) := by
  rw [decode, decodeChars, decodeInteger_of_le _ h]
  rfl

theorem decode_signed (h : bs.length ≤ 8) :
    signed.decode bs = .ok (toString (signedValue bs)) := by
  rw [decode, decodeChars, decodeInteger_of_le _ h, ← ofList_signedDecimal]
  rfl

/-- Both integer decodings refuse more bytes than a word has. -/
theorem decode_of_lt {d : Decoding} (hd : d = unsigned ∨ d = signed) (h : 8 < bs.length) :
    d.decode bs = .error (.undecodable
      (number bs.length ++ " bytes do not fit in a " ++ number 8 ++ "-byte integer")) := by
  rcases hd with rfl | rfl
  · rw [decode, decodeChars, decodeInteger_of_lt _ h]
    rfl
  · rw [decode, decodeChars, decodeInteger_of_lt _ h]
    rfl

/-! ## Signed numbers -/

/-- Whether the first bit of bytes is set. -/
def firstBit : List UInt8 → Bool
  | [] => false
  | b :: _ => b.toBitVec.msb

theorem firstBit_cons (b : UInt8) (bs : List UInt8) : firstBit (b :: bs) = decide (128 ≤ b.toNat) :=
  BitVec.msb_eq_decide b.toBitVec

/-- The first bit is set if the number is in the upper half of its range. -/
theorem firstBit_eq (bs : List UInt8) :
    firstBit bs = decide (Bytes.count bs.length ≤ 2 * Bytes.value bs) := by
  cases bs with
  | nil => rfl
  | cons b bs =>
    rw [firstBit_cons, decide_eq_decide, ← Nat.not_lt, ← Nat.not_lt, Bytes.two_mul_value_lt_iff]

theorem signedValue_eq (bs : List UInt8) :
    signedValue bs =
      if firstBit bs then (Bytes.value bs : Int) - (2 ^ (8 * bs.length) : Nat)
      else Bytes.value bs := by
  cases bs with
  | nil => rfl
  | cons b bs =>
    rw [firstBit_cons, ← Bytes.count_eq_two_pow, signedValue]
    simp only [decide_eq_true_eq]

/-! ## Widened bytes -/

/-- Bytes filled up on the left to the bytes of a word. -/
def widen (fill : UInt8) (bs : List UInt8) : List UInt8 :=
  List.replicate (wordSize - bs.length) fill ++ bs

/-- The word that widened bytes make. -/
def widenedWord (fill : UInt8) (bs : List UInt8) : UInt64 :=
  UInt64.ofNat (Bytes.value (widen fill bs))

/-- Eight copies of the first bit. -/
def signFill (bs : List UInt8) : UInt8 := if firstBit bs then 0xFF else 0

theorem value_replicate_zero (k : Nat) : Bytes.value (List.replicate k 0) = 0 := by
  induction k with
  | zero => rfl
  | succ k ih =>
    rw [List.replicate_succ', Bytes.value_concat, ih]
    rfl

theorem value_replicate_ones (k : Nat) :
    Bytes.value (List.replicate k 0xFF) + 1 = Bytes.count k := by
  induction k with
  | zero => rfl
  | succ k ih =>
    have hbyte : (0xFF : UInt8).toNat = 255 := rfl
    rw [List.replicate_succ', Bytes.value_concat, hbyte, Bytes.count, ← ih]
    omega

theorem count_add (j k : Nat) : Bytes.count (j + k) = Bytes.count j * Bytes.count k := by
  rw [Bytes.count_eq_two_pow, Bytes.count_eq_two_pow, Bytes.count_eq_two_pow, Nat.mul_add,
    Nat.pow_add]

theorem length_widen (h : bs.length ≤ 8) (fill : UInt8) : (widen fill bs).length = 8 := by
  rw [widen, List.length_append, List.length_replicate, wordSize]
  omega

theorem toNat_widenedWord (h : bs.length ≤ 8) (fill : UInt8) :
    (widenedWord fill bs).toNat = Bytes.value (widen fill bs) := by
  apply UInt64.toNat_ofNat_of_lt'
  have hlt := Bytes.value_lt (widen fill bs)
  rw [length_widen h] at hlt
  exact hlt

theorem value_widen_zero (bs : List UInt8) : Bytes.value (widen 0 bs) = Bytes.value bs := by
  rw [widen, Bytes.value_append, value_replicate_zero, Nat.zero_mul, Nat.zero_add]

theorem value_widen_ones (h : bs.length ≤ 8) :
    Bytes.value (widen 0xFF bs) + Bytes.count bs.length = Bytes.count 8 + Bytes.value bs := by
  have hlen : 8 = wordSize - bs.length + bs.length := by
    rw [wordSize]
    omega
  have hcount : Bytes.count 8 = Bytes.count (wordSize - bs.length) * Bytes.count bs.length := by
    rw [← count_add, ← hlen]
  have hones := value_replicate_ones (wordSize - bs.length)
  rw [widen, Bytes.value_append, hcount, ← hones, Nat.add_mul]
  omega

theorem toInt_eq (w : UInt64) :
    w.toInt64.toInt = if 2 * w.toNat < 2 ^ 64 then (w.toNat : Int) else w.toNat - (2 ^ 64 : Nat) :=
  BitVec.toInt_eq_toNat_cond w.toBitVec

/-- Two's complement of a word takes off what copies of the first bit add. -/
theorem toInt_widen (h : bs.length ≤ 8) :
    (widenedWord (signFill bs) bs).toInt64.toInt = signedValue bs := by
  have hle : Bytes.count bs.length ≤ Bytes.count 8 := by
    rw [Bytes.count_eq_two_pow, Bytes.count_eq_two_pow]
    exact Nat.pow_le_pow_right (by decide) (by omega)
  have hword : Bytes.count 8 = 2 ^ 64 := Bytes.count_eq_two_pow 8
  have hlt := Bytes.value_lt bs
  have hhalf := firstBit_eq bs
  rw [toInt_eq, toNat_widenedWord h, signedValue_eq, ← Bytes.count_eq_two_pow, signFill]
  cases hbit : firstBit bs with
  | true =>
    have hones := value_widen_ones h
    have hupper : Bytes.count bs.length ≤ 2 * Bytes.value bs := by
      rw [hbit] at hhalf
      exact of_decide_eq_true hhalf.symm
    rw [if_pos rfl, if_pos rfl, if_neg (by omega)]
    omega
  | false =>
    have hlower : ¬ Bytes.count bs.length ≤ 2 * Bytes.value bs := by
      rw [hbit] at hhalf
      exact of_decide_eq_false hhalf.symm
    rw [if_neg Bool.false_ne_true, if_neg Bool.false_ne_true, value_widen_zero, if_pos (by omega)]

/-! ## Texts as literals -/

open Assembly

theorem digitChar_ne_separator : ∀ d < 16, Nat.digitChar d ≠ Literal.separator := by decide

theorem separator_not_mem_decimal (n : Nat) : Literal.separator ∉ Text.decimal n := by
  intro h
  obtain ⟨d, hd, hc⟩ := Text.exists_digit_of_mem_toDigits (by decide) h
  exact digitChar_ne_separator d (by omega) hc.symm

theorem separator_not_mem_flatMap (bs : List UInt8) : Literal.separator ∉ bs.flatMap hexDigits := by
  intro h
  obtain ⟨b, -, hb⟩ := List.mem_flatMap.1 h
  have hlt := b.toNat_lt
  rcases List.mem_cons.1 hb with hc | hc
  · exact digitChar_ne_separator (b.toNat / 16) (by omega) hc.symm
  · exact digitChar_ne_separator (b.toNat % 16) (by omega) (List.mem_singleton.1 hc).symm

/-- The decimal text of a word is a literal of the word. -/
theorem parse_toString {n : Nat} (h : n < 2 ^ 64) : Literal.parse (toString n) 8 = .ok n := by
  have hbody : Literal.readBody 10 (Text.decimal n) = some n := by
    rw [Literal.readBody_of_not_mem (separator_not_mem_decimal n)]
    exact Text.readDigits_toDigits (by decide) (by decide) n
  rw [Literal.parse_eq_ok_iff_fits, Literal.fits_word_iff, ← ofList_decimal, String.toList_ofList]
  exact ⟨.decimal ((Literal.readBody_eq_some_iff (by decide)).1 hbody), h⟩

theorem value_lt_of_length (h : bs.length ≤ 8) : Bytes.value bs < 2 ^ 64 := by
  have hlt := Bytes.value_lt bs
  rw [Bytes.count_eq_two_pow] at hlt
  exact Nat.lt_of_lt_of_le hlt (Nat.pow_le_pow_right (by decide) (by omega))

theorem parse_unsigned (h : bs.length ≤ 8) :
    (unsigned.decode bs).bind (Literal.parse · 8) = .ok (Bytes.value bs) := by
  rw [decode_unsigned h]
  exact parse_toString (value_lt_of_length h)

/-- The hexadecimal text of some bytes is a literal of the number that they denote. -/
theorem parse_hex (hne : bs ≠ []) (h : bs.length ≤ 8) :
    (hex.decode bs).bind (Literal.parse · 8) = .ok (Bytes.value bs) := by
  have hdigits : bs.flatMap hexDigits ≠ [] := by
    cases bs with
    | nil => exact absurd rfl hne
    | cons b bs => exact List.cons_ne_nil _ _
  have hbody : Literal.readBody 16 (bs.flatMap hexDigits) = some (Bytes.value bs) := by
    rw [Literal.readBody_of_not_mem (separator_not_mem_flatMap bs), Text.readDigits_eq hdigits,
      readDigitsFrom_flatMap]
    rfl
  have hnumeral := (Literal.readBody_eq_some_iff (by decide)).1 hbody
  rw [decode_hex]
  show Literal.parse (String.ofList (hexText bs)) 8 = _
  rw [Literal.parse_eq_ok_iff_fits, Literal.fits_word_iff, String.toList_ofList]
  exact ⟨.hexadecimal hnumeral, value_lt_of_length h⟩

/-! ## Bytes of a word -/

theorem value_word (w : UInt64) : Bytes.value (Bytes.bigEndian 8 w.toNat) = w.toNat := by
  rw [Bytes.value_bigEndian, Bytes.count_eq_two_pow]
  exact Nat.mod_eq_of_lt w.toNat_lt

/-- The bytes of a word show the word in two's complement. -/
theorem signedValue_word (w : UInt64) :
    signedValue (Bytes.bigEndian 8 w.toNat) = w.toInt64.toInt := by
  have hle : (Bytes.bigEndian 8 w.toNat).length ≤ 8 := by
    rw [Bytes.length_bigEndian]
  have hfull : ∀ fill, widen fill (Bytes.bigEndian 8 w.toNat) = Bytes.bigEndian 8 w.toNat := by
    intro fill
    rw [widen, Bytes.length_bigEndian]
    rfl
  rw [← toInt_widen hle, widenedWord, hfull, value_word, UInt64.ofNat_toNat]

/-- A machine that stores a word has the bytes of the word at the offset. -/
theorem readMemory_of_store8 {m : Machine} {h : m.position < m.bytes.size} {offset word : UInt64}
    {ws : List UInt64} (ho : Opcode.ofByte? m.bytes[m.position] = some .store8)
    (hc : m.stack.column = offset :: word :: ws)
    (hle : offset.toNat + 8 ≤ m.memory.capacity.toNat) :
    ∃ t, m.handleNext h = .ok .next t ∧
      t.readMemory offset 8 = .ok (Bytes.bigEndian 8 word.toNat) := by
  have hroom : offset.toNat + (Bytes.bigEndian 8 word.toNat).length ≤ m.memory.flat.length := by
    rw [Bytes.length_bigEndian, Memory.length_flat]
    exact hle
  obtain ⟨memory, hwrite⟩ : ∃ memory, Flat.write m.memory.flat offset.toNat
      (Bytes.bigEndian 8 word.toNat) = .ok memory :=
    ⟨_, if_pos hroom⟩
  have himmediate : Reference.immediate m.view.code (m.view.position + 1) .store8 = .ok 0 :=
    Reference.immediate_of_width_eq_zero rfl (by simpa [Machine.view] using Nat.succ_le_of_lt h)
  have heffect : m.view.effectAt .store8 = .ok (.next ws memory) := by
    rw [Reference.effectAt, himmediate]
    show Reference.effect m.view.capacities 0 m.memory.flat .store8 m.stack.column = _
    rw [hc, Reference.effect, hwrite]
    rfl
  have hrun := Machine.handleNext_of_opcode (h := h) ho
  rw [heffect] at hrun
  obtain ⟨t, ht, hview⟩ := hrun
  have hflat : t.memory.flat = memory := congrArg Reference.memory hview
  refine ⟨t, ht, ?_⟩
  have hread := Flat.read_write hwrite
  rw [Bytes.length_bigEndian] at hread
  rw [Machine.readMemory, Memory.slice_eq_flat, hflat]
  exact hread

/-- **The decodings of bytes agree with each other and with the literals of the assembler.**

* Hexadecimal text has two lowercase digits for each byte; the bytes are read back from it, so no
  other bytes have the same text.
* For at most eight bytes, the unsigned decoding is the number that they denote, in decimal.  The
  signed one is that number if the first bit is not set, and otherwise the number less the number of
  values that the bytes can take.  These are the integers of the bytes widened to a word, by zeros
  or by copies of the first bit.  The decimal text is a literal of the number, and so is the
  hexadecimal text of one byte or more.
* For more bytes, both integer decodings fail.
* The eight bytes that a machine stores for a word show the word. -/
theorem decodings_agree (bs : List UInt8) :
    (hex.decode bs = .ok (String.ofList ('0' :: 'x' :: bs.flatMap hexDigits)) ∧
      bytes? ('0' :: 'x' :: bs.flatMap hexDigits) = some bs ∧
      ∀ cs, hex.decode cs = hex.decode bs → cs = bs) ∧
    Bytes.value bs = Nat.ofDigits 256 (bs.map UInt8.toNat).reverse ∧
    (bs.length ≤ 8 →
      unsigned.decode bs = .ok (toString (Bytes.value bs)) ∧
      signed.decode bs = .ok (toString (
        if firstBit bs then (Bytes.value bs : Int) - (2 ^ (8 * bs.length) : Nat)
        else Bytes.value bs)) ∧
      unsigned.decode bs = .ok (toString (widenedWord 0 bs).toNat) ∧
      signed.decode bs = .ok (toString (widenedWord (signFill bs) bs).toInt64.toInt) ∧
      (unsigned.decode bs).bind (Literal.parse · 8) = .ok (Bytes.value bs) ∧
      (bs ≠ [] → (hex.decode bs).bind (Literal.parse · 8) = .ok (Bytes.value bs))) ∧
    (8 < bs.length → ∀ d, d = unsigned ∨ d = signed → d.decode bs = .error (.undecodable
      (number bs.length ++ " bytes do not fit in a " ++ number 8 ++ "-byte integer"))) ∧
    ∀ (m : Machine) (h : m.position < m.bytes.size) (offset word : UInt64) (ws : List UInt64),
      Opcode.ofByte? m.bytes[m.position] = some .store8 → m.stack.column = offset :: word :: ws →
      offset.toNat + 8 ≤ m.memory.capacity.toNat →
      ∃ t stored, m.handleNext h = .ok .next t ∧ t.readMemory offset 8 = .ok stored ∧
        unsigned.decode stored = .ok (toString word.toNat) ∧
        signed.decode stored = .ok (toString word.toInt64.toInt) ∧
        (hex.decode stored).bind (Literal.parse · 8) = .ok word.toNat := by
  refine ⟨⟨decode_hex bs, bytes?_hexText bs, fun _ h => eq_of_decode_hex h⟩,
    Bytes.value_eq_ofDigits bs, ?_, ?_, ?_⟩
  · intro h
    refine ⟨decode_unsigned h, ?_, ?_, ?_, ?_, ?_⟩
    · rw [decode_signed h, signedValue_eq]
    · rw [decode_unsigned h, toNat_widenedWord h, value_widen_zero]
    · rw [decode_signed h, toInt_widen h]
    · exact parse_unsigned h
    · intro hne
      exact parse_hex hne h
  · intro h d hd
    exact decode_of_lt hd h
  · intro m h offset word ws ho hc hle
    obtain ⟨t, ht, hread⟩ := readMemory_of_store8 ho hc hle
    have hlen : (Bytes.bigEndian 8 word.toNat).length = 8 := Bytes.length_bigEndian 8 _
    have hne : Bytes.bigEndian 8 word.toNat ≠ [] := by
      intro hnil
      rw [hnil] at hlen
      exact absurd hlen (by decide)
    refine ⟨t, _, ht, hread, ?_, ?_, ?_⟩
    · rw [decode_unsigned (Nat.le_of_eq hlen), value_word]
    · rw [decode_signed (Nat.le_of_eq hlen), signedValue_word]
    · rw [parse_hex hne (Nat.le_of_eq hlen), value_word]

/-- The lowest number of two bytes, and a machine that stores a word whose first bit is set. -/
theorem decodings_agree_lowest :
    let bs : List UInt8 := [0x80, 0]
    let m : Machine :=
      { (default : Machine) with
        bytes := #[0x21]
        stack := ⟨32, #[0xFFFFFFFFFFFFFFFE, 3], 2, by decide, by decide⟩ }
    (bs.length ≤ 8 ∧ bs ≠ [] ∧ unsigned.decode bs = .ok "32768" ∧ signed.decode bs = .ok "-32768" ∧
      (hex.decode bs).bind (Literal.parse · 8) = .ok 32768) ∧
    (m.stack.column = [3, 0xFFFFFFFFFFFFFFFE] ∧
      ∃ t stored, m.handleNext (by decide) = .ok .next t ∧ t.readMemory 3 8 = .ok stored ∧
        unsigned.decode stored = .ok "18446744073709551614" ∧ signed.decode stored = .ok "-2") := by
  intro bs m
  obtain ⟨-, -, hshort, -, hstore⟩ := decodings_agree bs
  obtain ⟨hunsigned, hsigned, -, -, -, hhex⟩ := hshort (by decide)
  obtain ⟨t, stored, ht, hread, hu, hs, -⟩ :=
    hstore m (by decide) 3 0xFFFFFFFFFFFFFFFE [] rfl rfl (by decide)
  refine ⟨⟨by decide, by decide, ?_, ?_, hhex (by decide)⟩, rfl, t, stored, ht, hread, ?_, ?_⟩
  · exact hunsigned.trans (congrArg Except.ok (by decide +kernel))
  · exact hsigned.trans (congrArg Except.ok (by decide +kernel))
  · exact hu.trans (congrArg Except.ok (by decide +kernel))
  · exact hs.trans (congrArg Except.ok (by decide +kernel))

end Decoding

end StackMachine
