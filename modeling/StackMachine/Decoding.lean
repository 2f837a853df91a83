import StackMachine.Bytes
import StackMachine.Error
import StackMachine.Text.Utf8

/-!
# Decodings

How output bytes are shown: as an unsigned or a signed big-endian integer of at most eight bytes,
as hexadecimal, or as UTF-8 text.  Fewer than eight bytes are widened on the left, by zeros or by
copies of the sign bit.
-/

namespace StackMachine

/-- A way to show bytes. -/
inductive Decoding where
  | unsigned
  | signed
  | hex
  | text
deriving DecidableEq, Repr

namespace Decoding

/-- The number of bytes of a word. -/
def wordSize : Nat := 8

/-- The name of a decoding. -/
def name : Decoding → String
  | unsigned => "u64"
  | signed => "i64"
  | hex => "hex"
  | text => "text"

/-- The decoding that a text names. -/
def parse (s : String) : Result Decoding :=
  if s = "u64" ∨ s = "unsigned" then .ok unsigned
  else if s = "i64" ∨ s = "signed" then .ok signed
  else if s = "hex" then .ok hex
  else if s = "text" then .ok text
  else
    .error (.undecodable ("unknown decoding '" ++ s ++ "' (expected u64, i64, hex or text)"))

/-- The value of bytes in two's complement. -/
def signedValue (bs : List UInt8) : Int :=
  match bs with
  | [] => 0
  | b :: _ =>
    if 0x80 ≤ b.toNat then (Bytes.value bs : Int) - Bytes.count bs.length else Bytes.value bs

/-- The report of a defect in UTF-8 text. -/
def defectMessage : Text.Utf8.Defect → String
  | .invalid length index =>
    "invalid utf-8 sequence of " ++ number length ++ " bytes from index " ++ number index
  | .incomplete index => "incomplete utf-8 byte sequence from index " ++ number index

/-- The error for more bytes than a word has. -/
def tooLong (length : Nat) : Error :=
  .undecodable (number length ++ " bytes do not fit in a " ++ number wordSize ++ "-byte integer")

/-- Show an integer made from bytes, if they are no more than a word. -/
def decodeInteger (value : List UInt8 → List Char) (bs : List UInt8) : Result (List Char) :=
  if bs.length ≤ wordSize then .ok (value bs) else .error (tooLong bs.length)

/-- The characters that show bytes. -/
def decodeChars : Decoding → List UInt8 → Result (List Char)
  | unsigned, bs => decodeInteger (fun bs => Text.decimal (Bytes.value bs)) bs
  | signed, bs => decodeInteger (fun bs => Text.signedDecimal (signedValue bs)) bs
  | hex, bs => .ok ('0' :: 'x' :: bs.flatMap Text.byteHex)
  | text, bs =>
    match Text.Utf8.decode bs with
    | .ok cs => .ok cs
    | .error d =>
      .error (.undecodable ("returned bytes are not valid UTF-8: " ++ defectMessage d))

/-- The text that shows bytes. -/
def decode (d : Decoding) (bs : List UInt8) : Result String := (d.decodeChars bs).map String.ofList

/-- Every decoding is named by its name. -/
theorem parse_name (d : Decoding) : parse d.name = .ok d := by
  cases d <;> simp [parse, name]

end Decoding

end StackMachine
