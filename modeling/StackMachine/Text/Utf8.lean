/-!
# UTF-8

Reading bytes as text.  A leading byte fixes how many continuation bytes follow and which values
the first of them may take; the ranges leave out overlong forms, surrogates and code points past
`10FFFF`.  Where reading fails, the defect names the index of the sequence that cannot be read:

* `invalid n i`: the `n` bytes from index `i` start no sequence, whatever follows them;
* `incomplete i`: the bytes from index `i` to the end could start a sequence, and the input ends.
-/

namespace StackMachine.Text.Utf8

/-- Why bytes are not UTF-8 text. -/
inductive Defect where
  | invalid (length index : Nat)
  | incomplete (index : Nat)
deriving DecidableEq, Repr

/-- What a leading byte promises: the number of continuation bytes, the bits it carries itself and
the range of the first continuation byte. -/
structure Lead where
  rest : Nat
  bits : Nat
  low : Nat
  high : Nat

/-- The promise of a leading byte; continuation bytes and bytes that no sequence starts with give
none. -/
def Lead.ofByte? (b : UInt8) : Option Lead :=
  let n := b.toNat
  if n < 0x80 then some ⟨0, n, 0x80, 0xBF⟩
  else if n < 0xC2 then none
  else if n < 0xE0 then some ⟨1, n - 0xC0, 0x80, 0xBF⟩
  else if n = 0xE0 then some ⟨2, 0, 0xA0, 0xBF⟩
  else if n = 0xED then some ⟨2, 0x0D, 0x80, 0x9F⟩
  else if n < 0xF0 then some ⟨2, n - 0xE0, 0x80, 0xBF⟩
  else if n = 0xF0 then some ⟨3, 0, 0x90, 0xBF⟩
  else if n < 0xF4 then some ⟨3, n - 0xF0, 0x80, 0xBF⟩
  else if n = 0xF4 then some ⟨3, 4, 0x80, 0x8F⟩
  else none

/-- How the continuation bytes of a sequence read. -/
inductive Tail where
  | complete (code : Nat) (rest : List UInt8)
  | broken (length : Nat)
  | cut

/-- Read `count` continuation bytes, the first within `low` and `high`, after `seen` bytes of the
sequence that carry `code`. -/
def tail (count low high seen code : Nat) (bs : List UInt8) : Tail :=
  match count, bs with
  | 0, bs => .complete code bs
  | _ + 1, [] => .cut
  | count + 1, b :: bs =>
    if low ≤ b.toNat ∧ b.toNat ≤ high then
      tail count 0x80 0xBF (seen + 1) (code * 64 + (b.toNat - 0x80)) bs
    else .broken seen

/-- Continuation bytes are taken from the front of the input. -/
theorem length_le_of_tail_eq {count low high seen code : Nat} {bs rest : List UInt8} {n : Nat}
    (h : tail count low high seen code bs = .complete n rest) : rest.length ≤ bs.length := by
  induction count generalizing low high seen code bs with
  | zero =>
    simp only [tail, Tail.complete.injEq] at h
    exact Nat.le_of_eq (congrArg List.length h.2.symm)
  | succ count ih =>
    cases bs with
    | nil => simp [tail] at h
    | cons b bs =>
      simp only [tail] at h
      split at h
      · exact Nat.le_succ_of_le (ih h)
      · exact absurd h (by simp)

/-- The characters of the bytes `bs`, the first of which has the given index. -/
def decodeFrom (index : Nat) (bs : List UInt8) : Except Defect (List Char) :=
  match bs with
  | [] => .ok []
  | b :: bs =>
    match Lead.ofByte? b with
    | none => .error (.invalid 1 index)
    | some lead =>
      match h : tail lead.rest lead.low lead.high 1 lead.bits bs with
      | .broken length => .error (.invalid length index)
      | .cut => .error (.incomplete index)
      | .complete code rest =>
        (decodeFrom (index + 1 + lead.rest) rest).map (Char.ofNat code :: ·)
termination_by bs.length
decreasing_by exact Nat.lt_succ_of_le (length_le_of_tail_eq h)

/-- The text that bytes spell in UTF-8. -/
def decode (bs : List UInt8) : Except Defect (List Char) := decodeFrom 0 bs

/-- The UTF-8 bytes of a text. -/
def encode (cs : List Char) : List UInt8 := cs.flatMap String.utf8EncodeChar

/-- The number of UTF-8 bytes of a text. -/
def width : List Char → Nat
  | [] => 0
  | c :: cs => c.utf8Size + width cs

@[simp] theorem decode_nil : decode [] = .ok [] := by
  rw [decode, decodeFrom]

@[simp] theorem width_append (xs ys : List Char) : width (xs ++ ys) = width xs + width ys := by
  induction xs with
  | nil => simp [width]
  | cons c cs ih => simp [width, ih, Nat.add_assoc]

/-- The width of a text is the number of its bytes. -/
theorem length_encode (cs : List Char) : (encode cs).length = width cs := by
  induction cs with
  | nil => rfl
  | cons c cs ih =>
    rw [encode] at ih
    simp [encode, width, ih]

/-- A text of ASCII characters has as many bytes as characters. -/
theorem width_eq_length {cs : List Char} (h : ∀ c ∈ cs, c.utf8Size = 1) :
    width cs = cs.length := by
  induction cs with
  | nil => rfl
  | cons c cs ih =>
    rw [width, h c List.mem_cons_self, ih fun d hd => h d (List.mem_cons_of_mem c hd),
      List.length_cons, Nat.add_comm]

end StackMachine.Text.Utf8
