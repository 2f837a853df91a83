/-!
# Big-endian bytes

Numbers as byte strings, most significant byte first.  `bigEndian` writes a number in a fixed
number of bytes and drops what does not fit; `value` reads any number of bytes.

* `value_bigEndian`: writing keeps the number modulo `count width`, the number of values that
  `width` bytes can take;
* `bigEndian_value`: reading and writing again gives the same bytes.
-/

namespace StackMachine.Bytes

/-- The number that bytes denote, after `acc` was read. -/
def valueFrom (acc : Nat) (bs : List UInt8) : Nat := bs.foldl (fun n b => n * 256 + b.toNat) acc

/-- The number that bytes denote, most significant byte first. -/
def value (bs : List UInt8) : Nat := valueFrom 0 bs

/-- The number of values that `width` bytes can take. -/
def count : Nat → Nat
  | 0 => 1
  | width + 1 => 256 * count width

/-- The last `width` bytes of a number, most significant first. -/
def bigEndian : Nat → Nat → List UInt8
  | 0, _ => []
  | width + 1, n => bigEndian width (n / 256) ++ [UInt8.ofNat (n % 256)]

@[simp] theorem value_nil : value [] = 0 := rfl

@[simp] theorem length_bigEndian (width n : Nat) : (bigEndian width n).length = width := by
  induction width generalizing n with
  | zero => rfl
  | succ width ih => simp [bigEndian, ih]

/-- The last byte is the least significant one. -/
theorem value_concat (bs : List UInt8) (b : UInt8) :
    value (bs ++ [b]) = value bs * 256 + b.toNat := by
  simp [value, valueFrom, List.foldl_append]

/-- What was read before counts as many times as the bytes have values. -/
theorem valueFrom_eq (acc : Nat) (bs : List UInt8) :
    valueFrom acc bs = acc * count bs.length + value bs := by
  induction bs generalizing acc with
  | nil => simp [valueFrom, value, count]
  | cons b bs ih =>
    have hall := ih (acc * 256 + b.toNat)
    have hone := ih (0 * 256 + b.toNat)
    show valueFrom (acc * 256 + b.toNat) bs = _ + valueFrom (0 * 256 + b.toNat) bs
    rw [hall, hone, List.length_cons, count, Nat.zero_mul, Nat.zero_add, Nat.add_mul,
      Nat.mul_assoc, Nat.add_assoc]

/-- The first of two byte strings denotes multiples of the range of the second. -/
theorem value_append (xs ys : List UInt8) :
    value (xs ++ ys) = value xs * count ys.length + value ys := by
  rw [← valueFrom_eq, value, valueFrom, List.foldl_append]
  rfl

/-- Writing keeps the number modulo the range of the bytes. -/
theorem value_bigEndian (width n : Nat) : value (bigEndian width n) = n % count width := by
  induction width generalizing n with
  | zero => simp [bigEndian, count, Nat.mod_one]
  | succ width ih =>
    have hb : (UInt8.ofNat (n % 256)).toNat = n % 256 := by
      rw [UInt8.toNat_ofNat']
      omega
    rw [bigEndian, value_concat, ih, hb, count, Nat.mod_mul]
    omega

/-- The value of reversed bytes is below the range of their count. -/
theorem value_reverse_lt (bs : List UInt8) : value bs.reverse < count bs.length := by
  induction bs with
  | nil => simp [count]
  | cons b bs ih =>
    have hb := b.toNat_lt
    rw [List.reverse_cons, value_concat, List.length_cons, count]
    omega

/-- Bytes denote a number below the range of their count. -/
theorem value_lt (bs : List UInt8) : value bs < count bs.length := by
  simpa using value_reverse_lt bs.reverse

/-- Reading reversed bytes and writing the number again gives them back. -/
theorem bigEndian_value_reverse (bs : List UInt8) :
    bigEndian bs.length (value bs.reverse) = bs.reverse := by
  induction bs with
  | nil => rfl
  | cons b bs ih =>
    have hb := b.toNat_lt
    have hq : (value bs.reverse * 256 + b.toNat) / 256 = value bs.reverse := by omega
    have hr : (value bs.reverse * 256 + b.toNat) % 256 = b.toNat := by omega
    rw [List.reverse_cons, value_concat, List.length_cons, bigEndian, hq, hr, ih,
      UInt8.ofNat_toNat]

/-- Reading bytes and writing the number in as many bytes gives them back. -/
theorem bigEndian_value (bs : List UInt8) : bigEndian bs.length (value bs) = bs := by
  simpa using bigEndian_value_reverse bs.reverse

end StackMachine.Bytes
