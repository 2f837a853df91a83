import Mathlib.Data.Nat.PSub
import StackMachine.Text.Utf8

/-!
# Slices by bytes

A text is cut at byte indices.  A cut inside a character, or behind the end, has no result, so a slice
that is there shows that both of its cuts lie between characters.
-/

namespace StackMachine.Text.Utf8

/-- The characters of the first bytes of a text, unless the last of these characters is cut. -/
def takeBytes? : List Char → Nat → Option (List Char)
  | _, 0 => some []
  | [], _ + 1 => none
  | c :: cs, bytes + 1 =>
    (Nat.psub (bytes + 1) c.utf8Size).bind fun left => (takeBytes? cs left).map (c :: ·)

/-- The characters behind the first bytes of a text, unless a character is cut. -/
def dropBytes? : List Char → Nat → Option (List Char)
  | cs, 0 => some cs
  | [], _ + 1 => none
  | c :: cs, bytes + 1 => (Nat.psub (bytes + 1) c.utf8Size).bind (dropBytes? cs)

/-- The characters of a text from one byte index up to another. -/
def slice? (cs : List Char) (start stop : Nat) : Option (List Char) := do
  let rest ← dropBytes? cs start
  let bytes ← Nat.psub stop start
  takeBytes? rest bytes

/-- A character is at least one byte. -/
theorem exists_width_cons (c : Char) (cs : List Char) :
    ∃ bytes, width (c :: cs) = bytes + 1 ∧ Nat.psub (bytes + 1) c.utf8Size = some (width cs) := by
  have hpos : c.utf8Size + width cs ≠ 0 := by
    have := c.utf8Size_pos
    omega
  obtain ⟨bytes, hbytes⟩ := Nat.exists_eq_add_one_of_ne_zero hpos
  refine ⟨bytes, hbytes, ?_⟩
  rw [← hbytes, Nat.psub_eq_sub (Nat.le_add_right _ _), Nat.add_sub_cancel_left]

/-- A cut behind some characters of a text gives these characters. -/
theorem takeBytes?_width (xs ys : List Char) : takeBytes? (xs ++ ys) (width xs) = some xs := by
  induction xs with
  | nil => cases ys <;> rfl
  | cons c xs ih =>
    obtain ⟨bytes, hbytes, hleft⟩ := exists_width_cons c xs
    rw [hbytes, List.cons_append, takeBytes?, hleft, Option.bind_some, ih]
    rfl

/-- A cut behind some characters of a text leaves the other ones. -/
theorem dropBytes?_width (xs ys : List Char) : dropBytes? (xs ++ ys) (width xs) = some ys := by
  induction xs with
  | nil => cases ys <;> rfl
  | cons c xs ih =>
    obtain ⟨bytes, hbytes, hleft⟩ := exists_width_cons c xs
    rw [hbytes, List.cons_append, dropBytes?, hleft, Option.bind_some, ih]

/-- The slice between the two ends of a part of a text is that part. -/
theorem slice?_width (before part after : List Char) :
    slice? (before ++ (part ++ after)) (width before) (width before + width part) = some part := by
  simp only [slice?, dropBytes?_width, Nat.psub_eq_sub (Nat.le_add_right _ _),
    Nat.add_sub_cancel_left, Option.bind_eq_bind, Option.bind_some, takeBytes?_width]

end StackMachine.Text.Utf8
