import StackMachine.Text.CharClass

/-!
# Ignorable characters

The characters of the Unicode property `Default_Ignorable_Code_Point`, version 17: those that are
shown as nothing at all where they are not supported, such as soft hyphens, joiners, fillers and
selectors of variants.  Some of them are letters by their category.
-/

namespace StackMachine.Text

/-- The code points at which the property changes. -/
def ignorableChanges : List Nat :=
  [0xAD, 0xAE, 0x34F, 0x350, 0x61C, 0x61D, 0x115F, 0x1161, 0x17B4, 0x17B6, 0x180B, 0x1810, 0x200B,
   0x2010, 0x202A, 0x202F, 0x2060, 0x2070, 0x3164, 0x3165, 0xFE00, 0xFE10, 0xFEFF, 0xFF00, 0xFFA0,
   0xFFA1, 0xFFF0, 0xFFF9, 0x1BCA0, 0x1BCA4, 0x1D173, 0x1D17B, 0xE0000, 0xE1000]

/-- A character that may be shown as nothing. -/
def isIgnorable (c : Char) : Bool := isWithin c.toNat ignorableChanges

end StackMachine.Text
