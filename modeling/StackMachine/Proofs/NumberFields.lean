import Mathlib.Algebra.Group.Nat.Defs
import Mathlib.Data.List.Forall2
import Mathlib.Tactic.Tauto
import StackMachine.Text.Numeral

/-!
# Numbers in fields

A row of numbers written in a layout: each number with a fixed number of decimal digits, followed by
a fixed mark.  Texts of one layout are ordered as their rows are, number by number
(`fill_lt_fill_iff`): two numbers of the same width have their digits in the order of the numbers,
and the marks are equal.  A text has the shape of its layout, with a digit at each place of a number
(`fits_fill`).
-/

namespace StackMachine

namespace Text

/-! ## Digits in a fixed number of places -/

/-- The last `width` decimal digits of a number. -/
def lastDigits : Nat → Nat → List Char
  | 0, _ => []
  | width + 1, n => lastDigits width (n / 10) ++ [Nat.digitChar (n % 10)]

@[simp] theorem length_lastDigits (width n : Nat) : (lastDigits width n).length = width := by
  induction width generalizing n with
  | zero => rfl
  | succ width ih => rw [lastDigits, List.length_append, ih, List.length_singleton]

theorem lastDigits_zero (width : Nat) : lastDigits width 0 = List.replicate width '0' := by
  induction width with
  | zero => rfl
  | succ width ih =>
    rw [lastDigits, Nat.zero_div, ih, List.replicate_succ']
    rfl

theorem isDigit_of_mem_lastDigits {width n : Nat} :
    ∀ c ∈ lastDigits width n, c.isDigit = true := by
  have hdigit : ∀ d < 10, (Nat.digitChar d).isDigit = true := by decide
  induction width generalizing n with
  | zero =>
    intro c hc
    exact absurd hc List.not_mem_nil
  | succ width ih =>
    intro c hc
    rcases List.mem_append.1 hc with hfront | hlast
    · exact ih c hfront
    · rw [List.mem_singleton.1 hlast]
      exact hdigit _ (Nat.mod_lt _ (by decide))

/-- A number that has room in a field is written with its last digits. -/
theorem zeroPadded_eq {width n : Nat} (hw : 0 < width) (h : n < 10 ^ width) :
    zeroPadded width n = lastDigits width n := by
  induction width generalizing n with
  | zero => exact absurd hw (Nat.lt_irrefl 0)
  | succ width ih =>
    rcases Nat.lt_or_ge n 10 with hn | hn
    · rw [zeroPadded, decimal, Nat.toDigits_of_lt_base hn, lastDigits, Nat.div_eq_of_lt hn,
        Nat.mod_eq_of_lt hn, lastDigits_zero]
      rfl
    · -- The digits but the last one are those of the quotient by ten, in one place less.
      have hquotient : n / 10 < 10 ^ width := by
        rw [Nat.pow_succ] at h
        omega
      have hwidth : 0 < width := by
        rcases Nat.eq_zero_or_pos width with rfl | hpos
        · omega
        · exact hpos
      have hsplit : Nat.toDigits 10 n = Nat.toDigits 10 (n / 10) ++ [Nat.digitChar (n % 10)] := by
        have happend := Nat.toDigits_append_toDigits (b := 10) (n := n / 10) (d := n % 10)
          (by decide) (by omega) (Nat.mod_lt _ (by decide))
        rw [Nat.div_add_mod, Nat.toDigits_of_lt_base (Nat.mod_lt _ (by decide))] at happend
        exact happend.symm
      rw [lastDigits, ← ih hwidth hquotient, zeroPadded, zeroPadded, decimal, decimal, hsplit,
        List.leftpad, List.leftpad, List.length_append, List.length_singleton,
        Nat.add_sub_add_right, List.append_assoc]

/-! ## Lists one behind the other -/

section Append

variable {α : Type} [LT α] [Std.Irrefl fun x y : α => x < y]

/-- Lists that start with parts of the same length are ordered by these parts first. -/
theorem append_lt_append_iff {xs ys : List α} (h : xs.length = ys.length) (front behind : List α) :
    xs ++ front < ys ++ behind ↔ xs < ys ∨ xs = ys ∧ front < behind := by
  induction xs generalizing ys with
  | nil =>
    obtain rfl := List.eq_nil_of_length_eq_zero h.symm
    simp [List.lt_irrefl]
  | cons x xs ih =>
    cases ys with
    | nil => exact absurd h (by simp)
    | cons y ys =>
      have htail := ih (Nat.succ.inj h)
      simp only [List.cons_append, List.cons_lt_cons_iff, htail, List.cons.injEq]
      tauto

theorem append_lt_append_left_iff (xs front behind : List α) :
    xs ++ front < xs ++ behind ↔ front < behind := by
  rw [append_lt_append_iff rfl]
  simp [List.lt_irrefl]

end Append

theorem digitChar_lt_iff {d e : Nat} (hd : d < 10) (he : e < 10) :
    Nat.digitChar d < Nat.digitChar e ↔ d < e := by
  have hall : ∀ d < 10, ∀ e < 10, Nat.digitChar d < Nat.digitChar e ↔ d < e := by decide
  exact hall d hd e he

theorem digitChar_inj {d e : Nat} (hd : d < 10) (he : e < 10)
    (h : Nat.digitChar d = Nat.digitChar e) : d = e := by
  have hall : ∀ d < 10, ∀ e < 10, Nat.digitChar d = Nat.digitChar e → d = e := by decide
  exact hall d hd e he h

/-- A number that has room in some places can be read off its digits. -/
theorem lastDigits_inj {width n m : Nat} (hn : n < 10 ^ width) (hm : m < 10 ^ width)
    (h : lastDigits width n = lastDigits width m) : n = m := by
  induction width generalizing n m with
  | zero =>
    rw [Nat.pow_zero] at hn hm
    omega
  | succ width ih =>
    rw [Nat.pow_succ] at hn hm
    have hlength : (lastDigits width (n / 10)).length = (lastDigits width (m / 10)).length := by
      rw [length_lastDigits, length_lastDigits]
    obtain ⟨hfront, hlast⟩ := List.append_inj h hlength
    have hquotient := ih (by omega) (by omega) hfront
    have hdigit := digitChar_inj (Nat.mod_lt _ (by decide)) (Nat.mod_lt _ (by decide))
      (List.singleton_inj.1 hlast)
    omega

/-- Digits in the same number of places are ordered as the numbers are. -/
theorem lastDigits_lt_iff {width n m : Nat} (hn : n < 10 ^ width) (hm : m < 10 ^ width) :
    lastDigits width n < lastDigits width m ↔ n < m := by
  induction width generalizing n m with
  | zero =>
    rw [Nat.pow_zero] at hn hm
    have hempty : ¬ lastDigits 0 n < lastDigits 0 m := List.lt_irrefl []
    exact iff_of_false hempty (by omega)
  | succ width ih =>
    rw [Nat.pow_succ] at hn hm
    have hfront := ih (show n / 10 < 10 ^ width by omega) (show m / 10 < 10 ^ width by omega)
    have hlast := digitChar_lt_iff (Nat.mod_lt n (by decide)) (Nat.mod_lt m (by decide))
    rw [lastDigits, lastDigits, append_lt_append_iff (by simp), hfront, List.cons_lt_cons_iff,
      hlast]
    constructor
    · rintro (hlt | ⟨heq, hlt | ⟨-, hnil⟩⟩)
      · omega
      · have hquotient := lastDigits_inj (by omega) (by omega) heq
        omega
      · exact absurd hnil (List.lt_irrefl [])
    · intro hlt
      rcases Nat.lt_or_ge (n / 10) (m / 10) with hq | hq
      · exact .inl hq
      · have hquotient : n / 10 = m / 10 := by omega
        exact .inr ⟨congrArg _ hquotient, .inl (by omega)⟩

/-! ## Rows of numbers -/

/-- A number of decimal places and the mark behind them. -/
structure Field where
  width : Nat
  mark : List Char
deriving DecidableEq, Repr

/-- The text of a row of numbers in the fields of a layout. -/
def fill : List Field → List Nat → List Char
  | f :: fs, n :: ns => zeroPadded f.width n ++ (f.mark ++ fill fs ns)
  | _, _ => []

/-- A number has room in a field. -/
def Field.Holds (f : Field) (n : Nat) : Prop := 0 < f.width ∧ n < 10 ^ f.width

variable {fs : List Field} {ns ms : List Nat}

/-- **Texts of one layout are ordered as their rows of numbers are.** -/
theorem fill_lt_fill_iff (hn : List.Forall₂ Field.Holds fs ns)
    (hm : List.Forall₂ Field.Holds fs ms) : fill fs ns < fill fs ms ↔ ns < ms := by
  induction hn generalizing ms with
  | nil =>
    cases hm
    exact iff_of_false (List.lt_irrefl []) (List.lt_irrefl [])
  | @cons f n fs ns hf _ ih =>
    cases hm with
    | @cons _ m _ ms hg hm =>
      have htail := ih hm
      have hwidth : (lastDigits f.width n).length = (lastDigits f.width m).length := by
        rw [length_lastDigits, length_lastDigits]
      rw [fill, fill, zeroPadded_eq hf.1 hf.2, zeroPadded_eq hg.1 hg.2,
        append_lt_append_iff hwidth, append_lt_append_left_iff, lastDigits_lt_iff hf.2 hg.2,
        List.cons_lt_cons_iff, htail]
      constructor
      · rintro (hlt | ⟨heq, hlt⟩)
        · exact .inl hlt
        · exact .inr ⟨lastDigits_inj hf.2 hg.2 heq, hlt⟩
      · rintro (hlt | ⟨rfl, hlt⟩)
        · exact .inl hlt
        · exact .inr ⟨rfl, hlt⟩

theorem eq_of_not_lt (h : ¬ ns < ms) (h' : ¬ ms < ns) : ns = ms :=
  List.le_antisymm (List.not_lt.1 h') (List.not_lt.1 h)

/-- Different rows of numbers have different texts. -/
theorem fill_inj (hn : List.Forall₂ Field.Holds fs ns) (hm : List.Forall₂ Field.Holds fs ms)
    (h : fill fs ns = fill fs ms) : ns = ms := by
  apply eq_of_not_lt
  · rw [← fill_lt_fill_iff hn hm, h]
    exact List.lt_irrefl _
  · rw [← fill_lt_fill_iff hm hn, h]
    exact List.lt_irrefl _

/-! ## Shapes -/

/-- A character fits a pattern: a `d` asks for a digit, any other character for itself. -/
def Fits (pattern c : Char) : Prop := if pattern = 'd' then c.isDigit = true else c = pattern

/-- The pattern of the texts of a layout. -/
def pattern (fs : List Field) : List Char :=
  fs.flatMap fun f => List.replicate f.width 'd' ++ f.mark

theorem fits_digits {cs : List Char} (h : ∀ c ∈ cs, c.isDigit = true) :
    List.Forall₂ Fits (List.replicate cs.length 'd') cs := by
  induction cs with
  | nil => exact .nil
  | cons c cs ih =>
    have hrest := ih fun c hc => h c (List.mem_cons_of_mem _ hc)
    exact .cons (h c List.mem_cons_self) hrest

theorem fits_self {cs : List Char} (h : 'd' ∉ cs) : List.Forall₂ Fits cs cs := by
  induction cs with
  | nil => exact .nil
  | cons c cs ih =>
    have hc : c ≠ 'd' := fun he => h (he ▸ List.mem_cons_self)
    exact .cons (by rw [Fits, if_neg hc]) (ih fun hd => h (List.mem_cons_of_mem _ hd))

/-- The text of a row fits the pattern of its layout. -/
theorem fits_fill (hmark : ∀ f ∈ fs, 'd' ∉ f.mark) (hn : List.Forall₂ Field.Holds fs ns) :
    List.Forall₂ Fits (pattern fs) (fill fs ns) := by
  induction hn with
  | nil => exact .nil
  | @cons f n fs ns hf _ ih =>
    have htail := ih fun g hg => hmark g (List.mem_cons_of_mem _ hg)
    have hfront := fits_self (hmark f List.mem_cons_self)
    have hall : ∀ c ∈ lastDigits f.width n, c.isDigit = true := isDigit_of_mem_lastDigits
    have hdigits := fits_digits hall
    rw [length_lastDigits] at hdigits
    rw [fill, zeroPadded_eq hf.1 hf.2, pattern, List.flatMap_cons, List.append_assoc]
    exact List.rel_append hdigits (List.rel_append hfront htail)

end Text

end StackMachine
