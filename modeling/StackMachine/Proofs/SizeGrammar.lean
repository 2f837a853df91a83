import StackMachine.Capacities
import StackMachine.Proofs.ByteSlices
import StackMachine.Proofs.LiteralGrammar

/-!
# The grammar of sizes

What a size is and which number it denotes, said without a reader.  A text with the blanks around it
removed (`Trimmed`) falls into four `Parts`: a mark of the radix, a sign, digits and a unit.  The
digits denote a number by position, and the unit is a power of two that it is multiplied with; both
the number and the product are below `2 ^ 64`.

The parts can be told apart, because no digit is a sign, a mark's letter or a unit.  So a text has
one decomposition at most, and the reader finds it (`Parts.Denotes.split`).

The unit is cut off by bytes, one before the end of the text.  A unit is a letter of one byte, so
the cut lies between two characters (`splitUnitAtByte?_eq`).
-/

namespace StackMachine.Text

/-! ## Blanks around a text -/

/-- A text without the blanks before and after it. -/
structure Trimmed (raw text : List Char) : Prop where
  blanks : ∃ before after, raw = before ++ text ++ after ∧
    (∀ c ∈ before, isBlank c = true) ∧ ∀ c ∈ after, isBlank c = true
  head : ∀ c ∈ text.head?, isBlank c = false
  last : ∀ c ∈ text.getLast?, isBlank c = false

theorem trimStart_append {before : List Char} (h : ∀ c ∈ before, isBlank c = true)
    (cs : List Char) : trimStart (before ++ cs) = trimStart cs :=
  List.dropWhile_append_of_pos h

theorem trimEnd_append {after : List Char} (h : ∀ c ∈ after, isBlank c = true) (cs : List Char) :
    trimEnd (cs ++ after) = trimEnd cs := by
  rw [trimEnd, List.reverse_append, List.dropWhile_append_of_pos, trimEnd]
  intro c hc
  exact h c (List.mem_reverse.1 hc)

theorem exists_append_trimStart (cs : List Char) :
    ∃ before, cs = before ++ trimStart cs ∧ ∀ c ∈ before, isBlank c = true :=
  ⟨cs.takeWhile isBlank, List.takeWhile_append_dropWhile.symm,
    fun _ hc => List.all_eq_true.1 List.all_takeWhile _ hc⟩

theorem exists_trimEnd_append (cs : List Char) :
    ∃ after, cs = trimEnd cs ++ after ∧ ∀ c ∈ after, isBlank c = true := by
  obtain ⟨before, hsplit, hblank⟩ := exists_append_trimStart cs.reverse
  refine ⟨before.reverse, ?_, fun c hc => hblank c (List.mem_reverse.1 hc)⟩
  rw [trimEnd, ← List.reverse_append]
  exact List.reverse_eq_iff.1 hsplit

theorem head_trimStart (cs : List Char) {c : Char} (h : c ∈ (trimStart cs).head?) :
    isBlank c = false := by
  have hne : trimStart cs ≠ [] := by
    intro hnil
    rw [hnil] at h
    exact absurd h (by simp)
  have hhead := List.head_dropWhile_not isBlank (l := cs) hne
  rwa [← Option.some.inj ((List.head?_eq_some_head hne).symm.trans h)]

theorem last_trimEnd (cs : List Char) {c : Char} (h : c ∈ (trimEnd cs).getLast?) :
    isBlank c = false := by
  rw [trimEnd, List.getLast?_reverse] at h
  exact head_trimStart _ h

/-- Trimming removes the blanks around a text and nothing else. -/
theorem trimmed_iff {raw text : List Char} : Trimmed raw text ↔ text = trim raw := by
  constructor
  · rintro ⟨⟨before, after, rfl, hbefore, hafter⟩, hhead, hlast⟩
    rw [trim, List.append_assoc, trimStart_append hbefore]
    cases text with
    | nil =>
      rw [List.nil_append, ← List.append_nil after, trimStart_append hafter]
      rfl
    | cons c cs =>
      rw [List.cons_append, trimStart_cons (hhead c rfl), ← List.cons_append, trimEnd_append hafter,
        trimEnd_of_last hlast]
  · rintro rfl
    obtain ⟨before, hraw, hbefore⟩ := exists_append_trimStart raw
    obtain ⟨after, hstart, hafter⟩ := exists_trimEnd_append (trimStart raw)
    refine ⟨⟨before, after, ?_, hbefore, hafter⟩, ?_, fun c hc => last_trimEnd _ hc⟩
    · rw [trim, List.append_assoc, ← hstart]
      exact hraw
    · intro c hc
      refine head_trimStart raw ?_
      rw [hstart, List.head?_append]
      exact Option.or_eq_some_iff.2 (.inl hc)

namespace Size

/-! ## Parts -/

/-- The parts of a size, in order. -/
structure Parts where
  mark : List Char
  sign : List Char
  digits : List Char
  unit : List Char

/-- The mark of a radix. -/
inductive Mark : List Char → Nat → Prop
  | decimal : Mark [] 10
  | lower : Mark ['0', 'x'] 16
  | upper : Mark ['0', 'X'] 16

/-- A unit, and the power of two that it stands for. -/
inductive Scale : List Char → Nat → Prop
  | none : Scale [] 0
  | letter {c capital : Char} {exponent : Nat}
      (h : (capital, exponent) ∈ [('K', 10), ('M', 20), ('G', 30)])
      (hc : c = capital ∨ c = capital.toLower) : Scale [c] exponent

namespace Parts

/-- The parts, one after the other. -/
def text (p : Parts) : List Char := p.mark ++ p.sign ++ p.digits ++ p.unit

/-- The parts are those of a size, whose digits denote `number` and whose unit is
`2 ^ exponent`. -/
structure Denotes (p : Parts) (number exponent : Nat) : Prop where
  sign : p.sign = [] ∨ p.sign = ['+']
  digits : ∃ radix ds, Mark p.mark radix ∧ ds ≠ [] ∧ List.Forall₂ (IsDigit radix) p.digits ds ∧
    number = Nat.ofDigits radix ds.reverse
  unit : Scale p.unit exponent

end Parts

/-- A text is a size of this value. -/
def IsSize (raw : List Char) (value : Nat) : Prop :=
  ∃ parts number exponent, Trimmed raw (Parts.text parts) ∧ parts.Denotes number exponent ∧
    number < 2 ^ 64 ∧ value = number * 2 ^ exponent ∧ value < 2 ^ 64

/-! ## Digits are no marks, signs or units -/

theorem Mark.radix_le {mark : List Char} {radix : Nat} (h : Mark mark radix) : radix ≤ 16 := by
  cases h <;> decide

/-- A digit is no unit, no sign and no letter of a mark. -/
theorem digit_facts {radix d : Nat} {c : Char} (hr : radix ≤ 16) (h : IsDigit radix c d) :
    unit? c = none ∧ c ≠ '+' ∧ c ≠ 'x' ∧ c ≠ 'X' := by
  have hall : ∀ d < 16, [Nat.digitChar d, (Nat.digitChar d).toUpper].all fun c =>
      unit? c = none ∧ c ≠ '+' ∧ c ≠ 'x' ∧ c ≠ 'X' := by
    decide
  have hmem : c ∈ [Nat.digitChar d, (Nat.digitChar d).toUpper] := by
    rcases h.2 with rfl | rfl
    · exact List.mem_cons_self
    · exact List.mem_cons_of_mem _ List.mem_cons_self
  exact of_decide_eq_true (List.all_eq_true.1 (hall d (Nat.lt_of_lt_of_le h.1 hr)) c hmem)

theorem digit_facts_of_mem {radix : Nat} {cs : List Char} {ds : List Nat} (hr : radix ≤ 16)
    (h : List.Forall₂ (IsDigit radix) cs ds) :
    ∀ c ∈ cs, unit? c = none ∧ c ≠ '+' ∧ c ≠ 'x' ∧ c ≠ 'X' := by
  induction h with
  | nil => exact fun c hc => absurd hc List.not_mem_nil
  | cons hd hds ih => exact List.forall_mem_cons.2 ⟨digit_facts hr hd, ih⟩

/-! ## The reader's steps -/

/-- A character is its own capital, or the small letter of its capital. -/
theorem eq_toUpper_or (c : Char) : c = c.toUpper ∨ c = c.toUpper.toLower := by
  have hall : ∀ n < 123, 97 ≤ n → (Char.ofNat n).toUpper.toLower = Char.ofNat n := by decide
  by_cases h : 97 ≤ c.toNat ∧ c.toNat < 123
  · have hc := hall c.toNat h.2 h.1
    rw [Char.ofNat_toNat] at hc
    exact .inr hc.symm
  · refine .inl ?_
    delta Char.toUpper
    rw [dif_neg]
    rintro ⟨hlow, hhigh⟩
    exact h ⟨hlow, Nat.lt_succ_of_le hhigh⟩

/-- The letters that are read as units. -/
theorem unit?_eq_some_iff {c : Char} {factor : Nat} :
    unit? c = some factor ↔ ∃ exponent, Scale [c] exponent ∧ factor = 2 ^ exponent := by
  constructor
  · intro h
    have hc := eq_toUpper_or c
    unfold unit? at h
    split at h
    · rename_i hk
      rw [hk] at hc
      exact ⟨10, .letter (by decide) hc, (Option.some.inj h).symm⟩
    · rename_i hm
      rw [hm] at hc
      exact ⟨20, .letter (by decide) hc, (Option.some.inj h).symm⟩
    · rename_i hg
      rw [hg] at hc
      exact ⟨30, .letter (by decide) hc, (Option.some.inj h).symm⟩
    · exact absurd h (by simp)
  · rintro ⟨exponent, hs, rfl⟩
    cases hs with
    | letter h hc =>
      simp only [List.mem_cons, Prod.mk.injEq, List.not_mem_nil, or_false] at h
      rcases h with ⟨rfl, rfl⟩ | ⟨rfl, rfl⟩ | ⟨rfl, rfl⟩ <;> rcases hc with rfl | rfl <;> rfl

theorem splitUnit_concat {c : Char} {factor : Nat} (h : unit? c = some factor) (cs : List Char) :
    splitUnit (cs ++ [c]) = (cs, factor) := by
  simp [splitUnit, h]

theorem splitUnit_of_last {cs : List Char} (h : ∀ c ∈ cs.getLast?, unit? c = none) :
    splitUnit cs = (cs, 1) := by
  unfold splitUnit
  split
  · rfl
  · rename_i c hc
    rw [h c hc]

/-- The unit is cut off the end of a text. -/
theorem exists_scale {cs numeral : List Char} {factor : Nat}
    (h : splitUnit cs = (numeral, factor)) :
    ∃ unit exponent, Scale unit exponent ∧ cs = numeral ++ unit ∧ factor = 2 ^ exponent := by
  by_cases hlast : ∀ c ∈ cs.getLast?, unit? c = none
  · rw [splitUnit_of_last hlast] at h
    obtain ⟨rfl, rfl⟩ := Prod.mk.inj h
    exact ⟨[], 0, .none, (List.append_nil cs).symm, rfl⟩
  · push Not at hlast
    obtain ⟨c, hc, hu⟩ := hlast
    obtain ⟨_, hfactor⟩ := Option.ne_none_iff_exists'.1 hu
    obtain ⟨front, rfl⟩ := List.getLast?_eq_some_iff.1 hc
    rw [splitUnit_concat hfactor] at h
    obtain ⟨rfl, rfl⟩ := Prod.mk.inj h
    obtain ⟨exponent, hs, hf⟩ := unit?_eq_some_iff.1 hfactor
    exact ⟨[c], exponent, hs, rfl, hf⟩

/-- The mark is cut off the front of a numeral. -/
theorem exists_mark {cs rest : List Char} {radix : Nat} (h : splitRadix cs = (radix, rest)) :
    ∃ mark, Mark mark radix ∧ cs = mark ++ rest := by
  unfold splitRadix at h
  split at h <;> obtain ⟨rfl, rfl⟩ := Prod.mk.inj h
  · exact ⟨_, .lower, rfl⟩
  · exact ⟨_, .upper, rfl⟩
  · exact ⟨_, .decimal, rfl⟩

theorem exists_sign (cs : List Char) :
    ∃ sign, (sign = [] ∨ sign = ['+']) ∧ cs = sign ++ dropPlus cs := by
  unfold dropPlus
  split
  · exact ⟨['+'], .inr rfl, rfl⟩
  · exact ⟨[], .inl rfl, rfl⟩

/-- The steps of the reader. -/
theorem read?_eq_some_iff_steps {cs : List Char} {value : Nat} :
    read? cs = some value ↔
      ∃ numeral factor radix rest number, splitUnit (trim cs) = (numeral, factor) ∧
        splitRadix numeral = (radix, rest) ∧ readDigits radix (dropPlus rest) = some number ∧
        number < bound ∧ value = number * factor ∧ value < bound := by
  constructor
  · intro h
    obtain ⟨number, hn, hv⟩ := Option.bind_eq_some_iff.1 h
    obtain ⟨hread, hlt⟩ := Option.filter_eq_some_iff.1 hn
    obtain ⟨hprod, hvalue⟩ := Option.ite_none_right_eq_some.1 hv
    obtain rfl := Option.some.inj hvalue
    exact ⟨_, _, _, _, number, rfl, rfl, hread, of_decide_eq_true hlt, rfl, hprod⟩
  · rintro ⟨numeral, factor, radix, rest, number, hunit, hradix, hread, hn, rfl, hv⟩
    have hnumber : (some number).filter (· < bound) = some number :=
      Option.filter_eq_some_iff.2 ⟨rfl, decide_eq_true hn⟩
    simp [read?, readNumeral, hunit, hradix, hread, hnumber, hv]

/-- Behind digits there is no unit. -/
theorem splitUnit_append {digits : List Char} (hne : digits ≠ [])
    (hd : ∀ c ∈ digits, unit? c = none) (cs : List Char) :
    splitUnit (cs ++ digits) = (cs ++ digits, 1) := by
  apply splitUnit_of_last
  intro c hc
  rw [List.getLast?_append, List.getLast?_eq_some_getLast hne, Option.some_or] at hc
  exact hd c (Option.some.inj hc ▸ List.getLast_mem hne)

theorem dropPlus_append {sign digits : List Char} (hs : sign = [] ∨ sign = ['+'])
    (hd : ∀ c ∈ digits, c ≠ '+') : dropPlus (sign ++ digits) = digits := by
  rcases hs with rfl | rfl
  · cases digits with
    | nil => rfl
    | cons c cs =>
      rw [List.nil_append, dropPlus]
      rintro rest ⟨⟩
      exact hd '+' List.mem_cons_self rfl
  · rfl

/-- A numeral without a mark is decimal. -/
theorem splitRadix_of_not_mem {cs : List Char} (hx : 'x' ∉ cs) (hX : 'X' ∉ cs) :
    splitRadix cs = (10, cs) := by
  unfold splitRadix
  split
  · exact absurd (by simp) hx
  · exact absurd (by simp) hX
  · rfl

namespace Parts

variable {p q : Parts} {number exponent : Nat}

/-- The reader takes a size apart into its parts. -/
theorem Denotes.split (h : p.Denotes number exponent) :
    splitUnit p.text = (p.mark ++ (p.sign ++ p.digits), 2 ^ exponent) ∧
      (∃ radix, splitRadix (p.mark ++ (p.sign ++ p.digits)) = (radix, p.sign ++ p.digits) ∧
        readDigits radix p.digits = some number) ∧
      dropPlus (p.sign ++ p.digits) = p.digits := by
  obtain ⟨mark, sign, digits, unit⟩ := p
  obtain ⟨hsign, ⟨radix, ds, hmark, hne, hds, hnumber⟩, hunit⟩ := h
  simp only at hsign hmark hds hunit
  simp only [text, List.append_assoc]
  have hfacts := digit_facts_of_mem hmark.radix_le hds
  have hnil : digits ≠ [] := by
    rintro rfl
    cases hds
    exact hne rfl
  refine ⟨?_, ⟨radix, ?_, (readDigits_eq_some_iff hmark.radix_le).2 ⟨ds, hne, hds, hnumber⟩⟩, ?_⟩
  · cases hunit with
    | none =>
      rw [List.append_nil, ← List.append_assoc, splitUnit_append hnil fun c hc => (hfacts c hc).1]
      rfl
    | @letter c capital exponent hl hc =>
      rw [← List.append_assoc sign, ← List.append_assoc mark,
        splitUnit_concat (unit?_eq_some_iff.2 ⟨exponent, .letter hl hc, rfl⟩)]
  · cases hmark with
    | decimal =>
      have hletter : ∀ c ∈ sign ++ digits, c ≠ 'x' ∧ c ≠ 'X' := by
        intro c hc
        rcases List.mem_append.1 hc with hc | hc
        · rcases hsign with rfl | rfl
          · exact absurd hc List.not_mem_nil
          · rw [List.mem_singleton.1 hc]
            decide
        · exact (hfacts c hc).2.2
      exact splitRadix_of_not_mem (fun hx => (hletter _ hx).1 rfl) (fun hX => (hletter _ hX).2 rfl)
    | lower => rfl
    | upper => rfl
  · exact dropPlus_append hsign fun c hc => (hfacts c hc).2.1

/-- A text has one decomposition. -/
theorem Denotes.unique {number' exponent' : Nat} (hp : p.Denotes number exponent)
    (hq : q.Denotes number' exponent') (h : p.text = q.text) :
    p = q ∧ number = number' ∧ exponent = exponent' := by
  obtain ⟨hunit, ⟨radix, hradix, hread⟩, hsign⟩ := hp.split
  obtain ⟨hunit', ⟨radix', hradix', hread'⟩, hsign'⟩ := hq.split
  -- The unit, the mark and the sign come off in turn, on both sides in the same way.
  rw [h, hunit'] at hunit
  obtain ⟨hnumeral, hpower⟩ := Prod.mk.inj hunit
  rw [← hnumeral, hradix'] at hradix
  obtain ⟨rfl, hsigned⟩ := Prod.mk.inj hradix
  rw [← hsigned, hsign'] at hsign
  rw [← hsign, hread'] at hread
  refine ⟨?_, (Option.some.inj hread).symm, Nat.pow_right_injective le_rfl hpower.symm⟩
  obtain ⟨mark, sign, digits, unit⟩ := p
  obtain ⟨mark', sign', digits', unit'⟩ := q
  simp only [text] at h hnumeral hsigned hsign
  subst hsign
  obtain rfl := List.append_cancel_right hsigned
  obtain rfl := List.append_cancel_right hnumeral
  obtain rfl := List.append_cancel_left h
  rfl

end Parts

/-- A text is read as a number exactly if it is a size of that value. -/
theorem read?_eq_some_iff {cs : List Char} {value : Nat} :
    read? cs = some value ↔ IsSize cs value := by
  rw [read?_eq_some_iff_steps]
  constructor
  · rintro ⟨numeral, factor, radix, rest, number, hunit, hradix, hread, hn, rfl, hv⟩
    obtain ⟨unit, exponent, hscale, htext, rfl⟩ := exists_scale hunit
    obtain ⟨mark, hmark, hnumeral⟩ := exists_mark hradix
    obtain ⟨sign, hsign, hrest⟩ := exists_sign rest
    obtain ⟨ds, hne, hds, hnumber⟩ := (readDigits_eq_some_iff hmark.radix_le).1 hread
    refine ⟨⟨mark, sign, dropPlus rest, unit⟩, number, exponent, trimmed_iff.2 ?_,
      ⟨hsign, ⟨radix, ds, hmark, hne, hds, hnumber⟩, hscale⟩, hn, rfl, hv⟩
    rw [Parts.text, List.append_assoc mark, ← hrest, ← hnumeral, ← htext]
  · rintro ⟨p, number, exponent, htrim, hp, hn, rfl, hv⟩
    obtain ⟨hunit, ⟨radix, hradix, hread⟩, hsign⟩ := hp.split
    rw [trimmed_iff.1 htrim] at hunit
    exact ⟨_, _, radix, _, number, hunit, hradix, hsign.symm ▸ hread, hn, rfl, hv⟩

/-! ## Cuts by bytes -/

/-- `splitUnit` with a text that is cut by bytes, one before its end. -/
def splitUnitAtByte? (cs : List Char) : Option (List Char × Nat) :=
  match cs.getLast?.bind unit? with
  | none => some (cs, 1)
  | some factor => do
    let stop ← Nat.psub (Utf8.width cs) 1
    let numeral ← Utf8.takeBytes? cs stop
    some (numeral, factor)

/-- A unit is one byte. -/
theorem utf8Size_of_scale {c : Char} {exponent : Nat} (h : Scale [c] exponent) :
    c.utf8Size = 1 := by
  cases h with
  | letter h hc =>
    simp only [List.mem_cons, Prod.mk.injEq, List.not_mem_nil, or_false] at h
    rcases h with ⟨rfl, -⟩ | ⟨rfl, -⟩ | ⟨rfl, -⟩ <;> rcases hc with rfl | rfl <;> rfl

/-- The cut before the last byte of a text lies between two characters. -/
theorem splitUnitAtByte?_eq (cs : List Char) : splitUnitAtByte? cs = some (splitUnit cs) := by
  unfold splitUnitAtByte?
  cases hlast : cs.getLast?.bind unit? with
  | none =>
    have hnone : ∀ c ∈ cs.getLast?, unit? c = none := fun c hc =>
      Option.bind_eq_none_iff.1 hlast c hc
    rw [splitUnit_of_last hnone]
  | some factor =>
    obtain ⟨c, hc, hu⟩ := Option.bind_eq_some_iff.1 hlast
    obtain ⟨front, rfl⟩ := List.getLast?_eq_some_iff.1 hc
    obtain ⟨exponent, hscale, -⟩ := unit?_eq_some_iff.1 hu
    have hwidth : Utf8.width (front ++ [c]) = Utf8.width front + 1 := by
      rw [Utf8.width_append]
      show Utf8.width front + (c.utf8Size + 0) = _
      rw [utf8Size_of_scale hscale]
    rw [splitUnit_concat hu, hwidth]
    simp only [Nat.psub_eq_sub (Nat.le_add_left 1 _), Nat.add_sub_cancel, Utf8.takeBytes?_width,
      Option.bind_eq_bind, Option.bind_some]

end Size

end StackMachine.Text

namespace StackMachine.Capacities

open Text.Size

/-- **A capacity is read from the sizes, and from nothing else.**  A text is accepted with a value
exactly if it is a size of that value.  The parts of a size, and what they denote, are determined by
the text.  All other texts are refused, with an error that names the text.  Where a unit is cut off
by bytes, the cut lies between two characters. -/
theorem parseSize_exact (raw : String) :
    (∀ value, parseSize raw = .ok value ↔ IsSize raw.toList value) ∧
      (∀ (p q : Parts) (number exponent number' exponent' : Nat), p.Denotes number exponent →
        q.Denotes number' exponent' → p.text = q.text →
          p = q ∧ number = number' ∧ exponent = exponent') ∧
      ((∀ value, ¬ IsSize raw.toList value) →
        parseSize raw = .error (.invalidCapacity ("invalid size '" ++ raw ++ "'"))) ∧
      splitUnitAtByte? (Text.trim raw.toList) = some (splitUnit (Text.trim raw.toList)) := by
  refine ⟨?_, ?_, ?_, splitUnitAtByte?_eq _⟩
  · intro value
    rw [← read?_eq_some_iff, parseSize]
    cases read? raw.toList with
    | none => simp
    | some n => simp
  · intro p q number exponent number' exponent' hp hq h
    exact hp.unique hq h
  · intro h
    rw [parseSize]
    cases hr : read? raw.toList with
    | none => rfl
    | some n => exact absurd (read?_eq_some_iff.1 hr) (h n)

end StackMachine.Capacities
