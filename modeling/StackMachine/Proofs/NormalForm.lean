import Mathlib.Data.List.Forall2
import StackMachine.Proofs.LineGrammar
import StackMachine.Proofs.ListingExactness

/-!
# The listing is the normal form of a source

A source may say the same thing in many ways: with other comments, blanks, line ends, radixes and
leading zeros.  What a line says is a `Statement`, its mnemonic and the number behind it.  A source
that assembles has one statement for each line with words, and its code has a listing that shows
these statements in one fixed way, each on a line of its own.

Statements, codes and listings determine each other.  A statement names its instruction,
instructions can be recovered from their code, and the listing of some code assembles back to it.
So two sources have the same code exactly if they say the same, and exactly if they have the same
listing.
-/

namespace StackMachine

namespace Text

/-- The lowercase hexadecimal digits of a number.  A zero stands first only if it is the only
digit. -/
structure IsHexadecimal (cs : List Char) (value : Nat) : Prop where
  ne_nil : cs ≠ []
  digits : ∃ ds : List Nat, cs = ds.map Nat.digitChar ∧ (∀ d ∈ ds, d < 16) ∧
    value = Nat.ofDigits 16 ds.reverse
  head : cs.head? = some '0' → cs = ['0']

/-- Only zero is written with a zero alone. -/
theorem IsHexadecimal.eq_zero {value : Nat} (h : IsHexadecimal ['0'] value) : value = 0 := by
  obtain ⟨ds, hds, hlt, rfl⟩ := h.digits
  obtain ⟨d, rest, rfl, hd, hrest⟩ := List.map_eq_cons_iff.1 hds.symm
  obtain rfl := List.map_eq_nil_iff.1 hrest
  have hzero : ∀ d < 16, Nat.digitChar d = '0' → d = 0 := by decide
  obtain rfl := hzero d (hlt d List.mem_cons_self) hd
  rfl

/-- A digit behind the digits of a number that is not zero makes the digits of a larger one. -/
theorem IsHexadecimal.concat {cs : List Char} {value d : Nat} (h : IsHexadecimal cs value)
    (hv : 0 < value) (hd : d < 16) :
    IsHexadecimal (cs ++ [Nat.digitChar d]) (16 * value + d) := by
  obtain ⟨ds, rfl, hlt, rfl⟩ := h.digits
  refine ⟨by simp, ⟨ds ++ [d], by simp, ?_, ?_⟩, ?_⟩
  · intro e he
    rcases List.mem_append.1 he with he | he
    · exact hlt e he
    · exact List.mem_singleton.1 he ▸ hd
  · rw [List.reverse_append, List.reverse_singleton, List.singleton_append, Nat.ofDigits_cons]
    omega
  · -- A zero in front would be the only digit before the new one, and the number zero.
    intro hz
    rw [List.head?_append_of_ne_nil _ h.ne_nil] at hz
    have hone := h.head hz
    rw [hone] at h
    exact absurd h.eq_zero (by omega)

theorem isHexadecimal_hexadecimal (value : Nat) : IsHexadecimal (hexadecimal value) value := by
  unfold hexadecimal
  induction value using Nat.base_induction 16 (by decide) with
  | single n hn =>
    rw [Nat.toDigits_of_lt_base hn]
    refine ⟨List.cons_ne_nil _ _, ⟨[n], rfl, ?_, ?_⟩, ?_⟩
    · intro d hd
      exact List.mem_singleton.1 hd ▸ hn
    · exact Nat.ofDigits_singleton.symm
    · intro hz
      rw [Option.some.inj hz]
  | digit n d hd hn ih =>
    rw [← Nat.toDigits_append_toDigits (by decide) hn hd, Nat.toDigits_of_lt_base hd]
    exact ih.concat hn hd

end Text

namespace Assembly

/-- What a line says: the word in front, and the number of the word behind it. -/
structure Statement where
  mnemonic : List Char
  operand : Option Nat
deriving DecidableEq, Repr

/-- The words of a line and what they say. -/
inductive Says : List (List Char) → Statement → Prop
  | plain {mnemonic : List Char} : Says [mnemonic] ⟨mnemonic, none⟩
  | operand {mnemonic literal : List Char} {value : Nat} (hl : Literal.Denotes literal value) :
      Says [mnemonic, literal] ⟨mnemonic, some value⟩

/-- The lines of a source that have words: they are not blank, and no comments only. -/
def linesWithWords (source : String) : List (List Char) :=
  (Text.lines source.toList).filter fun line => !(pieces line).isEmpty

/-- The lines of a source that have words make these statements, in order. -/
def Statements (source : String) (ss : List Statement) : Prop :=
  List.Forall₂ (fun line s => Says (pieces line) s) (linesWithWords source) ss

/-- The line of a listing that shows a statement: the mnemonic alone, or the mnemonic of a push, one
space, `0x` and the hexadecimal digits of the number. -/
inductive Shown : Statement → List Char → Prop
  | plain {o : Opcode} (ho : o.width = 0) : Shown ⟨o.mnemonic.toList, none⟩ o.mnemonic.toList
  | push {o : Opcode} {value : Nat} {digits : List Char} (ho : o = .push1 ∨ o = .push8)
      (hd : Text.IsHexadecimal digits value) :
      Shown ⟨o.mnemonic.toList, some value⟩ (o.mnemonic.toList ++ ' ' :: '0' :: 'x' :: digits)

/-- The statement that names an instruction. -/
def statementOf (i : Instruction) : Statement := ⟨i.opcode.mnemonic.toList, i.operand?⟩

/-! ## Statements and instructions -/

theorem statementOf_injective {i j : Instruction} (h : statementOf i = statementOf j) : i = j := by
  obtain ⟨hm, ho⟩ := Statement.mk.inj h
  have hopcode : i.opcode = j.opcode := by
    have hi := Opcode.ofMnemonic?_mnemonic i.opcode
    rw [String.toList_inj.1 hm, Opcode.ofMnemonic?_mnemonic] at hi
    exact (Option.some.inj hi).symm
  rw [← i.ofOpcode_operand, ← j.ofOpcode_operand, hopcode, ho]

/-- Words say one thing at most. -/
theorem Says.unique {ws : List (List Char)} {s t : Statement} (hs : Says ws s) (ht : Says ws t) :
    s = t := by
  cases hs with
  | plain =>
    cases ht with
    | plain => rfl
  | operand hl =>
    cases ht with
    | operand hl' =>
      have hv := Literal.read?_eq_some_iff.2 hl
      rw [Literal.read?_eq_some_iff.2 hl'] at hv
      rw [Option.some.inj hv]

theorem says_of_spells {l : List Char} {i : Instruction} (h : Spells l i) :
    Says (pieces l) (statementOf i) := by
  rw [pieces_eq_map_words, statementOf]
  cases ho : i.operand? with
  | none =>
    rw [(spells_of_none ho).1 h]
    exact .plain
  | some value =>
    obtain ⟨literal, hw, hr⟩ := (spells_of_some ho).1 h
    rw [hw]
    exact .operand (Literal.read?_eq_some_iff.1 hr)

theorem Says.ne_nil {ws : List (List Char)} {s : Statement} (h : Says ws s) : ws ≠ [] := by
  cases h with
  | plain => exact List.cons_ne_nil _ _
  | operand hl => exact List.cons_ne_nil _ _

/-- Lines that spell instructions make their statements. -/
theorem forall₂_says_of_spelled {ls : List (List Char)} {is : List Instruction}
    (h : Spelled ls is) :
    List.Forall₂ (fun line s => Says (pieces line) s)
      (ls.filter fun line => !(pieces line).isEmpty) (is.map statementOf) := by
  induction h with
  | nil => exact .nil
  | @blank l ls is hl hs ih =>
    have hp : pieces l = [] := by
      rw [pieces_eq_map_words, hl]
      rfl
    rw [List.filter_cons_of_neg (by simp [hp])]
    exact ih
  | @line l ls i is hl hs ih =>
    have hsays := says_of_spells hl
    rw [List.filter_cons_of_pos (by simpa using hsays.ne_nil)]
    exact .cons hsays ih

theorem Statements.unique {source : String} {ss ts : List Statement} (hs : Statements source ss)
    (ht : Statements source ts) : ss = ts := by
  have hu : Relator.RightUnique fun (line : List Char) s => Says (pieces line) s :=
    fun _ _ _ h h' => h.unique h'
  exact List.right_unique_forall₂' hu hs ht

/-! ## Listings -/

/-- The text of an instruction shows its statement. -/
theorem shown_text (i : Instruction) : Shown (statementOf i) i.text := by
  rw [statementOf]
  cases ho : i.operand? with
  | none =>
    rw [text_of_none ho]
    exact .plain (Instruction.width_of_operand?_eq_none ho)
  | some value =>
    have hp : i.opcode = .push1 ∨ i.opcode = .push8 := by
      cases i with
      | push1 v => exact .inl rfl
      | push8 v => exact .inr rfl
      | _ => exact absurd ho (by simp [Instruction.operand?])
    rw [text_of_some ho]
    exact .push hp (Text.isHexadecimal_hexadecimal value)

theorem forall₂_shown_text (is : List Instruction) :
    List.Forall₂ Shown (is.map statementOf) (is.map Instruction.text) := by
  induction is with
  | nil => exact .nil
  | cons i is ih => exact .cons (shown_text i) ih

/-- A source that assembles says what its instructions say, and its code lists their texts. -/
theorem exists_of_assemble {source : String} {code : List UInt8} (h : assemble source = .ok code) :
    ∃ is, code = Listing.encode is ∧ Statements source (is.map statementOf) ∧
      Listing.disassemble code =
        .ok (String.ofList ((is.map Instruction.text).flatMap (· ++ ['\n']))) := by
  obtain ⟨is, hp, rfl⟩ := Result.map_eq_ok_iff.1 h
  refine ⟨is, rfl, forall₂_says_of_spelled (parse_eq_ok_iff.1 hp), ?_⟩
  rw [List.flatMap_map]
  exact Listing.disassemble_eq_ok_iff.2 ⟨is, rfl, rfl⟩

/-- Codes with the same listing are the same. -/
theorem code_eq_of_disassemble {code other : List UInt8} {listing : String}
    (h : Listing.disassemble code = .ok listing) (ho : Listing.disassemble other = .ok listing) :
    code = other := by
  have hc := assemble_of_disassemble h
  rw [assemble_of_disassemble ho] at hc
  exact (Except.ok.inj hc).symm

/-- **The listing is the normal form of a source.**  A source that assembles makes one list of
statements, one for each line with words, and its code has a listing.  The lines of the listing
show these statements, in order and each ended by a newline.  Two sources that assemble have the
same code exactly if they make the same statements, and exactly if their codes have the same
listing. -/
theorem listing_is_normal_form {source : String} {code : List UInt8}
    (h : assemble source = .ok code) :
    ∃ statements listing,
      (∀ ss, Statements source ss ↔ ss = statements) ∧
      Listing.disassemble code = .ok listing ∧
      (List.Forall₂ Shown statements (Text.lines listing.toList) ∧
        listing = String.ofList ((Text.lines listing.toList).flatMap (· ++ ['\n']))) ∧
      ∀ source' code' statements' listing', assemble source' = .ok code' →
        Statements source' statements' → Listing.disassemble code' = .ok listing' →
          (code = code' ↔ statements = statements') ∧ (code = code' ↔ listing = listing') := by
  obtain ⟨is, rfl, hs, hd⟩ := exists_of_assemble h
  have hlines : Text.lines ((is.map Instruction.text).flatMap (· ++ ['\n'])) =
      is.map Instruction.text := by
    rw [List.flatMap_map]
    exact lines_render is
  refine ⟨is.map statementOf, _, ?_, hd, ?_, ?_⟩
  · intro ss
    constructor
    · exact fun hss => hss.unique hs
    · rintro rfl
      exact hs
  · rw [String.toList_ofList, hlines]
    exact ⟨forall₂_shown_text is, rfl⟩
  · intro source' code' statements' listing' h' hs' hd'
    obtain ⟨js, rfl, ht, -⟩ := exists_of_assemble h'
    obtain rfl := hs'.unique ht
    constructor
    · constructor
      · intro he
        rw [Listing.encode_injective he]
      · intro he
        have hij : is = js := List.map_injective_iff.2 (fun _ _ => statementOf_injective) he
        rw [hij]
    · constructor
      · intro he
        rw [← he, hd] at hd'
        exact Except.ok.inj hd'
      · rintro rfl
        exact code_eq_of_disassemble hd hd'

/-- Two sources that differ in comments, separators, line ends, radix, underscores and leading zeros
say the same, so they have the same code and the same listing. -/
theorem listing_is_normal_form_of_two :
    let source := "PUSH1 0x0_A # ten\r\n\n,ADD"
    let other := "# a sum\nPUSH1\t010\nADD\n"
    let code : List UInt8 := [0x01, 10, 0x10]
    assemble source = .ok code ∧ assemble other = .ok code ∧
      (∃ ss, Statements source ss ∧ Statements other ss ∧ ss.length = 2) ∧
      Listing.disassemble code = .ok "PUSH1 0xa\nADD\n" := by
  intro source other code
  have hs : parse source = .ok [.push1 10, .add] := by
    rw [parse, String.toList_ofList]
    with_unfolding_all rfl
  have ho : parse other = .ok [.push1 10, .add] := by
    rw [parse, String.toList_ofList]
    with_unfolding_all rfl
  have hsource : assemble source = .ok code := by
    rw [assemble, hs]
    rfl
  have hother : assemble other = .ok code := by
    rw [assemble, ho]
    rfl
  have hlisting : Listing.disassemble code = .ok "PUSH1 0xa\nADD\n" := by
    cbv
  obtain ⟨ss, listing, hss, hd, ⟨hshown, _⟩, heq⟩ := listing_is_normal_form hsource
  obtain ⟨ts, _, hts, _⟩ := listing_is_normal_form hother
  obtain rfl : ss = ts := (heq other code ts listing hother ((hts ts).2 rfl) hd).1.1 rfl
  rw [hlisting] at hd
  obtain rfl := Except.ok.inj hd
  have hlines : (Text.lines "PUSH1 0xa\nADD\n".toList).length = 2 := rfl
  refine ⟨hsource, hother, ⟨ss, (hss ss).2 rfl, (hts ss).2 rfl, ?_⟩, hlisting⟩
  rw [hshown.length_eq, hlines]

end Assembly

end StackMachine
