import StackMachine.Assembly.Source

/-!
# Listings assemble back

Every stage of reading a listing undoes one stage of writing it:

* the hexadecimal digits of a number read as the number, and the literal fits the width of the
  immediate that it was printed from;
* the words of an instruction's text are plain, so the text is cut into the mnemonic and the literal
  and into nothing else;
* no text holds a line end, so the lines of a listing are the texts of its instructions;
* code that can be listed is the concatenation of its instructions' encodings.

Put together: if code has a listing, then assembling the listing gives the code.
-/

namespace StackMachine

namespace Assembly

namespace Literal

/-- The literal that a listing shows for a value. -/
def shown (value : Nat) : List Char := '0' :: 'x' :: Text.hexadecimal value

/-- What holds of the sixteen digits holds of every character of a hexadecimal text. -/
theorem forall_mem_hexadecimal {p : Char → Prop} (hp : ∀ d < 16, p (Nat.digitChar d))
    (value : Nat) : ∀ c ∈ Text.hexadecimal value, p c := by
  intro c hc
  obtain ⟨d, hd, rfl⟩ := Text.exists_digit_of_mem_toDigits (by decide) hc
  exact hp d hd

theorem separator_not_mem_hexadecimal (value : Nat) : separator ∉ Text.hexadecimal value := by
  intro h
  have hne := forall_mem_hexadecimal (p := (· ≠ separator)) (by decide) value
  exact hne separator h rfl

theorem isPlain_shown (value : Nat) : Token.IsPlain (shown value) := by
  have hmark : Token.IsPlain ['0', 'x'] := by decide
  have hdigits : Token.IsPlain (Text.hexadecimal value) :=
    forall_mem_hexadecimal (by decide) value
  exact hmark.append hdigits

/-- A shown literal reads as its value. -/
theorem read?_shown (value : Nat) : read? (shown value) = some value := by
  -- The mark selects the radix; what is left to read are the digits alone.
  show readBody 16 (Text.hexadecimal value) = some value
  rw [readBody_of_not_mem (separator_not_mem_hexadecimal value)]
  exact Text.readDigits_toDigits (by decide) (by decide) value

theorem parse_shown {width value : Nat} (h : value < bound width) :
    parse (String.ofList (shown value)) width = .ok value := by
  apply parse_eq_ok_iff.2
  rw [String.toList_ofList]
  exact ⟨read?_shown value, h⟩

end Literal

/-! ## One line -/

theorem isPlain_mnemonic (o : Opcode) : Token.IsPlain o.mnemonic.toList := by
  cases o <;> decide

theorem mnemonic_ne_nil (o : Opcode) : o.mnemonic.toList ≠ [] := by
  cases o <;> decide

/-- An instruction without immediate shows as its mnemonic. -/
theorem text_of_none {i : Instruction} (h : i.operand? = none) :
    i.text = i.opcode.mnemonic.toList := by
  rw [Instruction.text, h, List.append_nil]

/-- An instruction with an immediate shows as its mnemonic and the literal. -/
theorem text_of_some {i : Instruction} {value : Nat} (h : i.operand? = some value) :
    i.text = i.opcode.mnemonic.toList ++ ' ' :: Literal.shown value := by
  rw [Instruction.text, h]
  rfl

/-- An instruction has an operand exactly if its opcode takes one. -/
theorem arity_opcode (i : Instruction) : arity i.opcode = i.operand?.toList.length := by
  cases i <;> rfl

/-- The immediate of an instruction is within the bound of its literals. -/
theorem operand_lt_bound {i : Instruction} {value : Nat} (h : i.operand? = some value) :
    value < Literal.bound i.opcode.width := by
  have hlt := i.operand_lt
  have hw : min i.opcode.width 8 = i.opcode.width := by
    cases i <;> rfl
  rw [h, Option.getD_some] at hlt
  rwa [Literal.bound, hw]

/-- The text of an instruction spells the instruction. -/
theorem parseLine_text (line : Nat) (i : Instruction) :
    parseLine line (Token.tokenize i.text) = .ok i := by
  have hm : Opcode.parse (String.ofList i.opcode.mnemonic.toList) = .ok i.opcode := by
    rw [String.ofList_toList, Opcode.parse, Opcode.ofMnemonic?_mnemonic]
  have ha := arity_opcode i
  have hi := i.ofOpcode_operand
  cases ho : i.operand? with
  | none =>
    rw [ho] at ha hi
    rw [text_of_none ho, Token.tokenize_plain (mnemonic_ne_nil _) (isPlain_mnemonic _), parseLine,
      hm]
    simp only [ha, Option.toList_none, List.length_nil, if_true, instructionOf]
    exact congrArg _ hi
  | some value =>
    rw [ho] at ha hi
    have hl := Literal.parse_shown (operand_lt_bound ho)
    have hne : Literal.shown value ≠ [] := List.cons_ne_nil _ _
    rw [text_of_some ho, Token.tokenize_plain_space_plain (mnemonic_ne_nil _) hne
      (isPlain_mnemonic _) (Literal.isPlain_shown value), parseLine, hm]
    simp only [ha, Option.toList_some, List.length_cons, List.length_nil, if_true, instructionOf, hl]
    exact congrArg _ hi

/-- No text of an instruction holds a separator but the space. -/
theorem not_mem_text {c : Char} (hc : Token.isSeparator c = true) (hne : c ≠ ' ')
    (i : Instruction) : c ∉ i.text := by
  -- The text is one plain word, or two with a space between them.
  have hplain {cs : List Char} (hp : Token.IsPlain cs) : c ∉ cs := by
    intro h
    rw [(hp c h).1] at hc
    exact absurd hc (by decide)
  cases ho : i.operand? with
  | none =>
    rw [text_of_none ho]
    exact hplain (isPlain_mnemonic _)
  | some value =>
    rw [text_of_some ho]
    intro h
    rcases List.mem_append.1 h with h | h
    · exact hplain (isPlain_mnemonic _) h
    · rcases List.mem_cons.1 h with h | h
      · exact hne h
      · exact hplain (Literal.isPlain_shown value) h

/-! ## Whole listings -/

theorem lines_render (is : List Instruction) :
    Text.lines (Listing.render is) = is.map Instruction.text := by
  have hr : Listing.render is = (is.map Instruction.text).flatMap (· ++ ['\n']) := by
    rw [Listing.render, List.flatMap_map]
  rw [hr]
  apply Text.lines_flatMap_newline
  · intro l hl
    obtain ⟨i, _, rfl⟩ := List.mem_map.1 hl
    exact not_mem_text (by decide) (by decide) i
  · intro l hl
    obtain ⟨i, _, rfl⟩ := List.mem_map.1 hl
    exact not_mem_text (by decide) (by decide) i

/-- Lines that show instructions are read as these instructions. -/
theorem parseLines_map_text (line : Nat) (is : List Instruction) :
    parseLines line (is.map Instruction.text) = .ok is := by
  induction is generalizing line with
  | nil => rfl
  | cons i is ih =>
    rw [List.map_cons, parseLines_instruction (parseLine_text line i), ih]
    rfl

theorem parse_render (is : List Instruction) :
    parse (String.ofList (Listing.render is)) = .ok is := by
  rw [parse, String.toList_ofList, lines_render, parseLines_map_text]

/-- **Assembling a listing gives the listed code.** -/
theorem assemble_of_disassemble {code : List UInt8} {text : String}
    (h : Listing.disassemble code = .ok text) : assemble text = .ok code := by
  obtain ⟨is, hi, rfl⟩ := Result.map_eq_ok_iff.1 h
  rw [assemble, parse_render, Listing.eq_encode_of_instructions hi]
  rfl

theorem assemble_of_disassemble_push8 :
    Listing.disassemble [0x02, 0, 0, 0, 0, 0, 0, 1, 0, 0x01, 0xff, 0x10] =
        .ok "PUSH8 0x100\nPUSH1 0xff\nADD\n" ∧
      assemble "PUSH8 0x100\nPUSH1 0xff\nADD\n" =
        .ok [0x02, 0, 0, 0, 0, 0, 0, 1, 0, 0x01, 0xff, 0x10] := by
  have h : Listing.disassemble [0x02, 0, 0, 0, 0, 0, 0, 1, 0, 0x01, 0xff, 0x10] =
      .ok "PUSH8 0x100\nPUSH1 0xff\nADD\n" := by
    cbv
  exact ⟨h, assemble_of_disassemble h⟩

end Assembly

end StackMachine
