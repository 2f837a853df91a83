import StackMachine.Proofs.SourceErrors

/-!
# The grammar of sources

A source is accepted line by line, and each line adds its own bytes.  `Emits` is the grammar of one
line, with the bytes that it stands for: a line without words has none, a mnemonic without immediate
has its byte, and a push with a literal has its byte and the number, most significant byte first.

The grammar knows no instructions, no columns and no errors.  `emits_pieces_iff` ties it to what a
line spells; from there the code of a source is the concatenation of what its lines stand for, and a
source with a line outside the grammar has an error.
-/

namespace StackMachine

/-- Opcodes without immediate make instructions without operand. -/
theorem Instruction.width_of_operand?_eq_none {i : Instruction} (h : i.operand? = none) :
    i.opcode.width = 0 := by
  cases i with
  | push1 | push8 => exact absurd h (by simp [operand?])
  | _ => rfl

namespace Assembly

/-- The words of a line of the grammar, and the bytes that the line stands for. -/
inductive Emits : List (List Char) → List UInt8 → Prop
  | blank : Emits [] []
  | plain {o : Opcode} (ho : o.width = 0) : Emits [o.mnemonic.toList] [o.byte]
  | push1 {literal : List Char} {value : Nat} (hl : Literal.Denotes literal value)
      (hv : value < 2 ^ 8) : Emits ["PUSH1".toList, literal] (0x01 :: Bytes.bigEndian 1 value)
  | push8 {literal : List Char} {value : Nat} (hl : Literal.Denotes literal value)
      (hv : value < 2 ^ 64) : Emits ["PUSH8".toList, literal] (0x02 :: Bytes.bigEndian 8 value)

/-! ## One line -/

theorem pieces_eq_map_words (l : List Char) : pieces l = (words l).map String.toList := by
  have hid : String.toList ∘ String.ofList = id := funext fun _ => String.toList_ofList
  rw [words_eq_map_pieces, List.map_map, hid, List.map_id]

/-- A mnemonic without immediate spells an instruction of one byte. -/
theorem exists_spells_plain {l : List Char} {o : Opcode} (ho : o.width = 0)
    (hw : words l = [o.mnemonic]) : ∃ i, Spells l i ∧ [o.byte] = i.encode := by
  refine ⟨.ofOpcode o 0, ?_, ?_⟩
  · rw [spells_of_none (Instruction.operand?_ofOpcode_of_width_eq_zero ho 0),
      Instruction.opcode_ofOpcode]
    exact hw
  · rw [Instruction.encode, Instruction.opcode_ofOpcode, ho]
    rfl

/-- A mnemonic with an immediate and a literal that fits spell the instruction of both. -/
theorem exists_spells_immediate {l : List Char} {o : Opcode} {literal : List Char} {value : Nat}
    (ho : o.width ≠ 0) (hw : words l = [o.mnemonic, String.ofList literal])
    (hl : Literal.Denotes literal value) (hv : value < Bytes.count o.width) :
    ∃ i, Spells l i ∧ o.byte :: Bytes.bigEndian o.width value = i.encode := by
  refine ⟨.ofOpcode o value, ?_, ?_⟩
  · rw [spells_of_some (Instruction.operand?_ofOpcode ho hv), Instruction.opcode_ofOpcode]
    refine ⟨String.ofList literal, hw, ?_⟩
    rw [String.toList_ofList]
    exact Literal.read?_eq_some_iff.2 hl
  · rw [Instruction.encode, Instruction.opcode_ofOpcode, Instruction.operand_ofOpcode hv]

/-- A push and a literal that its immediate holds form a line of the grammar. -/
theorem emits_immediate {o : Opcode} {literal : List Char} {value : Nat} (ho : o.width ≠ 0)
    (hl : Literal.Denotes literal value) (hv : value < Bytes.count o.width) :
    Emits [o.mnemonic.toList, literal] (o.byte :: Bytes.bigEndian o.width value) := by
  cases o with
  | push1 => exact .push1 hl hv
  | push8 => exact .push8 hl hv
  | _ => exact absurd rfl ho

theorem emits_of_spells {l : List Char} {i : Instruction} (h : Spells l i) :
    Emits (pieces l) i.encode := by
  rw [pieces_eq_map_words]
  cases ho : i.operand? with
  | none =>
    have hw := Instruction.width_of_operand?_eq_none ho
    have he : i.encode = [i.opcode.byte] := by
      rw [Instruction.encode, hw]
      rfl
    rw [(spells_of_none ho).1 h, he]
    exact .plain hw
  | some value =>
    obtain ⟨literal, hw, hr⟩ := (spells_of_some ho).1 h
    have hlt := i.operand_lt
    have hne : i.opcode.width ≠ 0 := by
      cases i with
      | push1 | push8 => exact Nat.succ_ne_zero _
      | _ => exact absurd ho (by simp [Instruction.operand?])
    rw [ho, Option.getD_some] at hlt
    rw [hw, Instruction.encode, ho]
    exact emits_immediate hne (Literal.read?_eq_some_iff.1 hr) hlt

/-- **A line belongs to the grammar exactly if it is blank or spells an instruction**, and it stands
for the code of that instruction. -/
theorem emits_pieces_iff {l : List Char} {bytes : List UInt8} :
    Emits (pieces l) bytes ↔
      (words l = [] ∧ bytes = []) ∨ ∃ i, Spells l i ∧ bytes = i.encode := by
  constructor
  · intro h
    have hw := words_eq_map_pieces l
    generalize pieces l = ws at h hw
    cases h with
    | blank => exact .inl ⟨hw, rfl⟩
    | @plain o ho =>
      rw [List.map_singleton, String.ofList_toList] at hw
      exact .inr (exists_spells_plain ho hw)
    | push1 hl hv => exact .inr (exists_spells_immediate (o := .push1) (by decide) hw hl hv)
    | push8 hl hv => exact .inr (exists_spells_immediate (o := .push8) (by decide) hw hl hv)
  · rintro (⟨hw, rfl⟩ | ⟨i, hi, rfl⟩)
    · rw [pieces_eq_map_words, hw]
      exact .blank
    · exact emits_of_spells hi

/-! ## All lines -/

/-- The lines of a source stand for these parts of its code. -/
def Parts (ls : List (List Char)) (parts : List (List UInt8)) : Prop :=
  List.Forall₂ (fun l part => Emits (pieces l) part) ls parts

theorem exists_parts_of_spelled {ls : List (List Char)} {is : List Instruction}
    (h : Spelled ls is) : ∃ parts, Parts ls parts ∧ Listing.encode is = parts.flatten := by
  induction h with
  | nil => exact ⟨[], .nil, rfl⟩
  | blank hl hs ih =>
    obtain ⟨parts, hp, he⟩ := ih
    exact ⟨[] :: parts, .cons (emits_pieces_iff.2 (.inl ⟨hl, rfl⟩)) hp, he⟩
  | @line l ls i is hl hs ih =>
    obtain ⟨parts, hp, he⟩ := ih
    refine ⟨i.encode :: parts, .cons (emits_of_spells hl) hp, ?_⟩
    rw [List.flatten_cons, ← he]
    rfl

theorem exists_spelled_of_parts {ls : List (List Char)} {parts : List (List UInt8)}
    (h : Parts ls parts) : ∃ is, Spelled ls is ∧ Listing.encode is = parts.flatten := by
  induction h with
  | nil => exact ⟨[], .nil, rfl⟩
  | cons hl hs ih =>
    obtain ⟨is, hp, he⟩ := ih
    rcases emits_pieces_iff.1 hl with ⟨hw, rfl⟩ | ⟨i, hi, rfl⟩
    · exact ⟨is, .blank hw hp, he⟩
    · refine ⟨i :: is, .line hi hp, ?_⟩
      rw [List.flatten_cons, ← he]
      rfl

theorem assemble_eq_ok_iff {source : String} {code : List UInt8} :
    assemble source = .ok code ↔
      ∃ parts, Parts (Text.lines source.toList) parts ∧ code = parts.flatten := by
  rw [assemble, Result.map_eq_ok_iff]
  constructor
  · rintro ⟨is, hp, rfl⟩
    exact exists_parts_of_spelled (parse_eq_ok_iff.1 hp)
  · rintro ⟨parts, hp, rfl⟩
    obtain ⟨is, hs, he⟩ := exists_spelled_of_parts hp
    exact ⟨is, parse_eq_ok_iff.2 hs, he⟩

/-- Lines have parts if each of them belongs to the grammar. -/
theorem exists_parts_iff {ls : List (List Char)} :
    (∃ parts, Parts ls parts) ↔ ∀ l ∈ ls, ∃ part, Emits (pieces l) part := by
  induction ls with
  | nil => exact ⟨fun _ => by simp, fun _ => ⟨[], .nil⟩⟩
  | cons l ls ih =>
    rw [List.forall_mem_cons, ← ih]
    constructor
    · rintro ⟨_, _ | ⟨hl, hs⟩⟩
      exact ⟨⟨_, hl⟩, ⟨_, hs⟩⟩
    · rintro ⟨⟨part, hl⟩, ⟨parts, hs⟩⟩
      exact ⟨part :: parts, .cons hl hs⟩

/-- **The assembler accepts exactly the grammar of sources.**  A source has code exactly if each of
its lines, cut at its first `#` and then at commas and blanks, belongs to the grammar.  The code is
what the lines stand for, in order.  Any other source has an error of assembly. -/
theorem assemble_exact (source : String) :
    ((∃ code, assemble source = .ok code) ↔
        ∀ line ∈ Text.lines source.toList, ∃ part, Emits (pieces line) part) ∧
      (∀ code, assemble source = .ok code ↔
        ∃ parts, List.Forall₂ (fun line part => Emits (pieces line) part)
          (Text.lines source.toList) parts ∧ code = parts.flatten) ∧
      ((∃ code, assemble source = .ok code) ∨
        ∃ line column cause, assemble source = .error (.assembly line column cause)) := by
  refine ⟨?_, fun code => assemble_eq_ok_iff, ?_⟩
  · rw [← exists_parts_iff]
    constructor
    · rintro ⟨code, hc⟩
      obtain ⟨parts, hp, _⟩ := assemble_eq_ok_iff.1 hc
      exact ⟨parts, hp⟩
    · rintro ⟨parts, hp⟩
      exact ⟨parts.flatten, assemble_eq_ok_iff.2 ⟨parts, hp, rfl⟩⟩
  · cases h : assemble source with
    | ok code => exact .inl ⟨code, rfl⟩
    | error e =>
      obtain ⟨before, is, line, after, token, cause, _, _, _, rfl⟩ :=
        firstFault_of_parseLines (Result.map_eq_error_iff.1 h)
      exact .inr ⟨_, _, _, rfl⟩

/-- Three lines of the grammar: a push with a wide blank and a comma before its literal and a comment
right behind it, on a line with a carriage return; a line of blanks only; a mnemonic that no newline
follows. -/
theorem assemble_exact_blanks :
    assemble "PUSH1\u3000,0xF_f#,\r\n\t\nADD" = .ok [0x01, 0xff, 0x10] := by
  have hl : Literal.Denotes "0xF_f".toList 255 := by
    refine .hexadecimal ⟨by decide, by decide, [15, 15], by decide, ?_, rfl⟩
    exact .cons ⟨by decide, .inr rfl⟩ (.cons ⟨by decide, .inl rfl⟩ .nil)
  have hlines : Text.lines "PUSH1\u3000,0xF_f#,\r\n\t\nADD".toList =
      ["PUSH1\u3000,0xF_f#,".toList, ['\t'], "ADD".toList] := rfl
  refine ((assemble_exact _).2.1 _).2 ⟨[[0x01, 0xff], [], [0x10]], ?_, rfl⟩
  rw [hlines]
  refine .cons ?_ (.cons ?_ (.cons ?_ .nil))
  · exact .push1 hl (by decide)
  · exact .blank
  · exact .plain (o := .add) rfl

end Assembly

end StackMachine
