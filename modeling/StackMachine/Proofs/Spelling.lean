import StackMachine.Proofs.ListingRoundTrip

/-!
# What a source spells

A line is read through its words, the texts of its tokens.  A line without words is blank.  Any other
line has to spell an instruction: the mnemonic, and a literal with the value of the operand if the
instruction has one.  `Spells` says this of one line and `Spelled` of all lines of a source, without
numbers of lines, columns or errors.

Reading a source succeeds with exactly the instructions that its lines spell: `parse_eq_ok_iff`.  So
there is at most one list of them.
-/

namespace StackMachine

/-- A text parses as the opcode that has it as its mnemonic. -/
theorem Opcode.parse_eq_ok_iff {s : String} {o : Opcode} : parse s = .ok o ↔ s = o.mnemonic := by
  rw [← ofMnemonic?_eq_some_iff]
  unfold parse
  cases ofMnemonic? s with
  | none => simp
  | some p => simp

namespace Instruction

theorem operand?_ofOpcode_of_width_eq_zero {o : Opcode} (h : o.width = 0) (value : Nat) :
    (ofOpcode o value).operand? = none := by
  cases o with
  | push1 | push8 => exact absurd h (by decide)
  | _ => rfl

/-- An instruction made from an opcode with an immediate has the value that fits it. -/
theorem operand?_ofOpcode {o : Opcode} (h : o.width ≠ 0) {value : Nat}
    (hv : value < Bytes.count o.width) : (ofOpcode o value).operand? = some value := by
  have hg := operand_ofOpcode hv
  cases o with
  | push1 | push8 => exact congrArg some hg
  | _ => exact absurd rfl h

end Instruction

namespace Assembly

/-- The words of a line are the texts of its tokens. -/
def words (line : List Char) : List String := (Token.tokenize line).map Token.text

/-- The words of a line are the mnemonic of an instruction and a literal of its operand, if it has
one. -/
def Spells (line : List Char) (i : Instruction) : Prop :=
  match i.operand? with
  | none => words line = [i.opcode.mnemonic]
  | some value =>
    ∃ literal, words line = [i.opcode.mnemonic, literal] ∧
      Literal.read? literal.toList = some value

/-- The lines that are not blank spell these instructions, in order. -/
inductive Spelled : List (List Char) → List Instruction → Prop
  | nil : Spelled [] []
  | blank {l : List Char} {ls : List (List Char)} {is : List Instruction} (hl : words l = [])
      (hs : Spelled ls is) : Spelled (l :: ls) is
  | line {l : List Char} {ls : List (List Char)} {i : Instruction} {is : List Instruction}
      (hl : Spells l i) (hs : Spelled ls is) : Spelled (l :: ls) (i :: is)

theorem words_eq_nil_iff {l : List Char} : words l = [] ↔ Token.tokenize l = [] :=
  List.map_eq_nil_iff

/-! ## One line -/

theorem spells_of_none {l : List Char} {i : Instruction} (ho : i.operand? = none) :
    Spells l i ↔ words l = [i.opcode.mnemonic] := by
  unfold Spells
  rw [ho]

theorem spells_of_some {l : List Char} {i : Instruction} {value : Nat}
    (ho : i.operand? = some value) :
    Spells l i ↔ ∃ literal, words l = [i.opcode.mnemonic, literal] ∧
      Literal.read? literal.toList = some value := by
  unfold Spells
  rw [ho]

/-- The width of an immediate is one that literals are bounded by. -/
theorem bound_width (o : Opcode) : Literal.bound o.width = Bytes.count o.width := by
  cases o <;> rfl

/-- A line that reads as an instruction has a mnemonic and as many operands as its opcode takes. -/
theorem exists_opcode_of_parseLine {line : Nat} {head : Token} {operands : List Token}
    {i : Instruction} (h : parseLine line (head :: operands) = .ok i) :
    ∃ o : Opcode, head.text = o.mnemonic ∧ operands.length = arity o ∧
      instructionOf line o operands = .ok i := by
  rw [parseLine] at h
  split at h
  · exact absurd h (by simp)
  · rename_i o ho
    split at h
    · rename_i ha
      exact ⟨o, Opcode.parse_eq_ok_iff.1 ho, ha, h⟩
    · exact absurd h (by simp)

/-- A line that reads as an instruction spells it. -/
theorem spells_of_parseLine {line : Nat} {l : List Char} {i : Instruction}
    (h : parseLine line (Token.tokenize l) = .ok i) : Spells l i := by
  have hw : words l = (Token.tokenize l).map Token.text := rfl
  generalize Token.tokenize l = tokens at h hw
  cases tokens with
  | nil => exact absurd h (by simp [parseLine])
  | cons head operands =>
    obtain ⟨o, ho, ha, hi⟩ := exists_opcode_of_parseLine h
    unfold arity at ha
    by_cases hz : o.width = 0
    · rw [if_pos hz] at ha
      obtain rfl := List.eq_nil_of_length_eq_zero ha
      obtain rfl := Except.ok.inj hi
      rw [spells_of_none (Instruction.operand?_ofOpcode_of_width_eq_zero hz 0),
        Instruction.opcode_ofOpcode, hw, ← ho]
      rfl
    · rw [if_neg hz] at ha
      obtain ⟨operand, rfl⟩ := List.length_eq_one_iff.1 ha
      rw [instructionOf] at hi
      split at hi
      · rename_i value hp
        obtain rfl := Except.ok.inj hi
        obtain ⟨hr, hb⟩ := Literal.parse_eq_ok_iff.1 hp
        rw [bound_width] at hb
        rw [spells_of_some (Instruction.operand?_ofOpcode hz hb), Instruction.opcode_ofOpcode]
        refine ⟨operand.text, ?_, hr⟩
        rw [hw, ← ho]
        rfl
      · exact absurd hi (by simp)

/-- A line that spells an instruction reads as it. -/
theorem parseLine_of_spells {l : List Char} {i : Instruction} (h : Spells l i) (line : Nat) :
    parseLine line (Token.tokenize l) = .ok i := by
  have ha := arity_opcode i
  have hi := i.ofOpcode_operand
  cases ho : i.operand? with
  | none =>
    rw [spells_of_none ho] at h
    obtain ⟨head, operands, ht, hm, hn⟩ := List.map_eq_cons_iff.1 h
    obtain rfl := List.map_eq_nil_iff.1 hn
    rw [ho] at ha hi
    rw [ht, parseLine, Opcode.parse_eq_ok_iff.2 hm]
    simp only [ha, Option.toList_none, List.length_nil, if_true, instructionOf]
    exact congrArg _ hi
  | some value =>
    rw [spells_of_some ho] at h
    obtain ⟨literal, hw, hr⟩ := h
    obtain ⟨head, operands, ht, hm, hn⟩ := List.map_eq_cons_iff.1 hw
    obtain ⟨operand, rest, rfl, rfl, hnil⟩ := List.map_eq_cons_iff.1 hn
    obtain rfl := List.map_eq_nil_iff.1 hnil
    have hl : Literal.parse operand.text i.opcode.width = .ok value :=
      Literal.parse_eq_ok_iff.2 ⟨hr, operand_lt_bound ho⟩
    rw [ho] at ha hi
    rw [ht, parseLine, Opcode.parse_eq_ok_iff.2 hm]
    simp only [ha, Option.toList_some, List.length_cons, List.length_nil, if_true, instructionOf,
      hl]
    exact congrArg _ hi

/-! ## All lines -/

theorem spelled_of_parseLines {line : Nat} {ls : List (List Char)} {is : List Instruction}
    (h : parseLines line ls = .ok is) : Spelled ls is := by
  induction ls generalizing line is with
  | nil =>
    obtain rfl := Except.ok.inj h
    exact .nil
  | cons l ls ih =>
    cases ht : Token.tokenize l with
    | nil =>
      rw [parseLines_blank ht] at h
      exact .blank (words_eq_nil_iff.2 ht) (ih h)
    | cons token tokens =>
      unfold parseLines at h
      rw [ht] at h
      simp only at h
      split at h
      · exact absurd h (by simp)
      · rename_i i hi
        obtain ⟨js, hj, rfl⟩ := Result.map_eq_ok_iff.1 h
        rw [← ht] at hi
        exact .line (spells_of_parseLine hi) (ih hj)

theorem parseLines_of_spelled {ls : List (List Char)} {is : List Instruction} (h : Spelled ls is)
    (line : Nat) : parseLines line ls = .ok is := by
  induction h generalizing line with
  | nil => rfl
  | blank hl hs ih => rw [parseLines_blank (words_eq_nil_iff.1 hl), ih]
  | line hl hs ih =>
    rw [parseLines_instruction (parseLine_of_spells hl line), ih]
    rfl

/-- **A source reads as instructions exactly if its lines spell them.** -/
theorem parse_eq_ok_iff {source : String} {is : List Instruction} :
    parse source = .ok is ↔ Spelled (Text.lines source.toList) is := by
  constructor
  · exact spelled_of_parseLines
  · intro h
    exact parseLines_of_spelled h 1

/-- Lines spell at most one list of instructions. -/
theorem Spelled.unique {ls : List (List Char)} {is js : List Instruction} (hi : Spelled ls is)
    (hj : Spelled ls js) : js = is := by
  have h := parseLines_of_spelled hj 1
  rw [parseLines_of_spelled hi 1] at h
  exact (Except.ok.inj h).symm

end Assembly

end StackMachine
