import StackMachine.Proofs.LiteralGrammar
import StackMachine.Proofs.Tokens

/-!
# What is wrong with a source

A source that does not assemble has a first faulty line, and the error names that line and a token
of it.  `Fault` says which token is at fault and why, for each way in which tokens can fail to spell
an instruction:

* the first one is no mnemonic;
* operands are missing, and the mnemonic stands for them;
* there are too many, and the first of the surplus is at fault;
* the operand is no literal, or one of a number that the immediate does not hold.

The four exclude each other and, for a line with tokens, one of them applies or the line spells an
instruction.  Lines are read in order, so what follows the first faulty line does not matter.
-/

namespace StackMachine

/-- A text that is no mnemonic is quoted in the error. -/
theorem Opcode.parse_of_ne {s : String} (h : ∀ o : Opcode, s ≠ o.mnemonic) :
    parse s = .error (.unknownMnemonic s) := by
  cases ho : ofMnemonic? s with
  | none => rw [parse, ho]
  | some o => exact absurd (ofMnemonic?_eq_some_iff.1 ho) (h o)

namespace Assembly

/-- The token that is at fault among the tokens of a line, and why. -/
inductive Fault : List Token → Token → Error → Prop
  | mnemonic {head : Token} {operands : List Token} (h : ∀ o : Opcode, head.text ≠ o.mnemonic) :
      Fault (head :: operands) head (.unknownMnemonic head.text)
  | missing {head : Token} {operands : List Token} {o : Opcode} (ho : head.text = o.mnemonic)
      (hl : operands.length < arity o) :
      Fault (head :: operands) head (.operandCount head.text (arity o) operands.length)
  | surplus {head token : Token} {operands : List Token} {o : Opcode}
      (ho : head.text = o.mnemonic) (ht : operands[arity o]? = some token) :
      Fault (head :: operands) token (.operandCount head.text (arity o) operands.length)
  | literal {head operand : Token} {o : Opcode} (ho : head.text = o.mnemonic) (ha : arity o = 1)
      (hv : ¬ ∃ value, Literal.Denotes operand.text.toList value ∧ value < 2 ^ (8 * o.width)) :
      Fault [head, operand] operand (.invalidOperand operand.text o.width)

/-- The token at fault is one of the tokens. -/
theorem Fault.mem {tokens : List Token} {token : Token} {cause : Error}
    (h : Fault tokens token cause) : token ∈ tokens := by
  cases h with
  | mnemonic h => exact List.mem_cons_self
  | missing ho hl => exact List.mem_cons_self
  | surplus ho ht => exact List.mem_cons_of_mem _ (List.mem_of_getElem? ht)
  | literal ho ha hv => exact List.mem_cons_of_mem _ List.mem_cons_self

/-! ## Operands -/

/-- A token is an operand of an opcode exactly if it denotes a number that the immediate holds. -/
theorem Literal.parse_width_eq_ok_iff {token : String} {o : Opcode} {value : Nat} :
    parse token o.width = .ok value ↔ Denotes token.toList value ∧ value < 2 ^ (8 * o.width) := by
  have hw : min o.width 8 = o.width := by
    cases o <;> rfl
  rw [parse_eq_ok_iff_denotes, hw]

theorem Literal.parse_width_eq_error_iff {token : String} {o : Opcode} {e : Error} :
    parse token o.width = .error e ↔
      e = .invalidOperand token o.width ∧
        ¬ ∃ value, Denotes token.toList value ∧ value < 2 ^ (8 * o.width) := by
  constructor
  · intro h
    refine ⟨parse_eq_error h, ?_⟩
    rintro ⟨value, hv⟩
    rw [parse_width_eq_ok_iff.2 hv] at h
    exact absurd h (by simp)
  · rintro ⟨rfl, hv⟩
    cases hp : parse token o.width with
    | ok value => exact absurd ⟨value, parse_width_eq_ok_iff.1 hp⟩ hv
    | error e => rw [parse_eq_error hp]

/-! ## One line -/

/-- Tokens that spell no instruction have a token at fault, and the error points at it. -/
theorem exists_fault_of_parseLine {n : Nat} {head : Token} {operands : List Token} {e : Error}
    (h : parseLine n (head :: operands) = .error e) :
    ∃ token cause, Fault (head :: operands) token cause ∧ e = errorAt n token cause := by
  by_cases hm : ∀ o : Opcode, head.text ≠ o.mnemonic
  · rw [parseLine, Opcode.parse_of_ne hm] at h
    exact ⟨head, _, .mnemonic hm, (Except.error.inj h).symm⟩
  · obtain ⟨o, hne⟩ := Classical.not_forall.1 hm
    have ho : head.text = o.mnemonic := Classical.not_not.1 hne
    rw [parseLine, Opcode.parse_eq_ok_iff.2 ho] at h
    simp only at h
    split at h
    · rename_i ha
      -- As many operands as the opcode takes: only a literal can be at fault.
      cases operands with
      | nil => exact absurd h (by simp [instructionOf])
      | cons operand rest =>
        have h1 : arity o = 1 := by
          unfold arity at ha ⊢
          split at ha
          · exact absurd ha (by simp)
          · rename_i hw
            rw [if_neg hw]
        rw [h1] at ha
        obtain rfl := List.eq_nil_of_length_eq_zero (Nat.succ.inj ha)
        rw [instructionOf] at h
        split at h
        · exact absurd h (by simp)
        · rename_i e' he
          obtain ⟨rfl, hv⟩ := Literal.parse_width_eq_error_iff.1 he
          exact ⟨operand, _, .literal ho h1 hv, (Except.error.inj h).symm⟩
    · rename_i ha
      refine ⟨operands[arity o]?.getD head, _, ?_, (Except.error.inj h).symm⟩
      cases ht : operands[arity o]? with
      | none =>
        have hle := List.getElem?_eq_none_iff.1 ht
        exact .missing ho (by omega)
      | some token => exact .surplus ho ht

/-- The token at fault is the one that the error points at. -/
theorem parseLine_of_fault {tokens : List Token} {token : Token} {cause : Error}
    (h : Fault tokens token cause) (n : Nat) :
    parseLine n tokens = .error (errorAt n token cause) := by
  cases h with
  | mnemonic h => rw [parseLine, Opcode.parse_of_ne h]
  | missing ho hl =>
    rw [parseLine, Opcode.parse_eq_ok_iff.2 ho]
    simp only
    rw [if_neg (Nat.ne_of_lt hl), List.getElem?_eq_none (Nat.le_of_lt hl), Option.getD_none]
  | surplus ho ht =>
    obtain ⟨hlt, _⟩ := List.getElem?_eq_some_iff.1 ht
    rw [parseLine, Opcode.parse_eq_ok_iff.2 ho]
    simp only
    rw [if_neg (Nat.ne_of_gt hlt), ht, Option.getD_some]
  | @literal head _ o ho ha hv =>
    have hl : [token].length = arity o := ha.symm
    rw [parseLine, Opcode.parse_eq_ok_iff.2 ho]
    simp only
    rw [if_pos hl, instructionOf, Literal.parse_width_eq_error_iff.2 ⟨rfl, hv⟩]

/-! ## All lines -/

/-- A faulty line ends the reading. -/
theorem parseLines_of_fault {l : List Char} {token : Token} {cause : Error}
    (h : Fault (Token.tokenize l) token cause) (n : Nat) (ls : List (List Char)) :
    parseLines n (l :: ls) = .error (errorAt n token cause) := by
  have hp := parseLine_of_fault h n
  unfold parseLines
  cases ht : Token.tokenize l with
  | nil =>
    rw [ht] at h
    exact absurd h.mem (by simp)
  | cons head operands =>
    rw [ht] at hp
    simp only [hp]

/-- Lines that spell instructions are passed, with their number added to that of the next line. -/
theorem parseLines_append {ls : List (List Char)} {is : List Instruction} (h : Spelled ls is)
    (n : Nat) (rest : List (List Char)) :
    parseLines n (ls ++ rest) = (parseLines (n + ls.length) rest).map (is ++ ·) := by
  induction h generalizing n with
  | nil =>
    show parseLines n rest = (parseLines n rest).map id
    cases parseLines n rest <;> rfl
  | @blank l ls is hl hs ih =>
    rw [List.cons_append, parseLines_blank (words_eq_nil_iff.1 hl), ih, List.length_cons,
      Nat.add_right_comm, Nat.add_assoc]
  | @line l ls i is hl hs ih =>
    rw [List.cons_append, parseLines_instruction (parseLine_of_spells hl n), ih, List.length_cons,
      Nat.add_right_comm, Nat.add_assoc]
    cases parseLines (n + (ls.length + 1)) rest <;> rfl

/-- An error is that of the first faulty line: the lines before it spell instructions, and the error
points at the token at fault.  The first of the lines has the number `n`. -/
def FirstFault (n : Nat) (ls : List (List Char)) (e : Error) : Prop :=
  ∃ before is line after token cause, ls = before ++ line :: after ∧ Spelled before is ∧
    Fault (Token.tokenize line) token cause ∧ e = errorAt (n + before.length) token cause

/-- Lines that spell instructions, one after the other. -/
theorem Spelled.append {ls ms : List (List Char)} {is js : List Instruction} (h : Spelled ls is)
    (hm : Spelled ms js) : Spelled (ls ++ ms) (is ++ js) := by
  induction h with
  | nil => exact hm
  | blank hl hs ih => exact .blank hl ih
  | line hl hs ih => exact .line hl ih

/-- A line in front that is passed leaves the first fault where it is. -/
theorem FirstFault.cons {n : Nat} {l : List Char} {ls : List (List Char)} {e : Error}
    {js : List Instruction} (hl : Spelled [l] js) (h : FirstFault (n + 1) ls e) :
    FirstFault n (l :: ls) e := by
  obtain ⟨before, is, line, after, token, cause, rfl, hs, hf, rfl⟩ := h
  refine ⟨l :: before, js ++ is, line, after, token, cause, rfl, hl.append hs, hf, ?_⟩
  rw [List.length_cons, Nat.add_right_comm, Nat.add_assoc]

/-- **The first faulty line decides the error.** -/
theorem firstFault_of_parseLines {n : Nat} {ls : List (List Char)} {e : Error}
    (h : parseLines n ls = .error e) : FirstFault n ls e := by
  induction ls generalizing n with
  | nil => exact absurd h (by simp)
  | cons l ls ih =>
    cases ht : Token.tokenize l with
    | nil =>
      rw [parseLines_blank ht] at h
      exact .cons (.blank (words_eq_nil_iff.2 ht) .nil) (ih h)
    | cons head operands =>
      cases hp : parseLine n (head :: operands) with
      | error e' =>
        obtain ⟨token, cause, hf, rfl⟩ := exists_fault_of_parseLine hp
        rw [← ht] at hf
        rw [parseLines_of_fault hf] at h
        exact ⟨[], [], l, ls, token, cause, rfl, .nil, hf, (Except.error.inj h).symm⟩
      | ok i =>
        rw [← ht] at hp
        rw [parseLines_instruction hp] at h
        exact .cons (.line (spells_of_parseLine hp) .nil) (ih (Result.map_eq_error_iff.1 h))

/-! ## Lines on their own -/

/-- A line as a source of its own. -/
theorem parse_ofList_line {l : List Char} (h : '\n' ∉ l) :
    parse (String.ofList l) = parseLines 1 [l] := by
  rw [parse, String.toList_ofList]
  by_cases hl : l = []
  · have ht : Token.tokenize [] = [] := Token.scan_nil 1
    rw [hl, Text.lines_nil, parseLines_blank ht]
    rfl
  · rw [Text.lines_of_newline_not_mem hl h]

/-- Each of the lines that spell instructions is blank or spells one. -/
theorem Spelled.of_mem {ls : List (List Char)} {is : List Instruction} (h : Spelled ls is)
    {l : List Char} (hl : l ∈ ls) : ∃ js, Spelled [l] js := by
  induction h with
  | nil => exact absurd hl (by simp)
  | blank hb hs ih =>
    rcases List.mem_cons.1 hl with rfl | hl
    · exact ⟨[], .blank hb .nil⟩
    · exact ih hl
  | line hi hs ih =>
    rcases List.mem_cons.1 hl with rfl | hl
    · exact ⟨_, .line hi .nil⟩
    · exact ih hl

/-- A source that starts with lines that spell instructions and a faulty line has the error of that
line, whatever follows. -/
theorem assemble_of_fault {source : String} {before : List (List Char)} {is : List Instruction}
    {line : List Char} {token : Token} {cause : Error} (hs : Spelled before is)
    (hf : Fault (Token.tokenize line) token cause)
    (ht : (Text.lines source.toList).take (before.length + 1) = before ++ [line]) :
    assemble source = .error (errorAt (1 + before.length) token cause) := by
  have hsplit : Text.lines source.toList =
      before ++ line :: (Text.lines source.toList).drop (before.length + 1) := by
    calc Text.lines source.toList
        = (Text.lines source.toList).take (before.length + 1) ++
            (Text.lines source.toList).drop (before.length + 1) :=
          (List.take_append_drop _ _).symm
      _ = _ := by rw [ht, List.append_assoc, List.singleton_append]
  rw [assemble, parse, hsplit, parseLines_append hs, parseLines_of_fault hf]
  rfl

/-- **An error of a source names its first faulty line and the token at fault.**  The lines before
it assemble, each on its own, a blank one to no code; the line itself does not.  The token at fault is
one of its tokens, chosen by the cause that the error reports, and stands in the line at the column
of the error.

The error depends on nothing behind that line: every source with the same first lines has it, and so
has the source with any other text behind the newline that ends the line. -/
theorem assemble_error_first_fault {source : String} {e : Error} (h : assemble source = .error e) :
    ∃ before line after token cause,
      Text.lines source.toList = before ++ line :: after ∧
        e = .assembly (before.length + 1) token.column cause.message ∧
        (∀ l ∈ before, ∃ code, assemble (String.ofList l) = .ok code) ∧
        (∀ code, assemble (String.ofList line) ≠ .ok code) ∧
        Fault (Token.tokenize line) token cause ∧ token.StandsIn line ∧
        (∀ other : String,
          (Text.lines other.toList).take (before.length + 1) = before ++ [line] →
            assemble other = .error e) ∧
        ∀ head rest, source.toList = head ++ '\n' :: rest →
          (Text.lines (head ++ ['\n'])).length = before.length + 1 →
            ∀ text, assemble (String.ofList (head ++ '\n' :: text)) = .error e := by
  obtain ⟨before, is, line, after, token, cause, hlines, hs, hf, he⟩ :=
    firstFault_of_parseLines (Result.map_eq_error_iff.1 h)
  have hline {l : List Char} (hl : l ∈ before ++ line :: after) : '\n' ∉ l :=
    Text.newline_not_mem_of_mem_lines (hlines ▸ hl)
  have hother (other : String)
      (ho : (Text.lines other.toList).take (before.length + 1) = before ++ [line]) :
      assemble other = .error e := by
    rw [he]
    exact assemble_of_fault hs hf ho
  refine ⟨before, line, after, token, cause, hlines, ?_, ?_, ?_, hf, ?_, hother, ?_⟩
  · rw [he, Nat.add_comm]
    rfl
  · intro l hl
    obtain ⟨js, hj⟩ := hs.of_mem hl
    refine ⟨Listing.encode js, ?_⟩
    rw [assemble, parse_ofList_line (hline (List.mem_append_left _ hl)), parseLines_of_spelled hj]
    rfl
  · intro code hc
    have hmem : line ∈ before ++ line :: after := List.mem_append_right _ List.mem_cons_self
    rw [assemble, parse_ofList_line (hline hmem), parseLines_of_fault hf] at hc
    exact absurd hc (by simp [Except.map])
  · exact Token.standsIn_of_mem_tokenize hf.mem
  · intro head rest hsource hlen text
    apply hother
    rw [hsource, Text.lines_append_newline_append] at hlines
    rw [String.toList_ofList, Text.lines_append_newline_append]
    -- Both texts have the same lines up to the newline, and these are the lines in question.
    have hcut : Text.lines (head ++ ['\n']) = before ++ [line] := by
      have happend : Text.lines (head ++ ['\n']) ++ Text.lines rest =
          (before ++ [line]) ++ after := by
        rw [hlines, List.append_assoc, List.singleton_append]
      exact List.append_inj_left happend (by rw [hlen, List.length_append]; rfl)
    rw [List.take_left' hlen, hcut]

/-- The second line starts with a blank of two bytes, so its surplus operand stands at byte column 8,
its seventh character.  Another text behind the line changes nothing, although it is faulty too. -/
theorem assemble_error_first_fault_surplus :
    let e := Error.assembly 2 8 "operand count mismatch for ADD: expected 0, got 2"
    assemble "# ü\r\n\u00a0ADD, PUSH1 7\nPOP" = .error e ∧
      assemble "# ü\r\n\u00a0ADD, PUSH1 7\n???\nPUSH1 256" = .error e := by
  intro e
  have h : assemble "# ü\r\n\u00a0ADD, PUSH1 7\nPOP" = .error e := by
    rw [assemble, parse, String.toList_ofList]
    with_unfolding_all rfl
  refine ⟨h, ?_⟩
  obtain ⟨before, line, after, token, cause, _, he, _, _, _, _, _, htext⟩ :=
    assemble_error_first_fault h
  obtain ⟨hl, _⟩ := Error.assembly.inj he
  exact htext "# ü\r\n\u00a0ADD, PUSH1 7".toList "POP".toList rfl (by rw [← hl]; rfl)
    "???\nPUSH1 256".toList

end Assembly

end StackMachine
