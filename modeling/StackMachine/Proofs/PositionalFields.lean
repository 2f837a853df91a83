import StackMachine.Proofs.FormatReading
import StackMachine.Proofs.Renaming

/-!
# Fields by position

A template whose placeholders are positions of fields becomes a format whose placeholders are the
names of the bound fields.  On pieces this would be a change of each placeholder alone
(`Piece.renamed`).  On the text it is an insertion behind braces, and a brace also ends the escape
`{{`.  Where an escape is followed by what ends a placeholder that is used, the text behind
the escape `mimics` a placeholder and gets its `f`, too (`emitted`).

The fields that are bound, and the arguments of the format, are the positions that occur, whatever
stands around them.  The format is the renamed template exactly if nothing mimics a placeholder, and
then it shows what the template shows when the fields are given by position.
-/

namespace StackMachine.Derive

namespace Template

variable {ps : List Piece} {count : Nat} {indices : List Nat}

/-! ## Pieces with positions -/

namespace Piece

/-- Placeholders are positions below a bound, written in decimal. -/
def IsPositional (count : Nat) : Piece → Prop
  | literal c => isBrace c = false
  | openEscape => True
  | closeEscape => True
  | placeholder name spec =>
    (∃ i < count, name = Text.decimal i) ∧ ∀ s ∈ spec, ∀ c ∈ s, isBrace c = false

/-- The piece with the position of a placeholder made a name. -/
def renamed : Piece → Piece
  | literal c => literal c
  | openEscape => openEscape
  | closeEscape => closeEscape
  | placeholder name spec => placeholder ('f' :: name) spec

/-- The text behind an escape of an opening brace is what ends a placeholder of these positions. -/
def mimicked (indices : List Nat) (rest : List Char) : Piece → Bool
  | openEscape => continuesAny indices rest
  | _ => false

theorem IsPositional.wellFormed {p : Piece} (h : p.IsPositional count) : p.WellFormed := by
  cases p with
  | literal c => exact h
  | openEscape => trivial
  | closeEscape => trivial
  | placeholder name spec =>
    obtain ⟨⟨i, -, rfl⟩, hspec⟩ := h
    exact ⟨⟨Nat.toDigits_ne_nil, fun c hc => (digit_of_mem_decimal hc).1⟩, hspec⟩

theorem WellFormed.renamed {p : Piece} (h : p.WellFormed) : p.renamed.WellFormed := by
  cases p with
  | placeholder name spec =>
    obtain ⟨⟨-, hn⟩, hspec⟩ := h
    exact ⟨⟨List.cons_ne_nil _ _, List.forall_mem_cons.2 ⟨by decide, hn⟩⟩, hspec⟩
  | _ => exact h

end Piece

/-- The positions that occur in a template, in increasing order. -/
def positions (ps : List Piece) (count : Nat) : List Nat :=
  (List.range count).filter fun i => Text.decimal i ∈ names ps

/-- Somewhere in a template, text mimics a placeholder of these positions. -/
def mimics (indices : List Nat) : List Piece → Bool
  | [] => false
  | p :: ps => p.mimicked indices (spell ps) || mimics indices ps

/-- The pieces of the format: placeholders are renamed, and an `f` stands before text that mimics a
placeholder. -/
def emitted (indices : List Nat) : List Piece → List Piece
  | [] => []
  | p :: ps =>
    if p.mimicked indices (spell ps) then p.renamed :: .literal 'f' :: emitted indices ps
    else p.renamed :: emitted indices ps

theorem usedPositions_spell (h : ∀ p ∈ ps, p.WellFormed) (count : Nat) :
    Arm.usedPositions (placeholders (spell ps)) count = positions ps count := by
  refine List.filter_congr fun i _ => ?_
  rw [Bool.eq_iff_iff, List.contains_iff_mem, mem_placeholders_spell h, decide_eq_true_iff]

theorem mem_positions {i : Nat} :
    i ∈ positions ps count ↔ i < count ∧ Text.decimal i ∈ names ps := by
  rw [positions, List.mem_filter, List.mem_range, decide_eq_true_iff]

/-- The names of a template with positions are the positions that occur. -/
theorem exists_position_of_mem_names (h : ∀ p ∈ ps, p.IsPositional count) :
    ∀ name ∈ names ps, ∃ i ∈ positions ps count, name = Text.decimal i := by
  intro name hn
  obtain ⟨p, hp, hname⟩ := List.mem_filterMap.1 hn
  cases p with
  | placeholder name' spec =>
    obtain rfl := Option.some.inj hname
    obtain ⟨⟨i, hi, rfl⟩, -⟩ := h _ hp
    exact ⟨i, mem_positions.2 ⟨hi, hn⟩, rfl⟩
  | _ => exact absurd hname (by simp [Piece.name?])

/-! ## The format -/

theorem continues_ending (name : List Char) (spec : Option (List Char)) (rest : List Char) :
    continues name (name ++ (Piece.ending spec ++ rest)) = true := by
  rw [continues_iff]
  cases spec with
  | none => exact ⟨closeBrace, rest, by decide, rfl⟩
  | some spec => exact ⟨':', spec ++ [closeBrace] ++ rest, by decide, rfl⟩

/-- A position does not start with a brace. -/
theorem continuesAny_openBrace (indices : List Nat) (rest : List Char) :
    continuesAny indices (openBrace :: rest) = false := by
  rw [continuesAny, List.any_eq_false]
  intro i _ hi
  -- What counts is the text in front of the brace, and there is none.
  have hnone : continues (Text.decimal i) [] = true :=
    (continues_append_openBrace i [] rest).symm.trans hi
  obtain ⟨stop, after, -, happend⟩ := continues_iff.1 hnone
  exact absurd happend (by simp)

/-- **Renaming the text of a template gives the text of the emitted pieces.** -/
theorem insertMark_spell (h : ∀ p ∈ ps, p.WellFormed)
    (hn : ∀ name ∈ names ps, ∃ i ∈ indices, name = Text.decimal i) :
    insertMark (continuesAny indices) (spell ps) = spell (emitted indices ps) := by
  induction ps with
  | nil => rfl
  | cons p ps ih =>
    obtain ⟨hp, hps⟩ := List.forall_mem_cons.1 h
    rw [spell_cons]
    cases p with
    | literal c =>
      show _ = [c] ++ spell (emitted indices ps)
      rw [Piece.spell, insertMark_append (List.forall_mem_singleton.2 (ne_openBrace hp)), ih hps hn]
    | closeEscape =>
      show _ = [closeBrace, closeBrace] ++ spell (emitted indices ps)
      rw [insertMark_append ne_openBrace_of_mem_closeEscape, ih hps hn]
      rfl
    | openEscape =>
      show insertMark _ (openBrace :: openBrace :: spell ps) = _
      rw [insertMark_of_test_eq_false (continuesAny_openBrace _ _), emitted, Piece.mimicked]
      cases hnext : continuesAny indices (spell ps) with
      | true =>
        rw [insertMark_brace hnext, ih hps hn]
        rfl
      | false =>
        rw [insertMark_of_test_eq_false hnext, ih hps hn]
        rfl
    | placeholder name spec =>
      obtain ⟨⟨-, hname⟩, hspec⟩ := hp
      obtain ⟨⟨i, hi, rfl⟩, hnames⟩ := List.forall_mem_cons.1 hn
      have htest :
          continuesAny indices (Text.decimal i ++ (Piece.ending spec ++ spell ps)) = true :=
        List.any_eq_true.2 ⟨i, hi, continues_ending _ _ _⟩
      have hplain : ∀ c ∈ Text.decimal i ++ Piece.ending spec, c ≠ openBrace := by
        intro c hc
        rcases List.mem_append.1 hc with hc | hc
        · exact ne_openBrace (hname c hc).1
        · exact ne_openBrace_of_mem_ending hspec c hc
      rw [Piece.spell, List.cons_append, List.append_assoc, insertMark_brace htest,
        ← List.append_assoc, insertMark_append hplain, ih hps hnames]
      rfl

theorem length_le_emitted (indices : List Nat) (ps : List Piece) :
    ps.length ≤ (emitted indices ps).length := by
  induction ps with
  | nil => exact Nat.le_refl _
  | cons p ps ih =>
    rw [emitted]
    split
    · exact Nat.succ_le_succ (Nat.le_succ_of_le ih)
    · exact Nat.succ_le_succ ih

/-- What is emitted is the renamed template exactly if nothing mimics a placeholder: an `f` that is
put in is a piece too many. -/
theorem emitted_eq_map_iff (indices : List Nat) (ps : List Piece) :
    emitted indices ps = ps.map Piece.renamed ↔ mimics indices ps = false := by
  induction ps with
  | nil => exact iff_of_true rfl rfl
  | cons p ps ih =>
    rw [emitted, mimics, List.map_cons]
    cases p.mimicked indices (spell ps) with
    | true =>
      refine iff_of_false (fun heq => ?_) (by simp)
      have hlen : (emitted indices ps).length + 1 = ps.length := by
        have := congrArg List.length (List.cons.inj heq).2
        rwa [List.length_cons, List.length_map] at this
      exact absurd (length_le_emitted indices ps) (by omega)
    | false => simpa using ih

theorem wellFormed_emitted (h : ∀ p ∈ ps, p.WellFormed) :
    ∀ p ∈ emitted indices ps, p.WellFormed := by
  induction ps with
  | nil => exact h
  | cons p ps ih =>
    obtain ⟨hp, hps⟩ := List.forall_mem_cons.1 h
    rw [emitted]
    split
    · exact List.forall_mem_cons.2 ⟨hp.renamed, List.forall_mem_cons.2 ⟨rfl, ih hps⟩⟩
    · exact List.forall_mem_cons.2 ⟨hp.renamed, ih hps⟩

end Template

open Template

variable {ps : List Piece} {count : Nat}

/-! ## The arguments of an arm -/

/-- The value that a tuple pattern binds to a name. -/
def Pattern.value? (values : List Shown) (name : String) : Pattern → Option Shown
  | tuple bindings => (bindings.zip values).lookup (some name)
  | _ => none

namespace Arm

/-- The argument with a name: a field that the pattern binds, if the arm passes it on. -/
def argument? (a : Arm) (values : List Shown) (name : List Char) : Option Shown :=
  if String.ofList name ∈ a.arguments then a.pattern.value? values (String.ofList name) else none

/-- The argument at a position. -/
def positional? (values : List Shown) (name : List Char) : Option Shown :=
  (Text.readDigits 10 name).bind (values[·]?)

theorem positional?_decimal (values : List Shown) (i : Nat) :
    positional? values (Text.decimal i) = values[i]? := by
  rw [positional?, Text.readDigits_decimal, Option.bind_some]

theorem binding_injective {i j : Nat} (h : binding i = binding j) : i = j := by
  have hdigits : Text.decimal i = Text.decimal j := (List.cons.inj (String.ofList_injective h)).2
  exact Text.decimal_injective hdigits

/-- Looking up a key finds the value at the first place of the key. -/
theorem lookup_zip {β γ : Type} [BEq β] [LawfulBEq β] {keys : List β} {key : β} {i : Nat}
    (hi : keys[i]? = some key) (hfirst : ∀ j < i, keys[j]? ≠ some key) (values : List γ) :
    (keys.zip values).lookup key = values[i]? := by
  induction keys generalizing i values with
  | nil => exact absurd hi (by simp)
  | cons k keys ih =>
    cases values with
    | nil => simp
    | cons v values =>
      cases i with
      | zero =>
        obtain rfl := Option.some.inj hi
        simp
      | succ i =>
        have hne : key ≠ k := fun heq => hfirst 0 (Nat.succ_pos i) (congrArg some heq.symm)
        rw [List.zip_cons_cons, List.lookup_cons, beq_eq_false_iff_ne.2 hne]
        exact ih hi (fun j hj => hfirst (j + 1) (Nat.succ_lt_succ hj)) values

/-- The arm of a template with positions. -/
theorem ofMessage_spell (h : ∀ p ∈ ps, p.IsPositional count) (variant : Option String) :
    ofMessage variant (.tuple count) (String.ofList (spell ps)) =
      { variant
        pattern := .tuple ((List.range count).map fun i =>
          if i ∈ positions ps count then some (binding i) else none)
        format := String.ofList (spell (emitted (positions ps count) ps))
        arguments := (positions ps count).map binding } := by
  have hw : ∀ p ∈ ps, p.WellFormed := fun p hp => (h p hp).wellFormed
  simp only [ofMessage, String.toList_ofList, usedPositions_spell hw, renameAll_eq,
    insertMark_spell hw (exists_position_of_mem_names h)]

/-- The name of a field that occurs stands for the field at its position. -/
theorem argument?_fieldName (h : ∀ p ∈ ps, p.IsPositional count) (variant : Option String)
    (values : List Shown) {i : Nat} (hi : i ∈ positions ps count) :
    (ofMessage variant (.tuple count) (String.ofList (spell ps))).argument? values (fieldName i) =
      values[i]? := by
  obtain ⟨hlt, -⟩ := mem_positions.1 hi
  have hpassed : binding i ∈ (positions ps count).map binding := List.mem_map_of_mem hi
  rw [ofMessage_spell h, argument?]
  refine (if_pos hpassed).trans (lookup_zip ?_ ?_ values)
  · rw [List.getElem?_map, List.getElem?_range hlt]
    exact congrArg some (if_pos hi)
  · intro j hj heq
    rw [List.getElem?_map, List.getElem?_range (Nat.lt_trans hj hlt), Option.map_some,
      Option.some_inj] at heq
    split at heq
    · exact absurd (binding_injective (Option.some.inj heq)) (Nat.ne_of_lt hj)
    · exact absurd heq (by simp)

/-- A renamed piece shows the field that the piece shows by its position. -/
theorem show?_renamed (h : ∀ p ∈ ps, p.IsPositional count) (variant : Option String)
    (values : List Shown) {p : Piece} (hp : p ∈ ps) :
    p.renamed.show?
        ((ofMessage variant (.tuple count) (String.ofList (spell ps))).argument? values) =
      p.show? (positional? values) := by
  cases p with
  | placeholder name spec =>
    have hname : name ∈ names ps := List.mem_filterMap.2 ⟨_, hp, rfl⟩
    obtain ⟨i, hi, rfl⟩ := exists_position_of_mem_names h name hname
    rw [Piece.renamed, Piece.show?, Piece.show?, positional?_decimal, ← fieldName,
      argument?_fieldName h variant values hi]
  | _ => rfl

/-- Every field has a value to show. -/
theorem isSome_show?_positional {values : List Shown} {p : Piece} (h : p.IsPositional values.length)
    (hplain : p.isPlain = true) : (p.show? (positional? values)).isSome := by
  cases p with
  | placeholder name spec =>
    obtain ⟨⟨i, hi, rfl⟩, -⟩ := h
    have hspec : ¬ spec.any takesArgument = true := by simpa [Piece.isPlain] using hplain
    rw [Piece.show?, if_neg hspec, positional?_decimal, List.getElem?_eq_getElem hi]
    rfl
  | _ => rfl

end Arm

/-- **The arm of a tuple binds the fields that occur, and its format shows them.**  Take a template
of pieces whose placeholders are positions below the number of fields.  The arguments of the arm are
the names of the positions that occur, in increasing order.  Its pattern binds these fields and no
other one.

The format has the emitted pieces.  It is the renamed template exactly if nothing in the template
mimics a placeholder.  In this case it shows, with the fields of a value as they are bound, the text
that the template shows with the fields by position; only formats that take a width or a precision
from an argument are left out. -/
theorem tuple_arm_of_pieces (h : ∀ p ∈ ps, p.IsPositional count) (variant : Option String) :
    let arm := Arm.ofMessage variant (.tuple count) (String.ofList (spell ps))
    let used := positions ps count
    arm.arguments = used.map Arm.binding ∧
      arm.pattern = .tuple ((List.range count).map fun i =>
        if i ∈ used then some (Arm.binding i) else none) ∧
      arm.format = String.ofList (spell (emitted used ps)) ∧
      (arm.format = String.ofList (spell (ps.map Piece.renamed)) ↔ mimics used ps = false) ∧
      ∀ values : List Shown, values.length = count → mimics used ps = false →
        (∀ p ∈ ps, p.isPlain = true) →
        ∃ text, format? (arm.argument? values) arm.format.toList = some text ∧
          format? (Arm.positional? values) (spell ps) = some text := by
  intro arm used
  have hw : ∀ p ∈ ps, p.WellFormed := fun p hp => (h p hp).wellFormed
  have hrenamed : ∀ p ∈ ps.map Piece.renamed, p.WellFormed := by
    intro q hq
    obtain ⟨p, hp, rfl⟩ := List.mem_map.1 hq
    exact (hw p hp).renamed
  have harm := Arm.ofMessage_spell h variant
  have hformat : arm.format = String.ofList (spell (emitted used ps)) := congrArg Arm.format harm
  refine ⟨congrArg Arm.arguments harm, congrArg Arm.pattern harm, hformat, ?_, ?_⟩
  · rw [hformat, ← emitted_eq_map_iff]
    constructor
    · exact fun heq => eq_of_spell_eq (wellFormed_emitted hw) hrenamed (String.ofList_injective heq)
    · exact fun heq => by rw [heq]
  · intro values hlen hmimics hplain
    have hshow : show? (arm.argument? values) (ps.map Piece.renamed) =
        show? (Arm.positional? values) ps :=
      show?_map fun p hp => Arm.show?_renamed h variant values hp
    have hsome : (show? (Arm.positional? values) ps).isSome :=
      isSome_show? fun p hp => Arm.isSome_show?_positional (hlen ▸ h p hp) (hplain p hp)
    obtain ⟨text, htext⟩ := Option.isSome_iff_exists.1 hsome
    refine ⟨text, ?_, ?_⟩
    · rw [hformat, (emitted_eq_map_iff used ps).2 hmimics, String.toList_ofList,
        format?_spell hrenamed, hshow, htext]
    · rw [format?_spell hw, htext]

/-- An escape before a letter, a position of two digits with a format and a position that is a part
of it: the format shows the eleven fields of a value as the template does. -/
theorem tuple_arm_of_pieces_digits :
    let ps : List Piece :=
      [.openEscape, .literal 'a', .closeEscape, .placeholder ['1', '0'] (some ['>', '4']),
        .placeholder ['1'] none]
    let values : List Shown := (List.range 11).map fun i spec => Text.decimal i ++ spec.getD []
    let arm := Arm.ofMessage (some "A") (.tuple 11) (String.ofList (spell ps))
    spell ps = "\x7b\x7ba\x7d\x7d\x7b10:>4\x7d\x7b1\x7d".toList ∧
      arm.arguments = ["f1", "f10"] ∧
      arm.format = "\x7b\x7ba\x7d\x7d\x7bf10:>4\x7d\x7bf1\x7d" ∧
      ∃ text, format? (arm.argument? values) arm.format.toList = some text ∧
        format? (Arm.positional? values) (spell ps) = some text := by
  intro ps values arm
  have h : ∀ p ∈ ps, p.IsPositional 11 := by
    simp only [ps, List.forall_mem_cons, List.not_mem_nil, Piece.IsPositional, Option.mem_def,
      Option.some.injEq, forall_eq', reduceCtorEq, false_implies, implies_true]
    exact ⟨trivial, rfl, trivial, ⟨⟨10, by decide, rfl⟩, by decide⟩, ⟨⟨1, by decide, rfl⟩, trivial⟩,
      trivial⟩
  obtain ⟨harguments, -, -, hformat, htext⟩ := tuple_arm_of_pieces h (some "A")
  have hmimics : mimics (positions ps 11) ps = false := by decide
  exact ⟨by decide, harguments.trans (by decide), (hformat.2 hmimics).trans (by decide),
    htext values (by decide) hmimics (by decide)⟩

/-- A position in escaped braces is renamed if it occurs as a placeholder: where the template shows
the position, the format shows the name of the field. -/
theorem escaped_position_is_renamed :
    let ps : List Piece :=
      [.openEscape, .literal '0', .closeEscape, .literal ' ', .placeholder ['0'] none]
    let arm := Arm.ofMessage (some "A") (.tuple 1) (String.ofList (spell ps))
    (∀ p ∈ ps, p.IsPositional 1) ∧ spell ps = "\x7b\x7b0\x7d\x7d \x7b0\x7d".toList ∧
      arm.format = "\x7b\x7bf0\x7d\x7d \x7bf0\x7d" ∧
      arm.format ≠ String.ofList (spell (ps.map Piece.renamed)) := by
  intro ps arm
  have h : ∀ p ∈ ps, p.IsPositional 1 := by
    simp only [ps, List.forall_mem_cons, List.not_mem_nil, Piece.IsPositional, Option.mem_def,
      reduceCtorEq, false_implies, implies_true]
    exact ⟨trivial, rfl, trivial, rfl, ⟨⟨0, by decide, rfl⟩, trivial⟩, trivial⟩
  have hformat : arm.format = "\x7b\x7bf0\x7d\x7d \x7bf0\x7d" :=
    (congrArg Arm.format (Arm.ofMessage_spell h (some "A"))).trans (by decide)
  refine ⟨h, by decide, hformat, ?_⟩
  rw [hformat]
  decide

end StackMachine.Derive
