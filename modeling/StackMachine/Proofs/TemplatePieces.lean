import Mathlib.Data.List.Nodup
import StackMachine.Derive.Item

/-!
# Templates as pieces

A template is built from pieces: characters that stand for themselves, braces that are written
twice, and placeholders with a name and, behind a colon, a format.  `spell` writes pieces one after
the other, and `names` are the names of the placeholders, with repetitions.

The scan for placeholders finds exactly these names, whatever pieces meet: what it skips has no
opening brace, and what follows an opening brace is another one or a name (`rawNames_spell`).  Each
name is found once, where it occurs first.  A pattern with named fields binds the fields among them.
-/

namespace StackMachine.Derive

namespace Template

/-! ## Pieces -/

/-- A piece of a template. -/
inductive Piece where
  | literal (c : Char)
  | openEscape
  | closeEscape
  | placeholder (name : List Char) (spec : Option (List Char))
deriving DecidableEq, Repr

/-- An opening or a closing brace. -/
def isBrace (c : Char) : Bool := c == openBrace || c == closeBrace

namespace Piece

/-- What follows the name of a placeholder. -/
def ending : Option (List Char) → List Char
  | none => [closeBrace]
  | some spec => ':' :: (spec ++ [closeBrace])

/-- The text of a piece. -/
def spell : Piece → List Char
  | literal c => [c]
  | openEscape => [openBrace, openBrace]
  | closeEscape => [closeBrace, closeBrace]
  | placeholder name spec => openBrace :: (name ++ ending spec)

/-- The name of a placeholder. -/
def name? : Piece → Option (List Char)
  | placeholder name _ => some name
  | _ => none

/-- Only escapes and placeholders have braces, a placeholder's name is not empty and has no colons
and no blanks, and its format has no braces. -/
def WellFormed : Piece → Prop
  | literal c => isBrace c = false
  | openEscape => True
  | closeEscape => True
  | placeholder name spec =>
    (name ≠ [] ∧ ∀ c ∈ name, isBrace c = false ∧ c ≠ ':' ∧ Text.isBlank c = false) ∧
      ∀ s ∈ spec, ∀ c ∈ s, isBrace c = false

end Piece

/-- The text of a template's pieces. -/
def spell (ps : List Piece) : List Char := ps.flatMap Piece.spell

/-- The names of a template's placeholders, in order. -/
def names (ps : List Piece) : List (List Char) := ps.filterMap Piece.name?

variable {ps : List Piece} {cs : List Char}

@[simp] theorem spell_nil : spell [] = [] := rfl

@[simp] theorem spell_cons (p : Piece) (ps : List Piece) : spell (p :: ps) = p.spell ++ spell ps :=
  List.flatMap_cons

theorem ne_openBrace {c : Char} (h : isBrace c = false) : c ≠ openBrace := by
  rintro rfl
  exact absurd h (by decide)

theorem ne_openBrace_of_mem_closeEscape : ∀ c ∈ Piece.closeEscape.spell, c ≠ openBrace :=
  List.forall_mem_cons.2 ⟨by decide, List.forall_mem_singleton.2 (by decide)⟩

theorem ne_closeBrace {c : Char} (h : isBrace c = false) : c ≠ closeBrace := by
  rintro rfl
  exact absurd h (by decide)

/-- A text is split at the first character that is not kept. -/
theorem takeWhile_stop {keep : Char → Bool} (h : ∀ c ∈ cs, keep c = true) {stop : Char}
    (hs : keep stop = false) (rest : List Char) :
    (cs ++ stop :: rest).takeWhile keep = cs ∧
      (cs ++ stop :: rest).dropWhile keep = stop :: rest := by
  have hstop : ¬ keep stop = true := by simp [hs]
  rw [List.takeWhile_append_of_pos h, List.dropWhile_append_of_pos h, List.takeWhile_cons,
    List.dropWhile_cons, if_neg hstop, if_neg hstop, List.append_nil]
  exact ⟨rfl, rfl⟩

/-! ## The scan for placeholders -/

/-- What has no opening brace is skipped. -/
theorem rawNames_append (h : ∀ c ∈ cs, c ≠ openBrace) (rest : List Char) :
    rawNames (cs ++ rest) = rawNames rest := by
  induction cs with
  | nil => rfl
  | cons c cs ih =>
    obtain ⟨hc, hcs⟩ := List.forall_mem_cons.1 h
    rw [List.cons_append, rawNames.eq_def]
    simp only [if_neg hc]
    exact ih hcs

theorem rawNames_openEscape (rest : List Char) :
    rawNames (openBrace :: openBrace :: rest) = rawNames rest := by
  rw [rawNames.eq_def]
  simp only [if_true]

/-- A name behind an opening brace is found, up to the character that ends it. -/
theorem rawNames_name {name : List Char} {stop : Char} (hne : name ≠ [])
    (hn : ∀ c ∈ name, isBrace c = false ∧ c ≠ ':') (hs : endsName stop = true)
    (rest : List Char) :
    rawNames (openBrace :: (name ++ stop :: rest)) = name :: rawNames rest := by
  have hall : ∀ c ∈ name, (!endsName c) = true := by
    intro c hc
    obtain ⟨hbrace, hcolon⟩ := hn c hc
    simp [endsName, ne_closeBrace hbrace, hcolon]
  have hstop : (!endsName stop) = false := by simp [hs]
  obtain ⟨htake, hdrop⟩ := takeWhile_stop hall hstop rest
  obtain ⟨d, name, rfl⟩ := List.exists_cons_of_ne_nil hne
  have hd : d ≠ openBrace := ne_openBrace (hn d List.mem_cons_self).1
  rw [rawNames.eq_def]
  simp only [if_true, List.cons_append, if_neg hd] at htake hdrop ⊢
  rw [htake, hdrop]
  rfl

/-- A format has no opening brace. -/
theorem ne_openBrace_of_mem_ending {spec : Option (List Char)}
    (h : ∀ s ∈ spec, ∀ c ∈ s, isBrace c = false) : ∀ c ∈ Piece.ending spec, c ≠ openBrace := by
  cases spec with
  | none => exact List.forall_mem_singleton.2 (by decide)
  | some spec =>
    intro c hc
    simp only [Piece.ending, List.mem_cons, List.mem_append, List.not_mem_nil, or_false] at hc
    rcases hc with rfl | hc | rfl
    · decide
    · exact ne_openBrace (h spec rfl c hc)
    · decide

theorem rawNames_placeholder {name : List Char} {spec : Option (List Char)}
    (h : (Piece.placeholder name spec).WellFormed) (rest : List Char) :
    rawNames ((Piece.placeholder name spec).spell ++ rest) = name :: rawNames rest := by
  obtain ⟨⟨hne, hn⟩, hspec⟩ := h
  have hname : ∀ c ∈ name, isBrace c = false ∧ c ≠ ':' := fun c hc => ⟨(hn c hc).1, (hn c hc).2.1⟩
  have hskip := ne_openBrace_of_mem_ending hspec
  rw [Piece.spell, List.cons_append, List.append_assoc]
  cases spec with
  | none => exact rawNames_name hne hname (by decide) rest
  | some spec =>
    rw [Piece.ending, List.cons_append, rawNames_name hne hname (by decide), rawNames_append]
    exact fun c hc => hskip c (List.mem_cons_of_mem _ hc)

/-- The scan finds the names of the placeholders. -/
theorem rawNames_spell (h : ∀ p ∈ ps, p.WellFormed) : rawNames (spell ps) = names ps := by
  induction ps with
  | nil =>
    rw [spell_nil, rawNames]
    rfl
  | cons p ps ih =>
    obtain ⟨hp, hps⟩ := List.forall_mem_cons.1 h
    rw [spell_cons]
    cases p with
    | literal c =>
      rw [Piece.spell, rawNames_append (List.forall_mem_singleton.2 (ne_openBrace hp))]
      exact ih hps
    | openEscape =>
      show rawNames (openBrace :: openBrace :: spell ps) = names ps
      rw [rawNames_openEscape]
      exact ih hps
    | closeEscape =>
      rw [rawNames_append ne_openBrace_of_mem_closeEscape]
      exact ih hps
    | placeholder name spec =>
      show _ = name :: names ps
      rw [rawNames_placeholder hp, ih hps]

theorem wellFormed_of_mem_names (h : ∀ p ∈ ps, p.WellFormed) {name : List Char}
    (hn : name ∈ names ps) : name ≠ [] ∧ ∀ c ∈ name, Text.isBlank c = false := by
  obtain ⟨p, hp, hname⟩ := List.mem_filterMap.1 hn
  cases p with
  | placeholder name' spec =>
    obtain rfl := Option.some.inj hname
    obtain ⟨⟨hne, hchars⟩, -⟩ := h _ hp
    exact ⟨hne, fun c hc => (hchars c hc).2.2⟩
  | _ => exact absurd hname (by simp [Piece.name?])

/-- Names have no blanks around them and are not empty, so all of them are kept. -/
theorem placeholders_spell (h : ∀ p ∈ ps, p.WellFormed) :
    placeholders (spell ps) = (names ps).eraseDups := by
  have htrim : (names ps).map Text.trim = names ps := by
    refine (List.map_congr_left fun name hn => ?_).trans (List.map_id _)
    obtain ⟨-, hblank⟩ := wellFormed_of_mem_names h hn
    exact Text.trim_eq_self (fun c hc => hblank c (List.mem_of_mem_head? hc))
      (fun c hc => hblank c (List.mem_of_getLast? hc))
  have hfilter : (names ps).filter (!·.isEmpty) = names ps := by
    rw [List.filter_eq_self]
    intro name hn
    simpa using (wellFormed_of_mem_names h hn).1
  rw [placeholders, rawNames_spell h, htrim, hfilter]

theorem mem_placeholders_spell (h : ∀ p ∈ ps, p.WellFormed) {name : List Char} :
    name ∈ placeholders (spell ps) ↔ name ∈ names ps := by
  rw [placeholders_spell h, List.mem_eraseDups]

/-! ## First occurrences -/

section FirstOccurrences

variable {α : Type} [BEq α] [LawfulBEq α]

/-- Leaving out other elements does not change which of two occurs first. -/
theorem idxOf_lt_of_filter (keep : α → Bool) {a b : α} (ha : keep a = true) (hb : keep b = true)
    {l : List α} (h : (l.filter keep).idxOf a < (l.filter keep).idxOf b) :
    l.idxOf a < l.idxOf b := by
  induction l with
  | nil => exact absurd h (Nat.lt_irrefl _)
  | cons x l ih =>
    by_cases hx : keep x = true
    · rw [List.filter_cons_of_pos hx] at h
      by_cases hxa : x = a
      · subst hxa
        by_cases hxb : x = b
        · subst hxb
          exact absurd h (Nat.lt_irrefl _)
        · rw [List.idxOf_cons_self, List.idxOf_cons_ne _ hxb]
          exact Nat.succ_pos _
      · by_cases hxb : x = b
        · subst hxb
          rw [List.idxOf_cons_self] at h
          exact absurd h (Nat.not_lt_zero _)
        · rw [List.idxOf_cons_ne _ hxa, List.idxOf_cons_ne _ hxb] at h ⊢
          exact Nat.succ_lt_succ (ih (Nat.lt_of_succ_lt_succ h))
    · have hne : ∀ c, keep c = true → x ≠ c := by
        rintro c hc rfl
        exact hx hc
      rw [List.filter_cons_of_neg hx] at h
      rw [List.idxOf_cons_ne _ (hne a ha), List.idxOf_cons_ne _ (hne b hb)]
      exact Nat.succ_lt_succ (ih h)

/-- Without repetitions, elements stand in the order in which they occur first. -/
theorem pairwise_eraseDups (l : List α) :
    l.eraseDups.Pairwise fun a b => l.idxOf a < l.idxOf b := by
  induction hn : l.length using Nat.strongRecOn generalizing l with
  | ind n ih =>
    cases l with
    | nil => exact .nil
    | cons x l =>
      -- The repetitions of the first element are left out before the others are looked at.
      have hkept : ∀ a ∈ (l.filter (!· == x)).eraseDups, (!a == x) = true := fun a ha =>
        (List.mem_filter.1 (List.mem_eraseDups.1 ha)).2
      have hne : ∀ a, (!a == x) = true → x ≠ a := by
        rintro a ha rfl
        simp at ha
      have hlt : (l.filter (!· == x)).length < n := by
        rw [← hn, List.length_cons]
        exact Nat.lt_succ_of_le (List.length_filter_le _ _)
      rw [List.eraseDups_cons]
      refine .cons ?_ ((ih _ hlt _ rfl).imp_of_mem ?_)
      · intro a ha
        rw [List.idxOf_cons_self, List.idxOf_cons_ne _ (hne a (hkept a ha))]
        exact Nat.succ_pos _
      · intro a b ha hb hab
        rw [List.idxOf_cons_ne _ (hne a (hkept a ha)), List.idxOf_cons_ne _ (hne b (hkept b hb))]
        exact Nat.succ_lt_succ (idxOf_lt_of_filter (!· == x) (hkept a ha) (hkept b hb) hab)

end FirstOccurrences

end Template

open Template

/-- **The placeholders of a template are the names in it, and named fields are bound accordingly.**
Take a template of well-formed pieces.  The placeholders found in it are the names of the pieces,
each once, in the order in which they occur first.  An arm for named fields has the template as its
format.  Its pattern binds the fields that are names of the template, in the order of the fields,
and these are its arguments. -/
theorem named_arm_of_pieces {ps : List Piece} (h : ∀ p ∈ ps, p.WellFormed) :
    let found := placeholders (spell ps)
    (found.Nodup ∧ (∀ name, name ∈ found ↔ name ∈ names ps) ∧
        found.Pairwise fun a b => (names ps).idxOf a < (names ps).idxOf b) ∧
      ∀ (variant : Option String) (fields : List String),
        let message := String.ofList (spell ps)
        let arm := Arm.ofMessage variant (.named fields) message
        let bound := fields.filter fun field => field.toList ∈ names ps
        arm.format = message ∧ arm.pattern = .named bound ∧ arm.arguments = bound := by
  intro found
  have horder := pairwise_eraseDups (names ps)
  rw [← placeholders_spell h] at horder
  refine ⟨⟨?_, fun name => mem_placeholders_spell h, horder⟩, ?_⟩
  · refine horder.imp ?_
    rintro a b hlt rfl
    exact Nat.lt_irrefl _ hlt
  · intro variant fields message arm bound
    have hbound : (fields.filter fun n => (placeholders message.toList).contains n.toList) =
        bound := by
      refine List.filter_congr fun field _ => ?_
      rw [String.toList_ofList, Bool.eq_iff_iff, List.contains_iff_mem, mem_placeholders_spell h,
        decide_eq_true_iff]
    exact ⟨rfl, congrArg Pattern.named hbound, hbound⟩

/-- Escapes that touch a placeholder, a format and a repeated name: two names are found, in the
order of the template, and two of three fields are bound, in the order of the fields. -/
theorem named_arm_of_pieces_adjacent :
    let ps : List Piece :=
      [.openEscape, .placeholder ['a'] none, .closeEscape, .placeholder ['b'] (some ['>', '4']),
        .placeholder ['a'] none]
    let arm := Arm.ofMessage none (.named ["b", "x", "a"]) (String.ofList (spell ps))
    (∀ p ∈ ps, p.WellFormed) ∧
      spell ps = "\x7b\x7b\x7ba\x7d\x7d\x7d\x7bb:>4\x7d\x7ba\x7d".toList ∧
      ['a'] ∈ placeholders (spell ps) ∧ ['x'] ∉ placeholders (spell ps) ∧
      arm.pattern = .named ["b", "a"] ∧ arm.arguments = ["b", "a"] := by
  intro ps arm
  have h : ∀ p ∈ ps, p.WellFormed := by
    simp only [ps, List.forall_mem_cons, List.not_mem_nil, Piece.WellFormed, Option.mem_def,
      Option.some.injEq, forall_eq', reduceCtorEq, false_implies, implies_true]
    decide
  obtain ⟨⟨-, hmem, -⟩, harm⟩ := named_arm_of_pieces h
  obtain ⟨-, hpattern, harguments⟩ := harm none ["b", "x", "a"]
  have hbound : (["b", "x", "a"].filter fun field => field.toList ∈ names ps) = ["b", "a"] := by
    decide
  rw [hbound] at hpattern harguments
  exact ⟨h, by decide, (hmem _).2 (by decide), fun hx => absurd ((hmem _).1 hx) (by decide),
    hpattern, harguments⟩

end StackMachine.Derive
