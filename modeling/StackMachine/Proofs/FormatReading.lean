import StackMachine.Proofs.TemplatePieces

/-!
# What a format shows

A format is read as pieces, and each piece shows a text: a literal itself, an escape one brace, and
a placeholder the argument that it names, in the way its format asks for.  `format?` gives the whole
text, for arguments that are found by the names in the placeholders.

Reading gives back the pieces that were spelled (`pieces?_spell`), so no other pieces have the same
text.  A placeholder may take its width or its precision from an argument of its own; such a
placeholder shows nothing here.
-/

namespace StackMachine.Derive.Template

variable {ps : List Piece} {p : Piece}

/-! ## Reading -/

/-- The placeholder with a text between its braces: the name ends at the first colon. -/
def Piece.ofBody (body : List Char) : Piece :=
  .placeholder (body.takeWhile (· != ':')) (body.dropWhile (· != ':')).tail?

/-- The pieces of a format.  A brace that is not written twice opens a placeholder that has to be
closed, or closes one. -/
def pieces? (cs : List Char) : Option (List Piece) :=
  match cs with
  | [] => some []
  | c :: rest =>
    if c = openBrace then
      if rest.head? = some openBrace then (pieces? rest.tail).map (.openEscape :: ·)
      else if closeBrace ∈ rest then
        (pieces? (rest.dropWhile (· != closeBrace)).tail).map
          (Piece.ofBody (rest.takeWhile (· != closeBrace)) :: ·)
      else none
    else if c = closeBrace then
      if rest.head? = some closeBrace then (pieces? rest.tail).map (.closeEscape :: ·) else none
    else (pieces? rest).map (.literal c :: ·)
termination_by cs.length
decreasing_by
  · rw [List.length_tail, List.length_cons]
    omega
  · have h := (List.dropWhile_suffix (fun x => x != closeBrace) (l := rest)).length_le
    rw [List.length_tail, List.length_cons]
    omega
  · rw [List.length_tail, List.length_cons]
    omega
  · exact Nat.lt_succ_self _

namespace Piece

/-- What stands between the braces of a placeholder. -/
def body (name : List Char) (spec : Option (List Char)) : List Char :=
  name ++ (spec.map (':' :: ·)).getD []

theorem spell_placeholder (name : List Char) (spec : Option (List Char)) :
    (placeholder name spec).spell = openBrace :: (body name spec ++ [closeBrace]) := by
  cases spec <;> simp [spell, ending, body]

theorem ofBody_body {name : List Char} (hn : ∀ c ∈ name, c ≠ ':') (spec : Option (List Char)) :
    ofBody (body name spec) = placeholder name spec := by
  have hall : ∀ c ∈ name, (c != ':') = true := fun c hc => bne_iff_ne.2 (hn c hc)
  rw [ofBody, body, List.takeWhile_append_of_pos hall, List.dropWhile_append_of_pos hall]
  cases spec <;> simp

/-- The first closing brace of a placeholder is the one that closes it. -/
theorem ne_closeBrace_of_mem_body {name : List Char} {spec : Option (List Char)}
    (h : (placeholder name spec).WellFormed) : ∀ c ∈ body name spec, c ≠ closeBrace := by
  obtain ⟨⟨-, hname⟩, hspec⟩ := h
  intro c hc
  rcases List.mem_append.1 hc with hc | hc
  · exact ne_closeBrace (hname c hc).1
  · cases spec with
    | none => exact absurd hc List.not_mem_nil
    | some spec =>
      rcases List.mem_cons.1 hc with rfl | hc
      · decide
      · exact ne_closeBrace (hspec spec rfl c hc)

end Piece

/-- Where a piece was spelled it is read. -/
theorem pieces?_append (h : p.WellFormed) (rest : List Char) :
    pieces? (p.spell ++ rest) = (pieces? rest).map (p :: ·) := by
  cases p with
  | literal c =>
    rw [Piece.spell, List.singleton_append, pieces?.eq_def]
    simp only [if_neg (ne_openBrace h), if_neg (ne_closeBrace h)]
  | openEscape =>
    show pieces? (openBrace :: openBrace :: rest) = _
    rw [pieces?.eq_def]
    simp only [if_true, List.head?_cons, List.tail_cons]
  | closeEscape =>
    have hne : closeBrace ≠ openBrace := by decide
    show pieces? (closeBrace :: closeBrace :: rest) = _
    rw [pieces?.eq_def]
    simp only [if_neg hne, if_true, List.head?_cons, List.tail_cons]
  | placeholder name spec =>
    have hkeep : ∀ c ∈ Piece.body name spec, (c != closeBrace) = true := fun c hc =>
      bne_iff_ne.2 (Piece.ne_closeBrace_of_mem_body h c hc)
    obtain ⟨⟨hne, hname⟩, -⟩ := h
    have hstop : (closeBrace != closeBrace) = false := by decide
    obtain ⟨htake, hdrop⟩ := takeWhile_stop hkeep hstop rest
    -- A name comes first, so the brace before it is not written twice.
    have hhead : (Piece.body name spec ++ closeBrace :: rest).head? ≠ some openBrace := by
      obtain ⟨d, name, rfl⟩ := List.exists_cons_of_ne_nil hne
      exact fun heq => ne_openBrace (hname d List.mem_cons_self).1 (Option.some.inj heq)
    have hmem : closeBrace ∈ Piece.body name spec ++ closeBrace :: rest := by simp
    rw [Piece.spell_placeholder, List.cons_append, List.append_assoc, List.singleton_append,
      pieces?.eq_def]
    simp only [if_true, if_neg hhead, if_pos hmem, htake, hdrop, List.tail_cons,
      Piece.ofBody_body fun c hc => (hname c hc).2.1]

/-- **Reading gives back the pieces that were spelled.** -/
theorem pieces?_spell (h : ∀ p ∈ ps, p.WellFormed) : pieces? (spell ps) = some ps := by
  induction ps with
  | nil =>
    rw [spell_nil, pieces?]
  | cons p ps ih =>
    obtain ⟨hp, hps⟩ := List.forall_mem_cons.1 h
    rw [spell_cons, pieces?_append hp, ih hps]
    rfl

/-- Pieces with the same text are the same pieces. -/
theorem eq_of_spell_eq {qs : List Piece} (hp : ∀ p ∈ ps, p.WellFormed) (hq : ∀ q ∈ qs, q.WellFormed)
    (h : spell ps = spell qs) : ps = qs := by
  have hread := pieces?_spell hp
  rw [h, pieces?_spell hq] at hread
  exact (Option.some.inj hread).symm

/-! ## Showing -/

/-- How an argument is shown: its text, for the format of a placeholder. -/
abbrev Shown := Option (List Char) → List Char

/-- The marks of alignment. -/
def isAlignment (c : Char) : Bool := c == '<' || c == '^' || c == '>'

/-- A format without its alignment, before which a character to fill with may stand. -/
def afterAlignment (spec : List Char) : List Char :=
  if spec[1]?.any isAlignment then spec.drop 2
  else if spec[0]?.any isAlignment then spec.drop 1
  else spec

/-- A format takes its width or its precision from an argument. -/
def takesArgument (spec : List Char) : Bool :=
  (afterAlignment spec).any fun c => c == '$' || c == '*'

/-- A piece is no placeholder whose format takes an argument. -/
def Piece.isPlain : Piece → Bool
  | placeholder _ spec => !spec.any takesArgument
  | _ => true

/-- What a piece shows. -/
def Piece.show? (argument : List Char → Option Shown) : Piece → Option (List Char)
  | literal c => some [c]
  | openEscape => some [openBrace]
  | closeEscape => some [closeBrace]
  | placeholder name spec =>
    if spec.any takesArgument then none else (argument name).map fun shown => shown spec

/-- What pieces show. -/
def show? (argument : List Char → Option Shown) : List Piece → Option (List Char)
  | [] => some []
  | p :: ps => (p.show? argument).bind fun text => (show? argument ps).map (text ++ ·)

/-- The text that a format shows. -/
def format? (argument : List Char → Option Shown) (cs : List Char) : Option (List Char) :=
  (pieces? cs).bind (show? argument)

theorem format?_spell (h : ∀ p ∈ ps, p.WellFormed) (argument : List Char → Option Shown) :
    format? argument (spell ps) = show? argument ps := by
  rw [format?, pieces?_spell h]
  rfl

/-- Pieces show a text if each of them does. -/
theorem isSome_show? {argument : List Char → Option Shown}
    (h : ∀ p ∈ ps, (p.show? argument).isSome) : (show? argument ps).isSome := by
  induction ps with
  | nil => rfl
  | cons p ps ih =>
    obtain ⟨hp, hps⟩ := List.forall_mem_cons.1 h
    obtain ⟨text, ht⟩ := Option.isSome_iff_exists.1 hp
    rw [show?, ht, Option.bind_some, Option.isSome_map]
    exact ih hps

/-- Changed pieces show the same if each of them does. -/
theorem show?_map {change : Piece → Piece} {argument argument' : List Char → Option Shown}
    (h : ∀ p ∈ ps, (change p).show? argument' = p.show? argument) :
    show? argument' (ps.map change) = show? argument ps := by
  induction ps with
  | nil => rfl
  | cons p ps ih =>
    obtain ⟨hp, hps⟩ := List.forall_mem_cons.1 h
    rw [List.map_cons, show?, show?, hp, ih hps]

end StackMachine.Derive.Template
