import StackMachine.Proofs.TemplatePieces

/-!
# Renaming as insertion

Renaming the placeholders of a position replaces one text by another twice.  Both texts start with a
brace that does not occur again in them, and they differ by one `f` behind it.  So occurrences do
not overlap, and the replacement only inserts: an `f` behind each brace that the position and the
end of a name follow (`renamePositional_eq`).

Whether a brace gets its `f` depends on the text up to the next brace, which an insertion elsewhere
does not touch, and an `f` that is already there is no digit.  So renamings do not disturb each
other, and several of them one after the other are one insertion (`renameAll_eq`).

The digits behind a brace go on up to the character that ends the name.  So a brace is the brace of
one position at most, also where the digits of a position are the first digits of another
(`eq_of_continues`).  The order of the positions does not matter, and neither do repetitions
(`renameAll_congr`).
-/

namespace StackMachine.Derive

namespace Template

variable {cs body : List Char} {test other : List Char → Bool}

/-- The text with an `f` behind each opening brace, if what follows the brace passes a test. -/
def insertMark (test : List Char → Bool) : List Char → List Char
  | [] => []
  | c :: cs =>
    if c = openBrace ∧ test cs = true then c :: 'f' :: insertMark test cs
    else c :: insertMark test cs

/-- A text goes on with a name and a character that ends it. -/
def continues (name rest : List Char) : Bool :=
  (name ++ [':']).isPrefixOf rest || (name ++ [closeBrace]).isPrefixOf rest

/-! ## Insertions -/

theorem insertMark_brace (h : test cs = true) :
    insertMark test (openBrace :: cs) = openBrace :: 'f' :: insertMark test cs := by
  rw [insertMark, if_pos ⟨rfl, h⟩]

theorem insertMark_of_test_eq_false (h : test cs = false) (c : Char) :
    insertMark test (c :: cs) = c :: insertMark test cs := by
  rw [insertMark, if_neg]
  rintro ⟨-, ht⟩
  rw [h] at ht
  exact absurd ht (by decide)

/-- What has no opening brace stays. -/
theorem insertMark_append (h : ∀ c ∈ cs, c ≠ openBrace) (rest : List Char) :
    insertMark test (cs ++ rest) = cs ++ insertMark test rest := by
  induction cs with
  | nil => rfl
  | cons c cs ih =>
    obtain ⟨hc, hcs⟩ := List.forall_mem_cons.1 h
    rw [List.cons_append, insertMark, if_neg fun hand => hc hand.1, ih hcs, List.cons_append]

theorem insertMark_false (cs : List Char) : insertMark (fun _ => false) cs = cs := by
  induction cs with
  | nil => rfl
  | cons c cs ih => rw [insertMark_of_test_eq_false rfl, ih]

/-- A test that sees no insertion: it fails at an `f`, and gives the same answer on a text with
insertions. -/
structure IsLocal (test : List Char → Bool) : Prop where
  mark : ∀ cs, test ('f' :: cs) = false
  insert : ∀ other cs, test (insertMark other cs) = test cs

/-- Looking for a text without opening braces sees no insertion. -/
theorem isPrefixOf_insertMark (h : ∀ c ∈ body, c ≠ openBrace) (cs : List Char) :
    body.isPrefixOf (insertMark other cs) = body.isPrefixOf cs := by
  induction body generalizing cs with
  | nil => simp
  | cons b body ih =>
    obtain ⟨hb, hbody⟩ := List.forall_mem_cons.1 h
    cases cs with
    | nil => rfl
    | cons c cs =>
      by_cases hc : c = openBrace
      · -- The text ends where a brace comes, marked or not.
        subst hc
        have hne : (b == openBrace) = false := by simpa using hb
        rw [insertMark]
        split <;> rw [List.isPrefixOf_cons_cons, List.isPrefixOf_cons_cons, hne, Bool.false_and,
          Bool.false_and]
      · rw [insertMark, if_neg fun hand => hc hand.1, List.isPrefixOf_cons_cons,
          List.isPrefixOf_cons_cons, ih hbody]

theorem isLocal_isPrefixOf {b : Char} (hb : b ≠ 'f') (h : ∀ c ∈ b :: body, c ≠ openBrace) :
    IsLocal (b :: body).isPrefixOf := by
  refine ⟨fun cs => ?_, fun _ cs => isPrefixOf_insertMark h cs⟩
  have hne : (b == 'f') = false := by simpa using hb
  rw [List.isPrefixOf_cons_cons, hne, Bool.false_and]

theorem IsLocal.or (ht : IsLocal test) (ho : IsLocal other) :
    IsLocal fun cs => test cs || other cs := by
  refine ⟨fun cs => ?_, fun _ cs => ?_⟩
  · simp only [ht.mark, ho.mark, Bool.or_self]
  · simp only [ht.insert, ho.insert]

/-- **An insertion after another one is one insertion**, if the second test sees nothing of the
first. -/
theorem insertMark_insertMark (h : IsLocal test) (cs : List Char) :
    insertMark test (insertMark other cs) = insertMark (fun r => test r || other r) cs := by
  induction cs with
  | nil => rfl
  | cons c cs ih =>
    by_cases hc : c = openBrace
    · subst hc
      cases ho : other cs with
      | true =>
        rw [insertMark_brace ho, insertMark_of_test_eq_false (h.mark _),
          insertMark_brace (by simp [ho]), ← ih, insertMark, if_neg]
        exact fun hand => absurd hand.1 (by decide)
      | false =>
        rw [insertMark_of_test_eq_false ho]
        cases ht : test cs with
        | true => rw [insertMark_brace (by rw [h.insert, ht]), insertMark_brace (by simp [ht]), ih]
        | false =>
          rw [insertMark_of_test_eq_false (by rw [h.insert, ht]),
            insertMark_of_test_eq_false (by simp [ht, ho]), ih]
    · rw [insertMark, if_neg fun hand => hc hand.1, insertMark, if_neg fun hand => hc hand.1, ih,
        insertMark, if_neg fun hand => hc hand.1]

/-! ## Renamings -/

/-- Replacing a text with a brace in front by the same text with a mark is an insertion. -/
theorem replaceAll_eq_insertMark (h : ∀ c ∈ body, c ≠ openBrace) (cs : List Char) :
    Text.replaceAll (openBrace :: body) (openBrace :: 'f' :: body) cs =
      insertMark body.isPrefixOf cs := by
  fun_induction Text.replaceAll (openBrace :: body) (openBrace :: 'f' :: body) cs with
  | case1 => rfl
  | case2 c rest hmatch ih =>
    -- The occurrence is cut off; behind its brace it has no other one.
    obtain ⟨hc, hbody⟩ : openBrace = c ∧ body <+: rest := by
      simpa using List.isPrefixOf_iff_prefix.1 hmatch.2
    obtain ⟨after, rfl⟩ := hbody
    subst hc
    rw [insertMark_brace (List.isPrefixOf_iff_prefix.2 (List.prefix_append _ _)),
      insertMark_append h, ih]
    simp
  | case3 c rest hmatch ih =>
    rw [ih, insertMark, if_neg]
    rintro ⟨rfl, hbody⟩
    refine hmatch ⟨List.cons_ne_nil _ _, ?_⟩
    rw [List.isPrefixOf_cons_cons, hbody]
    rfl

/-- The digits of a position are no characters of templates with a meaning. -/
theorem digit_of_mem_decimal {index : Nat} {c : Char} (h : c ∈ Text.decimal index) :
    (isBrace c = false ∧ c ≠ ':' ∧ Text.isBlank c = false) ∧ c ≠ 'f' := by
  obtain ⟨d, hd, rfl⟩ := Text.exists_digit_of_mem_toDigits (by decide) h
  have hall : ∀ d < 10, (isBrace (Nat.digitChar d) = false ∧ Nat.digitChar d ≠ ':' ∧
      Text.isBlank (Nat.digitChar d) = false) ∧ Nat.digitChar d ≠ 'f' := by
    decide
  exact hall d hd

/-- Looking for a position and the end of a name sees no insertion. -/
theorem isLocal_ended (index : Nat) {stop : Char} (hs : stop ≠ openBrace) :
    (∀ c ∈ Text.decimal index ++ [stop], c ≠ openBrace) ∧
      IsLocal (Text.decimal index ++ [stop]).isPrefixOf := by
  have hbrace : ∀ c ∈ Text.decimal index ++ [stop], c ≠ openBrace := by
    intro c hc
    rcases List.mem_append.1 hc with hc | hc
    · exact ne_openBrace (digit_of_mem_decimal hc).1.1
    · exact List.mem_singleton.1 hc ▸ hs
  refine ⟨hbrace, ?_⟩
  obtain ⟨d, ds, hds⟩ := List.exists_cons_of_ne_nil (Nat.toDigits_ne_nil (b := 10) (n := index))
  have hd : d ∈ Text.decimal index := by
    rw [Text.decimal, hds]
    exact List.mem_cons_self
  rw [Text.decimal, hds, List.cons_append] at hbrace ⊢
  exact isLocal_isPrefixOf (digit_of_mem_decimal hd).2 hbrace

theorem isLocal_continues (index : Nat) : IsLocal (continues (Text.decimal index)) :=
  (isLocal_ended index (by decide)).2.or (isLocal_ended index (by decide)).2

/-- **Renaming inserts an `f` behind each brace that the position and the end of a name follow.** -/
theorem renamePositional_eq (cs : List Char) (index : Nat) :
    renamePositional cs index = insertMark (continues (Text.decimal index)) cs := by
  obtain ⟨hcolon, hlocal⟩ := isLocal_ended index (show ':' ≠ openBrace by decide)
  obtain ⟨hclose, -⟩ := isLocal_ended index (show closeBrace ≠ openBrace by decide)
  show Text.replaceAll (openBrace :: (Text.decimal index ++ [':']))
    (openBrace :: 'f' :: (Text.decimal index ++ [':']))
    (Text.replaceAll (openBrace :: (Text.decimal index ++ [closeBrace]))
      (openBrace :: 'f' :: (Text.decimal index ++ [closeBrace])) cs) = _
  rw [replaceAll_eq_insertMark hclose, replaceAll_eq_insertMark hcolon,
    insertMark_insertMark hlocal]
  rfl

/-- A text goes on with one of several positions and the end of a name. -/
def continuesAny (indices : List Nat) (rest : List Char) : Bool :=
  indices.any fun i => continues (Text.decimal i) rest

theorem foldl_renamePositional (indices : List Nat) (test : List Char → Bool) (cs : List Char) :
    indices.foldl renamePositional (insertMark test cs) =
      insertMark (fun r => continuesAny indices r || test r) cs := by
  induction indices generalizing test with
  | nil => rfl
  | cons i indices ih =>
    rw [List.foldl_cons, renamePositional_eq, insertMark_insertMark (isLocal_continues i), ih]
    congr 1
    funext r
    rw [continuesAny, continuesAny, List.any_cons, ← Bool.or_assoc, Bool.or_comm (indices.any _)]

/-- **Renaming several positions one after the other is one insertion.** -/
theorem renameAll_eq (cs : List Char) (indices : List Nat) :
    renameAll cs indices = insertMark (continuesAny indices) cs := by
  have h := foldl_renamePositional indices (fun _ => false) cs
  rw [insertMark_false] at h
  rw [renameAll, h]
  simp only [Bool.or_false]

/-! ## The text between braces -/

/-- Looking for a text without opening braces goes no further than to the next one. -/
theorem isPrefixOf_append_openBrace (h : ∀ c ∈ body, c ≠ openBrace) (cs rest : List Char) :
    body.isPrefixOf (cs ++ openBrace :: rest) = body.isPrefixOf cs := by
  induction body generalizing cs with
  | nil => rw [List.isPrefixOf_nil_left, List.isPrefixOf_nil_left]
  | cons b body ih =>
    obtain ⟨hb, hbody⟩ := List.forall_mem_cons.1 h
    cases cs with
    | nil =>
      rw [List.nil_append, List.isPrefixOf_cons_cons, beq_eq_false_iff_ne.2 hb, Bool.false_and]
      rfl
    | cons c cs =>
      rw [List.cons_append, List.isPrefixOf_cons_cons, List.isPrefixOf_cons_cons, ih hbody]

theorem continues_append_openBrace (index : Nat) (cs rest : List Char) :
    continues (Text.decimal index) (cs ++ openBrace :: rest) =
      continues (Text.decimal index) cs := by
  obtain ⟨hcolon, -⟩ := isLocal_ended index (show ':' ≠ openBrace by decide)
  obtain ⟨hclose, -⟩ := isLocal_ended index (show closeBrace ≠ openBrace by decide)
  rw [continues, continues, isPrefixOf_append_openBrace hcolon, isPrefixOf_append_openBrace hclose]

/-- **A text that is cut before a brace is renamed part by part.** -/
theorem renamePositional_append_openBrace (cs rest : List Char) (index : Nat) :
    renamePositional (cs ++ openBrace :: rest) index =
      renamePositional cs index ++ renamePositional (openBrace :: rest) index := by
  simp only [renamePositional_eq]
  induction cs with
  | nil => rfl
  | cons c cs ih =>
    rw [List.cons_append, insertMark, insertMark, continues_append_openBrace, ih]
    split <;> rfl

/-! ## One position at a brace -/

/-- A text goes on with a name if it starts with the name and a character that ends it. -/
theorem continues_iff {name rest : List Char} :
    continues name rest = true ↔
      ∃ stop after, endsName stop = true ∧ rest = name ++ stop :: after := by
  rw [continues, Bool.or_eq_true, List.isPrefixOf_iff_prefix, List.isPrefixOf_iff_prefix]
  constructor
  · rintro (⟨after, rfl⟩ | ⟨after, rfl⟩)
    · exact ⟨':', after, by decide, (List.append_cons ..).symm⟩
    · exact ⟨closeBrace, after, by decide, (List.append_cons ..).symm⟩
  · rintro ⟨stop, after, hstop, rfl⟩
    have hprefix : name ++ [stop] <+: name ++ stop :: after := ⟨after, (List.append_cons ..).symm⟩
    rw [endsName, Bool.or_eq_true, beq_iff_eq, beq_iff_eq] at hstop
    rcases hstop with rfl | rfl
    · exact .inr hprefix
    · exact .inl hprefix

/-- A position that a text goes on with is all that stands before the end of the name. -/
theorem takeWhile_of_continues {index : Nat} {rest : List Char}
    (h : continues (Text.decimal index) rest = true) :
    rest.takeWhile (!endsName ·) = Text.decimal index := by
  obtain ⟨stop, after, hstop, rfl⟩ := continues_iff.1 h
  have hdigits : ∀ c ∈ Text.decimal index, (!endsName c) = true := by
    intro c hc
    obtain ⟨⟨hbrace, hcolon, -⟩, -⟩ := digit_of_mem_decimal hc
    simp [endsName, ne_closeBrace hbrace, hcolon]
  exact (takeWhile_stop hdigits (by simp [hstop]) after).1

/-- **A text goes on with one position at most.** -/
theorem eq_of_continues {i j : Nat} {rest : List Char}
    (hi : continues (Text.decimal i) rest = true) (hj : continues (Text.decimal j) rest = true) :
    i = j :=
  Text.decimal_injective ((takeWhile_of_continues hi).symm.trans (takeWhile_of_continues hj))

/-! ## Renaming in any order -/

/-- **It matters which positions are renamed, but not in which order and how often.** -/
theorem renameAll_congr {indices others : List Nat} (h : ∀ i, i ∈ indices ↔ i ∈ others)
    (cs : List Char) : renameAll cs indices = renameAll cs others := by
  have hany : continuesAny indices = continuesAny others := by
    funext rest
    rw [continuesAny, continuesAny, Bool.eq_iff_iff, List.any_eq_true, List.any_eq_true]
    exact exists_congr fun i => and_congr_left fun _ => h i
  rw [renameAll_eq, renameAll_eq, hany]

end Template

open Template

/-- **Renaming inserts single characters, and renamings in any order are one insertion.**  Renaming
a position inserts an `f` behind each opening brace that the position and the end of a name follow,
and changes nothing else.  What it does to a text in front of a brace does not depend on the text
from the brace on.

So renaming a position again changes nothing, and renaming two positions gives the same text in
either order.  Renaming several positions, one on the result of the other, is one insertion into the
given text.  At most one of the positions stands behind a brace, and neither their order nor
repetitions matter.  So the format of an arm with fields by position is one insertion into the
message. -/
theorem renamings_are_one_insertion (cs : List Char) :
    (∀ i, renamePositional cs i = insertMark (continues (Text.decimal i)) cs) ∧
      (∀ (before : List Char) (i : Nat),
        renamePositional (before ++ openBrace :: cs) i =
          renamePositional before i ++ renamePositional (openBrace :: cs) i) ∧
      (∀ i, renamePositional (renamePositional cs i) i = renamePositional cs i) ∧
      (∀ i j, renamePositional (renamePositional cs i) j =
        renamePositional (renamePositional cs j) i) ∧
      (∀ indices, renameAll cs indices = insertMark (continuesAny indices) cs) ∧
      (∀ i j, i ≠ j → continues (Text.decimal i) cs = true →
        continues (Text.decimal j) cs = false) ∧
      (∀ indices others : List Nat, (∀ i, i ∈ indices ↔ i ∈ others) →
        renameAll cs indices = renameAll cs others) ∧
      ∀ (variant : Option String) (count : Nat),
        (Arm.ofMessage variant (.tuple count) (String.ofList cs)).format =
          String.ofList
            (insertMark (continuesAny (Arm.usedPositions (placeholders cs) count)) cs) := by
  have hcut : ∀ (before : List Char) (i : Nat), renamePositional (before ++ openBrace :: cs) i =
      renamePositional before i ++ renamePositional (openBrace :: cs) i :=
    fun before => renamePositional_append_openBrace before cs
  -- Two renamings, one after the other, rename a list of two positions.
  have hagain : ∀ i, renameAll cs [i, i] = renameAll cs [i] :=
    fun i => renameAll_congr (by simp) cs
  have hswap : ∀ i j, renameAll cs [i, j] = renameAll cs [j, i] :=
    fun i j => renameAll_congr (by simp [or_comm]) cs
  have hone : ∀ i j, i ≠ j → continues (Text.decimal i) cs = true →
      continues (Text.decimal j) cs = false :=
    fun i j hne hi => Bool.eq_false_iff.2 fun hj => hne (eq_of_continues hi hj)
  refine ⟨renamePositional_eq cs, hcut, hagain, hswap, renameAll_eq cs, hone,
    fun indices others h => renameAll_congr h cs, ?_⟩
  intro variant count
  rw [← renameAll_eq, Arm.ofMessage, String.toList_ofList]

/-- Positions that are the first digits of others, with a format and in an escape: renamed from the
lowest or from the highest one, one of them twice, the text is the same.  Where ten stands, one
does not. -/
theorem renamings_are_one_insertion_digits :
    let rest := "10:>4\x7d \x7b11\x7d \x7b\x7b1\x7d\x7d \x7b0\x7d".toList
    let cs := "\x7b1\x7d \x7b".toList ++ rest
    let renamed := "\x7bf1\x7d \x7bf10:>4\x7d \x7bf11\x7d \x7b\x7bf1\x7d\x7d \x7b0\x7d".toList
    renameAll cs [1, 10, 11] = renamed ∧ renameAll cs [11, 1, 10, 1] = renamed ∧
      continues (Text.decimal 10) rest = true ∧ continues (Text.decimal 1) rest = false := by
  intro rest cs renamed
  obtain ⟨-, -, -, -, hall, -, horder, -⟩ := renamings_are_one_insertion cs
  obtain ⟨-, -, -, -, -, hone, -⟩ := renamings_are_one_insertion rest
  have hrenamed : renameAll cs [1, 10, 11] = renamed := (hall _).trans (by decide)
  have hten : continues (Text.decimal 10) rest = true := by decide
  have hmem : ∀ i, i ∈ [11, 1, 10, 1] ↔ i ∈ [1, 10, 11] := by
    intro i
    simp only [List.mem_cons, List.not_mem_nil, or_false]
    omega
  exact ⟨hrenamed, (horder _ _ hmem).trans hrenamed, hten, hone 10 1 (by decide) hten⟩

end StackMachine.Derive
