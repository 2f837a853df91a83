/-!
# Lines

A text is cut into lines at each newline.  A carriage return directly before a newline belongs to
the line's end, a carriage return elsewhere is an ordinary character, and a newline that ends the
text opens no further line.

`lines_flatMap_newline` says that a list of lines written one after the other, each ended by a
newline, is read back as that list, and `lines_append_newline_append` that the lines up to a newline
do not depend on what follows it.
-/

namespace StackMachine.Text

/-- The lines of a text, without their ends. -/
def lines : List Char → List (List Char)
  | [] => []
  | '\n' :: cs => [] :: lines cs
  | '\r' :: '\n' :: cs => [] :: lines cs
  | c :: cs =>
    match lines cs with
    | [] => [[c]]
    | l :: ls => (c :: l) :: ls

@[simp] theorem lines_nil : lines [] = [] := rfl

@[simp] theorem lines_newline (cs : List Char) : lines ('\n' :: cs) = [] :: lines cs := rfl

/-- A line without newlines and carriage returns, ended by a newline, is the first line. -/
theorem lines_append_newline (l cs : List Char) (hn : '\n' ∉ l) (hr : '\r' ∉ l) :
    lines (l ++ '\n' :: cs) = l :: lines cs := by
  induction l with
  | nil => rfl
  | cons c l ih =>
    simp only [List.mem_cons, not_or] at hn hr
    rw [List.cons_append, lines, ih hn.2 hr.2]
    · exact fun h => hn.1 h.symm
    · exact fun _ h _ => hr.1 h.symm

/-- Lines written with an end each are read back. -/
theorem lines_flatMap_newline (ls : List (List Char)) (hn : ∀ l ∈ ls, '\n' ∉ l)
    (hr : ∀ l ∈ ls, '\r' ∉ l) : lines (ls.flatMap (· ++ ['\n'])) = ls := by
  induction ls with
  | nil => rfl
  | cons l ls ih =>
    rw [List.flatMap_cons, List.append_assoc, List.singleton_append,
      lines_append_newline l _ (hn l List.mem_cons_self) (hr l List.mem_cons_self),
      ih (fun k hk => hn k (List.mem_cons_of_mem _ hk))
        (fun k hk => hr k (List.mem_cons_of_mem _ hk))]

/-! ## Lines in a text -/

/-- A character that ends no line belongs to the first line of what follows it. -/
theorem lines_cons_cons {c d : Char} (hn : c ≠ '\n') (hr : ¬ (c = '\r' ∧ d = '\n'))
    (cs : List Char) :
    lines (c :: d :: cs) = (c :: (lines (d :: cs)).headD []) :: (lines (d :: cs)).tail := by
  rw [lines]
  · split
    · rename_i h
      rw [h]
      rfl
    · rename_i l ls h
      rw [h]
      rfl
  · exact hn
  · rintro cs rfl h
    exact hr ⟨rfl, (List.cons.inj h).1⟩

/-- A text that is not empty has a line. -/
theorem lines_ne_nil (c : Char) (cs : List Char) : lines (c :: cs) ≠ [] := by
  rw [lines.eq_def]
  split
  · rename_i h
    exact absurd h (by simp)
  · exact List.cons_ne_nil _ _
  · exact List.cons_ne_nil _ _
  · split
    · exact List.cons_ne_nil _ _
    · exact List.cons_ne_nil _ _

/-- No line holds a newline. -/
theorem newline_not_mem_of_mem_lines {cs l : List Char} (h : l ∈ lines cs) : '\n' ∉ l := by
  fun_induction lines cs generalizing l with
  | case1 => exact absurd h (by simp)
  | case2 cs ih =>
    rcases List.mem_cons.1 h with rfl | h
    · simp
    · exact ih h
  | case3 cs ih =>
    rcases List.mem_cons.1 h with rfl | h
    · simp
    · exact ih h
  | case4 c cs hn hr hl ih =>
    obtain rfl := List.mem_singleton.1 h
    intro hc
    exact hn (List.mem_singleton.1 hc).symm
  | case5 c cs hn hr first rest hl ih =>
    rw [hl] at ih
    rcases List.mem_cons.1 h with rfl | h
    · intro hc
      rcases List.mem_cons.1 hc with hc | hc
      · exact hn hc.symm
      · exact ih List.mem_cons_self hc
    · exact ih (List.mem_cons_of_mem _ h)

/-- A text without newlines is its own only line. -/
theorem lines_of_newline_not_mem {cs : List Char} (hne : cs ≠ []) (hn : '\n' ∉ cs) :
    lines cs = [cs] := by
  fun_induction lines cs with
  | case1 => exact absurd rfl hne
  | case2 cs ih => exact absurd List.mem_cons_self hn
  | case3 cs ih => exact absurd (List.mem_cons_of_mem _ List.mem_cons_self) hn
  | case4 c cs _ hr hl ih =>
    cases cs with
    | nil => rfl
    | cons d cs => exact absurd hl (lines_ne_nil d cs)
  | case5 c cs _ hr first rest hl ih =>
    have hcs : cs ≠ [] := by
      rintro rfl
      exact absurd hl (by simp)
    rw [ih hcs fun h => hn (List.mem_cons_of_mem _ h)] at hl
    obtain ⟨rfl, rfl⟩ := List.cons.inj hl
    rfl

/-- The characters of a line are characters of the text. -/
theorem mem_of_mem_lines {cs l : List Char} {c : Char} (hl : l ∈ lines cs) (hc : c ∈ l) :
    c ∈ cs := by
  fun_induction lines cs generalizing l with
  | case1 => exact absurd hl (by simp)
  | case2 cs ih =>
    rcases List.mem_cons.1 hl with rfl | hl
    · exact absurd hc (by simp)
    · exact List.mem_cons_of_mem _ (ih hl hc)
  | case3 cs ih =>
    rcases List.mem_cons.1 hl with rfl | hl
    · exact absurd hc (by simp)
    · exact List.mem_cons_of_mem _ (List.mem_cons_of_mem _ (ih hl hc))
  | case4 c cs _ _ _ _ =>
    obtain rfl := List.mem_singleton.1 hl
    obtain rfl := List.mem_singleton.1 hc
    exact List.mem_cons_self
  | case5 c cs _ _ first rest hcs ih =>
    rw [hcs] at ih
    rcases List.mem_cons.1 hl with rfl | hl
    · rcases List.mem_cons.1 hc with rfl | hc
      · exact List.mem_cons_self
      · exact List.mem_cons_of_mem _ (ih List.mem_cons_self hc)
    · exact List.mem_cons_of_mem _ (ih (List.mem_cons_of_mem _ hl) hc)

/-- A character that ends no line and takes part in no line's end is the first of its line. -/
theorem lines_cons {c : Char} (hn : c ≠ '\n') (hr : c ≠ '\r') (cs : List Char) :
    lines (c :: cs) = (c :: (lines cs).headD []) :: (lines cs).tail := by
  cases cs with
  | nil => exact lines_of_newline_not_mem (List.cons_ne_nil c []) (by simpa using hn.symm)
  | cons d cs => exact lines_cons_cons hn (fun h => hr h.1) cs

/-- The lines of a text up to a newline do not depend on what follows it. -/
theorem lines_append_newline_append (cs rest : List Char) :
    lines (cs ++ '\n' :: rest) = lines (cs ++ ['\n']) ++ lines rest := by
  induction cs with
  | nil => rfl
  | cons c cs ih =>
    -- Behind `c` both texts go on with the same character.
    obtain ⟨d, xs, ys, hx, hy⟩ :
        ∃ d xs ys, cs ++ '\n' :: rest = d :: xs ∧ cs ++ ['\n'] = d :: ys := by
      cases cs with
      | nil => exact ⟨'\n', rest, [], rfl, rfl⟩
      | cons d cs => exact ⟨d, _, _, rfl, rfl⟩
    rw [hx, hy] at ih
    rw [List.cons_append, List.cons_append, hx, hy]
    by_cases hn : c = '\n'
    · subst hn
      rw [lines_newline, lines_newline, ih, List.cons_append]
    · by_cases hr : c = '\r' ∧ d = '\n'
      · obtain ⟨rfl, rfl⟩ := hr
        exact ih
      · rw [lines_cons_cons hn hr, lines_cons_cons hn hr, ih]
        cases hl : lines (d :: ys) with
        | nil => exact absurd hl (lines_ne_nil d ys)
        | cons l ls => rfl

end StackMachine.Text
