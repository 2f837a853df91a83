import StackMachine.Command.Assembler
import StackMachine.Proofs.FileAccess

/-!
# The output beside a source

Where the assembler is not told where to write, it writes beside the source.  `defaultOutput` makes
a path from the text of the source's path: it cuts off the last name and puts the stem with the
extension `bin` behind what is left.  This module says what that comes to on a file tree: the new
path leads to the directory that the source's path leads to (`ofPath_defaultOutput`).

Cutting drops segments that name nothing, and putting a name behind a directory may add a slash;
neither changes where the segments lead.
-/

namespace StackMachine.Command

namespace Path

/-! ## Texts and segments -/

theorem slash_not_mem_of_mem_segments {cs s : List Char} (h : s ∈ segments cs) : '/' ∉ s := by
  induction cs generalizing s with
  | nil =>
    rw [List.mem_singleton.1 h]
    exact List.not_mem_nil
  | cons c cs ih =>
    rw [segments] at h
    split at h
    · rcases List.mem_cons.1 h with rfl | h
      · exact List.not_mem_nil
      · exact ih h
    · rename_i hc
      split at h
      · rw [List.mem_singleton.1 h, List.mem_singleton]
        exact fun he => hc he.symm
      · rename_i t ts ht
        rw [ht] at ih
        rcases List.mem_cons.1 h with rfl | h
        · rw [List.mem_cons, not_or]
          exact ⟨fun he => hc he.symm, ih List.mem_cons_self⟩
        · exact ih (List.mem_cons_of_mem t h)

/-- A slash divides segments. -/
theorem segments_append_slash (d cs : List Char) :
    segments (d ++ '/' :: cs) = segments d ++ segments cs := by
  induction d with
  | nil => exact segments_slash cs
  | cons c d ih =>
    rw [List.cons_append, segments, segments, ih]
    split
    · rfl
    · -- The character joins the first segment, which is one of `d`.
      obtain ⟨s, ss, hs⟩ := List.exists_cons_of_ne_nil (segments_ne_nil d)
      rw [hs]
      rfl

theorem segments_of_slash_not_mem {cs : List Char} (h : '/' ∉ cs) : segments cs = [cs] := by
  induction cs with
  | nil => rfl
  | cons c cs ih =>
    rw [List.mem_cons, not_or] at h
    rw [segments, if_neg (fun hc => h.1 hc.symm), ih h.2]

/-- Segments without slashes are the segments of their text. -/
theorem segments_join {ss : List (List Char)} (hne : ss ≠ []) (h : ∀ s ∈ ss, '/' ∉ s) :
    segments (join ss) = ss := by
  induction ss with
  | nil => exact absurd rfl hne
  | cons s ss ih =>
    have hs := h s List.mem_cons_self
    cases ss with
    | nil => exact segments_of_slash_not_mem hs
    | cons t ss =>
      rw [join, segments_append_slash, segments_of_slash_not_mem hs,
        ih (by simp) fun u hu => h u (List.mem_cons_of_mem s hu)]
      rfl

/-- The text of the first segments starts the text of all. -/
theorem join_prefix_join_append (ss ts : List (List Char)) : join ss <+: join (ss ++ ts) := by
  induction ss with
  | nil => exact List.nil_prefix
  | cons s ss ih =>
    cases ss with
    | nil =>
      cases ts with
      | nil => exact List.prefix_rfl
      | cons t ts => exact List.prefix_append s _
    | cons u us =>
      show s ++ '/' :: join (u :: us) <+: s ++ '/' :: join (u :: us ++ ts)
      rw [List.prefix_append_right_inj, List.cons_prefix_cons]
      exact ⟨rfl, ih⟩

theorem exists_append_trimIdle (ss : List (List Char)) :
    ∃ idle, ss = trimIdle ss ++ idle ∧ ∀ s ∈ idle, isIdle s = true := by
  refine ⟨(ss.reverse.takeWhile isIdle).reverse, ?_, ?_⟩
  · rw [trimIdle, ← List.reverse_append, List.takeWhile_append_dropWhile, List.reverse_reverse]
  · intro s hs
    rw [List.mem_reverse] at hs
    exact List.all_eq_true.1 List.all_takeWhile s hs

end Path

namespace Place

variable {p : Place} {ss : List (List Char)}

/-! ## Texts and places -/

theorem foldl_descend_of_idle (h : ∀ s ∈ ss, Path.isIdle s = true) : ss.foldl descend p = p := by
  induction ss with
  | nil => rfl
  | cons s ss ih =>
    rw [List.foldl_cons, descend, if_pos (h s List.mem_cons_self)]
    exact ih fun t ht => h t (List.mem_cons_of_mem s ht)

/-- Segments at the end that name nothing lead nowhere else. -/
theorem foldl_descend_trimIdle (ss : List (List Char)) (p : Place) :
    (Path.trimIdle ss).foldl descend p = ss.foldl descend p := by
  obtain ⟨idle, hs, hidle⟩ := Path.exists_append_trimIdle ss
  calc (Path.trimIdle ss).foldl descend p
      = idle.foldl descend ((Path.trimIdle ss).foldl descend p) :=
        (foldl_descend_of_idle hidle).symm
    _ = (Path.trimIdle ss ++ idle).foldl descend p := by rw [List.foldl_append]
    _ = ss.foldl descend p := by rw [← hs]

/-- The text of segments leads where the segments do. -/
theorem foldl_descend_segments_join (h : ∀ s ∈ ss, '/' ∉ s) :
    (Path.segments (Path.join ss)).foldl descend p = ss.foldl descend p := by
  cases ss with
  | nil => rfl
  | cons s ss => rw [Path.segments_join (by simp) h]

variable {name : List Char}

/-- A name in a directory is a place in the place of the directory. -/
theorem ofPath_within (hs : '/' ∉ name) (hi : Path.isIdle name = false) (hu : name ≠ Path.up)
    (directory : List Char) : ofPath (Path.within directory name) = name :: ofPath directory := by
  have hd : ∀ p, descend p name = name :: p := by
    intro p
    rw [descend, if_neg (by simp [hi]), if_neg hu]
  have hstep : ∀ (d : List Char) (p : Place),
      (Path.segments (d ++ '/' :: name)).foldl descend p =
        name :: (Path.segments d).foldl descend p := by
    intro d p
    rw [Path.segments_append_slash, Path.segments_of_slash_not_mem hs, List.foldl_append]
    exact hd _
  unfold Path.within
  split
  · -- No directory is the one at hand.
    rename_i he
    rw [List.isEmpty_iff.1 he, ofPath, Path.segments_of_slash_not_mem hs, ofLead, if_neg]
    · exact hd start
    · intro hh
      exact hs (List.mem_of_mem_head? hh)
  · rename_i he
    have hne : directory ≠ [] := fun hn => he (by rw [hn]; rfl)
    have hlead : ∀ rest, ofLead (directory ++ rest) = ofLead directory := by
      intro rest
      obtain ⟨c, cs, rfl⟩ := List.exists_cons_of_ne_nil hne
      rfl
    split
    · rename_i hl
      -- The last slash of the directory is the one before the name.
      obtain ⟨d, rfl⟩ := List.getLast?_eq_some_iff.1 hl
      rw [ofPath, hlead, List.append_assoc, List.singleton_append, hstep]
      rw [ofPath, Path.segments_append_slash, List.foldl_append]
      rfl
    · rw [ofPath, hlead, hstep]
      rfl

/-- What is left of a path without its last name leads where the segments before the name do. -/
theorem exists_parent {path : List Char} {init : List (List Char)}
    (h : Path.segments path = init ++ [name]) (hi : Path.isIdle name = false) :
    ∃ directory, Path.parent? path = some directory ∧
      ofPath directory = init.foldl descend (ofLead path) := by
  have hslash : ∀ s ∈ init, '/' ∉ s := by
    intro s hs
    have hm : s ∈ Path.segments path := by
      rw [h]
      exact List.mem_append_left [name] hs
    exact Path.slash_not_mem_of_mem_segments hm
  have hparent : ∀ lead before, Path.split path = (lead, before ++ [name]) →
      Path.parent? path = some (lead ++ Path.join (Path.trimIdle before)) := by
    intro lead before hs
    simp [Path.parent?, hs, Path.trimIdle_append_name hi]
  have htrim : ∀ before : List (List Char), (∀ s ∈ before, '/' ∉ s) →
      ∀ s ∈ Path.trimIdle before, '/' ∉ s := by
    intro before hb s hs
    obtain ⟨idle, he, _⟩ := Path.exists_append_trimIdle before
    apply hb
    rw [he]
    exact List.mem_append_left idle hs
  rcases Path.split_of_segments h hi with ⟨before, rfl, hs, hh⟩ | ⟨before, rfl, hs, hh⟩ | ⟨hs, hh⟩
  · refine ⟨_, hparent _ _ hs, ?_⟩
    have hb : ∀ s ∈ before, '/' ∉ s := fun s hs => hslash s (List.mem_cons_of_mem _ hs)
    rw [ofPath, List.singleton_append, Path.segments_slash, ofLead, ofLead, if_pos hh]
    show (Path.segments _).foldl descend root = before.foldl descend root
    rw [foldl_descend_segments_join (htrim before hb), foldl_descend_trimIdle]
  · refine ⟨_, hparent _ ([] :: before) hs, ?_⟩
    have hb : ∀ s ∈ [] :: before, '/' ∉ s := by
      intro s hs
      rcases List.mem_cons.1 hs with rfl | hs
      · exact List.not_mem_nil
      · exact hslash s (List.mem_cons_of_mem _ hs)
    have hstart : ofLead path = start := by
      rw [ofLead, hh]
      rfl
    rw [hstart]
    show _ = ([] :: before).foldl descend start
    rw [← foldl_descend_trimIdle ([] :: before)]
    obtain ⟨idle, he, _⟩ := Path.exists_append_trimIdle ([] :: before)
    have ht := htrim _ hb
    cases hc : Path.trimIdle ([] :: before) with
    | nil => rfl
    | cons a rest =>
      -- The dot takes the place of the empty segment, which names nothing either.
      rw [hc] at he ht
      obtain ⟨rfl, _⟩ := List.cons.inj he
      have hj : ['.'] ++ Path.join ([] :: rest) = Path.join (['.'] :: rest) := by
        cases rest with
        | nil => rfl
        | cons r rs => rfl
      have hdot : ∀ s ∈ ['.'] :: rest, '/' ∉ s := by
        intro s hs
        rcases List.mem_cons.1 hs with rfl | hs
        · decide
        · exact ht s (List.mem_cons_of_mem _ hs)
      have hlead : ofLead (['.'] ++ Path.join ([] :: rest)) = start := rfl
      rw [ofPath, hlead, hj, foldl_descend_segments_join hdot]
      rfl
  · refine ⟨_, hparent _ _ hs, ?_⟩
    -- A path that is not absolute has no parent that is.
    have hd : (Path.join (Path.trimIdle init)).head? ≠ some '/' := by
      intro hslash'
      obtain ⟨idle, he, _⟩ := Path.exists_append_trimIdle init
      have hp := Path.join_prefix_join_append (Path.trimIdle init) (idle ++ [name])
      rw [← List.append_assoc, ← he, ← h, Path.join_segments] at hp
      obtain ⟨cs, hcs⟩ := List.head?_eq_some_iff.1 hslash'
      obtain ⟨rest, rfl⟩ := hcs ▸ hp
      exact hh rfl
    rw [List.nil_append, ofPath, ofLead, if_neg hd, ofLead, if_neg hh,
      foldl_descend_segments_join (htrim init hslash), foldl_descend_trimIdle]

end Place

namespace Assembler

/-- The characters of a stem are characters of the name. -/
theorem mem_of_mem_stem {name : List Char} {c : Char} (h : c ∈ (Path.splitExtension name).1) :
    c ∈ name := by
  unfold Path.splitExtension at h
  simp only at h
  split at h
  · exact h
  · rw [List.mem_reverse] at h
    exact List.mem_reverse.1 ((List.dropWhile_suffix _).subset (List.mem_of_mem_drop h))

/-- **The output beside a source.**  Where a path ends with a name, the default output is the name's
stem with the extension `bin`, in the place around the path's place. -/
theorem ofPath_defaultOutput {input : String} {name : List Char} {init : List (List Char)}
    (h : Path.segments input.toList = init ++ [name]) (hi : Path.isIdle name = false)
    (hu : name ≠ Path.up) :
    ∃ outer, Place.ofPath input.toList = name :: outer ∧
      Place.ofPath (defaultOutput input).toList =
        ((Path.splitExtension name).1 ++ ".bin".toList) :: outer := by
  obtain ⟨directory, hp, hd⟩ := Place.exists_parent h hi
  have hm : name ∈ Path.segments input.toList := by
    rw [h]
    exact List.mem_append_right init List.mem_cons_self
  -- The new name has no slash, and it has more characters than a dot or a step up.
  have hslash : '/' ∉ (Path.splitExtension name).1 ++ ".bin".toList := by
    rw [List.mem_append, not_or]
    refine ⟨?_, by decide⟩
    intro hs
    exact Path.slash_not_mem_of_mem_segments hm (mem_of_mem_stem hs)
  have hlen : 4 ≤ ((Path.splitExtension name).1 ++ ".bin".toList).length := by
    rw [List.length_append]
    exact Nat.le_add_left 4 _
  have hidle : Path.isIdle ((Path.splitExtension name).1 ++ ".bin".toList) = false := by
    rw [Path.isIdle, Bool.or_eq_false_iff, beq_eq_false_iff_ne, beq_eq_false_iff_ne]
    constructor
    · intro he
      rw [he] at hlen
      exact absurd hlen (by decide)
    · intro he
      rw [he] at hlen
      exact absurd hlen (by decide)
  have hup : (Path.splitExtension name).1 ++ ".bin".toList ≠ Path.up := by
    intro he
    rw [he] at hlen
    exact absurd hlen (by decide)
  refine ⟨init.foldl Place.descend (Place.ofLead input.toList), ?_, ?_⟩
  · rw [Place.ofPath, h, List.foldl_append]
    show Place.descend _ name = _
    rw [Place.descend, if_neg (by simp [hi]), if_neg hu]
  · have hstem : Path.stem? input.toList = some (Path.splitExtension name).1 := by
      rw [Path.stem?, Path.name?_of_segments h hi hu]
      rfl
    rw [defaultOutput, String.toList_ofList, hp, hstem, ← hd]
    exact Place.ofPath_within hslash hidle hup directory

end Assembler

end StackMachine.Command
