import StackMachine.Proofs.CommandOutcomes
import StackMachine.Proofs.OwnCode

/-!
# What becomes of a source

The assembler that is not told where to write puts the code beside the source, under the source's
stem with the extension `bin`.  For a source that has this extension already, that is the source
itself: the code takes its place, and the command reports success (`source_overwritten`).  Every
other source is kept, and so is every source that does not assemble (`source_kept_iff`).

So whether the source is kept depends on its name alone, but for the empty source: its code is empty
too, and no other source is its own code.

All of this is about a medium that takes everything.
-/

namespace StackMachine.Command

namespace Path

/-- A name has no extension, or it is the stem, a dot and the extension. -/
theorem splitExtension_cases (name : List Char) :
    splitExtension name = (name, none) ∨
      ∃ stem extension, splitExtension name = (stem, some extension) ∧
        name = stem ++ '.' :: extension := by
  have hsplit : name.reverse.takeWhile (· != '.') ++ name.reverse.dropWhile (· != '.') =
      name.reverse := List.takeWhile_append_dropWhile
  unfold splitExtension
  simp only
  split
  · exact .inl rfl
  · rename_i hstem
    refine .inr ⟨_, _, rfl, ?_⟩
    cases hd : name.reverse.dropWhile (· != '.') with
    | nil =>
      rw [hd] at hstem
      exact absurd rfl hstem
    | cons c stem =>
      -- What is left of the reversed name starts with the last dot.
      have hc := List.head_dropWhile_not (· != '.') (l := name.reverse) (by rw [hd]; simp)
      simp only [hd, List.head_cons, bne_eq_false_iff_eq] at hc
      rw [hd, hc] at hsplit
      calc name = (name.reverse.takeWhile (· != '.') ++ '.' :: stem).reverse := by
            rw [hsplit, List.reverse_reverse]
        _ = stem.reverse ++ '.' :: (name.reverse.takeWhile (· != '.')).reverse := by simp

/-- A stem with an extension put behind it is the name itself exactly if that is the name's
extension. -/
theorem stem_append_eq_iff {name extension : List Char} :
    (splitExtension name).1 ++ '.' :: extension = name ↔
      (splitExtension name).2 = some extension := by
  rcases splitExtension_cases name with h | ⟨stem, e, h, hname⟩
  · rw [h]
    simp
  · rw [h, hname]
    simp only [List.append_cancel_left_eq, List.cons.injEq, true_and, Option.some.injEq]
    exact eq_comm

end Path

namespace Assembler

variable {files : FileTree} {path : String} {i : Invocation} {rest : List String}

/-- Arguments without an option for the output name none. -/
theorem lastOutput?_eq_none (hs : "-o" ∉ rest) (hl : "--output" ∉ rest) :
    lastOutput? (groups rest) = none := by
  induction rest with
  | nil => rfl
  | cons argument rest ih =>
    rw [List.mem_cons, not_or] at hs hl
    have ha : ¬(argument = "--output" ∨ argument = "-o") := by
      rintro (h | h)
      · exact hl.1 h.symm
      · exact hs.1 h.symm
    rw [groups.eq_def]
    simp only [if_neg ha]
    rw [lastOutput?, ih hs.2 hl.2]
    split
    · rfl
    · rfl

/-- The default output is the source itself exactly if the source has the extension `bin`. -/
theorem ofPath_defaultOutput_eq_iff {bytes : List UInt8} (h : files.read path = .ok bytes) :
    Place.ofPath path.toList = Place.ofPath (defaultOutput path).toList ↔
      Path.extension? path.toList = some ['b', 'i', 'n'] := by
  obtain ⟨name, outer, hname, hplace, htarget⟩ := ofPath_defaultOutput_of_read h
  rw [hplace, htarget, Path.extension?, hname, Option.bind_some, ← Path.stem_append_eq_iff,
    List.cons.injEq, and_iff_left rfl]
  exact eq_comm

/-- A path that asks for the usage has no extension. -/
theorem extension?_of_isHelp (h : isHelp path = true) : Path.extension? path.toList = none := by
  rcases Bool.or_eq_true_iff.1 h with h | h
  · rw [beq_iff_eq.1 h]
    decide
  · rw [beq_iff_eq.1 h]
    decide

/-- A source is its own code exactly if it is empty. -/
theorem code_eq_iff {bytes code : List UInt8} (hr : files.read path = .ok bytes)
    (hc : SourceOf files path code) : code = bytes ↔ bytes = [] := by
  obtain ⟨_, cs, hr', hd, ha⟩ := hc
  obtain rfl := Except.ok.inj (hr.symm.trans hr')
  constructor
  · rintro rfl
    exact Assembly.eq_nil_of_assemble_self hd ha
  · rintro rfl
    rw [Text.Utf8.decode_nil] at hd
    obtain rfl := Except.ok.inj hd
    exact (Except.ok.inj ha).symm

/-- What is read at the source's path after a run without a named output: what was read there before,
or the code, after a success on a source with the extension `bin`. -/
theorem read_run_cases (h : i.arguments = path :: rest) (hs : "-o" ∉ rest) (hl : "--output" ∉ rest)
    (files : FileTree) :
    let isBinary := Path.extension? path.toList = some ['b', 'i', 'n']
    (¬((run i files).1.code = 0 ∧ isBinary) ∧ (run i files).2.read path = files.read path) ∨
      ((run i files).1.code = 0 ∧ isBinary) ∧
        ∃ code, SourceOf files path code ∧ (run i files).2.read path = .ok code := by
  intro isBinary
  by_cases h0 : (run i files).1.code = 0
  · by_cases hh : isHelp path = true
    · -- The usage is shown, and no file is looked at.
      have hr : (run i files).2 = files := by
        simp only [run, plan, h, if_pos hh]
      have hb : ¬isBinary := by
        simp only [isBinary, extension?_of_isHelp hh, reduceCtorEq, not_false_eq_true]
      exact .inl ⟨fun ho => hb ho.2, by rw [hr]⟩
    · rcases run_of_arguments h (Bool.eq_false_of_not_eq_true hh) files .ample with
        ⟨hf, _⟩ | ⟨code, hcode, hwrite, _⟩
      · exact absurd h0 hf.code_ne_zero
      · rw [lastOutput?_eq_none hs hl, Option.getD_none] at hwrite
        obtain ⟨bytes, _, hread, _⟩ := id hcode
        have hafter := FileTree.read_write hwrite hread
        rw [if_congr (ofPath_defaultOutput_eq_iff hread) rfl rfl] at hafter
        by_cases hb : isBinary
        · rw [if_pos hb] at hafter
          exact .inr ⟨⟨h0, hb⟩, code, hcode, hafter⟩
        · rw [if_neg hb] at hafter
          exact .inl ⟨fun ho => hb ho.2, hafter.trans hread.symm⟩
  · rcases files_of_hasRoom Medium.hasRoom_ample i files with hz | ⟨_, hr⟩
    · exact absurd hz h0
    · exact .inl ⟨fun ho => h0 ho.1, by rw [hr]⟩

/-- **When a source is kept.**  Run the assembler on any files, on a medium that takes everything and
without an option for the output.  What is read at the source's path afterwards is what was read
there before, unless the run succeeds, the source has the extension `bin` and it is not empty.  After
a success on a source with this extension the path reads back the code. -/
theorem source_kept_iff (h : i.arguments = path :: rest) (hs : "-o" ∉ rest) (hl : "--output" ∉ rest)
    (files : FileTree) :
    let r := run i files
    let isBinary := Path.extension? path.toList = some ['b', 'i', 'n']
    (r.2.read path = files.read path ↔
        ¬(r.1.code = 0 ∧ isBinary ∧ files.read path ≠ .ok [])) ∧
      (r.1.code = 0 → isBinary → ∃ code, SourceOf files path code ∧ r.2.read path = .ok code) := by
  intro r isBinary
  rcases read_run_cases h hs hl files with ⟨ho, hkept⟩ | ⟨⟨h0, hb⟩, code, hcode, hafter⟩
  · refine ⟨⟨fun _ hlost => ho ⟨hlost.1, hlost.2.1⟩, fun _ => hkept⟩, ?_⟩
    intro h0 hb
    exact absurd ⟨h0, hb⟩ ho
  · refine ⟨?_, fun _ _ => ⟨code, hcode, hafter⟩⟩
    obtain ⟨bytes, _, hread, _⟩ := id hcode
    have hsame := code_eq_iff hread hcode
    rw [hafter, hread, Except.ok.injEq, hsame]
    constructor
    · rintro rfl ⟨_, _, hne⟩
      exact hne rfl
    · intro hkept
      by_contra hne
      exact hkept ⟨h0, hb, fun he => hne (Except.ok.inj he)⟩

/-- A source with another extension, in a directory that has `bin` in its name too: its code goes into
a file beside it. -/
theorem source_kept_iff_nested :
    let files : FileTree := ⟨[
      (["d.bin".toList], .directory), (["p.bin.asm".toList, "d.bin".toList], .file [65, 68, 68])]⟩
    let r := run ⟨"stackvm-asm", ["d.bin/p.bin.asm", "-l"], []⟩ files
    r.2.read "d.bin/p.bin.asm" = .ok [65, 68, 68] := by
  intro files r
  have hread : files.read "d.bin/p.bin.asm" = .ok [65, 68, 68] := rfl
  have hasm : Path.extension? "d.bin/p.bin.asm".toList = some ['a', 's', 'm'] := by decide
  rw [← hread]
  refine (source_kept_iff rfl (by decide) (by decide) files).1.2 ?_
  rintro ⟨_, hb, _⟩
  rw [hasm] at hb
  exact absurd hb (by decide)

/-- **A source can be overwritten.**  This source has the extension `bin`.  The run succeeds, no output
is named, and the source's path reads back the code instead of the source. -/
theorem source_overwritten :
    let files : FileTree := ⟨[(["p.bin".toList], .file [65, 68, 68])]⟩
    let r := run ⟨"stackvm-asm", ["p.bin"], []⟩ files
    r.1.code = 0 ∧ r.2.read "p.bin" = .ok [0x10] ∧ r.2.read "p.bin" ≠ files.read "p.bin" := by
  intro files r
  have hread : files.read "p.bin" = .ok [65, 68, 68] := rfl
  have hplan : plan ⟨"stackvm-asm", ["p.bin"], []⟩ = .ok { input := "p.bin" } := rfl
  have hcode : SourceOf files "p.bin" [0x10] := by
    refine ⟨[65, 68, 68], ['A', 'D', 'D'], rfl, ?_, ?_⟩
    · with_unfolding_all rfl
    · with_unfolding_all rfl
  have hdirectory : Plan.directory? { input := "p.bin" } = none := rfl
  have hrefusal : Plan.refusal? { input := "p.bin" } files.isPresent = none :=
    refusal?_eq_none rfl (by simp [hdirectory])
  have hwrite : files.write (defaultOutput "p.bin") [0x10] .ample =
      .ok (files.put ["p.bin".toList] (.file [0x10])) := rfl
  have hrun : r = (Plan.finish { input := "p.bin" } [0x10],
      files.put ["p.bin".toList] (.file [0x10])) := run_of_write hplan hrefusal hcode hwrite
  have hafter : r.2.read "p.bin" = .ok [0x10] := by
    rw [hrun]
    rfl
  refine ⟨by rw [hrun]; rfl, hafter, ?_⟩
  rw [hafter, hread]
  decide

end Assembler

end StackMachine.Command
