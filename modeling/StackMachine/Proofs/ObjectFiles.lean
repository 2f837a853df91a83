import StackMachine.Proofs.CommandOutcomes

/-!
# Object files

Assemble a source into a file and run that file: this leads to what running the source leads to, for
the same options and environment.  The runner finds the code in two ways, by assembling a source and
by reading a file as it is, and from the code on it does not look at the path any more, except to
name it on standard error.

The assembler writes over no source here: an output that is not named like a source has another
last name than the source, so it is another file (`isSource_eq_of_name?`).
-/

namespace StackMachine.Command

/-- Whether a path names a source can be seen from its last name. -/
theorem isSource_eq_of_name? {a b : String} (h : Path.name? a.toList = Path.name? b.toList) :
    isSource a = isSource b := by
  rw [isSource, isSource, Path.extension?, Path.extension?, h]

/-- No source is named like an option that asks for the usage. -/
theorem isHelp_of_isSource {path : String} (h : isSource path = true) : isHelp path = false := by
  rw [← Bool.not_eq_true]
  intro hh
  rcases Bool.or_eq_true_iff.1 hh with hh | hh
  · rw [beq_iff_eq.1 hh] at h
    exact absurd h (by decide)
  · rw [beq_iff_eq.1 hh] at h
    exact absurd h (by decide)

namespace Runner

/-! ## What a path matters for -/

theorem Group.update_withPath (p : Plan) (path : String) (g : Group) :
    update { p with path } g = { update p g with path } := by
  cases g with
  | unfinished flag => rfl
  | disassemble => rfl
  | stray argument => rfl
  | valued flag value =>
    cases flag with
    | stack =>
      simp only [update, Plan.apply]
      cases Capacities.parseSize value with
      | ok n => rfl
      | error e => rfl
    | memory =>
      simp only [update, Plan.apply]
      cases Capacities.parseSize value with
      | ok n => rfl
      | error e => rfl
    | decode =>
      simp only [update, Plan.apply]
      cases Decoding.parse value with
      | ok d => rfl
      | error e => rfl

theorem foldl_update_withPath (gs : List Group) (p : Plan) (path : String) :
    gs.foldl Group.update { p with path } = { gs.foldl Group.update p with path } := by
  induction gs generalizing p with
  | nil => rfl
  | cons g gs ih =>
    rw [List.foldl_cons, List.foldl_cons, Group.update_withPath]
    exact ih (Group.update p g)

/-- The options are read the same way for every path. -/
theorem options_withPath (program : String) (p : Plan) (path : String)
    (arguments : List String) :
    options program { p with path } arguments =
      (options program p arguments).map fun q => { q with path } := by
  rw [options_eq, options_eq, readGroups, readGroups, foldl_update_withPath]
  cases (groups arguments).findSome? (Group.fault? program) with
  | some report => rfl
  | none => rfl

/-- The execution of code has the same end under every path. -/
theorem Plan.execute_withPath (p : Plan) (path : String) (code : List UInt8) :
    (execute { p with path } code).code = (p.execute code).code ∧
      (execute { p with path } code).stdout = (p.execute code).stdout := by
  simp only [execute]
  cases Machine.create p.capacities with
  | error e => exact ⟨rfl, rfl⟩
  | ok machine => exact ⟨rfl, rfl⟩

/-- **The runner's end depends on the code alone.**  Two paths to the same code lead to the same
exit code and output, for the same options and environment. -/
theorem run_eq_of_program {files : FileTree} {a b : String} {code : List UInt8}
    (ha : ProgramOf files a code) (hb : ProgramOf files b code) (hah : isHelp a = false)
    (hbh : isHelp b = false) (program : String) (environment : Environment)
    (rest : List String) :
    (run ⟨program, b :: rest, environment⟩ files).code =
        (run ⟨program, a :: rest, environment⟩ files).code ∧
      (run ⟨program, b :: rest, environment⟩ files).stdout =
        (run ⟨program, a :: rest, environment⟩ files).stdout := by
  unfold run
  rw [plan_of_arguments rfl hbh, plan_of_arguments rfl hah]
  cases Capacities.ofEnvironment environment with
  | error e => exact ⟨rfl, rfl⟩
  | ok capacities =>
    have ho := options_withPath program { path := a, capacities } b rest
    simp only [ho]
    cases hp : options program { path := a, capacities } rest with
    | error r => exact ⟨rfl, rfl⟩
    | ok p =>
      have hpath : p.path = a := (reads_of_options hp).path
      have hca := p.complete_of_program (hpath ▸ ha)
      have hcb := Plan.complete_of_program { p with path := b } hb
      show (Plan.complete { p with path := b } (contentsAt files b)).code =
          (p.complete (contentsAt files p.path)).code ∧
        (Plan.complete { p with path := b } (contentsAt files b)).stdout =
          (p.complete (contentsAt files p.path)).stdout
      rw [hca, hcb]
      by_cases hd : p.disassemble = true
      · rw [if_pos hd, if_pos hd]
        exact ⟨rfl, rfl⟩
      · rw [if_neg hd, if_neg hd]
        exact p.execute_withPath b code

end Runner

/-! ## Assembling into a file -/

variable {files : FileTree} {a b : String} {code : List UInt8} {medium : Medium}

/-- A source is still one after something is written under a name that no source has. -/
theorem SourceOf.of_write {after : FileTree} {bytes : List UInt8} (h : SourceOf files a code)
    (ha : isSource a = true) (hb : isSource b = false) (hw : files.write b bytes medium = .ok after) :
    SourceOf after a code := by
  obtain ⟨contents, cs, hread, hrest⟩ := h
  have hn : Path.name? a.toList ≠ Path.name? b.toList := by
    intro he
    rw [isSource_eq_of_name? he, hb] at ha
    exact absurd ha (by simp)
  exact ⟨contents, cs, FileTree.read_write_of_name_ne hw hn hread, hrest⟩

/-- **Running the object file is running the source.**  Let `a` be the path of a source, and `b` a
path that is not that of a source and does not ask for the usage.  If the assembler ends with exit
code 0 on `a` with the output `b`, then afterwards the runner has the same exit code and the same
output on `b` as on `a`, whatever the environment and the further arguments.  If `a` is missing,
cannot be read or does not assemble, the assembler fails and changes no file, and the runner fails
on `a` as well.  This holds on every medium. -/
theorem run_object_eq_run_source (ha : isSource a = true) (hb : isSource b = false)
    (hbh : isHelp b = false) (program : String) (environment : Environment) (files : FileTree)
    (medium : Medium) :
    let r := (Call.assembler ⟨program, [a, "-o", b], environment⟩).perform files medium
    (r.1.code = 0 → ∀ program environment rest,
      let object := (Call.runner ⟨program, b :: rest, environment⟩).perform r.2 medium
      let source := (Call.runner ⟨program, a :: rest, environment⟩).perform r.2 medium
      object.1.code = source.1.code ∧ object.1.stdout = source.1.stdout) ∧
    ((∀ code, ¬ SourceOf files a code) → r.1.code = 1 ∧ r.2 = files ∧
      ∀ program environment rest,
        let source := (Call.runner ⟨program, a :: rest, environment⟩).perform r.2 medium
        source.1.code = 1 ∧ source.1.stdout = "") := by
  intro r
  have hah := isHelp_of_isSource ha
  have hplan : Assembler.plan ⟨program, [a, "-o", b], environment⟩ =
      .ok { input := a, output := some b } := by
    rw [Assembler.plan_of_arguments rfl hah]
    rfl
  have hcases := Assembler.run_of_plan hplan files medium
  constructor
  · intro h0 program environment rest
    rcases hcases with ⟨hf, _⟩ | ⟨code, hsource, ⟨hf, _⟩ | ⟨hwrite, _⟩⟩
    · exact absurd h0 hf.code_ne_zero
    · exact absurd h0 hf.code_ne_zero
    · have hobject : ProgramOf r.2 b code := by
        rw [ProgramOf, hb]
        exact FileTree.read_write_self hwrite
      have hsource' : ProgramOf r.2 a code := by
        rw [ProgramOf, ha]
        exact hsource.of_write ha hb hwrite
      exact Runner.run_eq_of_program hsource' hobject hah hbh program environment rest
  · intro hnone
    rcases hcases with ⟨hf, hfiles⟩ | ⟨code, hsource, _⟩
    · refine ⟨hf.code, hfiles, ?_⟩
      intro program environment rest
      have hr : r.2 = files := hfiles
      rw [hr]
      have harguments : (Invocation.mk program (a :: rest) environment).arguments = a :: rest := rfl
      rcases Runner.run_cases harguments hah files with hfail | ⟨_, code, hcode, _⟩
      · exact ⟨hfail.code, hfail.stdout⟩
      · rw [ProgramOf, ha] at hcode
        exact absurd hcode (hnone code)
    · exact absurd hsource (hnone code)

/-- A source that is assembled into a file without an extension, where both then run and print the
byte that they return, and a source that is not there. -/
theorem run_object_eq_run_source_plain :
    let files : FileTree := ⟨[(["p.asm".toList], .file
      [80, 85, 83, 72, 49, 32, 49, 10, 80, 85, 83, 72, 49, 32, 48, 10, 82, 69, 84, 85, 82, 78])]⟩
    let options := ["--stack", "4", "--memory", "16"]
    let r := (Call.assembler ⟨"stackvm-asm", ["p.asm", "-o", "q"], []⟩).perform files .ample
    let object := (Call.runner ⟨"stackvm", "q" :: options, []⟩).perform r.2 .ample
    let source := (Call.runner ⟨"stackvm", "p.asm" :: options, []⟩).perform r.2 .ample
    (r.1.code = 0 ∧ object.1.code = 0 ∧ object.1.stdout = "0\n" ∧ source.1.code = 0 ∧
      source.1.stdout = "0\n") ∧
    ((Call.runner ⟨"stackvm", ["r.s", "--stack", "4"], []⟩).perform files .ample).1.code = 1 := by
  intro files options r object source
  have hsource : isSource "p.asm" = true := rfl
  have hmissing : isSource "r.s" = true := rfl
  have hplain : isSource "q" = false := rfl
  have hcode : SourceOf files "p.asm" [0x01, 1, 0x01, 0, 0x30] := by
    refine ⟨_, "PUSH1 1\nPUSH1 0\nRETURN".toList, rfl, ?_, ?_⟩
    · with_unfolding_all rfl
    · with_unfolding_all rfl
  have hwrite : files.write "q" [0x01, 1, 0x01, 0, 0x30] .ample =
      .ok (files.put ["q".toList] (.file [0x01, 1, 0x01, 0, 0x30])) := rfl
  have hr : r = (Assembler.Plan.finish { input := "p.asm", output := some "q" }
        [0x01, 1, 0x01, 0, 0x30],
      files.put ["q".toList] (.file [0x01, 1, 0x01, 0, 0x30])) := by
    have hplan : Assembler.plan ⟨"stackvm-asm", ["p.asm", "-o", "q"], []⟩ =
        .ok { input := "p.asm", output := some "q" } := rfl
    have hdirectory : Assembler.Plan.directory? { input := "p.asm", output := some "q" } =
        none := rfl
    have hrefusal : Assembler.Plan.refusal? { input := "p.asm", output := some "q" }
        files.isPresent = none :=
      Assembler.refusal?_eq_none rfl (by simp [hdirectory])
    exact Assembler.run_of_write hplan hrefusal hcode hwrite
  have h0 : r.1.code = 0 := by
    rw [hr]
    exact (Assembler.finish_of_source hcode).1
  obtain ⟨hzero, hout⟩ : source.1.code = 0 ∧ source.1.stdout = "0" ++ "\n" := by
    have hplan : Runner.plan ⟨"stackvm", "p.asm" :: options, []⟩ =
        .ok { path := "p.asm", capacities := ⟨4, 16⟩ } := rfl
    have hprogram : ProgramOf r.2 "p.asm" [0x01, 1, 0x01, 0, 0x30] := by
      rw [hr]
      exact hcode.of_write hsource hplain hwrite
    exact Runner.run_of_output hplan rfl hprogram rfl run_push_push_ret rfl
  have hnone : ∀ code, ¬ SourceOf files "r.s" code := by
    rintro code ⟨bytes, _, hread, _⟩
    have hfault : files.read "r.s" = .error .missing := rfl
    rw [hfault] at hread
    exact absurd hread (by simp)
  obtain ⟨hcodes, houts⟩ := (run_object_eq_run_source hsource hplain rfl "stackvm-asm" [] files
    .ample).1 h0 "stackvm" [] options
  obtain ⟨_, hfiles, hfail⟩ := (run_object_eq_run_source hmissing hplain rfl "stackvm-asm" []
    files .ample).2 hnone
  have hlast := hfail "stackvm" [] ["--stack", "4"]
  rw [hfiles] at hlast
  exact ⟨⟨h0, hcodes.trans hzero, houts.trans hout, hzero, hout⟩, hlast.1⟩

end StackMachine.Command
