import StackMachine.Proofs.DefaultOutput
import StackMachine.Proofs.NormalForm
import StackMachine.Proofs.OptionGroups

/-!
# How the commands end

A command ends in one of two ways.  It fails with exit code 1, prints nothing and leaves all files
alone; or it ends with exit code 0, and then, unless it was asked for its usage, it has done all
that its arguments ask for.

There is one exception.  A write that the medium breaks off is reported as a failure, but the output
file is made or emptied before, and it keeps the bytes that were taken (`Assembler.BreaksOff`).  So
that a failure leaves all files alone rests on an assumption about the medium, `Medium.HasRoom`,
which the theorem names where it uses it; all else holds on every medium.

What "all" means is said without the commands: by `Runner.Prints` for the runner, which prints a
listing or the output of a run, and by `Assembler.Writes` for the assembler, which writes the code
of its source to one place.  Both refer to the options through their groups.  `Runner.run_cases`
and `Assembler.run_cases` follow the steps of the two commands, of which each can end with a
failure.

The assembler writes its file before it makes a listing, so that it fails cleanly rests on a fact
about the assembly language: code that was assembled has a listing.
-/

namespace StackMachine.Command

/-! ## Reports -/

namespace Report

/-- A failure: exit code 1 and nothing on standard output. -/
structure IsFailure (r : Report) : Prop where
  code : r.code = 1
  stdout : r.stdout = ""

theorem isFailure_failure (stderr : List Emission) : (failure stderr).IsFailure := ⟨rfl, rfl⟩

theorem isFailure_fail (message : String) : (fail message).IsFailure := ⟨rfl, rfl⟩

theorem IsFailure.after {r : Report} (h : r.IsFailure) (before : List Emission) :
    (r.after before).IsFailure := ⟨h.code, h.stdout⟩

theorem IsFailure.code_ne_zero {r : Report} (h : r.IsFailure) : r.code ≠ 0 := by
  rw [h.code]
  exact Nat.one_ne_zero

end Report

open Report (isFailure_fail isFailure_failure)

/-! ## Program files -/

/-- The path of a source that can be read as text and that assembles to the code. -/
def SourceOf (files : FileTree) (path : String) (code : List UInt8) : Prop :=
  ∃ bytes cs, files.read path = .ok bytes ∧ Text.Utf8.decode bytes = .ok cs ∧
    Assembly.assemble (String.ofList cs) = .ok code

/-- The path of a program: of a source, if it has the extension of one, and else of a file that
holds the code itself. -/
def ProgramOf (files : FileTree) (path : String) (code : List UInt8) : Prop :=
  if isSource path then SourceOf files path code else files.read path = .ok code

variable {files : FileTree} {path : String} {code : List UInt8}

/-- What a command reads at a path. -/
def contentsAt (files : FileTree) (path : String) : Contents :=
  (files.read path).mapError FileFault.message

theorem contentsAt_eq_ok_iff {bytes : List UInt8} :
    contentsAt files path = .ok bytes ↔ files.read path = .ok bytes := by
  unfold contentsAt
  cases files.read path with
  | ok b => simp [Except.mapError]
  | error f => simp [Except.mapError]

theorem assembleFile_eq_ok_iff :
    assembleFile path (contentsAt files path) = .ok code ↔ SourceOf files path code := by
  simp only [SourceOf, ← contentsAt_eq_ok_iff]
  cases contentsAt files path with
  | error cause => simp [assembleFile]
  | ok bytes =>
    simp only [assembleFile]
    cases hd : Text.Utf8.decode bytes with
    | error f => simp [hd]
    | ok cs =>
      cases ha : Assembly.assemble (String.ofList cs) with
      | error e => simp [hd, ha]
      | ok c => simp [hd, ha]

theorem loadProgram_eq_ok_iff :
    loadProgram path (contentsAt files path) = .ok code ↔ ProgramOf files path code := by
  unfold loadProgram ProgramOf
  split
  · exact assembleFile_eq_ok_iff
  · rw [← contentsAt_eq_ok_iff]
    cases contentsAt files path with
    | error cause => simp
    | ok bytes => simp

/-! ## The runner -/

namespace Runner

/-- What a run of the runner prints: the listing of the program if one is asked for, and else the
program's output on a machine that is new, decoded and ended by a newline.  A capacity is the last
value of its option, else the environment's, else the default; a decoding is the last one given. -/
def Prints (environment : Environment) (files : FileTree) (path : String) (gs : List Group)
    (stdout : String) : Prop :=
  ∃ code, ProgramOf files path code ∧
    if .disassemble ∈ gs then Listing.disassemble code = .ok stdout
    else
      ∃ capacities decoding machine bytes text,
        valueOr Capacities.parseSize ({} : Capacities).stack
            ((last? .stack gs).or (environment.lookup Capacities.stackVariable)) =
          .ok capacities.stack ∧
        valueOr Capacities.parseSize ({} : Capacities).memory
            ((last? .memory gs).or (environment.lookup Capacities.memoryVariable)) =
          .ok capacities.memory ∧
        valueOr Decoding.parse .unsigned (last? .decode gs) = .ok decoding ∧
        Machine.create capacities = .ok machine ∧
        (machine.load code).run.1 = .ok bytes ∧
        decoding.decode bytes = .ok text ∧ stdout = text ++ "\n"

/-- The environment sets capacities exactly if both of its texts denote sizes and these are within
their ranges. -/
theorem ofEnvironment_eq_ok_iff {environment : Environment} {c : Capacities} :
    Capacities.ofEnvironment environment = .ok c ↔
      valueOr Capacities.parseSize ({} : Capacities).stack
          (environment.lookup Capacities.stackVariable) = .ok c.stack ∧
        valueOr Capacities.parseSize ({} : Capacities).memory
          (environment.lookup Capacities.memoryVariable) = .ok c.memory ∧ c.Valid := by
  have hv : ∀ (d : Nat) (raw? : Option String),
      Capacities.sizeOr d raw? = valueOr Capacities.parseSize d raw? := by
    intro d raw?
    cases raw? with
    | none => rfl
    | some raw => rfl
  simp only [Capacities.ofEnvironment, Capacities.ofTexts, bind_eq_ok_iff, hv,
    Capacities.validate_eq_ok_iff]
  constructor
  · rintro ⟨words, hw, bytes, hb, hc, rfl⟩
    exact ⟨hw, hb, hc⟩
  · rintro ⟨hw, hb, hc⟩
    exact ⟨c.stack, hw, c.memory, hb, hc, rfl⟩

theorem Group.isFailure_of_fault? {program : String} {g : Group} {r : Report}
    (h : g.fault? program = some r) : r.IsFailure := by
  cases g with
  | valued flag value =>
    unfold fault? at h
    simp only at h
    split at h
    · exact absurd h (by simp)
    · exact Option.some.inj h ▸ isFailure_fail _
  | unfinished flag => exact Option.some.inj h ▸ isFailure_fail _
  | disassemble => exact absurd h (by simp [fault?])
  | stray argument => exact Option.some.inj h ▸ isFailure_failure _

theorem isFailure_of_options {program : String} {p : Plan} {arguments : List String} {r : Report}
    (h : options program p arguments = .error r) : r.IsFailure := by
  rw [options_eq] at h
  obtain ⟨g, _, hg⟩ := exists_of_readGroups_eq_error h
  exact Group.isFailure_of_fault? hg

/-- The plan that a command line with a program's path leads to. -/
theorem plan_of_arguments {i : Invocation} {rest : List String} (h : i.arguments = path :: rest)
    (hh : isHelp path = false) :
    plan i =
      match Capacities.ofEnvironment i.environment with
      | .error e => .error (.fail e.message)
      | .ok capacities => options i.program { path, capacities } rest := by
  simp only [plan, h, hh]
  rfl

/-- A command line that cannot be read is a failure. -/
theorem isFailure_of_plan {i : Invocation} {rest : List String} {r : Report}
    (h : i.arguments = path :: rest) (hh : isHelp path = false) (hp : plan i = .error r) :
    r.IsFailure := by
  rw [plan_of_arguments h hh] at hp
  split at hp
  · exact Except.error.inj hp ▸ isFailure_fail _
  · exact isFailure_of_options hp

/-- A finished run is a failure, or its output was decoded. -/
theorem Plan.finish_cases (p : Plan) (result : Result (List UInt8)) (m : Machine) :
    (p.finish result m).IsFailure ∨
      ((p.finish result m).code = 0 ∧ ∃ bytes text, result = .ok bytes ∧
        p.decoding.decode bytes = .ok text ∧ (p.finish result m).stdout = text ++ "\n") := by
  unfold finish
  split
  · exact .inl (isFailure_failure _)
  · rename_i bytes
    simp only
    split
    · rename_i text ht
      exact .inr ⟨rfl, bytes, text, rfl, ht, rfl⟩
    · exact .inl (isFailure_failure _)

theorem Plan.execute_cases (p : Plan) (code : List UInt8) :
    (p.execute code).IsFailure ∨
      ((p.execute code).code = 0 ∧ ∃ machine bytes text,
        Machine.create p.capacities = .ok machine ∧ (machine.load code).run.1 = .ok bytes ∧
        p.decoding.decode bytes = .ok text ∧ (p.execute code).stdout = text ++ "\n") := by
  unfold execute
  split
  · exact .inl (isFailure_fail _)
  · rename_i machine hm
    rcases p.finish_cases (machine.load code).run.1 (machine.load code).run.2 with hf | hf
    · exact .inl (hf.after _)
    · obtain ⟨hc, bytes, text, hb, ht, hs⟩ := hf
      exact .inr ⟨hc, machine, bytes, text, hm, hb, ht, hs⟩

theorem Plan.list_cases (code : List UInt8) :
    (list code).IsFailure ∨
      ((list code).code = 0 ∧ Listing.disassemble code = .ok (list code).stdout) := by
  unfold list
  split
  · rename_i listing hl
    exact .inr ⟨rfl, hl⟩
  · exact .inl (isFailure_fail _)

/-- A plan with a program is carried out on the program's code. -/
theorem Plan.complete_of_program (p : Plan) (h : ProgramOf files p.path code) :
    p.complete (contentsAt files p.path) =
      if p.disassemble then list code else p.execute code := by
  rw [complete, loadProgram_eq_ok_iff.2 h]

/-- A plan that is carried out is a failure, or what it prints follows from the program's code. -/
theorem Plan.complete_cases (p : Plan) (files : FileTree) :
    let r := p.complete (contentsAt files p.path)
    r.IsFailure ∨ (r.code = 0 ∧ ∃ code, ProgramOf files p.path code ∧
      if p.disassemble then Listing.disassemble code = .ok r.stdout
      else ∃ machine bytes text,
        Machine.create p.capacities = .ok machine ∧ (machine.load code).run.1 = .ok bytes ∧
        p.decoding.decode bytes = .ok text ∧ r.stdout = text ++ "\n") := by
  intro r
  cases hl : loadProgram p.path (contentsAt files p.path) with
  | error x =>
    refine .inl ?_
    show (p.complete (contentsAt files p.path)).IsFailure
    rw [complete, hl]
    exact isFailure_failure _
  | ok code =>
    have hcode := loadProgram_eq_ok_iff.1 hl
    have hr : r = if p.disassemble then list code else p.execute code :=
      p.complete_of_program hcode
    rw [hr]
    by_cases hd : p.disassemble = true
    · rw [if_pos hd]
      rcases list_cases code with hf | ⟨hc, hs⟩
      · exact .inl hf
      · exact .inr ⟨hc, code, hcode, by rw [if_pos hd]; exact hs⟩
    · rw [if_neg hd]
      rcases p.execute_cases code with hf | ⟨hc, hs⟩
      · exact .inl hf
      · exact .inr ⟨hc, code, hcode, by rw [if_neg hd]; exact hs⟩

/-- A program whose output can be decoded is run with success, and the decoded output is printed. -/
theorem run_of_output {i : Invocation} {p : Plan} {machine : Machine} {bytes : List UInt8}
    {text : String} (hp : plan i = .ok p) (hl : p.disassemble = false)
    (hc : ProgramOf files p.path code) (hm : Machine.create p.capacities = .ok machine)
    (hb : (machine.load code).run.1 = .ok bytes) (ht : p.decoding.decode bytes = .ok text) :
    (run i files).code = 0 ∧ (run i files).stdout = text ++ "\n" := by
  have hr : run i files = p.execute code := by
    rw [run, hp]
    show p.complete (contentsAt files p.path) = _
    rw [p.complete_of_program hc, hl]
    rfl
  rw [hr]
  simp only [Plan.execute, hm, Plan.finish, hb, ht]
  exact ⟨rfl, rfl⟩

/-- **The runner fails cleanly and succeeds completely.** -/
theorem run_cases {i : Invocation} {rest : List String} (h : i.arguments = path :: rest)
    (hh : isHelp path = false) (files : FileTree) :
    (run i files).IsFailure ∨
      ((run i files).code = 0 ∧
        Prints i.environment files path (groups rest) (run i files).stdout) := by
  unfold run
  split
  · rename_i r hp
    exact .inl (isFailure_of_plan h hh hp)
  · rename_i p hp
    rw [plan_of_arguments h hh] at hp
    split at hp
    · exact absurd hp (by simp)
    · rename_i c hc
      obtain ⟨hstack, hmemory, _⟩ := ofEnvironment_eq_ok_iff.1 hc
      have hreads := reads_of_options hp
      have hpath : p.path = path := hreads.path
      rcases p.complete_cases files with hf | ⟨h0, code, hcode, hout⟩
      · exact .inl hf
      · refine .inr ⟨h0, code, hpath ▸ hcode, ?_⟩
        have hdis : p.disassemble = true ↔ .disassemble ∈ groups rest := by
          rw [hreads.disassemble, Bool.false_or, List.contains_iff_mem]
        by_cases hd : p.disassemble = true
        · rw [if_pos hd] at hout
          rw [if_pos (hdis.1 hd)]
          exact hout
        · rw [if_neg hd] at hout
          rw [if_neg (fun hmem => hd (hdis.2 hmem))]
          obtain ⟨machine, bytes, text, hm, hb, ht, hs⟩ := hout
          refine ⟨p.capacities, p.decoding, machine, bytes, text, ?_, ?_, ?_, hm, hb, ht, hs⟩
          · rw [valueOr_or hstack]
            exact hreads.stack
          · rw [valueOr_or hmemory]
            exact hreads.memory
          · exact hreads.decoding

/-- A run ends with exit code 0 or is a failure, also without a program's path. -/
theorem code_run_eq_zero_or_isFailure (i : Invocation) (files : FileTree) :
    (run i files).code = 0 ∨ (run i files).IsFailure := by
  cases h : i.arguments with
  | nil =>
    have hr : run i files = ⟨1, "", [.text (usage i.program)]⟩ := by
      simp only [run, plan, h]
    rw [hr]
    exact .inr ⟨rfl, rfl⟩
  | cons path rest =>
    by_cases hh : isHelp path = true
    · have hr : run i files = ⟨0, "", [.text (usage i.program)]⟩ := by
        simp only [run, plan, h, if_pos hh]
      rw [hr]
      exact .inl rfl
    · rcases run_cases h (Bool.eq_false_of_not_eq_true hh) files with hf | ⟨h0, _⟩
      · exact .inr hf
      · exact .inl h0

end Runner

/-! ## The assembler -/

namespace Assembler

/-- The place for the code of a source: that of the last output that is named, and else it lies beside
the source, under the stem of the source's name with the extension `bin`. -/
def IsTarget (path : String) (gs : List Group) (place : Place) : Prop :=
  match lastOutput? gs with
  | some output => place = Place.ofPath output.toList
  | none =>
    ∃ name outer, Place.ofPath path.toList = name :: outer ∧
      place = ((Path.splitExtension name).1 ++ ".bin".toList) :: outer

/-- The files after bytes were put at one place and every other place was left alone. -/
def HoldsAt (files : FileTree) (place : Place) (bytes : List UInt8) (after : FileTree) : Prop :=
  ∀ q, after.entryAt q = if q = place then some (.file bytes) else files.entryAt q

/-- What a run of the assembler does: it puts the code of the source at one place, the target.  The
listing of the code is printed if one is asked for, and else nothing. -/
def Writes (files : FileTree) (path : String) (gs : List Group) (stdout : String)
    (after : FileTree) : Prop :=
  ∃ code place, SourceOf files path code ∧ IsTarget path gs place ∧ HoldsAt files place code after ∧
    if .listing ∈ gs then Listing.disassemble code = .ok stdout else stdout = ""

/-- What a run of the assembler leaves whose write was broken off: the medium did not take the code of
the source, and the target holds its first bytes, as many as were taken. -/
def BreaksOff (medium : Medium) (files : FileTree) (path : String) (gs : List Group)
    (after : FileTree) : Prop :=
  ∃ code place i, SourceOf files path code ∧ IsTarget path gs place ∧ medium place code = some i ∧
    HoldsAt files place (code.take i.written) after

variable {medium : Medium}

theorem BreaksOff.not_hasRoom {gs : List Group} {after : FileTree}
    (h : BreaksOff medium files path gs after) : ¬ medium.HasRoom := by
  obtain ⟨code, place, i, _, _, hi, _⟩ := h
  intro hm
  rw [hm place code] at hi
  exact absurd hi (by simp)

theorem isFailure_of_options {program : String} {p : Plan} {arguments : List String} {r : Report}
    (h : options program p arguments = .error r) : r.IsFailure := by
  rw [options_eq] at h
  obtain ⟨g, _, hg⟩ := exists_of_readGroups_eq_error h
  cases g with
  | output path => exact absurd hg (by simp [Group.fault?])
  | unfinished argument => exact Option.some.inj hg ▸ isFailure_fail _
  | listing => exact absurd hg (by simp [Group.fault?])
  | stray argument => exact Option.some.inj hg ▸ isFailure_failure _

theorem plan_of_arguments {i : Invocation} {rest : List String} (h : i.arguments = path :: rest)
    (hh : isHelp path = false) : plan i = options i.program { input := path } rest := by
  simp only [plan, h, hh]
  rfl

theorem isFailure_of_refusal? {p : Plan} {isPresent : String → Bool} {r : Report}
    (h : p.refusal? isPresent = some r) : r.IsFailure := by
  unfold Plan.refusal? at h
  split at h
  · exact Option.some.inj h ▸ isFailure_fail _
  · split at h
    · exact absurd h (by simp)
    · split at h
      · exact absurd h (by simp)
      · exact Option.some.inj h ▸ isFailure_fail _

/-- A plan is not refused whose source is there, and the directory of its output if it names one. -/
theorem refusal?_eq_none {p : Plan} {isPresent : String → Bool} (hi : isPresent p.input = true)
    (hd : ∀ directory ∈ p.directory?, isPresent directory = true) :
    p.refusal? isPresent = none := by
  unfold Plan.refusal?
  cases h : p.directory? with
  | none => simp [hi]
  | some directory => simp [hi, hd directory h]

theorem compile_eq_ok_iff {p : Plan} :
    p.compile (contentsAt files p.input) = .ok code ↔ SourceOf files p.input code := by
  rw [← assembleFile_eq_ok_iff, Plan.compile]
  cases assembleFile p.input (contentsAt files p.input) with
  | ok c => simp
  | error x => simp

theorem isFailure_of_compile {p : Plan} {contents : Contents} {r : Report}
    (h : p.compile contents = .error r) : r.IsFailure := by
  unfold Plan.compile at h
  split at h
  · exact absurd h (by simp)
  · exact Except.error.inj h ▸ isFailure_failure _

/-- Code that was assembled has a listing, so a report of it is no failure. -/
theorem finish_of_source {p : Plan} (h : SourceOf files path code) :
    (p.finish code).code = 0 ∧
      if p.listing then Listing.disassemble code = .ok (p.finish code).stdout
      else (p.finish code).stdout = "" := by
  obtain ⟨bytes, cs, _, _, ha⟩ := h
  obtain ⟨is, _, _, hl⟩ := Assembly.exists_of_assemble ha
  unfold Plan.finish
  by_cases hp : p.listing = true
  · simp only [if_pos hp, hl]
    exact ⟨rfl, rfl⟩
  · simp only [if_neg hp]
    exact ⟨rfl, rfl⟩

/-- A source that can be read lies at a place with a name, and its default output lies beside it. -/
theorem ofPath_defaultOutput_of_read {bytes : List UInt8} (h : files.read path = .ok bytes) :
    ∃ name outer, Path.name? path.toList = some name ∧ Place.ofPath path.toList = name :: outer ∧
      Place.ofPath (defaultOutput path).toList =
        ((Path.splitExtension name).1 ++ ".bin".toList) :: outer := by
  obtain ⟨p, hl, hp⟩ := FileTree.read_eq_ok_iff.1 h
  obtain ⟨name, _, init, _, hn, hs, hi, hu⟩ := hl.exists_name (by rw [hp]; simp)
  obtain ⟨outer, ho, hd⟩ := ofPath_defaultOutput hs hi hu
  exact ⟨name, outer, hn, ho, hd⟩

/-- The output that the options name, or else the default, is at the target. -/
theorem isTarget_ofPath (h : SourceOf files path code) (gs : List Group) :
    IsTarget path gs (Place.ofPath ((lastOutput? gs).getD (defaultOutput path)).toList) := by
  unfold IsTarget
  split
  · rename_i output ho
    rw [ho]
    rfl
  · rename_i ho
    obtain ⟨bytes, _, hread, _⟩ := h
    obtain ⟨name, outer, _, hname, hd⟩ := ofPath_defaultOutput_of_read hread
    refine ⟨name, outer, hname, ?_⟩
    rw [ho]
    exact hd

/-- A failed write leaves the files as they were, or the first bytes where the path leads. -/
theorem holdsAt_of_write_error {output cause : String} {left : FileTree}
    (h : files.write output code medium = .error (cause, left)) :
    left = files ∨ ∃ i, medium (Place.ofPath output.toList) code = some i ∧
      HoldsAt files (Place.ofPath output.toList) (code.take i.written) left := by
  rcases FileTree.cases_of_write_error h with h | ⟨p, i, hl, hp, hi, rfl⟩
  · exact .inl h
  · rw [← hl.eq_ofPath]
    exact .inr ⟨i, hi, fun q => FileTree.entryAt_put hp⟩

/-- What a plan leads to: a failure before anything is written, or the code of the source is written,
and the report is that of a failed write or that of written code. -/
theorem run_of_plan {i : Invocation} {p : Plan} (hp : plan i = .ok p) (files : FileTree)
    (medium : Medium) :
    ((run i files medium).1.IsFailure ∧ (run i files medium).2 = files) ∨
      ∃ code, SourceOf files p.input code ∧
        (((run i files medium).1.IsFailure ∧ ∃ cause,
            files.write p.target code medium = .error (cause, (run i files medium).2)) ∨
          files.write p.target code medium = .ok (run i files medium).2 ∧
            (run i files medium).1 = p.finish code) := by
  unfold run
  simp only [hp]
  split
  · rename_i r hr
    exact .inl ⟨isFailure_of_refusal? hr, rfl⟩
  · split
    · rename_i r hr
      exact .inl ⟨isFailure_of_compile hr, rfl⟩
    · rename_i code hc
      have hs := compile_eq_ok_iff.1 hc
      split
      · rename_i cause left hw
        exact .inr ⟨code, hs, .inl ⟨isFailure_fail _, cause, hw⟩⟩
      · rename_i files' hw
        exact .inr ⟨code, hs, .inr ⟨hw, rfl⟩⟩

/-- A plan whose steps all succeed ends with the report of the code that it wrote. -/
theorem run_of_write {i : Invocation} {p : Plan} {after : FileTree} (hp : plan i = .ok p)
    (hr : p.refusal? files.isPresent = none) (hs : SourceOf files p.input code)
    (hw : files.write p.target code medium = .ok after) :
    run i files medium = (p.finish code, after) := by
  have hc : p.compile ((files.read p.input).mapError FileFault.message) = .ok code :=
    compile_eq_ok_iff.2 hs
  simp only [run, hp, hr, hc, hw]

/-- What a plan asks for: the source is the first argument, the target the last output that is named,
or else the default, and the listing is that of the options. -/
theorem fields_of_plan {i : Invocation} {rest : List String} {p : Plan}
    (h : i.arguments = path :: rest) (hh : isHelp path = false) (hp : plan i = .ok p) :
    p.input = path ∧ p.target = (lastOutput? (groups rest)).getD (defaultOutput path) ∧
      p.listing = (groups rest).contains .listing := by
  rw [plan_of_arguments h hh, options_eq] at hp
  obtain ⟨_, rfl⟩ := readGroups_eq_ok_iff.1 hp
  obtain ⟨hinput, houtput, hlisting⟩ := foldl_update (groups rest) { input := path }
  rw [Option.or_none] at houtput
  rw [Bool.false_or] at hlisting
  refine ⟨hinput, ?_, hlisting⟩
  rw [Plan.target, houtput, hinput]

/-- What a command line with a source leads to: a failure that changes no file or whose write was
broken off, or the code of the source in the file that the options name, and its report. -/
theorem run_of_arguments {i : Invocation} {rest : List String} (h : i.arguments = path :: rest)
    (hh : isHelp path = false) (files : FileTree) (medium : Medium) :
    ((run i files medium).1.IsFailure ∧ ((run i files medium).2 = files ∨
        BreaksOff medium files path (groups rest) (run i files medium).2)) ∨
      ∃ code, SourceOf files path code ∧
        files.write ((lastOutput? (groups rest)).getD (defaultOutput path)) code medium =
          .ok (run i files medium).2 ∧
        ∃ p : Plan, (run i files medium).1 = p.finish code ∧
          p.listing = (groups rest).contains .listing := by
  cases hp : plan i with
  | error r =>
    have hr : run i files medium = (r, files) := by
      rw [run, hp]
    rw [plan_of_arguments h hh] at hp
    rw [hr]
    exact .inl ⟨isFailure_of_options hp, .inl rfl⟩
  | ok p =>
    obtain ⟨hinput, htarget, hlisting⟩ := fields_of_plan h hh hp
    rcases run_of_plan hp files medium with ⟨hf, hfiles⟩ | ⟨code, hcode, hwrite⟩
    · exact .inl ⟨hf, .inl hfiles⟩
    · rw [hinput] at hcode
      rw [htarget] at hwrite
      rcases hwrite with ⟨hf, cause, hwrite⟩ | ⟨hwrite, hreport⟩
      · refine .inl ⟨hf, (holdsAt_of_write_error hwrite).imp_right ?_⟩
        rintro ⟨b, hb, hleft⟩
        exact ⟨code, _, b, hcode, isTarget_ofPath hcode (groups rest), hb, hleft⟩
      · exact .inr ⟨code, hcode, hwrite, p, hreport, hlisting⟩

/-- **The assembler fails cleanly, but for a write that is broken off, and succeeds completely.** -/
theorem run_cases {i : Invocation} {rest : List String} (h : i.arguments = path :: rest)
    (hh : isHelp path = false) (files : FileTree) (medium : Medium) :
    ((run i files medium).1.IsFailure ∧ ((run i files medium).2 = files ∨
        BreaksOff medium files path (groups rest) (run i files medium).2)) ∨
      ((run i files medium).1.code = 0 ∧
        Writes files path (groups rest) (run i files medium).1.stdout
          (run i files medium).2) := by
  rcases run_of_arguments h hh files medium with hf | ⟨code, hcode, hwrite, p, hreport, hlisting⟩
  · exact .inl hf
  · obtain ⟨place, hl, hplace, hafter⟩ := FileTree.exists_of_write hwrite
    obtain ⟨hzero, hout⟩ := finish_of_source (p := p) hcode
    have htarget : IsTarget path (groups rest) place := by
      rw [hl.eq_ofPath]
      exact isTarget_ofPath hcode (groups rest)
    rw [hreport]
    refine .inr ⟨hzero, code, place, hcode, htarget, ?_, ?_⟩
    · intro q
      rw [hafter, FileTree.entryAt_put hplace]
    · simp only [hlisting, List.contains_iff_mem] at hout
      exact hout

/-- A run ends with exit code 0 or is a failure, also without a source's path, and a failure changes
no file or has left a write that was broken off. -/
theorem code_run_eq_zero_or_isFailure (i : Invocation) (files : FileTree) (medium : Medium) :
    (run i files medium).1.code = 0 ∨
      (run i files medium).1.IsFailure ∧ ((run i files medium).2 = files ∨
        ∃ path rest, i.arguments = path :: rest ∧
          BreaksOff medium files path (groups rest) (run i files medium).2) := by
  cases h : i.arguments with
  | nil =>
    have hr : run i files medium = (⟨1, "", [.log .info (usage i.program)]⟩, files) := by
      simp only [run, plan, h]
    rw [hr]
    exact .inr ⟨⟨rfl, rfl⟩, .inl rfl⟩
  | cons path rest =>
    by_cases hh : isHelp path = true
    · have hr : run i files medium = (⟨0, "", [.log .info (usage i.program)]⟩, files) := by
        simp only [run, plan, h, if_pos hh]
      rw [hr]
      exact .inl rfl
    · rcases run_cases h (Bool.eq_false_of_not_eq_true hh) files medium with
        ⟨hf, hfiles⟩ | ⟨h0, _⟩
      · refine .inr ⟨hf, hfiles.imp_right ?_⟩
        intro hb
        exact ⟨path, rest, rfl, hb⟩
      · exact .inl h0

/-- On a medium with room a failure changes no file. -/
theorem files_of_hasRoom (hm : medium.HasRoom) (i : Invocation) (files : FileTree) :
    (run i files medium).1.code = 0 ∨
      (run i files medium).1.IsFailure ∧ (run i files medium).2 = files := by
  refine (code_run_eq_zero_or_isFailure i files medium).imp_right ?_
  rintro ⟨hf, hfiles | ⟨_, _, _, hb⟩⟩
  · exact ⟨hf, hfiles⟩
  · exact absurd hm hb.not_hasRoom

end Assembler

/-! ## Both commands -/

/-- A command with how it was started. -/
inductive Call where
  | runner (i : Invocation)
  | assembler (i : Invocation)

/-- The report of a command and the files after it, on a medium.  The runner only reads files. -/
def Call.perform (files : FileTree) (medium : Medium) : Call → Report × FileTree
  | runner i => (Runner.run i files, files)
  | assembler i => Assembler.run i files medium

/-- Two numbers are pushed, and the memory that they name, one byte at the start, is returned. -/
theorem run_push_push_ret :
    ((Machine.fresh ⟨4, 16⟩).load [0x01, 1, 0x01, 0, 0x30]).run.1 = .ok [0] := by
  have hv : ((Reference.fresh ⟨4, 16⟩).load [0x01, 1, 0x01, 0, 0x30]).run =
      (.ok [0], ⟨⟨4, 16⟩, [0x01, 1, 0x01, 0, 0x30], 5, [], List.replicate 16 0,
        .halted .returned⟩) := by
    cbv
  rw [Machine.view_run_load_fresh (by decide)] at hv
  exact (Prod.mk.inj hv).1

end StackMachine.Command
