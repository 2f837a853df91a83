import StackMachine.Proofs.EnvironmentOverride

/-!
# The order of options

Groups of options can be written down again (`Group.arguments`), and arguments are what their groups
are written with (`flatMap_arguments_groups`).  So other arguments with the same groups in another
order can be spoken of.

Groups that are well formed lead to a plan of which each part is the last value that was given for
it, if there is one, and else what it was before.  Two command lines that agree in the last value of
each option, and in whether a listing is asked for, therefore lead to the same plan and the same
report (`Plan.Reads.eq_of_agree`).  A group that is not well formed ends the reading with its own
report, before any file is looked at.
-/

namespace StackMachine.Command.Runner

variable {g : Group} {gs hs : List Group} {p q q' : Plan}

/-! ## Groups and their arguments -/

/-- The arguments that a group is written with. -/
def Group.arguments : Group → List String
  | valued flag value => [flag.argument, value]
  | unfinished flag => [flag.argument]
  | disassemble => ["--disassemble"]
  | stray argument => [argument]

theorem Flag.ofArgument?_argument (flag : Flag) : ofArgument? flag.argument = some flag := by
  cases flag with
  | stack => rfl
  | memory => rfl
  | decode => rfl

/-- Cutting arguments into groups keeps all of them, in order. -/
theorem flatMap_arguments_groups (arguments : List String) :
    (groups arguments).flatMap Group.arguments = arguments := by
  fun_induction groups arguments with
  | case1 => rfl
  | case2 argument flag hf =>
    rw [← Flag.argument_of_ofArgument? hf]
    rfl
  | case3 argument flag hf value rest ih =>
    rw [List.flatMap_cons, ih, ← Flag.argument_of_ofArgument? hf]
    rfl
  | case4 argument rest hf ih =>
    rw [List.flatMap_cons, ih]
    split
    · rename_i ha
      rw [ha]
      rfl
    · rfl

/-- Groups that are well formed are the groups of their arguments. -/
theorem groups_flatMap_arguments (h : ∀ g ∈ gs, g.WellFormed) :
    groups (gs.flatMap Group.arguments) = gs := by
  induction gs with
  | nil => rfl
  | cons g gs ih =>
    have ih := ih fun x hx => h x (List.mem_cons_of_mem g hx)
    cases g with
    | valued flag value =>
      show groups (flag.argument :: value :: gs.flatMap Group.arguments) = _
      rw [groups, Flag.ofArgument?_argument]
      simp only [ih]
    | disassemble =>
      show groups ("--disassemble" :: gs.flatMap Group.arguments) = _
      rw [groups.eq_def]
      simp only [ih]
      rfl
    | unfinished flag => exact absurd (h _ List.mem_cons_self) id
    | stray argument => exact absurd (h _ List.mem_cons_self) id

/-! ## Last values -/

/-- The last value of an option is the last one of the values that are given for it. -/
theorem last?_eq_getLast? (flag : Flag) (gs : List Group) :
    last? flag gs = (gs.filterMap (Group.value? flag)).getLast? := by
  induction gs with
  | nil => rfl
  | cons g gs ih =>
    rw [last?, ih]
    cases hv : g.value? flag with
    | none => rw [List.filterMap_cons_none hv, Option.or_none]
    | some value =>
      rw [List.filterMap_cons_some hv, List.getLast?_cons]
      cases (gs.filterMap (Group.value? flag)).getLast? with
      | none => rfl
      | some last => rfl

/-- Groups that agree in the last value of each option, and in whether a listing is asked for. -/
structure Agree (gs hs : List Group) : Prop where
  last (flag : Flag) : last? flag gs = last? flag hs
  listing : .disassemble ∈ gs ↔ .disassemble ∈ hs

/-- Groups in another order, in which the values of each option keep theirs. -/
structure Reordered (gs hs : List Group) : Prop where
  perm : gs.Perm hs
  values (flag : Flag) : gs.filterMap (Group.value? flag) = hs.filterMap (Group.value? flag)

theorem Reordered.agree (h : Reordered gs hs) : Agree gs hs where
  last flag := by rw [last?_eq_getLast?, last?_eq_getLast?, h.values]
  listing := h.perm.mem_iff

/-- Groups that agree make the same plan out of a plan. -/
theorem Plan.Reads.eq_of_agree (h : p.Reads gs q) (h' : p.Reads hs q') (ha : Agree gs hs) :
    q = q' := by
  have hstack := h.stack
  have hmemory := h.memory
  have hdecoding := h.decoding
  rw [ha.last, h'.stack] at hstack
  rw [ha.last, h'.memory] at hmemory
  rw [ha.last, h'.decoding] at hdecoding
  have hlisting : gs.contains .disassemble = hs.contains .disassemble := by
    rw [Bool.eq_iff_iff, List.contains_iff_mem, List.contains_iff_mem]
    exact ha.listing
  apply Plan.eq_of_fields
  · rw [h.path, h'.path]
  · exact (Except.ok.inj hstack).symm
  · exact (Except.ok.inj hmemory).symm
  · exact (Except.ok.inj hdecoding).symm
  · rw [h.disassemble, h'.disassemble, hlisting]

/-! ## Command lines -/

variable {path program : String} {environment : Environment} {rest rest' : List String}

/-- Command lines whose options agree and are well formed lead to one report: that of a plan if the
environment is accepted, and that of the environment's error if it is not. -/
theorem run_eq_of_agree (hh : isHelp path = false) (hw : ∀ g ∈ groups rest, g.WellFormed)
    (hw' : ∀ g ∈ groups rest', g.WellFormed) (ha : Agree (groups rest') (groups rest))
    (files : FileTree) :
    run ⟨program, path :: rest', environment⟩ files =
      run ⟨program, path :: rest, environment⟩ files := by
  have hplan : plan ⟨program, path :: rest', environment⟩ =
      plan ⟨program, path :: rest, environment⟩ := by
    rw [plan_of_arguments rfl hh, plan_of_arguments rfl hh]
    cases Capacities.ofEnvironment environment with
    | error e => rfl
    | ok c =>
      obtain ⟨q, hq, hr⟩ := exists_options_of_wellFormed hw program { path, capacities := c }
      obtain ⟨q', hq', hr'⟩ := exists_options_of_wellFormed hw' program { path, capacities := c }
      simp only [hq, hq', hr'.eq_of_agree hr ha]
  rw [run, run, hplan]

/-- The first group that is not well formed makes the report, whatever follows and whatever files
there are. -/
theorem run_of_fault {c : Capacities} {before after : List Group} {r : Report}
    (hh : isHelp path = false) (hc : Capacities.ofEnvironment environment = .ok c)
    (hg : groups rest = before ++ g :: after) (hw : ∀ x ∈ before, x.WellFormed)
    (hr : g.fault? program = some r) (files : FileTree) :
    run ⟨program, path :: rest, environment⟩ files = r := by
  have hfirst : (groups rest).findSome? (Group.fault? program) = some r := by
    have hnone : before.findSome? (Group.fault? program) = none :=
      List.findSome?_eq_none_iff.2 fun x hx => Group.fault?_eq_none_iff.2 (hw x hx)
    rw [hg, List.findSome?_append, hnone, Option.none_or, List.findSome?_cons, hr]
  have hplan : plan ⟨program, path :: rest, environment⟩ = .error r := by
    rw [plan_of_arguments rfl hh]
    simp only [hc]
    rw [options_eq, readGroups, hfirst]
  rw [run, hplan]

/-- **Only the last value of each option counts, and the first fault.**  Take a program's path and
an environment.

Two lists of options that are all well formed lead to the same report if they agree in the last value
of each option and in whether a listing is asked for.  So does any order of the same groups in which
the values of each option keep their order.

If the environment is accepted, the first group that is not well formed decides: it is reported, with
exit code 1 and nothing printed, whatever groups follow it and whatever files there are. -/
theorem run_eq_of_last_values (hh : isHelp path = false) (program : String)
    (environment : Environment) :
    let start (rest : List String) : Invocation := ⟨program, path :: rest, environment⟩
    (∀ rest files, (∀ g ∈ groups rest, g.WellFormed) →
      (∀ rest', (∀ g ∈ groups rest', g.WellFormed) → Agree (groups rest') (groups rest) →
        run (start rest') files = run (start rest) files) ∧
      ∀ gs, Reordered gs (groups rest) →
        run (start (gs.flatMap Group.arguments)) files = run (start rest) files) ∧
    ∀ before g, (∃ c, Capacities.ofEnvironment environment = .ok c) →
      (∀ x ∈ before, x.WellFormed) → ¬g.WellFormed →
      ∃ r, g.fault? program = some r ∧ r.IsFailure ∧
        ∀ rest after files, groups rest = before ++ g :: after → run (start rest) files = r := by
  intro start
  constructor
  · intro rest files hw
    constructor
    · intro rest' hw' ha
      exact run_eq_of_agree hh hw hw' ha files
    · intro gs ho
      have hw' : ∀ g ∈ gs, g.WellFormed := fun g hg => hw g (ho.perm.mem_iff.1 hg)
      have hgs := groups_flatMap_arguments hw'
      apply run_eq_of_agree hh hw
      · rw [hgs]
        exact hw'
      · rw [hgs]
        exact ho.agree
  · rintro before g ⟨c, hc⟩ hw hg
    obtain ⟨r, hr⟩ := Option.ne_none_iff_exists'.1 (mt Group.fault?_eq_none_iff.1 hg)
    refine ⟨r, hr, Group.isFailure_of_fault? hr, ?_⟩
    intro rest after files hgroups
    exact run_of_fault hh hc hgroups hw hr files

/-- Options in another order, one of them given twice; and an option's name where a value is
expected, with an argument behind it that is no option, and no program to run. -/
theorem run_eq_of_last_values_twice :
    let start (rest : List String) : Invocation := ⟨"stackvm", "p" :: rest, []⟩
    let files : FileTree := ⟨[(["p".toList], .file [0x01, 1, 0x01, 0, 0x30])]⟩
    run (start ["--stack", "9", "--disassemble", "--memory", "1K", "--stack", "4"]) files =
      run (start ["--memory", "1K", "--stack", "9", "--stack", "4", "--disassemble"]) files ∧
    run (start ["--stack", "4", "--decode", "--memory", "-v"]) .empty =
      .fail ("--decode: decoding error: unknown decoding '--memory' " ++
        "(expected u64, i64, hex or text)") := by
  intro start files
  have hh : isHelp "p" = false := rfl
  obtain ⟨hordered, hfault⟩ := run_eq_of_last_values hh "stackvm" []
  have hstack (value : String) (hv : Flag.check .stack value = .ok ()) :
      (Group.valued .stack value).WellFormed := hv
  constructor
  · let rest := ["--memory", "1K", "--stack", "9", "--stack", "4", "--disassemble"]
    let gs : List Group :=
      [.valued .stack "9", .disassemble, .valued .memory "1K", .valued .stack "4"]
    have hg : groups rest =
        [.valued .memory "1K", .valued .stack "9", .valued .stack "4", .disassemble] := rfl
    have hw : ∀ g ∈ groups rest, g.WellFormed := by
      rw [hg]
      simp only [List.forall_mem_cons]
      exact ⟨(rfl : Flag.check .memory "1K" = .ok ()), hstack "9" rfl, hstack "4" rfl, trivial,
        by simp⟩
    have ho : Reordered gs (groups rest) := by
      refine ⟨?_, ?_⟩
      · rw [hg]
        decide
      · intro flag
        cases flag <;> rfl
    exact (hordered rest files hw).2 gs ho
  · have hc : Capacities.ofEnvironment [] = .ok {} := rfl
    have hw : ∀ x ∈ [Group.valued .stack "4"], x.WellFormed := by
      simp only [List.forall_mem_cons]
      exact ⟨hstack "4" rfl, by simp⟩
    have hn : ¬(Group.valued .decode "--memory").WellFormed := by
      show ¬(Flag.check .decode "--memory" = .ok ())
      simp [Flag.check, Decoding.parse, Except.map]
    obtain ⟨r, hr, _, hrun⟩ := hfault [.valued .stack "4"] (.valued .decode "--memory")
      ⟨_, hc⟩ hw hn
    rw [hrun ["--stack", "4", "--decode", "--memory", "-v"] [.stray "-v"] .empty rfl]
    exact (Option.some.inj hr).symm

end StackMachine.Command.Runner
