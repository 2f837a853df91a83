import StackMachine.Proofs.CommandOutcomes

/-!
# Options over the environment

Options that set both capacities take the place of what the environment says: the plan that the
options lead to has their last values, whatever capacities it started with (`Plan.Reads.unique`).

The environment is read before the options, though, and capacities that it cannot have end the
command at once.  So the variables still matter in one way.  With two environments that are accepted
the reports are the same; one that is refused makes the command fail, also where every capacity that
it sets would be overridden.
-/

namespace StackMachine.Command.Runner

variable {flag : Flag} {gs : List Group} {q q' : Plan}

/-- An option that is given has a last value. -/
theorem exists_last?_of_mem {value : String} (h : .valued flag value ∈ gs) :
    ∃ last, last? flag gs = some last := by
  induction gs with
  | nil => exact absurd h List.not_mem_nil
  | cons g gs ih =>
    rw [last?]
    cases hl : last? flag gs with
    | some last => exact ⟨last, rfl⟩
    | none =>
      rcases List.mem_cons.1 h with rfl | hm
      · exact ⟨value, by simp [Group.value?]⟩
      · obtain ⟨last, hlast⟩ := ih hm
        rw [hl] at hlast
        exact absurd hlast (by simp)

/-- A value that is given does not depend on the default. -/
theorem valueOr_unique {α : Type} {read : String → Result α} {default default' x x' : α}
    {value : String} (h : valueOr read default (some value) = .ok x)
    (h' : valueOr read default' (some value) = .ok x') : x = x' :=
  Except.ok.inj (h.symm.trans h')

theorem Plan.eq_of_fields (hp : q.path = q'.path) (hs : q.capacities.stack = q'.capacities.stack)
    (hm : q.capacities.memory = q'.capacities.memory) (hd : q.decoding = q'.decoding)
    (hl : q.disassemble = q'.disassemble) : q = q' := by
  obtain ⟨path, ⟨stack, memory⟩, decoding, disassemble⟩ := q
  obtain ⟨path', ⟨stack', memory'⟩, decoding', disassemble'⟩ := q'
  simp only at hp hs hm hd hl
  rw [hp, hs, hm, hd, hl]

/-- Options that set both capacities lead to one plan, whatever the capacities were. -/
theorem Plan.Reads.unique {path stack memory : String} {c c' : Capacities}
    (hs : last? .stack gs = some stack) (hm : last? .memory gs = some memory)
    (h : Reads { path, capacities := c } gs q) (h' : Reads { path, capacities := c' } gs q') :
    q = q' := by
  have hstack := h.stack
  have hmemory := h.memory
  have hstack' := h'.stack
  have hmemory' := h'.memory
  rw [hs] at hstack hstack'
  rw [hm] at hmemory hmemory'
  apply Plan.eq_of_fields
  · exact h.path.trans h'.path.symm
  · exact valueOr_unique hstack hstack'
  · exact valueOr_unique hmemory hmemory'
  · exact Except.ok.inj (h.decoding.symm.trans h'.decoding)
  · exact h.disassemble.trans h'.disassemble.symm

/-- **Capacities that are given as options override the environment, once it is accepted.**  Take a
program's path and options that are all well formed, among them one for each capacity.  Two
environments whose capacities are accepted lead to the same report, so to the same exit code and
output.  An environment that is refused makes the command fail, whatever the options. -/
theorem run_eq_of_overridden {path : String} {rest : List String} (hh : isHelp path = false)
    (hw : ∀ g ∈ groups rest, g.WellFormed) (hs : ∃ value, .valued .stack value ∈ groups rest)
    (hm : ∃ value, .valued .memory value ∈ groups rest) (program : String) (files : FileTree)
    (environment environment' : Environment) :
    let r := run ⟨program, path :: rest, environment⟩ files
    let r' := run ⟨program, path :: rest, environment'⟩ files
    ((∃ c, Capacities.ofEnvironment environment = .ok c) →
      (∃ c, Capacities.ofEnvironment environment' = .ok c) → r = r') ∧
    (∀ e, Capacities.ofEnvironment environment = .error e → r.code = 1 ∧ r.stdout = "") := by
  intro r r'
  constructor
  · rintro ⟨c, hc⟩ ⟨c', hc'⟩
    obtain ⟨_, hmem⟩ := hs
    obtain ⟨_, hmem'⟩ := hm
    obtain ⟨stack, hstack⟩ := exists_last?_of_mem hmem
    obtain ⟨memory, hmemory⟩ := exists_last?_of_mem hmem'
    obtain ⟨q, hq, hr⟩ := exists_options_of_wellFormed hw program { path, capacities := c }
    obtain ⟨q', hq', hr'⟩ := exists_options_of_wellFormed hw program { path, capacities := c' }
    obtain rfl : q = q' := hr.unique hstack hmemory hr'
    show run _ files = run _ files
    rw [run, run, plan_of_arguments rfl hh, plan_of_arguments rfl hh]
    simp only [hc, hc', hq, hq']
  · intro e he
    have hr : r = .fail e.message := by
      show run _ files = _
      rw [run, plan_of_arguments rfl hh]
      simp only [he]
    rw [hr]
    exact ⟨rfl, rfl⟩

/-- Two environments with other capacities than the options: both runs are the same. -/
theorem run_eq_of_overridden_sizes :
    let rest := ["--stack", "4", "--memory", "0x10", "--memory", "64"]
    let files : FileTree := ⟨[(["p".toList], .file [0x01, 1, 0x01, 0, 0x30])]⟩
    run ⟨"stackvm", "p" :: rest, [("STACKVM_STACK_CAPACITY", "1")]⟩ files =
      run ⟨"stackvm", "p" :: rest, [("STACKVM_MEMORY_CAPACITY", "1K")]⟩ files := by
  intro rest files
  have hg : groups rest =
      [.valued .stack "4", .valued .memory "0x10", .valued .memory "64"] := rfl
  have hw : ∀ g ∈ groups rest, g.WellFormed := by
    rw [hg]
    intro g hmem
    simp only [List.mem_cons, List.not_mem_nil, or_false] at hmem
    rcases hmem with rfl | rfl | rfl
    · exact (rfl : Flag.check .stack "4" = .ok ())
    · exact (rfl : Flag.check .memory "0x10" = .ok ())
    · exact (rfl : Flag.check .memory "64" = .ok ())
  have hs : ∃ value, .valued .stack value ∈ groups rest := ⟨"4", by simp [hg]⟩
  have hm : ∃ value, .valued .memory value ∈ groups rest := ⟨"64", by simp [hg]⟩
  have hc : Capacities.ofEnvironment [("STACKVM_STACK_CAPACITY", "1")] = .ok ⟨1, 65536⟩ :=
    ofEnvironment_eq_ok_iff.2 ⟨rfl, rfl, by decide⟩
  have hc' : Capacities.ofEnvironment [("STACKVM_MEMORY_CAPACITY", "1K")] = .ok ⟨32, 1024⟩ :=
    ofEnvironment_eq_ok_iff.2 ⟨rfl, rfl, by decide⟩
  exact (run_eq_of_overridden rfl hw hs hm "stackvm" files _ _).1 ⟨_, hc⟩ ⟨_, hc'⟩

/-- **A refused environment is not overridden.**  Both capacities are given as options, and all
options are well formed.  Without variables the program runs; with a text that is no size in a
variable that the options override, the command fails. -/
theorem refused_environment_fails_overridden :
    let rest := ["--stack", "4", "--memory", "64"]
    let files : FileTree := ⟨[(["p".toList], .file [0x01, 1, 0x01, 0, 0x30])]⟩
    ((∀ g ∈ groups rest, g.WellFormed) ∧ (∃ value, .valued .stack value ∈ groups rest) ∧
      ∃ value, .valued .memory value ∈ groups rest) ∧
    (run ⟨"stackvm", "p" :: rest, []⟩ files).code = 0 ∧
    (run ⟨"stackvm", "p" :: rest, [("STACKVM_STACK_CAPACITY", "x")]⟩ files).code = 1 := by
  intro rest files
  have hg : groups rest = [.valued .stack "4", .valued .memory "64"] := rfl
  refine ⟨⟨?_, ⟨"4", by simp [hg]⟩, ⟨"64", by simp [hg]⟩⟩, ?_, ?_⟩
  · rw [hg]
    intro g hmem
    simp only [List.mem_cons, List.not_mem_nil, or_false] at hmem
    rcases hmem with rfl | rfl
    · exact (rfl : Flag.check .stack "4" = .ok ())
    · exact (rfl : Flag.check .memory "64" = .ok ())
  · have hp : plan ⟨"stackvm", "p" :: rest, []⟩ =
        .ok { path := "p", capacities := ⟨4, 64⟩ } := rfl
    have hread : files.read "p" = .ok [0x01, 1, 0x01, 0, 0x30] := rfl
    have hrun : ((Machine.fresh ⟨4, 64⟩).load [0x01, 1, 0x01, 0, 0x30]).run.1 = .ok [0] := by
      have hv : ((Reference.fresh ⟨4, 64⟩).load [0x01, 1, 0x01, 0, 0x30]).run =
          (.ok [0], ⟨⟨4, 64⟩, [0x01, 1, 0x01, 0, 0x30], 5, [], List.replicate 64 0,
            .halted .returned⟩) := by
        cbv
      rw [Machine.view_run_load_fresh (by decide)] at hv
      exact (Prod.mk.inj hv).1
    exact (run_of_output hp rfl hread rfl hrun rfl).1
  · have he : Capacities.ofEnvironment [("STACKVM_STACK_CAPACITY", "x")] =
        .error (.invalidCapacity "invalid size 'x'") := rfl
    have hp : plan ⟨"stackvm", "p" :: rest, [("STACKVM_STACK_CAPACITY", "x")]⟩ =
        .error (.fail (Error.invalidCapacity "invalid size 'x'").message) := by
      rw [plan_of_arguments rfl rfl]
      simp only [he]
    rw [run, hp]
    rfl

end StackMachine.Command.Runner
