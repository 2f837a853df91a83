import StackMachine.Command.Assembler
import StackMachine.Command.Runner

/-!
# Options in groups

Both commands read their options from left to right.  Each turn takes a *group*: an option with the
value behind it, an option without a value, or an argument that is no option.  Whether a group is
well formed can be seen from the group alone, and so can what it changes.

So the reading of options is: cut the arguments into groups, report the first group that has a
fault, and otherwise let each group change the plan in turn (`readGroups`, with `Runner.options_eq`
and `Assembler.options_eq`).  Of an option that is given several times the last value stays:
`Runner.reads_foldl` and `Assembler.foldl_update`.
-/

namespace StackMachine.Command

/-! ## Reading groups -/

section ReadGroups

variable {γ π : Type} {fault? : γ → Option Report} {update : π → γ → π} {p q : π} {g : γ}
  {gs : List γ} {r : Report}

/-- Let groups change a plan in turn, unless one of them has a fault; the first fault is
reported. -/
def readGroups (fault? : γ → Option Report) (update : π → γ → π) (p : π) (gs : List γ) :
    Except Report π :=
  match gs.findSome? fault? with
  | some report => .error report
  | none => .ok (gs.foldl update p)

theorem readGroups_cons_of_some (h : fault? g = some r) :
    readGroups fault? update p (g :: gs) = .error r := by
  rw [readGroups, List.findSome?_cons, h]

theorem readGroups_cons_of_none (h : fault? g = none) :
    readGroups fault? update p (g :: gs) = readGroups fault? update (update p g) gs := by
  rw [readGroups, readGroups, List.findSome?_cons, h]
  rfl

theorem readGroups_eq_ok_iff :
    readGroups fault? update p gs = .ok q ↔
      (∀ g ∈ gs, fault? g = none) ∧ q = gs.foldl update p := by
  unfold readGroups
  split
  · rename_i report h
    obtain ⟨g, hg, hr⟩ := List.exists_of_findSome?_eq_some h
    simp only [reduceCtorEq, false_iff, not_and]
    intro hn
    rw [hn g hg] at hr
    exact absurd hr (by simp)
  · rename_i h
    rw [List.findSome?_eq_none_iff] at h
    constructor
    · intro he
      exact ⟨h, (Except.ok.inj he).symm⟩
    · rintro ⟨_, rfl⟩
      rfl

theorem exists_of_readGroups_eq_error (h : readGroups fault? update p gs = .error r) :
    ∃ g ∈ gs, fault? g = some r := by
  unfold readGroups at h
  split at h
  · rename_i report hf
    rw [← Except.error.inj h]
    exact List.exists_of_findSome?_eq_some hf
  · exact absurd h (by simp)

end ReadGroups

/-- What a text denotes, or a default where there is no text. -/
def valueOr {α : Type} (read : String → Result α) (default : α) : Option String → Result α
  | none => .ok default
  | some text => read text

/-- A value that takes the place of a default. -/
theorem valueOr_or {α : Type} {read : String → Result α} {default value : α}
    {earlier? : Option String} (h : valueOr read default earlier? = .ok value)
    (later? : Option String) :
    valueOr read default (later?.or earlier?) = valueOr read value later? := by
  cases later? with
  | none => exact h
  | some text => rfl

/-! ## The runner's options -/

namespace Runner

/-- The argument that names an option. -/
def Flag.argument : Flag → String
  | stack => "--stack"
  | memory => "--memory"
  | decode => "--decode"

theorem Flag.argument_of_ofArgument? {argument : String} {flag : Flag}
    (h : ofArgument? argument = some flag) : flag.argument = argument := by
  unfold ofArgument? at h
  split at h
  · rw [← Option.some.inj h]
    rfl
  · rw [← Option.some.inj h]
    rfl
  · rw [← Option.some.inj h]
    rfl
  · exact absurd h (by simp)

/-- Ask for a value that the option can take. -/
def Flag.check (flag : Flag) (value : String) : Result Unit :=
  match flag with
  | stack | memory => (Capacities.parseSize value).map fun _ => ()
  | decode => (Decoding.parse value).map fun _ => ()

/-- An option with what belongs to it, or an argument that is no option. -/
inductive Group where
  | valued (flag : Flag) (value : String)
  /-- An option at the end, where a value should follow. -/
  | unfinished (flag : Flag)
  | disassemble
  | stray (argument : String)
deriving DecidableEq

/-- Arguments cut into groups. -/
def groups : List String → List Group
  | [] => []
  | argument :: rest =>
    match Flag.ofArgument? argument with
    | some flag =>
      match rest with
      | [] => [.unfinished flag]
      | value :: rest => .valued flag value :: groups rest
    | none =>
      (if argument = "--disassemble" then .disassemble else .stray argument) :: groups rest

namespace Group

/-- A group that changes the plan. -/
def WellFormed : Group → Prop
  | valued flag value => flag.check value = .ok ()
  | disassemble => True
  | unfinished _ | stray _ => False

/-- The report of a group that is not well formed. -/
def fault? (program : String) : Group → Option Report
  | valued flag value =>
    match flag.check value with
    | .ok () => none
    | .error e => some (.fail (flag.argument ++ ": " ++ e.message))
  | unfinished flag => some (.fail (flag.argument ++ " requires an argument"))
  | disassemble => none
  | stray argument => some (unexpected program argument)

/-- The plan that a group leads to. -/
def update (p : Plan) : Group → Plan
  | valued flag value => (p.apply value flag).toOption.getD p
  | disassemble => { p with disassemble := true }
  | unfinished _ | stray _ => p

/-- The value that a group gives to an option. -/
def value? (flag : Flag) : Group → Option String
  | valued f value => if f = flag then some value else none
  | unfinished _ | disassemble | stray _ => none

end Group

/-- The last value that groups give to an option. -/
def last? (flag : Flag) : List Group → Option String
  | [] => none
  | g :: gs => (last? flag gs).or (g.value? flag)

theorem Group.fault?_eq_none_iff {program : String} {g : Group} :
    g.fault? program = none ↔ g.WellFormed := by
  cases g with
  | valued flag value =>
    simp only [fault?, WellFormed]
    cases flag.check value with
    | ok u => simp
    | error e => simp
  | unfinished flag => simp [fault?, WellFormed]
  | disassemble => simp [fault?, WellFormed]
  | stray argument => simp [fault?, WellFormed]

variable {p q : Plan} {value : String}

/-- Whether a value can be taken does not depend on the plan. -/
theorem Plan.map_apply (p : Plan) (value : String) (flag : Flag) :
    (p.apply value flag).map (fun _ => ()) = flag.check value := by
  cases flag with
  | stack =>
    show (Except.map _ (Capacities.parseSize value)).map _ = Except.map _ _
    cases Capacities.parseSize value with
    | ok n => rfl
    | error e => rfl
  | memory =>
    show (Except.map _ (Capacities.parseSize value)).map _ = Except.map _ _
    cases Capacities.parseSize value with
    | ok n => rfl
    | error e => rfl
  | decode =>
    show (Except.map _ (Decoding.parse value)).map _ = Except.map _ _
    cases Decoding.parse value with
    | ok d => rfl
    | error e => rfl

/-- **The options are read group by group.** -/
theorem options_eq (program : String) (p : Plan) (arguments : List String) :
    options program p arguments =
      readGroups (Group.fault? program) Group.update p (groups arguments) := by
  fun_induction options program p arguments with
  | case1 p => rfl
  | case2 p argument flag hf =>
    rw [groups, hf]
    rw [readGroups_cons_of_some (r := .fail (argument ++ " requires an argument"))]
    rw [Group.fault?, Flag.argument_of_ofArgument? hf]
  | case3 p argument flag hf value rest e he =>
    have hc : flag.check value = .error e := by
      rw [← p.map_apply, he]
      rfl
    rw [groups, hf]
    rw [readGroups_cons_of_some (r := .fail (argument ++ ": " ++ e.message))]
    rw [Group.fault?, hc, Flag.argument_of_ofArgument? hf]
  | case4 p argument flag hf value rest q hq ih =>
    have hc : flag.check value = .ok () := by
      rw [← p.map_apply, hq]
      rfl
    have hu : Group.update p (.valued flag value) = q := by
      rw [Group.update, hq]
      rfl
    rw [groups, hf]
    rw [readGroups_cons_of_none (Group.fault?_eq_none_iff (g := .valued flag value).2 hc), hu]
    exact ih
  | case5 p rest hf ih =>
    rw [groups, hf]
    exact ih
  | case6 p argument rest hf ha =>
    rw [groups, hf, if_neg ha]
    rw [readGroups_cons_of_some (r := unexpected program argument)]
    rfl

/-- The plan that a plan becomes under groups: each option has the last value that it was given, or
the one from before. -/
structure Plan.Reads (p : Plan) (gs : List Group) (q : Plan) : Prop where
  path : q.path = p.path
  stack : valueOr Capacities.parseSize p.capacities.stack (last? .stack gs) =
    .ok q.capacities.stack
  memory : valueOr Capacities.parseSize p.capacities.memory (last? .memory gs) =
    .ok q.capacities.memory
  decoding : valueOr Decoding.parse p.decoding (last? .decode gs) = .ok q.decoding
  disassemble : q.disassemble = (p.disassemble || gs.contains .disassemble)

theorem Plan.reads_nil (p : Plan) : p.Reads [] p where
  path := rfl
  stack := rfl
  memory := rfl
  decoding := rfl
  disassemble := (Bool.or_false _).symm

/-- One group sets its own option and no other. -/
theorem Plan.reads_update {g : Group} (h : g.WellFormed) (p : Plan) :
    p.Reads [g] (Group.update p g) := by
  cases g with
  | unfinished flag => exact absurd h id
  | stray argument => exact absurd h id
  | disassemble => exact ⟨rfl, rfl, rfl, rfl, (Bool.or_true _).symm⟩
  | valued flag value =>
    have hc : flag.check value = .ok () := h
    cases flag with
    | stack =>
      obtain ⟨n, hn, _⟩ := Result.map_eq_ok_iff.1 hc
      have hu : Group.update p (.valued .stack value) =
          { p with capacities := { p.capacities with stack := n } } := by
        simp [Group.update, Plan.apply, hn, Except.map, Except.toOption]
      rw [hu]
      exact ⟨rfl, hn, rfl, rfl, (Bool.or_false _).symm⟩
    | memory =>
      obtain ⟨n, hn, _⟩ := Result.map_eq_ok_iff.1 hc
      have hu : Group.update p (.valued .memory value) =
          { p with capacities := { p.capacities with memory := n } } := by
        simp [Group.update, Plan.apply, hn, Except.map, Except.toOption]
      rw [hu]
      exact ⟨rfl, rfl, hn, rfl, (Bool.or_false _).symm⟩
    | decode =>
      obtain ⟨d, hd, _⟩ := Result.map_eq_ok_iff.1 hc
      have hu : Group.update p (.valued .decode value) = { p with decoding := d } := by
        simp [Group.update, Plan.apply, hd, Except.map, Except.toOption]
      rw [hu]
      exact ⟨rfl, rfl, rfl, hd, (Bool.or_false _).symm⟩

theorem Plan.Reads.cons {p q r : Plan} {g : Group} {gs : List Group} (h : p.Reads [g] q)
    (hr : q.Reads gs r) : p.Reads (g :: gs) r where
  path := hr.path.trans h.path
  stack := (valueOr_or h.stack _).trans hr.stack
  memory := (valueOr_or h.memory _).trans hr.memory
  decoding := (valueOr_or h.decoding _).trans hr.decoding
  disassemble := by
    rw [hr.disassemble, h.disassemble]
    simp [Bool.or_assoc]

/-- **The last value of each option stays.** -/
theorem reads_foldl {gs : List Group} (h : ∀ g ∈ gs, g.WellFormed) (p : Plan) :
    p.Reads gs (gs.foldl Group.update p) := by
  induction gs generalizing p with
  | nil => exact p.reads_nil
  | cons g gs ih =>
    have hg := p.reads_update (h g List.mem_cons_self)
    exact hg.cons (ih (fun x hx => h x (List.mem_cons_of_mem g hx)) _)

/-- Groups that are well formed are read into the plan that they describe. -/
theorem exists_options_of_wellFormed {arguments : List String}
    (h : ∀ g ∈ groups arguments, g.WellFormed) (program : String) (p : Plan) :
    ∃ q, options program p arguments = .ok q ∧ p.Reads (groups arguments) q := by
  refine ⟨_, ?_, reads_foldl h p⟩
  rw [options_eq]
  exact readGroups_eq_ok_iff.2 ⟨fun g hg => Group.fault?_eq_none_iff.2 (h g hg), rfl⟩

theorem reads_of_options {program : String} {arguments : List String}
    (h : options program p arguments = .ok q) : p.Reads (groups arguments) q := by
  rw [options_eq] at h
  obtain ⟨hg, rfl⟩ := readGroups_eq_ok_iff.1 h
  exact reads_foldl (fun g hmem => Group.fault?_eq_none_iff.1 (hg g hmem)) p

end Runner

/-! ## The assembler's options -/

namespace Assembler

/-- An option with what belongs to it, or an argument that is no option. -/
inductive Group where
  | output (path : String)
  /-- An option at the end, where a path should follow. -/
  | unfinished (argument : String)
  | listing
  | stray (argument : String)
deriving DecidableEq

/-- Arguments cut into groups. -/
def groups : List String → List Group
  | [] => []
  | argument :: rest =>
    if argument = "--output" ∨ argument = "-o" then
      match rest with
      | [] => [.unfinished argument]
      | path :: rest => .output path :: groups rest
    else
      (if argument = "--listing" ∨ argument = "-l" then .listing else .stray argument) ::
        groups rest

namespace Group

/-- The report of a group that is not well formed. -/
def fault? (program : String) : Group → Option Report
  | output _ | listing => none
  | unfinished argument => some (.fail (argument ++ " requires an argument"))
  | stray argument => some (unexpected program argument)

/-- The plan that a group leads to. -/
def update (p : Plan) : Group → Plan
  | output path => { p with output := some path }
  | listing => { p with listing := true }
  | unfinished _ | stray _ => p

/-- The output that a group names. -/
def output? : Group → Option String
  | output path => some path
  | unfinished _ | listing | stray _ => none

end Group

/-- The last output that groups name. -/
def lastOutput? : List Group → Option String
  | [] => none
  | g :: gs => (lastOutput? gs).or g.output?

/-- **The options are read group by group.** -/
theorem options_eq (program : String) (p : Plan) (arguments : List String) :
    options program p arguments =
      readGroups (Group.fault? program) Group.update p (groups arguments) := by
  fun_induction options program p arguments with
  | case1 p => rfl
  | case2 p argument ha =>
    rw [groups, if_pos ha]
    rw [readGroups_cons_of_some (r := .fail (argument ++ " requires an argument"))]
    rfl
  | case3 p argument ha path rest ih =>
    rw [groups, if_pos ha]
    exact ih
  | case4 p argument rest ha hl ih =>
    rw [groups.eq_def]
    simp only [if_neg ha, if_pos hl]
    exact ih
  | case5 p argument rest ha hl =>
    rw [groups.eq_def]
    simp only [if_neg ha, if_neg hl]
    rw [readGroups_cons_of_some (r := unexpected program argument)]
    rfl

/-- **The last output stays.** -/
theorem foldl_update (gs : List Group) (p : Plan) :
    (gs.foldl Group.update p).input = p.input ∧
      (gs.foldl Group.update p).output = (lastOutput? gs).or p.output ∧
      (gs.foldl Group.update p).listing = (p.listing || gs.contains .listing) := by
  induction gs generalizing p with
  | nil => exact ⟨rfl, rfl, (Bool.or_false _).symm⟩
  | cons g gs ih =>
    obtain ⟨hi, ho, hl⟩ := ih (Group.update p g)
    rw [List.foldl_cons, hi, ho, hl, lastOutput?]
    cases g with
    | output path => simp [Group.update, Group.output?]
    | unfinished argument => simp [Group.update, Group.output?]
    | listing => simp [Group.update, Group.output?]
    | stray argument => simp [Group.update, Group.output?]

end Assembler

end StackMachine.Command
