import Mathlib.Data.List.DropRight
import StackMachine.Command.FileTree

/-!
# What a written file leaves

A path is followed from directory to directory, and the places on the way are directories too.  So a
path that leads to anything but a directory ends with a name, which is the name of the place
(`Leads.exists_name`).

A write puts one file at the place its path leads to, and all other places keep what they hold
(`exists_of_write`).  As no directory is written over, every path still leads where it did.  The
path that was written reads back the bytes, and a file whose last name is another one reads back
what it held before.

A write that fails changes nothing, unless the medium broke it off.  Then the place holds the bytes
that the medium took (`cases_of_write_error`), and this is the only way in which a failure can
change a file.
-/

namespace StackMachine.Command

/-- An action that goes on with the value of another one succeeds exactly if both do. -/
theorem bind_eq_ok_iff {ε α β : Type} {x : Except ε α} {f : α → Except ε β} {b : β} :
    (x >>= f) = .ok b ↔ ∃ a, x = .ok a ∧ f a = .ok b := by
  cases x with
  | ok a => simp [bind, Except.bind]
  | error e => simp [bind, Except.bind]

namespace Path

theorem segments_ne_nil (cs : List Char) : segments cs ≠ [] := by
  cases cs with
  | nil => simp [segments]
  | cons c cs =>
    simp only [segments]
    split
    · simp
    · split
      · simp
      · simp

theorem segments_slash (cs : List Char) : segments ('/' :: cs) = [] :: segments cs := by
  rw [segments, if_pos rfl]

/-- The lead of a path whose last segment names something, and the segments after it: an absolute
path, one that starts with a dot, and any other. -/
theorem split_of_segments {path s : List Char} {init : List (List Char)}
    (h : segments path = init ++ [s]) (hi : isIdle s = false) :
    (∃ before, init = [] :: before ∧ split path = (['/'], before ++ [s]) ∧
      path.head? = some '/') ∨
    (∃ before, init = ['.'] :: before ∧ split path = (['.'], [] :: before ++ [s]) ∧
      path.head? = some '.') ∨
    (split path = ([], init ++ [s]) ∧ path.head? ≠ some '/') := by
  unfold split
  split
  · rename_i cs
    rw [segments_slash] at h
    cases init with
    | nil => exact absurd (List.cons.inj h).2 (segments_ne_nil cs)
    | cons a before =>
      obtain ⟨rfl, hs⟩ := List.cons.inj h
      exact .inl ⟨before, rfl, congrArg _ hs, rfl⟩
  · -- A dot alone names nothing.
    have hs : s = ['.'] := by
      cases init with
      | nil => exact (List.cons.inj h).1.symm
      | cons a init => exact absurd (List.cons.inj h).2.symm (by simp)
    rw [hs] at hi
    exact absurd hi (by decide)
  · rename_i cs
    have hc : segments ('.' :: '/' :: cs) = ['.'] :: segments cs := rfl
    rw [hc] at h
    cases init with
    | nil => exact absurd (List.cons.inj h).2 (segments_ne_nil cs)
    | cons a before =>
      obtain ⟨rfl, hs⟩ := List.cons.inj h
      refine .inr (.inl ⟨before, rfl, ?_, rfl⟩)
      rw [segments_slash, hs]
      rfl
  · rename_i hslash _ _
    refine .inr (.inr ⟨congrArg _ h, ?_⟩)
    intro hd
    obtain ⟨cs, rfl⟩ := List.head?_eq_some_iff.1 hd
    exact hslash cs rfl

theorem trimIdle_append_name {ss : List (List Char)} {s : List Char} (hi : isIdle s = false) :
    trimIdle (ss ++ [s]) = ss ++ [s] := by
  simp [trimIdle, hi]

/-- A last segment that names something is the last name. -/
theorem name?_of_segments {path s : List Char} {init : List (List Char)}
    (h : segments path = init ++ [s]) (hi : isIdle s = false) (hu : s ≠ up) :
    name? path = some s := by
  have hn : ∀ before, (split path).2 = before ++ [s] → name? path = some s := by
    intro before hs
    simp [name?, hs, trimIdle_append_name hi, hu]
  rcases split_of_segments h hi with ⟨before, _, hs, _⟩ | ⟨before, _, hs, _⟩ | ⟨hs, _⟩
  · exact hn before (congrArg Prod.snd hs)
  · exact hn ([] :: before) (congrArg Prod.snd hs)
  · exact hn init (congrArg Prod.snd hs)

end Path

namespace FileTree

variable {t : FileTree} {p q : Place} {ss : List (List Char)}

/-! ## Entries -/

/-- Dropping the entries of one place leaves what is found at the others. -/
theorem lookup_filter_of_ne (h : q ≠ p) (entries : List (Place × Entry)) :
    (entries.filter (·.1 != p)).lookup q = entries.lookup q := by
  induction entries with
  | nil => rfl
  | cons x entries ih =>
    obtain ⟨place, entry⟩ := x
    by_cases hx : place = p
    · have hq : (q == place) = false := by
        rw [beq_eq_false_iff_ne, hx]
        exact h
      rw [List.filter_cons_of_neg (by simp [hx]), List.lookup_cons, hq]
      exact ih
    · rw [List.filter_cons_of_pos (by simp [hx]), List.lookup_cons, List.lookup_cons, ih]

/-- What stands where after an entry is put at a place that is no directory. -/
theorem entryAt_put {e : Entry} (hp : t.entryAt p ≠ some .directory) :
    (t.put p e).entryAt q = if q = p then some e else t.entryAt q := by
  cases p with
  | nil => exact absurd rfl hp
  | cons name outer =>
    have hn : ¬(name = Path.up ∨ name = ['/']) := by
      intro hn
      exact hp (if_pos hn)
    by_cases hq : q = name :: outer
    · subst hq
      rw [if_pos rfl, entryAt_put_self hn]
    · rw [if_neg hq]
      cases q with
      | nil => rfl
      | cons name' outer' =>
        have hl : (t.put (name :: outer) e).entries.lookup (name' :: outer') =
            t.entries.lookup (name' :: outer') := by
          rw [put, List.lookup_cons, beq_eq_false_iff_ne.2 hq]
          exact lookup_filter_of_ne hq t.entries
        rw [entryAt, entryAt, hl]

theorem enter_eq_ok_iff : t.enter p = .ok () ↔ t.entryAt p = some .directory := by
  unfold enter
  split
  · rename_i h
    simp [h]
  · rename_i h
    simp [h]
  · rename_i h
    simp [h]

/-! ## Walks -/

theorem walk_cons_eq_ok_iff {s : List Char} :
    t.walk p (s :: ss) = .ok q ↔
      t.entryAt p = some .directory ∧ ∃ r, step p s = .ok r ∧ t.walk r ss = .ok q := by
  rw [walk, bind_eq_ok_iff, ← enter_eq_ok_iff]
  simp only [bind_eq_ok_iff]
  constructor
  · rintro ⟨_, hd, hr⟩
    exact ⟨hd, hr⟩
  · rintro ⟨hd, hr⟩
    exact ⟨(), hd, hr⟩

theorem eq_descend_of_step {s : List Char} (h : step p s = .ok q) : q = p.descend s := by
  unfold step at h
  split at h
  · exact (Except.ok.inj h).symm
  · exact absurd h (by simp)

/-- A walk leads where the segments say. -/
theorem eq_foldl_of_walk (h : t.walk p ss = .ok q) : q = ss.foldl Place.descend p := by
  induction ss generalizing p with
  | nil => exact (Except.ok.inj h).symm
  | cons s ss ih =>
    obtain ⟨_, r, hr, hw⟩ := walk_cons_eq_ok_iff.1 h
    rw [ih hw, eq_descend_of_step hr]
    rfl

theorem walk_concat_eq_ok_iff {s : List Char} :
    t.walk p (ss ++ [s]) = .ok q ↔
      ∃ r, t.walk p ss = .ok r ∧ t.entryAt r = some .directory ∧ step r s = .ok q := by
  induction ss generalizing p with
  | nil =>
    rw [List.nil_append, walk_cons_eq_ok_iff]
    constructor
    · rintro ⟨hd, r, hr, hq⟩
      exact ⟨p, rfl, hd, hr.trans (congrArg Except.ok (Except.ok.inj hq))⟩
    · rintro ⟨r, hr, hd, hq⟩
      obtain rfl := Except.ok.inj hr
      exact ⟨hd, q, hq, rfl⟩
  | cons a ss ih =>
    rw [List.cons_append, walk_cons_eq_ok_iff]
    constructor
    · rintro ⟨hd, b, hb, hw⟩
      obtain ⟨r, hr, hrest⟩ := ih.1 hw
      exact ⟨r, walk_cons_eq_ok_iff.2 ⟨hd, b, hb, hr⟩, hrest⟩
    · rintro ⟨r, hr, hrest⟩
      obtain ⟨hd, b, hb, hw⟩ := walk_cons_eq_ok_iff.1 hr
      exact ⟨hd, b, hb, ih.2 ⟨r, hw, hrest⟩⟩

/-- A walk goes the same way in every tree that has the directories of the first. -/
theorem walk_of_directories {u : FileTree}
    (hd : ∀ r, t.entryAt r = some .directory → u.entryAt r = some .directory)
    (h : t.walk p ss = .ok q) : u.walk p ss = .ok q := by
  induction ss generalizing p with
  | nil => exact h
  | cons s ss ih =>
    obtain ⟨hp, r, hr, hw⟩ := walk_cons_eq_ok_iff.1 h
    exact walk_cons_eq_ok_iff.2 ⟨hd p hp, r, hr, ih hw⟩

/-- All places around a place are directories. -/
def Housed (t : FileTree) (p : Place) : Prop :=
  ∀ outer, outer <:+ p → outer ≠ p → t.entryAt outer = some .directory

theorem housed_cons {name : List Char} (hp : t.Housed p) (hd : t.entryAt p = some .directory) :
    t.Housed (name :: p) := by
  intro outer ho hne
  rcases List.suffix_cons_iff.1 ho with rfl | ho
  · exact absurd rfl hne
  · by_cases he : outer = p
    · rw [he, hd]
    · exact hp outer ho he

theorem housed_tail {name : List Char} (h : t.Housed (name :: p)) : t.Housed p := by
  intro outer ho hne
  apply h outer (ho.trans (List.suffix_cons name p))
  rintro rfl
  exact absurd ho.length_le (by simp)

/-- Above a directory are directories only. -/
theorem housed_above (hp : t.Housed p) (hd : t.entryAt p = some .directory) :
    t.Housed p.above ∧ t.entryAt p.above = some .directory := by
  cases p with
  | nil => exact ⟨housed_cons hp hd, rfl⟩
  | cons name outer =>
    rw [Place.above]
    split
    · exact ⟨housed_cons hp hd, by simp [entryAt]⟩
    · split
      · exact ⟨hp, hd⟩
      · refine ⟨housed_tail hp, hp outer (List.suffix_cons name outer) ?_⟩
        intro he
        exact absurd (congrArg List.length he) (by simp)

theorem housed_descend {s : List Char} (hp : t.Housed p) (hd : t.entryAt p = some .directory) :
    t.Housed (p.descend s) := by
  unfold Place.descend
  split
  · exact hp
  · split
    · exact (housed_above hp hd).1
    · exact housed_cons hp hd

theorem housed_of_walk (hp : t.Housed p) (h : t.walk p ss = .ok q) : t.Housed q := by
  induction ss generalizing p with
  | nil => exact Except.ok.inj h ▸ hp
  | cons s ss ih =>
    obtain ⟨hd, r, hr, hw⟩ := walk_cons_eq_ok_iff.1 h
    apply ih ?_ hw
    rw [eq_descend_of_step hr]
    exact housed_descend hp hd

theorem housed_ofLead (path : List Char) : t.Housed (Place.ofLead path) := by
  unfold Place.ofLead
  split
  · intro outer ho hne
    rcases List.suffix_cons_iff.1 ho with rfl | ho
    · exact absurd rfl hne
    · rw [List.suffix_nil.1 ho]
      rfl
  · intro outer ho hne
    exact absurd (List.suffix_nil.1 ho) hne

/-! ## Where a path leads -/

/-- A path can be followed to a place, whatever stands there. -/
structure Leads (t : FileTree) (path : List Char) (p : Place) : Prop where
  check : checkPath path = .ok ()
  walk : t.walk (Place.ofLead path) (Path.segments path) = .ok p

variable {path : List Char}

theorem Leads.eq_ofPath (h : t.Leads path p) : p = Place.ofPath path := eq_foldl_of_walk h.walk

/-- A path to something that is no directory ends with a name: its last segment is neither idle nor
a step up, and it is the name of the place. -/
theorem Leads.exists_name (h : t.Leads path p) (hp : t.entryAt p ≠ some .directory) :
    ∃ name outer init, p = name :: outer ∧ Path.name? path = some name ∧
      Path.segments path = init ++ [name] ∧ Path.isIdle name = false ∧ name ≠ Path.up := by
  obtain ⟨init, s, hs⟩ : ∃ init s, Path.segments path = init ++ [s] :=
    ⟨_, _, (List.dropLast_concat_getLast (Path.segments_ne_nil path)).symm⟩
  have hw := h.walk
  rw [hs] at hw
  obtain ⟨r, hr, hd, hstep⟩ := walk_concat_eq_ok_iff.1 hw
  have hh : t.Housed r := housed_of_walk (housed_ofLead path) hr
  have hq := eq_descend_of_step hstep
  -- An idle segment stays in the directory and a step up leads to one.
  have hi : Path.isIdle s = false := by
    rw [← Bool.not_eq_true]
    intro hi
    rw [Place.descend, if_pos hi] at hq
    exact hp (hq ▸ hd)
  have hu : s ≠ Path.up := by
    intro hu
    rw [Place.descend, if_neg (by simp [hi]), if_pos hu] at hq
    exact hp (hq ▸ (housed_above hh hd).2)
  rw [Place.descend, if_neg (by simp [hi]), if_neg hu] at hq
  exact ⟨s, r, init, hq, Path.name?_of_segments hs hi hu, hs, hi, hu⟩

/-- A path leads where it did once something is put where no directory was. -/
theorem Leads.put {e : Entry} (h : t.Leads path q) (hp : t.entryAt p ≠ some .directory) :
    (t.put p e).Leads path q := by
  refine ⟨h.check, walk_of_directories ?_ h.walk⟩
  intro r hr
  have hne : r ≠ p := by
    rintro rfl
    exact hp hr
  rw [entryAt_put hp, if_neg hne, hr]

/-! ## Reading and writing -/

variable {text other : String} {bytes contents : List UInt8} {u : FileTree} {medium : Medium}

theorem find_eq_ok_iff {e : Entry} :
    t.find path = .ok e ↔ ∃ p, t.Leads path p ∧ t.entryAt p = some e := by
  simp only [find, bind_eq_ok_iff]
  constructor
  · rintro ⟨_, hc, p, hw, he⟩
    refine ⟨p, ⟨hc, hw⟩, ?_⟩
    split at he
    · exact absurd he (by simp)
    · rename_i e' he'
      rw [he', Except.ok.inj he]
  · rintro ⟨p, hl, he⟩
    refine ⟨(), hl.check, p, hl.walk, ?_⟩
    rw [he]

/-- What is read is the file where the path leads. -/
theorem read_eq_ok_iff :
    t.read text = .ok bytes ↔
      ∃ p, t.Leads text.toList p ∧ t.entryAt p = some (.file bytes) := by
  rw [← find_eq_ok_iff, read]
  split
  · rename_i f h
    simp [h]
  · rename_i h
    simp [h]
  · rename_i contents h
    simp [h]

theorem withoutSlashes_of_getLast? (h : path.getLast? ≠ some '/') : withoutSlashes path = path := by
  apply List.rdropWhile_eq_self_iff.2
  intro hne hlast
  apply h
  rw [List.getLast?_eq_some_getLast hne, beq_iff_eq.1 hlast]

/-- A path that can be written to is followed like any other. -/
theorem leads_of_target (h : t.target path = .ok p) : t.Leads path p := by
  simp only [target, bind_eq_ok_iff] at h
  obtain ⟨_, hc, r, hw, _, hd, hs⟩ := h
  split at hs
  · exact absurd hs (by simp)
  · rename_i hlast
    rw [withoutSlashes_of_getLast? hlast] at hw hs
    have hne := Path.segments_ne_nil path
    rw [List.getLast?_eq_some_getLast hne] at hs
    refine ⟨hc, ?_⟩
    rw [← List.dropLast_concat_getLast hne]
    exact walk_concat_eq_ok_iff.2 ⟨r, hw, enter_eq_ok_iff.1 hd, hs⟩

/-- A file is opened at the place where the path leads, which was no directory, and it is empty
then. -/
theorem create_eq_ok (h : t.create text = .ok (p, u)) :
    t.Leads text.toList p ∧ t.entryAt p ≠ some .directory ∧ u = t.put p (.file []) := by
  unfold create at h
  split at h
  · exact absurd h (by simp)
  · rename_i q hq
    split at h
    · exact absurd h (by simp)
    · rename_i hd
      obtain ⟨rfl, rfl⟩ := Prod.mk.inj (Except.ok.inj h)
      exact ⟨leads_of_target hq, hd, rfl⟩

/-- A write puts the bytes at the place where the path leads, which was no directory. -/
theorem exists_of_write (h : t.write text bytes medium = .ok u) :
    ∃ p, t.Leads text.toList p ∧ t.entryAt p ≠ some .directory ∧ u = t.put p (.file bytes) := by
  unfold write at h
  split at h
  · exact absurd h (by simp)
  · rename_i p opened hc
    obtain ⟨hl, hp, rfl⟩ := create_eq_ok hc
    refine ⟨p, hl, hp, ?_⟩
    unfold fill at h
    split at h
    · rw [← Except.ok.inj h, put_put]
    · exact absurd h (by simp)

/-- **What a failed write leaves.**  The file could not be opened and nothing has changed, or the
medium broke the write off and the first bytes are at the place where the path leads. -/
theorem cases_of_write_error {cause : String} (h : t.write text bytes medium = .error (cause, u)) :
    u = t ∨ ∃ p i, t.Leads text.toList p ∧ t.entryAt p ≠ some .directory ∧
      medium p bytes = some i ∧ u = t.put p (.file (bytes.take i.written)) := by
  unfold write at h
  split at h
  · exact .inl (Prod.mk.inj (Except.error.inj h)).2.symm
  · rename_i p opened hc
    obtain ⟨hl, hp, rfl⟩ := create_eq_ok hc
    unfold fill at h
    split at h
    · exact absurd h (by simp)
    · rename_i i hi
      refine .inr ⟨p, i, hl, hp, hi, ?_⟩
      rw [← (Prod.mk.inj (Except.error.inj h)).2, put_put]

/-- A disk that is full after two bytes: the file has lost what it held. -/
example :
    (FileTree.mk [(["q".toList], .file [7])]).write "q" [1, 2, 3] (fun _ _ => some ⟨2, "full"⟩) =
      .error ("full", ⟨[(["q".toList], .file [1, 2])]⟩) := rfl

/-- **What was written is read back.** -/
theorem read_write_self (h : t.write text bytes medium = .ok u) : u.read text = .ok bytes := by
  obtain ⟨p, hl, hp, rfl⟩ := exists_of_write h
  refine read_eq_ok_iff.2 ⟨p, hl.put hp, ?_⟩
  rw [entryAt_put hp, if_pos rfl]

/-- **A write changes what is read at its own place and nothing else.**  Two paths name one file
exactly if they name one place. -/
theorem read_write (h : t.write text bytes medium = .ok u) (hr : t.read other = .ok contents) :
    u.read other =
      .ok (if Place.ofPath other.toList = Place.ofPath text.toList then bytes else contents) := by
  obtain ⟨p, hl, hp, rfl⟩ := exists_of_write h
  obtain ⟨q, hlq, hq⟩ := read_eq_ok_iff.1 hr
  refine read_eq_ok_iff.2 ⟨q, hlq.put hp, ?_⟩
  rw [entryAt_put hp, hq, ← hl.eq_ofPath, ← hlq.eq_ofPath]
  split
  · rfl
  · rfl

/-- **A file with another last name keeps its bytes.** -/
theorem read_write_of_name_ne (h : t.write text bytes medium = .ok u)
    (hn : Path.name? other.toList ≠ Path.name? text.toList) (hr : t.read other = .ok contents) :
    u.read other = .ok contents := by
  obtain ⟨p, hl, hp, rfl⟩ := exists_of_write h
  obtain ⟨q, hlq, hq⟩ := read_eq_ok_iff.1 hr
  obtain ⟨name, outer, _, rfl, hname, _⟩ := hl.exists_name hp
  obtain ⟨name', outer', _, rfl, hname', _⟩ := hlq.exists_name (by rw [hq]; simp)
  have hne : name' :: outer' ≠ name :: outer := by
    intro he
    rw [hname, hname', (List.cons.inj he).1] at hn
    exact hn rfl
  refine read_eq_ok_iff.2 ⟨_, hlq.put hp, ?_⟩
  rw [entryAt_put hp, if_neg hne, hq]

end FileTree

end StackMachine.Command
