/-!
# Paths

File names as texts.  A path is a lead, which is a slash for an absolute path or a dot for one that
starts at the directory at hand, and segments between slashes.  Empty segments and dots after the
lead name nothing, so that `d//./p.asm/` has the same last name and the same parent as `d/p.asm`.

The extension of a name is what follows its last dot, unless that dot comes first.
-/

namespace StackMachine.Command.Path

/-- The segment that leads to the directory above. -/
def up : List Char := ['.', '.']

/-- The segments of a text between slashes, the empty ones included. -/
def segments : List Char → List (List Char)
  | [] => [[]]
  | c :: cs =>
    if c = '/' then [] :: segments cs
    else
      match segments cs with
      | [] => [[c]]
      | s :: ss => (c :: s) :: ss

/-- Segments with slashes between them. -/
def join : List (List Char) → List Char
  | [] => []
  | [s] => s
  | s :: t :: ss => s ++ '/' :: join (t :: ss)

/-- The lead of a path and the segments after it. -/
def split : List Char → List Char × List (List Char)
  | '/' :: cs => (['/'], segments cs)
  | ['.'] => (['.'], [])
  | '.' :: '/' :: cs => (['.'], segments ('/' :: cs))
  | cs => ([], segments cs)

/-- A segment that names nothing. -/
def isIdle (s : List Char) : Bool := s == [] || s == ['.']

/-- Segments up to the last one that names something. -/
def trimIdle (ss : List (List Char)) : List (List Char) := (ss.reverse.dropWhile isIdle).reverse

/-- The directory that holds what a path names; a root and an empty path have none. -/
def parent? (path : List Char) : Option (List Char) :=
  let (lead, ss) := split path
  match (trimIdle ss).reverse with
  | _ :: before => some (lead ++ join (trimIdle before.reverse))
  | [] => if lead = ['.'] then some [] else none

/-- The last name of a path, unless the path ends with a step up. -/
def name? (path : List Char) : Option (List Char) :=
  match (trimIdle (split path).2).reverse with
  | s :: _ => if s = up then none else some s
  | [] => none

/-- A name cut at the last dot that is not its first character. -/
def splitExtension (name : List Char) : List Char × Option (List Char) :=
  let extension := (name.reverse.takeWhile (· != '.')).reverse
  let stem := (name.reverse.dropWhile (· != '.')).drop 1
  if stem.isEmpty then (name, none) else (stem.reverse, some extension)

/-- The last name of a path without its extension. -/
def stem? (path : List Char) : Option (List Char) := (name? path).map (splitExtension · |>.1)

/-- The extension of the last name of a path. -/
def extension? (path : List Char) : Option (List Char) := (name? path).bind (splitExtension · |>.2)

/-- The path of a name in a directory. -/
def within (directory name : List Char) : List Char :=
  if directory.isEmpty then name
  else if directory.getLast? = some '/' then directory ++ name
  else directory ++ '/' :: name

/-- Joining the segments of a text gives the text. -/
theorem join_segments (cs : List Char) : join (segments cs) = cs := by
  induction cs with
  | nil => rfl
  | cons c cs ih =>
    by_cases h : c = '/'
    · subst h
      rw [segments, if_pos rfl]
      cases hs : segments cs with
      | nil =>
        rw [hs] at ih
        cases cs with
        | nil => simp [segments] at hs
        | cons d ds => simp [join] at ih
      | cons s ss =>
        rw [hs] at ih
        rw [join, ih, List.nil_append]
    · rw [segments, if_neg h]
      cases hs : segments cs with
      | nil =>
        rw [hs] at ih
        simp only [join] at ih ⊢
        rw [← ih]
      | cons s ss =>
        rw [hs] at ih
        cases ss with
        | nil => simpa [join] using ih
        | cons t ts => simpa [join] using ih

end StackMachine.Command.Path
