import StackMachine.Command.Path
import StackMachine.Text.Utf8

/-!
# File trees

The files and directories that a program finds.  A place is a list of names, innermost first,
counted from the directory where the program starts; that directory, the directories above it and
the root are there in every tree.

A path is followed segment by segment, and every segment but the last must lead to a directory.  A
path and the names in it have a largest number of bytes.  The first step that fails is what a failed
access reports.

A file is written in two steps: it is opened, which makes it or empties it, and then the bytes are
put into it.  The medium can break off the second step.  The first bytes are in the file then, and
what it held before is lost.

Trees are an idealisation.  There are files and directories only: no links, and no devices, so that
no path names one of the streams of a program.  Nobody else changes a tree meanwhile, and there are
no permissions: what is there can be read, and a place for a file can be opened for writing.
-/

namespace StackMachine.Command

/-- Why a path cannot be read or written. -/
inductive FileFault where
  | missing
  | notDirectory
  | isDirectory
  | nameTooLong
deriving DecidableEq, Repr

/-- The report of a fault. -/
def FileFault.message : FileFault → String
  | missing => "No such file or directory (os error 2)"
  | notDirectory => "Not a directory (os error 20)"
  | isDirectory => "Is a directory (os error 21)"
  | nameTooLong => "File name too long (os error 36)"

/-- Names from a place outwards to where the program starts, or to the root. -/
abbrev Place := List (List Char)

namespace Place

/-- The place where the program starts. -/
def start : Place := []

/-- The root of absolute paths. -/
def root : Place := [['/']]

/-- The place above. -/
def above : Place → Place
  | [] => [Path.up]
  | name :: outer =>
    if name = Path.up then Path.up :: name :: outer
    else if name = ['/'] then name :: outer
    else outer

/-- The place that a segment leads to. -/
def descend (p : Place) (segment : List Char) : Place :=
  if Path.isIdle segment then p else if segment = Path.up then p.above else segment :: p

/-- The place where a path starts. -/
def ofLead (path : List Char) : Place := if path.head? = some '/' then root else start

/-- The place that a path names, whatever is there. -/
def ofPath (path : List Char) : Place := (Path.segments path).foldl descend (ofLead path)

/-- A place above the start, or the root. -/
def isOutside (p : Place) : Bool :=
  match p.getLast? with
  | some name => name == Path.up || name == ['/']
  | none => false

/-- The path of a place from the start. -/
def text (p : Place) : List Char := Path.join p.reverse

end Place

/-- What stands at a place. -/
inductive Entry where
  | directory
  | file (bytes : List UInt8)
deriving DecidableEq, Repr

/-- What stands at which place; the first entry of a place counts. -/
structure FileTree where
  entries : List (Place × Entry)

/-- How a write breaks off: after so many bytes, for a cause that is reported. -/
structure Interruption where
  written : Nat
  cause : String
deriving DecidableEq, Repr

/-- What a medium does with bytes that are written at a place: it takes them all, or it breaks
off. -/
abbrev Medium := Place → List UInt8 → Option Interruption

namespace Medium

/-- A medium that takes everything. -/
def ample : Medium := fun _ _ => none

/-- The assumption that no write breaks off: no disk is full and no quota is used up. -/
def HasRoom (medium : Medium) : Prop := ∀ p bytes, medium p bytes = none

theorem hasRoom_ample : ample.HasRoom := fun _ _ => rfl

end Medium

namespace FileTree

/-- A tree without files. -/
def empty : FileTree := ⟨[]⟩

/-- What stands at a place.  The start, the places above it and the root are directories. -/
def entryAt (t : FileTree) (p : Place) : Option Entry :=
  match p with
  | [] => some .directory
  | name :: _ => if name = Path.up ∨ name = ['/'] then some .directory else t.entries.lookup p

/-- The tree with an entry put at a place. -/
def put (t : FileTree) (p : Place) (e : Entry) : FileTree :=
  ⟨(p, e) :: t.entries.filter (·.1 != p)⟩

/-- The tree with a directory at a place and at all places around it. -/
def makeDirectory (t : FileTree) : Place → FileTree
  | [] => t
  | name :: outer =>
    let t' := t.makeDirectory outer
    match t'.entryAt (name :: outer) with
    | some _ => t'
    | none => t'.put (name :: outer) .directory

/-- The tree with a directory at a path. -/
def addDirectory (t : FileTree) (path : String) : FileTree :=
  t.makeDirectory (Place.ofPath path.toList)

/-- The tree with a file at a path, and with the directories that lead to it. -/
def addFile (t : FileTree) (path : String) (bytes : List UInt8) : FileTree :=
  let p := Place.ofPath path.toList
  (t.makeDirectory (p.drop 1)).put p (.file bytes)

/-- The number of bytes that a name may have. -/
def maxName : Nat := 255

/-- The number of bytes that a path may have. -/
def maxPath : Nat := 4095

/-- Ask for a directory at a place. -/
def enter (t : FileTree) (p : Place) : Except FileFault Unit :=
  match t.entryAt p with
  | none => .error .missing
  | some (.file _) => .error .notDirectory
  | some .directory => .ok ()

/-- The place that a segment leads to from a directory. -/
def step (p : Place) (segment : List Char) : Except FileFault Place :=
  if Text.Utf8.width segment ≤ maxName then .ok (p.descend segment) else .error .nameTooLong

/-- Follow segments from a place; each must start at a directory. -/
def walk (t : FileTree) (p : Place) : List (List Char) → Except FileFault Place
  | [] => .ok p
  | segment :: rest => do
    t.enter p
    t.walk (← step p segment) rest

/-- Ask for a path that is not empty and not too long. -/
def checkPath (path : List Char) : Except FileFault Unit :=
  if path.isEmpty then .error .missing
  else if Text.Utf8.width path ≤ maxPath then .ok ()
  else .error .nameTooLong

/-- The entry that a path names. -/
def find (t : FileTree) (path : List Char) : Except FileFault Entry := do
  checkPath path
  let p ← t.walk (Place.ofLead path) (Path.segments path)
  match t.entryAt p with
  | none => .error .missing
  | some e => .ok e

/-- Whether a path names a file or a directory. -/
def isPresent (t : FileTree) (path : String) : Bool := (t.find path.toList).isOk

/-- The bytes of the file that a path names. -/
def read (t : FileTree) (path : String) : Except FileFault (List UInt8) :=
  match t.find path.toList with
  | .error f => .error f
  | .ok .directory => .error .isDirectory
  | .ok (.file bytes) => .ok bytes

/-- A path without the slashes at its end. -/
def withoutSlashes (path : List Char) : List Char := (path.reverse.dropWhile (· == '/')).reverse

/-- The place where a path asks for a file.  A path that ends with a slash asks for a directory. -/
def target (t : FileTree) (path : List Char) : Except FileFault Place := do
  checkPath path
  let segments := Path.segments (withoutSlashes path)
  let p ← t.walk (Place.ofLead path) segments.dropLast
  t.enter p
  if path.getLast? = some '/' then .error .isDirectory
  else step p (segments.getLast?.getD [])

/-- Open the file that a path names for writing.  It need not be there yet, and it is empty then. -/
def create (t : FileTree) (path : String) : Except FileFault (Place × FileTree) :=
  match t.target path.toList with
  | .error f => .error f
  | .ok p =>
    match t.entryAt p with
    | some .directory => .error .isDirectory
    | _ => .ok (p, t.put p (.file []))

/-- Put bytes into a file that was opened, or as many as the medium takes before it breaks off.  The
tree that is left is part of the failure. -/
def fill (t : FileTree) (p : Place) (bytes : List UInt8) (medium : Medium) :
    Except (String × FileTree) FileTree :=
  match medium p bytes with
  | none => .ok (t.put p (.file bytes))
  | some i => .error (i.cause, t.put p (.file (bytes.take i.written)))

/-- Write bytes into the file that a path names, on a medium. -/
def write (t : FileTree) (path : String) (bytes : List UInt8) (medium : Medium) :
    Except (String × FileTree) FileTree :=
  match t.create path with
  | .error f => .error (f.message, t)
  | .ok (p, opened) => opened.fill p bytes medium

/-- The files of a tree that another tree lacks or holds with other bytes, by path. -/
def changes (before after : FileTree) : List (String × List UInt8) :=
  after.entries.filterMap fun (p, e) =>
    match e with
    | .directory => none
    | .file bytes =>
      if p.isOutside || before.entryAt p == some e then none
      else some (String.ofList p.text, bytes)

@[simp] theorem entryAt_put_self {t : FileTree} {name : List Char} {outer : Place} {e : Entry}
    (h : ¬(name = Path.up ∨ name = ['/'])) :
    (t.put (name :: outer) e).entryAt (name :: outer) = some e := by
  simp [put, entryAt, h]

/-- Of two entries that are put at one place, the second counts. -/
@[simp] theorem put_put (t : FileTree) (p : Place) (e e' : Entry) :
    (t.put p e).put p e' = t.put p e' := by
  simp [put]

end FileTree

end StackMachine.Command
