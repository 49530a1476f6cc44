import Steplib.Diagnostic.Basic
import Steplib.ObjectType

/-!
# A disk in memory

A disk holds files and directories below its root. Absolute paths are followed from the root,
component by component; every component but the last one has to be a directory. A path that is not
absolute leads nowhere.

## Main definitions

* `Disk.find`: the place and the node that a path leads to.
* `Disk.read`: the text of a file, or why it cannot be read.
* `Disk.sourcePaths`, `Disk.libraryDirectories`: what a project finds in its directories.
-/

namespace Steplib

/-- What stands at a location of a disk. -/
inductive Node
  | directory
  /-- A file, with its text if its bytes are text. -/
  | file (text : Option String)
deriving DecidableEq, Repr

/-- The place of a node: the names that lead to it from the root. -/
abbrev Place := List String

/-- The files and directories below the root. -/
structure Disk where
  nodes : List (Place × Node) := []
deriving DecidableEq, Repr

namespace Disk

variable (d : Disk)

/-- The number of bytes that a name can have at most. -/
def longestName : Nat := 255

/-- The number of bytes that a path can have at most. -/
def longestPath : Nat := 4095

/-- The name is short enough for a disk. -/
def fits (name : String) : Bool :=
  Text.byteLength name.toList ≤ longestName

/-- The node at a place; the root is always there. -/
def node? (place : Place) : Option Node :=
  match place with
  | [] => some .directory
  | place => d.nodes.lookup place

/-- The place that is reached from a place by following components. -/
def follow (place : Place) : List Component → Except ReadError Place
  | [] => .ok place
  | c :: rest =>
    match d.node? place with
    | none => .error .notFound
    | some (.file _) => .error .notDirectory
    | some .directory =>
      match c with
      | .root => follow [] rest
      | .current => follow place rest
      | .parent => follow place.dropLast rest
      | .name name =>
        if fits name then follow (place ++ [name]) rest else .error .nameTooLong

/-- The path can be followed from the root at all: it is absolute, holds no NUL and is not too
long. -/
def check (p : Path) : Except ReadError Unit :=
  if p.text.toList.contains '\x00' then .error .nulInName
  else if longestPath < Text.byteLength p.text.toList then .error .nameTooLong
  else if p.isAbsolute then .ok ()
  else .error .notFound

/-- The path is spelled as that of a directory: with a slash, or a slash and a dot, at its end. -/
def asksForDirectory (p : Path) : Bool :=
  match (p.text.toList.splitOn '/').reverse with
  | [] :: _ :: _ | ['.'] :: _ :: _ => true
  | _ => false

/-- The path is spelled as the name of an entry of a directory: with a name at its end, and not
with one or two dots. -/
def namesEntry (p : Path) : Bool :=
  match (p.text.toList.splitOn '/').reverse.dropWhile List.isEmpty with
  | [] | ['.'] :: _ | ['.', '.'] :: _ => false
  | _ => true

/-- The place and the node that a path leads to. -/
def find (p : Path) : Except ReadError (Place × Node) := do
  check p
  let place ← d.follow [] p.components
  match d.node? place with
  | none => throw .notFound
  | some .directory => return (place, .directory)
  | some node => if asksForDirectory p then throw .notDirectory else return (place, node)

/-- The path leads to a directory. -/
def isDirectory (p : Path) : Bool :=
  match d.find p with
  | .ok (_, .directory) => true
  | _ => false

/-- The path leads to a file. -/
def isFile (p : Path) : Bool :=
  match d.find p with
  | .ok (_, .file _) => true
  | _ => false

/-- The text of the file that a path leads to. -/
def read (p : Path) : Except ReadError String :=
  match d.find p with
  | .error e => .error e
  | .ok (_, .directory) => .error .isDirectory
  | .ok (_, .file none) => .error .notText
  | .ok (_, .file (some text)) => .ok text

/-- The disk with the node at a place set. -/
def set (place : Place) (node : Node) : Disk :=
  ⟨d.nodes.filter (·.1 != place) ++ [(place, node)]⟩

/-- The disk with the directories made that lead from a place along the components, and the place
at their end; nothing if a file is in the way or a name too long. -/
def makeDirectories (d : Disk) (place : Place) : List Component → Option (Disk × Place)
  | [] => some (d, place)
  | .root :: rest => makeDirectories d [] rest
  | .current :: rest => makeDirectories d place rest
  | .parent :: rest => makeDirectories d place.dropLast rest
  | .name name :: rest =>
    let next := place ++ [name]
    match d.node? next with
    | some .directory => makeDirectories d next rest
    | some (.file _) => none
    | none => if fits name then makeDirectories (d.set next .directory) next rest else none

/-- The disk with the directories made in which a path lies, and the place that the path then
leads to. -/
def prepare (p : Path) : Option (Disk × Place) :=
  match check p, p.components.reverse with
  | .ok _, .name name :: front =>
    if fits name then
      (d.makeDirectories [] front.reverse).map fun (d, place) => (d, place ++ [name])
    else none
  | _, _ => none

/-- The disk with a directory at a path, together with the directories above it. -/
def makeDirectory (p : Path) : Disk :=
  match check p with
  | .ok _ => ((d.makeDirectories [] p.components).map (·.1)).getD d
  | .error _ => d

/-- The disk with a file put at a path, together with the directories above it. A file replaces a
file, but no directory, and is not put where a directory is asked for. -/
def writeFile (p : Path) (text : Option String) : Disk :=
  match d.prepare p with
  | none => d
  | some (d, place) =>
    match d.node? place with
    | some .directory => d
    | _ => if asksForDirectory p then d else d.set place (.file text)

/-- The disk with a node put at a path, together with the directories above it. -/
def write (p : Path) : Node → Disk
  | .directory => d.makeDirectory p
  | .file text => d.writeFile p text

/-- The disk without what a path leads to and everything below it. A directory that the path does
not name as an entry is emptied, but stays. -/
def remove (p : Path) : Disk :=
  match d.find p with
  | .error _ => d
  | .ok (place, _) =>
    ⟨d.nodes.filter fun e => !place.isPrefixOf e.1 || (e.1 == place && !namesEntry p)⟩

/-- The disk with everything at or below one place moved to another. -/
def relocate (place target : Place) : Disk :=
  ⟨d.nodes.map fun (here, node) =>
    (if place.isPrefixOf here then target ++ here.drop place.length else here, node)⟩

/-- Something can be moved to a place: a file replaces a file, a directory an empty directory. -/
def accepts (node : Node) (place target : Place) : Bool :=
  match node, d.node? target with
  | .file _, some .directory => false
  | .directory, some (.file _) => false
  | .directory, _ =>
    !place.isPrefixOf target && !d.nodes.any fun e => e.1 != target && target.isPrefixOf e.1
  | .file _, _ => true

/-- The disk with what stands at `p` moved to `target`; the directories above `target` are
made. Only entries are moved, and a file only to where a file can stand. -/
def move (p target : Path) : Disk :=
  match d.prepare target with
  | none => d
  | some (d, dest) =>
    match d.find p with
    | .error _ => d
    | .ok (place, node) =>
      if place != dest && namesEntry p && namesEntry target &&
          (node == .directory || !asksForDirectory target) && d.accepts node place dest then
        Disk.relocate ⟨d.nodes.filter (·.1 != dest)⟩ place dest
      else d

/-- The places of the files below a place, each as seen from there. -/
def filesBelow (place : Place) : List Place :=
  (d.nodes.filter fun e => e.2 != .directory && place.isPrefixOf e.1).map fun e =>
    e.1.drop place.length

/-- The names of the directories directly in a place. -/
def directoriesIn (place : Place) : List String :=
  (d.nodes.filter fun e => e.2 == .directory && e.1.dropLast == place).filterMap (·.1.getLast?)

/-- The paths of the files at or below `dir`. -/
def filePaths (dir : Path) : List Path :=
  match d.find dir with
  | .error _ => []
  | .ok (_, .file _) => [dir]
  | .ok (place, .directory) => (d.filesBelow place).map (·.foldl Path.child dir)

/-- The paths of the Natural sources at or below `dir`, in path order. -/
def sourcePaths (dir : Path) : List Path :=
  ((d.filePaths dir).filter fun p => (ObjectType.ofPath? p).isSome).mergeSort
    fun p q => (compare p q).isLE

/-- The directories directly in `dir`, each with its name in upper case, ordered by that name and
then by path. -/
def libraryDirectories (dir : Path) : List (String × Path) :=
  let names :=
    match d.find dir with
    | .ok (place, .directory) => d.directoriesIn place
    | _ => []
  (names.map fun name => (Ascii.upper name, dir.child name)).mergeSort
    fun a b => (compareLex (compareOn Prod.fst) (compareOn Prod.snd) a b).isLE

end Disk

end Steplib
