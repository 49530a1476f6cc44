import Steplib.Graph.ReferenceCache
import Steplib.Graph.Waiting
import Steplib.Library
import Steplib.Severity.Rules
import Steplib.Workspace.File

/-!
# Workspaces

A workspace is a project at work: its libraries, its module files and the graph of references
between them. A reference is an edge between two files, recorded at both of its ends.

## Main definitions

* `Workspace.resolve?`: the file that a name stands for, as seen from a library.
* `Workspace.setOutgoing`: replacing the references of a file at both ends.
-/

namespace Steplib

/-- A project at work. -/
structure Workspace where
  root : Path
  /-- The libraries in project order, with distinct names. -/
  libraries : List Library := []
  /-- The files of the project. -/
  files : PathMap ModuleFile := .empty
  /-- The references that are known from scans only. -/
  cache : ReferenceCache := {}
  /-- The files waiting for names that no module carries. -/
  waiting : WaitingIndex := {}
  /-- Where the parser is known to fail. -/
  faults : ParserFaults := {}
  severity : SeverityRules

namespace Workspace

/-- The workspace without libraries and files. -/
def empty (root : Path) (faults : ParserFaults) : Workspace :=
  { root, faults, severity := { root } }

variable (ws : Workspace)

/-- The file at a path. -/
def file? (p : Path) : Option ModuleFile :=
  ws.files.get? p

/-- The workspace with the file at a path changed. -/
def modifyFile (p : Path) (change : ModuleFile → ModuleFile) : Workspace :=
  { ws with files := ws.files.modify p change }

/-- The library with exactly the given name. -/
def libraryNamed? (name : String) : Option Library :=
  ws.libraries.find? (·.name == name)

/-- The library with the given name, in any letter case. -/
def library? (name : String) : Option Library :=
  ws.libraryNamed? (Ascii.upper name)

/-- The workspace with one more library, unless there is one of its name. -/
def addLibrary (name : String) (sourcePath : Path) (steplibs : List String) : Workspace :=
  if (ws.library? name).isSome then ws
  else { ws with libraries := ws.libraries ++ [Library.make name sourcePath steplibs] }

/-- The workspace with a library changed. -/
def modifyLibrary (name : String) (change : Library → Library) : Workspace :=
  { ws with
    libraries := ws.libraries.map fun l =>
      if l.name == Ascii.upper name then change l else l }

/-- The file that holds a name as seen from a library: the first one along the library's search
order. Libraries of that order which the project does not have are passed over. -/
def resolve? (library name : String) : Option Holder :=
  (ws.library? library).bind fun l =>
    l.chain.findSome? fun steplib => (ws.libraryNamed? steplib).bind (·.module? name)

/-- The first file that holds a name, over all libraries in project order. -/
def holderOf? (name : String) : Option Holder :=
  ws.libraries.findSome? (·.module? name)

/-- The library in whose directory a path lies: of several the one with the deepest directory,
and the last of those. -/
def libraryForPath? (p : Path) : Option Library :=
  (ws.libraries.filter fun l => p.startsWith l.sourcePath).foldl
    (fun best l =>
      match best with
      | some b =>
        if b.sourcePath.components.length ≤ l.sourcePath.components.length then some l else best
      | none => some l)
    none

/-- The paths of the files that the names stand for, as seen from a library, without `self`. -/
def destinations (library : String) (self : Path) (names : List String) : List Path :=
  names.filterMap fun name =>
    (ws.resolve? library name).bind fun holder =>
      if holder.path.same self then none else some holder.path

/-- The names that stand for no file, as seen from a library. -/
def unresolved (library : String) (names : List String) : List String :=
  names.filter fun name => (ws.resolve? library name).isNone

/-- The workspace in which the file at `p` refers to exactly the given files. The files it has
referred to before and those it refers to now are told. -/
def setOutgoing (p : Path) (targets : PathSet) : Workspace :=
  match ws.file? p with
  | none => ws
  | some file =>
    { ws with
      files := ws.files.map fun q f =>
        { f with
          outgoing := if q.same p then targets else f.outgoing
          incoming :=
            if targets.contains q then f.incoming.insert file.path
            else if file.outgoing.contains q then f.incoming.erase file.path
            else f.incoming } }

/-- The workspace with the references of a file set from the names it refers to: an edge for
every name that stands for another file, and a wait for every name that stands for none. -/
def setReferences (file : ModuleFile) (names : List String) : Workspace :=
  let targets := PathSet.ofList (ws.destinations file.library file.path names)
  let unresolved := ws.unresolved file.library names
  let ws := ws.setOutgoing file.path targets
  { ws with waiting := ws.waiting.replace file.path unresolved }

end Workspace

end Steplib
