import Steplib.Workspace.Index
import Steplib.Workspace.Lifecycle

/-!
# Files that come and go

A file that appears is scanned, and the files that were waiting for its name are brought up to
date. A file that disappears leaves no trace: its callers lose their edge to it, wait for its name
and become stale.

## Main definitions

* `Workspace.addFile`: a file becomes part of the project.
* `Workspace.createFile`: a file is added and those that waited for its name are told.
* `Workspace.deleteFile`, `Workspace.renameFile`: a file leaves the project or moves in it.
-/

namespace Steplib

namespace Workspace

variable (sources : Sources) (ws : Workspace)

/-- The module file that a path inside a library stands for. -/
def newFile? (p : Path) : Option ModuleFile := do
  let type ← ObjectType.ofPath? p
  let library ← ws.libraryForPath? p
  return { path := p, library := library.name, type, name := Ascii.upper (p.stem?.getD "") }

/-- The workspace with a file added, and the file: the one that was there before if there was one.
Paths that are no Natural source or lie in no library are refused. A file that is named by its
stem claims its name at once; the others do when they are scanned. -/
def addFile (p : Path) : Option ModuleFile × Workspace :=
  match ObjectType.ofPath? p, ws.file? p, ws.newFile? p with
  | none, _, _ => (none, ws)
  | some _, some file, _ => (some file, ws)
  | some _, none, none => (none, ws)
  | some type, none, some file =>
    let ws :=
      if type.hasHeaderName then ws
      else ws.claimName file.library file.name file.name { path := p }
    (some file, { ws with files := ws.files.insert p file })

/-- The workspace with a caller brought up to date after a name it waited for has appeared: parsed
again if it has a module, scanned again otherwise. The result also says whether it was parsed. -/
def wake (caller : ModuleFile) : Bool × Workspace :=
  match caller.state with
  | .parsed _ | .stale _ => (true, (ws.parse sources caller).2)
  | .unparsed | .closed => (false, (ws.indexFile sources caller).1)
  | .deleted => (false, ws)

/-- The workspace with the files at the paths woken, except `self`, and the paths of those that
were parsed. -/
def wakeAll (self : Path) (ws : Workspace) : List Path → List Path × Workspace
  | [] => ([], ws)
  | p :: paths =>
    match if p.same self then none else ws.file? p with
    | none => wakeAll self ws paths
    | some caller =>
      let (parsed, ws) := ws.wake sources caller
      let (more, ws) := wakeAll self ws paths
      (if parsed then p :: more else more, ws)

/-- The workspace with the files brought up to date that were waiting for the name of the file at
a path. -/
def resolveWaiting (p : Path) : ReparseReport × Workspace :=
  match ws.file? p with
  | none => ({}, ws)
  | some file =>
    let (callers, waiting) := ws.waiting.take file.name
    let (reparsed, ws) := { ws with waiting }.wakeAll sources file.path callers
    ({ reparsed }, ws)

/-- A file was created: it is added and scanned, and those that were waiting for its name are
brought up to date. The result also gives the file. -/
def createFile (p : Path) : Option ModuleFile × ReparseReport × Workspace :=
  match ws.addFile p with
  | (none, ws) => (none, {}, ws)
  | (some file, ws) =>
    let (report, ws) := (ws.indexFile sources file).1.resolveWaiting sources file.path
    (some file, report, ws)

/-- The files without the one at `p`, each freed of its edges with it: the files that `file`
referred to forget it, and the files that referred to it lose their edge and become stale. -/
def withoutFile (p : Path) (file : ModuleFile) : PathMap ModuleFile :=
  (ws.files.erase p).map fun q f =>
    let f := if file.outgoing.contains q then { f with incoming := f.incoming.erase p } else f
    if file.incoming.contains q then
      { f.markStale.1 with outgoing := f.outgoing.erase p }
    else f

/-- The live files that refer to a file, in path order. -/
def callers (file : ModuleFile) : List ModuleFile :=
  file.incoming.toList.filterMap ws.file?

/-- A file was deleted. Its callers wait for its name. -/
def deleteFile (p : Path) : ReparseReport × Workspace :=
  match ws.file? p with
  | none => ({}, ws)
  | some file =>
    let files := ws.withoutFile p file
    let callers := { ws with files := ws.files.erase p }.callers file
    let waiting := callers.foldl (fun w c => w.add c.path file.name) (ws.waiting.removeFile p)
    let ws := ws.modifyLibrary file.library (·.unregister file.name p)
    ({ markedStale := (callers.filter (·.markStale.2)).map (·.path) },
      { ws with files, waiting, cache := ws.cache.removeFile p })

/-- A file was renamed: the old one is deleted and the new one created. -/
def renameFile (p new : Path) : ReparseReport × Workspace :=
  let (deleted, ws) := ws.deleteFile p
  let (_, created, ws) := ws.createFile sources new
  (deleted ++ created, ws)

end Workspace

end Steplib
