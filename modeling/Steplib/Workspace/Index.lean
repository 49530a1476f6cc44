import Steplib.Workspace.Basic

/-!
# Indexing a workspace

Indexing scans files without parsing them. It finds the header names of subroutines and functions
and records provisional references. A file that has a module keeps the references of its module.

## Main definitions

* `Workspace.registerScannedName`: a file takes over the name that a scan gives it.
* `Workspace.registerScan`: the references of a scan become edges, waits and cached positions.
* `Workspace.indexFile`, `Workspace.indexAll`: one file or every file is scanned.
-/

namespace Steplib

/-- The counts of one indexing pass. -/
structure IndexSummary where
  /-- The files that were scanned. -/
  scanned : Nat := 0
  /-- The files that could not be read. -/
  failed : Nat := 0
  /-- The edges that were recorded. -/
  edges : Nat := 0
  cancelled : Bool := false
deriving DecidableEq, Repr

namespace ModuleFile

/-- The scan of the file, if it can be read. -/
def scan? (f : ModuleFile) (sources : Sources) : Option Scan :=
  (f.source sources).toOption.map (Scan.ofSource f.type)

/-- The name that a scan gives the file: that of its header, if files of its type are named by
their header and it has one. -/
def scannedName (f : ModuleFile) (s : Scan) : String :=
  if f.type.hasHeaderName then s.header.getD f.name else f.name

end ModuleFile

namespace Workspace

variable (ws : Workspace)

/-- The workspace in which a file that carried the name `previous` claims the name `name` in its
library. -/
def claimName (library previous name : String) (holder : Holder) : Workspace :=
  ws.modifyLibrary library fun l =>
    let l := if previous = name then l else l.unregister previous holder.path
    (l.register name holder).1

/-- The workspace in which a file has taken over the name that a scan gives it. Files that are
named by their stem have claimed their name when they were added. -/
def registerScannedName (file : ModuleFile) (s : Scan) : Workspace :=
  if file.type.hasHeaderName then
    let name := file.scannedName s
    (ws.claimName file.library file.name name { path := file.path }).modifyFile file.path
      fun f => { f with name }
  else ws

/-- The cache with the scanned references of a file added, each under the file it leads to. -/
def cacheReferences (file : ModuleFile) (candidates : List Candidate) : ReferenceCache :=
  candidates.foldl
    (fun cache c =>
      (ws.destinations file.library file.path [c.name]).foldl
        (fun cache called => cache.add called ⟨file.path, c.position⟩) cache)
    ws.cache

/-- The workspace with the references of a scan recorded, and the number of files they lead to.
Nothing happens for a file that has a module. -/
def registerScan (file : ModuleFile) (s : Scan) : Workspace × Nat :=
  match file.state with
  | .unparsed | .closed =>
    let names := s.candidates.map (·.name)
    let targets := PathSet.ofList (ws.destinations file.library file.path names)
    let cache := ws.cacheReferences file s.candidates
    let ws := ws.setReferences file names
    ({ ws with cache }, targets.toList.length)
  | _ => (ws, 0)

variable (sources : Sources)

/-- The workspace with one file scanned, and the number of files that it refers to. -/
def indexFile (file : ModuleFile) : Workspace × Nat :=
  match file.scan? sources with
  | none => (ws, 0)
  | some s => (ws.registerScannedName file s).registerScan file s

/-- The workspace with the file at a path scanned. -/
def indexPath (p : Path) : Option Nat × Workspace :=
  match ws.file? p with
  | none => (none, ws)
  | some file =>
    let (ws, edges) := ws.indexFile sources file
    (some edges, ws)

/-- The workspace with a file scanned that is no longer part of the project, and the file with the
name that the scan gives it. The file can claim its header name even so, but it gets no edges. -/
def indexRetired (file : ModuleFile) : Workspace × ModuleFile :=
  match file.type.hasHeaderName, file.scan? sources with
  | true, some s =>
    let name := file.scannedName s
    let holder : Holder := { path := file.path, live := false }
    (ws.claimName file.library file.name name holder, { file with name })
  | _, _ => (ws, file)

/-- The workspace with a list of scans recorded, and the sum of their edges. -/
def registerScans (ws : Workspace) (scans : List (ModuleFile × Scan)) : Workspace × Nat :=
  scans.foldl
    (fun (ws, edges) (file, s) =>
      let (ws, more) := ws.registerScan file s
      (ws, edges + more))
    (ws, 0)

/-- The workspace with every file scanned. All names are registered before the first reference is
followed. A pass that is cancelled before it begins does nothing. -/
def indexAll (cancelled : Bool) : Workspace × IndexSummary :=
  if cancelled then
    (ws, { cancelled := true })
  else
    let files := ws.files.values
    let scans := files.filterMap fun f => (f.scan? sources).map (f, ·)
    let named := scans.foldl (fun ws (file, s) => ws.registerScannedName file s) ws
    let (indexed, edges) := named.registerScans scans
    (indexed, { scanned := scans.length, failed := files.length - scans.length, edges })

end Workspace

end Steplib
