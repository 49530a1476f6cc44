import Steplib.Workspace.Parse

/-!
# The life of a file in the editor

Opening a file parses it; changing or saving it parses it again and, where its callers can
observe the change, parses the files that refer to it directly. Closing a file gives up its
module.

## Main definitions

* `Workspace.openFile`, `Workspace.readModule`: the module of a file, parsed if need be.
* `Workspace.change`, `Workspace.save`: a new parse of a file and, where it matters, its callers.
* `Workspace.closeFile`, `Workspace.markStale`: a module is given up or out of date.
-/

namespace Steplib

/-- Whether a new parse of a file reaches the files that refer to it. -/
inductive ParseStrategy
  | withCallers
  | withoutCallers
deriving DecidableEq, Repr

/-- The files that an operation has touched. -/
structure ReparseReport where
  /-- The files that were parsed again, in order. -/
  reparsed : List Path := []
  /-- The files whose module was made stale. -/
  markedStale : List Path := []
deriving DecidableEq, Repr

namespace ReparseReport

/-- No file was touched. -/
def isEmpty (r : ReparseReport) : Bool :=
  r.reparsed.isEmpty && r.markedStale.isEmpty

/-- One report after the other. -/
def append (r s : ReparseReport) : ReparseReport :=
  ⟨r.reparsed ++ s.reparsed, r.markedStale ++ s.markedStale⟩

instance : Append ReparseReport := ⟨append⟩

end ReparseReport

namespace Workspace

variable (sources : Sources) (ws : Workspace)

/-- The current module of a file, parsed if there is none. -/
def openFile (p : Path) : Option Module × Workspace :=
  match ws.file? p with
  | none => (none, ws)
  | some file =>
    match file.state with
    | .parsed m => (some m, ws)
    | .deleted => (none, ws)
    | _ =>
      let (m, ws) := ws.parse sources file
      (some m, ws)

/-- The module of a file, current or stale, parsed if there is none. -/
def readModule (p : Path) : Option Module × Workspace :=
  match ws.file? p with
  | none => (none, ws)
  | some file =>
    match file.state with
    | .parsed m | .stale m => (some m, ws)
    | .deleted => (none, ws)
    | _ =>
      let (m, ws) := ws.parse sources file
      (some m, ws)

/-- The workspace with the files at the paths parsed, one after the other, and the paths of those
that exist. -/
def parseAll (ws : Workspace) : List Path → List Path × Workspace
  | [] => ([], ws)
  | p :: paths =>
    match ws.file? p with
    | none => parseAll ws paths
    | some file =>
      let (done, ws) := parseAll (ws.parse sources file).2 paths
      (p :: done, ws)

/-- The workspace with every file parsed that refers to the file at a path directly. -/
def reparseCallers (p : Path) : ReparseReport × Workspace :=
  match ws.file? p with
  | none => ({}, ws)
  | some file =>
    let (reparsed, ws) := ws.parseAll sources file.incoming.toList
    ({ reparsed }, ws)

/-- The workspace with a file parsed and, if the strategy says so and they can observe the change,
its callers. -/
def reparse (file : ModuleFile) (strategy : ParseStrategy) : ReparseReport × Workspace :=
  let (m, ws) := ws.parse sources file
  let report : ReparseReport := { reparsed := [file.path] }
  if strategy = .withCallers ∧ m.shapesCallers then
    let (callers, ws) := ws.reparseCallers sources file.path
    (report ++ callers, ws)
  else
    (report, ws)

/-- The workspace with the unsaved text of a file set and the file parsed again. -/
def setOverlay (p : Path) (overlay : Option String) (strategy : ParseStrategy) :
    ReparseReport × Workspace :=
  match ws.file? p with
  | none => ({}, ws)
  | some file =>
    (ws.modifyFile p fun f => { f with overlay }).reparse sources { file with overlay } strategy

/-- The text of a file was changed in the editor. -/
def change (p : Path) (source : String) (strategy : ParseStrategy) : ReparseReport × Workspace :=
  ws.setOverlay sources p (some source) strategy

/-- A file was saved; its text is that on disk again. -/
def save (p : Path) (strategy : ParseStrategy) : ReparseReport × Workspace :=
  ws.setOverlay sources p none strategy

/-- A file was closed; whether it had a module. -/
def closeFile (p : Path) : Bool × Workspace :=
  match ws.file? p with
  | none => (false, ws)
  | some file => (file.close.2, ws.modifyFile p fun f => f.close.1)

/-- A file was changed outside the editor; whether it had a current module. -/
def markStale (p : Path) : Bool × Workspace :=
  match ws.file? p with
  | none => (false, ws)
  | some file => (file.markStale.2, ws.modifyFile p fun f => f.markStale.1)

/-- The workspace with the diagnostics of one tool replaced for a file, and whether the file
exists. -/
def publish (p : Path) (tool : Tool) (ds : List Diagnostic) : Bool × Workspace :=
  match ws.file? p with
  | none => (false, ws)
  | some _ =>
    (true, ws.modifyFile p fun f => { f with diagnostics := f.diagnostics.replace tool ds })

/-- The diagnostics of a file as the severity rules leave them. -/
def diagnostics (p : Path) : List Diagnostic :=
  match ws.file? p with
  | none => []
  | some file => file.diagnostics.all.filterMap ws.severity.apply

end Workspace

end Steplib
