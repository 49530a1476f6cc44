import Steplib.Project.Load
import Steplib.Session.Summary

/-!
# Sessions

A session is a workspace together with the disk below it and a client that watches it. The client
is told which files have changed since it was told last. It can also keep hold of a file: it then
sees that file even after it has left the project.
-/

namespace Steplib

/-- A file that the client keeps hold of. -/
inductive Held
  /-- A file of the project, by its path. -/
  | live (path : Path)
  /-- A file that has left the project, by its place among those. -/
  | gone (index : Nat)
deriving DecidableEq, Repr

/-- A workspace with its disk and its client. -/
structure Session where
  /-- The directory from which the client sees all paths. -/
  base : Path
  disk : Disk
  workspace : Workspace
  /-- The files that the client keeps hold of, by key; the latest entry for a key counts. -/
  held : List (String × Held) := []
  /-- The files the client keeps hold of that have left the project. -/
  retired : List ModuleFile := []
  /-- The summaries that the client was told last. -/
  reported : List (String × FileSummary) := []

namespace Session

variable (s : Session)

/-- The path that the client means by a text. -/
def path (text : String) : Path :=
  s.base.join (.ofText text)

/-- A path as the client sees it. -/
def shown (p : Path) : String :=
  p.shownFrom s.base

/-- The session after an operation on its workspace, and the result of the operation. -/
def run {α : Type} (operation : Sources → Workspace → α × Workspace) : α × Session :=
  let (result, workspace) := operation s.disk.read s.workspace
  (result, { s with workspace })

/-- The session with its disk changed. -/
def changeDisk (change : Disk → Disk) : Session :=
  { s with disk := change s.disk }

/-- The session in which the client keeps hold of the file at a path, and whether there is one. -/
def hold (key : String) (p : Path) : Bool × Session :=
  match s.workspace.file? p with
  | none => (false, s)
  | some _ => (true, { s with held := (key, .live p) :: s.held })

/-- The file that the client keeps hold of under a key. -/
def heldFile? (key : String) : Option ModuleFile :=
  (s.held.lookup key).bind fun held =>
    match held with
    | .live p => s.workspace.file? p
    | .gone index => s.retired[index]?

/-- The session in which the held file at a path is kept for the time after its deletion. -/
def retire (p : Path) : Session :=
  match s.workspace.file? p with
  | none => s
  | some file =>
    { s with
      retired := s.retired ++ [file.retire]
      held := s.held.map fun (key, held) =>
        match held with
        | .live q => (key, if q.same p then .gone s.retired.length else .live q)
        | held => (key, held) }

/-- The session with the file scanned that the client keeps hold of, and the number of its
edges. -/
def indexHeld (key : String) : Option Nat × Session :=
  match s.held.lookup key with
  | none => (none, s)
  | some (.live p) => s.run fun sources ws => ws.indexPath sources p
  | some (.gone index) =>
    match s.retired[index]? with
    | none => (none, s)
    | some file =>
      let (workspace, file) := s.workspace.indexRetired s.disk.read file
      (some 0, { s with workspace, retired := s.retired.set index file })

/-- The session with a file deleted from its workspace. -/
def deleteFile (p : Path) : ReparseReport × Session :=
  (s.retire p).run fun _ ws => ws.deleteFile p

/-- The session with a file renamed in its workspace. -/
def renameFile (p new : Path) : ReparseReport × Session :=
  (s.retire p).run fun sources ws => ws.renameFile sources p new

/-- What has changed since the client was told last, and the session in which it has been told. -/
def report : List (String × Option FileSummary) × Session :=
  let now := s.workspace.summaries s.base
  (FileSummary.changes s.reported now, { s with reported := now })

end Session

end Steplib
