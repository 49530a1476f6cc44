import Steplib.Workspace.Lifecycle

/-!
# Following references

From a position in a source to the module that is referred to there, and from a module to the
places that refer to it. Callers with a module answer with the ranges of their statements; callers
that were only scanned answer with the positions that the scan found, which are provisional.

## Main definitions

* `Workspace.goto`: the module that is referred to at a position.
* `Workspace.references`: all known places that refer to a file.
* `Workspace.prepareRename`: what a rename touches, after every caller has been parsed.
-/

namespace Steplib

/-- A place that refers to a module. -/
structure Reference where
  /-- The file that refers to it. -/
  file : Path
  /-- The range of the reference; empty where only its start is known. -/
  span : Span
  /-- The reference is known from a scan only. -/
  provisional : Bool
deriving DecidableEq, Repr

namespace Reference

/-- References are ordered by file, then by range, the provisional ones last. -/
instance : Ord Reference where
  compare := compareLex (compareOn file) (compareLex (compareOn span) (compareOn provisional))

/-- The references are the same, whatever the spelling of the file. -/
def same (r s : Reference) : Bool :=
  r.file.same s.file && r.span == s.span && r.provisional == s.provisional

/-- The list without references that are the same as the one before them. -/
def dropRepeated : List Reference → List Reference
  | r :: s :: rest => if r.same s then dropRepeated (r :: rest) else r :: dropRepeated (s :: rest)
  | rest => rest
termination_by rs => rs.length

/-- The references in order, each once. -/
def inOrder (rs : List Reference) : List Reference :=
  dropRepeated (rs.mergeSort fun r s => (compare r s).isLE)

end Reference

/-- What a rename of a module touches. -/
structure RenamePlan where
  name : String
  references : List Reference
deriving DecidableEq, Repr

namespace Workspace

variable (sources : Sources) (ws : Workspace)

/-- The module that is referred to at a position of a file: its path and its name. The file is
parsed if it has no module. -/
def goto (p : Path) (position : Position) : Option (Path × String) × Workspace :=
  match ws.file? p with
  | none => (none, ws)
  | some file =>
    let (m, ws) := ws.readModule sources p
    let target := do
      let name ← (← m).referenceAt? position
      let holder ← ws.resolve? file.library name
      let held := if holder.live then (ws.file? holder.path).map (·.name) else none
      return (holder.path, held.getD (Ascii.upper name))
    (target, ws)

/-- The callers of a file that have a module, with their paths. -/
def parsedCallers (file : ModuleFile) : List (Path × Module) :=
  file.incoming.toList.filterMap fun p =>
    (ws.file? p).bind fun caller => caller.module.toOption.map (p, ·)

/-- All known references to the file at a path. -/
def references (p : Path) : List Reference :=
  match ws.file? p with
  | none => []
  | some file =>
    let callers := ws.parsedCallers file
    let parsed := callers.flatMap fun (caller, m) =>
      (m.referencesTo file.name).map fun span => Reference.mk caller span false
    let scanned := (ws.cache.positions p).filter fun c => !callers.any (·.1.same c.file)
    Reference.inOrder <|
      parsed ++ scanned.map fun c => ⟨c.file, ⟨c.position, c.position⟩, true⟩

/-- What a rename of the file at a path touches, after every caller has been parsed. -/
def prepareRename (p : Path) : Option RenamePlan × Workspace :=
  match ws.file? p with
  | none => (none, ws)
  | some file =>
    let (_, ws) := ws.reparseCallers sources p
    (some ⟨file.name, ws.references p⟩, ws)

end Workspace

end Steplib
