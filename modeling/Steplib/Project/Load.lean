import Steplib.Manifest.Basic
import Steplib.Project.Disk
import Steplib.Severity.EditorConfig
import Steplib.Workspace.Membership

/-!
# Loading a project

The libraries of a project are those of its build manifest, in order, then the other directories
below `Natural-Libraries`, then `SYSTEM`. Every source file in the directory of a library becomes a
file of the workspace; nothing is scanned or parsed yet.
-/

namespace Steplib

/-- Why a project could not be loaded. -/
inductive ProjectError
  | rootNotFound (root : Path)
  | unreadable (cause : ReadError)
  | manifest (path : Path) (cause : ManifestError)
deriving DecidableEq, Repr

/-- The wording of a project error. -/
def ProjectError.message : ProjectError → String
  | rootNotFound root => "project root not found: " ++ root.text
  | unreadable cause => "IO error: " ++ cause.message
  | manifest path cause => "invalid build manifest " ++ path.text ++ ": " ++ cause.message

namespace Project

/-- The directory that holds a directory for each library. -/
def librariesDirectory : String := "Natural-Libraries"

/-- The file name of the build manifest. -/
def manifestName : String := "_naturalBuild"

/-- The file name of the severity configuration. -/
def configName : String := ".editorconfig"

/-- The text of the file at a path, or nothing if there is no file. -/
def readIfFile (d : Disk) (p : Path) : Except ProjectError (Option String) :=
  if d.isFile p then
    match d.read p with
    | .ok text => .ok (some text)
    | .error cause => .error (.unreadable cause)
  else
    .ok none

/-- The build manifest of a project; without the file, an empty one. -/
def loadManifest (d : Disk) (root : Path) : Except ProjectError Manifest := do
  let p := root.child manifestName
  match ← readIfFile d p with
  | none => return {}
  | some text =>
    match Manifest.parse text with
    | .ok m => return m
    | .error cause => throw (.manifest p cause)

/-- The severity rules of a project; without the file, none. -/
def loadSeverity (d : Disk) (root : Path) : Except ProjectError SeverityRules := do
  match ← readIfFile d (root.child configName) with
  | none => return { root }
  | some text => return EditorConfig.rules root text

/-- The workspace with the libraries of the manifest added, each in its directory on disk. -/
def addManifestLibraries (ws : Workspace) (dir : Path) (onDisk : List (String × Path))
    (m : Manifest) : Workspace :=
  m.libraries.foldl
    (fun ws (name, steplibs) =>
      ws.addLibrary name ((onDisk.lookup name).getD (dir.child name)) steplibs)
    ws

/-- The workspace with the libraries added that have a directory on disk. -/
def addDiskLibraries (ws : Workspace) (onDisk : List (String × Path)) (m : Manifest) :
    Workspace :=
  onDisk.foldl (fun ws (name, path) => ws.addLibrary name path (m.steplibs name)) ws

/-- The workspace with all source files in the directories of its libraries added. -/
def addSources (d : Disk) (ws : Workspace) : Workspace :=
  (ws.libraries.flatMap fun l => d.sourcePaths l.sourcePath).foldl (fun ws p => (ws.addFile p).2) ws

/-- The workspace of the project in a directory. -/
def load (d : Disk) (faults : ParserFaults) (root : Path) : Except ProjectError Workspace := do
  if d.isDirectory root then
    let m ← loadManifest d root
    let dir := root.child librariesDirectory
    let onDisk := d.libraryDirectories dir
    let ws := Workspace.empty root faults
    let ws := addManifestLibraries ws dir onDisk m
    let ws := addDiskLibraries ws onDisk m
    let ws := ws.addLibrary systemLibrary (dir.child systemLibrary) []
    let severity ← loadSeverity d root
    return addSources d { ws with severity }
  else
    throw (.rootNotFound root)

end Project

end Steplib
