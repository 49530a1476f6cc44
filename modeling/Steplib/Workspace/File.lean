import Steplib.Diagnostic.Partition
import Steplib.Module.Parse
import Steplib.Path.Set

/-!
# Module files

A module file is a source file of a library together with what is known of it: how far it has
been parsed, its diagnostics, the files it refers to and the files that refer to it, and the
unsaved text of an editor.
-/

namespace Steplib

/-- The texts of the files on disk, by path. -/
abbrev Sources := Path → Except ReadError String

/-- How far a file has been parsed. -/
inductive ModuleState
  /-- The file was never parsed; only scans know about it. -/
  | unparsed
  /-- The module is that of the current source. -/
  | parsed (m : Module)
  /-- The source or something it depends on has changed since the module was built. -/
  | stale (m : Module)
  /-- The module was given up. -/
  | closed
  /-- The file is no longer part of the project. -/
  | deleted
deriving DecidableEq, Repr

/-- The module that can be read, current or stale. -/
def ModuleState.module? : ModuleState → Option Module
  | parsed m | stale m => some m
  | unparsed | closed | deleted => none

/-- Why a file has no module. -/
inductive ModuleError
  | notParsed (path : Path)
  | closed (path : Path)
  | deleted (path : Path)
deriving DecidableEq, Repr

/-- The wording of a module error. -/
def ModuleError.message : ModuleError → String
  | notParsed path => "module not parsed: " ++ path.text
  | closed path => "module closed: " ++ path.text
  | deleted path => "module deleted: " ++ path.text

/-- A source file of a library. -/
structure ModuleFile where
  path : Path
  library : String
  type : ObjectType
  /-- The name by which other modules refer to the file. -/
  name : String
  state : ModuleState := .unparsed
  diagnostics : Partition := {}
  /-- The files that this one refers to. -/
  outgoing : PathSet := .empty
  /-- The files that refer to this one. -/
  incoming : PathSet := .empty
  /-- The unsaved text of the editor. -/
  overlay : Option String := none
deriving DecidableEq, Repr

namespace ModuleFile

variable (f : ModuleFile)

/-- The identity of the file as the parser sees it. -/
def identity : Identity :=
  { path := f.path, library := f.library, name := f.name, type := f.type }

/-- The module of the file, or why there is none. -/
def module : Except ModuleError Module :=
  match f.state with
  | .parsed m | .stale m => .ok m
  | .unparsed => .error (.notParsed f.path)
  | .closed => .error (.closed f.path)
  | .deleted => .error (.deleted f.path)

/-- The source of the file: the unsaved text if there is one, otherwise the text on disk. -/
def source (sources : Sources) : Except ReadError String :=
  match f.overlay with
  | some text => .ok text
  | none => sources f.path

/-- The file with a current module. -/
def setParsed (m : Module) (ds : List Diagnostic) : ModuleFile :=
  { f with state := .parsed m, diagnostics := f.diagnostics.replace .parser ds }

/-- The file with its current module made stale, and whether it had one. -/
def markStale : ModuleFile × Bool :=
  match f.state with
  | .parsed m => ({ f with state := .stale m }, true)
  | _ => (f, false)

/-- The file with its module, its parser diagnostics and its unsaved text given up, and whether
it had a module. -/
def close : ModuleFile × Bool :=
  match f.state.module? with
  | some _ =>
    ({ f with
        state := .closed
        diagnostics := f.diagnostics.clear .parser
        overlay := none }, true)
  | none => (f, false)

/-- What is left of the file when it has been taken out of the project: who and where it was. -/
def retire : ModuleFile :=
  { path := f.path, library := f.library, type := f.type, name := f.name, state := .deleted }

end ModuleFile

end Steplib
