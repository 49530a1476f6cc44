import Steplib.Workspace.Basic

/-!
# Parsing files of a workspace

To check a file, the parser asks for the modules it refers to; those that have never been parsed
are parsed on the way. A file whose own parse is still going on is answered for by a placeholder,
so that cycles of references come to an end: every nested parse leaves one file fewer that can be
parsed.

## Main definitions

* `Workspace.parseWith`: the parse of one file, with the way to find other modules left open.
* `Workspace.parseAmong`: the parse of one file, parsing on the way the files it needs.
* `Workspace.parse`: the parse of one file from outside of any other parse.
-/

namespace Steplib

/-- A way to find the module of a name, which may change the workspace. -/
abbrev Finder := String → Workspace → Option Module × Workspace

/-- What a name leads to. -/
inductive Lookup
  /-- No file of the project. -/
  | missing
  /-- A file with a module. -/
  | known (m : Module)
  /-- A file without a module. -/
  | unparsed (file : ModuleFile)

namespace Workspace

/-- What a name leads to, as seen from a library. -/
def lookUp (ws : Workspace) (library name : String) : Lookup :=
  match ws.resolve? library name with
  | none => .missing
  | some holder =>
    if holder.live then
      match ws.file? holder.path with
      | none => .missing
      | some file =>
        match file.state.module? with
        | some m => .known m
        | none => .unparsed file
    else .missing

/-- The modules of the names, found one after the other. -/
def findAll (find : Finder) : List String → Workspace → List (String × Option Module) × Workspace
  | [], ws => ([], ws)
  | name :: names, ws =>
    let (found, ws) := find name ws
    let (rest, ws) := findAll find names ws
    ((name, found) :: rest, ws)

/-- The workspace after a parse of a file gave a module and diagnostics: the references of the
module replace those of the file, and what scans knew of the file is dropped. -/
def install (ws : Workspace) (file : ModuleFile) (m : Module) (ds : List Diagnostic) :
    Workspace :=
  let ws := ws.modifyFile file.path (·.setParsed m ds)
  let ws := ws.setReferences file m.references
  { ws with cache := (ws.cache.evict file.path).1 }

/-- The parse of a file, where `find` finds the other modules. -/
def parseWith (sources : Sources) (find : Finder) (file : ModuleFile) (ws : Workspace) :
    Module × Workspace :=
  let i := file.identity
  let failed (failure : ParseFailure) : Module × Workspace :=
    let (m, ds) := failedParse i failure
    (m, ws.install file m ds)
  match file.source sources with
  | .error cause => failed (.unreadable cause)
  | .ok source =>
    match ws.faults.of? i.name with
    | some failure => failed failure
    | none =>
      let tokens := tokenize source
      let (found, ws) := findAll find (Module.ofTokens i tokens).wanted ws
      let (m, ds) := parseTokens i tokens fun name => (found.lookup name).join
      (m, ws.install file m ds)

/-- The paths other than `p`. -/
def without (p : Path) (paths : List Path) : List Path :=
  paths.filter fun q => !q.same p

theorem length_without_lt {p : Path} {paths : List Path} (h : paths.any (·.same p) = true) :
    (without p paths).length < paths.length := by
  obtain ⟨q, hq, hs⟩ := List.any_eq_true.1 h
  exact List.length_filter_lt_length_iff_exists.2 ⟨q, hq, by simp [hs]⟩

/-- The parse of a file, where the files at the paths `available` can be parsed on the way. -/
def parseAmong (sources : Sources) (available : List Path) (file : ModuleFile)
    (ws : Workspace) : Module × Workspace :=
  parseWith sources
    (fun name ws =>
      match ws.lookUp file.library name with
      | .missing => (none, ws)
      | .known m => (some m, ws)
      | .unparsed target =>
        if _h : available.any (·.same target.path) then
          let (m, ws) := parseAmong sources (without target.path available) target ws
          (some m, ws)
        else
          (some (.placeholder target.identity), ws))
    file ws
termination_by available.length
decreasing_by exact length_without_lt ‹_›

variable (sources : Sources) (ws : Workspace)

/-- The parse of a file while no other parse is going on. -/
def parse (file : ModuleFile) : Module × Workspace :=
  ws.parseAmong sources (without file.path ws.files.keys) file

/-- The module that a name leads to as seen from a library, parsed if it has not been. -/
def findModule (library name : String) : Option Module × Workspace :=
  match ws.lookUp library name with
  | .missing => (none, ws)
  | .known m => (some m, ws)
  | .unparsed file =>
    let (m, ws) := ws.parse sources file
    (some m, ws)

end Workspace

end Steplib
