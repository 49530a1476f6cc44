import Steplib.Text.Quoted
import Steplib.Workspace.References
import Steplib.Workspace.Index

/-!
# Summaries

Short descriptions of the files of a workspace, of the workspace itself and of an indexing pass,
with paths written as seen from a base directory.
-/

namespace Steplib

/-- The name of a state in summaries. -/
def ModuleState.label : ModuleState → String
  | unparsed => "Unparsed"
  | parsed _ => "Parsed"
  | stale _ => "Stale"
  | closed => "Closed"
  | deleted => "Deleted"

/-- A diagnostic by its code and range only. -/
def Diagnostic.brief (d : Diagnostic) : String :=
  let point (p : Position) : String := toString p.line ++ ":" ++ toString p.column
  d.code ++ "@" ++ point d.span.start ++ "-" ++ point d.span.stop

/-- What is told of a file. -/
structure FileSummary where
  library : String
  type : ObjectType
  name : String
  state : String
  outgoing : List String
  incoming : List String
  overlay : Bool
  diagnostics : List String
  /-- The scanned positions that call the file. -/
  cached : List (String × Position)
deriving DecidableEq, Repr

/-- The summary of a file in a workspace. -/
def Workspace.summarize (ws : Workspace) (base : Path) (f : ModuleFile) : FileSummary :=
  { library := f.library
    type := f.type
    name := f.name
    state := f.state.label
    outgoing := f.outgoing.toList.map (·.shownFrom base)
    incoming := f.incoming.toList.map (·.shownFrom base)
    overlay := f.overlay.isSome
    diagnostics := f.diagnostics.all.map (·.brief)
    cached := (ws.cache.positions f.path).map fun p => (p.file.shownFrom base, p.position) }

/-- The summaries of all files of a workspace, in path order. -/
def Workspace.summaries (ws : Workspace) (base : Path) : List (String × FileSummary) :=
  ws.files.values.map fun f => (f.path.shownFrom base, ws.summarize base f)

/-- What is different in the summaries `now` from those `before`: the new summary of every file
that has another one now, and nothing for every file that is gone. -/
def FileSummary.changes (before now : List (String × FileSummary)) :
    List (String × Option FileSummary) :=
  let changed := now.filter fun (path, summary) => before.lookup path != some summary
  let gone := before.filter fun (path, _) => (now.lookup path).isNone
  changed.map (fun (path, summary) => (path, some summary)) ++
    gone.map fun (path, _) => (path, none)

/-- The workspace in one line. -/
def Workspace.describe (ws : Workspace) : String :=
  "Workspace \x7b root: " ++ Text.quoted ws.root.text ++ ", libraries: [" ++
    String.intercalate ", " (ws.libraries.map fun l => Text.quoted l.name) ++
    "], files: " ++ toString ws.files.size ++ " \x7d"

/-- The handle to an indexing pass that has come to its end. -/
structure IndexingHandle where
  summary : IndexSummary
  /-- The pass was asked to stop. -/
  cancelled : Bool := false
deriving DecidableEq, Repr

namespace IndexingHandle

/-- The handle after the pass was asked to stop; what it has done stays done. -/
def cancel (h : IndexingHandle) : IndexingHandle :=
  { h with cancelled := true }

/-- The handle in one line. -/
def describe (h : IndexingHandle) : String :=
  "IndexingHandle \x7b cancelled: " ++ (if h.cancelled then "true" else "false") ++
    ", finished: true \x7d"

end IndexingHandle

end Steplib
