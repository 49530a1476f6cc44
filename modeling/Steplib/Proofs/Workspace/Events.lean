import Mathlib.Data.List.Induction
import Steplib.Proofs.Module.Occurrences
import Steplib.Proofs.Workspace.Reachable
import Steplib.Proofs.Workspace.Resolution

/-!
# What happens to files

An operation on a workspace is a sequence of moves, and most of them happen to one file: it comes or
goes, its text is set, it is parsed or closed, or a tool reports on it. These are the events of the
operation. Scans only touch names and references, so indexing is without events, and so is looking
references up. Which events an operation can consist of is told by the operation and by the files
that are there before it.

## Main definitions

* `Event`: what happens to a file.
* `Workspace.Happens`, `Workspace.Unfolds`: the moves with their events.
* `Workspace.Yields`: how a file comes out of a move.
* `Operation.Entails`: the events that an operation consists of.
* `Workspace.runAll`, `Workspace.History`: a run of operations, and its events.

## Main results

* `Workspace.Happens.yields`: whatever a move does to a file is one of its events.
* `Workspace.unfolds_run`: every operation unfolds in events that it entails.
* `Workspace.Unfolds.invariant`: what all moves keep that come with certain events.
* `Workspace.exists_history`: every run has a history.
-/

namespace Steplib

/-- Something that happens to a file. -/
inductive Event
  | added (p : Path)
  | deleted (p : Path)
  /-- The unsaved text of the file was set or given up. -/
  | typed (p : Path) (text : Option String)
  /-- The file was parsed as it was then, with the given diagnostics. -/
  | parsed (f : ModuleFile) (ds : List Diagnostic)
  /-- The module of the file was given up. -/
  | closed (p : Path)
  /-- A tool has reported the diagnostics of the file. -/
  | published (p : Path) (tool : Tool) (ds : List Diagnostic)

/-- The path of the file that it happens to. -/
def Event.path : Event → Path
  | added p | deleted p | typed p _ | closed p | published p _ _ => p
  | parsed f _ => f.path

/-- The code is that of a finding in a single token. -/
def Diagnostic.isLexical (d : Diagnostic) : Bool :=
  d.code == "L0001" || d.code == "L0002"

/-- The list is what a parse of the file reports: that the file cannot be parsed and nothing else,
or the findings in its tokens first and after them no other findings in tokens. -/
def ModuleFile.Reports (f : ModuleFile) (sources : Sources) (faults : ParserFaults)
    (ds : List Diagnostic) : Prop :=
  match f.source sources, faults.of? f.name with
  | .error cause, _ => ds = [.ofProblem f.path {} (.parseFailure (.unreadable cause))]
  | .ok _, some failure => ds = [.ofProblem f.path {} (.parseFailure failure)]
  | .ok text, none => ∃ rest, ds = lexicalDiagnostics f.path (tokenize text) ++ rest ∧
      ∀ d ∈ rest, d.isLexical = false

/-- What is wrong beyond single tokens is reported under other codes. -/
theorem isLexical_of_mem_parse {i : Identity} {tokens : List Token}
    {find : String → Option Module} {d : Diagnostic} (hd : d ∈ (parse i tokens find).2) :
    d.isLexical = false := by
  simp only [parse, Module.resolutionDiagnostics, List.mem_append] at hd
  rcases hd with hd | (hd | hd) | hd
  · rcases code_of_mem_outline _ hd with h | h <;> simp [Diagnostic.isLexical, h]
  · obtain ⟨u, -, hd⟩ := List.mem_filterMap.1 hd
    split at hd
    · obtain rfl := Option.some.inj hd
      rfl
    · simp at hd
  · obtain ⟨s, -, hd⟩ := List.mem_filterMap.1 hd
    split at hd
    · rename_i name problem _ hmissing
      split at hd
      · obtain rfl := Option.some.inj hd
        unfold Module.missing? at hmissing
        split at hmissing <;> cases hmissing <;> rfl
      · simp at hd
    · simp at hd
  · simp [Diagnostic.isLexical, code_of_mem_variable _ _ hd]

theorem ModuleFile.reports_outcome (f : ModuleFile) (sources : Sources) (faults : ParserFaults)
    (find : String → Option Module) :
    f.Reports sources faults (f.outcome sources faults find).2 := by
  rw [ModuleFile.Reports, ModuleFile.outcome]
  cases f.source sources with
  | error cause => rfl
  | ok text =>
    cases faults.of? f.name with
    | some failure => rfl
    | none => exact ⟨_, rfl, fun d hd => isLexical_of_mem_parse hd⟩

/-- The file is in the same place with the same text, module and diagnostics; the module may have
become stale. -/
structure ModuleFile.Retains (f f' : ModuleFile) : Prop where
  place : (f'.path, f'.library, f'.type) = (f.path, f.library, f.type)
  overlay : f'.overlay = f.overlay
  module : f'.state.module? = f.state.module?
  diagnostics : f'.diagnostics = f.diagnostics

theorem ModuleFile.Retains.trans {f g h : ModuleFile} (hfg : f.Retains g) (hgh : g.Retains h) :
    f.Retains h :=
  ⟨hgh.place.trans hfg.place, hgh.overlay.trans hfg.overlay, hgh.module.trans hfg.module,
    hgh.diagnostics.trans hfg.diagnostics⟩

theorem ModuleFile.retains_markStale (f : ModuleFile) : f.Retains f.markStale.1 := by
  rw [ModuleFile.markStale]
  split
  · rename_i m hstate
    exact ⟨rfl, rfl, by rw [hstate]; rfl, rfl⟩
  · exact ⟨rfl, rfl, rfl, rfl⟩

/-- The event is a parse, with the diagnostics that a parse reports. -/
def Event.IsParse (sources : Sources) (faults : ParserFaults) : Event → Prop
  | parsed f ds => f.Reports sources faults ds
  | _ => False

/-- The events of an edit of the file `f` at `p`. -/
def Edit.events (f : ModuleFile) (p : Path) : Edit → List Event
  | overlay text => [.typed p text]
  | close => if f.state.module?.isSome then [.closed p] else []
  | markStale => []
  | publish tool ds => [.published p tool ds]

namespace Workspace

/-- One move with its events, while the texts on disk are `sources`. -/
inductive Happens (sources : Sources) : Workspace → List Event → Workspace → Prop
  | parse {ws} (f) (hf : Live ws f) (find : String → Option Module) :
      Happens sources ws [.parsed f (f.outcome sources ws.faults find).2]
        (ws.install f (f.outcome sources ws.faults find).1 (f.outcome sources ws.faults find).2)
  | name {ws} (f s) (hf : Live ws f) (hs : f.scan? sources = some s) :
      Happens sources ws [] (ws.registerScannedName f s)
  | scan {ws} (f s) (hf : Live ws f) (hs : f.scan? sources = some s) :
      Happens sources ws [] (ws.registerScan f s).1
  | edit {ws p f} (hp : ws.file? p = some f) (e : Edit) :
      Happens sources ws (e.events f p) (ws.modifyFile p e.apply)
  | add {ws p f} (hp : ws.file? p = none) (hnew : ws.newFile? p = some f) :
      Happens sources ws [.added p] (ws.addFile p).2
  | take (ws name) : Happens sources ws [] { ws with waiting := (ws.waiting.take name).2 }
  | delete {ws p f} (hp : ws.file? p = some f) : Happens sources ws [.deleted p] (ws.deleteFile p).2

/-- How the file `f'` at the path comes out of a move with the events. Either the file was there and
nothing has happened to it, or what has happened to it is the one event. -/
inductive Yields (sources : Sources) (ws : Workspace) (p : Path) : List Event → ModuleFile → Prop
  | retained {events f f'} (hf : ws.file? p = some f) (h : f.Retains f')
      (hother : ∀ e ∈ events, e.path.same p = false) : Yields sources ws p events f'
  | parsed {f f'} (find : String → Option Module) (hs : f.path.same p = true)
      (hf : ws.file? p = some f) (hb : f'.bare = f.bare)
      (hstate : f'.state = .parsed (f.outcome sources ws.faults find).1)
      (hds : f'.diagnostics =
        f.diagnostics.replace .parser (f.outcome sources ws.faults find).2) :
      Yields sources ws p [.parsed f (f.outcome sources ws.faults find).2] f'
  | typed {q f} (text) (hs : q.same p = true) (hf : ws.file? p = some f) :
      Yields sources ws p [.typed q text] { f with overlay := text }
  | published {q f} (tool ds) (hs : q.same p = true) (hf : ws.file? p = some f) :
      Yields sources ws p [.published q tool ds]
        { f with diagnostics := f.diagnostics.replace tool ds }
  | closed {q f} (hs : q.same p = true) (hf : ws.file? p = some f) :
      Yields sources ws p [.closed q]
        { f with state := .closed, diagnostics := f.diagnostics.clear .parser, overlay := none }
  | added {q f'} (hs : q.same p = true) (hnew : ws.newFile? q = some f') :
      Yields sources ws p [.added q] f'

/-- A sequence of moves with their events. -/
inductive Unfolds (sources : Sources) : Workspace → List Event → Workspace → Prop
  | refl (ws) : Unfolds sources ws [] ws
  | next {ws first ws₁ rest ws'} (h : Happens sources ws first ws₁)
      (h' : Unfolds sources ws₁ rest ws') : Unfolds sources ws (first ++ rest) ws'

/-- The events by which a file comes to the path, if there is none and it can be added. -/
def arrival (ws : Workspace) (p : Path) : List Event :=
  if ws.file? p = none ∧ (ws.newFile? p).isSome then [.added p] else []

/-- The events by which the file at the path goes, if there is one. -/
def departure (ws : Workspace) (p : Path) : List Event :=
  if (ws.file? p).isSome then [.deleted p] else []

/-- The events of an edit of the file at the path, if there is one. -/
def editing (ws : Workspace) (p : Path) (e : Edit) : List Event :=
  ((ws.file? p).map fun f => e.events f p).getD []

end Workspace

/-- The events that an operation consists of. Those that only it can cause come first; what it
brings about besides are parses. -/
def Operation.Entails (sources : Sources) (ws : Workspace) (events : List Event)
    (op : Operation) : Prop :=
  let followedByParses (first : List Event) : Prop :=
    ∃ parses, events = first ++ parses ∧ ∀ e ∈ parses, e.IsParse sources ws.faults
  match op with
  | addFile p => events = ws.arrival p
  | createFile p => followedByParses (ws.arrival p)
  | deleteFile p => events = ws.departure p
  | renameFile p new => followedByParses (ws.departure p ++ (ws.deleteFile p).2.arrival new)
  | change p text _ => followedByParses (ws.editing p (.overlay (some text)))
  | save p _ => followedByParses (ws.editing p (.overlay none))
  | closeFile p => events = ws.editing p .close
  | publish p tool ds => events = ws.editing p (.publish tool ds)
  | openFile _ | readModule _ | reparseCallers _ | goto _ _ | prepareRename _ => followedByParses []
  | indexPath _ | indexAll _ | markStale _ | references _ => events = []

/-- The edit that comes with events of its own when the operation is taken, and the path of the
file. -/
def Operation.edit? : Operation → Option (Path × Edit)
  | change p text _ => some (p, .overlay (some text))
  | save p _ => some (p, .overlay none)
  | closeFile p => some (p, .close)
  | publish p tool ds => some (p, .publish tool ds)
  | _ => none

namespace Workspace

/-- An operation, and the texts on disk when it is taken. -/
abbrev Step := Sources × Operation

/-- The workspace after a run of operations. -/
def runAll (ws : Workspace) (steps : List Step) : Workspace :=
  steps.foldl (fun ws step => step.2.run step.1 ws) ws

/-- The events of a run of operations, each with those that it entails. -/
inductive History (start : Workspace) : List Step → List Event → Workspace → Prop
  | nil : History start [] [] start
  | step {steps events ws} (h : History start steps events ws) (sources op more)
      (hunfolds : Unfolds sources ws more (op.run sources ws))
      (hentails : op.Entails sources ws more) :
      History start (steps ++ [(sources, op)]) (events ++ more) (op.run sources ws)

variable {sources : Sources} {ws ws₁ ws' : Workspace} {f f' : ModuleFile} {p q : Path}
  {events more : List Event} {e : Event} {steps : List Step}

/-! ### Sequences of moves -/

theorem Happens.move (h : Happens sources ws events ws') : Move sources ws ws' := by
  cases h with
  | parse f hf find => exact .parse f hf find
  | name f s hf hs => exact .name f s hf hs
  | scan f s hf hs => exact .scan f s hf hs
  | edit hp e => exact .edit ..
  | add hp hnew => exact .add ..
  | take name => exact .take ..
  | delete hp => exact .delete ..

theorem Happens.unfolds (h : Happens sources ws events ws') : Unfolds sources ws events ws' := by
  simpa using Unfolds.next h (.refl ws')

theorem Unfolds.trans (h : Unfolds sources ws events ws₁) (h' : Unfolds sources ws₁ more ws') :
    Unfolds sources ws (events ++ more) ws' := by
  induction h with
  | refl => exact h'
  | next hfirst _ ih =>
    rw [List.append_assoc]
    exact .next hfirst (ih h')

/-- What every move keeps that comes with allowed events is kept by a sequence of them. -/
theorem Unfolds.invariant {P : Workspace → Prop} {allowed : Event → Prop}
    (h : Unfolds sources ws events ws') (hevents : ∀ e ∈ events, allowed e)
    (step : ∀ {ws events ws'}, Happens sources ws events ws' → (∀ e ∈ events, allowed e) →
      P ws → P ws') (hP : P ws) : P ws' := by
  induction h with
  | refl => exact hP
  | next hfirst _ ih =>
    obtain ⟨hhead, hrest⟩ := List.forall_mem_append.1 hevents
    exact ih hrest (step hfirst hhead hP)

/-- No move changes the rules of the project. -/
theorem Happens.rules (h : Happens sources ws events ws') :
    ws'.faults = ws.faults ∧ ws'.severity = ws.severity := by
  have hreferences (ws : Workspace) (f : ModuleFile) (names : List String) :
      (ws.setReferences f names).faults = ws.faults ∧
        (ws.setReferences f names).severity = ws.severity := by
    simp only [setReferences, setOutgoing]
    split <;> exact ⟨rfl, rfl⟩
  cases h with
  | parse f hf find => exact hreferences ..
  | name f s hf hs =>
    rw [registerScannedName]
    split <;> exact ⟨rfl, rfl⟩
  | scan f s hf hs =>
    rw [registerScan]
    split
    · exact hreferences ..
    · exact hreferences ..
    · exact ⟨rfl, rfl⟩
  | edit hp e => exact ⟨rfl, rfl⟩
  | @add p _ hp hnew =>
    rcases ws.addFile_cases p with ⟨h, -⟩ | ⟨new, -, -, h⟩ <;> rw [h]
    · exact ⟨rfl, rfl⟩
    · dsimp only
      rw [claimStem]
      split <;> exact ⟨rfl, rfl⟩
  | take name => exact ⟨rfl, rfl⟩
  | @delete p _ hp =>
    rw [deleteFile, hp]
    exact ⟨rfl, rfl⟩

/-! ### What comes out of a move -/

/-- A file loses nothing but edges and the freshness of its module when another one is deleted. -/
theorem retains_released (p : Path) (f : ModuleFile) (q : Path) (g : ModuleFile) :
    g.Retains (released p f q g) := by
  have hfirst : g.Retains
      (if f.outgoing.contains q then { g with incoming := g.incoming.erase p } else g) := by
    split <;> exact ⟨rfl, rfl, rfl, rfl⟩
  rw [released]
  dsimp only
  split
  · exact (hfirst.trans (ModuleFile.retains_markStale _)).trans ⟨rfl, rfl, rfl, rfl⟩
  · exact hfirst

theorem yields_of_unlinked (hu : (ws'.file? p).map unlinked = (ws.file? p).map unlinked)
    (hf' : ws'.file? p = some f') : Yields sources ws p [] f' := by
  rw [hf'] at hu
  obtain ⟨f, hf, hsame⟩ := Option.map_eq_some_iff.1 hu.symm
  have hstate : f'.state = f.state := congrArg (·.state) hsame.symm
  exact .retained hf ⟨congrArg (fun f => (f.path, f.library, f.type)) hsame.symm,
    congrArg (·.overlay) hsame.symm, by rw [hstate], congrArg (·.diagnostics) hsame.symm⟩
    (by simp)

/-- An edit of a file happens to the file. -/
theorem yields_edit (e : Edit) (hs : q.same p = true) (hf : ws.file? p = some f) :
    Yields sources ws p (e.events f q) (e.apply f) := by
  cases e with
  | overlay text => exact .typed text hs hf
  | publish tool ds => exact .published tool ds hs hf
  | markStale => exact .retained hf f.retains_markStale (by simp [Edit.events])
  | close =>
    simp only [Edit.apply, ModuleFile.close, Edit.events]
    cases f.state.module? with
    | none => exact .retained hf ⟨rfl, rfl, rfl, rfl⟩ (by simp)
    | some m => exact .closed hs hf

theorem path_of_mem_events {e : Edit} {event : Event} (h : event ∈ e.events f q) :
    event.path = q := by
  cases e with
  | close =>
    rw [Edit.events] at h
    split at h <;> simp_all [Event.path]
  | _ => simp_all [Edit.events, Event.path]

/-- Whatever a move does to a file is one of its events. -/
theorem Happens.yields (h : Happens sources ws events ws') (hf' : ws'.file? p = some f') :
    Yields sources ws p events f' := by
  cases h with
  | parse f hf find =>
    rw [file?_install hf] at hf'
    obtain ⟨g, hg, rfl⟩ := Option.map_eq_some_iff.1 hf'
    cases hs : f.path.same p with
    | false => exact .retained hg ⟨rfl, rfl, rfl, rfl⟩ (by simpa [Event.path] using hs)
    | true =>
      obtain rfl := Option.some.inj (hf.symm.trans ((ws.file?_congr hs).trans hg))
      exact .parsed find hs hg rfl rfl rfl
  | name f s hf hs => exact yields_of_unlinked (unlinked_registerScannedName ws f s p) hf'
  | scan f s hf hs => exact yields_of_unlinked (unlinked_registerScan hf s p) hf'
  | @edit p₀ f hp e =>
    rw [file?_modifyFile] at hf'
    split at hf'
    · rename_i hs
      obtain ⟨g, hg, rfl⟩ := Option.map_eq_some_iff.1 hf'
      obtain rfl := Option.some.inj (hp.symm.trans ((ws.file?_congr hs).trans hg))
      exact yields_edit e hs hg
    · rename_i hs
      refine .retained hf' ⟨rfl, rfl, rfl, rfl⟩ fun event hevent => ?_
      simpa [path_of_mem_events hevent] using hs
  | @add p₀ new hp hnew =>
    rw [file?_addFile hnew hp] at hf'
    split at hf'
    · rename_i hs
      obtain rfl := Option.some.inj hf'
      exact .added hs hnew
    · rename_i hs
      exact .retained hf' ⟨rfl, rfl, rfl, rfl⟩ (by simpa [Event.path] using hs)
  | take name => exact .retained hf' ⟨rfl, rfl, rfl, rfl⟩ (by simp)
  | @delete p₀ f hp =>
    rw [file?_deleteFile hp] at hf'
    split at hf'
    · simp at hf'
    · rename_i hs
      obtain ⟨g, hg, rfl⟩ := Option.map_eq_some_iff.1 hf'
      exact .retained hg (retains_released p₀ f p g) (by simpa [Event.path] using hs)

theorem Unfolds.rules (h : Unfolds sources ws events ws') :
    ws'.faults = ws.faults ∧ ws'.severity = ws.severity :=
  h.invariant (P := fun w => w.faults = ws.faults ∧ w.severity = ws.severity)
    (fun _ _ => (trivial : True))
    (fun hstep _ hrules => ⟨hstep.rules.1.trans hrules.1, hstep.rules.2.trans hrules.2⟩)
    ⟨rfl, rfl⟩

/-! ### The events of readings -/

/-- Readings come with parses and no other events. -/
theorem Readings.unfolds (h : Readings sources ws ws') :
    ∃ parses, Unfolds sources ws parses ws' ∧ ∀ e ∈ parses, e.IsParse sources ws.faults := by
  induction h with
  | refl => exact ⟨[], .refl ws, by simp⟩
  | @tail ws₁ ws' _ hlast ih =>
    obtain ⟨parses, hunfolds, hparses⟩ := ih
    cases hlast with
    | name f s hf hs => exact ⟨_, hunfolds.trans (Happens.name f s hf hs).unfolds, by simpa⟩
    | scan f s hf hs => exact ⟨_, hunfolds.trans (Happens.scan f s hf hs).unfolds, by simpa⟩
    | parse f hf find =>
      refine ⟨_, hunfolds.trans (Happens.parse f hf find).unfolds, ?_⟩
      refine List.forall_mem_append.2 ⟨hparses, List.forall_mem_singleton.2 ?_⟩
      rw [Event.IsParse, ← hunfolds.rules.1]
      exact f.reports_outcome ..

/-- What readings bring about after some events. -/
theorem Unfolds.readings (h : Unfolds sources ws events ws₁) (h' : Readings sources ws₁ ws') :
    ∃ parses, Unfolds sources ws (events ++ parses) ws' ∧
      ∀ e ∈ parses, e.IsParse sources ws.faults := by
  obtain ⟨parses, hunfolds, hparses⟩ := h'.unfolds
  rw [h.rules.1] at hparses
  exact ⟨parses, h.trans hunfolds, hparses⟩

/-! ### Scans are without events -/

theorem unfolds_indexFile (sources : Sources) (hk : ws.Keyed) (hf : ws.Live f) :
    Unfolds sources ws [] (ws.indexFile sources f).1 := by
  rw [indexFile]
  split
  · exact .refl ws
  · rename_i s hs
    have hname : Happens sources ws [] (ws.registerScannedName f s) := .name f s hf hs
    have hsame : ((ws.registerScannedName f s).file? f.path).map unlinked = some (unlinked f) := by
      rw [unlinked_registerScannedName, hf]
      rfl
    obtain ⟨f', hf', hb⟩ := Option.map_eq_some_iff.1 hsame
    rw [← registerScan_congr _ hb]
    exact .next hname (Happens.scan f' s ((hname.move.keyed hk).live hf')
      ((scan?_congr hb).trans hs)).unfolds

theorem unfolds_registerNames {scans : List (ModuleFile × Scan)}
    (hscans : ∀ e ∈ scans, ws.Live e.1 ∧ e.1.scan? sources = some e.2)
    (hdistinct : scans.Pairwise fun a b => a.1.path.same b.1.path = false) :
    Unfolds sources ws [] (scans.foldl (fun ws e => ws.registerScannedName e.1 e.2) ws) := by
  induction scans generalizing ws with
  | nil => exact .refl ws
  | cons e scans ih =>
    obtain ⟨⟨hlive, hs⟩, hrest⟩ := List.forall_mem_cons.1 hscans
    obtain ⟨hfirst, hdistinct⟩ := List.pairwise_cons.1 hdistinct
    exact .next (.name e.1 e.2 hlive hs) (ih (fun d hd => ⟨(file?_registerScannedName_of_not_same
      ws e.2 (hfirst d hd)).trans (hrest d hd).1, (hrest d hd).2⟩) hdistinct)

theorem unfolds_registerScans {scans : List (ModuleFile × Scan)} (hk : ws.Keyed)
    (hscans : ∀ e ∈ scans, (ws.file? e.1.path).map unlinked = some (unlinked e.1) ∧
      e.1.scan? sources = some e.2) : Unfolds sources ws [] (ws.registerScans scans).1 := by
  rw [registerScans_eq]
  induction scans generalizing ws with
  | nil => exact .refl ws
  | cons e scans ih =>
    obtain ⟨⟨hf, hs⟩, hrest⟩ := List.forall_mem_cons.1 hscans
    obtain ⟨f, hlive, hb⟩ := Option.map_eq_some_iff.1 hf
    have hscan : Happens sources ws [] (ws.registerScan e.1 e.2).1 := by
      rw [← registerScan_congr ws hb]
      exact .scan f e.2 (hk.live hlive) ((scan?_congr hb).trans hs)
    have hkept := (move_registerScan hk hf hs).2
    exact .next hscan (ih (hscan.move.keyed hk) fun d hd => ⟨(hkept _).trans (hrest d hd).1,
      (hrest d hd).2⟩)

theorem unfolds_indexAll (sources : Sources) (hk : ws.Keyed) (cancelled : Bool) :
    Unfolds sources ws [] (ws.indexAll sources cancelled).1 := by
  cases cancelled with
  | true => exact .refl ws
  | false =>
    have hscans := fun e (he : e ∈ ws.scans sources) => hk.live_of_mem_scans he
    obtain ⟨hmoves, hkept⟩ := moves_registerNames hk hscans hk.pairwise_scans
    refine (unfolds_registerNames hscans hk.pairwise_scans).trans
      (unfolds_registerScans (hmoves.keyed hk) fun e he => ?_)
    obtain ⟨hlive, hs⟩ := hscans e he
    exact ⟨by rw [hkept, hlive]; rfl, hs⟩

/-! ### The events of operations -/

theorem unfolds_edit (sources : Sources) (hp : ws.file? p = some f) (e : Edit) :
    Unfolds sources ws (ws.editing p e) (ws.modifyFile p e.apply) := by
  have hevents : ws.editing p e = e.events f p := by rw [editing, hp, Option.map_some,
    Option.getD_some]
  rw [hevents]
  exact (Happens.edit hp e).unfolds

theorem unfolds_addFile (sources : Sources) (ws : Workspace) (p : Path) :
    Unfolds sources ws (ws.arrival p) (ws.addFile p).2 := by
  rw [arrival]
  split
  · rename_i h
    obtain ⟨f, hnew⟩ := Option.isSome_iff_exists.1 h.2
    exact (Happens.add h.1 hnew).unfolds
  · rename_i h
    rcases ws.addFile_cases p with ⟨hsame, -⟩ | ⟨f, hnew, hp, -⟩
    · rw [hsame]
      exact .refl ws
    · exact absurd ⟨hp, by rw [hnew]; rfl⟩ h

theorem unfolds_deleteFile (sources : Sources) (ws : Workspace) (p : Path) :
    Unfolds sources ws (ws.departure p) (ws.deleteFile p).2 := by
  rw [departure]
  cases hp : ws.file? p with
  | none =>
    simp only [deleteFile, hp]
    exact .refl ws
  | some f => exact (Happens.delete hp).unfolds

theorem unfolds_createFile (sources : Sources) (hk : ws.Keyed) (p : Path) :
    ∃ parses, Unfolds sources ws (ws.arrival p ++ parses) (ws.createFile sources p).2.2 ∧
      ∀ e ∈ parses, e.IsParse sources ws.faults := by
  have hadd := unfolds_addFile sources ws p
  have hmove : Move sources ws (ws.addFile p).2 := .add ws p
  rw [createFile]
  split
  · rename_i ws₁ h
    rw [h] at hadd
    exact hadd.readings .refl
  · rename_i file ws₁ h
    have hlive := live_addFile (f := file) (p := p) hk (by rw [h])
    rw [h] at hadd hmove hlive
    have hindex := unfolds_indexFile sources (hmove.keyed hk) hlive
    have hboth := hadd.trans hindex
    have hk₂ : (ws₁.indexFile sources file).1.Keyed :=
      (readings_indexFile sources (hmove.keyed hk) hlive).moves.keyed (hmove.keyed hk)
    rw [List.append_nil] at hboth
    generalize (ws₁.indexFile sources file).1 = ws₂ at hboth hk₂
    dsimp only
    rw [resolveWaiting]
    cases ws₂.file? file.path with
    | none => exact hboth.readings .refl
    | some f =>
      have htake := hboth.trans (Happens.take ws₂ f.name).unfolds
      rw [List.append_nil] at htake
      have hk₃ : ({ ws₂ with waiting := (ws₂.waiting.take f.name).2 } : Workspace).Keyed := hk₂
      exact htake.readings (readings_wakeAll sources hk₃ f.path _)

theorem unfolds_setOverlay (sources : Sources) (hk : ws.Keyed) (p : Path)
    (overlay : Option String) (strategy : ParseStrategy) :
    ∃ parses, Unfolds sources ws (ws.editing p (.overlay overlay) ++ parses)
        (ws.setOverlay sources p overlay strategy).2 ∧
      ∀ e ∈ parses, e.IsParse sources ws.faults := by
  rw [setOverlay]
  cases hp : ws.file? p with
  | none =>
    have hnone : ws.editing p (.overlay overlay) = [] := by simp [editing, hp]
    rw [hnone]
    exact (Unfolds.refl ws).readings .refl
  | some f =>
    have hedit := unfolds_edit sources hp (.overlay overlay)
    have hk' : (ws.modifyFile p (Edit.overlay overlay).apply).Keyed :=
      hk.modifyFile p (path_edit (.overlay overlay))
    exact hedit.readings (readings_reparse sources hk' (hk.live_overlay hp overlay) strategy)

/-- Every operation unfolds in events that it entails. -/
theorem unfolds_run (sources : Sources) (hk : ws.Keyed) (op : Operation) :
    ∃ events, Unfolds sources ws events (op.run sources ws) ∧ op.Entails sources ws events := by
  have hedit (p : Path) (e : Edit) : Unfolds sources ws (ws.editing p e)
      ((ws.file? p).elim ws fun _ => ws.modifyFile p e.apply) := by
    cases hp : ws.file? p with
    | none =>
      simp only [editing, hp]
      exact .refl ws
    | some f => exact unfolds_edit sources hp e
  have hparses {ws'} (h : Readings sources ws ws') : ∃ events, Unfolds sources ws events ws' ∧
      ∃ parses, events = [] ++ parses ∧ ∀ e ∈ parses, e.IsParse sources ws.faults := by
    obtain ⟨parses, hunfolds, hparses⟩ := h.unfolds
    exact ⟨parses, hunfolds, parses, rfl, hparses⟩
  cases op with
  | addFile p => exact ⟨_, unfolds_addFile sources ws p, rfl⟩
  | createFile p =>
    obtain ⟨parses, hunfolds, hparses⟩ := unfolds_createFile sources hk p
    exact ⟨_, hunfolds, parses, rfl, hparses⟩
  | deleteFile p => exact ⟨_, unfolds_deleteFile sources ws p, rfl⟩
  | renameFile p new =>
    have hdelete := unfolds_deleteFile sources ws p
    have hk' : (ws.deleteFile p).2.Keyed := hk.deleteFile p
    obtain ⟨parses, hunfolds, hparses⟩ := unfolds_createFile sources hk' new
    rw [hdelete.rules.1] at hparses
    exact ⟨_, hdelete.trans hunfolds, parses, (List.append_assoc ..).symm, hparses⟩
  | change p text strategy =>
    obtain ⟨parses, hunfolds, hparses⟩ := unfolds_setOverlay sources hk p (some text) strategy
    exact ⟨_, hunfolds, parses, rfl, hparses⟩
  | save p strategy =>
    obtain ⟨parses, hunfolds, hparses⟩ := unfolds_setOverlay sources hk p none strategy
    exact ⟨_, hunfolds, parses, rfl, hparses⟩
  | closeFile p =>
    refine ⟨_, ?_, rfl⟩
    have h := hedit p .close
    simp only [Operation.run, closeFile]
    cases hp : ws.file? p <;> rw [hp] at h <;> exact h
  | publish p tool ds =>
    refine ⟨_, ?_, rfl⟩
    have h := hedit p (.publish tool ds)
    simp only [Operation.run, publish]
    cases hp : ws.file? p <;> rw [hp] at h <;> exact h
  | markStale p =>
    refine ⟨_, ?_, rfl⟩
    have h := hedit p .markStale
    simp only [Operation.run, markStale]
    cases hp : ws.file? p with
    | none => exact .refl ws
    | some f =>
      rw [editing, hp] at h
      exact h
  | references p => exact ⟨[], .refl ws, rfl⟩
  | indexAll cancelled => exact ⟨[], unfolds_indexAll sources hk cancelled, rfl⟩
  | indexPath p =>
    refine ⟨[], ?_, rfl⟩
    simp only [Operation.run, indexPath]
    cases hp : ws.file? p with
    | none => exact .refl ws
    | some f => exact unfolds_indexFile sources hk (hk.live hp)
  | openFile p => exact hparses (readings_openFile sources hk p)
  | readModule p => exact hparses (readings_readModule sources hk p)
  | reparseCallers p => exact hparses (readings_reparseCallers sources hk p)
  | goto p position =>
    refine hparses ?_
    simp only [Operation.run, goto]
    cases ws.file? p with
    | none => exact .refl
    | some f => exact readings_readModule sources hk p
  | prepareRename p =>
    refine hparses ?_
    simp only [Operation.run, prepareRename]
    cases ws.file? p with
    | none => exact .refl
    | some f => exact readings_reparseCallers sources hk p

/-! ### Who causes an event -/

theorem eq_of_mem_arrival (h : e ∈ ws.arrival p) : e = .added p := by
  rw [arrival] at h
  split at h <;> simp_all

theorem eq_of_mem_departure (h : e ∈ ws.departure p) : e = .deleted p := by
  rw [departure] at h
  split at h <;> simp_all

theorem exists_of_mem_editing {edit : Edit} (h : e ∈ ws.editing p edit) :
    ∃ f, ws.file? p = some f ∧ e ∈ edit.events f p := by
  rw [editing] at h
  cases hp : ws.file? p with
  | none => simp [hp] at h
  | some f => exact ⟨f, rfl, by simpa [hp] using h⟩

/-- What an operation brings about besides parses is that a file comes or goes, or its edit. -/
theorem mem_of_entails {op : Operation} (h : op.Entails sources ws events) (he : e ∈ events) :
    e.IsParse sources ws.faults ∨ (∃ p, e = .added p) ∨ (∃ p, e = .deleted p) ∨
      ∃ p edit, op.edit? = some (p, edit) ∧ e ∈ ws.editing p edit := by
  have hparses {first : List Event} (h : ∃ parses, events = first ++ parses ∧
      ∀ e ∈ parses, e.IsParse sources ws.faults) : e.IsParse sources ws.faults ∨ e ∈ first := by
    obtain ⟨parses, rfl, hparses⟩ := h
    exact (List.mem_append.1 he).symm.imp_left (hparses e)
  cases op with
  | addFile p => exact .inr (.inl ⟨p, eq_of_mem_arrival (h ▸ he)⟩)
  | createFile p => exact (hparses h).imp_right fun he => .inl ⟨p, eq_of_mem_arrival he⟩
  | deleteFile p => exact .inr (.inr (.inl ⟨p, eq_of_mem_departure (h ▸ he)⟩))
  | renameFile p new =>
    refine (hparses h).imp_right fun he => ?_
    rcases List.mem_append.1 he with he | he
    · exact .inr (.inl ⟨p, eq_of_mem_departure he⟩)
    · exact .inl ⟨new, eq_of_mem_arrival he⟩
  | change _ _ _ | save _ _ => exact (hparses h).imp_right fun he => .inr (.inr ⟨_, _, rfl, he⟩)
  | closeFile _ | publish _ _ _ => exact .inr (.inr (.inr ⟨_, _, rfl, h ▸ he⟩))
  | openFile _ | readModule _ | reparseCallers _ | goto _ _ | prepareRename _ =>
    exact (hparses h).imp_right fun he => by simp at he
  | indexPath _ | indexAll _ | markStale _ | references _ =>
    have hnone : events = [] := h
    simp [hnone] at he

/-! ### Runs -/

theorem runAll_append (ws : Workspace) (steps : List Step) (step : Step) :
    ws.runAll (steps ++ [step]) = step.2.run step.1 (ws.runAll steps) :=
  List.foldl_append

theorem Reachable.runAll (h : Reachable ws) (steps : List Step) : Reachable (ws.runAll steps) :=
  List.foldlRecOn steps _ h fun _ h step _ => h.run step.1 step.2

/-- Every run has a history. -/
theorem exists_history (h : Reachable ws) (steps : List Step) :
    ∃ events, History ws steps events (ws.runAll steps) := by
  induction steps using List.reverseRec with
  | nil => exact ⟨[], .nil⟩
  | append_singleton steps step ih =>
    obtain ⟨events, hhistory⟩ := ih
    obtain ⟨more, hunfolds, hentails⟩ :=
      unfolds_run step.1 (h.runAll steps).arises.keyed step.2
    rw [runAll_append]
    exact ⟨events ++ more, hhistory.step step.1 step.2 more hunfolds hentails⟩

/-- The rules of the project are the same throughout a run. -/
theorem History.rules (h : History ws steps events ws') :
    ws'.faults = ws.faults ∧ ws'.severity = ws.severity := by
  induction h with
  | nil => exact ⟨rfl, rfl⟩
  | step _ sources op more hunfolds _ ih =>
    exact ⟨hunfolds.rules.1.trans ih.1, hunfolds.rules.2.trans ih.2⟩

end Workspace

end Steplib
