import Mathlib.Logic.Relation
import Steplib.Proofs.Parse.Run
import Steplib.Workspace.Membership

/-!
# Moves of a workspace

Every operation on a workspace is made of a few kinds of moves: a file is parsed, takes over a name,
has its scan recorded, is edited in place, is added or is deleted, or the files waiting for a name
are taken off the record. A property that every move keeps therefore holds in every workspace that
operations lead to, and also in the midst of every operation. The first three kinds are the
readings: parses and scans, however many files they reach, are made of these alone.

## Main definitions

* `Workspace.fresh`: the workspaces without files.
* `Workspace.Move`, `Workspace.Moves`: what operations are made of.
* `Workspace.Reading`, `Workspace.Readings`: what parses and scans are made of.
* `Workspace.Arises`: the workspaces that moves lead to.

## Main results

* `Workspace.Arises.keyed`: every file stays under its path.
* `Workspace.readings_parse`, `Workspace.readings_indexFile`, `Workspace.readings_indexAll`: parses
  and scans are sequences of readings.
-/

namespace Steplib

/-- A change of one file in place. -/
inductive Edit
  | overlay (text : Option String)
  | close
  | markStale
  | publish (tool : Tool) (ds : List Diagnostic)

/-- The file after an edit. -/
def Edit.apply (f : ModuleFile) : Edit → ModuleFile
  | overlay text => { f with overlay := text }
  | close => f.close.1
  | markStale => f.markStale.1
  | publish tool ds => { f with diagnostics := f.diagnostics.replace tool ds }

namespace Workspace

/-- The workspace without files that has the given libraries, added one after the other with their
directories and steplibs. -/
def fresh (root : Path) (faults : ParserFaults) (severity : SeverityRules)
    (libraries : List (String × Path × List String)) : Workspace :=
  { libraries.foldl (fun ws l => addLibrary ws l.1 l.2.1 l.2.2) (empty root faults) with severity }

/-- One move, while the texts on disk are `sources`. -/
inductive Move (sources : Sources) : Workspace → Workspace → Prop
  | parse {ws} (f) (hf : Live ws f) (find : String → Option Module) :
      Move sources ws (ws.install f (f.outcome sources ws.faults find).1
        (f.outcome sources ws.faults find).2)
  | name {ws} (f s) (hf : Live ws f) (hs : f.scan? sources = some s) :
      Move sources ws (ws.registerScannedName f s)
  | scan {ws} (f s) (hf : Live ws f) (hs : f.scan? sources = some s) :
      Move sources ws (ws.registerScan f s).1
  | edit (ws p) (e : Edit) : Move sources ws (ws.modifyFile p e.apply)
  | add (ws p) : Move sources ws (ws.addFile p).2
  | take (ws name) : Move sources ws { ws with waiting := (ws.waiting.take name).2 }
  | delete (ws p) : Move sources ws (ws.deleteFile p).2

/-- A sequence of moves. -/
abbrev Moves (sources : Sources) : Workspace → Workspace → Prop :=
  Relation.ReflTransGen (Move sources)

/-- A move that reads the source of a file: the file is parsed, takes over a name or has its scan
recorded. No file comes or goes. -/
inductive Reading (sources : Sources) : Workspace → Workspace → Prop
  | parse {ws} (f) (hf : Live ws f) (find : String → Option Module) :
      Reading sources ws (ws.install f (f.outcome sources ws.faults find).1
        (f.outcome sources ws.faults find).2)
  | name {ws} (f s) (hf : Live ws f) (hs : f.scan? sources = some s) :
      Reading sources ws (ws.registerScannedName f s)
  | scan {ws} (f s) (hf : Live ws f) (hs : f.scan? sources = some s) :
      Reading sources ws (ws.registerScan f s).1

/-- A sequence of readings. -/
abbrev Readings (sources : Sources) : Workspace → Workspace → Prop :=
  Relation.ReflTransGen (Reading sources)

/-- The workspaces that moves lead to: the reachable ones and those in the midst of an
operation. -/
inductive Arises : Workspace → Prop
  | fresh (root faults severity libraries) : Arises (.fresh root faults severity libraries)
  | move {ws ws' : Workspace} {sources : Sources} (h : Arises ws) (hm : Move sources ws ws') :
      Arises ws'

theorem Arises.moves {ws ws' : Workspace} {sources : Sources} (h : Arises ws)
    (hm : Moves sources ws ws') : Arises ws' := by
  induction hm with
  | refl => exact h
  | tail _ hstep ih => exact ih.move hstep

variable {sources : Sources} {ws ws' : Workspace} {f g : ModuleFile} {p q : Path}

theorem Reading.move (h : Reading sources ws ws') : Move sources ws ws' := by
  cases h with
  | parse f hf find => exact .parse f hf find
  | name f s hf hs => exact .name f s hf hs
  | scan f s hf hs => exact .scan f s hf hs

theorem Readings.moves (h : Readings sources ws ws') : Moves sources ws ws' :=
  h.lift id fun _ _ => Reading.move

/-! ### Files stay under their paths -/

theorem path_close (f : ModuleFile) : f.close.1.path = f.path := by
  rw [ModuleFile.close]
  split <;> rfl

theorem path_markStale (f : ModuleFile) : f.markStale.1.path = f.path := by
  rw [ModuleFile.markStale]
  split <;> rfl

theorem path_edit (e : Edit) (f : ModuleFile) : (e.apply f).path = f.path := by
  cases e with
  | overlay text => rfl
  | close => exact path_close f
  | markStale => exact path_markStale f
  | publish tool ds => rfl

/-- A change that keeps the path of the file keeps all files under their paths. -/
theorem Keyed.modifyFile (hk : ws.Keyed) (p : Path) {change : ModuleFile → ModuleFile}
    (hc : ∀ f, (change f).path = f.path) : (ws.modifyFile p change).Keyed := by
  intro q f hf
  rw [file?_modifyFile] at hf
  split at hf
  · obtain ⟨g, hg, rfl⟩ := Option.map_eq_some_iff.1 hf
    rw [hc]
    exact hk q g hg
  · exact hk q f hf

theorem Keyed.registerScannedName (hk : ws.Keyed) (f : ModuleFile) (s : Scan) :
    (ws.registerScannedName f s).Keyed := by
  rw [Workspace.registerScannedName]
  split
  · have hc : (ws.claimName f.library f.name (f.scannedName s) { path := f.path }).Keyed := hk
    exact hc.modifyFile f.path fun _ => rfl
  · exact hk

theorem skeleton_registerScan (ws : Workspace) (f : ModuleFile) (s : Scan) :
    (ws.registerScan f s).1.skeleton = ws.skeleton := by
  rw [registerScan]
  split
  · exact ws.skeleton_setReferences f _
  · exact ws.skeleton_setReferences f _
  · rfl

/-- The workspace in which a new file has claimed its name, if it is named by its stem. -/
def claimStem (ws : Workspace) (file : ModuleFile) : Workspace :=
  if file.type.hasHeaderName then ws
  else ws.claimName file.library file.name file.name { path := file.path }

/-- What adding a file does: nothing, unless the path is new and lies in a library. -/
theorem addFile_cases (ws : Workspace) (p : Path) :
    (ws.addFile p).2 = ws ∧ (∀ f, (ws.addFile p).1 = some f → ws.file? p = some f) ∨
    ∃ file, ws.newFile? p = some file ∧ ws.file? p = none ∧
      ws.addFile p = (some file, { ws.claimStem file with files := ws.files.insert p file }) := by
  rw [addFile]
  split
  · exact .inl ⟨rfl, fun f hf => by simp at hf⟩
  · rename_i file _ hfile
    exact .inl ⟨rfl, fun f hf => by simpa [hfile] using hf⟩
  · exact .inl ⟨rfl, fun f hf => by simp at hf⟩
  · rename_i type file htype hp hnew
    refine .inr ⟨file, hnew, hp, ?_⟩
    simp only [newFile?, htype, Option.bind_eq_bind, Option.bind_some] at hnew
    obtain ⟨l, -, hl⟩ := Option.bind_eq_some_iff.1 hnew
    obtain rfl := Option.some.inj hl
    simp only [claimStem]
    cases type.hasHeaderName <;> rfl

theorem mem_of_libraryForPath? {l : Library} (h : ws.libraryForPath? p = some l) :
    l ∈ ws.libraries := by
  have hls : ∀ k ∈ ws.libraries.filter (fun l => p.startsWith l.sourcePath), k ∈ ws.libraries :=
    fun k hk => (List.mem_filter.1 hk).1
  have hbest : ∀ k, (none : Option Library) = some k → k ∈ ws.libraries := by simp
  rw [libraryForPath?] at h
  -- whatever is the best library so far, it is one of the workspace
  generalize ws.libraries.filter (fun l => p.startsWith l.sourcePath) = ls at h hls
  generalize (none : Option Library) = best at h hbest
  induction ls generalizing best with
  | nil => exact hbest l h
  | cons k ls ih =>
    obtain ⟨hk, hls⟩ := List.forall_mem_cons.1 hls
    refine ih hls _ h fun b hb => ?_
    dsimp only at hb
    split at hb
    · split at hb
      · exact Option.some.inj hb ▸ hk
      · exact hbest b hb
    · exact Option.some.inj hb ▸ hk

/-- A new file has a library of the workspace and its stem as its name; nothing else is known of
it. -/
theorem newFile?_cases {file : ModuleFile} (h : ws.newFile? p = some file) :
    ∃ l ∈ ws.libraries, ∃ type, file =
      { path := p, library := l.name, type, name := Ascii.upper (p.stem?.getD "") } := by
  simp only [newFile?, Option.bind_eq_bind, Option.bind_eq_some_iff] at h
  obtain ⟨type, -, l, hl, hf⟩ := h
  exact ⟨l, mem_of_libraryForPath? hl, type, (Option.some.inj hf).symm⟩

theorem path_newFile? {file : ModuleFile} (h : ws.newFile? p = some file) : file.path = p := by
  obtain ⟨l, -, type, rfl⟩ := newFile?_cases h
  rfl

theorem file?_insert (ws ws₁ : Workspace) (p q : Path) (file : ModuleFile) :
    ({ ws₁ with files := ws.files.insert p file } : Workspace).file? q =
      if p.same q then some file else ws.file? q :=
  ws.files.get?_insert p q file

theorem Keyed.addFile (hk : ws.Keyed) (p : Path) : (ws.addFile p).2.Keyed := by
  rcases ws.addFile_cases p with ⟨h, -⟩ | ⟨file, hnew, -, h⟩
  · rw [h]
    exact hk
  · intro q f hf
    rw [h, file?_insert] at hf
    split at hf
    · rename_i hs
      obtain rfl := Option.some.inj hf
      rw [path_newFile? hnew]
      exact hs
    · exact hk q f hf

/-- What is left of a file at `q` when the file `f` at `p` has been deleted. -/
def released (p : Path) (f : ModuleFile) (q : Path) (g : ModuleFile) : ModuleFile :=
  let g := if f.outgoing.contains q then { g with incoming := g.incoming.erase p } else g
  if f.incoming.contains q then { g.markStale.1 with outgoing := g.outgoing.erase p } else g

theorem path_released (p : Path) (f : ModuleFile) (q : Path) (g : ModuleFile) :
    (released p f q g).path = g.path := by
  rw [released]
  split <;> split <;> simp [path_markStale]

/-- Deletion takes the file out and frees the others of their edges with it. -/
theorem file?_deleteFile (hf : ws.file? p = some f) (q : Path) :
    (ws.deleteFile p).2.file? q =
      if p.same q then none else (ws.file? q).map (released p f q) := by
  have h : (ws.withoutFile p f).get? q = ((ws.files.erase p).get? q).map (released p f q) := by
    refine PathMap.get?_map_of_congr _ (fun r s g h => ?_) q
    simp only [f.outgoing.contains_congr h, f.incoming.contains_congr h]
  rw [PathMap.get?_erase] at h
  simp only [deleteFile, hf]
  refine h.trans ?_
  by_cases hq : p.same q = true
  · simp [hq]
  · simp only [hq]
    rfl

theorem Keyed.deleteFile (hk : ws.Keyed) (p : Path) : (ws.deleteFile p).2.Keyed := by
  cases hp : ws.file? p with
  | none =>
    simp only [Workspace.deleteFile, hp]
    exact hk
  | some f =>
    intro q g hg
    rw [file?_deleteFile hp] at hg
    split at hg
    · simp at hg
    · obtain ⟨g', hg', rfl⟩ := Option.map_eq_some_iff.1 hg
      rw [path_released]
      exact hk q g' hg'

/-- Moves keep every file under its path. -/
theorem Move.keyed (h : Move sources ws ws') (hk : ws.Keyed) : ws'.Keyed := by
  cases h with
  | parse f hf find => exact hk.of_skeleton (skeleton_install ..)
  | name f s hf hs => exact hk.registerScannedName f s
  | scan f s hf hs => exact hk.of_skeleton (skeleton_registerScan ..)
  | edit p e => exact hk.modifyFile p (path_edit e)
  | add p => exact hk.addFile p
  | take name => exact hk
  | delete p => exact hk.deleteFile p

theorem Moves.keyed (h : Moves sources ws ws') (hk : ws.Keyed) : ws'.Keyed := by
  induction h with
  | refl => exact hk
  | tail _ hm ih => exact hm.keyed ih

/-- Adding libraries changes nothing else. -/
theorem foldl_addLibrary_eq (libraries : List (String × Path × List String)) (ws : Workspace) :
    let ws' := libraries.foldl (fun ws l => addLibrary ws l.1 l.2.1 l.2.2) ws
    ws' = { ws with libraries := ws'.libraries } := by
  induction libraries generalizing ws with
  | nil => rfl
  | cons l libraries ih =>
    rw [List.foldl_cons, ih]
    rw [addLibrary]
    split <;> rfl

section Fresh

variable (root : Path) (faults : ParserFaults) (severity : SeverityRules)
  (libraries : List (String × Path × List String))

/-- A fresh workspace has no files. -/
@[simp]
theorem file?_fresh (p : Path) : (fresh root faults severity libraries).file? p = none := by
  rw [fresh, foldl_addLibrary_eq]
  rfl

@[simp]
theorem waiting_fresh : (fresh root faults severity libraries).waiting = {} := by
  rw [fresh, foldl_addLibrary_eq]
  rfl

@[simp]
theorem cache_fresh : (fresh root faults severity libraries).cache = {} := by
  rw [fresh, foldl_addLibrary_eq]
  rfl

end Fresh

theorem Arises.keyed (h : Arises ws) : ws.Keyed := by
  induction h with
  | fresh => exact fun p f hf => by simp at hf
  | move _ hm ih => exact hm.keyed ih

/-! ### A parse is a sequence of readings -/

section Runs

variable {busy log : List Path} {library : String} {names : List String}
  {found : List (String × Option Module)}

/-- A file that was live before a run is settled after it by a reading. -/
theorem Finds.reading_settle (h : Finds sources busy library names ws found ws' log)
    (hk : ws.Keyed) (hf : ws.Live f) : Reading sources ws' (settle sources f ws' found) := by
  obtain ⟨f', hf', hb⟩ := exists_file_of_skeleton h.skeleton hf
  have hlive : ws'.Live f' := (hk.of_skeleton h.skeleton).live hf'
  have hm : Reading sources ws' _ := .parse f' hlive (foundModule found)
  rwa [ModuleFile.outcome_eq_of_bare hb, install_congr ws' hb] at hm

theorem Finds.readings (h : Finds sources busy library names ws found ws' log) (hk : ws.Keyed) :
    Readings sources ws ws' := by
  induction h with
  | nil => exact .refl
  | missing _ _ ih => exact ih hk
  | known _ _ ih => exact ih hk
  | pending _ _ _ ih => exact ih hk
  | nested hl _ run rest ihRun ihRest =>
    obtain ⟨p, hp⟩ := file?_of_lookUp hl
    have hsettle := run.reading_settle hk (hk.live hp)
    exact ((ihRun hk).tail hsettle).trans (ihRest (hk.of_skeleton (run.skeleton_settle _)))

theorem Parses.readings {m : Module} (h : Parses sources busy f ws m ws' log) (hk : ws.Keyed)
    (hf : ws.Live f) : Readings sources ws ws' := by
  cases h with
  | intro run => exact (run.readings hk).tail (run.reading_settle hk hf)

theorem Parses.moves {m : Module} (h : Parses sources busy f ws m ws' log) (hk : ws.Keyed)
    (hf : ws.Live f) : Moves sources ws ws' :=
  (h.readings hk hf).moves

end Runs

theorem readings_parse (sources : Sources) (hk : ws.Keyed) (hf : ws.Live f) :
    Readings sources ws (ws.parse sources f).2 := by
  obtain ⟨log, hrun⟩ := parses_parse sources hk f
  exact hrun.readings hk hf

theorem moves_parse (sources : Sources) (hk : ws.Keyed) (hf : ws.Live f) :
    Moves sources ws (ws.parse sources f).2 :=
  (readings_parse sources hk hf).moves

/-! ### Indexing is a sequence of readings -/

/-- The file without its name and its edges, which indexing can change. -/
def unlinked (f : ModuleFile) : ModuleFile :=
  { f with name := "", outgoing := .empty, incoming := .empty }

/-- Recording a scan does not ask for the name and the edges of the file. -/
theorem registerScan_congr (ws : Workspace) (h : unlinked f = unlinked g) (s : Scan) :
    ws.registerScan f s = ws.registerScan g s := by
  have hpath : f.path = g.path := congrArg (·.path) h
  have hlibrary : f.library = g.library := congrArg (·.library) h
  have hstate : f.state = g.state := congrArg (·.state) h
  simp only [registerScan, cacheReferences, setReferences, hpath, hlibrary, hstate]

theorem scan?_congr (h : unlinked f = unlinked g) : f.scan? sources = g.scan? sources := by
  have hpath : f.path = g.path := congrArg (·.path) h
  have htype : f.type = g.type := congrArg (·.type) h
  have hoverlay : f.overlay = g.overlay := congrArg (·.overlay) h
  simp only [ModuleFile.scan?, ModuleFile.source, hpath, htype, hoverlay]

theorem unlinked_registerScannedName (ws : Workspace) (f : ModuleFile) (s : Scan) (q : Path) :
    ((ws.registerScannedName f s).file? q).map unlinked = (ws.file? q).map unlinked := by
  rw [registerScannedName]
  split
  · rw [file?_modifyFile]
    split
    · rw [Option.map_map]
      rfl
    · rfl
  · rfl

/-- Only the file that takes over a name is changed. -/
theorem file?_registerScannedName_of_not_same (ws : Workspace) (s : Scan)
    (h : f.path.same q = false) : (ws.registerScannedName f s).file? q = ws.file? q := by
  rw [registerScannedName]
  split
  · rw [file?_modifyFile, h]
    rfl
  · rfl

theorem file?_registerScan (hf : ws.Live f) (s : Scan) (q : Path) :
    (ws.registerScan f s).1.file? q = ws.file? q ∨
      (ws.registerScan f s).1.file? q = (ws.file? q).map
        (rewired f.path f.outgoing (ws.targets f (s.candidates.map (·.name))) q) := by
  rw [registerScan]
  split
  · exact .inr (file?_setReferences hf _ q)
  · exact .inr (file?_setReferences hf _ q)
  · exact .inl rfl

theorem unlinked_registerScan (hf : ws.Live f) (s : Scan) (q : Path) :
    ((ws.registerScan f s).1.file? q).map unlinked = (ws.file? q).map unlinked := by
  rcases file?_registerScan hf s q with h | h
  · rw [h]
  · rw [h, Option.map_map]
    rfl

/-- A scan is recorded by a reading as long as at most the name and the edges of the file have
changed since it was looked up. -/
theorem reading_registerScan (hk : ws.Keyed) {s : Scan}
    (hf : (ws.file? f.path).map unlinked = some (unlinked f)) (hs : f.scan? sources = some s) :
    Reading sources ws (ws.registerScan f s).1 ∧
      ∀ q, ((ws.registerScan f s).1.file? q).map unlinked = (ws.file? q).map unlinked := by
  obtain ⟨f', hf', hb⟩ := Option.map_eq_some_iff.1 hf
  have hlive : ws.Live f' := hk.live hf'
  rw [← registerScan_congr ws hb]
  exact ⟨.scan f' s hlive (by rw [scan?_congr hb, hs]), unlinked_registerScan hlive s⟩

theorem move_registerScan (hk : ws.Keyed) {s : Scan}
    (hf : (ws.file? f.path).map unlinked = some (unlinked f)) (hs : f.scan? sources = some s) :
    Move sources ws (ws.registerScan f s).1 ∧
      ∀ q, ((ws.registerScan f s).1.file? q).map unlinked = (ws.file? q).map unlinked :=
  (reading_registerScan hk hf hs).imp_left Reading.move

theorem readings_indexFile (sources : Sources) (hk : ws.Keyed) (hf : ws.Live f) :
    Readings sources ws (ws.indexFile sources f).1 := by
  rw [indexFile]
  split
  · exact .refl
  · rename_i s hs
    have hsame : ((ws.registerScannedName f s).file? f.path).map unlinked = some (unlinked f) := by
      rw [unlinked_registerScannedName, hf]
      rfl
    have hscan := (reading_registerScan (hk.registerScannedName f s) hsame hs).1
    exact (Relation.ReflTransGen.single (.name f s hf hs)).tail hscan

/-- The names of live files at different paths are registered by readings, one after the other. -/
theorem readings_registerNames {scans : List (ModuleFile × Scan)} (hk : ws.Keyed)
    (hscans : ∀ e ∈ scans, ws.Live e.1 ∧ e.1.scan? sources = some e.2)
    (hdistinct : scans.Pairwise fun a b => a.1.path.same b.1.path = false) :
    Readings sources ws (scans.foldl (fun ws e => ws.registerScannedName e.1 e.2) ws) ∧
      ∀ q, ((scans.foldl (fun ws e => ws.registerScannedName e.1 e.2) ws).file? q).map unlinked =
        (ws.file? q).map unlinked := by
  induction scans generalizing ws with
  | nil => exact ⟨.refl, fun _ => rfl⟩
  | cons e scans ih =>
    obtain ⟨hlive, hs⟩ := hscans e List.mem_cons_self
    obtain ⟨hfirst, hrest⟩ := List.pairwise_cons.1 hdistinct
    have hlater : ∀ d ∈ scans, (ws.registerScannedName e.1 e.2).Live d.1 ∧
        d.1.scan? sources = some d.2 := fun d hd => by
      obtain ⟨hl, hsd⟩ := hscans d (List.mem_cons_of_mem e hd)
      exact ⟨(file?_registerScannedName_of_not_same ws e.2 (hfirst d hd)).trans hl, hsd⟩
    obtain ⟨hmoves, hkept⟩ := ih (hk.registerScannedName e.1 e.2) hlater hrest
    refine ⟨.head (.name _ _ hlive hs) hmoves, fun q => ?_⟩
    rw [List.foldl_cons, hkept, unlinked_registerScannedName]

theorem moves_registerNames {scans : List (ModuleFile × Scan)} (hk : ws.Keyed)
    (hscans : ∀ e ∈ scans, ws.Live e.1 ∧ e.1.scan? sources = some e.2)
    (hdistinct : scans.Pairwise fun a b => a.1.path.same b.1.path = false) :
    Moves sources ws (scans.foldl (fun ws e => ws.registerScannedName e.1 e.2) ws) ∧
      ∀ q, ((scans.foldl (fun ws e => ws.registerScannedName e.1 e.2) ws).file? q).map unlinked =
        (ws.file? q).map unlinked :=
  (readings_registerNames hk hscans hdistinct).imp_left Readings.moves

/-- The workspace after several scans does not depend on the count of edges. -/
theorem registerScans_eq (ws : Workspace) (scans : List (ModuleFile × Scan)) :
    (ws.registerScans scans).1 = scans.foldl (fun ws e => (ws.registerScan e.1 e.2).1) ws := by
  rw [registerScans]
  generalize 0 = edges
  induction scans generalizing ws edges with
  | nil => rfl
  | cons e scans ih => exact ih _ _

theorem readings_registerScans {scans : List (ModuleFile × Scan)} (hk : ws.Keyed)
    (hscans : ∀ e ∈ scans, (ws.file? e.1.path).map unlinked = some (unlinked e.1) ∧
      e.1.scan? sources = some e.2) : Readings sources ws (ws.registerScans scans).1 := by
  rw [registerScans_eq]
  induction scans generalizing ws with
  | nil => exact .refl
  | cons e scans ih =>
    obtain ⟨hf, hs⟩ := hscans e List.mem_cons_self
    obtain ⟨hread, hkept⟩ := reading_registerScan hk hf hs
    refine .head hread (ih (hread.move.keyed hk) fun d hd => ?_)
    obtain ⟨hd', hsd⟩ := hscans d (List.mem_cons_of_mem e hd)
    exact ⟨(hkept d.1.path).trans hd', hsd⟩

/-- The files of a workspace have different paths. -/
theorem Keyed.pairwise_values (hk : ws.Keyed) :
    ws.files.values.Pairwise fun f g => f.path.same g.path = false := by
  have hpath : ∀ e ∈ ws.files.entries, e.2.path.same e.1 = true := fun e he =>
    hk e.1 e.2 (PathMap.get?_of_mem he)
  rw [PathMap.values, List.pairwise_map]
  refine ws.files.ordered.imp_of_mem fun ha hb hab => ?_
  rw [Path.same_congr_left (hpath _ ha), Path.same_congr_right (hpath _ hb)]
  exact Path.same_of_before hab

/-- The files that can be read, with their scans. -/
def scans (sources : Sources) (ws : Workspace) : List (ModuleFile × Scan) :=
  ws.files.values.filterMap fun f => (f.scan? sources).map (f, ·)

theorem Keyed.live_of_mem_scans (hk : ws.Keyed) {e : ModuleFile × Scan}
    (he : e ∈ ws.scans sources) : ws.Live e.1 ∧ e.1.scan? sources = some e.2 := by
  obtain ⟨f, hf, hs⟩ := List.mem_filterMap.1 he
  obtain ⟨s, hscan, rfl⟩ := Option.map_eq_some_iff.1 hs
  obtain ⟨p, hp⟩ := PathMap.mem_values.1 hf
  exact ⟨hk.live hp, hscan⟩

theorem Keyed.pairwise_scans (hk : ws.Keyed) :
    (ws.scans sources).Pairwise fun a b => a.1.path.same b.1.path = false := by
  refine hk.pairwise_values.filterMap _ fun f g hfg a ha b hb => ?_
  obtain ⟨_, -, rfl⟩ := Option.map_eq_some_iff.1 ha
  obtain ⟨_, -, rfl⟩ := Option.map_eq_some_iff.1 hb
  exact hfg

theorem readings_indexAll (sources : Sources) (hk : ws.Keyed) (cancelled : Bool) :
    Readings sources ws (ws.indexAll sources cancelled).1 := by
  cases cancelled with
  | true => exact .refl
  | false =>
    obtain ⟨hnames, hkept⟩ := readings_registerNames hk (fun e => hk.live_of_mem_scans)
      hk.pairwise_scans
    refine hnames.trans (readings_registerScans (hnames.moves.keyed hk) fun e he => ?_)
    obtain ⟨hl, hs⟩ := hk.live_of_mem_scans he
    exact ⟨by rw [hkept, hl]; rfl, hs⟩

theorem moves_indexAll (sources : Sources) (hk : ws.Keyed) (cancelled : Bool) :
    Moves sources ws (ws.indexAll sources cancelled).1 :=
  (readings_indexAll sources hk cancelled).moves

end Workspace

end Steplib
