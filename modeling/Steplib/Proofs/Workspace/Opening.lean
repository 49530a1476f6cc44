import Steplib.Project.Load
import Steplib.Proofs.Parse.Answers
import Steplib.Proofs.Workspace.Batch

/-!
# Opening a file before and after indexing

A project is indexed in the background while its files are opened, so a file may be opened before
or after indexing. Indexing leaves a file that has been parsed alone, so the two orders differ only
in what the parse of the file has seen: before indexing the names of subroutines and functions are
not taken over yet. The edges, the waits and the parser diagnostics of the file are the same in both
orders exactly when this does not matter to the names that the file refers to.

## Main definitions

* `Workspace.Loaded`: the workspaces whose files have neither been scanned nor parsed.
* `Workspace.SameRecords`: the edges, waits and parser diagnostics of a file are the same.
* `Workspace.Shows`: the edges and waits of a file follow from names.

## Main results

* `Project.loaded_load`: loading a project gives a loaded workspace.
* `Workspace.Arises.kept_indexAll`: indexing leaves the files that have a module alone.
* `Workspace.Loaded.eq_of_same`: names that are held before indexing are held after it.
* `Workspace.Loaded.opening_commutes_iff`: when the order does not matter.
* `Workspace.opening_left_behind`: a file that is opened too early is left behind.
-/

namespace Steplib

namespace Workspace

/-- The workspaces that have been loaded: files were added, and nothing has been scanned or parsed
yet. -/
inductive Loaded : Workspace → Prop
  | fresh (root faults severity libraries) : Loaded (.fresh root faults severity libraries)
  | add {ws : Workspace} (h : Loaded ws) (p : Path) : Loaded (ws.addFile p).2

/-- The file at the path has the same edges, waits for the same names and has the same parser
diagnostics in both workspaces. -/
def SameRecords (ws ws' : Workspace) (p : Path) : Prop :=
  ∃ f f', ws.file? p = some f ∧ ws'.file? p = some f' ∧
    (∀ q, f.outgoing.contains q = f'.outgoing.contains q) ∧
    (∀ name, ws.waiting.Waits p name ↔ ws'.waiting.Waits p name) ∧
    f.diagnostics.ofTool .parser = f'.diagnostics.ofTool .parser

/-- Of the file `g` at the path `p` the workspace has on record an edge to every other file that one
of the names stands for in `base`, a wait for every name that stands for nothing there, and the
parser diagnostics `ds`. -/
structure Shows (base : Workspace) (library : String) (names : List String)
    (ds : List Diagnostic) (ws : Workspace) (p : Path) (g : ModuleFile) : Prop where
  edges : ∀ q, g.outgoing.contains q = true ↔ ∃ name ∈ names, ∃ holder,
    base.resolve? library name = some holder ∧ holder.path.same p = false ∧
      holder.path.same q = true
  waits : ∀ name, ws.waiting.Waits p name ↔ name ∈ names ∧ base.resolve? library name = none
  diagnostics : g.diagnostics.ofTool .parser = ds

variable {ws : Workspace} {library name : String} {holder : Holder}

/-! ### Loading -/

theorem Loaded.arises (h : Loaded ws) : Arises ws := by
  induction h with
  | fresh => exact .fresh ..
  | add _ p ih => exact ih.move (.add _ p : Move (fun _ => .error .notFound) _ _)

theorem Loaded.unparsed (h : Loaded ws) : ws.Unparsed := by
  induction h with
  | fresh => exact fun p f hf => by simp at hf
  | @add ws _ p ih =>
    intro q f hf
    rcases ws.addFile_cases p with ⟨hkept, -⟩ | ⟨new, hnew, hp, -⟩
    · rw [hkept] at hf
      exact ih q f hf
    · rw [file?_addFile hnew hp] at hf
      split at hf
      · obtain rfl := Option.some.inj hf
        obtain ⟨l, -, type, rfl⟩ := newFile?_cases hnew
        rfl
      · exact ih q f hf

/-- Only files that are named by their stem hold a name. -/
theorem Loaded.claimsStem (h : Loaded ws) (hh : ws.holder? library name = some holder) :
    ∃ f, ws.file? holder.path = some f ∧ claimsStem f = true := by
  induction h with
  | fresh => simp [holder?_fresh] at hh
  | @add ws hloaded p ih =>
    rcases ws.addFile_cases p with ⟨hkept, -⟩ | ⟨new, hnew, hp, -⟩
    · rw [hkept] at hh ⊢
      exact ih hh
    · have hold (hh : ws.holder? library name = some holder) :
          ∃ f, (ws.addFile p).2.file? holder.path = some f ∧ Workspace.claimsStem f = true := by
        obtain ⟨f, hf, hstem⟩ := ih hh
        refine ⟨f, ?_, hstem⟩
        rw [file?_addFile hnew hp, if_neg, hf]
        intro hs
        rw [← ws.file?_congr hs, hp] at hf
        simp at hf
      rw [holder?_addFile hnew hp hloaded.arises.named] at hh
      split at hh
      · rename_i hstem
        cases hheld : ws.holder? library name with
        | none =>
          rw [hheld] at hh
          obtain rfl := Option.some.inj hh
          refine ⟨new, ?_, by simp [Workspace.claimsStem, hstem.1]⟩
          rw [file?_addFile hnew hp]
          simp
        | some taken =>
          rw [hheld] at hh
          obtain rfl := Option.some.inj hh
          exact hold hheld
      · exact hold hh

end Workspace

/-- The libraries of a project in the order in which loading adds them. -/
def Project.libraries (dir : Path) (onDisk : List (String × Path)) (m : Manifest) :
    List (String × Path × List String) :=
  m.libraries.map (fun l => (l.1, (onDisk.lookup l.1).getD (dir.child l.1), l.2)) ++
    onDisk.map (fun l => (l.1, l.2, m.steplibs l.1)) ++
    [(systemLibrary, dir.child systemLibrary, [])]

/-- Loading a project reads its manifest and adds its files to a workspace that has its
libraries. -/
theorem Project.exists_load {d : Disk} {faults : ParserFaults} {root : Path} {ws : Workspace}
    (h : load d faults root = .ok ws) : ∃ m severity, loadManifest d root = .ok m ∧
      ws = addSources d (.fresh root faults severity (libraries (root.child librariesDirectory)
        (d.libraryDirectories (root.child librariesDirectory)) m)) := by
  rw [load] at h
  split at h
  · simp only [bind, Except.bind] at h
    split at h
    · simp at h
    · rename_i m hm
      split at h
      · simp at h
      · rename_i severity _
        obtain rfl := Except.ok.inj h
        refine ⟨m, severity, hm, ?_⟩
        simp only [Workspace.fresh, libraries, List.foldl_append, List.foldl_map]
        rfl
  · cases h

/-- Loading a project gives a loaded workspace. -/
theorem Project.loaded_load {d : Disk} {faults : ParserFaults} {root : Path} {ws : Workspace}
    (h : load d faults root = .ok ws) : ws.Loaded := by
  obtain ⟨m, severity, -, rfl⟩ := exists_load h
  rw [addSources]
  exact List.foldlRecOn _ _ (.fresh ..) fun _ hws p _ => .add hws p

namespace Workspace

variable {sources : Sources} {base ws ws' : Workspace} {f f' g : ModuleFile} {p : Path}
  {library name : String} {names : List String} {ds ds' : List Diagnostic} {holder holder' : Holder}

/-! ### What opening writes down -/

/-- Opening a file of a workspace without modules writes down what a parse of the file gives. -/
theorem Arises.shows_openFile (ha : Arises ws) (hu : ws.Unparsed) (sources : Sources)
    (hp : ws.file? p = some f) :
    ∃ g, (ws.openFile sources p).2.file? p = some g ∧ g.state.module?.isSome ∧
      Shows ws f.library (f.lookups sources ws.faults) (ws.report sources f).2
        (ws.openFile sources p).2 p g := by
  have hopen : (ws.openFile sources p).2 = (ws.parse sources f).2 := by
    simp only [openFile, hp, hu p f hp]
  have hdate : ws.UpToDate sources [f.path] := fun q g m hg hm => by
    simp [hu q g hg, ModuleState.module?] at hm
  obtain ⟨g, hg, hb, hstate, hfollows, hds⟩ := ha.exists_parse (ha.keyed.live hp) hdate
  have hskeleton : (ws.parse sources f).2.skeleton = ws.skeleton :=
    (refreshes_parse sources ha.keyed ha.mirrored (ha.keyed.live hp)).1.skeleton
  have hs : f.path.same p = true := ha.keyed p f hp
  have hpath : g.path = f.path := ModuleFile.path_eq_of_bare hb
  have hlibrary : g.library = f.library := ModuleFile.library_eq_of_bare hb
  have hreferred (name : String) :
      name ∈ g.referred sources ↔ name ∈ f.lookups sources ws.faults := by
    rw [ModuleFile.referred, hstate]
    exact ModuleFile.mem_references_content name
  rw [file?_congr _ hs] at hg
  rw [hopen]
  refine ⟨g, hg, by rw [hstate]; rfl, fun q => ?_, fun name => ?_, hds⟩
  · rw [hfollows.contains_outgoing_iff]
    simp only [hreferred, resolve?_eq_of_skeleton hskeleton, hlibrary, hpath,
      Path.same_congr_right hs]
  · rw [← WaitingIndex.Waits.congr hs, ← hpath, hfollows.waits_iff]
    simp only [hreferred, resolve?_eq_of_skeleton hskeleton, hlibrary]
    constructor
    · rintro ⟨other, hother, rfl, hnone⟩
      rw [ModuleFile.upper_of_mem_lookups hother]
      exact ⟨hother, hnone⟩
    · rintro ⟨hname, hnone⟩
      exact ⟨name, hname, ModuleFile.upper_of_mem_lookups hname, hnone⟩

/-! ### What indexing leaves alone -/

/-- Recording scans leaves the files that have a module alone. -/
theorem Arises.kept_registerScans (ha : Arises ws) {scans : List (ModuleFile × Scan)}
    (hscans : ∀ e ∈ scans, (ws.file? e.1.path).map unlinked = some (unlinked e.1) ∧
      e.1.scan? sources = some e.2) (hm : ws.HasModule p) :
    Kept ws (ws.registerScans scans).1 p := by
  rw [registerScans_eq]
  induction scans generalizing ws with
  | nil => exact .refl ws p
  | cons e scans ih =>
    obtain ⟨⟨hf, hscan⟩, hrest⟩ := List.forall_mem_cons.1 hscans
    have hmove := move_registerScan ha.keyed hf hscan
    have hfirst : Kept ws (ws.registerScan e.1 e.2).1 p := by
      by_cases hstate : e.1.state = .unparsed ∨ e.1.state = .closed
      · refine (aligns_registerScan_of_unlinked ha.keyed ha.mirrored hf hscan hstate).others p ?_
        by_contra hs
        obtain ⟨f, m, hfile, hmodule⟩ := hm
        rw [ws.file?_congr (by simpa using hs), hfile] at hf
        have hsame : f.state = e.1.state := congrArg (·.state) (Option.some.inj hf)
        rw [hsame] at hmodule
        rcases hstate with h | h <;> simp [h, ModuleState.module?] at hmodule
      · have hnone : (ws.registerScan e.1 e.2).1 = ws := by
          rw [registerScan]
          split <;> simp_all
        rw [hnone]
        exact .refl ws p
    refine hfirst.trans (ih (ha.move hmove.1) (fun d hd => ?_) (hm.of_own hfirst.own))
    rw [hmove.2]
    exact hrest d hd

/-- Indexing gives a file that has a module the name of its scan and leaves it alone otherwise. -/
theorem Arises.kept_indexAll (ha : Arises ws) (sources : Sources) (hp : ws.file? p = some f)
    (hm : f.state.module?.isSome) :
    (∃ g, (ws.indexAll sources false).1.file? p = some g ∧ g.own = (f.settle sources).own) ∧
      ∀ name, (ws.indexAll sources false).1.waiting.Waits p name ↔ ws.waiting.Waits p name := by
  have hk := ha.keyed
  have hnamed : (ws.registerNames (ws.scans sources)).file? p = some (f.settle sources) := by
    rw [hk.file?_registerNames, hp]
    rfl
  have hkept : Kept (ws.registerNames (ws.scans sources)) (ws.indexAll sources false).1 p := by
    obtain ⟨m, hm⟩ := Option.isSome_iff_exists.1 hm
    have hscans (e : ModuleFile × Scan) (he : e ∈ ws.scans sources) :=
      And.intro (hk.unlinked_registerNames he) (hk.live_of_mem_scans he).2
    exact (ha.registerNames sources).kept_registerScans hscans ⟨_, m, hnamed, hm⟩
  refine ⟨hkept.exists_file hnamed, fun name => ?_⟩
  rw [hkept.waits, (ws.records_registerNames _).1]

/-- What opening a file has written down is still on record after indexing. -/
theorem Arises.shows_indexAll (ha : Arises ws) (sources : Sources) (hp : ws.file? p = some g)
    (hm : g.state.module?.isSome) (h : Shows base library names ds ws p g) :
    ∃ g', (ws.indexAll sources false).1.file? p = some g' ∧
      Shows base library names ds (ws.indexAll sources false).1 p g' := by
  obtain ⟨⟨g', hg', ho⟩, hwaits⟩ := ha.kept_indexAll sources hp hm
  have houtgoing : g'.outgoing = g.outgoing := congrArg (·.outgoing) ho
  have hdiagnostics : g'.diagnostics = g.diagnostics := congrArg (·.diagnostics) ho
  refine ⟨g', hg', fun q => ?_, fun name => ?_, ?_⟩
  · rw [houtgoing, h.edges]
  · rw [hwaits, h.waits]
  · rw [hdiagnostics, h.diagnostics]

/-! ### What indexing does to the names -/

/-- Indexing a loaded workspace gives every file the name of its scan and parses none. -/
theorem Loaded.file?_indexAll (h : Loaded ws) (sources : Sources) (q : Path) :
    ((ws.indexAll sources false).1.file? q).map ModuleFile.bare =
      (ws.file? q).map fun f => (f.settle sources).bare := by
  have hindexes := h.arises.indexes_indexAll h.unparsed sources
  rw [map_bare_file?_of_skeleton hindexes.refreshes.skeleton, h.arises.keyed.file?_registerNames,
    Option.map_map]
  rfl

theorem Loaded.unparsed_indexAll (h : Loaded ws) (sources : Sources) :
    (ws.indexAll sources false).1.Unparsed := by
  refine (h.arises.indexes_indexAll h.unparsed sources).unparsed fun q f hf => ?_
  rw [h.arises.keyed.file?_registerNames] at hf
  obtain ⟨g, hg, rfl⟩ := Option.map_eq_some_iff.1 hf
  exact h.unparsed q g hg

theorem Reading.faults (h : Reading sources ws ws') : ws'.faults = ws.faults := by
  cases h with
  | parse f hf find => exact faults_eq_of_skeleton (skeleton_install ..)
  | name f s hf hs =>
    rw [registerScannedName]
    split <;> rfl
  | scan f s hf hs => exact faults_eq_of_skeleton (skeleton_registerScan ..)

theorem Readings.faults (h : Readings sources ws ws') : ws'.faults = ws.faults := by
  induction h with
  | refl => rfl
  | tail _ hread ih => exact hread.faults.trans ih

theorem Loaded.faults_indexAll (h : Loaded ws) (sources : Sources) :
    (ws.indexAll sources false).1.faults = ws.faults :=
  Readings.faults (readings_indexAll sources h.arises.keyed false)

/-- A file that holds a name in a loaded workspace has this name, and no other, after indexing. -/
theorem Loaded.eq_of_same (h : Loaded ws) {library' other : String}
    (hr : ws.resolve? library name = some holder)
    (hr' : (ws.indexAll sources false).1.resolve? library' other = some holder')
    (hs : holder.path.same holder'.path = true) :
    holder' = holder ∧ Ascii.upper other = Ascii.upper name := by
  have ha := h.arises
  have hn' := (ha.moves (moves_indexAll sources ha.keyed false)).named
  obtain ⟨steplib, hh⟩ := exists_holder?_of_resolve? hr
  obtain ⟨f, hf, hstem⟩ := h.claimsStem hh
  obtain ⟨hlive, f₁, hf₁, hpath, -, hname⟩ := ha.named.holds_of_holder? hh
  obtain rfl := Option.some.inj (hf.symm.trans hf₁)
  obtain ⟨-, -, hlive', f', hf', hpath', -, hname'⟩ := hn'.holds_of_resolve? hr'
  have hb := h.file?_indexAll sources holder.path
  rw [file?_congr _ hs, hf', hf, Option.map_some, Option.map_some,
    settle_of_claimsStem sources hstem] at hb
  have hb := Option.some.inj hb
  obtain ⟨path, live⟩ := holder
  obtain ⟨path', live'⟩ := holder'
  refine ⟨?_, ?_⟩
  · simp_all [← ModuleFile.path_eq_of_bare hb]
  · rw [← hname, ← hname', ModuleFile.name_eq_of_bare hb]

/-! ### Both orders -/

/-- What is on record of the file when it is opened before indexing. -/
theorem Loaded.shows_early (h : Loaded ws) (sources : Sources) (hp : ws.file? p = some f) :
    ∃ g, ((ws.openFile sources p).2.indexAll sources false).1.file? p = some g ∧
      Shows ws f.library (f.lookups sources ws.faults) (ws.report sources f).2
        ((ws.openFile sources p).2.indexAll sources false).1 p g := by
  have ha := h.arises
  have hopen : Arises (ws.openFile sources p).2 :=
    ha.moves (Readings.moves (readings_openFile sources ha.keyed p))
  obtain ⟨g, hg, hmodule, hshows⟩ := ha.shows_openFile h.unparsed sources hp
  exact hopen.shows_indexAll sources hg hmodule hshows

/-- What is on record of the file when it is opened after indexing. -/
theorem Loaded.shows_late (h : Loaded ws) (sources : Sources) (hp : ws.file? p = some f) :
    ∃ g, ((ws.indexAll sources false).1.openFile sources p).2.file? p = some g ∧
      Shows (ws.indexAll sources false).1 f.library ((f.settle sources).lookups sources ws.faults)
        ((ws.indexAll sources false).1.report sources (f.settle sources)).2
        ((ws.indexAll sources false).1.openFile sources p).2 p g := by
  have ha := h.arises
  have hindex : Arises (ws.indexAll sources false).1 :=
    ha.moves (moves_indexAll sources ha.keyed false)
  have hfile := h.file?_indexAll sources p
  rw [hp] at hfile
  obtain ⟨f', hf', hb⟩ := Option.map_eq_some_iff.1 hfile
  obtain ⟨g, hg, -, hshows⟩ := hindex.shows_openFile (h.unparsed_indexAll sources) sources hf'
  rw [ModuleFile.lookups_eq_of_bare hb, report_eq_of_bare hb, ModuleFile.library_eq_of_bare hb,
    h.faults_indexAll] at hshows
  exact ⟨g, hg, hshows⟩

/-- The diagnostics tell whether the parser fails alike under both names of the file. -/
theorem Loaded.alike_of_report (h : Loaded ws)
    (hds : (ws.report sources f).2 =
      ((ws.indexAll sources false).1.report sources (f.settle sources)).2) :
    ws.faults.Alike (f.settledName sources) f.name := by
  rw [report, report, h.faults_indexAll] at hds
  cases hs : f.source sources with
  | error cause =>
    have hname : f.settledName sources = f.name := by
      simp [ModuleFile.settledName, ModuleFile.scan?, hs, Except.toOption]
    rw [hname]
    rfl
  | ok text => exact ModuleFile.alike_of_snd_outcome hs hds.symm

/-- The diagnostics are the same if the parser fails alike under both names of the file and the
names that are looked up stand for the same files. -/
theorem Loaded.report_indexAll (h : Loaded ws)
    (halike : ws.faults.Alike (f.settledName sources) f.name)
    (hsame : ∀ name ∈ f.lookups sources ws.faults,
      (ws.indexAll sources false).1.resolve? f.library name = ws.resolve? f.library name) :
    ((ws.indexAll sources false).1.report sources (f.settle sources)).2 =
      (ws.report sources f).2 := by
  have hanswers : (ws.indexAll sources false).1.answers sources [f.path] f.library
      (f.lookups sources ws.faults) =
        ws.answers sources [f.path] f.library (f.lookups sources ws.faults) := by
    refine List.map_congr_left fun name hname => ?_
    rw [answer_congr (h.faults_indexAll sources) (hsame name hname) fun holder hr => ?_]
    obtain ⟨steplib, hh⟩ := exists_holder?_of_resolve? hr
    obtain ⟨target, htarget, hstem⟩ := h.claimsStem hh
    rw [h.file?_indexAll, htarget, Option.map_some, settle_of_claimsStem sources hstem]
    rfl
  have hlookups : (f.settle sources).lookups sources ws.faults = f.lookups sources ws.faults :=
    ModuleFile.lookups_rename halike
  rw [report, report, h.faults_indexAll, hlookups]
  refine (ModuleFile.snd_outcome_rename halike _).trans ?_
  exact congrArg (fun found => (f.outcome sources ws.faults (foundModule found)).2) hanswers

section Orders

variable {early late : Workspace} (h : Loaded ws) (he : Shows ws library names ds early p g)
  (hl : Shows (ws.indexAll sources false).1 library names ds' late p f')

include h he hl

/-- The edges and waits tell which file each name stands for. -/
theorem Loaded.resolve?_eq_of_records
    (hedges : ∀ q, g.outgoing.contains q = f'.outgoing.contains q)
    (hwaits : ∀ name, early.waiting.Waits p name ↔ late.waiting.Waits p name)
    (hname : name ∈ names) :
    (ws.indexAll sources false).1.resolve? library name = ws.resolve? library name := by
  cases hr : ws.resolve? library name with
  | none => exact ((hl.waits name).1 ((hwaits name).1 ((he.waits name).2 ⟨hname, hr⟩))).2
  | some holder =>
    cases hr' : (ws.indexAll sources false).1.resolve? library name with
    | none =>
      have hnone := ((he.waits name).1 ((hwaits name).2 ((hl.waits name).2 ⟨hname, hr'⟩))).2
      simp [hr] at hnone
    | some holder' =>
      refine congrArg some ?_
      cases hself : holder.path.same p with
      | false =>
        -- the edge to the file comes from a name that the file still has after indexing
        have hedge := (he.edges holder.path).2 ⟨name, hname, holder, hr, hself, Path.same_refl _⟩
        rw [hedges] at hedge
        obtain ⟨other, -, target, ht, -, hs⟩ := (hl.edges _).1 hedge
        rw [Path.same_comm] at hs
        obtain ⟨rfl, hupper⟩ := h.eq_of_same hr ht hs
        rw [← resolve?_upper, ← hupper, resolve?_upper, ht] at hr'
        exact (Option.some.inj hr').symm
      | true =>
        cases hself' : holder'.path.same p with
        | false =>
          have hedge :=
            (hl.edges holder'.path).2 ⟨name, hname, holder', hr', hself', Path.same_refl _⟩
          rw [← hedges] at hedge
          obtain ⟨other, -, target, ht, hother, hs⟩ := (he.edges _).1 hedge
          obtain ⟨-, hupper⟩ := h.eq_of_same ht hr' hs
          rw [← resolve?_upper, hupper, resolve?_upper, ht] at hr
          obtain rfl := Option.some.inj hr
          simp [hself] at hother
        | true =>
          refine (h.eq_of_same hr hr' ?_).1
          rw [Path.same_congr_left hself, Path.same_comm, hself']

end Orders

/-- Opening a file and indexing write down the same of the file in either order exactly when the
parser fails alike under the name of the file and the name that its scan gives it, and indexing
changes nothing about the files that the names of its module stand for. -/
theorem Loaded.opening_commutes_iff (h : Loaded ws) (sources : Sources) (hp : ws.file? p = some f) :
    SameRecords ((ws.openFile sources p).2.indexAll sources false).1
        ((ws.indexAll sources false).1.openFile sources p).2 p ↔
      ws.faults.Alike (f.settledName sources) f.name ∧
        ∀ name ∈ f.lookups sources ws.faults,
          (ws.indexAll sources false).1.resolve? f.library name =
            ws.resolve? f.library name := by
  obtain ⟨g, hg, he⟩ := h.shows_early sources hp
  obtain ⟨g', hg', hl⟩ := h.shows_late sources hp
  have hlookups (halike : ws.faults.Alike (f.settledName sources) f.name) :
      (f.settle sources).lookups sources ws.faults = f.lookups sources ws.faults :=
    ModuleFile.lookups_rename halike
  constructor
  · rintro ⟨g₁, g₁', hg₁, hg₁', hedges, hwaits, hds⟩
    obtain rfl := Option.some.inj (hg.symm.trans hg₁)
    obtain rfl := Option.some.inj (hg'.symm.trans hg₁')
    rw [he.diagnostics, hl.diagnostics] at hds
    have halike := h.alike_of_report hds
    rw [hlookups halike] at hl
    exact ⟨halike, fun name hname => h.resolve?_eq_of_records he hl hedges hwaits hname⟩
  · rintro ⟨halike, hsame⟩
    rw [hlookups halike] at hl
    refine ⟨g, g', hg, hg', fun q => ?_, fun name => ?_, ?_⟩
    · rw [Bool.eq_iff_iff, he.edges, hl.edges]
      refine exists_congr fun name => and_congr_right fun hname => ?_
      rw [hsame name hname]
    · rw [he.waits, hl.waits]
      refine and_congr_right fun hname => ?_
      rw [hsame name hname]
    · rw [he.diagnostics, hl.diagnostics, h.report_indexAll halike hsame]

end Workspace

namespace Sample

/-- The program and the near subprogram `N` were loaded. -/
def plain : Workspace := after [.addFile program, .addFile near]

/-- The program and the subroutine whose header gives it the name `N` were loaded. -/
def unread : Workspace := after [.addFile program, .addFile subroutine]

/-- The program was opened before indexing. -/
def hasty : Workspace := ((unread.openFile namesakes program).2.indexAll namesakes false).1

/-- The program was opened after indexing. -/
def patient : Workspace := ((unread.indexAll namesakes false).1.openFile namesakes program).2

theorem loaded_plain : plain.Loaded :=
  .add (.add (.fresh ..) program) near

theorem loaded_unread : unread.Loaded :=
  .add (.add (.fresh ..) program) subroutine

end Sample

namespace Workspace

/-- It does not matter whether the program is opened before or after indexing when the subprogram
that it calls is named by its stem. -/
theorem Loaded.opening_commutes_iff_sample :
    Loaded Sample.plain ∧ ∃ f, Sample.plain.file? Sample.program = some f ∧
      SameRecords ((Sample.plain.openFile Sample.namesakes Sample.program).2.indexAll
          Sample.namesakes false).1
        ((Sample.plain.indexAll Sample.namesakes false).1.openFile
          Sample.namesakes Sample.program).2 Sample.program ∧
      (((Sample.plain.indexAll Sample.namesakes false).1.openFile
        Sample.namesakes Sample.program).2.file? Sample.program).map (·.outgoing.toList) =
          some [Sample.near] := by
  obtain ⟨f, hf, h⟩ := (Option.any_eq_true _ _).1
    (by decide +kernel : (Sample.plain.file? Sample.program).any (fun f =>
      f.settledName Sample.namesakes == f.name &&
        (f.lookups Sample.namesakes Sample.plain.faults).all fun name => decide
          ((Sample.plain.indexAll Sample.namesakes false).1.resolve? f.library name =
            Sample.plain.resolve? f.library name)) = true)
  simp only [Bool.and_eq_true, beq_iff_eq, List.all_eq_true, decide_eq_true_eq] at h
  refine ⟨Sample.loaded_plain, f, hf, ?_, by decide +kernel⟩
  refine (opening_commutes_iff Sample.loaded_plain Sample.namesakes hf).2 ⟨?_, h.2⟩
  rw [h.1]
  rfl

/-- When the program is opened before the subroutine has taken over its name, it keeps waiting for
the name and reporting it as missing, although the name leads to the subroutine after indexing. -/
theorem opening_left_behind :
    Loaded Sample.unread ∧ (Sample.unread.file? Sample.program).isSome ∧
      Sample.hasty.resolve? "L" "N" = some { path := Sample.subroutine } ∧
      (Sample.hasty.file? Sample.program).map (fun f => (f.outgoing.toList,
        Sample.hasty.waiting.namesOf f.path, (f.diagnostics.ofTool .parser).map (·.code))) =
          some ([], ["N"], ["E0003"]) ∧
      (Sample.patient.file? Sample.program).map (fun f => (f.outgoing.toList,
        Sample.patient.waiting.namesOf f.path, (f.diagnostics.ofTool .parser).map (·.code))) =
          some ([Sample.subroutine], [], []) ∧
      ¬ SameRecords Sample.hasty Sample.patient Sample.program := by
  have hhasty : (Sample.hasty.file? Sample.program).map (fun f => (f.outgoing.toList,
      Sample.hasty.waiting.namesOf f.path, (f.diagnostics.ofTool .parser).map (·.code))) =
        some ([], ["N"], ["E0003"]) := by decide +kernel
  have hpatient : (Sample.patient.file? Sample.program).map (fun f => (f.outgoing.toList,
      Sample.patient.waiting.namesOf f.path, (f.diagnostics.ofTool .parser).map (·.code))) =
        some ([Sample.subroutine], [], []) := by decide +kernel
  refine ⟨Sample.loaded_unread, by decide +kernel, by decide +kernel, hhasty, hpatient, ?_⟩
  rintro ⟨f, f', hf, hf', -, -, hds⟩
  simp only [hf, hf', Option.map_some, Option.some.injEq, Prod.mk.injEq] at hhasty hpatient
  rw [hds, hpatient.2.2] at hhasty
  simp at hhasty

end Workspace

end Steplib
