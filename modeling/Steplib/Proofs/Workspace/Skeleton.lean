import Steplib.Workspace.Parse

/-!
# What a parse leaves alone

The skeleton of a workspace is what names are resolved by and sources are read by: the libraries
with the names that are held in them, and of every file its path, library, type, name and unsaved
text. Edges, waits, cached positions, modules and diagnostics are not part of it. Parsing a file
changes nothing of the skeleton.

## Main definitions

* `Workspace.skeleton`: the workspace without what parses find out.
* `Workspace.Live`: the file is the one that the workspace has at its path.
* `Workspace.Keyed`: every file is listed under its own path.

## Main results

* `Workspace.file?_setOutgoing`, `Workspace.file?_install`: what an edge update and a parse do to
  every file.
* `Workspace.skeleton_install`: a parse keeps the skeleton.
-/

namespace Steplib

namespace ModuleFile

/-- The file without anything that a parse finds out. -/
def bare (f : ModuleFile) : ModuleFile :=
  { f with state := .unparsed, diagnostics := {}, outgoing := .empty, incoming := .empty }

variable {f g : ModuleFile}

theorem path_eq_of_bare (h : f.bare = g.bare) : f.path = g.path := congrArg (·.path) h

theorem library_eq_of_bare (h : f.bare = g.bare) : f.library = g.library := congrArg (·.library) h

theorem type_eq_of_bare (h : f.bare = g.bare) : f.type = g.type := congrArg (·.type) h

theorem name_eq_of_bare (h : f.bare = g.bare) : f.name = g.name := congrArg (·.name) h

theorem overlay_eq_of_bare (h : f.bare = g.bare) : f.overlay = g.overlay := congrArg (·.overlay) h

theorem identity_eq_of_bare (h : f.bare = g.bare) : f.identity = g.identity := by
  simp only [identity, path_eq_of_bare h, library_eq_of_bare h, name_eq_of_bare h,
    type_eq_of_bare h]

theorem source_eq_of_bare (h : f.bare = g.bare) (sources : Sources) :
    f.source sources = g.source sources := by
  simp only [source, path_eq_of_bare h, overlay_eq_of_bare h]

@[simp]
theorem bare_setParsed (f : ModuleFile) (m : Module) (ds : List Diagnostic) :
    (f.setParsed m ds).bare = f.bare := rfl

end ModuleFile

namespace Workspace

/-- The workspace without anything that parses and scans find out about references. -/
def skeleton (ws : Workspace) : Workspace :=
  { ws with files := ws.files.map fun _ f => f.bare, cache := {}, waiting := {} }

/-- The file is the one that the workspace has at the file's path. -/
def Live (ws : Workspace) (f : ModuleFile) : Prop :=
  ws.file? f.path = some f

/-- Every file is listed under its own path. -/
def Keyed (ws : Workspace) : Prop :=
  ∀ p f, ws.file? p = some f → f.path.same p = true

variable {ws ws' : Workspace}

/-! ### Files under different spellings -/

theorem file?_congr (ws : Workspace) {p q : Path} (h : p.same q = true) :
    ws.file? p = ws.file? q :=
  ws.files.get?_congr h

/-- A file lies elsewhere than where none is. -/
theorem not_same_of_file? {p q : Path} {f : ModuleFile} (hp : ws.file? p = none)
    (hq : ws.file? q = some f) : p.same q = false := by
  refine Bool.eq_false_iff.2 fun hs => ?_
  rw [← ws.file?_congr hs, hp] at hq
  simp at hq

/-- The file at a path is live. -/
theorem Keyed.live (hk : ws.Keyed) {p : Path} {f : ModuleFile} (h : ws.file? p = some f) :
    ws.Live f := by
  rw [Live, ws.file?_congr (hk p f h), h]

/-- Files at paths that are the same are equal. -/
theorem Live.eq_of_same {f g : ModuleFile} (hf : ws.Live f) (hg : ws.Live g)
    (h : f.path.same g.path = true) : f = g := by
  rw [Live, ws.file?_congr h] at hf
  exact Option.some.inj (hf.symm.trans hg)

/-! ### The skeleton -/

theorem file?_skeleton (ws : Workspace) (p : Path) :
    ws.skeleton.file? p = (ws.file? p).map ModuleFile.bare :=
  ws.files.get?_map_of_congr (fun _ _ _ _ => rfl) p

section SameSkeleton

variable (h : ws'.skeleton = ws.skeleton)

include h

theorem libraries_eq_of_skeleton : ws'.libraries = ws.libraries := by
  have hl : ws'.skeleton.libraries = ws.skeleton.libraries := congrArg Workspace.libraries h
  exact hl

theorem faults_eq_of_skeleton : ws'.faults = ws.faults := by
  have hf : ws'.skeleton.faults = ws.skeleton.faults := congrArg Workspace.faults h
  exact hf

theorem resolve?_eq_of_skeleton (library name : String) :
    ws'.resolve? library name = ws.resolve? library name := by
  simp only [resolve?, library?, libraryNamed?, libraries_eq_of_skeleton h]

theorem destinations_eq_of_skeleton (library : String) (self : Path) (names : List String) :
    ws'.destinations library self names = ws.destinations library self names := by
  simp only [destinations, resolve?_eq_of_skeleton h]

theorem unresolved_eq_of_skeleton (library : String) (names : List String) :
    ws'.unresolved library names = ws.unresolved library names := by
  simp only [unresolved, resolve?_eq_of_skeleton h]

theorem map_bare_file?_of_skeleton (p : Path) :
    (ws'.file? p).map ModuleFile.bare = (ws.file? p).map ModuleFile.bare := by
  rw [← file?_skeleton, h, file?_skeleton]

/-- A file is still there when the skeleton has been kept. -/
theorem exists_file_of_skeleton {p : Path} {f : ModuleFile} (hf : ws.file? p = some f) :
    ∃ f', ws'.file? p = some f' ∧ f'.bare = f.bare := by
  have hb := map_bare_file?_of_skeleton h p
  rw [hf] at hb
  exact Option.map_eq_some_iff.1 hb

theorem Keyed.of_skeleton (hk : ws.Keyed) : ws'.Keyed := by
  intro p f' hf'
  obtain ⟨f, hf, hb⟩ := exists_file_of_skeleton h.symm hf'
  rw [← ModuleFile.path_eq_of_bare hb]
  exact hk p f hf

end SameSkeleton

/-! ### Changing a file -/

theorem file?_modifyFile (ws : Workspace) (p q : Path) (change : ModuleFile → ModuleFile) :
    (ws.modifyFile p change).file? q =
      if p.same q then (ws.file? q).map change else ws.file? q :=
  ws.files.get?_modify p q change

/-- A change that keeps what a file is read by keeps the skeleton. -/
theorem skeleton_modifyFile (ws : Workspace) (p : Path) {change : ModuleFile → ModuleFile}
    (hc : ∀ f, (change f).bare = f.bare) : (ws.modifyFile p change).skeleton = ws.skeleton := by
  have hfiles : (ws.files.modify p change).map (fun _ f => f.bare) =
      ws.files.map fun _ f => f.bare := by
    ext1
    simp only [PathMap.modify, PathMap.map, List.map_map]
    refine List.map_congr_left fun e _ => ?_
    by_cases he : e.1.same p = true
    · simp [he, hc]
    · simp [he]
  simp only [skeleton, modifyFile, hfiles]

/-! ### Changing the edges of a file -/

/-- The file at `q` after the references of a file at `p` have been replaced: they were `before`
and are `after` now. -/
def rewired (p : Path) (before after : PathSet) (q : Path) (g : ModuleFile) : ModuleFile :=
  { g with
    outgoing := if q.same p then after else g.outgoing
    incoming :=
      if after.contains q then g.incoming.insert p
      else if before.contains q then g.incoming.erase p
      else g.incoming }

theorem rewired_congr (p : Path) (before after : PathSet) {q r : Path} (g : ModuleFile)
    (h : q.same r = true) : rewired p before after q g = rewired p before after r g := by
  simp only [rewired, Path.same_congr_left h, before.contains_congr h, after.contains_congr h]

/-- Setting the references of a live file rewires every file. -/
theorem file?_setOutgoing {f : ModuleFile} (hf : ws.Live f) (targets : PathSet) (q : Path) :
    (ws.setOutgoing f.path targets).file? q =
      (ws.file? q).map (rewired f.path f.outgoing targets q) := by
  have hf : ws.file? f.path = some f := hf
  simp only [setOutgoing, hf]
  exact ws.files.get?_map_of_congr (fun p q g h => rewired_congr _ _ _ g h) q

theorem skeleton_setOutgoing (ws : Workspace) (p : Path) (targets : PathSet) :
    (ws.setOutgoing p targets).skeleton = ws.skeleton := by
  rw [setOutgoing]
  split
  · rfl
  · simp only [skeleton]
    congr 1
    ext1
    simp only [PathMap.map, List.map_map]
    exact List.map_congr_left fun e _ => rfl

theorem skeleton_setReferences (ws : Workspace) (f : ModuleFile) (names : List String) :
    (ws.setReferences f names).skeleton = ws.skeleton :=
  ws.skeleton_setOutgoing f.path _

/-- The files that a file refers to when it refers to the given names. -/
def targets (ws : Workspace) (f : ModuleFile) (names : List String) : PathSet :=
  .ofList (ws.destinations f.library f.path names)

theorem targets_eq_of_skeleton (h : ws'.skeleton = ws.skeleton) {f g : ModuleFile}
    (hb : f.bare = g.bare) (names : List String) : ws'.targets f names = ws.targets g names := by
  simp only [targets, destinations_eq_of_skeleton h, ModuleFile.path_eq_of_bare hb,
    ModuleFile.library_eq_of_bare hb]

theorem file?_setReferences {f : ModuleFile} (hf : ws.Live f) (names : List String) (q : Path) :
    (ws.setReferences f names).file? q =
      (ws.file? q).map (rewired f.path f.outgoing (ws.targets f names) q) :=
  file?_setOutgoing hf _ q

/-! ### Installing a module -/

/-- A parse keeps the skeleton. -/
theorem skeleton_install (ws : Workspace) (f : ModuleFile) (m : Module) (ds : List Diagnostic) :
    (ws.install f m ds).skeleton = ws.skeleton :=
  (skeleton_setReferences _ f m.references).trans
    (ws.skeleton_modifyFile f.path fun g => g.bare_setParsed m ds)

/-- Only the path and the library of a file say how its module is installed. -/
theorem install_congr (ws : Workspace) {f g : ModuleFile} (h : f.bare = g.bare) (m : Module)
    (ds : List Diagnostic) : ws.install f m ds = ws.install g m ds := by
  simp only [install, setReferences, ModuleFile.path_eq_of_bare h,
    ModuleFile.library_eq_of_bare h]

/-- A parse gives the file its module and its references, and tells the other files. -/
theorem file?_install {f : ModuleFile} (hf : ws.Live f) (m : Module) (ds : List Diagnostic)
    (q : Path) :
    (ws.install f m ds).file? q =
      (ws.file? q).map fun g =>
        rewired f.path f.outgoing (ws.targets f m.references) q
          (if f.path.same q then g.setParsed m ds else g) := by
  have hlive : (ws.modifyFile f.path (·.setParsed m ds)).Live (f.setParsed m ds) := by
    have hf : ws.file? f.path = some f := hf
    rw [Live, file?_modifyFile]
    simp [ModuleFile.setParsed, hf]
  have h := file?_setReferences hlive m.references q
  rw [file?_modifyFile] at h
  refine h.trans ?_
  by_cases hq : f.path.same q = true
  · rw [if_pos hq, Option.map_map]
    simp only [hq, if_true]
    rfl
  · rw [if_neg hq]
    simp only [hq]
    rfl

end Workspace

end Steplib
