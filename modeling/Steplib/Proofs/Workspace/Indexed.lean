import Steplib.Proofs.Workspace.Charted

/-!
# Workspaces that are built from unparsed files

In a workspace whose files have been scanned but never parsed, everything that is known of the files
follows from the files themselves, provided that their names differ: who holds which name, the
edges, the waits and the cached positions. Creating one more file leads from one such workspace to
the next, so what is known does not depend on the order in which the files are created.

## Main definitions

* `Workspace.Indexed`: the workspace has exactly the given files, and their graph is complete.

## Main results

* `Workspace.Indexed.sameGraph`: the same files have the same graph.
* `Workspace.Indexed.createFile`, `Workspace.Indexed.createFiles`: one more file, many more files.
-/

namespace Steplib

namespace Workspace

/-- Names are held exactly by the listed files, each holding the name that it carries. -/
def Tables (ws : Workspace) (owners : List ModuleFile) : Prop :=
  ∀ library name holder, ws.holder? library name = some holder ↔
    ∃ f ∈ owners, f.library = library ∧ f.name = name ∧ holder = { path := f.path }

/-- The workspace has the libraries of `base` and the given files. The files are unparsed and in
step, hold the names that their scans give them, and the cache holds what they cite. -/
structure Indexed (sources : Sources) (base : Workspace) (files : List ModuleFile)
    (ws : Workspace) : Prop where
  arises : Arises ws
  heads : ws.heads = base.heads
  settled : ∀ f ∈ files, f.settledName sources = f.name
  file : ∀ q f, (ws.file? q).map ModuleFile.bare = some f ↔ f ∈ files ∧ f.path.same q = true
  table : ws.Tables (files.filter (·.claims sources))
  unparsed : ws.Unparsed
  inStep : ∀ q f, ws.file? q = some f → InStep sources ws q
  waits : ∀ q name, ws.waiting.Waits q name → ∃ f, ws.file? q = some f
  records : ∀ called x, ws.cache.Records called x ↔ ∃ f ∈ files, ws.Cites sources f called x

variable {sources : Sources} {base ws ws' : Workspace} {files files' owners : List ModuleFile}
  {new f g : ModuleFile} {p q called : Path} {name library : String} {x : FilePosition}

/-! ### Who holds which name -/

theorem Tables.of_holder? (h : ws.Tables owners)
    (heq : ∀ library name, ws'.holder? library name = ws.holder? library name) :
    ws'.Tables owners := fun library name holder => by
  rw [heq]
  exact h library name holder

theorem Tables.of_mem {others : List ModuleFile} (h : ws.Tables owners)
    (hmem : ∀ f, f ∈ others ↔ f ∈ owners) : ws.Tables others := fun library name holder => by
  simp only [h library name holder, hmem]

theorem Tables.holder?_eq_none (h : ws.Tables owners) (hname : ∀ f ∈ owners, f.name ≠ name) :
    ws.holder? library name = none := by
  rw [Option.eq_none_iff_forall_ne_some]
  intro holder hholder
  obtain ⟨f, hf, -, hfname, -⟩ := (h ..).1 hholder
  exact hname f hf hfname

/-- A file that claims a name which nobody carries holds it. -/
theorem Tables.claim (h : ws.Tables owners) (hname : ∀ g ∈ owners, g.name ≠ f.name)
    (hclaim : ∀ library name, ws'.holder? library name =
      if library = f.library ∧ name = f.name then
        some ((ws.holder? library name).getD { path := f.path })
      else ws.holder? library name) : ws'.Tables (f :: owners) := by
  intro library name holder
  rw [hclaim]
  simp only [List.mem_cons, exists_eq_or_imp, ← h library name holder]
  split
  · rename_i hf
    obtain ⟨rfl, rfl⟩ := hf
    rw [h.holder?_eq_none hname, Option.getD_none]
    constructor
    · rintro ⟨⟩
      exact .inl ⟨rfl, rfl, rfl⟩
    · rintro (⟨-, -, rfl⟩ | hholder)
      · rfl
      · simp at hholder
  · rename_i hf
    refine ⟨.inr, fun hholder => hholder.resolve_left fun hnew => hf ?_⟩
    exact ⟨hnew.1.symm, hnew.2.1.symm⟩

/-- One more file is listed. -/
theorem lists_cons {found : Option ModuleFile} (hnew : new.path = p)
    (hpath : ∀ f ∈ files, f.path.same p = false)
    (h : found = some f ↔ f ∈ files ∧ f.path.same q = true) :
    (if p.same q then some new else found) = some f ↔
      f ∈ new :: files ∧ f.path.same q = true := by
  rw [List.mem_cons]
  cases hs : p.same q with
  | true =>
    constructor
    · rintro ⟨⟩
      exact ⟨.inl rfl, by rw [hnew, hs]⟩
    · rintro ⟨rfl | hf, hq⟩
      · rfl
      · rw [← Path.same_congr_right hs, hpath f hf] at hq
        simp at hq
  | false =>
    refine h.trans ⟨fun hf => ⟨.inr hf.1, hf.2⟩, ?_⟩
    rintro ⟨rfl | hf, hq⟩
    · rw [hnew, hs] at hq
      simp at hq
    · exact ⟨hf, hq⟩

/-! ### The given files -/

section Indexed

variable (h : Indexed sources base files ws)

include h

/-- The file at a path is one of the given ones. -/
theorem Indexed.mem_of_file? (hf : ws.file? p = some f) :
    f.bare ∈ files ∧ f.path.same p = true :=
  (h.file p f.bare).1 (by rw [hf]; rfl)

omit h in
/-- The given files cite what the files of the workspace cite. -/
theorem exists_cites_iff_of_file (hfile : ∀ q f, (ws.file? q).map ModuleFile.bare = some f ↔
    f ∈ files ∧ f.path.same q = true) :
    (∃ f ∈ files, ws.Cites sources f called x) ↔ ∃ f, ws.Live f ∧ ws.Cites sources f called x := by
  constructor
  · rintro ⟨f, hf, hcites⟩
    obtain ⟨g, hg, rfl⟩ := Option.map_eq_some_iff.1 ((hfile f.path f).2 ⟨hf, Path.same_refl _⟩)
    exact ⟨g, hg, hcites⟩
  · rintro ⟨f, hf, hcites⟩
    have hbare : (ws.file? f.path).map ModuleFile.bare = some f.bare := by
      rw [hf]
      rfl
    exact ⟨f.bare, ((hfile _ _).1 hbare).1, hcites⟩

theorem Indexed.charted : Charted sources ws :=
  ⟨h.arises, h.unparsed, h.inStep, h.waits, fun called x => by
    rw [h.records, exists_cites_iff_of_file h.file]⟩

/-- Workspaces with the same libraries and the same files have the same graph. -/
theorem Indexed.sameGraph (h' : Indexed sources base files' ws')
    (hfiles : ∀ f, f ∈ files' ↔ f ∈ files) : SameGraph ws ws' := by
  refine h.charted.sameGraph h'.charted (h'.heads.trans h.heads.symm)
    (fun p => Option.ext fun f => ?_) fun library name => Option.ext fun holder => ?_
  · rw [h.file, h'.file, hfiles]
  · rw [h.table, h'.table]
    simp only [List.mem_filter, hfiles]

/-! ### One file more -/

/-- Scanning the files again changes no name. -/
theorem Indexed.steady (hf : ws.Live f) : ws.Steady sources (fun _ => false) f := by
  obtain ⟨hmem, -⟩ := h.mem_of_file? hf
  refine steady_of_settledName (h.settled f.bare hmem) fun hclaims => ?_
  have hholder : ws.holder? f.library f.name = some { path := f.path } :=
    (h.table ..).2 ⟨f.bare, List.mem_filter.2 ⟨hmem, hclaims⟩, rfl, rfl, rfl⟩
  rw [hholder]
  rfl

theorem Indexed.file?_eq_none (hpath : ∀ f ∈ files, f.path.same p = false) : ws.file? p = none := by
  cases hf : ws.file? p with
  | none => rfl
  | some f =>
    obtain ⟨hmem, hs⟩ := h.mem_of_file? hf
    exact absurd hs (Bool.eq_false_iff.1 (hpath f.bare hmem))

/-- A name that no file carries stands for nothing. -/
theorem Indexed.resolve?_eq_none (hname : ∀ f ∈ files, f.name ≠ Ascii.upper name) :
    ws.resolve? library name = none :=
  Workspace.resolve?_eq_none fun _ =>
    h.table.holder?_eq_none fun f hf => hname f (List.mem_filter.1 hf).1

/-- Whoever refers to a name that no file carries waits for it. -/
theorem Indexed.waits_of_referred (hname : ∀ f ∈ files, f.name ≠ Ascii.upper name)
    (hf : ws.file? p = some f) (hreferred : name ∈ f.referred sources) :
    ws.waiting.Waits p (Ascii.upper name) := by
  rw [← WaitingIndex.Waits.congr (h.mem_of_file? hf).2,
    (h.charted.follows hf).waits_upper_iff hreferred]
  exact h.resolve?_eq_none hname

variable (hnew : ws.newFile? p = some new) (hpath : ∀ f ∈ files, f.path.same p = false)
  (hname : ∀ f ∈ files, f.name ≠ new.settledName sources)

include hnew hpath hname

/-- A file that does not wait for the new name does not refer to it, so its names stand for what
they stood for before. -/
theorem Indexed.resolve?_enter (hf : ws.Live f)
    (hnot : ¬ ws.waiting.Waits f.path (new.settledName sources))
    (hmem : name ∈ f.referred sources) :
    (ws.enter sources new).resolve? f.library name = ws.resolve? f.library name := by
  refine Workspace.resolve?_enter sources hnew (h.file?_eq_none hpath) h.arises.named f.library
    fun hupper => hnot ?_
  rw [← hupper] at hname ⊢
  exact h.waits_of_referred hname hf hmem

/-- A file whose name nobody carries can come. -/
theorem Indexed.ready (hown : base.SearchesItself) : Ready sources ws new := by
  have ha := h.arises
  have hp := h.file?_eq_none hpath
  have hresolves (f : ModuleFile) (hf : ws.Live f)
      (hnot : ¬ ws.waiting.Waits f.path (new.settledName sources)) (name : String)
      (hmem : name ∈ f.referred sources) :
      (ws.enter sources new).resolve? f.library name = ws.resolve? f.library name :=
    h.resolve?_enter hnew hpath hname hf hnot hmem
  refine ⟨ha, h.unparsed, hown.of_heads h.heads, fun q name hwaits => ?_, fun f hf => ?_,
    fun f hf hnot => ?_, fun called x hrecords => ?_, fun f called x hf hnot hcites => ?_⟩
  · obtain ⟨f, hf⟩ := h.waits q name hwaits
    exact ⟨f, hf, h.charted.scan?_isSome hf (.inr ⟨name, hwaits⟩)⟩
  · exact (h.steady hf).of_bare rfl id fun holder hholder _ =>
      holder?_enter_of_some sources hnew hp ha.named hholder
  · refine (h.inStep f.path f hf).kept_of_resolve? ha.keyed
      (kept_enter sources hnew hp (not_same_of_absent hp hf)) fun g hg other hmem => ?_
    obtain rfl := Option.some.inj (hf.symm.trans hg)
    exact hresolves f hf hnot other hmem
  · rw [h.records, exists_cites_iff_of_file h.file] at hrecords
    obtain ⟨f, hf, s, hs, c, hc, holder, hr, hrest⟩ := hrecords
    have hupper : Ascii.upper c.name ≠ new.settledName sources := fun hupper => by
      rw [h.resolve?_eq_none (by rwa [hupper])] at hr
      simp at hr
    rw [← Workspace.resolve?_enter sources hnew hp ha.named f.library hupper] at hr
    exact ⟨f, hf, s, hs, c, hc, holder, hr, hrest⟩
  · obtain ⟨s, hs, c, hc, holder, hr, hrest⟩ := hcites
    have hmem := mem_referred_of_scan (h.unparsed _ f hf) hs hc
    rw [hresolves f hf hnot c.name hmem] at hr
    rw [h.records, exists_cites_iff_of_file h.file]
    exact ⟨f, hf, s, hs, c, hc, holder, hr, hrest⟩

theorem Indexed.table_createFile (hown : base.SearchesItself) :
    (ws.createFile sources p).2.2.Tables
      ((new.settle sources :: files).filter (·.claims sources)) := by
  have hp := h.file?_eq_none hpath
  have hready := h.ready hnew hpath hname hown
  have hholder (library name : String) : (ws.createFile sources p).2.2.holder? library name =
      if new.claims sources = true ∧ library = new.library ∧ name = new.settledName sources then
        some ((ws.holder? library name).getD { path := p })
      else ws.holder? library name := by
    rw [holder?_eq_of_skeleton (hready.skeleton_createFile hnew hp),
      holder?_enter sources hnew hp h.arises.named]
  have hclaims : (new.settle sources).claims sources = new.claims sources := rfl
  rw [List.filter_cons, hclaims]
  split
  · rename_i htrue
    refine h.table.claim (fun f hf => hname f (List.mem_filter.1 hf).1) fun library name => ?_
    have hnewpath : (new.settle sources).path = p := (path_newFile? hnew :)
    rw [hholder, htrue, hnewpath]
    simp only [true_and]
    rfl
  · rename_i hfalse
    exact h.table.of_holder? fun library name => by rw [hholder, if_neg fun h => hfalse h.1]

/-- One more file is created. -/
theorem Indexed.createFile (hown : base.SearchesItself) :
    Indexed sources base (new.settle sources :: files) (ws.createFile sources p).2.2 := by
  have hp := h.file?_eq_none hpath
  have hready := h.ready hnew hpath hname hown
  have hcharted := hready.charted hnew hp
  have hskeleton := hready.skeleton_createFile hnew hp
  have hnewpath : (new.settle sources).path = p := (path_newFile? hnew :)
  have hheads : (ws.createFile sources p).2.2.heads = (ws.enter sources new).heads :=
    heads_eq_of_skeleton hskeleton
  have hfile (q : Path) (f : ModuleFile) :
      ((ws.createFile sources p).2.2.file? q).map ModuleFile.bare = some f ↔
        f ∈ new.settle sources :: files ∧ f.path.same q = true := by
    rw [hready.bare_createFile hnew hp]
    exact lists_cons hnewpath hpath (h.file q f)
  refine ⟨hcharted.arises, hheads.trans ((heads_enter sources hnew hp).trans h.heads),
    List.forall_mem_cons.2 ⟨new.settledName_settle sources, h.settled⟩, hfile,
    h.table_createFile hnew hpath hname hown, hcharted.unparsed, hcharted.inStep, hcharted.waits,
    fun called x => ?_⟩
  rw [hcharted.records, exists_cites_iff_of_file hfile]

end Indexed

/-! ### Many files more -/

/-- The files lie at different paths and have different names. -/
def Apart (f g : ModuleFile) : Prop :=
  f.path.same g.path = false ∧ f.name ≠ g.name

theorem Apart.symm (h : Apart f g) : Apart g f :=
  ⟨by rw [Path.same_comm, h.1], h.2.symm⟩

/-- The new files that the paths stand for. -/
def newFiles (base : Workspace) (paths : List Path) : List ModuleFile :=
  paths.filterMap base.newFile?

/-- The files that the paths stand for, with the names that their scans give them. -/
def filesAt (sources : Sources) (base : Workspace) (paths : List Path) : List ModuleFile :=
  (newFiles base paths).map (·.settle sources)

/-- A path that stands for no file is refused. -/
theorem createFile_eq_self (hnew : ws.newFile? p = none) (hp : ws.file? p = none) :
    (ws.createFile sources p).2.2 = ws := by
  have hadd : ws.addFile p = (none, ws) := by
    rw [addFile, hp, hnew]
    cases ObjectType.ofPath? p <;> rfl
  rw [createFile, hadd]

/-- Files that are created one after the other. -/
theorem Indexed.createFiles (h : Indexed sources base files ws) (hown : base.SearchesItself)
    {paths : List Path}
    (hnone : ∀ p ∈ paths, ∀ f ∈ files, f.path.same p = false)
    (hpaths : paths.Pairwise fun p q => p.same q = false)
    (hapart : (filesAt sources base paths ++ files).Pairwise Apart) :
    Indexed sources base ((filesAt sources base paths).reverse ++ files)
      (paths.foldl (fun ws p => (ws.createFile sources p).2.2) ws) := by
  induction paths generalizing ws files with
  | nil => exact h
  | cons p paths ih =>
    obtain ⟨hp, hnone⟩ := List.forall_mem_cons.1 hnone
    obtain ⟨hother, hpaths⟩ := List.pairwise_cons.1 hpaths
    have hnew? : ws.newFile? p = base.newFile? p := newFile?_eq_of_heads h.heads p
    rw [List.foldl_cons]
    cases hnew : base.newFile? p with
    | none =>
      have hskip : filesAt sources base (p :: paths) = filesAt sources base paths := by
        simp [filesAt, newFiles, hnew]
      rw [createFile_eq_self (hnew?.trans hnew) (h.file?_eq_none hp), hskip]
      exact ih h hnone hpaths (hskip ▸ hapart)
    | some new =>
      have hcons : filesAt sources base (p :: paths) =
          new.settle sources :: filesAt sources base paths := by
        simp [filesAt, newFiles, hnew]
      have hnewpath : (new.settle sources).path = p := (path_newFile? hnew :)
      rw [hcons, List.cons_append] at hapart
      have hname : ∀ f ∈ files, f.name ≠ new.settledName sources := fun f hf =>
        ((List.pairwise_cons.1 hapart).1 f (List.mem_append_right _ hf)).2.symm
      rw [hcons, List.reverse_cons, List.append_assoc]
      refine ih (h.createFile (hnew?.trans hnew) hp hname hown) (fun q hq => ?_) hpaths ?_
      · refine List.forall_mem_cons.2 ⟨?_, hnone q hq⟩
        rw [hnewpath]
        exact hother q hq
      · exact (List.Perm.pairwise_iff Apart.symm List.perm_middle).2 hapart

end Workspace

end Steplib
