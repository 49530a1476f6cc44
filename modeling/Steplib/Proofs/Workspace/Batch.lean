import Mathlib.Data.List.Pairwise
import Steplib.Proofs.Workspace.Indexed

/-!
# File by file or all at once

A project can be loaded by adding all of its files and scanning them at once, or by creating one
file after the other. When all files are added first, every name is taken over before the first
reference is followed. Either way the workspace has the graph that belongs to its files, so both
ways lead to the same names, edges, waits and cached positions as long as no two files have the same
name.

## Main definitions

* `Workspace.Stocked`: the workspace has exactly the given files, and no references are known.
* `Workspace.registerNames`: the scanned files take over their names.

## Main results

* `Workspace.Stocked.addFiles`, `Workspace.Stocked.registerNames`, `Workspace.Stocked.indexAll`: the
  files are added, named and scanned.
* `Workspace.creation_eq_indexing`: both ways lead to the same graph.
-/

namespace Steplib

namespace Workspace

variable {sources : Sources} {base ws ws' : Workspace} {files owners : List ModuleFile}
  {new f : ModuleFile} {p q : Path} {scans : List (ModuleFile × Scan)}

/-! ### Without files -/

section Fresh

variable (root : Path) (faults : ParserFaults) (severity : SeverityRules)
  (libraries : List (String × Path × List String))

theorem holder?_fresh (library name : String) :
    (fresh root faults severity libraries).holder? library name = none := by
  obtain ⟨-, -, hm⟩ := libraries_foldl_addLibrary libraries (empty root faults)
    (by simp [empty]) (by simp [empty]) (by simp [empty])
  rw [holder?]
  cases hl : (fresh root faults severity libraries).libraryNamed? library with
  | none => rfl
  | some l => exact hm l (mem_of_libraryNamed? hl) name

theorem searchesItself_fresh : (fresh root faults severity libraries).SearchesItself := by
  have hadd (ws : Workspace) (hws : ws.SearchesItself) (l : String × Path × List String) :
      (ws.addLibrary l.1 l.2.1 l.2.2).SearchesItself := by
    intro k hk
    rw [addLibrary] at hk
    split at hk
    · exact hws k hk
    · rcases List.mem_append.1 hk with hk | hk
      · exact hws k hk
      · obtain rfl := List.mem_singleton.1 hk
        simp [Library.make, Library.chainOf, List.mem_eraseDups]
  have hall : (libraries.foldl (fun ws l => addLibrary ws l.1 l.2.1 l.2.2)
      (empty root faults)).SearchesItself :=
    List.foldlRecOn libraries _ (by simp [SearchesItself, empty]) fun ws hws l _ => hadd ws hws l
  exact hall

theorem indexed_fresh (sources : Sources) :
    Indexed sources (fresh root faults severity libraries) []
      (fresh root faults severity libraries) := by
  refine ⟨.fresh .., rfl, by simp, by simp, by simp [Tables, holder?_fresh], ?_, by simp, by simp,
    by simp⟩
  exact fun q f hf => by simp at hf

end Fresh

/-! ### All files are added -/

/-- The workspace has the libraries of `base` and the given files, of which the owners hold their
names. Nothing is known of their references yet. -/
structure Stocked (base : Workspace) (files owners : List ModuleFile) (ws : Workspace) : Prop where
  arises : Arises ws
  heads : ws.heads = base.heads
  file : ∀ q f, ws.file? q = some f ↔ f ∈ files ∧ f.path.same q = true
  table : ws.Tables owners
  waiting : ws.waiting = {}
  cache : ws.cache = {}

/-- Files of this type claim their stem as soon as they are added. -/
def claimsStem (f : ModuleFile) : Bool :=
  !f.type.hasHeaderName

/-- One more file is added. -/
theorem Stocked.addFile (h : Stocked base files (files.filter claimsStem) ws)
    (hnew : ws.newFile? p = some new) (hpath : ∀ f ∈ files, f.path.same p = false)
    (hname : ∀ f ∈ files, claimsStem f → claimsStem new → f.name ≠ new.name) :
    Stocked base (new :: files) ((new :: files).filter claimsStem) (ws.addFile p).2 := by
  have hp : ws.file? p = none := by
    rw [Option.eq_none_iff_forall_ne_some]
    intro f hf
    obtain ⟨hmem, hs⟩ := (h.file p f).1 hf
    simp [hpath f hmem] at hs
  have hnewpath := path_newFile? hnew
  have hholder := holder?_addFile hnew hp h.arises.named
  obtain ⟨hwaiting, hcache⟩ := ws.records_addFile p
  refine ⟨h.arises.moves (.single (.add ws p : Move (fun _ => .error .notFound) ws _)),
    (heads_addFile hnew hp).trans h.heads, fun q f => ?_, ?_, hwaiting.trans h.waiting,
    hcache.trans h.cache⟩
  · rw [file?_addFile hnew hp]
    exact lists_cons hnewpath hpath (h.file q f)
  · rw [List.filter_cons]
    split
    · rename_i hstem
      have htype : new.type.hasHeaderName = false := by simpa [claimsStem] using hstem
      refine h.table.claim (fun f hf => ?_) fun library name => ?_
      · obtain ⟨hmem, hfstem⟩ := List.mem_filter.1 hf
        exact hname f hmem hfstem hstem
      · rw [hholder, htype, hnewpath]
        simp only [true_and]
    · rename_i hstem
      have htype : new.type.hasHeaderName = true := by simpa [claimsStem] using hstem
      exact h.table.of_holder? fun library name => by simp [hholder, htype]

/-- A file that claims its stem keeps it. -/
theorem settle_of_claimsStem (sources : Sources) (h : claimsStem f = true) :
    f.settle sources = f := by
  have htype : f.type.hasHeaderName = false := by simpa [claimsStem] using h
  have hname : f.settledName sources = f.name := by
    rw [ModuleFile.settledName]
    cases f.scan? sources <;> simp [ModuleFile.scannedName, htype]
  rw [ModuleFile.settle, hname]

/-- Files that are added one after the other. -/
theorem Stocked.addFiles {paths : List Path} (h : Stocked base files (files.filter claimsStem) ws)
    (hnone : ∀ p ∈ paths, ∀ f ∈ files, f.path.same p = false)
    (hpaths : paths.Pairwise fun p q => p.same q = false)
    (hapart : (newFiles base paths ++ files).Pairwise fun f g =>
      Apart (f.settle sources) (g.settle sources)) :
    Stocked base ((newFiles base paths).reverse ++ files)
      (((newFiles base paths).reverse ++ files).filter claimsStem)
      (paths.foldl (fun ws p => (ws.addFile p).2) ws) := by
  induction paths generalizing ws files with
  | nil => exact h
  | cons p paths ih =>
    obtain ⟨hp, hnone⟩ := List.forall_mem_cons.1 hnone
    obtain ⟨hother, hpaths⟩ := List.pairwise_cons.1 hpaths
    have hnew? : ws.newFile? p = base.newFile? p := newFile?_eq_of_heads h.heads p
    rw [List.foldl_cons]
    cases hnew : base.newFile? p with
    | none =>
      have hskip : newFiles base (p :: paths) = newFiles base paths := by simp [newFiles, hnew]
      have hadd : (ws.addFile p).2 = ws := by
        rw [Workspace.addFile, hnew?, hnew]
        cases ObjectType.ofPath? p <;> cases ws.file? p <;> rfl
      rw [hadd, hskip]
      exact ih h hnone hpaths (hskip ▸ hapart)
    | some new =>
      have hcons : newFiles base (p :: paths) = new :: newFiles base paths := by
        simp [newFiles, hnew]
      rw [hcons, List.cons_append] at hapart
      have hname : ∀ f ∈ files, claimsStem f → claimsStem new → f.name ≠ new.name :=
        fun f hf hfstem hstem => by
          have hdiffer := ((List.pairwise_cons.1 hapart).1 f (List.mem_append_right _ hf)).2.symm
          rwa [settle_of_claimsStem sources hfstem, settle_of_claimsStem sources hstem] at hdiffer
      rw [hcons, List.reverse_cons, List.append_assoc]
      refine ih (h.addFile (hnew?.trans hnew) hp hname) (fun q hq => ?_) hpaths ?_
      · refine List.forall_mem_cons.2 ⟨?_, hnone q hq⟩
        rw [path_newFile? hnew]
        exact hother q hq
      · exact (List.Perm.pairwise_iff Apart.symm List.perm_middle).2 hapart

/-! ### All names are taken over -/

/-- The workspace in which the scanned files have taken over their names. -/
def registerNames (ws : Workspace) (scans : List (ModuleFile × Scan)) : Workspace :=
  scans.foldl (fun ws e => ws.registerScannedName e.1 e.2) ws

/-- The files whose names come from their headers, with these names. -/
def headed (sources : Sources) (scans : List (ModuleFile × Scan)) : List ModuleFile :=
  (scans.filter (·.1.type.hasHeaderName)).map (·.1.settle sources)

theorem registerNames_cons (ws : Workspace) (e : ModuleFile × Scan)
    (scans : List (ModuleFile × Scan)) :
    ws.registerNames (e :: scans) = (ws.registerScannedName e.1 e.2).registerNames scans := rfl

theorem heads_registerNames (ws : Workspace) (scans : List (ModuleFile × Scan)) :
    (ws.registerNames scans).heads = ws.heads := by
  induction scans generalizing ws with
  | nil => rfl
  | cons e scans ih => rw [registerNames_cons, ih, heads_registerScannedName]

theorem records_registerNames (ws : Workspace) (scans : List (ModuleFile × Scan)) :
    (ws.registerNames scans).waiting = ws.waiting ∧
      (ws.registerNames scans).cache = ws.cache := by
  induction scans generalizing ws with
  | nil => exact ⟨rfl, rfl⟩
  | cons e scans ih =>
    obtain ⟨hwaiting, hcache⟩ := ih (ws.registerScannedName e.1 e.2)
    rw [registerNames_cons, hwaiting, hcache, registerScannedName]
    split <;> exact ⟨rfl, rfl⟩

/-- A live file takes over the name that its scan gives it. -/
theorem file?_registerScannedName_of_live (hf : ws.Live f) {s : Scan}
    (hscan : f.scan? sources = some s) (q : Path) :
    (ws.registerScannedName f s).file? q =
      if f.path.same q then some (f.settle sources) else ws.file? q := by
  have hname : f.settle sources = { f with name := f.scannedName s } := by
    rw [ModuleFile.settle, ModuleFile.settledName, hscan]
    rfl
  rw [file?_registerScannedName, hname]
  cases hs : f.path.same q with
  | false => simp
  | true =>
    have hq : ws.file? q = some f := (ws.file?_congr hs).symm.trans hf
    cases htype : f.type.hasHeaderName <;> simp [hq, ModuleFile.scannedName, htype]

theorem file?_registerNames (hlive : ∀ e ∈ scans, ws.Live e.1 ∧ e.1.scan? sources = some e.2)
    (hdistinct : scans.Pairwise fun a b => a.1.path.same b.1.path = false) :
    (∀ e ∈ scans, (ws.registerNames scans).file? e.1.path = some (e.1.settle sources)) ∧
      ∀ q, (∀ e ∈ scans, e.1.path.same q = false) →
        (ws.registerNames scans).file? q = ws.file? q := by
  induction scans generalizing ws with
  | nil => exact ⟨by simp, fun _ _ => rfl⟩
  | cons e scans ih =>
    obtain ⟨⟨hlive, hscan⟩, hrest⟩ := List.forall_mem_cons.1 hlive
    obtain ⟨hother, hdistinct⟩ := List.pairwise_cons.1 hdistinct
    have hfile := file?_registerScannedName_of_live hlive hscan
    have hlater : ∀ d ∈ scans, (ws.registerScannedName e.1 e.2).Live d.1 ∧
        d.1.scan? sources = some d.2 := fun d hd => by
      refine ⟨?_, (hrest d hd).2⟩
      rw [Live, hfile, hother d hd]
      exact (hrest d hd).1
    obtain ⟨hnamed, hkept⟩ := ih hlater hdistinct
    rw [registerNames_cons]
    refine ⟨List.forall_mem_cons.2 ⟨?_, hnamed⟩, fun q hq => ?_⟩
    · rw [hkept e.1.path fun d hd => by rw [Path.same_comm, hother d hd], hfile, Path.same_refl,
        if_pos rfl]
    · obtain ⟨he, hq⟩ := List.forall_mem_cons.1 hq
      rw [hkept q hq, hfile, he]
      rfl

/-- A file that holds no name is nameless. -/
theorem Tables.nameless (h : ws.Tables owners) (hn : ws.Named)
    (hpath : ∀ f ∈ owners, f.path.same p = false) : ws.Nameless p :=
  hn.nameless_of_holder? fun library name holder hholder => by
    obtain ⟨f, hf, -, -, rfl⟩ := (h ..).1 hholder
    exact hpath f hf

/-- When a file has taken over its name, the other ones are as they were. -/
theorem registerScannedName_others {scans : List (ModuleFile × Scan)} {e : ModuleFile × Scan}
    (hother : ∀ d ∈ scans, e.1.path.same d.1.path = false)
    (hscans : ∀ d ∈ scans, ws.Live d.1 ∧ d.1.scan? sources = some d.2 ∧
      ws.newFile? d.1.path = some d.1) :
    ∀ d ∈ scans, (ws.registerScannedName e.1 e.2).Live d.1 ∧ d.1.scan? sources = some d.2 ∧
      (ws.registerScannedName e.1 e.2).newFile? d.1.path = some d.1 := fun d hd => by
  obtain ⟨hlive, hscan, hnew⟩ := hscans d hd
  refine ⟨?_, hscan, ?_⟩
  · exact (file?_registerScannedName_of_not_same ws e.2 (hother d hd)).trans hlive
  · rw [newFile?_eq_of_heads (heads_registerScannedName ws e.1 e.2), hnew]

/-- One more file takes over the name of its header. -/
theorem Tables.registerScannedName (h : ws.Tables owners) (hn : ws.Named)
    (hnew : ws.newFile? f.path = some f) {s : Scan} (hscan : f.scan? sources = some s)
    (htype : f.type.hasHeaderName = true) (hapart : ∀ g ∈ owners, Apart (f.settle sources) g) :
    (ws.registerScannedName f s).Tables (f.settle sources :: owners) := by
  obtain ⟨hupper, hsome⟩ := hn.library_newFile? hnew
  have hname : f.settledName sources = f.scannedName s := by
    rw [ModuleFile.settledName, hscan]
    rfl
  have hnameless : ws.Nameless f.path := h.nameless hn fun g hg => by
    rw [Path.same_comm]
    exact (hapart g hg).1
  refine h.claim (fun g hg => (hapart g hg).2.symm) fun library name => ?_
  rw [hnameless.holder?_registerScannedName, hupper]
  have hsettle : (f.settle sources).library = f.library ∧
      (f.settle sources).name = f.scannedName s ∧ (f.settle sources).path = f.path :=
    ⟨rfl, hname, rfl⟩
  rw [hsettle.1, hsettle.2.1, hsettle.2.2]
  by_cases hlibrary : library = f.library
  · subst hlibrary
    simp [htype, hsome]
  · simp [hlibrary]

/-- The files that are named by their headers join the owners one after the other. -/
theorem Tables.registerNames (h : ws.Tables owners) (ha : Arises ws)
    (hscans : ∀ e ∈ scans, ws.Live e.1 ∧ e.1.scan? sources = some e.2 ∧
      ws.newFile? e.1.path = some e.1)
    (hdistinct : scans.Pairwise fun a b => a.1.path.same b.1.path = false)
    (hapart : (headed sources scans ++ owners).Pairwise Apart) :
    (ws.registerNames scans).Tables ((headed sources scans).reverse ++ owners) := by
  induction scans generalizing ws owners with
  | nil => exact h
  | cons e scans ih =>
    obtain ⟨⟨hlive, hscan, hnew⟩, hrest⟩ := List.forall_mem_cons.1 hscans
    obtain ⟨hother, hdistinct⟩ := List.pairwise_cons.1 hdistinct
    have hlater := registerScannedName_others hother hrest
    have ha₁ : Arises (ws.registerScannedName e.1 e.2) := ha.move (.name e.1 e.2 hlive hscan)
    rw [registerNames_cons]
    cases htype : e.1.type.hasHeaderName with
    | false =>
      have hskip : headed sources (e :: scans) = headed sources scans := by simp [headed, htype]
      have hsame : ws.registerScannedName e.1 e.2 = ws := by
        simp [Workspace.registerScannedName, htype]
      rw [hskip] at hapart ⊢
      exact ih (by rw [hsame]; exact h) ha₁ hlater hdistinct hapart
    | true =>
      have hcons : headed sources (e :: scans) = e.1.settle sources :: headed sources scans := by
        simp [headed, htype]
      rw [hcons, List.cons_append] at hapart
      have hclaim := h.registerScannedName ha.named hnew hscan htype fun g hg =>
        (List.pairwise_cons.1 hapart).1 g (List.mem_append_right _ hg)
      rw [hcons, List.reverse_cons, List.append_assoc]
      refine ih hclaim ha₁ hlater hdistinct ?_
      exact (List.Perm.pairwise_iff Apart.symm List.perm_middle).2 hapart

/-- Every file that can be read is scanned. -/
theorem mem_scans_of_file? {s : Scan} (hf : ws.file? q = some f)
    (hscan : f.scan? sources = some s) : (f, s) ∈ ws.scans sources :=
  List.mem_filterMap.2 ⟨f, PathMap.mem_values.2 ⟨q, hf⟩, by simp [hscan]⟩

/-- Every file takes over the name that its scan gives it. -/
theorem Keyed.file?_registerNames (hk : ws.Keyed) (q : Path) :
    (ws.registerNames (ws.scans sources)).file? q = (ws.file? q).map (·.settle sources) := by
  obtain ⟨hnamed, hkept⟩ := Workspace.file?_registerNames
    (fun e (he : e ∈ ws.scans sources) => hk.live_of_mem_scans he) hk.pairwise_scans
  have hother (hq : ∀ f, ws.file? q = some f → f.scan? sources = none) :
      (ws.registerNames (ws.scans sources)).file? q = ws.file? q := by
    refine hkept q fun e he => ?_
    obtain ⟨hlive, hscan⟩ := hk.live_of_mem_scans he
    by_contra hs
    rw [hq e.1 ((ws.file?_congr (by simpa using hs)).symm.trans hlive)] at hscan
    simp at hscan
  cases hf : ws.file? q with
  | none =>
    rw [hother (by simp [hf]), hf]
    rfl
  | some f =>
    cases hscan : f.scan? sources with
    | none =>
      have hsettle : f.settle sources = f := by
        rw [ModuleFile.settle, ModuleFile.settledName, hscan]
        rfl
      rw [hother (by simp [hf, hscan]), hf, Option.map_some, hsettle]
    | some s =>
      rw [← file?_congr _ (hk q f hf)]
      exact hnamed (f, s) (mem_scans_of_file? hf hscan)

/-- The scanned files are the same after the names have been taken over, but for their names. -/
theorem Keyed.unlinked_registerNames (hk : ws.Keyed) {e : ModuleFile × Scan}
    (he : e ∈ ws.scans sources) :
    ((ws.registerNames (ws.scans sources)).file? e.1.path).map unlinked = some (unlinked e.1) := by
  have hlive : ws.file? e.1.path = some e.1 := (hk.live_of_mem_scans he).1
  rw [hk.file?_registerNames, hlive]
  rfl

theorem Arises.registerNames (ha : Arises ws) (sources : Sources) :
    Arises (ws.registerNames (ws.scans sources)) :=
  ha.moves (moves_registerNames ha.keyed (fun _ => ha.keyed.live_of_mem_scans)
    ha.keyed.pairwise_scans).1

/-- Indexing a workspace without modules records the scans of its files after they have taken over
their names. -/
theorem Arises.indexes_indexAll (ha : Arises ws) (hu : ws.Unparsed) (sources : Sources) :
    Indexes sources ((ws.scans sources).map (·.1)) (ws.registerNames (ws.scans sources))
      (ws.indexAll sources false).1 := by
  refine (ha.registerNames sources).indexes_registerScans fun e he => ?_
  obtain ⟨hlive, hscan⟩ := ha.keyed.live_of_mem_scans he
  exact ⟨ha.keyed.unlinked_registerNames he, hu _ _ hlive, hscan⟩

/-- When a workspace of which no references are known has been indexed, its graph follows from the
files. -/
theorem Arises.charted_indexAll (ha : Arises ws) (hu : ws.Unparsed)
    (hidle : ∀ q f, ws.file? q = some f → f.outgoing = .empty) (hwaiting : ws.waiting = {})
    (hcache : ws.cache = {}) (sources : Sources) :
    Charted sources (ws.indexAll sources false).1 := by
  have hnamed := ha.registerNames sources
  have hindexes := ha.indexes_indexAll hu sources
  have hskeleton := hindexes.refreshes.skeleton
  have hfile (q : Path) : (ws.registerNames (ws.scans sources)).file? q =
      (ws.file? q).map (·.settle sources) := ha.keyed.file?_registerNames q
  obtain ⟨hwaiting', hcache'⟩ := ws.records_registerNames (ws.scans sources)
  have hnot (q : Path) (name : String) :
      ¬ (ws.registerNames (ws.scans sources)).waiting.Waits q name := by
    simp [hwaiting', hwaiting]
  have hscanned {q : Path} {g : ModuleFile} {s : Scan} (hg : ws.file? q = some g)
      (hs : g.scan? sources = some s) : g ∈ (ws.scans sources).map (·.1) :=
    List.mem_map.2 ⟨(g, s), mem_scans_of_file? hg hs, rfl⟩
  refine ⟨ha.moves (moves_indexAll sources ha.keyed false), hindexes.unparsed fun q f hf => ?_,
    fun q f hf => ?_, fun q name hwaits => ?_, fun called x => ?_⟩
  · rw [hfile] at hf
    obtain ⟨g, hg, rfl⟩ := Option.map_eq_some_iff.1 hf
    exact hu q g hg
  · obtain ⟨f', hf', -⟩ := exists_file_of_skeleton hskeleton.symm hf
    have hf'' := hf'
    rw [hfile] at hf''
    obtain ⟨g, hg, rfl⟩ := Option.map_eq_some_iff.1 hf''
    cases hscan : g.scan? sources with
    | none =>
      refine hindexes.refreshes.inStep hnamed.keyed ?_
      exact inStep_of_idle hf' (hu q g hg) hscan (hidle q g hg) (hnot _)
    | some s =>
      refine (InStep.congr (ha.keyed q g hg)).1 (hindexes.inStep g (hscanned hg hscan) ?_)
      rw [hscan]
      rfl
  · rcases hindexes.refreshes.files q with hkept | ⟨f, hf, -⟩
    · exact absurd ((hkept.waits name).1 hwaits) (hnot q name)
    · exact ⟨f, hf⟩
  · rw [hindexes.records, exists_cites_congr (map_bare_file?_of_skeleton hskeleton)
      (resolve?_eq_of_skeleton hskeleton), hcache', hcache]
    simp only [ReferenceCache.not_records_empty, false_or]
    constructor
    · rintro ⟨f, hf, hcites⟩
      obtain ⟨e, he, rfl⟩ := List.mem_map.1 hf
      have hlive : ws.file? e.1.path = some e.1 := (ha.keyed.live_of_mem_scans he).1
      refine ⟨e.1.settle sources, ?_, hcites⟩
      refine (hfile e.1.path).trans ?_
      rw [hlive]
      rfl
    · rintro ⟨f, hf, s, hscan, hcites⟩
      rw [Live, hfile] at hf
      obtain ⟨g, hg, rfl⟩ := Option.map_eq_some_iff.1 hf
      exact ⟨g, hscanned hg hscan, s, hscan, hcites⟩

/-- Nothing is known of new files but who and where they are. -/
theorem blank_of_new (hnew : ∀ f ∈ files, base.newFile? f.path = some f)
    (hf : f ∈ files.map (·.settle sources)) :
    f.bare = f ∧ f.state = .unparsed ∧ f.outgoing = .empty ∧
      f.settledName sources = f.name := by
  obtain ⟨g, hg, rfl⟩ := List.mem_map.1 hf
  refine ⟨?_, ?_, ?_, g.settledName_settle sources⟩ <;>
    obtain ⟨l, -, type, heq⟩ := newFile?_cases (hnew g hg) <;> rw [heq] <;> rfl

section Stocked

variable (h : Stocked base files (files.filter claimsStem) ws)
  (hnew : ∀ f ∈ files, base.newFile? f.path = some f)
  (hapart : files.Pairwise fun f g => Apart (f.settle sources) (g.settle sources))

include h

theorem Stocked.mem_scans {e : ModuleFile × Scan} :
    e ∈ ws.scans sources ↔ e.1 ∈ files ∧ e.1.scan? sources = some e.2 := by
  constructor
  · intro he
    obtain ⟨hlive, hscan⟩ := h.arises.keyed.live_of_mem_scans he
    exact ⟨((h.file _ _).1 hlive).1, hscan⟩
  · rintro ⟨hmem, hscan⟩
    exact mem_scans_of_file? ((h.file _ _).2 ⟨hmem, Path.same_refl _⟩) hscan

include hnew in
theorem Stocked.unparsed : ws.Unparsed := fun q f hf => by
  obtain ⟨l, -, type, heq⟩ := newFile?_cases (hnew f ((h.file q f).1 hf).1)
  rw [heq]

/-- The owners of header names and of stems are the files that claim a name. -/
theorem Stocked.mem_owners_iff :
    f ∈ (files.map (·.settle sources)).filter (·.claims sources) ↔
      f ∈ (headed sources (ws.scans sources)).reverse ++ files.filter claimsStem := by
  simp only [List.mem_filter, List.mem_map, List.mem_append, List.mem_reverse, headed]
  constructor
  · rintro ⟨⟨g, hg, rfl⟩, hclaims⟩
    have hclaims : g.claims sources = true := hclaims
    cases htype : g.type.hasHeaderName with
    | false =>
      have hstem : claimsStem g = true := by simp [claimsStem, htype]
      rw [settle_of_claimsStem sources hstem]
      exact .inr ⟨hg, hstem⟩
    | true =>
      obtain ⟨s, hscan⟩ : ∃ s, g.scan? sources = some s := by
        simpa [ModuleFile.claims, htype, Option.isSome_iff_exists] using hclaims
      exact .inl ⟨(g, s), ⟨h.mem_scans.2 ⟨hg, hscan⟩, htype⟩, rfl⟩
  · rintro (⟨e, ⟨he, -⟩, rfl⟩ | ⟨hf, hstem⟩)
    · obtain ⟨hmem, hscan⟩ := h.mem_scans.1 he
      refine ⟨⟨e.1, hmem, rfl⟩, Bool.or_eq_true_iff.2 (.inr ?_)⟩
      exact Option.isSome_iff_exists.2 ⟨e.2, hscan⟩
    · exact ⟨⟨f, hf, settle_of_claimsStem sources hstem⟩, Bool.or_eq_true_iff.2 (.inl hstem)⟩

include hapart

/-- The owners of header names and of stems are apart. -/
theorem Stocked.pairwise_owners :
    (headed sources (ws.scans sources) ++ files.filter claimsStem).Pairwise Apart := by
  have hsymm : Std.Symm fun f g : ModuleFile => Apart (f.settle sources) (g.settle sources) :=
    ⟨fun _ _ => Apart.symm⟩
  have hdifferent := hapart.forall
  have hmem {e : ModuleFile × Scan}
      (he : e ∈ (ws.scans sources).filter (·.1.type.hasHeaderName)) :
      e.1 ∈ files ∧ e.1.type.hasHeaderName = true := by
    obtain ⟨he, htype⟩ := List.mem_filter.1 he
    exact ⟨(h.mem_scans.1 he).1, htype⟩
  rw [List.pairwise_append]
  refine ⟨?_, ?_, fun f hf g hg => ?_⟩
  · rw [headed, List.pairwise_map]
    refine (h.arises.keyed.pairwise_scans.filter _).imp_of_mem fun ha hb hs => ?_
    refine hdifferent (hmem ha).1 (hmem hb).1 fun heq => ?_
    simp [heq] at hs
  · refine (hapart.filter _).imp_of_mem fun ha hb happart => ?_
    rwa [settle_of_claimsStem sources (List.mem_filter.1 ha).2,
      settle_of_claimsStem sources (List.mem_filter.1 hb).2] at happart
  · obtain ⟨e, he, rfl⟩ := List.mem_map.1 hf
    obtain ⟨hg, hstem⟩ := List.mem_filter.1 hg
    rw [← settle_of_claimsStem sources hstem]
    refine hdifferent (hmem he).1 hg ?_
    rintro rfl
    simp [claimsStem, (hmem he).2] at hstem

include hnew

/-- All files take over the names that their scans give them. -/
theorem Stocked.registerNames :
    Stocked base (files.map (·.settle sources))
      ((files.map (·.settle sources)).filter (·.claims sources))
      (ws.registerNames (ws.scans sources)) := by
  have hk := h.arises.keyed
  obtain ⟨hwaiting, hcache⟩ := ws.records_registerNames (ws.scans sources)
  refine ⟨h.arises.registerNames sources, (ws.heads_registerNames _).trans h.heads,
    fun q f => ?_, ?_, hwaiting.trans h.waiting, hcache.trans h.cache⟩
  · rw [hk.file?_registerNames]
    constructor
    · intro hf
      obtain ⟨g, hg, rfl⟩ := Option.map_eq_some_iff.1 hf
      obtain ⟨hmem, hs⟩ := (h.file q g).1 hg
      exact ⟨List.mem_map_of_mem hmem, hs⟩
    · rintro ⟨hf, hs⟩
      obtain ⟨g, hg, rfl⟩ := List.mem_map.1 hf
      rw [(h.file q g).2 ⟨hg, hs⟩]
      rfl
  · refine (h.table.registerNames h.arises (fun e he => ?_) hk.pairwise_scans
      (h.pairwise_owners hapart)).of_mem fun f => h.mem_owners_iff
    obtain ⟨hlive, hscan⟩ := hk.live_of_mem_scans he
    refine ⟨hlive, hscan, ?_⟩
    rw [newFile?_eq_of_heads h.heads]
    exact hnew e.1 (h.mem_scans.1 he).1

/-- All files are scanned at once. -/
theorem Stocked.indexAll :
    Indexed sources base (files.map (·.settle sources)) (ws.indexAll sources false).1 := by
  have hB := h.registerNames hnew hapart
  have hindexes := h.arises.indexes_indexAll (h.unparsed hnew) sources
  have hskeleton := hindexes.refreshes.skeleton
  have hblank {f : ModuleFile} (hf : f ∈ files.map (·.settle sources)) := blank_of_new hnew hf
  have hidle (q : Path) (f : ModuleFile) (hf : ws.file? q = some f) : f.outgoing = .empty :=
    (hblank (List.mem_map_of_mem ((h.file q f).1 hf).1)).2.2.1
  have hcharted : Charted sources (ws.indexAll sources false).1 :=
    h.arises.charted_indexAll (h.unparsed hnew) hidle h.waiting h.cache sources
  have hheads : (ws.indexAll sources false).1.heads = (ws.registerNames (ws.scans sources)).heads :=
    heads_eq_of_skeleton hskeleton
  have hfile (q : Path) (f : ModuleFile) :
      ((ws.indexAll sources false).1.file? q).map ModuleFile.bare = some f ↔
        f ∈ files.map (·.settle sources) ∧ f.path.same q = true := by
    rw [map_bare_file?_of_skeleton hskeleton, ← hB.file]
    constructor
    · intro hf
      obtain ⟨g, hg, rfl⟩ := Option.map_eq_some_iff.1 hf
      rw [(hblank ((hB.file q g).1 hg).1).1, hg]
    · intro hf
      rw [hf, Option.map_some, (hblank ((hB.file q f).1 hf).1).1]
  refine ⟨hcharted.arises, hheads.trans hB.heads, fun f hf => (hblank hf).2.2.2, hfile,
    hB.table.of_holder? fun library name => holder?_eq_of_skeleton hskeleton library name,
    hcharted.unparsed, hcharted.inStep, hcharted.waits, fun called x => ?_⟩
  rw [hcharted.records, exists_cites_iff_of_file hfile]

end Stocked

/-! ### Both ways lead to the same graph -/

theorem stocked_fresh (root : Path) (faults : ParserFaults) (severity : SeverityRules)
    (libraries : List (String × Path × List String)) :
    Stocked (fresh root faults severity libraries) [] ([].filter claimsStem)
      (fresh root faults severity libraries) :=
  ⟨.fresh .., rfl, by simp, by simp [Tables, holder?_fresh], by simp, by simp⟩

/-- Files at different paths with different names are apart. -/
theorem pairwise_newFiles {paths : List Path} (hpaths : paths.Pairwise fun p q => p.same q = false)
    (hnames : (newFiles base paths).Pairwise fun f g =>
      f.settledName sources ≠ g.settledName sources) :
    (newFiles base paths).Pairwise fun f g => Apart (f.settle sources) (g.settle sources) := by
  have hdistinct : (newFiles base paths).Pairwise fun f g => f.path.same g.path = false :=
    hpaths.filterMap _ fun p q hs f hf g hg => by
      rw [path_newFile? hf, path_newFile? hg, hs]
  exact hdistinct.imp₂ (fun f g hpath hname => ⟨hpath, hname⟩) hnames

/-- Creating files one by one, in any order, leads to the same graph as adding all of them and
scanning them at once, provided that no two of them have the same name: the same names are held by
the same files, and the same edges, waits and cached positions are on record. -/
theorem creation_eq_indexing (root : Path) (faults : ParserFaults) (severity : SeverityRules)
    (libraries : List (String × Path × List String)) (sources : Sources) {paths order : List Path}
    (horder : order.Perm paths) (hpaths : paths.Pairwise fun p q => p.same q = false)
    (hnames : (newFiles (fresh root faults severity libraries) paths).Pairwise fun f g =>
      f.settledName sources ≠ g.settledName sources) :
    SameGraph
      (order.foldl (fun ws p => (ws.createFile sources p).2.2)
        (fresh root faults severity libraries))
      ((paths.foldl (fun ws p => (ws.addFile p).2)
        (fresh root faults severity libraries)).indexAll sources false).1 := by
  have hown := searchesItself_fresh root faults severity libraries
  have hindexed := indexed_fresh root faults severity libraries sources
  have hstocked := stocked_fresh root faults severity libraries
  -- from here on it matters only that the workspace has no files and that libraries search
  -- themselves
  generalize fresh root faults severity libraries = base at *
  have hapart := pairwise_newFiles hpaths hnames
  have hfiles : (newFiles base order).Perm (newFiles base paths) := horder.filterMap _
  have hpaths' : order.Pairwise fun p q => p.same q = false :=
    (horder.pairwise_iff fun h => by rwa [Path.same_comm]).2 hpaths
  have hapart' : (filesAt sources base order ++ []).Pairwise Apart := by
    rw [List.append_nil, filesAt, List.pairwise_map]
    exact (hfiles.pairwise_iff Apart.symm).2 hapart
  have hcreated := hindexed.createFiles hown (by simp) hpaths' hapart'
  have hadded := hstocked.addFiles (by simp) hpaths (by rwa [List.append_nil])
  rw [List.append_nil] at hcreated hadded
  have hapart'' := List.pairwise_reverse.2 (hapart.imp Apart.symm)
  refine hcreated.sameGraph (hadded.indexAll (fun f hf => ?_) hapart'') fun f => ?_
  · obtain ⟨p, -, hp⟩ := List.mem_filterMap.1 (List.mem_reverse.1 hf)
    rwa [path_newFile? hp]
  · rw [List.map_reverse, List.mem_reverse, List.mem_reverse]
    exact (hfiles.map _).symm.mem_iff

/-- The program and the subroutine that it calls have different names, so it does not matter which
is created first. -/
theorem creation_eq_indexing_sample :
    [Sample.subroutine, Sample.program].Perm [Sample.program, Sample.subroutine] ∧
      SameGraph
        ([Sample.subroutine, Sample.program].foldl
          (fun ws p => (ws.createFile Sample.namesakes p).2.2) (Sample.after []))
        (([Sample.program, Sample.subroutine].foldl (fun ws p => (ws.addFile p).2)
          (Sample.after [])).indexAll Sample.namesakes false).1 ∧
      ([Sample.subroutine, Sample.program].foldl
        (fun ws p => (ws.createFile Sample.namesakes p).2.2) (Sample.after [])).Calls
          Sample.program Sample.subroutine := by
  have horder : [Sample.subroutine, Sample.program].Perm [Sample.program, Sample.subroutine] :=
    .swap ..
  have hsame := creation_eq_indexing (.ofText "") {} { root := .ofText "" } Sample.libraries
    Sample.namesakes horder (by decide +kernel) (by decide +kernel)
  refine ⟨horder, hsame, (hsame.calls ..).1 ((Option.any_eq_true _ _).1 ?_)⟩
  decide +kernel

end Workspace

end Steplib
