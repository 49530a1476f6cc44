import Steplib.Proofs.Project.Libraries
import Steplib.Proofs.Workspace.Registration

/-!
# Loading a project

Loading puts every source in the directory of a library into the workspace, once, and gives a name
to the first file in path order that is called by it. No directory of a library lies in another
one, because the libraries are told apart by their names in upper case and so are the names of
their directories. A name that is looked up from a library is then found in the first library of
the search order that has a file of this name.

## Main definitions

* `Disk.HasModule`: a source that is named by its stem.
* `Project.Resolves`: what a name stands for.
* `Project.Laid`: the libraries of a project and their sources.

## Main results

* `Project.Laid.isSome_file?_iff`: the files of the workspace are the sources in the libraries.
* `Project.Laid.first_of_holder?`: a name belongs to the first file in path order.
* `Project.load_registers`: what a loaded project consists of.
-/

namespace Steplib

/-- A source at or below `dir` is named by its stem, which is the given name in upper case. -/
def Disk.HasModule (d : Disk) (dir : Path) (name : String) (p : Path) : Prop :=
  d.HasSource dir p ∧ (∃ type, ObjectType.ofPath? p = some type ∧ type.hasHeaderName = false) ∧
    p.stem?.map Ascii.upper = some name

namespace Project

open Workspace

variable {d : Disk} {root dir p q : Path} {faults : ParserFaults} {m : Manifest} {ws : Workspace}
  {l k : Library} {f g : ModuleFile} {name : String} {holder : Holder}

/-- A name stands for the first file in path order that is called by it in the first library of the
search order that has one, and for nothing if no library has one. -/
def Resolves (d : Disk) (ws : Workspace) (chain : List String) (name : String) :
    Option Holder → Prop
  | some holder => holder.live = true ∧ ∃ before k after,
      chain = before ++ k.name :: after ∧ k ∈ ws.libraries ∧
        d.HasModule k.sourcePath name holder.path ∧
        (∀ p, d.HasModule k.sourcePath name p → p.before holder.path = false) ∧
        ∀ l ∈ ws.libraries, l.name ∈ before → ∀ p, ¬d.HasModule l.sourcePath name p
  | none => ∀ l ∈ ws.libraries, l.name ∈ chain → ∀ p, ¬d.HasModule l.sourcePath name p

/-- The paths of the sources of all libraries. -/
def sources (d : Disk) (ws : Workspace) : List Path :=
  ws.libraries.flatMap fun l => d.sourcePaths l.sourcePath

/-- The workspace has libraries with the search orders of the manifest, each in a directory of its
name, and their sources. -/
structure Laid (d : Disk) (dir : Path) (m : Manifest) (ws : Workspace) : Prop where
  named : ws.Named
  order : InOrder d dir m ws.libraryNames
  chain : ∀ l ∈ ws.libraries, l.chain = Library.chainOf l.name (m.steplibs l.name)
  lies : ∀ l ∈ ws.libraries, LiesIn d dir l
  entry : ∀ l ∈ ws.libraries, ∃ entry, Path.PlainName entry ∧ Ascii.upper entry = l.name ∧
    l.sourcePath = dir.child entry
  entered : Entered ws (sources d ws) ws

theorem exists_of_heads {base : Workspace} (h : ws.heads = base.heads) (hl : l ∈ ws.libraries) :
    ∃ k ∈ base.libraries, k.name = l.name ∧ k.sourcePath = l.sourcePath ∧ k.chain = l.chain := by
  have hmem : l.head ∈ base.heads := h ▸ List.mem_map_of_mem hl
  obtain ⟨k, hk, hhead⟩ := List.mem_map.1 hmem
  exact ⟨k, hk, congrArg (·.name) hhead, congrArg (·.sourcePath) hhead, congrArg (·.chain) hhead⟩

theorem laid_load (htree : d.IsTree) (hm : loadManifest d root = .ok m)
    (hplain : ∀ e ∈ m.libraries, Path.PlainName e.1) (hload : load d faults root = .ok ws) :
    Laid d (root.child librariesDirectory) m ws := by
  obtain ⟨m', severity, hm', hws⟩ := exists_load hload
  obtain rfl := Except.ok.inj (hm.symm.trans hm')
  let base := fresh root faults severity (libraries (root.child librariesDirectory)
    (d.libraryDirectories (root.child librariesDirectory)) m)
  have hentered : Entered base (sources d base) ws := by
    rw [hws]
    exact entered_addFiles root faults severity _ _
  have hheads := hentered.heads
  have hsources : sources d base = sources d ws := by
    have hpaths := congrArg (List.flatMap fun l => d.sourcePaths l.sourcePath) hheads
    rw [heads, heads, List.flatMap_map, List.flatMap_map] at hpaths
    exact hpaths.symm
  have hfiles (paths : List Path) : newFiles base paths = newFiles ws paths :=
    congrArg (paths.filterMap ·) (funext fun p => (newFile?_eq_of_heads hheads p).symm)
  have hnames : ws.libraryNames = base.libraryNames := by
    have hmap := congrArg (List.map (·.name)) hheads
    rw [heads, heads, List.map_map, List.map_map] at hmap
    exact hmap
  have hsound := sound_loadManifest hm
  refine ⟨hentered.arises.named, hnames ▸ inOrder_fresh htree hsound, fun l hl => ?_,
    fun l hl => ?_, fun l hl => ?_, ?_⟩
  · obtain ⟨k, hk, hname, -, hchain⟩ := exists_of_heads hheads hl
    rw [← hname, ← hchain]
    exact (chain_of_mem htree hsound hk).1
  · obtain ⟨k, hk, hname, hpath, -⟩ := exists_of_heads hheads hl
    rw [LiesIn, ← hname, ← hpath]
    exact liesIn_of_mem htree hsound hk
  · obtain ⟨k, hk, hname, hpath, -⟩ := exists_of_heads hheads hl
    rw [← hname, ← hpath]
    exact exists_entry htree hsound hk hplain
  · rw [← hsources]
    exact ⟨hentered.arises, rfl, hfiles _ ▸ hentered.file, hfiles _ ▸ hentered.holder⟩

/-! ### Libraries apart -/

section Laid

variable (h : Laid d dir m ws)

include h

/-- The directories of the libraries have the same depth. -/
theorem Laid.exists_components (hl : l ∈ ws.libraries) : ∃ entry, Path.PlainName entry ∧
    Ascii.upper entry = l.name ∧ l.sourcePath.components = dir.components ++ [.name entry] := by
  obtain ⟨entry, hplain, hname, hpath⟩ := h.entry l hl
  exact ⟨entry, hplain, hname, by rw [hpath, Path.components_child hplain]⟩

/-- A path lies in the directory of one library at most. -/
theorem Laid.library_unique (hl : l ∈ ws.libraries) (hk : k ∈ ws.libraries)
    (hpl : p.startsWith l.sourcePath = true) (hpk : p.startsWith k.sourcePath = true) : l = k := by
  obtain ⟨a, -, hnamel, hcl⟩ := h.exists_components hl
  obtain ⟨b, -, hnamek, hck⟩ := h.exists_components hk
  have hpl := List.isPrefixOf_iff_prefix.1 hpl
  have hpk := List.isPrefixOf_iff_prefix.1 hpk
  rw [hcl] at hpl
  rw [hck] at hpk
  have hsame := List.prefix_of_prefix_length_le hpl hpk (by simp)
  obtain rfl : a = b := by simpa using hsame
  exact h.named.library_ext hl hk (hnamel.symm.trans hnamek)

/-! ### The files -/

/-- A source in a library stands for a file of this library. -/
theorem Laid.newFile?_of_mem_sourcePaths (htree : d.IsTree) (hl : l ∈ ws.libraries)
    (hp : p ∈ d.sourcePaths l.sourcePath) : ∃ type, ObjectType.ofPath? p = some type ∧
      ws.newFile? p = some
        { path := p, library := l.name, type, name := Ascii.upper (p.stem?.getD "") } := by
  obtain ⟨type, htype⟩ := Option.isSome_iff_exists.1 (Disk.mem_sourcePaths.1 hp).2
  have hstarts := htree.startsWith_of_mem_sourcePaths hp
  obtain ⟨k, hfor, hk, hpk, -⟩ := exists_libraryForPath? hl hstarts
  obtain rfl := h.library_unique hl hk hstarts hpk
  refine ⟨type, htype, ?_⟩
  rw [newFile?, htype, hfor]
  rfl

omit h in
theorem mem_newFiles : f ∈ newFiles ws (sources d ws) ↔
    ∃ l ∈ ws.libraries, ∃ p ∈ d.sourcePaths l.sourcePath, ws.newFile? p = some f := by
  simp only [newFiles, sources, List.mem_filterMap, List.mem_flatMap]
  constructor
  · rintro ⟨p, ⟨l, hl, hp⟩, hnew⟩
    exact ⟨l, hl, p, hp, hnew⟩
  · rintro ⟨l, hl, p, hp, hnew⟩
    exact ⟨p, ⟨l, hl, hp⟩, hnew⟩

/-- The files of a library are listed in path order. -/
theorem Laid.pairwise_newFiles (htree : d.IsTree) : (newFiles ws (sources d ws)).Pairwise
    fun f g => f.library = g.library → g.path.before f.path = false := by
  rw [newFiles, sources, List.filterMap_flatMap, List.pairwise_flatMap]
  constructor
  · intro l hl
    refine (Disk.pairwise_sourcePaths d l.sourcePath).filterMap _ fun p q hle f hf g hg _ => ?_
    rw [path_newFile? hf, path_newFile? hg]
    exact hle
  · have hlibrary {l : Library} (hl : l ∈ ws.libraries) {f : ModuleFile}
        (hf : f ∈ (d.sourcePaths l.sourcePath).filterMap ws.newFile?) : f.library = l.name := by
      obtain ⟨p, hp, hnew⟩ := List.mem_filterMap.1 hf
      obtain ⟨type, -, hfile⟩ := h.newFile?_of_mem_sourcePaths htree hl hp
      rw [← Option.some.inj (hfile.symm.trans hnew)]
    have hdistinct := List.pairwise_map.1 h.named.distinct
    refine hdistinct.imp_of_mem fun {l k} hl hk hne f hf g hg hsame => ?_
    rw [hlibrary hl hf, hlibrary hk hg] at hsame
    exact absurd hsame hne

/-- The files are the sources in the libraries. -/
theorem Laid.isSome_file?_iff (htree : d.IsTree) :
    (ws.file? p).isSome = true ↔ ∃ l ∈ ws.libraries, d.HasSource l.sourcePath p := by
  rw [h.entered.file, List.find?_isSome]
  simp only [mem_newFiles, htree.hasSource_iff]
  constructor
  · rintro ⟨f, ⟨l, hl, q, hq, hnew⟩, hs⟩
    exact ⟨l, hl, q, hq, path_newFile? hnew ▸ hs⟩
  · rintro ⟨l, hl, q, hq, hs⟩
    obtain ⟨type, -, hnew⟩ := h.newFile?_of_mem_sourcePaths htree hl hq
    exact ⟨_, ⟨l, hl, q, hq, hnew⟩, hs⟩

/-- A file belongs to a library in whose directory it lies. -/
theorem Laid.exists_library (htree : d.IsTree) (hp : ws.file? p = some f) :
    ∃ l ∈ ws.libraries, f.library = l.name ∧ p.startsWith l.sourcePath = true := by
  rw [h.entered.file] at hp
  obtain ⟨l, hl, q, hq, hnew⟩ := mem_newFiles.1 (List.mem_of_find?_eq_some hp)
  obtain ⟨type, -, hfile⟩ := h.newFile?_of_mem_sourcePaths htree hl hq
  obtain rfl := Option.some.inj (hnew.symm.trans hfile)
  have hs : q.same p = true := by simpa using List.find?_some hp
  refine ⟨l, hl, rfl, ?_⟩
  rw [Path.startsWith, ← Path.same_iff.1 hs]
  exact htree.startsWith_of_mem_sourcePaths hq

/-- A source in a library lies below the directory of all libraries. -/
theorem Laid.exists_names (htree : d.IsTree) (hp : (ws.file? p).isSome = true) :
    ∃ names : List String, p.components = dir.components ++ names.map .name := by
  obtain ⟨l, hl, -, names, text, hnode, hs⟩ := (h.isSome_file?_iff htree).1 hp
  obtain ⟨entry, -, -, hpath⟩ := h.exists_components hl
  refine ⟨entry :: names, ?_⟩
  rw [← Path.same_iff.1 hs, Path.components_foldl_child (htree.plain_of_nodeBelow? hnode), hpath,
    List.append_assoc]
  rfl

/-- No file on disk is in the workspace under two paths. -/
theorem Laid.same_of_find (htree : d.IsTree) {found : Place × Node}
    (hp : (ws.file? p).isSome = true) (hq : (ws.file? q).isSome = true)
    (hfp : d.find p = .ok found) (hfq : d.find q = .ok found) : p.same q = true := by
  obtain ⟨names, hnames⟩ := h.exists_names htree hp
  obtain ⟨names', hnames'⟩ := h.exists_names htree hq
  obtain ⟨place, hplace, hfound⟩ := Disk.exists_place_of_find hnames hfp
  obtain ⟨place', hplace', hfound'⟩ := Disk.exists_place_of_find hnames' hfq
  obtain rfl := Except.ok.inj (hplace.symm.trans hplace')
  rw [Path.same_iff, hnames, hnames', List.append_cancel_left (hfound.symm.trans hfound')]

/-! ### The names -/

omit h in
theorem exists_stem? {type : ObjectType} (htype : ObjectType.ofPath? p = some type) :
    ∃ stem, p.stem? = some stem := by
  obtain ⟨extension, hextension, -⟩ := Option.bind_eq_some_iff.1 htype
  obtain ⟨name, hname, -⟩ := Option.bind_eq_some_iff.1 hextension
  exact ⟨_, by rw [Path.stem?, hname]; rfl⟩

/-- The sources of a library that are called by a name are the files that claim it. -/
theorem Laid.hasModule_iff (htree : d.IsTree) (hl : l ∈ ws.libraries) :
    d.HasModule l.sourcePath name p ↔ ∃ f ∈ newFiles ws (sources d ws),
      claims l.name name f = true ∧ f.path.same p = true := by
  simp only [Disk.HasModule, htree.hasSource_iff, claims_iff]
  constructor
  · rintro ⟨⟨q, hq, hs⟩, ⟨type, htype, hstem⟩, hname⟩
    obtain ⟨type', htype', hnew⟩ := h.newFile?_of_mem_sourcePaths htree hl hq
    rw [ObjectType.ofPath?_congr hs, htype] at htype'
    obtain rfl := Option.some.inj htype'
    refine ⟨_, mem_newFiles.2 ⟨l, hl, q, hq, hnew⟩, ⟨hstem, rfl, ?_⟩, hs⟩
    rw [← stem?_congr hs] at hname
    obtain ⟨stem, hstem', rfl⟩ := Option.map_eq_some_iff.1 hname
    rw [hstem']
    rfl
  · rintro ⟨f, hf, ⟨hstem, hlibrary, hname⟩, hs⟩
    obtain ⟨k, hk, q, hq, hnew⟩ := mem_newFiles.1 hf
    obtain ⟨type, htype, hfile⟩ := h.newFile?_of_mem_sourcePaths htree hk hq
    obtain rfl := Option.some.inj (hnew.symm.trans hfile)
    obtain rfl := h.named.library_ext hl hk hlibrary
    obtain ⟨stem, hstem'⟩ := exists_stem? htype
    refine ⟨⟨q, hq, hs⟩, ⟨type, ObjectType.ofPath?_congr hs ▸ htype, hstem⟩, ?_⟩
    rw [← stem?_congr hs, hname, hstem']
    rfl

/-- A name belongs to the first file in path order that is called by it. -/
theorem Laid.first_of_holder? (htree : d.IsTree) (hl : l ∈ ws.libraries)
    (hh : ws.holder? l.name name = some holder) : holder.live = true ∧
      d.HasModule l.sourcePath name holder.path ∧
      ∀ p, d.HasModule l.sourcePath name p → p.before holder.path = false := by
  rw [h.entered.holder] at hh
  obtain ⟨f, hf, rfl⟩ := Option.map_eq_some_iff.1 hh
  obtain ⟨hclaims, before, after, hfiles, hbefore⟩ := List.find?_eq_some_iff_append.1 hf
  have hmem : f ∈ newFiles ws (sources d ws) := List.mem_of_find?_eq_some hf
  refine ⟨rfl, (h.hasModule_iff htree hl).2 ⟨f, hmem, hclaims, Path.same_refl _⟩, fun p hp => ?_⟩
  obtain ⟨g, hg, hgclaims, hs⟩ := (h.hasModule_iff htree hl).1 hp
  rw [← Path.before_congr_left hs]
  have hordered := h.pairwise_newFiles htree
  rw [hfiles] at hg hordered
  rcases List.mem_append.1 hg with hg | hg
  · -- no file before the first one claims the name
    exact absurd hgclaims (by simpa using hbefore g hg)
  · rcases List.mem_cons.1 hg with rfl | hg
    · rw [Bool.eq_false_iff]
      exact fun hlt => by simpa using Path.same_of_before hlt
    · refine (List.pairwise_cons.1 (List.pairwise_append.1 hordered).2.1).1 g hg ?_
      exact (claims_iff.1 hclaims).2.1.symm.trans (claims_iff.1 hgclaims).2.1

theorem Laid.none_of_holder? (htree : d.IsTree) (hl : l ∈ ws.libraries)
    (hh : ws.holder? l.name name = none) (p : Path) : ¬d.HasModule l.sourcePath name p := by
  intro hp
  obtain ⟨f, hf, hclaims, -⟩ := (h.hasModule_iff htree hl).1 hp
  rw [h.entered.holder, Option.map_eq_none_iff] at hh
  exact List.find?_eq_none.1 hh f hf hclaims

/-- Names are looked up along the search order. -/
theorem Laid.resolves (htree : d.IsTree) (hl : l ∈ ws.libraries) (name : String) :
    Resolves d ws l.chain (Ascii.upper name) (ws.resolve? l.name name) := by
  have hchain : ws.chain? l.name = some l.chain := by
    rw [chain?, library?, h.named.library_upper l hl, h.named.libraryNamed?_of_mem hl]
    rfl
  rw [resolve?_eq, hchain, Option.bind_some]
  cases hfound : l.chain.findSome? (ws.holder? · (Ascii.upper name)) with
  | none =>
    intro k hk hmem
    exact h.none_of_holder? htree hk (List.findSome?_eq_none_iff.1 hfound k.name hmem)
  | some holder =>
    obtain ⟨before, steplib, after, horder, hh, hbefore⟩ := List.findSome?_eq_some_iff.1 hfound
    obtain ⟨k, hk, -⟩ := Option.bind_eq_some_iff.1 hh
    obtain rfl : k.name = steplib := by simpa using List.find?_some hk
    have hmem := mem_of_libraryNamed? hk
    obtain ⟨hlive, hmodule, hfirst⟩ := h.first_of_holder? htree hmem hh
    exact ⟨hlive, before, k, after, horder, hmem, hmodule, hfirst, fun l' hl' hmem' =>
      h.none_of_holder? htree hl' (hbefore l'.name hmem')⟩

end Laid

/-! ### The project -/

/-- Loading a project whose disk is a tree and whose manifest names libraries plainly. The libraries
have distinct names and come in the order of the manifest, the disk and the last library; each lies
in a directory of its name, and none in that of another. The files are the sources in the libraries,
each under one path and in the library with the deepest directory that contains it. A name that is
looked up from a library stands for the first file in path order that is called by it, in the first
library of the search order that has one. -/
theorem load_registers (htree : d.IsTree) (hm : loadManifest d root = .ok m)
    (hplain : ∀ e ∈ m.libraries, Path.PlainName e.1) (hload : load d faults root = .ok ws) :
    let dir := root.child librariesDirectory
    InOrder d dir m (ws.libraries.map (·.name)) ∧
      (ws.libraries.map (·.name)).Nodup ∧
      (∀ l ∈ ws.libraries, LiesIn d dir l) ∧
      (∀ l ∈ ws.libraries, ∀ k ∈ ws.libraries, l.sourcePath.startsWith k.sourcePath = true →
        l = k) ∧
      (∀ p, (ws.file? p).isSome = true ↔ ∃ l ∈ ws.libraries, d.HasSource l.sourcePath p) ∧
      (∀ p q found, (ws.file? p).isSome = true → (ws.file? q).isSome = true →
        d.find p = .ok found → d.find q = .ok found → p.same q = true) ∧
      (∀ p f, ws.file? p = some f → ∃ l ∈ ws.libraries, f.library = l.name ∧
        p.startsWith l.sourcePath = true ∧
        ∀ k ∈ ws.libraries, p.startsWith k.sourcePath = true → k = l ∨
          k.sourcePath.components.length < l.sourcePath.components.length) ∧
      ∀ l ∈ ws.libraries, ∀ name, Resolves d ws
        (l.name :: (m.steplibs l.name).map Ascii.upper ++ [systemLibrary]).eraseDups
        (Ascii.upper name) (ws.resolve? l.name name) := by
  have hlaid := laid_load htree hm hplain hload
  refine ⟨hlaid.order, hlaid.named.distinct, hlaid.lies, fun l hl k hk hpk => ?_,
    fun p => hlaid.isSome_file?_iff htree, fun p q found => hlaid.same_of_find htree,
    fun p f hp => ?_, fun l hl name => ?_⟩
  · exact hlaid.library_unique hl hk (by simp [Path.startsWith]) hpk
  · obtain ⟨l, hl, hlibrary, hstarts⟩ := hlaid.exists_library htree hp
    exact ⟨l, hl, hlibrary, hstarts, fun k hk hpk => .inl (hlaid.library_unique hk hl hpk hstarts)⟩
  · have hchain : l.chain =
        (l.name :: (m.steplibs l.name).map Ascii.upper ++ [systemLibrary]).eraseDups := by
      rw [hlaid.chain l hl, Library.chainOf, hlaid.named.library_upper l hl]
    rw [← hchain]
    exact hlaid.resolves htree hl name

/-- Two directories differ only in the letter case of their names, and a manifest gives one of them
to a library as its steplib. -/
theorem load_registers_sample :
    let libraries := ["p", "Natural-Libraries"]
    let d : Disk := ⟨[(["p"], .directory), (["p", "Natural-Libraries"], .directory),
      (["p", "_naturalBuild"], .file (some
        "<LibrarySteplib><Library>lib2</Library><Steplib>lib1</Steplib></LibrarySteplib>")),
      (libraries ++ ["lib1"], .directory), (libraries ++ ["lib1", "SUB.NSN"], .file none),
      (libraries ++ ["LIB1"], .directory), (libraries ++ ["LIB1", "sub"], .directory),
      (libraries ++ ["LIB1", "sub", "SUB.NSN"], .file none),
      (libraries ++ ["LIB1", "sub.nsp"], .file none)]⟩
    let root := Path.ofText "/p"
    let m : Manifest := ⟨[("LIB2", ["LIB1"])]⟩
    d.IsTree ∧ loadManifest d root = .ok m ∧ (∀ e ∈ m.libraries, Path.PlainName e.1) ∧
      ∃ ws, load d {} root = .ok ws ∧ "LIB1" ∈ ws.libraries.map (·.name) ∧
        ∃ l ∈ ws.libraries, l.name = "LIB2" ∧
          Resolves d ws ["LIB2", "LIB1", "SYSTEM"] "SUB" (ws.resolve? l.name "Sub") := by
  intro libraries d root m
  have htree : d.IsTree := by decide +kernel
  have hm : loadManifest d root = .ok m := by decide +kernel
  have hplain : ∀ e ∈ m.libraries, Path.PlainName e.1 := by decide +kernel
  obtain ⟨ws, hload⟩ : ∃ ws, load d {} root = .ok ws := by
    have hdirectory : d.isDirectory root = true := by decide +kernel
    have hseverity : readIfFile d (root.child configName) = .ok none := by decide +kernel
    rw [load, if_pos hdirectory, hm, loadSeverity, hseverity]
    exact ⟨_, rfl⟩
  obtain ⟨⟨others, hnames, -, hothers⟩, -, -, -, -, -, -, hresolves⟩ :=
    load_registers htree hm hplain hload
  have hsteplib : "LIB1" ∈ others :=
    (hothers "LIB1").2 ⟨by decide, "lib1", by decide +kernel, by decide⟩
  have hgiven : "LIB2" ∈ ws.libraries.map (·.name) := by
    rw [hnames]
    exact List.mem_append_left _ (List.mem_append_left _ List.mem_cons_self)
  obtain ⟨l, hl, hname⟩ := List.mem_map.1 hgiven
  refine ⟨htree, hm, hplain, ws, hload, ?_, l, hl, hname, ?_⟩
  · rw [hnames]
    exact List.mem_append_left _ (List.mem_append_right _ hsteplib)
  · have hchain : ["LIB2", "LIB1", "SYSTEM"] =
        (l.name :: (m.steplibs l.name).map Ascii.upper ++ [systemLibrary]).eraseDups := by
      rw [hname]
      decide +kernel
    rw [hchain]
    exact hresolves l hl "Sub"

end Project

end Steplib
