import Steplib.Proofs.Workspace.Names

/-!
# How names resolve

A name resolves through two things: the search order of the library it is looked up from, and the
tables that say which file holds it in each library. Claims change the tables and nothing else, and
the claim of a file that holds no name yet touches one name of one library only.

## Main definitions

* `Workspace.heads`: the libraries without their tables.
* `Workspace.holder?`: the file that holds a name in a library.
* `Workspace.Nameless`: no name is held by a file at a path.

## Main results

* `Workspace.resolve?_congr`: resolution depends on search orders and tables.
* `Workspace.holder?_addFile`, `Workspace.Nameless.holder?_registerScannedName`: what a new file and
  a scan of a file without a name do to the tables.
-/

namespace Steplib

/-- The library without its table. -/
def Library.head (l : Library) : Library :=
  { l with modules := {} }

namespace Library

variable (l : Library)

theorem head_register (name : String) (holder : Holder) :
    (l.register name holder).1.head = l.head := by
  unfold register
  split <;> rfl

theorem head_unregister (name : String) (path : Path) : (l.unregister name path).head = l.head := by
  unfold unregister
  split
  · split <;> rfl
  · rfl

/-- A claim gives the name to the file, unless the name is taken. -/
theorem modules_register (name other : String) (holder : Holder) :
    (l.register name holder).1.modules.get? other =
      if other = name then some ((l.modules.get? name).getD holder) else l.modules.get? other := by
  unfold register
  split
  · rename_i taken h
    split
    · simp_all
    · rfl
  · rename_i h
    simp [NameMap.get?_insert, h]

/-- Nothing is withdrawn from a file that holds no name. -/
theorem unregister_of_forall {name : String} {path : Path}
    (h : ∀ holder, l.modules.get? name = some holder → holder.path.same path = false) :
    l.unregister name path = l := by
  unfold unregister
  split
  · rename_i holder hholder
    simp [h holder hholder]
  · rfl

/-- What another file holds is not withdrawn. -/
theorem modules_unregister_of_other {name other : String} {path : Path} {holder : Holder}
    (h : l.modules.get? other = some holder) (hother : holder.path.same path = false) :
    (l.unregister name path).modules.get? other = some holder := by
  unfold unregister
  split
  · rename_i taken htaken
    split
    · rename_i hs
      rw [NameMap.get?_erase, if_neg, h]
      rintro rfl
      obtain rfl := Option.some.inj (h.symm.trans htaken)
      simp [hother] at hs
    · exact h
  · exact h

end Library

namespace Workspace

/-- The libraries of the workspace without their tables. -/
def heads (ws : Workspace) : List Library :=
  ws.libraries.map Library.head

/-- The search order of a library. -/
def chain? (ws : Workspace) (library : String) : Option (List String) :=
  (ws.library? library).map (·.chain)

/-- The file that holds a name in a library. -/
def holder? (ws : Workspace) (library name : String) : Option Holder :=
  (ws.libraryNamed? library).bind (·.modules.get? name)

variable {sources : Sources} {ws ws' : Workspace} {library name : String} {p : Path}
  {new : ModuleFile}

theorem resolve?_eq (ws : Workspace) (library name : String) :
    ws.resolve? library name =
      (ws.chain? library).bind fun chain => chain.findSome? (ws.holder? · (Ascii.upper name)) := by
  rw [resolve?, chain?, Option.bind_map]
  rfl

/-- Resolution depends on search orders and tables. -/
theorem resolve?_congr (hc : ws'.chain? library = ws.chain? library)
    (hh : ∀ steplib, ws'.holder? steplib (Ascii.upper name) =
      ws.holder? steplib (Ascii.upper name)) :
    ws'.resolve? library name = ws.resolve? library name := by
  rw [resolve?_eq, resolve?_eq, hc]
  simp only [hh]

/-- A name that no library holds resolves to nothing. -/
theorem resolve?_eq_none (h : ∀ steplib, ws.holder? steplib (Ascii.upper name) = none) :
    ws.resolve? library name = none := by
  rw [resolve?_eq]
  simp [h]

/-- What a name resolves to holds the name in some library. -/
theorem exists_holder?_of_resolve? {holder : Holder} (h : ws.resolve? library name = some holder) :
    ∃ steplib, ws.holder? steplib (Ascii.upper name) = some holder := by
  rw [resolve?_eq] at h
  obtain ⟨chain, -, h⟩ := Option.bind_eq_some_iff.1 h
  obtain ⟨steplib, -, hh⟩ := List.exists_of_findSome?_eq_some h
  exact ⟨steplib, hh⟩

/-- A name that is held in a library is held by a live file of the library that carries it. -/
theorem Named.holds_of_holder? (hn : ws.Named) {holder : Holder}
    (h : ws.holder? library name = some holder) : ws.Holds library name holder := by
  obtain ⟨l, hl, hget⟩ := Option.bind_eq_some_iff.1 h
  have hname : l.name = library := by simpa using List.find?_some hl
  rw [← hname]
  exact hn.held l (mem_of_libraryNamed? hl) name holder hget

/-- Every library of the workspace is found by its name. -/
theorem Named.libraryNamed?_of_mem (hn : ws.Named) {l : Library} (hl : l ∈ ws.libraries) :
    ws.libraryNamed? l.name = some l := by
  obtain ⟨k, hk⟩ : ∃ k, ws.libraryNamed? l.name = some k := by
    rw [← Option.isSome_iff_exists, libraryNamed?, List.find?_isSome]
    exact ⟨l, hl, by simp⟩
  have hname : k.name = l.name := by simpa using List.find?_some hk
  rw [hk, hn.library_ext (mem_of_libraryNamed? hk) hl hname]

theorem Named.holder?_of_mem (hn : ws.Named) {l : Library} (hl : l ∈ ws.libraries) (name : String) :
    ws.holder? l.name name = l.modules.get? name := by
  rw [holder?, hn.libraryNamed?_of_mem hl]
  rfl

/-! ### Libraries without their tables -/

theorem heads_eq_of_skeleton (h : ws'.skeleton = ws.skeleton) : ws'.heads = ws.heads :=
  congrArg (List.map Library.head) (libraries_eq_of_skeleton h)

theorem libraryNamed?_heads (ws : Workspace) (library : String) :
    ws.heads.find? (·.name == library) = (ws.libraryNamed? library).map Library.head := by
  rw [heads, List.find?_map, libraryNamed?]
  rfl

theorem chain?_eq_of_heads (h : ws'.heads = ws.heads) (library : String) :
    ws'.chain? library = ws.chain? library := by
  have hnamed :
      (ws'.library? library).map Library.head = (ws.library? library).map Library.head := by
    rw [library?, library?, ← libraryNamed?_heads, h, libraryNamed?_heads]
  have hchain := congrArg (Option.map Library.chain) hnamed
  rwa [Option.map_map, Option.map_map] at hchain

theorem libraryForPath?_heads (ws : Workspace) (p : Path) :
    (ws.libraryForPath? p).map Library.head =
      ({ ws with libraries := ws.heads } : Workspace).libraryForPath? p := by
  simp only [libraryForPath?, heads, List.filter_map, List.foldl_map]
  refine (List.foldl_hom (Option.map Library.head) fun best l => ?_).symm
  cases best with
  | none => rfl
  | some b =>
    dsimp only
    rw [apply_ite (Option.map Library.head)]
    rfl

theorem newFile?_eq_of_heads (h : ws'.heads = ws.heads) (p : Path) :
    ws'.newFile? p = ws.newFile? p := by
  have hlibrary : (ws'.libraryForPath? p).map Library.head =
      (ws.libraryForPath? p).map Library.head := by
    rw [libraryForPath?_heads, libraryForPath?_heads]
    simp only [libraryForPath?, h]
  have hname := congrArg (Option.map Library.name) hlibrary
  simp only [Option.map_map] at hname
  simp only [newFile?, Option.bind_eq_bind]
  cases ObjectType.ofPath? p with
  | none => rfl
  | some type =>
    cases hl : ws.libraryForPath? p <;> cases hl' : ws'.libraryForPath? p <;>
      simp_all [Library.head]

/-! ### Claims -/

theorem libraryNamed?_modifyLibrary {change : Library → Library}
    (hc : ∀ l, (change l).name = l.name) (other : String) :
    (ws.modifyLibrary library change).libraryNamed? other =
      (ws.libraryNamed? other).map fun l =>
        if l.name == Ascii.upper library then change l else l := by
  simp only [libraryNamed?, modifyLibrary, List.find?_map]
  congr 1
  refine congrArg (List.find? · ws.libraries) (funext fun l => ?_)
  simp only [Function.comp_apply]
  split <;> simp [hc]

theorem heads_claimName (ws : Workspace) (library previous name : String) (holder : Holder) :
    (ws.claimName library previous name holder).heads = ws.heads := by
  rw [claimName_eq]
  simp only [heads, modifyLibrary, List.map_map]
  refine List.map_congr_left fun l _ => ?_
  simp only [Function.comp_apply]
  split
  · rw [claim, Library.head_register]
    split
    · rfl
    · exact l.head_unregister _ _
  · rfl

/-! ### Files that hold no name -/

/-- No name is held by a file at the path. -/
def Nameless (ws : Workspace) (p : Path) : Prop :=
  ∀ l ∈ ws.libraries, ∀ name holder, l.modules.get? name = some holder →
    holder.path.same p = false

/-- A file that is not there holds no name. -/
theorem Named.nameless (hn : ws.Named) (hp : ws.file? p = none) : ws.Nameless p :=
  fun l hl name holder h => by
    obtain ⟨-, f, hf, -⟩ := hn.held l hl name holder h
    rw [Path.same_comm]
    exact not_same_of_file? hp hf

/-- A file that is found under no name holds none. -/
theorem Named.nameless_of_holder? (hn : ws.Named) (h : ∀ library name holder,
    ws.holder? library name = some holder → holder.path.same p = false) : ws.Nameless p :=
  fun l hl name holder hget => h l.name name holder ((hn.holder?_of_mem hl name).trans hget)

theorem Nameless.not_same (h : ws.Nameless p) {holder : Holder}
    (hh : ws.holder? library name = some holder) : holder.path.same p = false := by
  obtain ⟨l, hl, hget⟩ := Option.bind_eq_some_iff.1 hh
  exact h l (mem_of_libraryNamed? hl) name holder hget

/-- A claim by a file that holds no name gives it the name, unless the name is taken, and changes
nothing else. -/
theorem Nameless.holder?_claimName (hp : ws.Nameless p) (library previous name : String)
    (steplib other : String) :
    (ws.claimName library previous name { path := p }).holder? steplib other =
      if steplib = Ascii.upper library ∧ other = name ∧ (ws.libraryNamed? steplib).isSome then
        some ((ws.holder? steplib other).getD { path := p })
      else ws.holder? steplib other := by
  have hclaim : ∀ l ∈ ws.libraries, claim previous name { path := p } l =
      (l.register name { path := p }).1 := fun l hl => by
    rw [claim, l.unregister_of_forall (hp l hl previous), ite_self]
  rw [holder?, claimName_eq, libraryNamed?_modifyLibrary (name_claim previous name _), holder?]
  cases hl : ws.libraryNamed? steplib with
  | none => simp
  | some l =>
    have hname : l.name = steplib := by simpa using List.find?_some hl
    simp only [Option.map_some, Option.bind_some, hname, hclaim l (mem_of_libraryNamed? hl)]
    by_cases hs : steplib = Ascii.upper library
    · by_cases ho : other = name <;> simp [hs, ho, Library.modules_register]
    · simp [hs]

/-- A new file lies in a library of the workspace. -/
theorem Named.library_newFile? (hn : ws.Named) (hnew : ws.newFile? p = some new) :
    Ascii.upper new.library = new.library ∧ (ws.libraryNamed? new.library).isSome := by
  obtain ⟨l, hl, type, hfile⟩ := newFile?_cases hnew
  have hlibrary : new.library = l.name := by rw [hfile]
  refine ⟨by rw [hlibrary, hn.library_upper l hl], ?_⟩
  rw [libraryNamed?, List.find?_isSome]
  exact ⟨l, hl, by simp [hlibrary]⟩

section NewFile

variable (hnew : ws.newFile? p = some new) (hp : ws.file? p = none)

include hnew hp

theorem addFile_of_new :
    ws.addFile p = (some new, { ws.claimStem new with files := ws.files.insert p new }) := by
  have hadd : (ws.addFile p).1 = some new := by
    obtain ⟨type, htype, -⟩ := Option.bind_eq_some_iff.1 hnew
    simp [addFile, htype, hp, hnew]
  rcases ws.addFile_cases p with ⟨-, h⟩ | ⟨file, hfile, -, h⟩
  · rw [h new hadd] at hp
    simp at hp
  · obtain rfl := Option.some.inj (hnew.symm.trans hfile)
    exact h

theorem file?_addFile (q : Path) :
    (ws.addFile p).2.file? q = if p.same q then some new else ws.file? q := by
  rw [addFile_of_new hnew hp, file?_insert]

theorem heads_addFile : (ws.addFile p).2.heads = ws.heads := by
  rw [addFile_of_new hnew hp]
  refine Eq.trans (b := (ws.claimStem new).heads) rfl ?_
  rw [claimStem]
  split
  · rfl
  · exact heads_claimName ..

/-- A new file that is named by its stem claims the stem, and no other name is touched. -/
theorem holder?_addFile (hn : ws.Named) (steplib other : String) :
    (ws.addFile p).2.holder? steplib other =
      if new.type.hasHeaderName = false ∧ steplib = new.library ∧ other = new.name then
        some ((ws.holder? steplib other).getD { path := p })
      else ws.holder? steplib other := by
  obtain ⟨hupper, hsome⟩ := hn.library_newFile? hnew
  rw [addFile_of_new hnew hp]
  refine Eq.trans (b := (ws.claimStem new).holder? steplib other) rfl ?_
  rw [claimStem]
  cases htype : new.type.hasHeaderName with
  | true => simp
  | false =>
    rw [path_newFile? hnew]
    refine ((hn.nameless hp).holder?_claimName ..).trans ?_
    rw [hupper]
    by_cases hs : steplib = new.library
    · simp [hs, hsome]
    · simp [hs]

end NewFile

/-! ### Names taken from a scan -/

theorem heads_registerScannedName (ws : Workspace) (f : ModuleFile) (s : Scan) :
    (ws.registerScannedName f s).heads = ws.heads := by
  rw [registerScannedName]
  split
  · exact heads_claimName ..
  · rfl

theorem file?_registerScannedName (ws : Workspace) (f : ModuleFile) (s : Scan) (q : Path) :
    (ws.registerScannedName f s).file? q =
      if f.type.hasHeaderName ∧ f.path.same q then
        (ws.file? q).map fun g => { g with name := f.scannedName s }
      else ws.file? q := by
  rw [registerScannedName]
  split
  · rename_i htype
    simp [file?_modifyFile, htype]
    rfl
  · rename_i htype
    simp [htype]

/-- A file that holds no name gets the one that a scan gives it, if files of its type are named by
their header, and no other name is touched. -/
theorem Nameless.holder?_registerScannedName {f : ModuleFile} (hf : ws.Nameless f.path) (s : Scan)
    (steplib other : String) :
    (ws.registerScannedName f s).holder? steplib other =
      if f.type.hasHeaderName ∧ steplib = Ascii.upper f.library ∧ other = f.scannedName s ∧
          (ws.libraryNamed? steplib).isSome then
        some ((ws.holder? steplib other).getD { path := f.path })
      else ws.holder? steplib other := by
  rw [registerScannedName]
  split
  · rename_i htype
    refine (hf.holder?_claimName ..).trans ?_
    simp [htype]
  · rename_i htype
    simp [htype]

/-- A file that takes over a name takes no name from another file. -/
theorem holder?_registerScannedName_of_other {f : ModuleFile} {holder : Holder}
    (h : ws.holder? library name = some holder) (hother : holder.path.same f.path = false)
    (s : Scan) : (ws.registerScannedName f s).holder? library name = some holder := by
  rw [registerScannedName]
  split
  · refine Eq.trans (b := (ws.claimName f.library f.name (f.scannedName s)
      { path := f.path }).holder? library name) rfl ?_
    obtain ⟨l, hl, hget⟩ := Option.bind_eq_some_iff.1 h
    rw [holder?, claimName_eq, libraryNamed?_modifyLibrary (name_claim _ _ _), hl]
    simp only [Option.map_some, Option.bind_some]
    split
    · have hkept : (if f.name = f.scannedName s then l
          else l.unregister f.name f.path).modules.get? name = some holder := by
        split
        · exact hget
        · exact l.modules_unregister_of_other hget hother
      rw [claim, Library.modules_register]
      split
      · rename_i heq
        rw [heq] at hkept
        exact congrArg (fun h => some (h.getD { path := f.path })) hkept
      · exact hkept
    · exact hget
  · exact h

end Workspace

end Steplib
