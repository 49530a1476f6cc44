import Mathlib.Data.List.Nodup
import Steplib.Proofs.Scan.Sighting
import Steplib.Proofs.Workspace.Reachable
import Steplib.Proofs.Workspace.States

/-!
# The name tables

Every name that a library holds is held by a live file of that library which carries the name.
Names are claimed when files are added or scanned, a name that is taken stays with the file that
has it, and a file withdraws its old name when it takes over a new one and when it is deleted.

## Main definitions

* `Workspace.Holds`: a name is held by a live file that carries it.
* `Workspace.Named`: all names of all libraries are held in this way.

## Main results

* `Workspace.Arises.named`: the name tables are sound in every workspace that arises from moves.
* `Workspace.Reachable.names_sound`: what this says of reachable workspaces and of resolution.
-/

namespace Steplib

/-! ### Names are in upper case -/

/-- A scan gives a file a name in upper case. -/
theorem ModuleFile.upper_scannedName {f : ModuleFile} {sources : Sources} {s : Scan}
    (hf : Ascii.upper f.name = f.name) (hs : f.scan? sources = some s) :
    Ascii.upper (f.scannedName s) = f.scannedName s := by
  obtain ⟨text, -, rfl⟩ := Option.map_eq_some_iff.1 hs
  rw [scannedName]
  split
  · cases hh : (Scan.ofSource f.type text).header with
    | none => exact hf
    | some name => exact Scan.upper_header hh
  · exact hf

namespace Workspace

/-- The name is held in a library by a live file of the library that carries it. -/
def Holds (ws : Workspace) (library name : String) (holder : Holder) : Prop :=
  holder.live = true ∧
    ∃ f, ws.file? holder.path = some f ∧ f.path = holder.path ∧ f.library = library ∧ f.name = name

/-- The name tables are sound. -/
structure Named (ws : Workspace) : Prop where
  /-- The names of libraries are in upper case. -/
  library_upper : ∀ l ∈ ws.libraries, Ascii.upper l.name = l.name
  /-- No two libraries have the same name. -/
  distinct : (ws.libraries.map (·.name)).Nodup
  /-- Every name is held by a live file that carries it. -/
  held : ∀ l ∈ ws.libraries, ∀ name holder, l.modules.get? name = some holder →
    ws.Holds l.name name holder
  /-- Files carry their name and the name of their library in upper case. -/
  file_upper : ∀ p f, ws.file? p = some f →
    Ascii.upper f.name = f.name ∧ Ascii.upper f.library = f.library

variable {sources : Sources} {ws ws' : Workspace} {f g : ModuleFile} {p : Path}

/-! ### Moves that touch no name -/

/-- The name tables stay sound as long as the libraries and the identity of every file are
kept. -/
theorem Named.of_identity (hn : ws.Named) (hl : ws'.libraries = ws.libraries)
    (hi : ∀ p, (ws'.file? p).map ModuleFile.identity = (ws.file? p).map ModuleFile.identity) :
    ws'.Named := by
  have hold : ∀ p f', ws'.file? p = some f' →
      ∃ f, ws.file? p = some f ∧ f.identity = f'.identity := fun p f' hf' => by
    have h := hi p
    rw [hf', Option.map_some] at h
    exact Option.map_eq_some_iff.1 h.symm
  have hnew : ∀ p f, ws.file? p = some f →
      ∃ f', ws'.file? p = some f' ∧ f'.identity = f.identity := fun p f hf => by
    have h := hi p
    rw [hf, Option.map_some] at h
    exact Option.map_eq_some_iff.1 h
  refine ⟨by rw [hl]; exact hn.library_upper, by rw [hl]; exact hn.distinct, ?_, ?_⟩
  · intro l hmem name holder hh
    rw [hl] at hmem
    obtain ⟨hlive, f, hf, hpath, hlibrary, hname⟩ := hn.held l hmem name holder hh
    obtain ⟨f', hf', hid⟩ := hnew _ f hf
    have hp : f'.path = f.path := congrArg Identity.path hid
    have hlib : f'.library = f.library := congrArg Identity.library hid
    have hna : f'.name = f.name := congrArg Identity.name hid
    exact ⟨hlive, f', hf', by rw [hp, hpath], by rw [hlib, hlibrary], by rw [hna, hname]⟩
  · intro p f' hf'
    obtain ⟨f, hf, hid⟩ := hold p f' hf'
    have hlib : f.library = f'.library := congrArg Identity.library hid
    have hna : f.name = f'.name := congrArg Identity.name hid
    rw [← hlib, ← hna]
    exact hn.file_upper p f hf

theorem Named.of_skeleton (hn : ws.Named) (h : ws'.skeleton = ws.skeleton) : ws'.Named := by
  refine hn.of_identity (libraries_eq_of_skeleton h) fun p => ?_
  have hb := congrArg (Option.map ModuleFile.identity) (map_bare_file?_of_skeleton h p)
  rwa [Option.map_map, Option.map_map] at hb

theorem identity_edit (e : Edit) (f : ModuleFile) : (e.apply f).identity = f.identity := by
  cases e with
  | overlay text => rfl
  | publish tool ds => rfl
  | close =>
    simp only [Edit.apply, ModuleFile.close]
    split <;> rfl
  | markStale =>
    simp only [Edit.apply, ModuleFile.markStale]
    split <;> rfl

theorem Named.edit (hn : ws.Named) (p : Path) (e : Edit) : (ws.modifyFile p e.apply).Named := by
  refine hn.of_identity rfl fun q => ?_
  rw [file?_modifyFile]
  split
  · rw [Option.map_map]
    exact congrArg (Option.map · (ws.file? q)) (funext (identity_edit e))
  · rfl

/-! ### Changing a library -/

theorem map_name_modifyLibrary (ws : Workspace) (library : String) {change : Library → Library}
    (hc : ∀ l, (change l).name = l.name) :
    (ws.modifyLibrary library change).libraries.map (·.name) = ws.libraries.map (·.name) := by
  simp only [modifyLibrary, List.map_map]
  refine List.map_congr_left fun l _ => ?_
  simp only [Function.comp_apply]
  split
  · exact hc l
  · rfl

/-- A library after a change comes from one before it, which was changed if it has the name. -/
theorem mem_modifyLibrary {library : String} {change : Library → Library} {l' : Library}
    (h : l' ∈ (ws.modifyLibrary library change).libraries) :
    ∃ l ∈ ws.libraries, l.name = Ascii.upper library ∧ l' = change l ∨
      l.name ≠ Ascii.upper library ∧ l' = l := by
  obtain ⟨l, hl, rfl⟩ := List.mem_map.1 h
  refine ⟨l, hl, ?_⟩
  by_cases hname : l.name = Ascii.upper library
  · exact .inl ⟨hname, by simp [hname]⟩
  · exact .inr ⟨hname, by simp [hname]⟩

/-- How a library is changed when a file that carried the name `previous` claims a name. -/
def claim (previous name : String) (holder : Holder) (l : Library) : Library :=
  ((if previous = name then l else l.unregister previous holder.path).register name holder).1

theorem name_claim (previous name : String) (holder : Holder) (l : Library) :
    (claim previous name holder l).name = l.name := by
  rw [claim]
  split <;> simp

theorem claimName_eq (ws : Workspace) (library previous name : String) (holder : Holder) :
    ws.claimName library previous name holder =
      ws.modifyLibrary library (claim previous name holder) := rfl

theorem map_name_claimName (ws : Workspace) (library previous name : String) (holder : Holder) :
    (ws.claimName library previous name holder).libraries.map (·.name) =
      ws.libraries.map (·.name) :=
  map_name_modifyLibrary ws library (name_claim previous name holder)

/-- A name that is held after a claim is the claimed one, or it was held before and not withdrawn
by the claiming file. -/
theorem mem_claimName {library previous name : String} {holder : Holder} {l' : Library}
    (h : l' ∈ (ws.claimName library previous name holder).libraries) :
    ∃ l ∈ ws.libraries, l'.name = l.name ∧ ∀ other h, l'.modules.get? other = some h →
      other = name ∧ h = holder ∧ l.name = Ascii.upper library ∨
        l.modules.get? other = some h ∧ (l.name = Ascii.upper library → previous ≠ name →
          other = previous → h.path.same holder.path = false) := by
  rw [claimName_eq] at h
  obtain ⟨l, hl, ⟨hname, rfl⟩ | ⟨hname, rfl⟩⟩ := mem_modifyLibrary h
  · refine ⟨l, hl, name_claim previous name holder l, fun other h hh => ?_⟩
    rcases Library.get?_register hh with hh | ⟨hother, hh⟩
    · split at hh
      · rename_i heq
        exact .inr ⟨hh, fun _ hne => absurd heq hne⟩
      · obtain ⟨hold, hkept⟩ := Library.get?_unregister hh
        exact .inr ⟨hold, fun _ _ => hkept⟩
    · exact .inl ⟨hother, hh, hname⟩
  · exact ⟨_, hl, rfl, fun other h hh => .inr ⟨hh, fun hl => absurd hl hname⟩⟩

/-! ### Taking over a name -/

/-- The workspace in which a file has taken over a name. -/
def takeOver (ws : Workspace) (f : ModuleFile) (name : String) : Workspace :=
  (ws.claimName f.library f.name name { path := f.path }).modifyFile f.path
    fun f => { f with name }

theorem file?_takeOver (ws : Workspace) (f : ModuleFile) (name : String) (q : Path) :
    (ws.takeOver f name).file? q =
      if f.path.same q then (ws.file? q).map fun f => { f with name } else ws.file? q :=
  file?_modifyFile ..

/-- An entry that was there before still stands after a file has taken over a name, unless that
file held it and has withdrawn. -/
theorem Holds.takeOver (hk : ws.Keyed) (hf : ws.Live f) {library name other : String}
    {holder : Holder} (h : ws.Holds library other holder)
    (hw : f.library = library → f.name ≠ name → other = f.name →
      holder.path.same f.path = false) :
    (ws.takeOver f name).Holds library other holder := by
  obtain ⟨hlive, g, hg, hpath, hlibrary, hname⟩ := h
  cases hs : f.path.same holder.path with
  | false => exact ⟨hlive, g, by rw [file?_takeOver, hs]; exact hg, hpath, hlibrary, hname⟩
  | true =>
    obtain rfl : f = g := by
      refine hf.eq_of_same (hk.live hg) ?_
      rw [hpath]
      exact hs
    by_cases heq : f.name = name
    · refine ⟨hlive, { f with name }, ?_, hpath, hlibrary, heq.symm.trans hname⟩
      rw [file?_takeOver, hs, hg]
      rfl
    · have hnot := hw hlibrary heq hname.symm
      rw [Path.same_comm, hs] at hnot
      simp at hnot

/-- The name tables stay sound when a live file takes over a name in upper case. -/
theorem Named.takeOver (hn : ws.Named) (hk : ws.Keyed) (hf : ws.Live f) {name : String}
    (hu : Ascii.upper name = name) : (ws.takeOver f name).Named := by
  obtain ⟨-, hlib⟩ := hn.file_upper _ f hf
  refine ⟨?_, ?_, ?_, ?_⟩
  · intro l' hl'
    obtain ⟨l, hl, hname, -⟩ := mem_claimName hl'
    rw [hname]
    exact hn.library_upper l hl
  · have hd := hn.distinct
    rw [← map_name_claimName ws f.library f.name name { path := f.path }] at hd
    exact hd
  · intro l' hl' other h hh
    obtain ⟨l, hl, hname, hheld⟩ := mem_claimName hl'
    rw [hname]
    rcases hheld other h hh with ⟨rfl, rfl, hlname⟩ | ⟨hold, hkept⟩
    · refine ⟨rfl, { f with name := other }, ?_, rfl, hlib.symm.trans hlname.symm, rfl⟩
      have hf : ws.file? f.path = some f := hf
      rw [file?_takeOver, if_pos (Path.same_refl _), hf]
      rfl
    · exact (hn.held l hl other h hold).takeOver hk hf fun hl => hkept (by rw [hlib, hl])
  · intro q g hg
    rw [file?_takeOver] at hg
    split at hg
    · obtain ⟨g', hg', rfl⟩ := Option.map_eq_some_iff.1 hg
      exact ⟨hu, (hn.file_upper q g' hg').2⟩
    · exact hn.file_upper q g hg

theorem Named.registerScannedName (hn : ws.Named) (hk : ws.Keyed) (hf : ws.Live f) {s : Scan}
    (hs : f.scan? sources = some s) : (ws.registerScannedName f s).Named := by
  rw [Workspace.registerScannedName]
  split
  · exact hn.takeOver hk hf (ModuleFile.upper_scannedName (hn.file_upper _ f hf).1 hs)
  · exact hn

/-! ### Files that come and go -/

/-- The libraries after a new file has claimed its stem: only that name can be new. -/
theorem mem_claimStem {file : ModuleFile} {l' : Library}
    (h : l' ∈ (ws.claimStem file).libraries) :
    ∃ l ∈ ws.libraries, l'.name = l.name ∧ ∀ name holder, l'.modules.get? name = some holder →
      name = file.name ∧ holder = { path := file.path } ∧ l.name = Ascii.upper file.library ∨
        l.modules.get? name = some holder := by
  rw [claimStem] at h
  split at h
  · exact ⟨l', h, rfl, fun name holder hh => .inr hh⟩
  · obtain ⟨l, hl, hname, hheld⟩ := mem_claimName h
    exact ⟨l, hl, hname, fun name holder hh => (hheld name holder hh).imp_right And.left⟩

theorem map_name_claimStem (ws : Workspace) (file : ModuleFile) :
    (ws.claimStem file).libraries.map (·.name) = ws.libraries.map (·.name) := by
  rw [claimStem]
  split
  · rfl
  · exact map_name_claimName ..

theorem Named.addFile (hn : ws.Named) (p : Path) : (ws.addFile p).2.Named := by
  rcases ws.addFile_cases p with ⟨h, -⟩ | ⟨file, hnew, hnone, h⟩
  · rw [h]
    exact hn
  · rw [h]
    obtain ⟨l₀, hl₀, type, hfile⟩ := newFile?_cases hnew
    have hupper : Ascii.upper file.name = file.name := by
      rw [hfile]
      exact Ascii.upper_upper _
    have hlib : Ascii.upper file.library = file.library := by
      rw [hfile]
      exact hn.library_upper l₀ hl₀
    refine ⟨?_, ?_, ?_, ?_⟩
    · intro l' hl'
      obtain ⟨l, hl, hname, -⟩ := mem_claimStem hl'
      rw [hname]
      exact hn.library_upper l hl
    · exact (map_name_claimStem ws file).symm ▸ hn.distinct
    · intro l' hl' name holder hh
      obtain ⟨l, hl, hname, hheld⟩ := mem_claimStem hl'
      rw [hname]
      rcases hheld name holder hh with ⟨rfl, rfl, hlname⟩ | hh
      · refine ⟨rfl, file, ?_, rfl, hlib.symm.trans hlname.symm, rfl⟩
        rw [file?_insert, path_newFile? hnew]
        simp
      · obtain ⟨hlive, g, hg, hpath, hglib, hgname⟩ := hn.held l hl name holder hh
        refine ⟨hlive, g, ?_, hpath, hglib, hgname⟩
        rw [file?_insert, if_neg, hg]
        intro hs
        rw [← ws.file?_congr hs, hnone] at hg
        simp at hg
    · intro q g hg
      rw [file?_insert] at hg
      split at hg
      · obtain rfl := Option.some.inj hg
        exact ⟨hupper, hlib⟩
      · exact hn.file_upper q g hg

theorem identity_released (p : Path) (f : ModuleFile) (q : Path) (g : ModuleFile) :
    (released p f q g).identity = g.identity := by
  have hstale (g : ModuleFile) : g.markStale.1.identity = g.identity := identity_edit .markStale g
  rw [released]
  split <;> split <;> simp_all [ModuleFile.identity]

/-- An entry that was there before still stands after a deletion, unless the deleted file held it
and has withdrawn. -/
theorem Holds.deleteFile (hp : ws.file? p = some f) {library name : String} {holder : Holder}
    (h : ws.Holds library name holder)
    (hw : f.library = library → name = f.name → holder.path.same p = false) :
    (ws.deleteFile p).2.Holds library name holder := by
  obtain ⟨hlive, g, hg, hpath, hlibrary, hname⟩ := h
  cases hs : p.same holder.path with
  | false =>
    have hid := identity_released p f holder.path g
    refine ⟨hlive, _, by rw [file?_deleteFile hp, hs, hg]; rfl, ?_, ?_, ?_⟩
    · exact (congrArg Identity.path hid).trans hpath
    · exact (congrArg Identity.library hid).trans hlibrary
    · exact (congrArg Identity.name hid).trans hname
  | true =>
    obtain rfl : f = g := by
      rw [ws.file?_congr hs] at hp
      exact Option.some.inj (hp.symm.trans hg)
    have hnot := hw hlibrary hname.symm
    rw [Path.same_comm, hs] at hnot
    simp at hnot

theorem Named.deleteFile (hn : ws.Named) (p : Path) : (ws.deleteFile p).2.Named := by
  cases hp : ws.file? p with
  | none =>
    simp only [Workspace.deleteFile, hp]
    exact hn
  | some f =>
    obtain ⟨-, hlib⟩ := hn.file_upper p f hp
    have hlibs : (ws.deleteFile p).2.libraries =
        (ws.modifyLibrary f.library (·.unregister f.name p)).libraries := by
      simp only [Workspace.deleteFile, hp]
    have hnames : (ws.deleteFile p).2.libraries.map (·.name) = ws.libraries.map (·.name) := by
      rw [hlibs, map_name_modifyLibrary ws f.library fun l => l.name_unregister f.name p]
    refine ⟨?_, by rw [hnames]; exact hn.distinct, ?_, ?_⟩
    · intro l' hl'
      obtain ⟨l, hl, hname⟩ := List.mem_map.1 (hnames ▸ List.mem_map_of_mem hl')
      rw [← hname]
      exact hn.library_upper l hl
    · intro l' hl' name holder hh
      rw [hlibs] at hl'
      obtain ⟨l, hl, ⟨hname, rfl⟩ | ⟨hname, rfl⟩⟩ := mem_modifyLibrary hl'
      · obtain ⟨hold, hwithdrawn⟩ := Library.get?_unregister hh
        rw [Library.name_unregister]
        exact (hn.held l hl name holder hold).deleteFile hp fun _ => hwithdrawn
      · exact (hn.held _ hl name holder hh).deleteFile hp fun h =>
          absurd (h.symm.trans hlib.symm) hname
    · intro q g hg
      rw [file?_deleteFile hp] at hg
      split at hg
      · simp at hg
      · obtain ⟨g', hg', rfl⟩ := Option.map_eq_some_iff.1 hg
        have hid := identity_released p f q g'
        have hname : (released p f q g').name = g'.name := congrArg Identity.name hid
        have hlibrary : (released p f q g').library = g'.library := congrArg Identity.library hid
        rw [hname, hlibrary]
        exact hn.file_upper q g' hg'

/-! ### Every reachable workspace -/

theorem Named.move (hn : ws.Named) (hk : ws.Keyed) (h : Move sources ws ws') : ws'.Named := by
  cases h with
  | parse f hf find => exact hn.of_skeleton (skeleton_install ..)
  | name f s hf hs => exact hn.registerScannedName hk hf hs
  | scan f s hf hs => exact hn.of_skeleton (skeleton_registerScan ..)
  | edit p e => exact hn.edit p e
  | add p => exact hn.addFile p
  | take name => exact ⟨hn.library_upper, hn.distinct, hn.held, hn.file_upper⟩
  | delete p => exact hn.deleteFile p

theorem libraries_foldl_addLibrary (libraries : List (String × Path × List String))
    (ws : Workspace) (hu : ∀ l ∈ ws.libraries, Ascii.upper l.name = l.name)
    (hd : (ws.libraries.map (·.name)).Nodup)
    (hm : ∀ l ∈ ws.libraries, ∀ name, l.modules.get? name = none) :
    let ws' := libraries.foldl (fun ws l => addLibrary ws l.1 l.2.1 l.2.2) ws
    (∀ l ∈ ws'.libraries, Ascii.upper l.name = l.name) ∧ (ws'.libraries.map (·.name)).Nodup ∧
      ∀ l ∈ ws'.libraries, ∀ name, l.modules.get? name = none := by
  induction libraries generalizing ws with
  | nil => exact ⟨hu, hd, hm⟩
  | cons l libraries ih =>
    rw [List.foldl_cons]
    rw [addLibrary]
    split
    · exact ih ws hu hd hm
    · rename_i hnone
      refine ih _ ?_ ?_ ?_
      · intro k hk
        rcases List.mem_append.1 hk with hk | hk
        · exact hu k hk
        · obtain rfl := List.mem_singleton.1 hk
          exact Ascii.upper_upper l.1
      · have hfree : ∀ k ∈ ws.libraries, k.name ≠ Ascii.upper l.1 := by
          simpa [library?, libraryNamed?] using hnone
        rw [List.map_append, List.nodup_append]
        refine ⟨hd, by simp, fun a ha b hb => ?_⟩
        obtain ⟨k, hk, rfl⟩ := List.mem_map.1 ha
        obtain rfl := List.mem_singleton.1 hb
        exact hfree k hk
      · intro k hk name
        rcases List.mem_append.1 hk with hk | hk
        · exact hm k hk name
        · obtain rfl := List.mem_singleton.1 hk
          rfl

/-- The name tables are sound in every workspace that arises from moves. -/
theorem Arises.named (h : Arises ws) : ws.Named := by
  induction h with
  | fresh root faults severity libraries =>
    obtain ⟨hu, hd, hm⟩ := libraries_foldl_addLibrary libraries (empty root faults)
      (by simp [empty]) (by simp [empty]) (by simp [empty])
    refine ⟨hu, hd, fun l hl name holder hh => ?_, fun p f hf => by simp at hf⟩
    rw [hm l hl name] at hh
    simp at hh
  | move h hm ih => exact ih.move h.keyed hm

/-! ### Resolution -/

theorem mem_of_libraryNamed? {library : String} {l : Library}
    (h : ws.libraryNamed? library = some l) : l ∈ ws.libraries :=
  List.mem_of_find?_eq_some h

/-- A name resolves to a file that holds it in some library. -/
theorem Named.holds_of_resolve? (hn : ws.Named) {library name : String} {holder : Holder}
    (h : ws.resolve? library name = some holder) :
    ∃ l ∈ ws.libraries, ws.Holds l.name (Ascii.upper name) holder := by
  obtain ⟨l, -, hl⟩ := Option.bind_eq_some_iff.1 h
  obtain ⟨steplib, -, hs⟩ := List.exists_of_findSome?_eq_some hl
  obtain ⟨l', hl', hm⟩ := Option.bind_eq_some_iff.1 hs
  exact ⟨l', mem_of_libraryNamed? hl', hn.held l' (mem_of_libraryNamed? hl') _ holder hm⟩

theorem Named.holds_of_holderOf? (hn : ws.Named) {name : String} {holder : Holder}
    (h : ws.holderOf? name = some holder) :
    ∃ l ∈ ws.libraries, ws.Holds l.name (Ascii.upper name) holder := by
  obtain ⟨l, hl, hm⟩ := List.exists_of_findSome?_eq_some h
  exact ⟨l, hl, hn.held l hl _ holder hm⟩

/-- The libraries of a workspace are told apart by their names. -/
theorem Named.library_ext (hn : ws.Named) {l l' : Library} (hl : l ∈ ws.libraries)
    (hl' : l' ∈ ws.libraries) (h : l.name = l'.name) : l = l' :=
  List.inj_on_of_nodup_map hn.distinct hl hl' h

/-- A file holds at most one name, and that in one library. -/
theorem Named.holder_unique (hn : ws.Named) {l l' : Library} (hl : l ∈ ws.libraries)
    (hl' : l' ∈ ws.libraries) {name name' : String} {holder holder' : Holder}
    (h : l.modules.get? name = some holder) (h' : l'.modules.get? name' = some holder')
    (hs : holder.path.same holder'.path = true) : l = l' ∧ name = name' := by
  obtain ⟨-, f, hf, -, hlibrary, hname⟩ := hn.held l hl name holder h
  obtain ⟨-, f', hf', -, hlibrary', hname'⟩ := hn.held l' hl' name' holder' h'
  rw [ws.file?_congr hs, hf'] at hf
  obtain rfl := Option.some.inj hf
  exact ⟨hn.library_ext hl hl' (hlibrary.symm.trans hlibrary'), hname.symm.trans hname'⟩

/-- The name tables are sound in every reachable workspace: every name is in upper case and held
by a live file of the library that carries it, no file holds two names, and a name never stands for
a file that was deleted. -/
theorem Reachable.names_sound (h : Reachable ws) :
    (∀ l ∈ ws.libraries, ∀ name holder, l.modules.get? name = some holder →
      Ascii.upper name = name ∧ ws.Holds l.name name holder) ∧
    (∀ l ∈ ws.libraries, ∀ l' ∈ ws.libraries, ∀ name name' holder holder',
      l.modules.get? name = some holder → l'.modules.get? name' = some holder' →
        holder.path.same holder'.path = true → l = l' ∧ name = name') ∧
    ∀ library name holder,
      ws.resolve? library name = some holder ∨ ws.holderOf? name = some holder →
        (∃ l ∈ ws.libraries, ws.Holds l.name (Ascii.upper name) holder) ∧
          ∃ f, ws.file? holder.path = some f ∧ f.state ≠ .deleted := by
  have hn := h.arises.named
  refine ⟨fun l hl name holder hh => ?_, fun l hl l' hl' _ _ _ _ => hn.holder_unique hl hl',
    fun library name holder hr => ?_⟩
  · obtain ⟨hlive, f, hf, hpath, hlibrary, rfl⟩ := hn.held l hl name holder hh
    exact ⟨(hn.file_upper _ f hf).1, hlive, f, hf, hpath, hlibrary, rfl⟩
  · obtain ⟨l, hl, hholds⟩ := hr.elim hn.holds_of_resolve? hn.holds_of_holderOf?
    have ⟨_, f, hf, _⟩ := hholds
    exact ⟨⟨l, hl, hholds⟩, f, hf, (h.arises.settled _ f hf).1⟩

/-- In the small project the name of the calling subprogram is held by it. -/
theorem Reachable.names_sound_sample :
    Reachable Sample.workspace ∧
      ∃ holder, Sample.workspace.resolve? "L" "a" = some holder ∧
        ∃ l ∈ Sample.workspace.libraries,
          Sample.workspace.Holds l.name (Ascii.upper "a") holder := by
  obtain ⟨holder, hr⟩ : ∃ holder, Sample.workspace.resolve? "L" "a" = some holder :=
    Option.isSome_iff_exists.1 (by decide +kernel)
  exact ⟨Sample.reachable, holder, hr,
    ((names_sound Sample.reachable).2.2 "L" "a" holder (.inl hr)).1⟩

end Workspace

end Steplib
