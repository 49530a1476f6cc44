import Steplib.Proofs.Project.Tree
import Steplib.Proofs.Workspace.Opening

/-!
# The libraries of a loaded project

A project takes its libraries from its manifest, from the directories on disk and from the one
library that every search ends with, in this order. A library that is named a second time is passed
over, whatever its directory and its steplibs are then. So the libraries have distinct names, and
each takes its directory from the disk if there is one of its name and its steplibs from the
manifest.

## Main definitions

* `Project.InOrder`: the order of the libraries.
* `Project.LiesIn`: the directory of a library.

## Main results

* `Manifest.Sound.parse`: the names in a manifest are in upper case and distinct.
* `Workspace.exists_added`: the names of libraries that are added.
* `Project.inOrder_fresh`, `Project.chain_of_mem`, `Project.liesIn_of_mem`: the order of the
  libraries of a project, their search orders and their directories.
-/

namespace Steplib

/-! ### The names in a manifest -/

namespace Manifest

/-- The names of the libraries are in upper case and distinct. -/
structure Sound (m : Manifest) : Prop where
  upper : ∀ l ∈ m.libraries, Ascii.upper l.1 = l.1
  distinct : (m.libraries.map Prod.fst).Nodup

variable {m : Manifest} {name : String} {steplibs : List String}

theorem map_fst_place (name : String) (steplibs : List String)
    (libraries : List (String × List String)) :
    (place name steplibs libraries).map Prod.fst =
      if name ∈ libraries.map Prod.fst then libraries.map Prod.fst
      else libraries.map Prod.fst ++ [name] := by
  induction libraries with
  | nil => rfl
  | cons library libraries ih =>
    rw [place]
    by_cases h : library.1 = name
    · rw [if_pos h]
      simp [h]
    · rw [if_neg h, List.map_cons, ih, List.map_cons]
      by_cases hmem : name ∈ libraries.map Prod.fst
      · rw [if_pos hmem, if_pos (List.mem_cons_of_mem _ hmem)]
      · rw [if_neg hmem, if_neg (by simp_all [eq_comm]), List.cons_append]

theorem Sound.insert (h : m.Sound) (hname : Ascii.upper name = name) :
    (m.insert name steplibs).Sound := by
  have hnames := map_fst_place name steplibs m.libraries
  constructor
  · intro l hl
    have hmem : l.1 ∈ (place name steplibs m.libraries).map Prod.fst := List.mem_map_of_mem hl
    rw [hnames] at hmem
    split at hmem
    · obtain ⟨k, hk, hsame⟩ := List.mem_map.1 hmem
      rw [← hsame, h.upper k hk]
    · rcases List.mem_append.1 hmem with hmem | hmem
      · obtain ⟨k, hk, hsame⟩ := List.mem_map.1 hmem
        rw [← hsame, h.upper k hk]
      · rw [List.mem_singleton.1 hmem, hname]
  · show ((place name steplibs m.libraries).map Prod.fst).Nodup
    rw [hnames]
    split
    · exact h.distinct
    · exact List.nodup_append.2 ⟨h.distinct, List.nodup_singleton _, by
        rintro a ha b hb rfl
        exact ‹name ∉ _› (List.mem_singleton.1 hb ▸ ha)⟩

/-- What has been read so far is sound. -/
structure Reader.Sound (r : Reader) : Prop where
  manifest : r.manifest.Sound
  library : ∀ name, r.library = some name → Ascii.upper name = name

theorem Reader.Sound.step {r r' : Reader} {e : Markup.Event} (h : r.Sound)
    (hstep : r.step e = .ok r') : r'.Sound := by
  cases e with
  | opened name =>
    obtain rfl := Except.ok.inj hstep
    rw [opened]
    split
    · exact ⟨h.manifest, fun _ hnone => by cases hnone⟩
    · exact ⟨h.manifest, h.library⟩
  | closed name =>
    obtain rfl := Except.ok.inj hstep
    rw [closed.eq_def]
    split
    · exact ⟨h.manifest.insert (h.library _ ‹_›), fun _ hnone => by cases hnone⟩
    · exact ⟨h.manifest, h.library⟩
  | text raw stop =>
    rw [Reader.step] at hstep
    split at hstep
    · obtain rfl := Except.ok.inj hstep
      rw [text]
      split
      · refine ⟨h.manifest, fun name hname => ?_⟩
        rw [← Option.some.inj hname, Ascii.upper_upper]
      · exact ⟨h.manifest, h.library⟩
      · exact h
    · cases hstep

theorem Reader.Sound.run {r r' : Reader} {events : List Markup.Event} (h : r.Sound)
    (hrun : events.foldlM Reader.step r = .ok r') : r'.Sound := by
  induction events generalizing r with
  | nil =>
    obtain rfl := Except.ok.inj hrun
    exact h
  | cons e events ih =>
    rw [List.foldlM_cons] at hrun
    cases hstep : r.step e with
    | error problem => rw [hstep] at hrun; cases hrun
    | ok next =>
      rw [hstep] at hrun
      exact ih (h.step hstep) hrun

/-- The libraries in a manifest have distinct names in upper case. -/
theorem Sound.parse {text : String} (h : Manifest.parse text = .ok m) : m.Sound := by
  rw [Manifest.parse] at h
  simp only [bind, Except.bind] at h
  split at h
  · cases h
  · rename_i r hrun
    have hstart : Reader.Sound {} := ⟨⟨by simp, by simp⟩, fun _ hnone => by cases hnone⟩
    split at h
    · obtain rfl := Except.ok.inj h
      exact (hstart.run hrun).manifest
    · cases h

end Manifest

/-! ### Libraries that are added -/

namespace Workspace

variable {ws : Workspace} {libraries : List (String × Path × List String)} {l : Library}

/-- The workspace with libraries added one after the other. -/
def addLibraries (ws : Workspace) (libraries : List (String × Path × List String)) : Workspace :=
  libraries.foldl (fun ws l => addLibrary ws l.1 l.2.1 l.2.2) ws

/-- The names of the libraries. -/
def libraryNames (ws : Workspace) : List String :=
  ws.libraries.map (·.name)

theorem libraries_addLibrary (ws : Workspace) (name : String) (sourcePath : Path)
    (steplibs : List String) :
    (ws.addLibrary name sourcePath steplibs).libraries =
      if Ascii.upper name ∈ ws.libraryNames then ws.libraries
      else ws.libraries ++ [Library.make name sourcePath steplibs] := by
  have hknown : (ws.library? name).isSome = true ↔ Ascii.upper name ∈ ws.libraryNames := by
    rw [library?, libraryNamed?, List.find?_isSome, libraryNames, List.mem_map]
    simp only [beq_iff_eq]
  rw [addLibrary, apply_ite Workspace.libraries]
  exact if_congr hknown rfl rfl

theorem libraryNames_addLibrary (ws : Workspace) (name : String) (sourcePath : Path)
    (steplibs : List String) :
    (ws.addLibrary name sourcePath steplibs).libraryNames =
      if Ascii.upper name ∈ ws.libraryNames then ws.libraryNames
      else ws.libraryNames ++ [Ascii.upper name] := by
  rw [libraryNames, libraries_addLibrary]
  split
  · rfl
  · exact List.map_append

/-- Of libraries that are added, those stay whose names are new, in their order. -/
theorem exists_added (libraries : List (String × Path × List String)) (ws : Workspace) :
    ∃ added, (ws.addLibraries libraries).libraryNames = ws.libraryNames ++ added ∧
      added.Sublist (libraries.map fun e => Ascii.upper e.1) ∧
      ∀ name, name ∈ added ↔
        name ∉ ws.libraryNames ∧ name ∈ libraries.map fun e => Ascii.upper e.1 := by
  induction libraries generalizing ws with
  | nil => exact ⟨[], by simp [addLibraries], List.nil_sublist _, by simp⟩
  | cons e libraries ih =>
    obtain ⟨added, hnames, hsub, hmem⟩ := ih (ws.addLibrary e.1 e.2.1 e.2.2)
    have hfirst := ws.libraryNames_addLibrary e.1 e.2.1 e.2.2
    by_cases h : Ascii.upper e.1 ∈ ws.libraryNames
    · rw [if_pos h] at hfirst
      refine ⟨added, by rw [← hfirst]; exact hnames, hsub.cons _, fun name => ?_⟩
      rw [hmem, hfirst, List.map_cons, List.mem_cons]
      refine and_congr_right fun hnot => ⟨.inr, fun hor => hor.resolve_left ?_⟩
      rintro rfl
      exact hnot h
    · rw [if_neg h] at hfirst
      refine ⟨Ascii.upper e.1 :: added, ?_, hsub.cons_cons _, fun name => ?_⟩
      · rw [hfirst, List.append_assoc] at hnames
        exact hnames
      · rw [List.mem_cons, hmem, hfirst, List.map_cons, List.mem_cons]
        by_cases hname : name = Ascii.upper e.1
        · simp [hname, h]
        · simp [hname]

/-- Libraries with distinct names all stay, if they are the first ones. -/
theorem libraryNames_addLibraries (hws : ws.libraries = [])
    (hdistinct : (libraries.map fun e => Ascii.upper e.1).Nodup) :
    (ws.addLibraries libraries).libraryNames = libraries.map fun e => Ascii.upper e.1 := by
  obtain ⟨added, hnames, hsub, hmem⟩ := exists_added libraries ws
  have hperm : added.Perm (libraries.map fun e => Ascii.upper e.1) :=
    (List.perm_ext_iff_of_nodup (hdistinct.sublist hsub) hdistinct).2 fun name => by
      rw [hmem, libraryNames, hws]
      simp
  rw [hnames, libraryNames, hws, List.map_nil, List.nil_append, hsub.eq_of_length hperm.length_eq]

/-- A library that was added has the directory and the steplibs that were listed first under its
name. -/
theorem lookup_of_mem_addLibraries (hupper : ∀ e ∈ libraries, Ascii.upper e.1 = e.1)
    (hws : ws.libraries = []) (hl : l ∈ (ws.addLibraries libraries).libraries) :
    ∃ steplibs, libraries.lookup l.name = some (l.sourcePath, steplibs) ∧
      l.chain = Library.chainOf l.name steplibs := by
  induction libraries using List.reverseRecOn generalizing l with
  | nil => simp [addLibraries, hws] at hl
  | append_singleton libraries e ih =>
    have hadd : (ws.addLibraries (libraries ++ [e])).libraries =
        ((ws.addLibraries libraries).addLibrary e.1 e.2.1 e.2.2).libraries := by
      rw [addLibraries, List.foldl_append]
      rfl
    have hbefore (hl : l ∈ (ws.addLibraries libraries).libraries) : ∃ steplibs,
        (libraries ++ [e]).lookup l.name = some (l.sourcePath, steplibs) ∧
          l.chain = Library.chainOf l.name steplibs := by
      obtain ⟨steplibs, hlookup, hchain⟩ :=
        ih (fun d hd => hupper d (List.mem_append_left _ hd)) hl
      exact ⟨steplibs, by rw [List.lookup_append, hlookup, Option.some_or], hchain⟩
    rw [hadd, libraries_addLibrary] at hl
    split at hl
    · exact hbefore hl
    · rename_i hnew
      rcases List.mem_append.1 hl with hl | hl
      · exact hbefore hl
      · obtain rfl := List.mem_singleton.1 hl
        have hname : Ascii.upper e.1 = e.1 := hupper e (by simp)
        have hnone : libraries.lookup e.1 = none := by
          obtain ⟨added, hnames, -, hmem⟩ := exists_added libraries ws
          rw [hname, hnames, libraryNames, hws, List.map_nil, List.nil_append, hmem] at hnew
          refine List.lookup_eq_none_iff.2 fun d hd => bne_iff_ne.2 fun heq => hnew ?_
          refine ⟨by simp [libraryNames, hws], List.mem_map.2 ⟨d, hd, ?_⟩⟩
          rw [hupper d (List.mem_append_left _ hd), heq]
        refine ⟨e.2.2, ?_, by rw [Library.make, hname]⟩
        rw [Library.make, hname, List.lookup_append, hnone, Option.none_or]
        exact List.lookup_cons_self

end Workspace

/-! ### The libraries of a project -/

namespace Project

open Workspace

variable {d : Disk} {root dir : Path} {faults : ParserFaults} {severity : SeverityRules}
  {onDisk : List (String × Path)} {m : Manifest} {l : Library}

theorem sound_loadManifest (h : loadManifest d root = .ok m) : m.Sound := by
  rw [loadManifest] at h
  simp only [bind, Except.bind] at h
  split at h
  · cases h
  · split at h
    · obtain rfl := Except.ok.inj h
      exact ⟨by simp, by simp⟩
    · split at h
      · obtain rfl := Except.ok.inj h
        exact .parse ‹_›
      · cases h

theorem lookup_map_of_key {α β : Type} (xs : List (String × α)) (f : String → α → β)
    (name : String) :
    (xs.map fun e => (e.1, f e.1 e.2)).lookup name = (xs.lookup name).map (f name) := by
  induction xs with
  | nil => rfl
  | cons e xs ih =>
    obtain ⟨key, v⟩ := e
    rw [List.map_cons, List.lookup_cons, List.lookup_cons, ih]
    by_cases h : name = key
    · simp [h]
    · simp [beq_false_of_ne h]

/-- A library takes its directory from the disk, if there is one of its name, and its steplibs from
the manifest. -/
theorem lookup_libraries {name : String} {sourcePath : Path} {steplibs : List String}
    (hname : Ascii.upper name = name)
    (h : (libraries dir onDisk m).lookup name = some (sourcePath, steplibs)) :
    sourcePath = (onDisk.lookup name).getD (dir.child name) ∧ steplibs = m.steplibs name := by
  have hmanifest := lookup_map_of_key m.libraries
    (fun name steplibs => ((onDisk.lookup name).getD (dir.child name), steplibs)) name
  have hdisk := lookup_map_of_key onDisk (fun name path => (path, m.steplibs name)) name
  rw [libraries, List.lookup_append, List.lookup_append, hmanifest, hdisk] at h
  rw [Manifest.steplibs, hname]
  cases hm : m.libraries.lookup name with
  | some given => simp_all
  | none =>
    cases hd : onDisk.lookup name with
    | some path => simp_all [Manifest.steplibs]
    | none =>
      simp only [hm, hd, Option.map_none, Option.none_or] at h
      rw [List.lookup_cons] at h
      split at h
      · have hsystem : name = systemLibrary := eq_of_beq ‹_›
        obtain ⟨rfl, rfl⟩ := Prod.mk.inj (Option.some.inj h)
        exact ⟨by rw [hsystem]; rfl, rfl⟩
      · cases h

theorem upper_systemLibrary : Ascii.upper systemLibrary = systemLibrary := by
  decide

theorem upper_of_mem_libraries (dir : Path) (hm : m.Sound)
    (hdisk : ∀ e ∈ onDisk, Ascii.upper e.1 = e.1) :
    ∀ e ∈ libraries dir onDisk m, Ascii.upper e.1 = e.1 := by
  intro e he
  rw [libraries, List.mem_append, List.mem_append, List.mem_map, List.mem_map] at he
  rcases he with (⟨given, hgiven, rfl⟩ | ⟨found, hfound, rfl⟩) | he
  · exact hm.upper given hgiven
  · exact hdisk found hfound
  · obtain rfl := List.mem_singleton.1 he
    exact upper_systemLibrary

/-- The libraries of the manifest come first, then those on disk by their names, then the library
that every search ends with. -/
theorem names_libraries (dir : Path) (hm : m.Sound) (hdisk : ∀ e ∈ onDisk, Ascii.upper e.1 = e.1)
    (hsorted : onDisk.Pairwise fun a b => a.1 ≤ b.1) :
    ∃ others, (fresh root faults severity (libraries dir onDisk m)).libraryNames =
        m.libraries.map Prod.fst ++ others ++
          (if systemLibrary ∈ m.libraries.map Prod.fst ++ others then [] else [systemLibrary]) ∧
      others.Pairwise (· < ·) ∧
      ∀ name, name ∈ others ↔ name ∉ m.libraries.map Prod.fst ∧ name ∈ onDisk.map Prod.fst := by
  have hdistinct : (fresh root faults severity (libraries dir onDisk m)).libraryNames.Nodup :=
    (Arises.fresh root faults severity _).named.distinct
  let given := m.libraries.map fun l => (l.1, (onDisk.lookup l.1).getD (dir.child l.1), l.2)
  let found := onDisk.map fun l => (l.1, l.2, m.steplibs l.1)
  have hgiven : (given.map fun e => Ascii.upper e.1) = m.libraries.map Prod.fst := by
    rw [List.map_map]
    exact List.map_congr_left hm.upper
  have hfound : (found.map fun e => Ascii.upper e.1) = onDisk.map Prod.fst := by
    rw [List.map_map]
    exact List.map_congr_left hdisk
  have hfirst : ((empty root faults).addLibraries given).libraryNames =
      m.libraries.map Prod.fst := by
    rw [libraryNames_addLibraries rfl (hgiven ▸ hm.distinct), hgiven]
  obtain ⟨others, hnames, hsub, hmem⟩ :=
    exists_added found ((empty root faults).addLibraries given)
  have hall : (fresh root faults severity (libraries dir onDisk m)).libraryNames =
      ((((empty root faults).addLibraries given).addLibraries found).addLibrary systemLibrary
        (dir.child systemLibrary) []).libraryNames := by
    rw [libraryNames, fresh, libraries, List.foldl_append, List.foldl_append]
    rfl
  rw [libraryNames_addLibrary, upper_systemLibrary, hnames, hfirst] at hall
  rw [hfirst, hfound] at hmem
  rw [hfound] at hsub
  refine ⟨others, ?_, ?_, hmem⟩
  · rw [hall]
    split <;> simp
  · have hothers : others.Nodup := by
      refine hdistinct.sublist ?_
      rw [hall]
      split
      · exact List.sublist_append_right ..
      · exact (List.sublist_append_right ..).trans (List.sublist_append_left ..)
    have hle : others.Pairwise (· ≤ ·) :=
      (List.pairwise_map.2 hsorted).sublist hsub
    exact (hle.and hothers).imp fun {a b} hab =>
      String.not_le.1 fun hba => hab.2 (String.le_antisymm hab.1 hba)

/-- The names of the libraries: first those of the manifest, then those of the other directories, in
order, then the library that every search ends with, unless it is among them. -/
def InOrder (d : Disk) (dir : Path) (m : Manifest) (names : List String) : Prop :=
  ∃ others, names = m.libraries.map Prod.fst ++ others ++
      (if systemLibrary ∈ m.libraries.map Prod.fst ++ others then [] else [systemLibrary]) ∧
    others.Pairwise (· < ·) ∧
    ∀ name, name ∈ others ↔ name ∉ m.libraries.map Prod.fst ∧ d.HasLibrary dir name

theorem InOrder.cases {names : List String} {name : String} (h : InOrder d dir m names)
    (hname : name ∈ names) :
    name ∈ m.libraries.map Prod.fst ∨ d.HasLibrary dir name ∨ name = systemLibrary := by
  obtain ⟨others, rfl, -, hothers⟩ := h
  rcases List.mem_append.1 hname with hname | hname
  · rcases List.mem_append.1 hname with hname | hname
    · exact .inl hname
    · exact .inr (.inl ((hothers name).1 hname).2)
  · split at hname
    · cases hname
    · exact .inr (.inr (List.mem_singleton.1 hname))

theorem inOrder_fresh (htree : d.IsTree) (hm : m.Sound) : InOrder d dir m
    (fresh root faults severity (libraries dir (d.libraryDirectories dir) m)).libraryNames := by
  have hdisk (name : String) :
      name ∈ (d.libraryDirectories dir).map Prod.fst ↔ d.HasLibrary dir name := by
    simp only [List.mem_map, htree.mem_libraryDirectories, Disk.HasLibrary]
    constructor
    · rintro ⟨e, ⟨entry, hnode, hname, -⟩, rfl⟩
      exact ⟨entry, hnode, hname⟩
    · rintro ⟨entry, hnode, rfl⟩
      exact ⟨(_, dir.child entry), ⟨entry, hnode, rfl, rfl⟩, rfl⟩
  obtain ⟨others, horder, hsorted, hmem⟩ := names_libraries dir hm
    (htree.upper_of_mem_libraryDirectories dir)
    ((d.pairwise_libraryDirectories dir).imp And.left)
  exact ⟨others, horder, hsorted, fun name => by rw [hmem, hdisk]⟩

/-- The library lies in the first of the directories that are called by its name, in any letter
case, or where such a directory would stand. -/
def LiesIn (d : Disk) (dir : Path) (l : Library) : Prop :=
  (∃ entry, d.nodeBelow? dir [entry] = some .directory ∧ Ascii.upper entry = l.name ∧
    l.sourcePath = dir.child entry ∧
    ∀ other, d.nodeBelow? dir [other] = some .directory → Ascii.upper other = l.name →
      (dir.child other).before l.sourcePath = false) ∨
  ¬d.HasLibrary dir l.name ∧ l.sourcePath = dir.child l.name

section Member

variable (htree : d.IsTree) (hm : m.Sound)
  (hl : l ∈ (fresh root faults severity (libraries dir (d.libraryDirectories dir) m)).libraries)

include htree hm hl

theorem chain_of_mem : l.chain = Library.chainOf l.name (m.steplibs l.name) ∧
    l.sourcePath = ((d.libraryDirectories dir).lookup l.name).getD (dir.child l.name) := by
  have hupper := upper_of_mem_libraries dir hm (htree.upper_of_mem_libraryDirectories dir)
  obtain ⟨steplibs, hlookup, hchain⟩ := lookup_of_mem_addLibraries hupper rfl hl
  have hname : Ascii.upper l.name = l.name :=
    (Arises.fresh root faults severity _).named.library_upper l hl
  obtain ⟨hpath, rfl⟩ := lookup_libraries hname hlookup
  exact ⟨hchain, hpath⟩

theorem liesIn_of_mem : LiesIn d dir l := by
  have hpath := (chain_of_mem htree hm hl).2
  cases hlookup : (d.libraryDirectories dir).lookup l.name with
  | none =>
    refine .inr ⟨?_, by rw [hpath, hlookup]; rfl⟩
    rintro ⟨entry, hnode, hname⟩
    have hmem : (l.name, dir.child entry) ∈ d.libraryDirectories dir :=
      htree.mem_libraryDirectories.2 ⟨entry, hnode, hname, rfl⟩
    simpa using List.lookup_eq_none_iff.1 hlookup _ hmem
  | some path =>
    rw [hlookup, Option.getD_some] at hpath
    obtain ⟨before, after, hlist, hbefore⟩ := List.lookup_eq_some_iff.1 hlookup
    obtain ⟨entry, hnode, hname, hchild⟩ :=
      htree.mem_libraryDirectories.1 (hlist ▸ List.mem_append_right before List.mem_cons_self)
    refine .inl ⟨entry, hnode, hname, hpath.trans hchild.symm, fun other hother hsame => ?_⟩
    have hmem : (l.name, dir.child other) ∈ d.libraryDirectories dir :=
      htree.mem_libraryDirectories.2 ⟨other, hother, hsame, rfl⟩
    have hsorted := d.pairwise_libraryDirectories dir
    rw [hlist] at hmem hsorted
    rw [hpath]
    rcases List.mem_append.1 hmem with hmem | hmem
    · simpa using hbefore _ hmem
    · rcases List.mem_cons.1 hmem with heq | hmem
      · rw [(Prod.mk.inj heq).2, Path.before_self]
      · exact ((List.pairwise_cons.1 (List.pairwise_append.1 hsorted).2.1).1 _ hmem).2 rfl

/-- The directory of a library is called by its name, in some letter case. -/
theorem exists_entry (hplain : ∀ e ∈ m.libraries, Path.PlainName e.1) :
    ∃ entry, Path.PlainName entry ∧ Ascii.upper entry = l.name ∧
      l.sourcePath = dir.child entry := by
  rcases liesIn_of_mem htree hm hl with ⟨entry, hnode, hname, hpath, -⟩ | ⟨hnone, hpath⟩
  · have hentry := htree.plain_of_nodeBelow? hnode entry (List.mem_singleton_self _)
    exact ⟨entry, hentry, hname, hpath⟩
  · refine ⟨l.name, ?_, (Arises.fresh root faults severity _).named.library_upper l hl, hpath⟩
    -- without a directory the library is one of the manifest, or the last one
    rcases (inOrder_fresh htree hm).cases (List.mem_map_of_mem hl) with hgiven | hfound | hsystem
    · obtain ⟨e, he, hname⟩ := List.mem_map.1 hgiven
      exact hname ▸ hplain e he
    · exact absurd hfound hnone
    · rw [hsystem]
      decide

end Member

end Project

end Steplib
