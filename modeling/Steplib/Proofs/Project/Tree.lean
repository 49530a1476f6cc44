import Mathlib.Data.List.Induction
import Mathlib.Data.List.Nodup
import Steplib.Project.Disk

/-!
# Disks as trees

A disk is a tree when every place holds one node, lies in a directory and is named plainly. The
names that lead from a directory to a file below it then make up the rest of the file's path, so
that listing a directory gives exactly the files below it, each under one path.

## Main definitions

* `Path.PlainName`: a name that is one component of a path.
* `Disk.IsTree`: the disks whose nodes make up a tree.
* `Disk.nodeBelow?`: the node that names lead to from a path.
* `Disk.HasSource`, `Disk.HasLibrary`: the sources and the libraries that a directory holds.

## Main results

* `Path.components_child`: an entry of a directory has one component more.
* `Disk.exists_place_of_find`: the names below a directory lead to the place below its place.
* `Disk.IsTree.mem_filePaths`, `Disk.IsTree.mem_libraryDirectories`: what listing a directory gives.
-/

namespace Steplib

/-! ### Entries of a directory -/

namespace Component

theorem exists_splitOn (a : List Char) : ∃ first rest, a.splitOn '/' = first :: rest :=
  List.exists_cons_of_ne_nil (List.splitOn_ne_nil '/' a)

/-- What follows the last slash gives the last component. -/
theorem ofText_append (a : List Char) {name : List Char} (hname : '/' ∉ name) :
    ofText (String.ofList (a ++ '/' :: name)) =
      ofText (String.ofList (a ++ ['/'])) ++ (ofSegment? name).toList := by
  obtain ⟨first, rest, hsplit⟩ := exists_splitOn a
  have hmore (segment : List Char) : (rest ++ [segment]).isEmpty = false := by simp
  simp only [ofText, String.toList_ofList, List.splitOn_append_cons_self, List.splitOn_nil,
    List.splitOn_eq_singleton hname, hsplit, List.cons_append, hmore, List.filterMap_append]
  have hnil : ofSegment? [] = none := rfl
  cases h : ofSegment? name <;> simp [h, hnil]

/-- A slash at the end carries no meaning. -/
theorem ofText_slash {a : List Char} (ha : a ≠ []) :
    ofText (String.ofList (a ++ ['/'])) = ofText (String.ofList a) := by
  obtain ⟨first, rest, hsplit⟩ := exists_splitOn a
  have hmore : (rest ++ [[]]).isEmpty = false := by simp
  have hfirst : ofFirstSegment first true = ofFirstSegment first (!rest.isEmpty) := by
    cases rest with
    | cons => rfl
    | nil =>
      -- the only segment is the whole text
      obtain rfl : a = first := by
        have h : List.intercalate ['/'] (a.splitOn '/') = a := List.intercalate_splitOn '/'
        rw [hsplit] at h
        simpa using h.symm
      unfold ofFirstSegment
      split <;> simp_all
  simp only [ofText, String.toList_ofList, List.splitOn_append_cons_self, List.splitOn_nil, hsplit,
    List.cons_append, hmore, Bool.not_false, hfirst, List.filterMap_append]
  simp [ofSegment?]

end Component

namespace Path

/-- The name is one component of a path and does not stand for a directory or its parent. -/
structure PlainName (name : String) : Prop where
  ne_empty : name ≠ ""
  slash_notMem : '/' ∉ name.toList
  ne_current : name ≠ "."
  ne_parent : name ≠ ".."

instance : DecidablePred PlainName := fun name =>
  decidable_of_iff (name ≠ "" ∧ '/' ∉ name.toList ∧ name ≠ "." ∧ name ≠ "..")
    ⟨fun ⟨he, hs, hc, hp⟩ => ⟨he, hs, hc, hp⟩, fun ⟨he, hs, hc, hp⟩ => ⟨he, hs, hc, hp⟩⟩

variable {name : String} {names : List String} {dir : Path}

theorem PlainName.ofSegment? (h : PlainName name) :
    Component.ofSegment? name.toList = some (.name name) := by
  unfold Component.ofSegment?
  split
  · exact absurd (String.toList_inj.1 ‹_›) h.ne_empty
  · exact absurd (String.toList_inj.1 ‹_›) h.ne_current
  · exact absurd (String.toList_inj.1 ‹_›) h.ne_parent
  · rw [String.ofList_toList]

/-- A plain name is a path of one component. -/
theorem PlainName.components_ofText (h : PlainName name) :
    (ofText name).components = [.name name] := by
  have hsplit : name.toList.splitOn '/' = [name.toList] := List.splitOn_eq_singleton h.slash_notMem
  have hfirst : Component.ofFirstSegment name.toList false = [.name name] := by
    unfold Component.ofFirstSegment
    split
    · exact absurd (String.toList_inj.1 ‹_›) h.ne_empty
    · exact absurd (String.toList_inj.1 ‹_›) h.ne_current
    · rw [h.ofSegment?]
      rfl
  simp [ofText, Component.ofText, hsplit, hfirst]

/-- An entry of a directory has the components of the directory and its name. -/
theorem components_child (h : PlainName name) :
    (dir.child name).components = dir.components ++ [.name name] := by
  have hrelative : (ofText name).isAbsolute = false := by
    rw [isAbsolute, beq_eq_false_iff_ne]
    exact fun hhead => h.slash_notMem (List.mem_of_mem_head? hhead)
  have hslash (a : List Char) : Component.ofText (String.ofList (a ++ '/' :: name.toList)) =
      Component.ofText (String.ofList (a ++ ['/'])) ++ [.name name] := by
    rw [Component.ofText_append a h.slash_notMem, h.ofSegment?]
    rfl
  rw [child, join, hrelative, dir.components_eq, if_neg Bool.false_ne_true]
  rcases List.eq_nil_or_concat' dir.text.toList with hnil | ⟨front, c, hlast⟩
  · have htext : dir.text = "" := String.toList_inj.1 hnil
    rw [htext, if_pos (by decide), String.empty_append, ofText_text, h.components_ofText]
    rfl
  · have htext : dir.text = String.ofList (front ++ [c]) := by
      rw [← hlast, String.ofList_toList]
    have hends : (dir.text.isEmpty || dir.text.toList.getLast? == some '/') = (c == '/') := by
      simp [htext]
    rw [hends]
    by_cases hc : c = '/'
    · have hspelled : dir.text ++ (ofText name).text =
          String.ofList (front ++ '/' :: name.toList) :=
        String.toList_inj.1 (by simp [hlast, hc, ofText])
      rw [if_pos (beq_iff_eq.2 hc), hspelled, htext, hc]
      exact hslash front
    · have hspelled : dir.text ++ "/" ++ (ofText name).text =
          String.ofList (front ++ [c] ++ '/' :: name.toList) :=
        String.toList_inj.1 (by simp [hlast, ofText])
      rw [if_neg (by simpa using hc), hspelled, htext, ← Component.ofText_slash (by simp)]
      exact hslash _

theorem before_eq_false {p q : Path} (h : (compare p q).isLE = true) : q.before p = false := by
  rw [Bool.eq_false_iff, ne_eq, before_iff]
  exact fun hlt => Std.OrientedCmp.not_isLE_of_lt hlt h

theorem before_self (p : Path) : p.before p = false := by
  rw [Bool.eq_false_iff]
  intro h
  simpa using same_of_before h

/-- What lies below a directory has the components of the directory and the names that lead to
it. -/
theorem components_foldl_child (h : ∀ name ∈ names, PlainName name) :
    (names.foldl child dir).components = dir.components ++ names.map .name := by
  induction names generalizing dir with
  | nil => simp
  | cons name names ih =>
    obtain ⟨hname, hnames⟩ := List.forall_mem_cons.1 h
    rw [List.foldl_cons, ih hnames, components_child hname, List.append_assoc]
    rfl

end Path

theorem ObjectType.ofPath?_congr {p q : Path} (h : p.same q = true) :
    ofPath? p = ofPath? q := by
  simp only [ofPath?, Path.extension?, Path.fileName?, Path.same_iff.1 h]

/-! ### Nodes of a tree -/

namespace Disk

/-- Every place holds one node and lies in a directory, and all names are plain. -/
structure IsTree (d : Disk) : Prop where
  distinct : (d.nodes.map (·.1)).Nodup
  inside : ∀ e ∈ d.nodes, e.1 ≠ [] ∧ d.node? e.1.dropLast = some .directory
  plain : ∀ e ∈ d.nodes, ∀ name ∈ e.1, Path.PlainName name

instance : DecidablePred IsTree := fun d =>
  decidable_of_iff ((d.nodes.map (·.1)).Nodup ∧
      (∀ e ∈ d.nodes, e.1 ≠ [] ∧ d.node? e.1.dropLast = some .directory) ∧
      ∀ e ∈ d.nodes, ∀ name ∈ e.1, Path.PlainName name)
    ⟨fun ⟨hd, hi, hp⟩ => ⟨hd, hi, hp⟩, fun ⟨hd, hi, hp⟩ => ⟨hd, hi, hp⟩⟩

/-- The node that names lead to from what stands at a path. -/
def nodeBelow? (d : Disk) (dir : Path) (names : Place) : Option Node :=
  match d.find dir with
  | .error _ => none
  | .ok (place, _) => d.node? (place ++ names)

/-- A Natural source stands at the path `p`, at or below what stands at `dir`. -/
def HasSource (d : Disk) (dir p : Path) : Prop :=
  (ObjectType.ofPath? p).isSome ∧ ∃ names text, d.nodeBelow? dir names = some (.file text) ∧
    (names.foldl Path.child dir).same p = true

/-- The directory at `dir` holds a directory of the given name, which is in upper case. -/
def HasLibrary (d : Disk) (dir : Path) (name : String) : Prop :=
  ∃ entry, d.nodeBelow? dir [entry] = some .directory ∧ Ascii.upper entry = name

variable {d : Disk} {dir p : Path} {place names : Place} {name : String} {node : Node}

theorem mem_of_node? (hplace : place ≠ []) (h : d.node? place = some node) :
    (place, node) ∈ d.nodes := by
  cases place with
  | nil => exact absurd rfl hplace
  | cons name place =>
    obtain ⟨before, after, hnodes, -⟩ := List.lookup_eq_some_iff.1 h
    rw [hnodes]
    exact List.mem_append_right _ List.mem_cons_self

namespace IsTree

variable (h : d.IsTree)

include h

theorem node?_of_mem (hmem : (place, node) ∈ d.nodes) : d.node? place = some node := by
  cases place with
  | nil => exact absurd rfl (h.inside _ hmem).1
  | cons name place =>
    obtain ⟨before, after, hnodes⟩ := List.append_of_mem hmem
    refine List.lookup_eq_some_iff.2 ⟨before, after, hnodes, fun e he => bne_iff_ne.2 ?_⟩
    have hdistinct := h.distinct
    rw [hnodes, List.map_append, List.map_cons] at hdistinct
    have hnot := (List.nodup_cons.1 (List.nodup_middle.1 hdistinct)).1
    exact fun heq => hnot (List.mem_append_left _ (List.mem_map.2 ⟨e, he, heq.symm⟩))

theorem plain_of_node? (hnode : d.node? place = some node) :
    ∀ name ∈ place, Path.PlainName name := by
  intro name hname
  exact h.plain _ (mem_of_node? (List.ne_nil_of_mem hname) hnode) name hname

/-- What lies above a node is a directory. -/
theorem directory_above (hnode : d.node? (place ++ name :: names) = some node) :
    d.node? place = some .directory := by
  induction names using List.reverseRecOn generalizing node with
  | nil => simpa using (h.inside _ (mem_of_node? (by simp) hnode)).2
  | append_singleton names last ih =>
    have hinside := (h.inside _ (mem_of_node? (by simp) hnode)).2
    rw [← List.cons_append, ← List.append_assoc, List.dropLast_concat] at hinside
    exact ih hinside

end IsTree

/-! ### Following names -/

theorem follow_append (place : Place) (cs cs' : List Component) :
    d.follow place (cs ++ cs') = (d.follow place cs).bind (d.follow · cs') := by
  induction cs generalizing place with
  | nil => rfl
  | cons c cs ih =>
    rw [List.cons_append, follow.eq_def, follow.eq_def d place (c :: cs)]
    dsimp only
    split
    · rfl
    · rfl
    · cases c with
      | root => exact ih []
      | current => exact ih place
      | parent => exact ih place.dropLast
      | name name =>
        dsimp only
        split
        · exact ih (place ++ [name])
        · rfl

/-- Names that can be followed lead to the place below. -/
theorem eq_of_follow_names {reached : Place}
    (h : d.follow place (names.map .name) = .ok reached) : reached = place ++ names := by
  induction names generalizing place with
  | nil =>
    obtain rfl := Except.ok.inj h
    rw [List.append_nil]
  | cons name names ih =>
    rw [List.map_cons, follow] at h
    split at h
    · cases h
    · cases h
    · split at h
      · rw [ih h, List.append_assoc, List.singleton_append]
      · cases h

theorem follow_of_find {found : Place × Node} (h : d.find p = .ok found) :
    d.follow [] p.components = .ok found.1 ∧ d.node? found.1 = some found.2 := by
  rw [find] at h
  simp only [bind, Except.bind] at h
  split at h
  · cases h
  · split at h
    · cases h
    · rename_i place hplace
      rw [hplace]
      split at h
      · cases h
      · obtain rfl := Except.ok.inj h
        exact ⟨rfl, ‹_›⟩
      · split at h
        · cases h
        · obtain rfl := Except.ok.inj h
          exact ⟨rfl, ‹_›⟩

/-- The names below a directory lead to the place below the place of the directory. -/
theorem exists_place_of_find {found : Place × Node}
    (hp : p.components = dir.components ++ names.map .name) (h : d.find p = .ok found) :
    ∃ place, d.follow [] dir.components = .ok place ∧ found.1 = place ++ names := by
  have hfollow := (follow_of_find h).1
  rw [hp, follow_append] at hfollow
  cases hdir : d.follow [] dir.components with
  | error e =>
    rw [hdir] at hfollow
    cases hfollow
  | ok place =>
    rw [hdir] at hfollow
    exact ⟨place, rfl, eq_of_follow_names hfollow⟩

/-! ### Listing a directory -/

theorem IsTree.mem_filesBelow (h : d.IsTree) :
    names ∈ d.filesBelow place ↔ ∃ text, d.node? (place ++ names) = some (.file text) := by
  rw [filesBelow, List.mem_map]
  constructor
  · rintro ⟨⟨here, node⟩, hmem, rfl⟩
    obtain ⟨hmem, hkept⟩ := List.mem_filter.1 hmem
    obtain ⟨hnode, hprefix⟩ := Bool.and_eq_true_iff.1 hkept
    obtain ⟨rest, rfl⟩ := List.isPrefixOf_iff_prefix.1 hprefix
    rw [List.drop_left, h.node?_of_mem hmem]
    cases node with
    | directory => simp at hnode
    | file text => exact ⟨text, rfl⟩
  · rintro ⟨text, hnode⟩
    have hne : place ++ names ≠ [] := by
      rintro heq
      rw [heq, node?] at hnode
      cases hnode
    exact ⟨_, List.mem_filter.2 ⟨mem_of_node? hne hnode, by simp⟩, List.drop_left⟩

/-- The paths of the files at or below a path are those that names lead to. -/
theorem IsTree.mem_filePaths (h : d.IsTree) : p ∈ d.filePaths dir ↔
    ∃ names text, d.nodeBelow? dir names = some (.file text) ∧ names.foldl Path.child dir = p := by
  rw [filePaths]
  simp only [nodeBelow?]
  cases hfind : d.find dir with
  | error e => simp
  | ok found =>
    obtain ⟨place, node⟩ := found
    have hplace := (follow_of_find hfind).2
    cases node with
    | directory =>
      simp only [List.mem_map, h.mem_filesBelow]
      constructor
      · rintro ⟨names, ⟨text, hnode⟩, rfl⟩
        exact ⟨names, text, hnode, rfl⟩
      · rintro ⟨names, text, hnode, rfl⟩
        exact ⟨names, ⟨text, hnode⟩, rfl⟩
    | file text =>
      simp only [List.mem_singleton]
      constructor
      · rintro rfl
        exact ⟨[], text, by simpa using hplace, rfl⟩
      · rintro ⟨names, other, hnode, rfl⟩
        cases names with
        | nil => rfl
        | cons name names =>
          -- nothing lies below a file
          cases hplace.symm.trans (h.directory_above hnode)

theorem IsTree.plain_of_nodeBelow? (h : d.IsTree) (hnode : d.nodeBelow? dir names = some node) :
    ∀ name ∈ names, Path.PlainName name := by
  rw [nodeBelow?] at hnode
  split at hnode
  · cases hnode
  · exact fun name hname => h.plain_of_node? hnode name (List.mem_append_right _ hname)

theorem mem_sourcePaths :
    p ∈ d.sourcePaths dir ↔ p ∈ d.filePaths dir ∧ (ObjectType.ofPath? p).isSome := by
  rw [sourcePaths, List.mem_mergeSort, List.mem_filter]

theorem isLE_total {α : Type} (cmp : α → α → Ordering) [Std.OrientedCmp cmp] (a b : α) :
    ((cmp a b).isLE || (cmp b a).isLE) = true := by
  cases h : (cmp a b).isLE with
  | true => rfl
  | false =>
    have hlt : cmp b a = .lt := Std.OrientedCmp.lt_of_not_isLE (by simp [h])
    rw [hlt]
    rfl

/-- Sources are listed in path order. -/
theorem pairwise_sourcePaths (d : Disk) (dir : Path) :
    (d.sourcePaths dir).Pairwise fun p q => q.before p = false := by
  refine (List.pairwise_mergeSort (fun _ _ _ => Std.TransCmp.isLE_trans)
    (isLE_total (compare : Path → Path → Ordering)) _).imp Path.before_eq_false

/-- The listed sources are those that a directory holds. -/
theorem IsTree.hasSource_iff (h : d.IsTree) :
    d.HasSource dir p ↔ ∃ q ∈ d.sourcePaths dir, q.same p = true := by
  simp only [HasSource, mem_sourcePaths, h.mem_filePaths]
  constructor
  · rintro ⟨htype, names, text, hnode, hs⟩
    exact ⟨_, ⟨⟨names, text, hnode, rfl⟩, ObjectType.ofPath?_congr hs ▸ htype⟩, hs⟩
  · rintro ⟨q, ⟨⟨names, text, hnode, rfl⟩, htype⟩, hs⟩
    exact ⟨ObjectType.ofPath?_congr hs ▸ htype, names, text, hnode, hs⟩

theorem IsTree.startsWith_of_mem_sourcePaths (h : d.IsTree) (hp : p ∈ d.sourcePaths dir) :
    p.startsWith dir = true := by
  obtain ⟨names, text, hnode, rfl⟩ := h.mem_filePaths.1 (mem_sourcePaths.1 hp).1
  rw [Path.startsWith, Path.components_foldl_child (h.plain_of_nodeBelow? hnode),
    List.isPrefixOf_iff_prefix]
  exact List.prefix_append ..

theorem IsTree.mem_directoriesIn (h : d.IsTree) :
    name ∈ d.directoriesIn place ↔ d.node? (place ++ [name]) = some .directory := by
  rw [directoriesIn, List.mem_filterMap]
  constructor
  · rintro ⟨⟨here, node⟩, hlisted, hlast⟩
    obtain ⟨hmem, hkept⟩ := List.mem_filter.1 hlisted
    obtain ⟨hnode, hinside⟩ := Bool.and_eq_true_iff.1 hkept
    have hdirectory : node = .directory := eq_of_beq hnode
    have hplace : here.dropLast = place := eq_of_beq hinside
    rw [← hplace, List.dropLast_append_getLast? name hlast, h.node?_of_mem hmem, hdirectory]
  · intro hnode
    exact ⟨_, List.mem_filter.2 ⟨mem_of_node? (by simp) hnode, by simp⟩, by simp⟩

/-- The listed libraries are the directories in a directory. -/
theorem IsTree.mem_libraryDirectories (h : d.IsTree) {library : String × Path} :
    library ∈ d.libraryDirectories dir ↔ ∃ entry, d.nodeBelow? dir [entry] = some .directory ∧
      Ascii.upper entry = library.1 ∧ dir.child entry = library.2 := by
  obtain ⟨name, path⟩ := library
  simp only [libraryDirectories, List.mem_mergeSort, List.mem_map, nodeBelow?, Prod.mk.injEq]
  refine exists_congr fun entry => and_congr_left fun _ => ?_
  cases hfind : d.find dir with
  | error e => simp
  | ok found =>
    obtain ⟨place, node⟩ := found
    cases node with
    | directory => exact h.mem_directoriesIn
    | file text =>
      -- nothing lies below a file
      have hplace := (follow_of_find hfind).2
      simp only [List.not_mem_nil, false_iff]
      intro hnode
      cases hplace.symm.trans (h.directory_above hnode)

theorem IsTree.upper_of_mem_libraryDirectories (h : d.IsTree) (dir : Path) :
    ∀ e ∈ d.libraryDirectories dir, Ascii.upper e.1 = e.1 := by
  intro e he
  obtain ⟨entry, -, hname, -⟩ := h.mem_libraryDirectories.1 he
  rw [← hname, Ascii.upper_upper]

/-- Libraries are listed by their names, and of one name in path order. -/
theorem pairwise_libraryDirectories (d : Disk) (dir : Path) :
    (d.libraryDirectories dir).Pairwise fun a b =>
      a.1 ≤ b.1 ∧ (a.1 = b.1 → b.2.before a.2 = false) := by
  refine (List.pairwise_mergeSort (fun _ _ _ => Std.TransCmp.isLE_trans) (isLE_total _) _).imp
    fun {a b} hle => ?_
  have hname : (compareOfLessAndEq a.1 b.1).isLE = true := Ordering.isLE_left_of_isLE_then hle
  refine ⟨(isLE_compareOfLessAndEq String.le_antisymm String.not_le String.le_total).1 hname, ?_⟩
  intro hsame
  have hpath : (compare a.2 b.2).isLE = true := by
    have heq : compare a.1 b.1 = .eq := Std.LawfulEqCmp.compare_eq_iff_eq.2 hsame
    rw [compareLex, compareOn, heq] at hle
    exact hle
  exact Path.before_eq_false hpath

end Disk

end Steplib
