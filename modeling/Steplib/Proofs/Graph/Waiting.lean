import Steplib.Graph.Waiting

/-!
# The waits as a relation

The index of waits keeps one relation between files and names from both of its sides. `Waits` is
the relation as the names see it. As long as the two sides mirror each other, every operation on the
index is the operation on the relation that its name says, and the two sides still mirror each other
afterwards.

## Main definitions

* `WaitingIndex.Waits`: the file waits for the name.
* `WaitingIndex.Mirrored`: the two sides of the index agree.

## Main results

* `WaitingIndex.waits_replace`, `WaitingIndex.waits_add`, `WaitingIndex.waits_removeFile`,
  `WaitingIndex.waits_take`: what the operations do to the relation.
* `WaitingIndex.Mirrored.replace` and its companions: the operations keep the two sides in
  agreement.
-/

namespace Steplib

namespace WaitingIndex

/-- The file is among the files of a name. -/
def Lists (byName : NameMap PathSet) (name : String) (file : Path) : Prop :=
  ∃ files, byName.get? name = some files ∧ files.contains file = true

/-- The file waits for a name, which is given as it is stored. -/
def Waits (w : WaitingIndex) (file : Path) (name : String) : Prop :=
  Lists w.byName name file

/-- A file is among the files of a name exactly when the name is among the names of the file. -/
def Mirrored (w : WaitingIndex) : Prop :=
  ∀ file name, w.Waits file name ↔ name ∈ w.namesOf file

variable {w : WaitingIndex} {p q : Path} {name other : String} {names : List String}

/-- The relation as it is read from the index, in any letter case. -/
theorem any_waiting_iff :
    (w.waiting name).any (·.same p) = true ↔ w.Waits p (Ascii.upper name) := by
  unfold waiting Waits Lists
  cases w.byName.get? (Ascii.upper name) with
  | none => simp [PathSet.empty]
  | some files => simp [PathSet.contains]

/-! ### The files of a name -/

theorem lists_attachTo (byName : NameMap PathSet) :
    Lists (attachTo p byName name) other q ↔
      other = name ∧ p.same q = true ∨ Lists byName other q := by
  unfold Lists attachTo
  rw [NameMap.get?_insert]
  by_cases ho : other = name
  · subst ho
    cases byName.get? other <;> simp [PathSet.contains_insert]
  · simp [ho]

theorem lists_foldl_attachTo (byName : NameMap PathSet) :
    Lists (names.foldl (attachTo p) byName) other q ↔
      other ∈ names ∧ p.same q = true ∨ Lists byName other q := by
  induction names generalizing byName with
  | nil => simp
  | cons name names ih =>
    rw [List.foldl_cons, ih, lists_attachTo, List.mem_cons]
    grind

theorem lists_detachFrom (byName : NameMap PathSet) :
    Lists (detachFrom p byName name) other q ↔
      Lists byName other q ∧ ¬ (other = name ∧ p.same q = true) := by
  by_cases ho : other = name
  · subst ho
    cases hf : byName.get? other with
    | none => simp [detachFrom, Lists, hf]
    | some files =>
      simp only [detachFrom, hf]
      split
      · rename_i hempty
        have hnone : (files.erase p).contains q = false := by
          rw [PathSet.contains, List.isEmpty_iff.1 hempty]
          rfl
        have hfree : files.contains q = true → p.same q = true := by
          rw [PathSet.contains_erase] at hnone
          cases hs : p.same q <;> simp_all
        simpa [Lists, NameMap.get?_erase, hf] using hfree
      · simp only [Lists, NameMap.get?_insert, hf]
        simp [PathSet.contains_erase, and_comm]
  · unfold detachFrom Lists
    split
    · simp [ho]
    · dsimp only
      split <;> simp [NameMap.get?_erase, NameMap.get?_insert, ho]

theorem lists_foldl_detachFrom (byName : NameMap PathSet) :
    Lists (names.foldl (detachFrom p) byName) other q ↔
      Lists byName other q ∧ ¬ (other ∈ names ∧ p.same q = true) := by
  induction names generalizing byName with
  | nil => simp
  | cons name names ih =>
    rw [List.foldl_cons, ih, lists_detachFrom, List.mem_cons]
    grind

/-! ### Removing a file -/

theorem namesOf_congr (w : WaitingIndex) (h : p.same q = true) : w.namesOf p = w.namesOf q := by
  rw [namesOf, namesOf, PathMap.get?_congr _ h]

theorem mem_namesOf_removeFile :
    name ∈ (w.removeFile p).namesOf q ↔ p.same q = false ∧ name ∈ w.namesOf q := by
  cases hp : w.byFile.get? p with
  | none =>
    simp only [removeFile, hp]
    cases hs : p.same q with
    | true =>
      rw [← w.namesOf_congr hs]
      simp [namesOf, hp]
    | false => simp
  | some names =>
    simp only [removeFile, hp, namesOf, PathMap.get?_erase]
    cases p.same q <;> simp

/-- Removing a file takes its pairs out of the relation. -/
theorem waits_removeFile (hw : w.Mirrored) :
    (w.removeFile p).Waits q name ↔ p.same q = false ∧ w.Waits q name := by
  -- the names that are gone through are all that the file waits for
  have hnames : p.same q = true → (w.Waits q name ↔ name ∈ w.namesOf p) := fun hs => by
    rw [w.namesOf_congr hs]
    exact hw q name
  cases hp : w.byFile.get? p with
  | none =>
    simp only [removeFile, hp]
    cases hs : p.same q with
    | true => simp [hnames hs, namesOf, hp]
    | false => simp
  | some names =>
    have hof : w.namesOf p = names := by simp [namesOf, hp]
    simp only [removeFile, hp]
    rw [Waits, lists_foldl_detachFrom]
    cases hs : p.same q with
    | true =>
      have h := hnames hs
      rw [hof, Waits] at h
      simp [h]
    | false => simp [Waits]

theorem Mirrored.removeFile (hw : w.Mirrored) (p : Path) : (w.removeFile p).Mirrored :=
  fun q name => by rw [waits_removeFile hw, mem_namesOf_removeFile, hw q name]

/-! ### Replacing and adding names -/

theorem mem_namesOf_replace :
    name ∈ (w.replace p names).namesOf q ↔
      if p.same q then name ∈ names.map Ascii.upper else name ∈ w.namesOf q := by
  simp only [replace, namesOf]
  split
  · rename_i hempty
    have hnil : ∀ name, name ∉ names.map Ascii.upper := fun name hname => by
      have := List.mem_eraseDups.2 hname
      rw [List.isEmpty_iff.1 hempty] at this
      simp at this
    refine mem_namesOf_removeFile.trans ?_
    cases p.same q with
    | true => simpa using hnil name
    | false => simp [namesOf]
  · rw [PathMap.get?_insert]
    cases hs : p.same q with
    | true => simp
    | false =>
      refine Iff.trans (mem_namesOf_removeFile (p := p)) ?_
      simp [hs, namesOf]

/-- The file waits for exactly the new names, and nothing changes for other files. -/
theorem waits_replace (hw : w.Mirrored) :
    (w.replace p names).Waits q name ↔
      if p.same q then name ∈ names.map Ascii.upper else w.Waits q name := by
  have hrest : Lists (w.removeFile p).byName name q ↔
      p.same q = false ∧ Lists w.byName name q := waits_removeFile hw
  simp only [replace, Waits]
  rw [lists_foldl_attachTo, List.mem_eraseDups, hrest]
  cases p.same q <;> simp

theorem Mirrored.replace (hw : w.Mirrored) (p : Path) (names : List String) :
    (w.replace p names).Mirrored := fun q name => by
  rw [waits_replace hw, mem_namesOf_replace, hw q name]

theorem mem_namesOf_add :
    other ∈ (w.add p name).namesOf q ↔
      other = Ascii.upper name ∧ p.same q = true ∨ other ∈ w.namesOf q := by
  simp only [add, namesOf, PathMap.get?_insert]
  cases hs : p.same q with
  | true =>
    rw [← PathMap.get?_congr _ hs]
    simp only [if_true, Option.getD_some]
    split
    · grind
    · simp [or_comm]
  | false => simp

/-- The file waits for one more name. -/
theorem waits_add :
    (w.add p name).Waits q other ↔
      other = Ascii.upper name ∧ p.same q = true ∨ w.Waits q other :=
  lists_attachTo w.byName

theorem Mirrored.add (hw : w.Mirrored) (p : Path) (name : String) : (w.add p name).Mirrored :=
  fun q other => by rw [waits_add, mem_namesOf_add, hw q other]

/-! ### Taking a name -/

theorem mem_forget (byFile : PathMap (List String)) :
    other ∈ ((forget name byFile p).get? q).getD [] ↔
      other ∈ (byFile.get? q).getD [] ∧ ¬ (other = name ∧ p.same q = true) := by
  cases hp : byFile.get? p with
  | none =>
    simp only [forget, hp]
    cases hs : p.same q with
    | true => simp [← PathMap.get?_congr _ hs, hp]
    | false => simp
  | some names =>
    simp only [forget, hp]
    split
    · rename_i hempty
      rw [PathMap.get?_erase]
      cases hs : p.same q with
      | true =>
        rw [← PathMap.get?_congr _ hs, hp]
        have hall : ∀ other ∈ names, other = name := by simpa using hempty
        simpa using hall other
      | false => simp
    · rw [PathMap.get?_insert]
      cases hs : p.same q with
      | true =>
        rw [← PathMap.get?_congr _ hs, hp]
        simp
      | false => simp

theorem mem_foldl_forget (files : List Path) (byFile : PathMap (List String)) :
    other ∈ ((files.foldl (forget name) byFile).get? q).getD [] ↔
      other ∈ (byFile.get? q).getD [] ∧ ¬ (other = name ∧ files.any (·.same q) = true) := by
  induction files generalizing byFile with
  | nil => simp
  | cons p files ih =>
    rw [List.foldl_cons, ih, mem_forget, List.any_cons, Bool.or_eq_true]
    grind

/-- Nobody waits for a name that was taken, and nothing changes for other names. -/
theorem waits_take :
    (w.take name).2.Waits q other ↔ other ≠ Ascii.upper name ∧ w.Waits q other := by
  simp only [take, Waits, Lists, NameMap.get?_erase]
  by_cases ho : other = Ascii.upper name
  · simp [ho]
  · simp [ho]

theorem Mirrored.take (hw : w.Mirrored) (name : String) : (w.take name).2.Mirrored :=
  fun q other => by
    rw [waits_take]
    refine Iff.trans ?_ (mem_foldl_forget _ w.byFile).symm
    rw [any_waiting_iff]
    by_cases ho : other = Ascii.upper name
    · subst ho
      have h := hw q (Ascii.upper name)
      simp only [namesOf] at h
      simp [h]
    · simp only [ho, ne_eq, not_false_eq_true, true_and, false_and, and_true]
      exact hw q other

theorem mirrored_empty : ({} : WaitingIndex).Mirrored := fun q name => by
  simp [Waits, Lists, namesOf, NameMap.get?]

@[simp]
theorem not_waits_empty (p : Path) (name : String) : ¬ ({} : WaitingIndex).Waits p name := by
  simp [Waits, Lists, NameMap.get?]

end WaitingIndex

end Steplib
