import Mathlib.Data.Finset.Card
import Steplib.Proofs.Graph.Waiting

/-!
# The index of waits over a history of operations

What the index answers is what a plain set of waits answers. Each operation updates one side of the
index from what the other side holds; that neither side loses a wait or brings one back follows
from the two sides mirroring each other before the operation.

## Main definitions

* `WaitingIndex.Wait`: a file that waits for a name, apart from the spelling of its path.
* `WaitingIndex.Operation`, `WaitingIndex.run`: the operations and the index after a history.
* `WaitingIndex.Operation.onWaits`, `WaitingIndex.waitsAfter`: the same for a plain set.
* `WaitingIndex.Sound`: the two sides mirror each other and hold nothing that is void.

## Main results

* `WaitingIndex.waits_apply`: an operation on the index is the operation on the set of its waits.
* `WaitingIndex.Sound.apply`: the operations keep the index sound.
* `WaitingIndex.run_refines`: after every history the index answers like the set of waits.
-/

namespace Steplib

namespace WaitingIndex

/-- A file that waits for a name. The file is given by its components, so that the spelling of its
path does not matter. -/
@[ext]
structure Wait where
  file : List Component
  name : String
deriving DecidableEq

/-- The wait of a file for a name that is written in any letter case. -/
def Wait.of (file : Path) (name : String) : Wait :=
  ⟨file.components, Ascii.upper name⟩

/-- An operation on the index. -/
inductive Operation
  | replace (file : Path) (names : List String)
  | add (file : Path) (name : String)
  | take (name : String)
  | removeFile (file : Path)
deriving DecidableEq

namespace Operation

/-- The index after the operation. -/
def apply (w : WaitingIndex) : Operation → WaitingIndex
  | replace file names => w.replace file names
  | add file name => w.add file name
  | take name => (w.take name).2
  | removeFile file => w.removeFile file

/-- The set of waits after the operation. -/
def onWaits (R : Finset Wait) : Operation → Finset Wait
  | replace file names =>
    R.filter (·.file ≠ file.components) ∪ (names.map (Wait.of file)).toFinset
  | add file name => insert (.of file name) R
  | take name => R.filter (·.name ≠ Ascii.upper name)
  | removeFile file => R.filter (·.file ≠ file.components)

end Operation

/-- The index after a history of operations on the empty index. -/
def run (ops : List Operation) : WaitingIndex :=
  ops.foldl Operation.apply {}

/-- The set of waits after a history of operations on the empty set. -/
def waitsAfter (ops : List Operation) : Finset Wait :=
  ops.foldl Operation.onWaits ∅

variable {w : WaitingIndex} {p q : Path} {name other : String}

/-! ### One operation on the waits -/

theorem ne_components_iff : q.components ≠ p.components ↔ p.same q = false := by
  rw [← Bool.not_eq_true, Path.same_iff, ne_comm]

theorem Wait.eq_of_iff :
    Wait.mk q.components other = .of p name ↔ other = Ascii.upper name ∧ p.same q = true := by
  rw [Wait.ext_iff, Path.same_comm, Path.same_iff, and_comm]
  rfl

/-- An operation on the index is the operation on the set of its waits. -/
theorem waits_apply (hw : w.Mirrored) {R : Finset Wait}
    (h : ∀ file name, w.Waits file name ↔ ⟨file.components, name⟩ ∈ R) (op : Operation)
    (file : Path) (name : String) :
    (op.apply w).Waits file name ↔ ⟨file.components, name⟩ ∈ op.onWaits R := by
  cases op with
  | replace p names =>
    have hnew : Wait.mk file.components name ∈ (names.map (Wait.of p)).toFinset ↔
        name ∈ names.map Ascii.upper ∧ p.same file = true := by
      simp only [List.mem_toFinset, List.mem_map, eq_comm, Wait.eq_of_iff]
      grind
    rw [Operation.apply, waits_replace hw, Operation.onWaits, Finset.mem_union, Finset.mem_filter,
      ← h, hnew, ne_components_iff]
    cases p.same file <;> simp
  | add p new =>
    rw [Operation.apply, waits_add, Operation.onWaits, Finset.mem_insert, ← h, Wait.eq_of_iff]
  | take taken =>
    rw [Operation.apply, waits_take, Operation.onWaits, Finset.mem_filter, ← h, and_comm]
  | removeFile p =>
    rw [Operation.apply, waits_removeFile hw, Operation.onWaits, Finset.mem_filter, ← h,
      ne_components_iff, and_comm]

/-! ### What is void -/

/-- Of names that are listed more than once one is kept. -/
theorem nodup_eraseDups (names : List String) : names.eraseDups.Nodup := by
  match names with
  | [] => exact .nil
  | name :: names =>
    rw [List.eraseDups_cons]
    refine List.nodup_cons.2 ⟨fun hmem => ?_, nodup_eraseDups _⟩
    simpa using (List.mem_filter.1 (List.mem_eraseDups.1 hmem)).2
termination_by names.length
decreasing_by exact Nat.lt_succ_of_le (List.length_filter_le ..)

/-- Every name has a file. -/
def Manned (byName : NameMap PathSet) : Prop :=
  ∀ name files, byName.get? name = some files → ∃ file, files.contains file = true

theorem Manned.attachTo {byName : NameMap PathSet} (h : Manned byName) (p : Path) (name : String) :
    Manned (attachTo p byName name) := by
  intro other files hfiles
  rw [WaitingIndex.attachTo, NameMap.get?_insert] at hfiles
  split at hfiles
  · obtain rfl := Option.some.inj hfiles
    exact ⟨p, by rw [PathSet.contains_insert, Path.same_refl, Bool.true_or]⟩
  · exact h other files hfiles

theorem Manned.detachFrom {byName : NameMap PathSet} (h : Manned byName) (p : Path)
    (name : String) : Manned (detachFrom p byName name) := by
  intro other files hfiles
  unfold WaitingIndex.detachFrom at hfiles
  split at hfiles
  · exact h other files hfiles
  · dsimp only at hfiles
    split at hfiles
    · rw [NameMap.get?_erase] at hfiles
      split at hfiles
      · cases hfiles
      · exact h other files hfiles
    · rename_i hrest
      rw [NameMap.get?_insert] at hfiles
      split at hfiles
      · obtain rfl := Option.some.inj hfiles
        obtain ⟨file, hfile⟩ := List.exists_mem_of_ne_nil _ fun hnil =>
          hrest (List.isEmpty_iff.2 hnil)
        exact ⟨file, PathSet.contains_of_mem hfile⟩
      · exact h other files hfiles

theorem Manned.foldl {step : NameMap PathSet → String → NameMap PathSet}
    (hstep : ∀ byName name, Manned byName → Manned (step byName name)) (names : List String)
    {byName : NameMap PathSet} (h : Manned byName) : Manned (names.foldl step byName) := by
  induction names generalizing byName with
  | nil => exact h
  | cons name names ih => exact ih (hstep byName name h)

/-- Every file has a name, and each of its names is listed once. -/
def Proper (byFile : PathMap (List String)) : Prop :=
  ∀ file names, byFile.get? file = some names → names ≠ [] ∧ names.Nodup

theorem Proper.insert {byFile : PathMap (List String)} (h : Proper byFile) (p : Path)
    {names : List String} (hne : names ≠ []) (hnodup : names.Nodup) :
    Proper (byFile.insert p names) := by
  intro file others hget
  rw [PathMap.get?_insert] at hget
  split at hget
  · obtain rfl := Option.some.inj hget
    exact ⟨hne, hnodup⟩
  · exact h file others hget

theorem Proper.erase {byFile : PathMap (List String)} (h : Proper byFile) (p : Path) :
    Proper (byFile.erase p) := by
  intro file names hget
  rw [PathMap.get?_erase] at hget
  split at hget
  · cases hget
  · exact h file names hget

theorem Proper.forget {byFile : PathMap (List String)} (h : Proper byFile) (p : Path)
    (name : String) : Proper (forget name byFile p) := by
  unfold WaitingIndex.forget
  split
  · exact h
  · rename_i names hnames
    dsimp only
    split
    · exact h.erase p
    · rename_i hrest
      exact h.insert p (fun hnil => hrest (List.isEmpty_iff.2 hnil)) ((h p names hnames).2.filter _)

/-- The two sides of the index mirror each other, no name is without files and no file without
names, no name is listed twice for a file, and all names are in upper case. -/
structure Sound (w : WaitingIndex) : Prop where
  mirrored : w.Mirrored
  manned : Manned w.byName
  proper : Proper w.byFile
  upper : ∀ file name, w.Waits file name → Ascii.upper name = name

theorem sound_empty : ({} : WaitingIndex).Sound where
  mirrored := mirrored_empty
  manned _ _ h := by simp [NameMap.get?] at h
  proper _ _ h := by simp at h
  upper _ _ h := absurd h (not_waits_empty _ _)

theorem manned_removeFile (h : w.Sound) (p : Path) : Manned (w.removeFile p).byName := by
  unfold removeFile
  split
  · exact h.manned
  · exact h.manned.foldl (fun _ name hb => hb.detachFrom p name) _

theorem proper_removeFile (h : w.Sound) (p : Path) : Proper (w.removeFile p).byFile := by
  unfold removeFile
  split
  · exact h.proper
  · exact h.proper.erase p

theorem Sound.removeFile (h : w.Sound) (p : Path) : (w.removeFile p).Sound where
  mirrored := h.mirrored.removeFile p
  manned := manned_removeFile h p
  proper := proper_removeFile h p
  upper file name hwaits := h.upper file name ((waits_removeFile h.mirrored).1 hwaits).2

theorem Sound.replace (h : w.Sound) (p : Path) (names : List String) :
    (w.replace p names).Sound where
  mirrored := h.mirrored.replace p names
  manned := (manned_removeFile h p).foldl (fun _ name hb => hb.attachTo p name) _
  proper := by
    simp only [WaitingIndex.replace]
    split
    · exact proper_removeFile h p
    · rename_i hnames
      exact (proper_removeFile h p).insert p (fun hnil => hnames (List.isEmpty_iff.2 hnil))
        (nodup_eraseDups _)
  upper file name hwaits := by
    rw [waits_replace h.mirrored] at hwaits
    split at hwaits
    · obtain ⟨written, -, rfl⟩ := List.mem_map.1 hwaits
      exact Ascii.upper_upper written
    · exact h.upper file name hwaits

theorem Sound.add (h : w.Sound) (p : Path) (name : String) : (w.add p name).Sound where
  mirrored := h.mirrored.add p name
  manned := h.manned.attachTo p (Ascii.upper name)
  proper := by
    have hnodup : ((w.byFile.get? p).getD []).Nodup := by
      cases hget : w.byFile.get? p with
      | none => exact .nil
      | some names => exact (h.proper p names hget).2
    refine h.proper.insert p ?_ ?_
    · split
      · rename_i hmem
        exact List.ne_nil_of_mem (List.contains_iff_mem.1 hmem)
      · simp
    · split
      · exact hnodup
      · rename_i hnew
        rw [List.contains_iff_mem] at hnew
        exact List.nodup_append.2 ⟨hnodup, by simp, by grind⟩
  upper file other hwaits := by
    rcases waits_add.1 hwaits with ⟨rfl, -⟩ | hold
    · exact Ascii.upper_upper name
    · exact h.upper file other hold

theorem Sound.take (h : w.Sound) (name : String) : (w.take name).2.Sound where
  mirrored := h.mirrored.take name
  manned other files hfiles := by
    simp only [WaitingIndex.take, NameMap.get?_erase] at hfiles
    split at hfiles
    · cases hfiles
    · exact h.manned other files hfiles
  proper := by
    simp only [WaitingIndex.take]
    have hforget (files : List Path) {byFile : PathMap (List String)} (hb : Proper byFile) :
        Proper (files.foldl (forget (Ascii.upper name)) byFile) := by
      induction files generalizing byFile with
      | nil => exact hb
      | cons file files ih => exact ih (hb.forget file _)
    exact hforget _ h.proper
  upper file other hwaits := h.upper file other (waits_take.1 hwaits).2

/-- Every operation keeps the index sound. -/
theorem Sound.apply (h : w.Sound) (op : Operation) : (op.apply w).Sound := by
  cases op with
  | replace file names => exact h.replace file names
  | add file name => exact h.add file name
  | take name => exact h.take name
  | removeFile file => exact h.removeFile file

/-- The names of a sound index are in upper case on the side of the names, too. -/
theorem Sound.upper_of_get? (h : w.Sound) {files : PathSet}
    (hfiles : w.byName.get? name = some files) : Ascii.upper name = name := by
  obtain ⟨file, hfile⟩ := h.manned name files hfiles
  exact h.upper file name ⟨files, hfiles, hfile⟩

/-! ### Histories -/

theorem run_append_singleton (ops : List Operation) (op : Operation) :
    run (ops ++ [op]) = op.apply (run ops) :=
  List.foldl_append ..

theorem waitsAfter_append_singleton (ops : List Operation) (op : Operation) :
    waitsAfter (ops ++ [op]) = op.onWaits (waitsAfter ops) :=
  List.foldl_append ..

theorem sound_run (ops : List Operation) : (run ops).Sound := by
  induction ops using List.reverseRecOn with
  | nil => exact sound_empty
  | append_singleton ops op ih =>
    rw [run_append_singleton]
    exact ih.apply op

/-- The waits of the index after a history are those of the plain set. -/
theorem waits_run_iff (ops : List Operation) (file : Path) (name : String) :
    (run ops).Waits file name ↔ ⟨file.components, name⟩ ∈ waitsAfter ops := by
  induction ops using List.reverseRecOn generalizing file name with
  | nil => simp [run, waitsAfter]
  | append_singleton ops op ih =>
    rw [run_append_singleton, waitsAfter_append_singleton]
    exact waits_apply (sound_run ops).mirrored ih op file name

/-- The files that wait for a name are listed in path order. -/
theorem pairwise_waiting (w : WaitingIndex) (name : String) :
    (w.waiting name).Pairwise (·.before ·) :=
  ((w.byName.get? (Ascii.upper name)).getD .empty).ordered

/-- After every history the two sides of the index mirror each other, hold nothing that is void
and only names in upper case, and the index answers like the plain set of waits: both sides hold
exactly the waits of the set, and for a name in any letter case it lists the files that wait for it
in path order, whether it is asked or the name is taken. -/
theorem run_refines (ops : List Operation) :
    (run ops).Sound ∧
    (∀ name files, (run ops).byName.get? name = some files → Ascii.upper name = name) ∧
    (∀ file name, (run ops).Waits file name ↔ ⟨file.components, name⟩ ∈ waitsAfter ops) ∧
    (∀ file name, name ∈ (run ops).namesOf file ↔ ⟨file.components, name⟩ ∈ waitsAfter ops) ∧
    ∀ name, ((run ops).waiting name).Pairwise (·.before ·) ∧
      (∀ file, ((run ops).waiting name).any (·.same file) = true ↔
        .of file name ∈ waitsAfter ops) ∧
      ((run ops).take name).1 = (run ops).waiting name := by
  have hsound := sound_run ops
  have hwaits := waits_run_iff ops
  exact ⟨hsound, fun _ _ => hsound.upper_of_get?, hwaits,
    fun file name => (hsound.mirrored file name).symm.trans (hwaits file name),
    fun name => ⟨pairwise_waiting _ name,
      fun file => any_waiting_iff.trans (hwaits file (Ascii.upper name)), rfl⟩⟩

end WaitingIndex

end Steplib
