import Steplib.Graph.ReferenceCache

/-!
# What calling files contribute to the cache

A mark says that a calling file has contributed nothing since it was evicted. As long as the marks
tell the truth, evicting a file frees the cache of it whether it is marked or not.

## Main definitions

* `ReferenceCache.Records`: the cache as a relation between called files and positions.
* `ReferenceCache.FreeOf`: the cache holds no position in a file.
* `ReferenceCache.Truthful`: the cache is free of every marked file.

## Main results

* `ReferenceCache.records_add`: what a new position does to the relation.
* `ReferenceCache.records_evict`, `ReferenceCache.records_removeFile`: eviction drops exactly what
  the file has contributed, removal also what calls it.
* `ReferenceCache.Truthful.add` and its companions: the operations keep the marks truthful.
-/

namespace Steplib

namespace FilePosition

variable {p q : FilePosition} {ps : List FilePosition}

theorem mem_place : q ∈ place p ps ↔ q = p ∨ q ∈ ps := by
  induction ps with
  | nil => simp [place]
  | cons r ps ih =>
    rw [place]
    split
    · simp
    · simp [ih, or_left_comm]

theorem mem_of_mem_insert (h : q ∈ p.insert ps) : q = p ∨ q ∈ ps := by
  rw [insert] at h
  split at h
  · exact .inr h
  · exact mem_place.1 h

theorem same_trans {r : FilePosition} (h : p.same q = true) (h' : q.same r = true) :
    p.same r = true := by
  simp only [same, Bool.and_eq_true, beq_iff_eq] at h h' ⊢
  exact ⟨Path.same_trans h.1 h'.1, h.2.trans h'.2⟩

/-- Insertion adds the inserted position and keeps every other one. -/
theorem any_insert (p : FilePosition) (ps : List FilePosition) (x : FilePosition) :
    (p.insert ps).any (·.same x) = true ↔ p.same x = true ∨ ps.any (·.same x) = true := by
  rw [insert]
  split
  · rename_i hany
    refine ⟨.inr, fun h => h.elim (fun hx => ?_) id⟩
    obtain ⟨r, hr, hs⟩ := List.any_eq_true.1 hany
    exact List.any_eq_true.2 ⟨r, hr, same_trans hs hx⟩
  · simp [List.any_eq_true, mem_place]

end FilePosition

namespace ReferenceCache

/-- The cache holds the position, in whatever spelling, as one that calls the file. -/
def Records (c : ReferenceCache) (called : Path) (p : FilePosition) : Prop :=
  (c.positions called).any (·.same p) = true

/-- The cache holds no position in the file. -/
def FreeOf (c : ReferenceCache) (file : Path) : Prop :=
  ∀ called, ∀ p ∈ c.positions called, p.file.same file = false

/-- The cache is free of every file that is marked as evicted. -/
def Truthful (c : ReferenceCache) : Prop :=
  ∀ file, c.evicted.contains file = true → c.FreeOf file

variable {c : ReferenceCache} {called other file : Path} {p : FilePosition}

theorem records_of_mem (h : p ∈ c.positions called) : c.Records called p :=
  List.any_eq_true.2 ⟨p, h, by simp [FilePosition.same]⟩

theorem FreeOf.congr {file' : Path} (h : c.FreeOf file) (hs : file.same file' = true) :
    c.FreeOf file' := fun called p hp => by
  rw [← Path.same_congr_right hs]
  exact h called p hp

/-- A cache with fewer positions is free of the same files. -/
theorem FreeOf.mono {c' : ReferenceCache} (h : c.FreeOf file)
    (hs : ∀ called, c'.positions called ⊆ c.positions called) : c'.FreeOf file :=
  fun called p hp => h called p (hs called hp)

/-! ### Adding a position -/

theorem mem_positions_add {new : FilePosition} (h : p ∈ (c.add called new).positions other) :
    p = new ∨ p ∈ c.positions other := by
  simp only [add, positions, PathMap.get?_insert] at h
  split at h
  · rename_i hs
    rw [positions, ← PathMap.get?_congr _ hs]
    exact FilePosition.mem_of_mem_insert h
  · exact .inr h

/-- The added position is on record for the called file, and nothing else changes. -/
theorem records_add {new : FilePosition} :
    (c.add called new).Records other p ↔
      called.same other = true ∧ new.same p = true ∨ c.Records other p := by
  simp only [Records, add, positions, PathMap.get?_insert]
  split
  · rename_i hs
    rw [← PathMap.get?_congr _ hs, Option.getD_some, FilePosition.any_insert]
    simp [hs]
  · rename_i hs
    simp [hs]

/-- Adding a position takes the mark of its file away. -/
theorem Truthful.add (hc : c.Truthful) (called : Path) (new : FilePosition) :
    (c.add called new).Truthful := by
  intro file hmark other p hp
  simp only [ReferenceCache.add, PathSet.contains_erase, Bool.and_eq_true, Bool.not_eq_true']
    at hmark
  rcases mem_positions_add hp with rfl | hp
  · exact hmark.1
  · exact hc file hmark.2 other p hp

/-! ### Evicting and removing a file -/

theorem positions_dropCaller (c : ReferenceCache) (file called : Path) :
    ((c.dropCaller file).get? called).getD [] =
      (c.positions called).filter fun p => !p.file.same file := by
  rw [dropCaller, PathMap.get?_filter, PathMap.get?_map_of_congr _ fun _ _ _ _ => rfl, positions]
  cases c.entries.get? called with
  | none => rfl
  | some ps =>
    cases h : ps.filter fun p => !p.file.same file <;> simp [h, Option.filter]

/-- Eviction drops exactly what the file has contributed. -/
theorem positions_evict (hc : c.Truthful) (file called : Path) :
    (c.evict file).1.positions called =
      (c.positions called).filter fun p => !p.file.same file := by
  rw [evict]
  split
  · rename_i hmark
    refine (List.filter_eq_self.2 fun p hp => ?_).symm
    simp [hc file hmark called p hp]
  · exact positions_dropCaller c file called

/-- What other files have contributed stays on record. -/
theorem records_evict (hc : c.Truthful) :
    (c.evict file).1.Records called p ↔ c.Records called p ∧ p.file.same file = false := by
  simp only [Records, positions_evict hc, List.any_eq_true, List.mem_filter, Bool.not_eq_true']
  have hfile {q : FilePosition} (hs : q.same p = true) : q.file.same file = p.file.same file := by
    rw [FilePosition.same, Bool.and_eq_true] at hs
    exact Path.same_congr_left hs.1 file
  constructor
  · rintro ⟨q, ⟨hq, hother⟩, hs⟩
    exact ⟨⟨q, hq, hs⟩, by rw [← hfile hs, hother]⟩
  · rintro ⟨⟨q, hq, hs⟩, hother⟩
    exact ⟨q, ⟨hq, by rw [hfile hs, hother]⟩, hs⟩

theorem freeOf_evict (hc : c.Truthful) (file : Path) : (c.evict file).1.FreeOf file := by
  intro called p hp
  rw [positions_evict hc] at hp
  simpa using (List.mem_filter.1 hp).2

theorem positions_evict_subset (hc : c.Truthful) (file called : Path) :
    (c.evict file).1.positions called ⊆ c.positions called := by
  rw [positions_evict hc]
  exact List.filter_sublist.subset

theorem FreeOf.evict (h : c.FreeOf file) (hc : c.Truthful) (other : Path) :
    (c.evict other).1.FreeOf file :=
  h.mono (positions_evict_subset hc other)

theorem Truthful.evict (hc : c.Truthful) (file : Path) : (c.evict file).1.Truthful := by
  intro other hmark
  have hcases : file.same other = true ∨ c.evicted.contains other = true := by
    rw [ReferenceCache.evict] at hmark
    split at hmark
    · exact .inr hmark
    · simpa only [PathSet.contains_insert, Bool.or_eq_true] using hmark
  rcases hcases with hs | hmark
  · exact (freeOf_evict hc file).congr hs
  · exact (hc other hmark).evict hc file

theorem positions_removeCalled_subset (c : ReferenceCache) (file called : Path) :
    (c.removeCalled file).positions called ⊆ c.positions called := by
  simp only [removeCalled, positions, PathMap.get?_erase]
  split
  · exact List.nil_subset _
  · exact List.Subset.refl _

theorem records_removeCalled :
    (c.removeCalled file).Records called p ↔ file.same called = false ∧ c.Records called p := by
  simp only [Records, removeCalled, positions, PathMap.get?_erase]
  cases file.same called <;> simp

theorem Truthful.removeCalled (hc : c.Truthful) (file : Path) : (c.removeCalled file).Truthful :=
  fun other hmark => (hc other hmark).mono (c.positions_removeCalled_subset file)

theorem Truthful.removeFile (hc : c.Truthful) (file : Path) : (c.removeFile file).Truthful := by
  intro other hmark
  simp only [ReferenceCache.removeFile, PathSet.contains_erase, Bool.and_eq_true] at hmark
  exact (hc.removeCalled file).evict file other hmark.2

/-- What neither lies in the removed file nor calls it stays on record. -/
theorem records_removeFile (hc : c.Truthful) :
    (c.removeFile file).Records called p ↔
      (file.same called = false ∧ c.Records called p) ∧ p.file.same file = false := by
  rw [← records_removeCalled, ← records_evict (hc.removeCalled file)]
  rfl

theorem truthful_empty : ({} : ReferenceCache).Truthful := fun _ _ _ _ hp => by
  simp [positions] at hp

@[simp]
theorem not_records_empty : ¬ ({} : ReferenceCache).Records other p := by
  simp [Records, positions]

end ReferenceCache

end Steplib
