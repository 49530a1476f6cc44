import Mathlib.Data.Finset.Card
import Steplib.Proofs.Graph.ReferenceCache

/-!
# The cache over a history of operations

What the cache answers is what a plain set of calls answers, from which an eviction always takes
away every call in the evicted file. The marks only save work: a marked file owns no position, so
the eviction that is skipped would have taken nothing away, and the skip shows in the returned flag
alone.

## Main definitions

* `ReferenceCache.Call`: a position that calls a file, apart from the spelling of the paths.
* `ReferenceCache.Operation`, `ReferenceCache.run`: the operations and the cache after a history.
* `ReferenceCache.Operation.onCalls`, `ReferenceCache.callsAfter`: the same for a plain set.
* `ReferenceCache.EvictedSince`: the file was evicted and has not been touched since.

## Main results

* `ReferenceCache.calls_apply`: an operation on the cache is the operation on the set of its calls.
* `ReferenceCache.Sound.apply`: the operations keep the marks truthful and the entries proper.
* `ReferenceCache.contains_evicted_run_iff`: which files are marked after a history.
* `ReferenceCache.run_answers`: after every history the cache answers like the set of calls.
-/

namespace Steplib

theorem Path.same_eq_false_iff {p q : Path} : p.same q = false ↔ p.components ≠ q.components := by
  rw [← Bool.not_eq_true, same_iff]

namespace FilePosition

variable {p q : FilePosition} {ps : List FilePosition}

theorem same_iff : p.same q = true ↔ p.file.components = q.file.components ∧
    p.position = q.position := by
  rw [same, Bool.and_eq_true, Path.same_iff, beq_iff_eq]

theorem same_comm (p q : FilePosition) : p.same q = q.same p := by
  rw [Bool.eq_iff_iff, same_iff, same_iff, eq_comm, @eq_comm Position]

theorem pairwise_place (h : ps.Pairwise fun p q => p.same q = false)
    (hnew : ∀ q ∈ ps, q.same p = false) :
    (place p ps).Pairwise fun p q => p.same q = false := by
  induction ps with
  | nil => simp [place]
  | cons q ps ih =>
    obtain ⟨hq, hps⟩ := List.pairwise_cons.1 h
    obtain ⟨hqp, hrest⟩ := List.forall_mem_cons.1 hnew
    rw [place]
    split
    · exact List.pairwise_cons.2 ⟨fun r hr => same_comm p r ▸ hnew r hr, h⟩
    · refine List.pairwise_cons.2 ⟨fun r hr => ?_, ih hps hrest⟩
      rcases mem_place.1 hr with rfl | hr
      · exact hqp
      · exact hq r hr

/-- Insertion puts no position into the list a second time. -/
theorem pairwise_insert (h : ps.Pairwise fun p q => p.same q = false) (p : FilePosition) :
    (p.insert ps).Pairwise fun p q => p.same q = false := by
  rw [insert]
  split
  · exact h
  · rename_i hnew
    exact pairwise_place h fun q hq =>
      Bool.eq_false_iff.2 fun hs => hnew (List.any_eq_true.2 ⟨q, hq, hs⟩)

end FilePosition

namespace ReferenceCache

/-! ### Calls -/

/-- A position that calls a file. The paths are given by their components, so that their spelling
does not matter. -/
@[ext]
structure Call where
  called : List Component
  file : List Component
  position : Position
deriving DecidableEq

/-- The call of a file from a position. -/
def Call.of (called : Path) (p : FilePosition) : Call :=
  ⟨called.components, p.file.components, p.position⟩

/-- The calls that the cache holds. -/
def calls (c : ReferenceCache) : Finset Call :=
  (c.entries.entries.flatMap fun e => e.2.map (Call.of e.1)).toFinset

variable {c : ReferenceCache} {called other file : Path} {p q : FilePosition}

theorem Call.of_eq_iff :
    Call.of called p = Call.of other q ↔ called.same other = true ∧ p.same q = true := by
  rw [Call.ext_iff, Path.same_iff, FilePosition.same_iff]
  rfl

/-- The positions of an entry are found under its path, and nothing else is found. -/
theorem mem_positions_iff : p ∈ c.positions called ↔
    ∃ e ∈ c.entries.entries, e.1.same called = true ∧ p ∈ e.2 := by
  rw [positions]
  constructor
  · intro h
    cases hget : c.entries.get? called with
    | none => simp [hget] at h
    | some ps =>
      obtain ⟨e, he, rfl⟩ := Option.map_eq_some_iff.1 hget
      refine ⟨e, List.mem_of_find?_eq_some he, by simpa using List.find?_some he, ?_⟩
      simpa [hget] using h
  · rintro ⟨e, he, hs, hp⟩
    rw [← PathMap.get?_congr _ hs, PathMap.get?_of_mem he]
    exact hp

/-- The cache holds the calls that are on record. -/
theorem mem_calls_iff : Call.of called p ∈ c.calls ↔ c.Records called p := by
  simp only [calls, Records, List.mem_toFinset, List.mem_flatMap, List.mem_map, Call.of_eq_iff,
    List.any_eq_true, mem_positions_iff]
  constructor
  · rintro ⟨e, he, q, hq, hs, hqp⟩
    exact ⟨q, ⟨e, he, hs, hq⟩, hqp⟩
  · rintro ⟨q, ⟨e, he, hs, hq⟩, hqp⟩
    exact ⟨e, he, q, hq, hs, hqp⟩

/-- Sets of calls are equal if they hold the same calls of files from positions. -/
theorem calls_ext {R S : Finset Call} (hR : ∀ r ∈ R, ∃ called p, Call.of called p = r)
    (hS : ∀ r ∈ S, ∃ called p, Call.of called p = r)
    (h : ∀ called p, Call.of called p ∈ R ↔ Call.of called p ∈ S) : R = S := by
  ext r
  constructor
  · intro hr
    obtain ⟨called, p, rfl⟩ := hR r hr
    exact (h called p).1 hr
  · intro hr
    obtain ⟨called, p, rfl⟩ := hS r hr
    exact (h called p).2 hr

theorem exists_of_mem_calls {r : Call} (h : r ∈ c.calls) : ∃ called p, Call.of called p = r := by
  simp only [calls, List.mem_toFinset, List.mem_flatMap, List.mem_map] at h
  obtain ⟨e, -, p, -, rfl⟩ := h
  exact ⟨e.1, p, rfl⟩

/-! ### Operations -/

/-- An operation on the cache. -/
inductive Operation
  | add (called : Path) (position : FilePosition)
  | evict (calling : Path)
  | removeFile (path : Path)
  | removeCalled (called : Path)
deriving DecidableEq

namespace Operation

/-- The cache after the operation. -/
def apply (c : ReferenceCache) : Operation → ReferenceCache
  | add called p => c.add called p
  | evict calling => (c.evict calling).1
  | removeFile path => c.removeFile path
  | removeCalled called => c.removeCalled called

/-- The set of calls after the operation. An eviction always takes away what the file has
contributed, whatever came before. -/
def onCalls (R : Finset Call) : Operation → Finset Call
  | add called p => insert (.of called p) R
  | evict calling => R.filter (·.file ≠ calling.components)
  | removeFile path =>
    R.filter fun r => r.called ≠ path.components ∧ r.file ≠ path.components
  | removeCalled called => R.filter (·.called ≠ called.components)

/-- The operation evicts the file. -/
def evicts (file : Path) : Operation → Bool
  | evict calling => calling.same file
  | _ => false

/-- After the operation the file counts as one that has not been evicted: it has contributed a
position, or it was forgotten. -/
def reopens (file : Path) : Operation → Bool
  | add _ p => p.file.same file
  | removeFile path => path.same file
  | _ => false

end Operation

/-- The cache after a history of operations on the empty cache. -/
def run (ops : List Operation) : ReferenceCache :=
  ops.foldl Operation.apply {}

/-- The set of calls after a history of operations on the empty set. -/
def callsAfter (ops : List Operation) : Finset Call :=
  ops.foldl Operation.onCalls ∅

/-- The file was evicted in the history, and it has neither contributed a position nor been
forgotten since. -/
def EvictedSince (file : Path) (ops : List Operation) : Prop :=
  ∃ earlier op later, ops = earlier ++ op :: later ∧ op.evicts file = true ∧
    ∀ op ∈ later, op.reopens file = false

/-! ### One operation -/

/-- An operation on the cache is the operation on the set of its calls. -/
theorem calls_apply (hc : c.Truthful) (op : Operation) :
    (op.apply c).calls = op.onCalls c.calls := by
  refine calls_ext (fun _ => exists_of_mem_calls) (fun r hr => ?_) fun called p => ?_
  · cases op with
    | add called p =>
      rcases Finset.mem_insert.1 hr with rfl | hr
      · exact ⟨called, p, rfl⟩
      · exact exists_of_mem_calls hr
    | evict | removeFile | removeCalled => exact exists_of_mem_calls (Finset.mem_filter.1 hr).1
  · rw [mem_calls_iff]
    cases op with
    | add other new =>
      rw [Operation.apply, records_add, Operation.onCalls, Finset.mem_insert, mem_calls_iff,
        @eq_comm Call, Call.of_eq_iff]
    | evict calling =>
      rw [Operation.apply, records_evict hc, Operation.onCalls, Finset.mem_filter, mem_calls_iff,
        Path.same_eq_false_iff]
      rfl
    | removeFile path =>
      rw [Operation.apply, records_removeFile hc, Operation.onCalls, Finset.mem_filter,
        mem_calls_iff, Path.same_eq_false_iff, Path.same_eq_false_iff, ne_comm, and_assoc,
        and_left_comm]
      rfl
    | removeCalled path =>
      rw [Operation.apply, records_removeCalled, Operation.onCalls, Finset.mem_filter,
        mem_calls_iff, Path.same_eq_false_iff, ne_comm, and_comm]
      rfl

/-- The marks tell the truth, no called file is without positions, and no position is listed
twice. -/
structure Sound (c : ReferenceCache) : Prop where
  truthful : c.Truthful
  nonempty : ∀ called ps, c.entries.get? called = some ps → ps ≠ []
  distinct : ∀ called, (c.positions called).Pairwise fun p q => p.same q = false

theorem sound_empty : ({} : ReferenceCache).Sound :=
  ⟨truthful_empty, by simp, by simp [positions]⟩

theorem Sound.add (h : c.Sound) (called : Path) (p : FilePosition) : (c.add called p).Sound where
  truthful := h.truthful.add called p
  nonempty other ps hps := by
    rw [ReferenceCache.add, PathMap.get?_insert] at hps
    split at hps
    · obtain rfl := Option.some.inj hps
      have hin := (FilePosition.any_insert p (c.positions called) p).2
        (.inl (FilePosition.same_iff.2 ⟨rfl, rfl⟩))
      exact fun hnil => by simp [hnil] at hin
    · exact h.nonempty other ps hps
  distinct other := by
    simp only [ReferenceCache.add, positions, PathMap.get?_insert]
    split
    · exact FilePosition.pairwise_insert (h.distinct called) p
    · exact h.distinct other

theorem Sound.evict (h : c.Sound) (file : Path) : (c.evict file).1.Sound where
  truthful := h.truthful.evict file
  nonempty called ps hps := by
    rw [ReferenceCache.evict] at hps
    split at hps
    · exact h.nonempty called ps hps
    · rw [dropCaller, PathMap.get?_filter] at hps
      simpa using (Option.filter_eq_some_iff.1 hps).2
  distinct called := by
    rw [positions_evict h.truthful]
    exact (h.distinct called).filter _

theorem Sound.removeCalled (h : c.Sound) (file : Path) : (c.removeCalled file).Sound where
  truthful := h.truthful.removeCalled file
  nonempty called ps hps := by
    rw [ReferenceCache.removeCalled, PathMap.get?_erase] at hps
    split at hps
    · simp at hps
    · exact h.nonempty called ps hps
  distinct called := by
    simp only [ReferenceCache.removeCalled, positions, PathMap.get?_erase]
    split
    · exact .nil
    · exact h.distinct called

theorem Sound.removeFile (h : c.Sound) (file : Path) : (c.removeFile file).Sound where
  truthful := h.truthful.removeFile file
  nonempty := ((h.removeCalled file).evict file).nonempty
  distinct := ((h.removeCalled file).evict file).distinct

/-- Every operation keeps the cache sound. -/
theorem Sound.apply (h : c.Sound) (op : Operation) : (op.apply c).Sound := by
  cases op with
  | add called p => exact h.add called p
  | evict calling => exact h.evict calling
  | removeFile path => exact h.removeFile path
  | removeCalled called => exact h.removeCalled called

/-- An eviction marks the file, a contribution or a removal of the file takes the mark away, and
nothing else has to do with it. -/
theorem contains_evicted_apply (c : ReferenceCache) (op : Operation) (file : Path) :
    (op.apply c).evicted.contains file = true ↔
      op.evicts file = true ∨ c.evicted.contains file = true ∧ op.reopens file = false := by
  have hevict (c : ReferenceCache) (calling : Path) :
      (c.evict calling).1.evicted.contains file =
        (calling.same file || c.evicted.contains file) := by
    rw [ReferenceCache.evict]
    split
    · rename_i hmark
      cases hs : calling.same file with
      | false => rfl
      | true => rw [← PathSet.contains_congr _ hs, hmark]; rfl
    · exact PathSet.contains_insert ..
  cases op with
  | add called p =>
    simp [Operation.apply, ReferenceCache.add, PathSet.contains_erase, Operation.evicts,
      Operation.reopens, and_comm]
  | evict calling => simp [Operation.apply, hevict, Operation.evicts, Operation.reopens]
  | removeFile path =>
    simp only [Operation.apply, ReferenceCache.removeFile, PathSet.contains_erase, hevict,
      ReferenceCache.removeCalled, Operation.evicts, Operation.reopens]
    cases path.same file <;> simp
  | removeCalled called =>
    simp [Operation.apply, ReferenceCache.removeCalled, Operation.evicts, Operation.reopens]

/-! ### Histories -/

theorem run_append_singleton (ops : List Operation) (op : Operation) :
    run (ops ++ [op]) = op.apply (run ops) :=
  List.foldl_append ..

theorem callsAfter_append_singleton (ops : List Operation) (op : Operation) :
    callsAfter (ops ++ [op]) = op.onCalls (callsAfter ops) :=
  List.foldl_append ..

theorem sound_run (ops : List Operation) : (run ops).Sound := by
  induction ops using List.reverseRecOn with
  | nil => exact sound_empty
  | append_singleton ops op ih =>
    rw [run_append_singleton]
    exact ih.apply op

/-- The calls of the cache after a history are those of the plain set. -/
theorem calls_run (ops : List Operation) : (run ops).calls = callsAfter ops := by
  induction ops using List.reverseRecOn with
  | nil => rfl
  | append_singleton ops op ih =>
    rw [run_append_singleton, callsAfter_append_singleton, calls_apply (sound_run ops).truthful, ih]

theorem evictedSince_append_singleton {ops : List Operation} {op : Operation} :
    EvictedSince file (ops ++ [op]) ↔
      op.evicts file = true ∨ EvictedSince file ops ∧ op.reopens file = false := by
  constructor
  · rintro ⟨earlier, op', later, heq, hevicts, hlater⟩
    rcases List.eq_nil_or_concat later with rfl | ⟨later, last, rfl⟩
    · obtain ⟨-, rfl⟩ := List.append_singleton_inj.1 heq
      exact .inl hevicts
    · rw [List.concat_eq_append, ← List.cons_append, ← List.append_assoc] at heq
      obtain ⟨rfl, rfl⟩ := List.append_singleton_inj.1 heq
      rw [List.concat_eq_append, List.forall_mem_append] at hlater
      exact .inr ⟨⟨earlier, op', later, rfl, hevicts, hlater.1⟩, hlater.2 _ (by simp)⟩
  · rintro (hevicts | ⟨⟨earlier, op', later, rfl, hevicts, hlater⟩, hop⟩)
    · exact ⟨ops, op, [], rfl, hevicts, by simp⟩
    · refine ⟨earlier, op', later ++ [op], by simp, hevicts, ?_⟩
      rw [List.forall_mem_append]
      exact ⟨hlater, by simpa using hop⟩

/-- After a history exactly the files that were evicted and not touched since are marked. -/
theorem contains_evicted_run_iff (ops : List Operation) :
    (run ops).evicted.contains file = true ↔ EvictedSince file ops := by
  induction ops using List.reverseRecOn with
  | nil => simp [run, EvictedSince]
  | append_singleton ops op ih =>
    rw [run_append_singleton, contains_evicted_apply, ih, evictedSince_append_singleton]

/-! ### Answers -/

/-- The positions of a called file are those of its calls, each listed once. -/
theorem Sound.positions (h : c.Sound) (called : Path) :
    ((c.positions called).map (Call.of called)).Nodup ∧
      ((c.positions called).map (Call.of called)).toFinset =
        c.calls.filter (·.called = called.components) := by
  refine ⟨List.pairwise_map.2 ((h.distinct called).imp fun {p q} hs heq => ?_), ?_⟩
  · rw [(Call.of_eq_iff.1 heq).2] at hs
    exact Bool.noConfusion hs
  · ext r
    rw [List.mem_toFinset, List.mem_map, Finset.mem_filter]
    constructor
    · rintro ⟨p, hp, rfl⟩
      exact ⟨mem_calls_iff.2 (records_of_mem hp), rfl⟩
    · rintro ⟨hr, hcalled⟩
      obtain ⟨other, p, rfl⟩ := exists_of_mem_calls hr
      have hs : other.same called = true := Path.same_iff.2 hcalled
      obtain ⟨q, hq, hqp⟩ := List.any_eq_true.1 (mem_calls_iff.1 hr)
      rw [ReferenceCache.positions, PathMap.get?_congr _ hs] at hq
      exact ⟨q, hq, Call.of_eq_iff.2 ⟨by rw [Path.same_comm, hs], hqp⟩⟩

/-- The called files that the cache lists are those with a call, each listed once. -/
theorem Sound.keys (h : c.Sound) :
    (c.entries.keys.map Path.components).Nodup ∧
      (c.entries.keys.map Path.components).toFinset = c.calls.image Call.called := by
  constructor
  · rw [PathMap.keys, List.map_map]
    refine List.pairwise_map.2 (c.entries.ordered.imp fun {e e'} hbefore heq => ?_)
    exact Path.same_eq_false_iff.1 (Path.same_of_before hbefore) heq
  · ext components
    simp only [List.mem_toFinset, PathMap.keys, List.map_map, List.mem_map, Function.comp_apply,
      Finset.mem_image]
    constructor
    · rintro ⟨e, he, rfl⟩
      obtain ⟨p, hp⟩ := List.exists_mem_of_ne_nil _ (h.nonempty e.1 e.2 (PathMap.get?_of_mem he))
      have hmem : p ∈ c.positions e.1 := mem_positions_iff.2 ⟨e, he, Path.same_refl _, hp⟩
      exact ⟨Call.of e.1 p, mem_calls_iff.2 (records_of_mem hmem), rfl⟩
    · rintro ⟨r, hr, rfl⟩
      simp only [calls, List.mem_toFinset, List.mem_flatMap, List.mem_map] at hr
      obtain ⟨e, he, p, -, rfl⟩ := hr
      exact ⟨e, he, rfl⟩

theorem Sound.size (h : c.Sound) : c.size = (c.calls.image Call.called).card := by
  rw [← h.keys.2, List.toFinset_card_of_nodup h.keys.1, List.length_map, PathMap.keys,
    List.length_map]
  rfl

theorem Sound.isEmpty (h : c.Sound) : c.isEmpty = true ↔ c.calls = ∅ := by
  have hlength : c.size = 0 ↔ c.isEmpty = true := by
    rw [ReferenceCache.size, ReferenceCache.isEmpty, PathMap.size, PathMap.isEmpty,
      List.length_eq_zero_iff, List.isEmpty_iff]
  rw [← hlength, h.size, Finset.card_eq_zero, Finset.image_eq_empty]

/-- An eviction that has nothing to do says so, and nothing else does. -/
theorem evict_eq_false_iff : (c.evict file).2 = false ↔ c.evicted.contains file = true := by
  rw [evict]
  split <;> simp_all

/-- After every history the cache answers like the plain set of calls: for each called file it
lists the positions of its calls, each once; it has as many called files as the set; it is empty
when the set is. An eviction says that there was nothing to do exactly when the file was evicted
before and has neither contributed a position nor been removed since. -/
theorem run_answers (ops : List Operation) :
    (∀ called, (((run ops).positions called).map (Call.of called)).Nodup ∧
      (((run ops).positions called).map (Call.of called)).toFinset =
        (callsAfter ops).filter (·.called = called.components)) ∧
    (run ops).size = ((callsAfter ops).image Call.called).card ∧
    ((run ops).isEmpty = true ↔ callsAfter ops = ∅) ∧
    ∀ file, ((run ops).evict file).2 = false ↔ EvictedSince file ops := by
  have hsound := sound_run ops
  rw [← calls_run]
  exact ⟨hsound.positions, hsound.size, hsound.isEmpty,
    fun _ => evict_eq_false_iff.trans (contains_evicted_run_iff ops)⟩

end ReferenceCache

end Steplib
