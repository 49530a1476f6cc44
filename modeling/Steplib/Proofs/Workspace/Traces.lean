import Steplib.Proofs.Workspace.Deletion

/-!
# Deletion leaves no trace

A file is on record in many places: under its path, in the name table of its library, at both ends
of its edges, among the waits, and in the cache as a called and as a calling file. A deletion takes
it out of all of them, also when it is registered under a header name, when another file holds its
name or when it was evicted from the cache before. What it changes besides is told by its edges
alone: its callers lose their edge to it, wait for its name and have a stale module instead of a
current one, and the files that it referred to no longer list it.

## Main definitions

* `ModuleFile.without`: a file freed of its edges with a deleted one.
* `Workspace.Traceless`: nothing in the workspace mentions a path.
* `Workspace.Sheds`: a workspace is another one without a file.

## Main results

* `Workspace.Arises.traceless_deleteFile`, `Workspace.Arises.sheds_deleteFile`: what a deletion
  takes out and what it leaves alone.
* `Workspace.Reachable.deletion_frame`: the two, and what is reported, for reachable workspaces.
-/

namespace Steplib

/-- The file without its edges with the one at `p`. If it referred to that one and has a current
module, the module is stale now. -/
def ModuleFile.without (p : Path) (f : ModuleFile) : ModuleFile :=
  { f with
    state := if f.outgoing.contains p then f.state.aged else f.state
    outgoing := f.outgoing.erase p
    incoming := f.incoming.erase p }

/-! ### Entries under a path -/

/-- A file that waits for nothing is in no entry once it has been removed. -/
theorem WaitingIndex.get?_removeFile (w : WaitingIndex) (p : Path) :
    (w.removeFile p).byFile.get? p = none := by
  unfold removeFile
  cases h : w.byFile.get? p with
  | none => exact h
  | some names => simp [PathMap.get?_erase]

/-- Waits of other files add nothing to the entry of a file. -/
theorem WaitingIndex.get?_foldl_add {p : Path} {name : String} {callers : List ModuleFile}
    (w : WaitingIndex) (h : ∀ c ∈ callers, c.path.same p = false) :
    (callers.foldl (fun w c => w.add c.path name) w).byFile.get? p = w.byFile.get? p := by
  induction callers generalizing w with
  | nil => rfl
  | cons c callers ih =>
    obtain ⟨hc, hcallers⟩ := List.forall_mem_cons.1 h
    rw [List.foldl_cons, ih _ hcallers, add, PathMap.get?_insert, hc]
    rfl

namespace ReferenceCache

variable {c : ReferenceCache} {file other : Path}

/-- A file that is not called is not called either when another one was evicted. -/
theorem get?_evict (h : c.entries.get? other = none) (file : Path) :
    (c.evict file).1.entries.get? other = none := by
  rw [evict]
  split
  · exact h
  · rw [dropCaller, PathMap.get?_filter, PathMap.get?_map_of_congr _ fun _ _ _ _ => rfl, h]
    rfl

theorem get?_removeFile (c : ReferenceCache) (file : Path) :
    (c.removeFile file).entries.get? file = none := by
  refine get?_evict ?_ file
  simp [removeCalled, PathMap.get?_erase]

/-- Of every other called file exactly the positions in the removed one are dropped. -/
theorem positions_removeFile (hc : c.Truthful) (hother : file.same other = false) :
    (c.removeFile file).positions other =
      (c.positions other).filter fun x => !x.file.same file := by
  have hcalled : (c.removeCalled file).positions other = c.positions other := by
    simp [removeCalled, positions, PathMap.get?_erase, hother]
  rw [← hcalled]
  exact positions_evict (hc.removeCalled file) file other

theorem freeOf_removeFile (hc : c.Truthful) (file : Path) : (c.removeFile file).FreeOf file :=
  freeOf_evict (hc.removeCalled file) file

/-- The removed file is not marked, and the marks of other files stay. -/
theorem contains_evicted_removeFile (c : ReferenceCache) (file other : Path) :
    (c.removeFile file).evicted.contains other =
      (!file.same other && c.evicted.contains other) := by
  rw [removeFile, evict]
  dsimp only
  split
  · exact PathSet.contains_erase ..
  · rw [PathSet.contains_erase, PathSet.contains_insert]
    cases file.same other <;> rfl

end ReferenceCache

namespace Workspace

/-- Nothing in the workspace mentions the file at the path. -/
structure Traceless (ws : Workspace) (p : Path) : Prop where
  /-- There is no file at the path. -/
  absent : ws.file? p = none
  /-- No name of any library is held by it. -/
  nameless : ws.Nameless p
  /-- No file refers to it, and none lists it as a caller. -/
  unlinked : ∀ q f, ws.file? q = some f →
    f.outgoing.contains p = false ∧ f.incoming.contains p = false
  /-- It waits for no name, and no name lists it. -/
  idle : ws.waiting.byFile.get? p = none ∧ ∀ name, ¬ ws.waiting.Waits p name
  /-- It is not called by any position of the cache. -/
  uncalled : ws.cache.entries.get? p = none
  /-- No position of the cache lies in it. -/
  uncalling : ws.cache.FreeOf p
  /-- It is not marked as evicted. -/
  unmarked : ws.cache.evicted.contains p = false

/-- The workspace `ws'` is `ws` without the file `t` at `p`, and nothing else has changed than what
follows from the edges of that file. -/
structure Sheds (ws : Workspace) (p : Path) (t : ModuleFile) (ws' : Workspace) : Prop where
  /-- The other files lose their edges with the file, and callers are made stale. -/
  files : ∀ q, p.same q = false → ws'.file? q = (ws.file? q).map (·.without p)
  /-- Libraries keep all but their tables. -/
  heads : ws'.heads = ws.heads
  /-- What other files hold they hold. -/
  holders : ∀ library name, ws'.holder? library name =
    (ws.holder? library name).filter fun h => !h.path.same p
  /-- The callers wait for the name of the file, besides what files waited for before. -/
  waits : ∀ q name, p.same q = false →
    (ws'.waiting.Waits q name ↔ ws.waiting.Waits q name ∨ name = t.name ∧ ws.Calls q p)
  /-- The waits as they are recorded at the files. -/
  awaited : ∀ q name, p.same q = false → (name ∈ ws'.waiting.namesOf q ↔
    name ∈ ws.waiting.namesOf q ∨ name = t.name ∧ ws.Calls q p)
  /-- Of other called files the positions in other files stay, in their order. -/
  positions : ∀ called, p.same called = false → ws'.cache.positions called =
    (ws.cache.positions called).filter fun x => !x.file.same p
  /-- Other files keep their marks. -/
  marks : ∀ q, p.same q = false → ws'.cache.evicted.contains q = ws.cache.evicted.contains q
  /-- The rest of the workspace is kept. -/
  settings : ws'.root = ws.root ∧ ws'.faults = ws.faults ∧ ws'.severity = ws.severity

variable {ws : Workspace} {t : ModuleFile} {p q : Path}

/-! ### The other files -/

/-- What is left of another file is told by its own edges. -/
theorem Linked.released_eq (hl : ws.Linked) (hp : ws.file? p = some t) {g : ModuleFile}
    (hq : ws.file? q = some g) : released p t q g = g.without p := by
  have hout : t.outgoing.contains q = g.incoming.contains p := by
    rw [Bool.eq_iff_iff, ← calls_iff hp, hl.symmetric, calledBy_iff hq]
  have hin : t.incoming.contains q = g.outgoing.contains p := by
    rw [Bool.eq_iff_iff, ← calls_iff hq, hl.symmetric, calledBy_iff hp]
  have houtgoing : (released p t q g).outgoing = g.outgoing.erase p := by
    rw [outgoing_released, hin]
    split
    · rfl
    · rename_i hnot
      exact (PathSet.erase_eq_self (by simpa using hnot)).symm
  have hincoming : (released p t q g).incoming = g.incoming.erase p := by
    rw [incoming_released, hout]
    split
    · rfl
    · rename_i hnot
      exact (PathSet.erase_eq_self (by simpa using hnot)).symm
  have hrest : released p t q g =
      { g with
        state := (released p t q g).state
        outgoing := (released p t q g).outgoing
        incoming := (released p t q g).incoming } := by
    simp only [released, markStale_eq]
    split <;> split <;> rfl
  rw [hrest, state_released, hin, houtgoing, hincoming]
  rfl

theorem Linked.file?_deleteFile (hl : ws.Linked) (hp : ws.file? p = some t)
    (hs : p.same q = false) :
    (ws.deleteFile p).2.file? q = (ws.file? q).map (·.without p) := by
  rw [Workspace.file?_deleteFile hp, hs]
  cases hq : ws.file? q with
  | none => rfl
  | some g => exact congrArg some (hl.released_eq hp hq)

/-! ### The callers -/

theorem file?_erase (ws : Workspace) (p q : Path) :
    file? { ws with files := ws.files.erase p } q = if p.same q then none else ws.file? q :=
  ws.files.get?_erase p q

/-- The callers that a deletion looks up are the files that refer to the deleted one. -/
theorem Arises.mem_callers_erase (ha : Arises ws) (hp : ws.file? p = some t) {c : ModuleFile} :
    c ∈ callers { ws with files := ws.files.erase p } t ↔
      ws.Live c ∧ c.outgoing.contains p = true := by
  constructor
  · intro hc
    obtain ⟨r, hr, hfile⟩ := List.mem_filterMap.1 hc
    rw [file?_erase] at hfile
    split at hfile
    · simp at hfile
    · have hcalls : ws.Calls r p :=
        (ha.linked.symmetric r p).2 ((calledBy_iff hp).2 (PathSet.contains_of_mem hr))
      exact ⟨ha.keyed.live hfile, (calls_iff hfile).1 hcalls⟩
  · rintro ⟨hlive, hcall⟩
    have hcalls : ws.Calls c.path p := (calls_iff hlive).2 hcall
    have hcaller : t.incoming.contains c.path = true :=
      (calledBy_iff hp).1 ((ha.linked.symmetric c.path p).1 hcalls)
    obtain ⟨r, hr, hs⟩ := List.any_eq_true.1 hcaller
    refine List.mem_filterMap.2 ⟨r, hr, ?_⟩
    rw [file?_erase, Path.same_congr_right hs, ha.linked.not_same_of_calls hcalls,
      ws.file?_congr hs]
    exact hlive

/-- The callers of a file come in path order. -/
theorem Keyed.pairwise_callers (hk : ws.Keyed) (t : ModuleFile) :
    (ws.callers t).Pairwise fun c d => c.path.before d.path = true := by
  refine t.incoming.ordered.filterMap _ fun q r hqr c hc d hd => ?_
  rw [Path.before_congr_left (hk q c hc), Path.before_congr_right (hk r d hd)]
  exact hqr

theorem Keyed.erase (hk : ws.Keyed) (p : Path) :
    Keyed { ws with files := ws.files.erase p } := fun q f hf => by
  rw [file?_erase] at hf
  split at hf
  · simp at hf
  · exact hk q f hf

theorem markStale_snd_iff (f : ModuleFile) : f.markStale.2 = true ↔ ∃ m, f.state = .parsed m := by
  cases hstate : f.state <;> simp [ModuleFile.markStale, hstate]

/-- The callers with a current module are reported, in path order, and no file is parsed. -/
theorem Arises.report_deleteFile (ha : Arises ws) (hp : ws.file? p = some t) :
    (ws.deleteFile p).1.reparsed = [] ∧
      (ws.deleteFile p).1.markedStale.Pairwise (fun q r => q.before r = true) ∧
      ∀ q, q ∈ (ws.deleteFile p).1.markedStale ↔ ∃ c m, ws.Live c ∧ c.path = q ∧
        c.outgoing.contains p = true ∧ c.state = .parsed m := by
  let found := callers { ws with files := ws.files.erase p } t
  have hreport : (ws.deleteFile p).1 =
      { markedStale := (found.filter (·.markStale.2)).map (·.path) } := by
    simp only [Workspace.deleteFile, hp, found]
  rw [hreport]
  refine ⟨rfl, ?_, fun q => ?_⟩
  · exact List.pairwise_map.2 (((ha.keyed.erase p).pairwise_callers t).filter _)
  · simp only [List.mem_map, List.mem_filter, found, ha.mem_callers_erase hp, markStale_snd_iff]
    constructor
    · rintro ⟨c, ⟨⟨hlive, hcall⟩, m, hstate⟩, rfl⟩
      exact ⟨c, m, hlive, rfl, hcall, hstate⟩
    · rintro ⟨c, m, hlive, rfl, hcall, hstate⟩
      exact ⟨c, ⟨⟨hlive, hcall⟩, m, hstate⟩, rfl⟩

/-! ### Every record -/

/-- A deletion is a move, whatever is on disk. -/
theorem Arises.deleteFile (ha : Arises ws) (p : Path) : Arises (ws.deleteFile p).2 :=
  ha.move (.delete ws p : Move (fun _ => .error .notFound) _ _)

theorem cache_deleteFile (hp : ws.file? p = some t) :
    (ws.deleteFile p).2.cache = ws.cache.removeFile p := by
  simp only [Workspace.deleteFile, hp]
  rfl

section Deleted

variable (ha : Arises ws) (hp : ws.file? p = some t)

include ha hp

theorem Arises.waiting_deleteFile_entry : (ws.deleteFile p).2.waiting.byFile.get? p = none := by
  have hother : ∀ c ∈ callers { ws with files := ws.files.erase p } t, c.path.same p = false :=
    fun c hc => by
      obtain ⟨hlive, hcall⟩ := (ha.mem_callers_erase hp).1 hc
      rw [Path.same_comm]
      exact ha.linked.not_same_of_calls ((calls_iff hlive).2 hcall)
  simp only [Workspace.deleteFile, hp]
  rw [WaitingIndex.get?_foldl_add _ hother, WaitingIndex.get?_removeFile]

/-- After its deletion nothing mentions a file. -/
theorem Arises.traceless_deleteFile : (ws.deleteFile p).2.Traceless p := by
  have habsent : (ws.deleteFile p).2.file? p = none := by
    rw [Workspace.file?_deleteFile hp, Path.same_refl]
    rfl
  refine ⟨habsent, (ha.deleteFile p).named.nameless habsent, fun q f hq => ?_,
    ⟨ha.waiting_deleteFile_entry hp, fun name => ?_⟩, ?_, ?_, ?_⟩
  · rw [ha.linked.file?_deleteFile hp (not_same_of_file? habsent hq)] at hq
    obtain ⟨g, -, rfl⟩ := Option.map_eq_some_iff.1 hq
    simp [ModuleFile.without, PathSet.contains_erase]
  · rw [ha.waits_deleteFile hp]
    simp
  · rw [cache_deleteFile hp]
    exact ReferenceCache.get?_removeFile ws.cache p
  · rw [cache_deleteFile hp]
    exact ReferenceCache.freeOf_removeFile ha.truthful p
  · rw [cache_deleteFile hp, ReferenceCache.contains_evicted_removeFile]
    simp

/-- A deletion changes only what follows from the edges of the deleted file. -/
theorem Arises.sheds_deleteFile : ws.Sheds p t (ws.deleteFile p).2 := by
  have hwaits (q : Path) (name : String) (hs : p.same q = false) :
      (ws.deleteFile p).2.waiting.Waits q name ↔
        ws.waiting.Waits q name ∨ name = t.name ∧ ws.Calls q p := by
    rw [ha.waits_deleteFile hp]
    simp [hs]
  refine ⟨fun q => ha.linked.file?_deleteFile hp, heads_deleteFile ws p,
    ha.named.holder?_deleteFile hp, hwaits, fun q name hs => ?_, fun called hs => ?_,
    fun q hs => ?_, ?_⟩
  · rw [← (ha.deleteFile p).mirrored q name, hwaits q name hs, ha.mirrored q name]
  · rw [cache_deleteFile hp]
    exact ReferenceCache.positions_removeFile ha.truthful hs
  · rw [cache_deleteFile hp, ReferenceCache.contains_evicted_removeFile, hs]
    rfl
  · simp only [Workspace.deleteFile, hp]
    exact ⟨rfl, rfl, rfl⟩

end Deleted

/-- Deleting a file takes it out of every record: it is not listed, holds no name, has no edge, does
not wait, and is in the cache neither as a called nor as a calling file. Every other file loses
exactly its edges with it; its callers wait for its name besides what they waited for, and a current
module of theirs is stale. These callers are reported in path order, and no file is parsed. All
other names, waits, cached positions and marks are kept. Where no file is, nothing happens. -/
theorem Reachable.deletion_frame (h : Reachable ws) (p : Path) :
    (ws.file? p = none → ws.deleteFile p = ({}, ws)) ∧
    ∀ t, ws.file? p = some t →
      (ws.deleteFile p).2.Traceless p ∧ ws.Sheds p t (ws.deleteFile p).2 ∧
      (ws.deleteFile p).1.reparsed = [] ∧
      (ws.deleteFile p).1.markedStale.Pairwise (fun q r => q.before r = true) ∧
      ∀ q, q ∈ (ws.deleteFile p).1.markedStale ↔ ∃ c m, ws.Live c ∧ c.path = q ∧
        c.outgoing.contains p = true ∧ c.state = .parsed m := by
  refine ⟨fun hp => ?_, fun t hp => ⟨h.arises.traceless_deleteFile hp,
    h.arises.sheds_deleteFile hp, h.arises.report_deleteFile hp⟩⟩
  simp only [Workspace.deleteFile, hp]

end Workspace

namespace Sample

/-- Both subprograms `N` are there, and the program that calls the nearer one has been parsed. -/
def staffed : Workspace :=
  after [.createFile far, .createFile near, .createFile program, .openFile program]

end Sample

namespace Workspace

/-- The nearer subprogram is forgotten, the program that calls it is reported, and the name is still
held in the steplib. -/
theorem Reachable.deletion_frame_sample :
    Reachable Sample.staffed ∧ ∃ t, Sample.staffed.file? Sample.near = some t ∧
      (Sample.staffed.deleteFile Sample.near).2.Traceless Sample.near ∧
      Sample.staffed.Sheds Sample.near t (Sample.staffed.deleteFile Sample.near).2 ∧
      (∃ c m, Sample.staffed.Live c ∧ c.path = Sample.program ∧
        c.outgoing.contains Sample.near = true ∧ c.state = .parsed m) ∧
      (Sample.staffed.deleteFile Sample.near).2.holder? "M" "N" = some { path := Sample.far } := by
  have hreachable : Reachable Sample.staffed := Sample.reachable_after _
  obtain ⟨t, ht⟩ : ∃ t, Sample.staffed.file? Sample.near = some t :=
    Option.isSome_iff_exists.1 (by decide +kernel)
  obtain ⟨htraceless, hsheds, -, -, hreport⟩ := (deletion_frame hreachable Sample.near).2 t ht
  have hstale : Sample.program ∈ (Sample.staffed.deleteFile Sample.near).1.markedStale := by
    decide +kernel
  have hfar : Sample.staffed.holder? "M" "N" = some { path := Sample.far } := by decide +kernel
  refine ⟨hreachable, t, ht, htraceless, hsheds, (hreport _).1 hstale, ?_⟩
  rw [hsheds.holders, hfar]
  decide +kernel

end Workspace

end Steplib
