import Steplib.Proofs.Graph.ReferenceCache
import Steplib.Proofs.Graph.Waiting
import Steplib.Proofs.Workspace.Moves

/-!
# The records of a workspace

Besides the edges between its files a workspace keeps two records: the names that files wait for
and the positions that are known from scans only. Every workspace that arises from moves keeps both
in order.

## Main results

* `Workspace.Arises.mirrored`: the two sides of the waits agree.
* `Workspace.Arises.truthful`: the marks of the cache tell the truth.
-/

namespace Steplib

namespace Workspace

variable {sources : Sources} {ws ws' : Workspace}

/-! ### What a parse and a scan write down -/

theorem waiting_setOutgoing (ws : Workspace) (p : Path) (targets : PathSet) :
    (ws.setOutgoing p targets).waiting = ws.waiting := by
  rw [setOutgoing]
  split <;> rfl

theorem cache_setOutgoing (ws : Workspace) (p : Path) (targets : PathSet) :
    (ws.setOutgoing p targets).cache = ws.cache := by
  rw [setOutgoing]
  split <;> rfl

theorem waiting_setReferences (ws : Workspace) (f : ModuleFile) (names : List String) :
    (ws.setReferences f names).waiting =
      ws.waiting.replace f.path (ws.unresolved f.library names) := by
  simp only [setReferences, waiting_setOutgoing]

theorem waiting_install (ws : Workspace) (f : ModuleFile) (m : Module) (ds : List Diagnostic) :
    (ws.install f m ds).waiting =
      ws.waiting.replace f.path (ws.unresolved f.library m.references) :=
  waiting_setReferences ..

theorem cache_install (ws : Workspace) (f : ModuleFile) (m : Module) (ds : List Diagnostic) :
    (ws.install f m ds).cache = (ws.cache.evict f.path).1 := by
  simp only [install, setReferences, cache_setOutgoing]
  rfl

@[simp]
theorem cache_registerScannedName (ws : Workspace) (f : ModuleFile) (s : Scan) :
    (ws.registerScannedName f s).cache = ws.cache := by
  rw [registerScannedName]
  split <;> rfl

/-- Adding a file writes nothing down. -/
theorem records_addFile (ws : Workspace) (p : Path) :
    (ws.addFile p).2.waiting = ws.waiting ∧ (ws.addFile p).2.cache = ws.cache := by
  rcases ws.addFile_cases p with ⟨h, -⟩ | ⟨file, -, -, h⟩
  · rw [h]
    exact ⟨rfl, rfl⟩
  · rw [h, claimStem]
    split <;> exact ⟨rfl, rfl⟩

/-- Caching what a scan has found keeps the marks truthful. -/
theorem truthful_cacheReferences (hc : ws.cache.Truthful) (f : ModuleFile)
    (candidates : List Candidate) : (ws.cacheReferences f candidates).Truthful := by
  have hadd (cache : ReferenceCache) (hc : cache.Truthful) (new : FilePosition)
      (called : List Path) : (called.foldl (fun c q => c.add q new) cache).Truthful := by
    induction called generalizing cache with
    | nil => exact hc
    | cons q called ih => exact ih _ (hc.add q new)
  rw [cacheReferences]
  generalize ws.cache = cache at hc
  induction candidates generalizing cache with
  | nil => exact hc
  | cons c candidates ih => exact ih _ (hadd cache hc _ _)

/-! ### The records are in order -/

/-- Moves keep the two sides of the waits in agreement. -/
theorem Move.mirrored (h : Move sources ws ws') (hw : ws.waiting.Mirrored) :
    ws'.waiting.Mirrored := by
  cases h with
  | parse f hf find =>
    rw [waiting_install]
    exact hw.replace _ _
  | name f s hf hs =>
    rw [registerScannedName]
    split <;> exact hw
  | scan f s hf hs =>
    have hset : (ws.setReferences f (s.candidates.map (·.name))).waiting.Mirrored := by
      rw [waiting_setReferences]
      exact hw.replace _ _
    rw [registerScan]
    split
    · exact hset
    · exact hset
    · exact hw
  | edit p e => exact hw
  | add p =>
    rw [(ws.records_addFile p).1]
    exact hw
  | take name => exact hw.take name
  | delete p =>
    rw [deleteFile]
    split
    · exact hw
    · rename_i file _
      have hadd (callers : List ModuleFile) (w : WaitingIndex) (hw : w.Mirrored) :
          (callers.foldl (fun w c => w.add c.path file.name) w).Mirrored := by
        induction callers generalizing w with
        | nil => exact hw
        | cons c callers ih => exact ih _ (hw.add c.path file.name)
      exact hadd _ _ (hw.removeFile p)

/-- The two sides of the waits agree. -/
theorem Arises.mirrored (h : Arises ws) : ws.waiting.Mirrored := by
  induction h with
  | fresh =>
    rw [waiting_fresh]
    exact WaitingIndex.mirrored_empty
  | move _ hm ih => exact hm.mirrored ih

/-- Moves keep the marks of the cache truthful. -/
theorem Move.truthful (h : Move sources ws ws') (hc : ws.cache.Truthful) :
    ws'.cache.Truthful := by
  cases h with
  | parse f hf find =>
    rw [cache_install]
    exact hc.evict f.path
  | name f s hf hs =>
    rw [registerScannedName]
    split <;> exact hc
  | scan f s hf hs =>
    rw [registerScan]
    split
    · exact truthful_cacheReferences hc f s.candidates
    · exact truthful_cacheReferences hc f s.candidates
    · exact hc
  | edit p e => exact hc
  | add p =>
    rw [(ws.records_addFile p).2]
    exact hc
  | take name => exact hc
  | delete p =>
    rw [deleteFile]
    split
    · exact hc
    · exact hc.removeFile p

/-- The marks of the cache tell the truth. -/
theorem Arises.truthful (h : Arises ws) : ws.cache.Truthful := by
  induction h with
  | fresh =>
    rw [cache_fresh]
    exact ReferenceCache.truthful_empty
  | move _ hm ih => exact hm.truthful ih

end Workspace

end Steplib
