import Steplib.Proofs.Workspace.Waking

/-!
# Recording the scans of many files

Recording the scans of several files that have not been parsed, one after the other, brings each of
them in step and adds the places where they refer to other files to the cache. Waking such files
comes to the same as long as it changes no name.

## Main definitions

* `Workspace.Cites`: a file refers to another one at a position.
* `Workspace.Indexes`: the scans of some files have been recorded.

## Main results

* `Workspace.Indexes.trans`: scans are recorded one after the other.
* `Workspace.Arises.indexes_registerScans`, `Workspace.Arises.indexes_wakeAll`: recording a list of
  scans and waking a list of files.
-/

namespace Steplib

namespace Workspace

/-- A scan of the file finds a name at the position that leads to another file, which is the called
one. -/
def Cites (sources : Sources) (ws : Workspace) (f : ModuleFile) (called : Path)
    (x : FilePosition) : Prop :=
  ∃ s, f.scan? sources = some s ∧ ∃ c ∈ s.candidates, ∃ holder,
    ws.resolve? f.library c.name = some holder ∧ holder.path.same f.path = false ∧
      holder.path.same called = true ∧ FilePosition.same ⟨f.path, c.position⟩ x = true

/-- The scans of the files have been recorded: those that can be read are in step, what they cite is
in the cache, and names and states are the same in both workspaces. -/
structure Indexes (sources : Sources) (files : List ModuleFile) (ws ws' : Workspace) : Prop where
  refreshes : Refreshes sources ws ws'
  unlinked : ∀ q, (ws'.file? q).map unlinked = (ws.file? q).map unlinked
  inStep : ∀ f ∈ files, (f.scan? sources).isSome → InStep sources ws' f.path
  records : ∀ called x, ws'.cache.Records called x ↔
    ws.cache.Records called x ∨ ∃ f ∈ files, ws.Cites sources f called x

variable {sources : Sources} {ws ws₁ ws' : Workspace} {f g : ModuleFile} {s : Scan} {called : Path}
  {x : FilePosition} {files files' : List ModuleFile}

/-! ### One scan -/

theorem cites_eq_of_skeleton (h : ws'.skeleton = ws.skeleton) :
    ws'.Cites sources f called x ↔ ws.Cites sources f called x := by
  simp only [Cites, resolve?_eq_of_skeleton h]

theorem mem_destinations_iff {library name : String} {self q : Path} :
    q ∈ ws.destinations library self [name] ↔ ∃ holder,
      ws.resolve? library name = some holder ∧ holder.path.same self = false ∧ holder.path = q := by
  simp only [destinations, List.filterMap_cons, List.filterMap_nil]
  cases ws.resolve? library name with
  | none => simp
  | some holder => cases hs : holder.path.same self <;> simp [hs, @eq_comm _ q]

/-- What a scan finds is added to the cache. -/
theorem records_cacheReferences (ws : Workspace) (f : ModuleFile) (candidates : List Candidate) :
    (ws.cacheReferences f candidates).Records called x ↔
      ws.cache.Records called x ∨ ∃ c ∈ candidates, ∃ holder,
        ws.resolve? f.library c.name = some holder ∧ holder.path.same f.path = false ∧
          holder.path.same called = true ∧ FilePosition.same ⟨f.path, c.position⟩ x = true := by
  have hadd (cache : ReferenceCache) (new : FilePosition) (paths : List Path) :
      (paths.foldl (fun cache q => cache.add q new) cache).Records called x ↔
        cache.Records called x ∨ ∃ q ∈ paths, q.same called = true ∧ new.same x = true := by
    induction paths generalizing cache with
    | nil => simp
    | cons q paths ih =>
      rw [List.foldl_cons, ih, ReferenceCache.records_add]
      simp only [List.mem_cons, exists_eq_or_imp, or_assoc, or_left_comm]
  rw [cacheReferences]
  generalize ws.cache = cache
  induction candidates generalizing cache with
  | nil => simp
  | cons c candidates ih =>
    refine (ih _).trans ?_
    rw [hadd]
    simp only [List.mem_cons, exists_eq_or_imp, mem_destinations_iff, or_assoc]
    refine or_congr_right (or_congr_left ⟨?_, ?_⟩)
    · rintro ⟨_, ⟨holder, hr, hother, rfl⟩, hs, hx⟩
      exact ⟨holder, hr, hother, hs, hx⟩
    · rintro ⟨holder, hr, hother, hs, hx⟩
      exact ⟨_, ⟨holder, hr, hother, rfl⟩, hs, hx⟩

theorem records_registerScan (hstate : f.state = .unparsed ∨ f.state = .closed)
    (hscan : f.scan? sources = some s) :
    (ws.registerScan f s).1.cache.Records called x ↔
      ws.cache.Records called x ∨ ws.Cites sources f called x := by
  have hcache : (ws.registerScan f s).1.cache = ws.cacheReferences f s.candidates := by
    rcases hstate with h | h <;> simp [registerScan, h]
  rw [hcache, records_cacheReferences, Cites, hscan]
  simp only [Option.some.injEq, exists_eq_left']

/-- A scan that is recorded cites the files that it leads to. -/
theorem exists_cites_iff (hscan : f.scan? sources = some s) :
    (∃ x, ws.Cites sources f called x) ↔
      (ws.targets f (s.candidates.map (·.name))).contains called = true := by
  simp only [Cites, hscan, Option.some.injEq, exists_eq_left', contains_targets_iff, List.mem_map]
  constructor
  · rintro ⟨x, c, hc, holder, hr, hother, hs, -⟩
    exact ⟨c.name, ⟨c, hc, rfl⟩, holder, hr, hother, hs⟩
  · rintro ⟨_, ⟨c, hc, rfl⟩, holder, hr, hother, hs⟩
    exact ⟨⟨f.path, c.position⟩, c, hc, holder, hr, hother, hs, by simp [FilePosition.same]⟩

theorem Indexes.refl (sources : Sources) (ws : Workspace) : Indexes sources [] ws ws :=
  ⟨.refl sources ws, fun _ => rfl, by simp, by simp⟩

/-- Recording the scan of an unparsed file. -/
theorem Arises.indexes_registerScan (ha : Arises ws)
    (hf : (ws.file? f.path).map Workspace.unlinked = some (Workspace.unlinked f))
    (hstate : f.state = .unparsed) (hscan : f.scan? sources = some s) :
    Indexes sources [f] ws (ws.registerScan f s).1 := by
  have haligns :=
    aligns_registerScan_of_unlinked ha.keyed ha.mirrored hf hscan (.inl hstate)
  refine ⟨haligns.refreshes, (move_registerScan ha.keyed hf hscan).2, ?_, fun called x => ?_⟩
  · simpa using fun _ => haligns.inStep
  · simpa using records_registerScan (.inl hstate) hscan

/-! ### Many scans -/

/-- Scans are recorded one after the other. -/
theorem Indexes.trans (hk : ws.Keyed) (h : Indexes sources files ws ws₁)
    (h' : Indexes sources files' ws₁ ws') : Indexes sources (files ++ files') ws ws' := by
  have hskeleton := h.refreshes.skeleton
  refine ⟨h.refreshes.trans hk h'.refreshes, fun q => (h'.unlinked q).trans (h.unlinked q),
    fun f hf hscan => ?_, fun called x => ?_⟩
  · rcases List.mem_append.1 hf with hf | hf
    · exact h'.refreshes.inStep (hk.of_skeleton hskeleton) (h.inStep f hf hscan)
    · exact h'.inStep f hf hscan
  · rw [h'.records, h.records]
    simp only [cites_eq_of_skeleton hskeleton, List.mem_append, or_and_right, exists_or, or_assoc]

/-- Recording a list of scans of unparsed files. -/
theorem Arises.indexes_registerScans (ha : Arises ws) {scans : List (ModuleFile × Scan)}
    (hscans : ∀ e ∈ scans,
      (ws.file? e.1.path).map Workspace.unlinked = some (Workspace.unlinked e.1) ∧
        e.1.state = .unparsed ∧ e.1.scan? sources = some e.2) :
    Indexes sources (scans.map (·.1)) ws (ws.registerScans scans).1 := by
  rw [registerScans_eq]
  induction scans generalizing ws with
  | nil => exact .refl sources ws
  | cons e scans ih =>
    obtain ⟨⟨hf, hstate, hscan⟩, hrest⟩ := List.forall_mem_cons.1 hscans
    have hfirst := ha.indexes_registerScan hf hstate hscan
    have ha₁ := ha.move (move_registerScan ha.keyed hf hscan).1
    refine hfirst.trans ha.keyed (ih ha₁ fun d hd => ?_)
    rw [hfirst.unlinked]
    exact hrest d hd

/-- All files are unparsed. -/
def Unparsed (ws : Workspace) : Prop :=
  ∀ p f, ws.file? p = some f → f.state = .unparsed

theorem Indexes.unparsed (h : Indexes sources files ws ws') (hu : ws.Unparsed) : ws'.Unparsed :=
  fun q f hf => by
    have hq := h.unlinked q
    rw [hf] at hq
    obtain ⟨g, hg, hb⟩ := Option.map_eq_some_iff.1 hq.symm
    have hstate : g.state = f.state := congrArg (·.state) hb
    rw [← hstate, hu q g hg]

/-- Waking a steady unparsed file records its scan. -/
theorem Arises.indexes_wake (ha : Arises ws) {besides : Path → Bool} (hf : ws.Live f)
    (hstate : f.state = .unparsed) (hs : ws.Steady sources besides f) :
    Indexes sources [Workspace.unlinked f] ws (ws.wake sources f).2 := by
  simp only [wake, hstate, indexFile]
  cases hscan : f.scan? sources with
  | none =>
    have hnone : (Workspace.unlinked f).scan? sources = none := hscan
    exact ⟨.refl sources ws, fun _ => rfl, by simp [hnone], by simp [Cites, hnone]⟩
  | some s =>
    have hmodule : f.state.module? = none := by rw [hstate]; rfl
    dsimp only
    rw [hs.registerScannedName_eq ha.named hf hmodule hscan,
      registerScan_congr ws
        (rfl : Workspace.unlinked f = Workspace.unlinked (Workspace.unlinked f))]
    have hlive : ws.file? f.path = some f := hf
    refine ha.indexes_registerScan ?_ hstate hscan
    exact congrArg (Option.map Workspace.unlinked) hlive

/-- The files that are woken, without their names and edges. -/
def woken (ws : Workspace) (self : Path) (paths : List Path) : List ModuleFile :=
  paths.filterMap fun p => if p.same self then none else (ws.file? p).map unlinked

/-- Waking steady unparsed files records their scans. -/
theorem Arises.indexes_wakeAll (ha : Arises ws) (hu : ws.Unparsed) (besides : Path → Bool)
    (self : Path) {paths : List Path}
    (hsteady : ∀ p ∈ paths, p.same self = false → ∀ f, ws.file? p = some f →
      ws.Steady sources besides f) :
    Indexes sources (ws.woken self paths) ws (ws.wakeAll sources self paths).2 := by
  induction paths generalizing ws with
  | nil => exact .refl sources ws
  | cons p paths ih =>
    obtain ⟨hp, hpaths⟩ := List.forall_mem_cons.1 hsteady
    rcases ws.skipped_or_woken self p with hskipped | ⟨hself, f, hf⟩
    · have hwoken : ws.woken self (p :: paths) = ws.woken self paths := by
        rcases hskipped with h | h <;> simp [woken, h]
      rw [wakeAll_cons_of_skipped hskipped, hwoken]
      exact ih ha hu hpaths
    · have hlive := ha.keyed.live hf
      have hfirst := ha.indexes_wake hlive (hu p f hf) (hp hself f hf)
      have hwoken : ws.woken self (p :: paths) =
          [Workspace.unlinked f] ++ (ws.wake sources f).2.woken self paths := by
        simp [woken, hself, hf, hfirst.unlinked]
      rw [wakeAll_cons_of_woken hself hf, hwoken]
      refine hfirst.trans ha.keyed (ih (ha.after_wake sources hlive) (hfirst.unparsed hu)
        fun q hq hs g hg => ?_)
      obtain ⟨g₀, hg₀, -⟩ := exists_file_of_skeleton hfirst.refreshes.skeleton.symm hg
      exact (hpaths q hq hs g₀ hg₀).refreshes hfirst.refreshes hg₀ hg

end Workspace

end Steplib
