import Steplib.Proofs.Workspace.References
import Steplib.Proofs.Workspace.Tenure

/-!
# Provisional references

What a scan has found of a file is in the cache as long as the file has no module. A parse drops it,
and nothing is added while there is a module. So the cache and the modules never answer for the same
file. A file without a module has all of its calls in the cache, unless it was closed: then nothing
of it may be cached, since the parse dropped what was there, and closing brings nothing back.

## Main definitions

* `Workspace.Cached`: the cache knows that one file calls another.
* `Workspace.CacheFollows`: what is cached of a file follows from its state and its edges.

## Main results

* `Workspace.Arises.cacheFollows`: the cache follows every file.
* `Workspace.Reachable.provisional_references`: provisional and parsed references never mix.
-/

namespace Steplib

namespace Workspace

/-- The cache holds a position in the file at `c` that calls the file at `t`. -/
def Cached (ws : Workspace) (c t : Path) : Prop :=
  ∃ x, ws.cache.Records t x ∧ x.file.same c = true

/-- Positions in the file at `c` are cached only while it is there and has no module, and only under
other files that are there. While it has no module, all of its calls are cached, or it was closed
and none is. -/
structure CacheFollows (ws : Workspace) (c : Path) : Prop where
  live : ∀ t, ws.Cached c t → (∃ f, ws.file? c = some f ∧ f.state.module? = none) ∧
    (ws.file? t).isSome = true ∧ c.same t = false
  complete : ∀ f, ws.file? c = some f → f.state.module? = none →
    (f.state = .closed ∧ ∀ t, ¬ ws.Cached c t) ∨
      ∀ t, f.outgoing.contains t = true → ws.Cached c t

variable {sources : Sources} {ws ws' : Workspace} {f g target : ModuleFile} {s : Scan}
  {p q c t : Path}

/-! ### What is cached of a file -/

theorem cached_of_mem {x : FilePosition} (h : x ∈ ws.cache.positions t) : ws.Cached x.file t :=
  ⟨x, ReferenceCache.records_of_mem h, Path.same_refl _⟩

theorem cached_iff_exists_mem :
    ws.Cached c t ↔ ∃ x ∈ ws.cache.positions t, x.file.same c = true := by
  constructor
  · rintro ⟨x, hx, hs⟩
    obtain ⟨y, hy, hsame⟩ := List.any_eq_true.1 hx
    rw [FilePosition.same, Bool.and_eq_true] at hsame
    exact ⟨y, hy, Path.same_trans hsame.1 hs⟩
  · rintro ⟨x, hx, hs⟩
    exact ⟨x, ReferenceCache.records_of_mem hx, hs⟩

theorem freeOf_iff_not_cached : ws.cache.FreeOf c ↔ ∀ t, ¬ ws.Cached c t := by
  simp only [cached_iff_exists_mem, ReferenceCache.FreeOf, not_exists, not_and, Bool.not_eq_true]

theorem cached_install (ha : Arises ws) (m : Module) (ds : List Diagnostic) :
    (ws.install f m ds).Cached c t ↔ ws.Cached c t ∧ f.path.same c = false := by
  rw [Cached, cache_install]
  simp only [ReferenceCache.records_evict ha.truthful]
  constructor
  · rintro ⟨x, ⟨hx, hother⟩, hs⟩
    rw [Path.same_congr_left hs, Path.same_comm] at hother
    exact ⟨⟨x, hx, hs⟩, hother⟩
  · rintro ⟨⟨x, hx, hs⟩, hother⟩
    refine ⟨x, ⟨hx, ?_⟩, hs⟩
    rw [Path.same_congr_left hs, Path.same_comm, hother]

theorem file_of_cites {x : FilePosition} (h : ws.Cites sources f t x) :
    f.path.same x.file = true := by
  obtain ⟨s, -, c, -, holder, -, -, -, hx⟩ := h
  rw [FilePosition.same, Bool.and_eq_true] at hx
  exact hx.1

/-- Recording the scan of a file without a module rewires every file. -/
theorem file?_registerScan_of_state (hf : ws.Live f)
    (hstate : f.state = .unparsed ∨ f.state = .closed) (s : Scan) (q : Path) :
    (ws.registerScan f s).1.file? q = (ws.file? q).map
      (rewired f.path f.outgoing (ws.targets f (s.candidates.map (·.name))) q) := by
  have hscan : (ws.registerScan f s).1.files =
      (ws.setReferences f (s.candidates.map (·.name))).files := by
    rcases hstate with h | h <;> simp only [registerScan, h]
  exact (congrArg (PathMap.get? · q) hscan).trans (file?_setReferences hf _ q)

theorem rewired_registerScan (hf : ws.Live f) (hstate : f.state = .unparsed ∨ f.state = .closed)
    (s : Scan) :
    Rewired ws f (ws.targets f (s.candidates.map (·.name))) (ws.registerScan f s).1 := fun q => by
  rw [file?_registerScan_of_state hf hstate, Option.map_map]
  rfl

/-- The scan of a file that has a module is not recorded. -/
theorem registerScan_eq_self (hstate : ¬ (f.state = .unparsed ∨ f.state = .closed)) (s : Scan) :
    (ws.registerScan f s).1 = ws := by
  cases hf : f.state <;> simp_all [registerScan]

/-- A scan that is recorded caches a position for each file that it leads to. -/
theorem cached_registerScan (hstate : f.state = .unparsed ∨ f.state = .closed)
    (hscan : f.scan? sources = some s) : (ws.registerScan f s).1.Cached c t ↔
      ws.Cached c t ∨ f.path.same c = true ∧
        (ws.targets f (s.candidates.map (·.name))).contains t = true := by
  rw [Cached, ← exists_cites_iff hscan]
  simp only [records_registerScan hstate hscan, or_and_right, exists_or]
  refine or_congr_right ⟨?_, ?_⟩
  · rintro ⟨x, hx, hs⟩
    exact ⟨Path.same_trans (file_of_cites hx) hs, x, hx⟩
  · rintro ⟨hs, x, hx⟩
    exact ⟨x, hx, by rw [← Path.same_congr_left (file_of_cites hx), hs]⟩

theorem cached_deleteFile (ha : Arises ws) (hp : ws.file? p = some f) :
    (ws.deleteFile p).2.Cached c t ↔
      (p.same t = false ∧ ws.Cached c t) ∧ p.same c = false := by
  have hcache : (ws.deleteFile p).2.cache = ws.cache.removeFile p := by
    simp only [deleteFile, hp]
    rfl
  rw [Cached, hcache]
  simp only [ReferenceCache.records_removeFile ha.truthful]
  constructor
  · rintro ⟨x, ⟨⟨hother, hx⟩, hself⟩, hs⟩
    rw [Path.same_congr_left hs, Path.same_comm] at hself
    exact ⟨⟨hother, x, hx, hs⟩, hself⟩
  · rintro ⟨⟨hother, x, hx, hs⟩, hself⟩
    refine ⟨x, ⟨⟨hother, hx⟩, ?_⟩, hs⟩
    rw [Path.same_congr_left hs, Path.same_comm, hself]

/-! ### Files that a move leaves without a new module -/

/-- The cache goes on following a file that at most ages and loses edges, as long as it forgets
nothing but the calls of files that are gone. -/
theorem CacheFollows.mono (h : ws.CacheFollows c) (hl' : ws'.Linked)
    (change : ModuleFile → ModuleFile) (hfile : ws'.file? c = (ws.file? c).map change)
    (hstate : ∀ f, (change f).state = f.state ∨ (change f).state = f.state.aged)
    (hedges : ∀ f t, (change f).outgoing.contains t = true → f.outgoing.contains t = true)
    (hcached : ∀ t, ws'.Cached c t ↔ ws.Cached c t ∧ (ws'.file? t).isSome = true) :
    ws'.CacheFollows c := by
  have hmodule (f : ModuleFile) : (change f).state.module? = f.state.module? := by
    rcases hstate f with h | h <;> rw [h]
    exact f.state.module?_aged
  refine ⟨fun t ht => ?_, fun f' hf' hnone => ?_⟩
  · obtain ⟨hold, hlive⟩ := (hcached t).1 ht
    obtain ⟨⟨f, hf, hnone⟩, -, hother⟩ := h.live t hold
    refine ⟨⟨change f, by rw [hfile, hf]; rfl, ?_⟩, hlive, hother⟩
    rw [hmodule, hnone]
  · have hf := hf'
    rw [hfile] at hf
    obtain ⟨f, hf₀, rfl⟩ := Option.map_eq_some_iff.1 hf
    rw [hmodule] at hnone
    have hsame : (change f).state = f.state := by
      rcases hstate f with h | h
      · exact h
      · rw [h]
        cases hs : f.state <;> simp_all [ModuleState.module?, ModuleState.aged]
    rw [hsame]
    refine (h.complete f hf₀ hnone).imp (And.imp_right fun hnever t ht => ?_) fun hall t ht => ?_
    · exact hnever t ((hcached t).1 ht).1
    · obtain ⟨g, hg, -⟩ := (hl'.symmetric c t).1 ((calls_iff hf').2 ht)
      exact (hcached t).2 ⟨hall t (hedges f t ht), by rw [hg]; rfl⟩

/-- The cache goes on following a file as long as no file goes and nothing is forgotten of it. -/
theorem CacheFollows.stays (h : ws.CacheFollows c) (hl' : ws'.Linked)
    (change : ModuleFile → ModuleFile) (hfile : ws'.file? c = (ws.file? c).map change)
    (hstate : ∀ f, (change f).state = f.state ∨ (change f).state = f.state.aged)
    (hedges : ∀ f t, (change f).outgoing.contains t = true → f.outgoing.contains t = true)
    (hlive : ∀ t, (ws.file? t).isSome = true → (ws'.file? t).isSome = true)
    (hcached : ∀ t, ws'.Cached c t ↔ ws.Cached c t) : ws'.CacheFollows c := by
  refine h.mono hl' change hfile hstate hedges fun t => ?_
  rw [hcached]
  exact ⟨fun ht => ⟨ht, hlive t (h.live t ht).2.1⟩, And.left⟩

/-! ### Moves -/

section Moves

variable (ha : Arises ws) (h : ws.CacheFollows c)

include ha h

/-- A parse drops what is cached of the file and leaves the others alone. -/
theorem CacheFollows.install (hf : ws.Live f) (m : Module) (ds : List Diagnostic)
    (hl' : (ws.install f m ds).Linked) : (ws.install f m ds).CacheFollows c := by
  have hfile := file?_install hf m ds c
  cases hs : f.path.same c with
  | true =>
    refine ⟨fun t ht => ?_, fun g hg hnone => ?_⟩
    · simp [cached_install ha, hs] at ht
    · rw [hfile] at hg
      obtain ⟨g', -, rfl⟩ := Option.map_eq_some_iff.1 hg
      simp [rewired, hs, ModuleFile.setParsed, ModuleState.module?] at hnone
  | false =>
    have hs' : c.same f.path = false := by rw [Path.same_comm, hs]
    refine h.stays hl' _ hfile (fun g => .inl ?_) (fun g t ht => ?_) (fun t ht => ?_) fun t => ?_
    · simp [rewired, hs]
    · simpa [rewired, hs, hs'] using ht
    · rwa [← Option.isSome_map, map_bare_file?_of_skeleton (skeleton_install ..),
        Option.isSome_map]
    · simp [cached_install ha, hs]

/-- A scan caches all calls of the file, if it has no module, and leaves the others alone. -/
theorem CacheFollows.registerScan (hf : ws.Live f) (hscan : f.scan? sources = some s)
    (hl' : (ws.registerScan f s).1.Linked) : (ws.registerScan f s).1.CacheFollows c := by
  by_cases hstate : f.state = .unparsed ∨ f.state = .closed
  · have hnone : f.state.module? = none := by rcases hstate with h | h <;> rw [h] <;> rfl
    have hfile := file?_registerScan_of_state hf hstate s
    have hlive (t : Path) (ht : (ws.file? t).isSome = true) :
        ((ws.registerScan f s).1.file? t).isSome = true := by rwa [hfile, Option.isSome_map]
    cases hs : f.path.same c with
    | true =>
      have hself : ws.file? c = some f := (ws.file?_congr hs).symm.trans hf
      have hself' := hfile c
      rw [hself] at hself'
      refine ⟨fun t ht => ⟨⟨_, hself', hnone⟩, ?_⟩, fun g hg _ => .inr ?_⟩
      · rcases (cached_registerScan hstate hscan).1 ht with hold | ⟨-, ht⟩
        · exact (h.live t hold).2.imp_left (hlive t)
        · obtain ⟨hsome, hother⟩ := ha.named.targets_live ht
          exact ⟨hlive t hsome, by rw [← Path.same_congr_left hs, hother]⟩
      · intro t ht
        obtain rfl := Option.some.inj (hself'.symm.trans hg)
        refine (cached_registerScan hstate hscan).2 (.inr ⟨hs, ?_⟩)
        rw [Path.same_comm] at hs
        simpa [rewired, hs] using ht
    | false =>
      have hs' : c.same f.path = false := by rw [Path.same_comm, hs]
      refine h.stays hl' _ (hfile c) (fun g => .inl rfl) (fun g t ht => ?_) hlive fun t => ?_
      · simpa [rewired, hs'] using ht
      · simp [cached_registerScan hstate hscan, hs]
  · rwa [registerScan_eq_self hstate]

omit ha in
/-- A file that is closed has nothing cached, since it had a module. -/
theorem CacheFollows.edit (q : Path) (e : Edit) (hl' : (ws.modifyFile q e.apply).Linked) :
    (ws.modifyFile q e.apply).CacheFollows c := by
  have hfile := file?_modifyFile ws q c e.apply
  have hlive (t : Path) (ht : (ws.file? t).isSome = true) :
      ((ws.modifyFile q e.apply).file? t).isSome = true := by
    rw [file?_modifyFile]
    split
    · rwa [Option.isSome_map]
    · exact ht
  have hcached (t : Path) : (ws.modifyFile q e.apply).Cached c t ↔ ws.Cached c t := Iff.rfl
  have hedges (f : ModuleFile) (t : Path) (ht : (e.apply f).outgoing.contains t = true) :
      f.outgoing.contains t = true := by
    have heq : (e.apply f).outgoing = f.outgoing := congrArg Prod.fst (edges_edit e f)
    rwa [← heq]
  cases hs : q.same c with
  | false =>
    rw [hs] at hfile
    exact h.stays hl' id (hfile.trans (congrFun Option.map_id _).symm) (fun _ => .inl rfl)
      (fun _ _ => id) hlive hcached
  | true =>
    rw [hs] at hfile
    cases e with
    | overlay text => exact h.stays hl' _ hfile (fun _ => .inl rfl) hedges hlive hcached
    | publish tool ds => exact h.stays hl' _ hfile (fun _ => .inl rfl) hedges hlive hcached
    | markStale =>
      refine h.stays hl' _ hfile (fun f => .inr ?_) hedges hlive hcached
      simp only [Edit.apply, markStale_eq]
    | close =>
      refine ⟨fun t ht => ?_, fun g hg hnone => ?_⟩
      · obtain ⟨⟨f, hf, hnone⟩, hrest⟩ := h.live t ht
        refine ⟨⟨f, ?_, hnone⟩, hlive t hrest.1, hrest.2⟩
        rw [hfile, hf]
        simp [Edit.apply, ModuleFile.close, hnone]
      · rw [hfile] at hg
        obtain ⟨f, hf, rfl⟩ := Option.map_eq_some_iff.1 hg
        cases hm : f.state.module? with
        | none =>
          have hsame : Edit.close.apply f = f := by simp [Edit.apply, ModuleFile.close, hm]
          rw [hsame]
          exact h.complete f hf hm
        | some m =>
          refine .inl ⟨by simp [Edit.apply, ModuleFile.close, hm], fun t ht => ?_⟩
          obtain ⟨⟨f', hf', hnone⟩, -⟩ := h.live t ht
          obtain rfl := Option.some.inj (hf.symm.trans hf')
          simp [hm] at hnone

omit ha in
/-- A new name changes neither edges nor what is cached. -/
theorem CacheFollows.registerScannedName (f : ModuleFile) (s : Scan)
    (hl' : (ws.registerScannedName f s).Linked) : (ws.registerScannedName f s).CacheFollows c := by
  have hfile (q : Path) : (ws.registerScannedName f s).file? q = (ws.file? q).map fun g =>
      if f.type.hasHeaderName ∧ f.path.same q then { g with name := f.scannedName s } else g := by
    rw [file?_registerScannedName]
    split
    · rfl
    · exact (congrFun Option.map_id _).symm
  refine h.stays hl' _ (hfile c) (fun g => .inl ?_) (fun g t ht => ?_) (fun t ht => ?_) fun t => ?_
  · split <;> rfl
  · split at ht <;> exact ht
  · rwa [hfile, Option.isSome_map]
  · rw [Cached, cache_registerScannedName, Cached]

omit ha in
/-- A new file has no edges and nothing is cached of it. -/
theorem CacheFollows.addFile (p : Path) (hl' : (ws.addFile p).2.Linked) :
    (ws.addFile p).2.CacheFollows c := by
  rcases ws.addFile_cases p with ⟨heq, -⟩ | ⟨new, hnew, hp, -⟩
  · rwa [heq]
  · have hfile := file?_addFile hnew hp
    have hlive (t : Path) (ht : (ws.file? t).isSome = true) :
        ((ws.addFile p).2.file? t).isSome = true := by
      rw [hfile]
      split
      · rfl
      · exact ht
    have hcached (t : Path) : (ws.addFile p).2.Cached c t ↔ ws.Cached c t := by
      rw [Cached, (ws.records_addFile p).2, Cached]
    cases hs : p.same c with
    | false =>
      refine h.stays hl' id ?_ (fun _ => .inl rfl) (fun _ _ => id) hlive hcached
      rw [hfile, hs, Option.map_id]
      rfl
    | true =>
      have hnone : ws.file? c = none := by rw [← ws.file?_congr hs, hp]
      have hempty : new.outgoing = .empty := by
        obtain ⟨l, -, type, rfl⟩ := newFile?_cases hnew
        rfl
      refine ⟨fun t ht => ?_, fun g hg _ => .inr fun t ht => ?_⟩
      · obtain ⟨⟨f, hf, -⟩, -⟩ := h.live t ((hcached t).1 ht)
        simp [hnone] at hf
      · rw [hfile, hs] at hg
        obtain rfl := Option.some.inj hg
        simp [hempty] at ht

/-- A deletion forgets the calls of the deleted file and those that call it. -/
theorem CacheFollows.deleteFile (p : Path) (hl' : (ws.deleteFile p).2.Linked) :
    (ws.deleteFile p).2.CacheFollows c := by
  cases hp : ws.file? p with
  | none =>
    simp only [Workspace.deleteFile, hp]
    exact h
  | some f =>
    have hfile := file?_deleteFile hp c
    cases hs : p.same c with
    | true =>
      rw [hs] at hfile
      refine ⟨fun t ht => ?_, fun g hg => ?_⟩
      · simp [cached_deleteFile ha hp, hs] at ht
      · simp [hfile] at hg
    | false =>
      rw [hs] at hfile
      refine h.mono hl' _ hfile (fun g => ?_) (fun g t ht => ?_) fun t => ?_
      · rw [state_released]
        split
        · exact .inr rfl
        · exact .inl rfl
      · exact contains_of_outgoing_released ht
      · rw [cached_deleteFile ha hp, file?_deleteFile hp t]
        cases ht : p.same t with
        | true => simp
        | false =>
          simp only [hs, true_and, and_true, Bool.false_eq_true, if_false, Option.isSome_map]
          exact ⟨fun hold => ⟨hold, (h.live t hold).2.1⟩, And.left⟩

/-- Moves keep the cache following a file. -/
theorem CacheFollows.move (hm : Move sources ws ws') : ws'.CacheFollows c := by
  have hl' := (ha.move hm).linked
  cases hm with
  | parse f hf find => exact h.install ha hf _ _ hl'
  | name f s hf hs => exact h.registerScannedName f s hl'
  | scan f s hf hs => exact h.registerScan ha hf hs hl'
  | edit q e => exact h.edit q e hl'
  | add p => exact h.addFile p hl'
  | take name => exact ⟨h.live, h.complete⟩
  | delete p => exact h.deleteFile ha p hl'

end Moves

/-- The cache follows every file of every workspace that arises from moves. -/
theorem Arises.cacheFollows (ha : Arises ws) (c : Path) : ws.CacheFollows c := by
  induction ha with
  | fresh => exact ⟨fun t ht => by simp [Cached] at ht, fun f hf => by simp at hf⟩
  | move ha hm ih => exact ih.move ha hm

/-! ### References to a file -/

section References

variable (ha : Arises ws) (hp : ws.file? p = some target)

include ha

/-- A live file without a module has never been parsed or was closed. -/
theorem Arises.state_of_no_module (hf : ws.file? c = some f) (hnone : f.state.module? = none) :
    f.state = .unparsed ∨ f.state = .closed := by
  have hdeleted := (ha.settled c f hf).1
  cases hs : f.state <;> simp_all [ModuleState.module?]

include hp

/-- What is reported of a file is provisional exactly when the file has no module. -/
theorem Arises.provisional_iff {r : Reference} (hr : r ∈ ws.references p) :
    ∃ f, ws.file? r.file = some f ∧ (r.provisional = true ↔ f.state.module? = none) := by
  have hreports : ws.Reports p r.file r.span r.provisional :=
    ⟨r, hr, Path.same_refl _, rfl, rfl⟩
  cases hprovisional : r.provisional with
  | false =>
    rw [hprovisional, ha.linked.reports_parsed_iff hp] at hreports
    obtain ⟨m, ⟨f, hf, -, hm⟩, -⟩ := hreports
    exact ⟨f, hf, by simp [hm]⟩
  | true =>
    rw [hprovisional, ha.linked.reports_scanned_iff hp] at hreports
    obtain ⟨⟨x, hx, hs, -⟩, -⟩ := hreports
    have hcached : ws.Cached r.file p := cached_iff_exists_mem.2 ⟨x, hx, hs⟩
    obtain ⟨⟨f, hf, hnone⟩, -⟩ := (ha.cacheFollows r.file).live p hcached
    exact ⟨f, hf, by simp [hnone]⟩

end References

/-- Every cached position lies in a live file without a module and calls another live file. The
references to a live file are strictly increasing and lie in live files, they are provisional
exactly if their file has no module, and so no file contributes both kinds. -/
theorem Reachable.provisional_references (h : Reachable ws) :
    (∀ called, ∀ x ∈ ws.cache.positions called,
      (∃ f, ws.file? x.file = some f ∧ (f.state = .unparsed ∨ f.state = .closed)) ∧
        (ws.file? called).isSome = true ∧ x.file.same called = false) ∧
    ∀ p target, ws.file? p = some target →
      (ws.references p).Pairwise (fun r s => compare r s = .lt) ∧
      (∀ r ∈ ws.references p, ∃ f, ws.file? r.file = some f ∧
        (r.provisional = true ↔ f.state.module? = none)) ∧
      ∀ r ∈ ws.references p, ∀ s ∈ ws.references p, r.file.same s.file = true →
        r.provisional = s.provisional := by
  have ha := h.arises
  refine ⟨fun called x hx => ?_, fun p target hp => ⟨ws.pairwise_references p,
    fun r hr => ha.provisional_iff hp hr, fun r hr s hs hsame => ?_⟩⟩
  · obtain ⟨⟨f, hf, hnone⟩, hrest⟩ := (ha.cacheFollows x.file).live called (cached_of_mem hx)
    exact ⟨⟨f, hf, ha.state_of_no_module hf hnone⟩, hrest⟩
  · obtain ⟨f, hf, hrf⟩ := ha.provisional_iff hp hr
    obtain ⟨g, hg, hsg⟩ := ha.provisional_iff hp hs
    obtain rfl := Option.some.inj (hf.symm.trans ((ws.file?_congr hsame).trans hg))
    exact Bool.eq_iff_iff.2 (hrf.trans hsg.symm)

end Workspace

/-- The program and the subroutine call the nearer subprogram `N`. The program was opened, the
subroutine was only scanned. -/
def Sample.mixed : Workspace :=
  after [.createFile near, .createFile program, .createFile subroutine, .openFile program]

namespace Workspace

/-- The subprogram has references of either kind, a parsed one in the program and a provisional one
in the subroutine. -/
theorem Reachable.provisional_references_sample :
    Reachable Sample.mixed ∧ ∃ target, Sample.mixed.file? Sample.near = some target ∧
      (∃ span, Sample.mixed.Reports Sample.near Sample.program span false) ∧
      (∃ span, Sample.mixed.Reports Sample.near Sample.subroutine span true) ∧
      ∀ r ∈ Sample.mixed.references Sample.near, ∃ f, Sample.mixed.file? r.file = some f ∧
        (r.provisional = true ↔ f.state.module? = none) := by
  have hreachable : Reachable Sample.mixed := Sample.reachable_after _
  have hl := hreachable.arises.linked
  obtain ⟨target, hp, hname⟩ := (Option.any_eq_true _ _).1
    (by decide +kernel : (Sample.mixed.file? Sample.near).any (·.name == "N") = true)
  obtain ⟨f, hf, h⟩ := (Option.any_eq_true _ _).1
    (by decide +kernel : (Sample.mixed.file? Sample.program).any (fun f =>
      f.outgoing.contains Sample.near && f.state.module?.any (·.references.contains "N")) = true)
  simp only [Bool.and_eq_true, Option.any_eq_true, List.contains_iff_mem] at h
  obtain ⟨hedge, m, hm, hmem⟩ := h
  have hrefers : ∃ span, m.RefersAt target.name span :=
    Module.exists_refersAt_iff.2 ⟨"N", hmem, by rw [beq_iff_eq.1 hname]; rfl⟩
  obtain ⟨x, hx, hs⟩ := List.any_eq_true.1
    (by decide +kernel : (Sample.mixed.cache.positions Sample.near).any
      (·.file.same Sample.subroutine) = true)
  have hunparsed : (Sample.mixed.file? Sample.subroutine).all (·.state.module? == none) = true := by
    decide +kernel
  refine ⟨hreachable, target, hp, hrefers.imp fun span hspan => ?_, ⟨⟨x.position, x.position⟩, ?_⟩,
    ((provisional_references hreachable).2 _ target hp).2.1⟩
  · exact (hl.reports_parsed_iff hp).2 ⟨m, ⟨f, hf, hedge, hm⟩, hspan⟩
  · refine (hl.reports_scanned_iff hp).2 ⟨⟨x, hx, hs, rfl⟩, ?_⟩
    rintro m ⟨g, hg, -, hm⟩
    simp [hg, hm] at hunparsed

end Workspace

end Steplib
