import Mathlib.Algebra.GroupWithZero.Nat
import Steplib.Proofs.Workspace.Batch
import Steplib.Proofs.Workspace.Provisional

/-!
# The order in which scans are recorded

An indexing pass first registers all names and then records the scans of the files, in any order:
several workers share them. Recording a scan replaces the edges and waits of one file and adds its
positions to the cache, and what it writes follows from the names, which no scan changes any more.
What a list of scans leaves behind is therefore told by its members, and the number of edges is a
sum over them.

## Main definitions

* `Workspace.Concerns`: a scan is recorded for the file at a path.
* `Workspace.Overlaid`: what the scan of a file says, or what was said before if it has none.
* `Workspace.Registers`: what a list of scans leaves behind.

## Main results

* `Workspace.Arises.registers_registerScan`, `Workspace.Arises.registers_registerScans`: one scan
  and a list of them.
* `Workspace.Registers.sameGraph`: the order of the list does not matter.
* `Workspace.Reachable.registration_order`: what this says of an indexing pass.
-/

namespace Steplib

namespace Workspace

/-- A file with its scan. -/
abbrev Scanned := ModuleFile × Scan

/-- The names that a scan has found. -/
def Scanned.names (e : Scanned) : List String :=
  e.2.candidates.map (·.name)

/-- The scan is recorded for the file at the path: it is one of that file, which has no module. -/
def Concerns (e : Scanned) (p : Path) : Prop :=
  (e.1.state = .unparsed ∨ e.1.state = .closed) ∧ e.1.path.same p = true

/-- What the scan of the file at the path says, or what was said before if none is recorded for
it. -/
def Overlaid (scans : List Scanned) (p : Path) (now : Scanned → Prop) (before : Prop) : Prop :=
  (∃ e ∈ scans, Concerns e p ∧ now e) ∨ (∀ e ∈ scans, ¬ Concerns e p) ∧ before

/-- The scans have been recorded. Each of them replaces the edges and waits of its file and adds its
positions to the cache; a file with a position there is no longer marked as evicted. -/
structure Registers (sources : Sources) (scans : List Scanned) (ws ws' : Workspace) : Prop where
  skeleton : ws'.skeleton = ws.skeleton
  unlinked : ∀ q, (ws'.file? q).map unlinked = (ws.file? q).map unlinked
  calls : ∀ p q, ws'.Calls p q ↔
    Overlaid scans p (fun e => (ws.targets e.1 e.names).contains q = true) (ws.Calls p q)
  waits : ∀ p name, ws'.waiting.Waits p name ↔
    Overlaid scans p (fun e => name ∈ (ws.unresolved e.1.library e.names).map Ascii.upper)
      (ws.waiting.Waits p name)
  records : ∀ called x, ws'.cache.Records called x ↔
    ws.cache.Records called x ∨ ∃ e ∈ scans, Concerns e e.1.path ∧ ws.Cites sources e.1 called x
  marks : ∀ q, ws'.cache.evicted.contains q = true ↔
    ws.cache.evicted.contains q = true ∧ ∀ e ∈ scans, Concerns e q →
      ∀ c ∈ e.2.candidates, ws.destinations e.1.library e.1.path [c.name] = []

variable {sources : Sources} {ws ws₁ ws' : Workspace} {scans scans' : List Scanned} {e : Scanned}
  {p q : Path} {now : Scanned → Prop} {before : Prop}

/-! ### What scans say -/

theorem overlaid_nil : Overlaid [] p now before ↔ before := by
  simp [Overlaid]

/-- A single scan says what is said of its file, and nothing of other files. -/
theorem overlaid_singleton :
    Overlaid [e] p now before ↔ Concerns e p ∧ now e ∨ ¬ Concerns e p ∧ before := by
  simp [Overlaid]

/-- The scans of other files do not overrule the first scan. -/
theorem overlaid_cons (hother : ∀ d ∈ scans, e.1.path.same d.1.path = false) :
    Overlaid (e :: scans) p now before ↔ Overlaid scans p now (Overlaid [e] p now before) := by
  have hfirst : Concerns e p → ∀ d ∈ scans, ¬ Concerns d p := fun he d hd hconcerns => by
    have hs := hother d hd
    rw [Path.same_congr_left he.2, Path.same_comm, hconcerns.2] at hs
    simp at hs
  rw [overlaid_singleton]
  simp only [Overlaid, List.exists_mem_cons_iff, List.forall_mem_cons]
  by_cases he : Concerns e p
  · have hlater := hfirst he
    simp only [he, true_and, not_true_eq_false, false_and, or_false]
    rw [or_comm, and_iff_right hlater]
  · simp [he]

/-- What scans say does not depend on their order. -/
theorem overlaid_congr (hmem : ∀ e, e ∈ scans' ↔ e ∈ scans) :
    Overlaid scans' p now before ↔ Overlaid scans p now before := by
  simp only [Overlaid, hmem]

/-! ### One scan -/

/-- A file is no longer marked once its scan has led to another file. -/
theorem marks_cacheReferences (ws : Workspace) (f : ModuleFile) (candidates : List Candidate) :
    (ws.cacheReferences f candidates).evicted.contains q = true ↔
      ws.cache.evicted.contains q = true ∧ (f.path.same q = true →
        ∀ c ∈ candidates, ws.destinations f.library f.path [c.name] = []) := by
  have hadd (cache : ReferenceCache) (new : FilePosition) (paths : List Path) :
      (paths.foldl (fun cache r => cache.add r new) cache).evicted.contains q = true ↔
        cache.evicted.contains q = true ∧ (new.file.same q = true → paths = []) := by
    induction paths generalizing cache with
    | nil => simp
    | cons r paths ih =>
      rw [List.foldl_cons, ih, ReferenceCache.add, PathSet.contains_erase]
      cases new.file.same q <;> simp
  rw [cacheReferences]
  generalize ws.cache = cache
  induction candidates generalizing cache with
  | nil => simp
  | cons c candidates ih =>
    refine (ih _).trans ?_
    rw [hadd, and_assoc, ← imp_and]
    simp only [List.forall_mem_cons]

/-- The scan of a file with a module leaves everything as it was. -/
theorem registers_self (hstate : ¬ (e.1.state = .unparsed ∨ e.1.state = .closed)) :
    Registers sources [e] ws ws := by
  have hnot (p : Path) : ¬ Concerns e p := fun h => hstate h.1
  refine ⟨rfl, fun _ => rfl, fun p q => ?_, fun p name => ?_, fun called x => ?_, fun q => ?_⟩
  · simp [overlaid_singleton, hnot]
  · simp [overlaid_singleton, hnot]
  · simp [hnot]
  · simp [hnot]

/-- Recording one scan. -/
theorem Arises.registers_registerScan (ha : Arises ws)
    (hf : (ws.file? e.1.path).map Workspace.unlinked = some (Workspace.unlinked e.1))
    (hscan : e.1.scan? sources = some e.2) :
    Registers sources [e] ws (ws.registerScan e.1 e.2).1 := by
  by_cases hstate : e.1.state = .unparsed ∨ e.1.state = .closed
  swap
  · rw [registerScan_eq_self hstate]
    exact registers_self hstate
  have hconcerns (p : Path) : Concerns e p ↔ p.same e.1.path = true := by
    rw [Concerns, Path.same_comm]
    exact and_iff_right hstate
  refine ⟨skeleton_registerScan .., (move_registerScan ha.keyed hf hscan).2, fun p q => ?_,
    fun p name => ?_, fun called x => ?_, fun q => ?_⟩
  · -- at most the name and the edges of the file have changed since it was scanned
    obtain ⟨f, hlive, hb⟩ := Option.map_eq_some_iff.1 hf
    have hpath : f.path = e.1.path := congrArg (·.path) hb
    have hlibrary : f.library = e.1.library := congrArg (·.library) hb
    have hfstate : f.state = e.1.state := congrArg (·.state) hb
    have hrewired := rewired_registerScan (ha.keyed.live hlive) (hfstate ▸ hstate) e.2
    rw [← registerScan_congr ws hb, hrewired.calls_iff (ha.keyed.live hlive), overlaid_singleton,
      hconcerns, hpath]
    have htargets : ws.targets f (e.2.candidates.map (·.name)) = ws.targets e.1 e.names := by
      simp only [targets, hpath, hlibrary, Scanned.names]
    rw [htargets]
    cases p.same e.1.path <;> simp
  · have hwaiting : (ws.registerScan e.1 e.2).1.waiting =
        ws.waiting.replace e.1.path (ws.unresolved e.1.library e.names) := by
      rw [← waiting_setReferences]
      rcases hstate with h | h <;> simp only [registerScan, h, Scanned.names]
    rw [hwaiting, WaitingIndex.waits_replace ha.mirrored, overlaid_singleton, hconcerns,
      Path.same_comm]
    cases p.same e.1.path <;> simp
  · rw [records_registerScan hstate hscan]
    simp [hconcerns]
  · have hcache : (ws.registerScan e.1 e.2).1.cache = ws.cacheReferences e.1 e.2.candidates := by
      rcases hstate with h | h <;> simp [registerScan, h]
    rw [hcache, marks_cacheReferences]
    simp [hconcerns, Path.same_comm q]

/-! ### Many scans -/

theorem registers_nil (sources : Sources) (ws : Workspace) : Registers sources [] ws ws :=
  ⟨rfl, fun _ => rfl, fun _ _ => overlaid_nil.symm, fun _ _ => overlaid_nil.symm, by simp, by simp⟩

/-- The scans of other files are recorded after a first one. -/
theorem Registers.cons (h : Registers sources [e] ws ws₁) (h' : Registers sources scans ws₁ ws')
    (hother : ∀ d ∈ scans, e.1.path.same d.1.path = false) :
    Registers sources (e :: scans) ws ws' := by
  have htargets (d : Scanned) : ws₁.targets d.1 d.names = ws.targets d.1 d.names :=
    targets_eq_of_skeleton h.skeleton rfl _
  refine ⟨h'.skeleton.trans h.skeleton, fun q => (h'.unlinked q).trans (h.unlinked q),
    fun p q => ?_, fun p name => ?_, fun called x => ?_, fun q => ?_⟩
  · rw [h'.calls, overlaid_cons hother]
    simp only [htargets, h.calls]
  · rw [h'.waits, overlaid_cons hother]
    simp only [unresolved_eq_of_skeleton h.skeleton, h.waits]
  · rw [h'.records, h.records]
    simp only [cites_eq_of_skeleton h.skeleton, List.exists_mem_cons_iff, List.not_mem_nil,
      false_and, exists_false, or_false, or_assoc]
  · rw [h'.marks, h.marks]
    simp only [destinations_eq_of_skeleton h.skeleton, List.forall_mem_cons, List.not_mem_nil,
      false_imp_iff, implies_true, and_true, and_assoc]

/-- Recording the scans of different files, one after the other. -/
theorem Arises.registers_registerScans (ha : Arises ws)
    (hscans : ∀ e ∈ scans, (ws.file? e.1.path).map Workspace.unlinked =
      some (Workspace.unlinked e.1) ∧ e.1.scan? sources = some e.2)
    (hdistinct : scans.Pairwise fun a b => a.1.path.same b.1.path = false) :
    Registers sources scans ws (ws.registerScans scans).1 := by
  rw [registerScans_eq]
  induction scans generalizing ws with
  | nil => exact registers_nil sources ws
  | cons e scans ih =>
    obtain ⟨⟨hf, hscan⟩, hrest⟩ := List.forall_mem_cons.1 hscans
    obtain ⟨hother, hdistinct⟩ := List.pairwise_cons.1 hdistinct
    have hfirst := ha.registers_registerScan hf hscan
    refine hfirst.cons (ih (ha.move (move_registerScan ha.keyed hf hscan).1) (fun d hd => ?_)
      hdistinct) hother
    rw [hfirst.unlinked]
    exact hrest d hd

/-- What scans leave behind does not depend on their order. -/
theorem Registers.congr (h : Registers sources scans ws ws')
    (hmem : ∀ e, e ∈ scans' ↔ e ∈ scans) : Registers sources scans' ws ws' :=
  ⟨h.skeleton, h.unlinked, fun p q => (h.calls p q).trans (overlaid_congr hmem).symm,
    fun p name => (h.waits p name).trans (overlaid_congr hmem).symm,
    fun called x => by rw [h.records]; simp only [hmem],
    fun q => by rw [h.marks]; simp only [hmem]⟩

/-- The same scans leave the same graph behind. -/
theorem Registers.sameGraph (h : Registers sources scans ws ws₁) (ha : Arises ws₁)
    (h' : Registers sources scans ws ws') (ha' : Arises ws') : SameGraph ws₁ ws' := by
  have hskeleton : ws'.skeleton = ws₁.skeleton := h'.skeleton.trans h.skeleton.symm
  have hcalls (p q : Path) : ws'.Calls p q ↔ ws₁.Calls p q := by rw [h'.calls, h.calls]
  have hwaits (p : Path) (name : String) : ws'.waiting.Waits p name ↔ ws₁.waiting.Waits p name := by
    rw [h'.waits, h.waits]
  refine ⟨heads_eq_of_skeleton hskeleton, map_bare_file?_of_skeleton hskeleton,
    holder?_eq_of_skeleton hskeleton, hcalls, fun q p => ?_, hwaits, fun p name => ?_,
    fun called x => by rw [h'.records, h.records]⟩
  · rw [← ha'.linked.symmetric, ← ha.linked.symmetric, hcalls]
  · rw [← ha'.mirrored, ← ha.mirrored, hwaits]

/-! ### The number of edges -/

/-- How many files a scan leads to is told by the names. -/
theorem edges_registerScan_of_skeleton (h : ws'.skeleton = ws.skeleton) (e : Scanned) :
    (ws'.registerScan e.1 e.2).2 = (ws.registerScan e.1 e.2).2 := by
  simp only [registerScan, destinations_eq_of_skeleton h]
  cases e.1.state <;> rfl

/-- The edges of several scans are the sum of those of each. -/
theorem edges_registerScans (ws : Workspace) (scans : List Scanned) :
    (ws.registerScans scans).2 = (scans.map fun e => (ws.registerScan e.1 e.2).2).sum := by
  have hsum (ws' : Workspace) (h : ws'.skeleton = ws.skeleton) (edges : Nat) :
      (scans.foldl (fun acc e => ((acc.1.registerScan e.1 e.2).1,
        acc.2 + (acc.1.registerScan e.1 e.2).2)) (ws', edges)).2 =
          edges + (scans.map fun e => (ws.registerScan e.1 e.2).2).sum := by
    induction scans generalizing ws' edges with
    | nil => rfl
    | cons e scans ih =>
      rw [List.foldl_cons, ih _ ((skeleton_registerScan ws' e.1 e.2).trans h),
        edges_registerScan_of_skeleton h, List.map_cons, List.sum_cons, Nat.add_assoc]
  exact (hsum ws rfl 0).trans (Nat.zero_add _)

/-- Once the names of scanned files have been registered, the scans can be recorded in any order:
the edges, waits, cached positions and marks that they leave behind are the same, so is the number
of edges that they report, and nothing else is changed. Each file is read once, and `sources` gives
its text at that time. -/
theorem Reachable.registration_order (h : Reachable ws)
    (hscans : ∀ e ∈ scans, ws.Live e.1 ∧ e.1.scan? sources = some e.2)
    (hdistinct : scans.Pairwise fun a b => a.1.path.same b.1.path = false)
    (hperm : scans'.Perm scans) :
    let named := ws.registerNames scans
    SameGraph (named.registerScans scans).1 (named.registerScans scans').1 ∧
      (∀ q, ((named.registerScans scans').1.file? q).map unlinked =
        ((named.registerScans scans).1.file? q).map unlinked) ∧
      (∀ q, (named.registerScans scans').1.cache.evicted.contains q =
        (named.registerScans scans).1.cache.evicted.contains q) ∧
      (named.registerScans scans').2 = (named.registerScans scans).2 := by
  intro named
  obtain ⟨hmoves, hkept⟩ := moves_registerNames h.arises.keyed hscans hdistinct
  have ha : Arises named := h.arises.moves hmoves
  have hready : ∀ e ∈ scans, (named.file? e.1.path).map unlinked = some (unlinked e.1) ∧
      e.1.scan? sources = some e.2 := fun e he => by
    obtain ⟨hlive, hscan⟩ := hscans e he
    exact ⟨(hkept _).trans (congrArg (Option.map unlinked) hlive), hscan⟩
  have hready' : ∀ e ∈ scans', (named.file? e.1.path).map unlinked = some (unlinked e.1) ∧
      e.1.scan? sources = some e.2 := fun e he => hready e (hperm.subset he)
  have hdistinct' : scans'.Pairwise fun a b => a.1.path.same b.1.path = false :=
    (hperm.pairwise_iff fun hab => by rwa [Path.same_comm]).2 hdistinct
  have hfirst := ha.registers_registerScans hready hdistinct
  have hsecond := (ha.registers_registerScans hready' hdistinct').congr fun e => hperm.symm.mem_iff
  refine ⟨hfirst.sameGraph (ha.moves (readings_registerScans ha.keyed hready).moves) hsecond
    (ha.moves (readings_registerScans ha.keyed hready').moves), fun q => ?_, fun q => ?_, ?_⟩
  · rw [hsecond.unlinked, hfirst.unlinked]
  · rw [Bool.eq_iff_iff, hsecond.marks, hfirst.marks]
  · rw [edges_registerScans, edges_registerScans]
    exact (hperm.map _).sum_nat

/-- Two subprograms that call each other, scanned in both orders: both edges are found. -/
theorem Reachable.registration_order_sample :
    let scans := Sample.workspace.scans Sample.texts
    let named := Sample.workspace.registerNames scans
    Reachable Sample.workspace ∧ scans.map (·.1.path) = [Sample.caller, Sample.callee] ∧
      SameGraph (named.registerScans scans).1 (named.registerScans scans.reverse).1 ∧
      (named.registerScans scans.reverse).2 = 2 := by
  intro scans named
  have hk := Sample.reachable.arises.keyed
  have hlive : ∀ e ∈ scans, Sample.workspace.Live e.1 ∧ e.1.scan? Sample.texts = some e.2 :=
    fun e he => hk.live_of_mem_scans he
  obtain ⟨hgraph, -, -, hedges⟩ :=
    registration_order Sample.reachable hlive hk.pairwise_scans scans.reverse_perm
  have hcount : (named.registerScans scans).2 = 2 := by decide +kernel
  exact ⟨Sample.reachable, by decide +kernel, hgraph, hedges.trans hcount⟩

end Workspace

end Steplib
