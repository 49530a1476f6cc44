import Steplib.Proofs.Module.Occurrences
import Steplib.Proofs.Parse.Closure
import Steplib.Proofs.Workspace.Edges
import Steplib.Proofs.Workspace.Records

/-!
# What is on record of a parsed file

A parse resolves the names of a file twice: while it looks up the modules for its diagnostics, with
other files parsed on the way, and again when it records the edges and waits of the file. Both give
the same answers, since parses leave the names alone. So right after its parse the edges, the waits,
the diagnostics and the cached positions of a file all follow from how its names resolve, also when
its callers have been parsed once more after it.

## Main definitions

* `Workspace.Agrees`: the records of a file follow from how the names of its module resolve.
* `Operation.parsed?`: the file that an operation of the editor parses.

## Main results

* `Workspace.Finds.foundModule_eq_none_iff`: a name is found missing exactly when it does not
  resolve.
* `Workspace.Reachable.parse_agrees`: the records agree after a file has been opened, changed or
  saved.
-/

namespace Steplib

namespace Workspace

variable {sources : Sources} {ws ws₁ ws' : Workspace} {f g : ModuleFile} {p q : Path}
  {busy log : List Path} {library name : String} {names : List String}
  {found : List (String × Option Module)} {m : Module}

/-! ### Both resolutions give the same answer -/

theorem foundModule_cons (other : String) (r : Option Module)
    (found : List (String × Option Module)) (name : String) :
    foundModule ((other, r) :: found) name =
      if name = other then r else foundModule found name := by
  unfold foundModule
  rw [List.lookup_cons]
  by_cases h : name = other
  · simp [h]
  · simp [h, beq_false_of_ne h]

/-- A name is found missing exactly when it does not resolve. -/
theorem Finds.foundModule_eq_none_iff
    (run : Finds sources busy library names ws found ws' log) (hn : ws.Named)
    (hname : name ∈ names) :
    foundModule found name = none ↔ ws.resolve? library name = none := by
  induction run with
  | nil => simp at hname
  | missing hl rest ih =>
    rw [foundModule_cons]
    split
    · subst name
      simp [hn.lookUp_eq_missing_iff.1 hl]
    · rename_i hne
      exact ih hn ((List.mem_cons.1 hname).resolve_left hne)
  | known hl rest ih =>
    rw [foundModule_cons]
    split
    · subst name
      simp [← hn.lookUp_eq_missing_iff, hl]
    · rename_i hne
      exact ih hn ((List.mem_cons.1 hname).resolve_left hne)
  | pending hl hb rest ih =>
    rw [foundModule_cons]
    split
    · subst name
      simp [← hn.lookUp_eq_missing_iff, hl]
    · rename_i hne
      exact ih hn ((List.mem_cons.1 hname).resolve_left hne)
  | @nested busy library other names ws inner ws₁ parsed found ws' log target hl hb run rest ihRun
      ihRest =>
    have hsettled := run.skeleton_settle target
    rw [foundModule_cons]
    split
    · subst name
      simp [← hn.lookUp_eq_missing_iff, hl]
    · rename_i hne
      rw [ihRest (hn.of_skeleton hsettled) ((List.mem_cons.1 hname).resolve_left hne),
        resolve?_eq_of_skeleton hsettled]

/-! ### What a run does to the records -/

theorem waiting_settle (sources : Sources) (f : ModuleFile) (ws : Workspace)
    (found : List (String × Option Module)) :
    (settle sources f ws found).waiting = ws.waiting.replace f.path
      (ws.unresolved f.library (builtModule sources f ws found).references) :=
  waiting_install ..

theorem cache_settle (sources : Sources) (f : ModuleFile) (ws : Workspace)
    (found : List (String × Option Module)) :
    (settle sources f ws found).cache = (ws.cache.evict f.path).1 :=
  cache_install ..

theorem Finds.mirrored (run : Finds sources busy library names ws found ws' log)
    (hw : ws.waiting.Mirrored) : ws'.waiting.Mirrored := by
  refine run.invariant (P := fun ws => ws.waiting.Mirrored) (fun f ws found _ h => ?_) hw
  rw [waiting_settle]
  exact h.replace _ _

/-- A file that a run does not parse waits for the same names afterwards. -/
theorem Finds.waits_of_not_mem (run : Finds sources busy library names ws found ws' log)
    (hw : ws.waiting.Mirrored) (hq : ∀ r ∈ log, r.same q = false) (name : String) :
    ws'.waiting.Waits q name ↔ ws.waiting.Waits q name := by
  refine (run.invariant (P := fun ws₁ => ws₁.waiting.Mirrored ∧
    (ws₁.waiting.Waits q name ↔ ws.waiting.Waits q name)) ?_ ⟨hw, Iff.rfl⟩).2
  intro f ws₁ found hf h
  rw [waiting_settle]
  refine ⟨h.1.replace _ _, ?_⟩
  rw [WaitingIndex.waits_replace h.1, hq f.path hf]
  exact h.2

theorem Finds.truthful (run : Finds sources busy library names ws found ws' log)
    (hc : ws.cache.Truthful) : ws'.cache.Truthful := by
  refine run.invariant (P := fun ws => ws.cache.Truthful) (fun f ws found _ h => ?_) hc
  rw [cache_settle]
  exact h.evict f.path

/-- A run adds nothing to the cache. -/
theorem Finds.freeOf (run : Finds sources busy library names ws found ws' log)
    (hc : ws.cache.Truthful) (hq : ws.cache.FreeOf q) : ws'.cache.FreeOf q := by
  refine (run.invariant (P := fun ws => ws.cache.Truthful ∧ ws.cache.FreeOf q) ?_ ⟨hc, hq⟩).2
  intro f ws found _ h
  rw [cache_settle]
  exact ⟨h.1.evict f.path, h.2.evict h.1 f.path⟩

/-! ### What a parse writes down -/

/-- The workspace has on record of the file what its parse from a text has written down. -/
structure Recorded (ws : Workspace) (f : ModuleFile) (text : String) : Prop where
  live : ws.Live f
  state : f.state = .parsed (.ofTokens f.identity (tokenize text))
  outgoing : f.outgoing = ws.targets f (Module.ofTokens f.identity (tokenize text)).references
  waits : ∀ name, ws.waiting.Waits f.path name ↔ name ∈ (ws.unresolved f.library
    (Module.ofTokens f.identity (tokenize text)).references).map Ascii.upper
  diagnostics : ∃ find, f.diagnostics.ofTool .parser =
      (parseTokens f.identity (tokenize text) find).2 ∧
    ∀ name ∈ (Module.ofTokens f.identity (tokenize text)).references,
      find name = none ↔ ws.resolve? f.library name = none
  free : ws.cache.FreeOf f.path

/-- A parse writes down what the text of the file says. What other tools have reported is kept. -/
theorem Parses.recorded (run : Parses sources [] f ws m ws' log) (hk : ws.Keyed) (hn : ws.Named)
    (hw : ws.waiting.Mirrored) (hc : ws.cache.Truthful) (hf : ws.Live f) {text : String}
    (hs : f.source sources = .ok text) (hfault : ws.faults.of? f.name = none) :
    ∃ g, g.bare = f.bare ∧ ws'.Recorded g text ∧ ∀ tool, tool ≠ .parser →
      g.diagnostics.ofTool tool = f.diagnostics.ofTool tool := by
  cases run with
  | @intro found ws₁ parsed run =>
    have hf₀ : ws.file? f.path = some f := hf
    obtain ⟨f₁, g, hf₁, hg, hb, hstate, hout, hds⟩ := run.file?_settle hk hf
    -- the run has left the file alone: it was busy
    have hown := run.own_of_busy (q := f.path) hk (by simp)
    rw [hf₁, hf₀] at hown
    have hkept : f₁.diagnostics = f.diagnostics := by
      have h := congrArg (Option.map ModuleFile.diagnostics) hown
      exact Option.some.inj h
    have hfaults : ws₁.faults = ws.faults := faults_eq_of_skeleton run.skeleton
    have hid : g.identity = f.identity := ModuleFile.identity_eq_of_bare hb
    have hpath : g.path = f.path := ModuleFile.path_eq_of_bare hb
    have hlibrary : g.library = f.library := ModuleFile.library_eq_of_bare hb
    have houtcome : f.outcome sources ws₁.faults (foundModule found) =
        parseTokens f.identity (tokenize text) (foundModule found) := by
      rw [hfaults]
      exact ModuleFile.outcome_of_ok hs hfault _
    have hbuilt : builtModule sources f ws₁ found = .ofTokens g.identity (tokenize text) := by
      rw [builtModule, houtcome, hid]
      rfl
    have hskeleton : (settle sources f ws₁ found).skeleton = ws₁.skeleton :=
      skeleton_settle ..
    refine ⟨g, hb, ⟨?_, ?_, ?_, ?_, ?_, ?_⟩, ?_⟩
    · rw [Live, hpath]
      exact hg
    · rw [hstate, hbuilt]
    · rw [hout, hbuilt, targets_eq_of_skeleton hskeleton hb]
    · intro name
      rw [waiting_settle, hpath, WaitingIndex.waits_replace (run.mirrored hw), Path.same_refl,
        if_pos rfl, hbuilt, hlibrary, unresolved_eq_of_skeleton hskeleton]
    · refine ⟨foundModule found, ?_, fun name hname => ?_⟩
      · rw [hds, Partition.ofTool_replace, if_pos rfl, houtcome, hid]
      · have hlookup : name ∈ f.lookups sources ws.faults := by
          rw [ModuleFile.lookups_of_ok hs hfault, ← hid]
          exact List.mem_eraseDups.2 hname
        rw [run.foundModule_eq_none_iff hn hlookup, hlibrary, resolve?_eq_of_skeleton hskeleton,
          resolve?_eq_of_skeleton run.skeleton]
    · rw [cache_settle, hpath]
      exact ReferenceCache.freeOf_evict (run.truthful hc) f.path
    · intro tool htool
      rw [hds, Partition.ofTool_replace, if_neg htool, hkept]

/-! ### Parses of other files -/

section Others

variable (run : Parses sources busy g ws m ws' log)

include run

/-- A file with a module waits for the same names after another file was parsed. -/
theorem Parses.waits_of_hasModule (hk : ws.Keyed) (hw : ws.waiting.Mirrored)
    (hq : ws.HasModule q) (hother : g.path.same q = false) (name : String) :
    ws'.waiting.Waits q name ↔ ws.waiting.Waits q name := by
  cases run with
  | intro run =>
    rw [waiting_settle, WaitingIndex.waits_replace (run.mirrored hw), hother]
    exact run.waits_of_not_mem hw (run.other_of_hasModule hk hq) name

/-- A parse adds nothing to the cache. -/
theorem Parses.freeOf (hc : ws.cache.Truthful) (hq : ws.cache.FreeOf q) : ws'.cache.FreeOf q := by
  cases run with
  | intro run =>
    rw [cache_settle]
    exact (run.freeOf hc hq).evict (run.truthful hc) _

/-- What is on record of a parsed file stays on record when another file is parsed. -/
theorem Recorded.parse_other {text : String} (h : ws.Recorded f text) (hk : ws.Keyed)
    (hw : ws.waiting.Mirrored) (hc : ws.cache.Truthful) (hg : ws.Live g)
    (hother : g.path.same f.path = false) :
    ∃ incoming, ws'.Recorded { f with incoming } text := by
  have hf : ws.file? f.path = some f := h.live
  have hm : ws.HasModule f.path := ⟨f, _, hf, by rw [h.state]; rfl⟩
  have hown := run.own_of_hasModule hk hg hm hother
  rw [hf] at hown
  obtain ⟨f', hf', ho⟩ := Option.map_eq_some_iff.1 hown
  obtain ⟨find, hds, hfind⟩ := h.diagnostics
  have hskeleton := run.skeleton
  refine ⟨f'.incoming, ?_, h.state, ?_, fun name => ?_, ⟨find, hds, fun name hname => ?_⟩, ?_⟩
  · have hpath : f'.path = f.path := congrArg (·.path) ho
    rw [← ModuleFile.eq_of_own ho, Live, hpath]
    exact hf'
  · rw [targets_eq_of_skeleton hskeleton rfl]
    exact h.outgoing
  · rw [run.waits_of_hasModule hk hw hm hother, unresolved_eq_of_skeleton hskeleton]
    exact h.waits name
  · rw [resolve?_eq_of_skeleton hskeleton]
    exact hfind name hname
  · exact run.freeOf hc h.free

end Others

/-! ### The records agree -/

/-- The records of a file follow from how the names of its module resolve. -/
structure Agrees (ws : Workspace) (f : ModuleFile) (m : Module) : Prop where
  /-- A name that stands for the file itself makes no edge and no wait. -/
  self : ∀ name ∈ m.references, ∀ holder, ws.resolve? f.library name = some holder →
    holder.path.same f.path = true →
      f.outgoing.contains holder.path = false ∧
        (ws.waiting.waiting name).any (·.same f.path) = false
  /-- A name that stands for another file makes an edge, recorded at both files, and no wait. -/
  other : ∀ name ∈ m.references, ∀ holder, ws.resolve? f.library name = some holder →
    holder.path.same f.path = false →
      f.outgoing.contains holder.path = true ∧
        (∃ g, ws.file? holder.path = some g ∧ g.incoming.contains f.path = true) ∧
        (ws.waiting.waiting name).any (·.same f.path) = false
  /-- The file waits for a name that stands for nothing, and each reference to it is reported
  exactly once. -/
  nothing : ∀ name ∈ m.references, ws.resolve? f.library name = none →
    (ws.waiting.waiting name).any (·.same f.path) = true ∧
      ∀ span, (name, span) ∈ m.occurrences →
        (f.diagnostics.ofTool .parser).countP (fun d => d.isMissing && d.span == span) = 1
  /-- There are no other edges. -/
  outgoing : ∀ p, f.outgoing.contains p = true → ∃ name ∈ m.references, ∃ holder,
    ws.resolve? f.library name = some holder ∧ holder.path.same f.path = false ∧
      holder.path.same p = true
  /-- There are no other waits, from the side of the file and from the side of the names. -/
  waits : ∀ name, name ∈ ws.waiting.namesOf f.path ∨
      (ws.waiting.waiting name).any (·.same f.path) = true →
    Ascii.upper name ∈ m.references ∧ ws.resolve? f.library name = none
  /-- There are no other reports of references that lead nowhere. -/
  reports : ∀ d ∈ f.diagnostics.ofTool .parser, d.isMissing = true →
    d.file = f.path ∧ ∃ name, (name, d.span) ∈ m.occurrences ∧ ws.resolve? f.library name = none
  /-- Nothing in the file counts as known from scans only. -/
  uncached : ∀ called, ∀ c ∈ ws.cache.positions called, c.file.same f.path = false

theorem resolve?_upper (ws : Workspace) (library name : String) :
    ws.resolve? library (Ascii.upper name) = ws.resolve? library name := by
  simp only [resolve?, Library.module?, Ascii.upper_upper]

/-- The file waits for the names of its module that stand for nothing. -/
theorem Recorded.waits_iff {text : String} (h : ws.Recorded f text) :
    ws.waiting.Waits f.path name ↔
      name ∈ (Module.ofTokens f.identity (tokenize text)).references ∧
        ws.resolve? f.library name = none := by
  rw [h.waits name, unresolved]
  constructor
  · intro hname
    obtain ⟨n, hn, rfl⟩ := List.mem_map.1 hname
    obtain ⟨hmem, hnone⟩ := List.mem_filter.1 hn
    rw [Module.upper_of_mem_references _ hmem]
    exact ⟨hmem, by simpa using hnone⟩
  · rintro ⟨hmem, hnone⟩
    refine List.mem_map.2 ⟨name, List.mem_filter.2 ⟨hmem, by simp [hnone]⟩, ?_⟩
    exact Module.upper_of_mem_references _ hmem

/-- What a parse has written down agrees with how the names resolve. -/
theorem Recorded.agrees {text : String} (h : ws.Recorded f text) (hl : ws.Linked)
    (hw : ws.waiting.Mirrored) : ws.Agrees f (.ofTokens f.identity (tokenize text)) := by
  have hf : ws.file? f.path = some f := h.live
  obtain ⟨find, hds, hfind⟩ := h.diagnostics
  -- nobody waits for a name that stands for a file
  have hresolved {name : String} {holder : Holder}
      (hname : name ∈ (Module.ofTokens f.identity (tokenize text)).references)
      (hr : ws.resolve? f.library name = some holder) :
      (ws.waiting.waiting name).any (·.same f.path) = false := by
    by_contra hwaits
    rw [Bool.not_eq_false, WaitingIndex.any_waiting_iff, Module.upper_of_mem_references _ hname,
      h.waits_iff, hr] at hwaits
    simp at hwaits
  have hreference {name : String} {span : Span}
      (ho : (name, span) ∈ (Module.ofTokens f.identity (tokenize text)).occurrences) :
      name ∈ (Module.ofTokens f.identity (tokenize text)).references := by
    rw [Module.references_eq]
    exact List.mem_map_of_mem ho
  refine ⟨?_, ?_, ?_, ?_, ?_, ?_, h.free⟩
  · intro name hname holder hr hs
    refine ⟨?_, hresolved hname hr⟩
    have hself := hl.irreflexive f.path
    rw [Workspace.calls_iff hf] at hself
    rw [PathSet.contains_congr _ hs]
    simpa using hself
  · intro name hname holder hr hother
    have hout : f.outgoing.contains holder.path = true := by
      rw [h.outgoing]
      exact contains_targets_iff.2 ⟨name, hname, holder, hr, hother, Path.same_refl _⟩
    exact ⟨hout, (hl.symmetric _ _).1 ⟨f, hf, hout⟩, hresolved hname hr⟩
  · intro name hname hnone
    refine ⟨?_, fun span ho => ?_⟩
    · rw [WaitingIndex.any_waiting_iff, Module.upper_of_mem_references _ hname]
      exact h.waits_iff.2 ⟨hname, hnone⟩
    · rw [hds]
      exact countP_isMissing_parseTokens _ text find ho ((hfind name hname).2 hnone)
  · intro p hp
    rw [h.outgoing] at hp
    exact contains_targets_iff.1 hp
  · intro name hname
    have hwaits : ws.waiting.Waits f.path (Ascii.upper name) := by
      rcases hname with hname | hname
      · have hwaits := (hw f.path name).2 hname
        rwa [Module.upper_of_mem_references _ (h.waits_iff.1 hwaits).1]
      · exact WaitingIndex.any_waiting_iff.1 hname
    rw [← ws.resolve?_upper]
    exact h.waits_iff.1 hwaits
  · intro d hd hm
    rw [hds] at hd
    obtain ⟨hfile, name, ho, hnone⟩ := exists_occurrence_of_isMissing _ _ find hd hm
    exact ⟨hfile, name, ho, (hfind name (hreference ho)).1 hnone⟩

/-! ### After an operation of the editor -/

section Arises

variable (ha : Arises ws) {text : String}

include ha

theorem Arises.recorded_parse (hf : ws.Live f) (hs : f.source sources = .ok text)
    (hfault : ws.faults.of? f.name = none) :
    ∃ g, g.bare = f.bare ∧ (ws.parse sources f).2.Recorded g text ∧ ∀ tool, tool ≠ .parser →
      g.diagnostics.ofTool tool = f.diagnostics.ofTool tool := by
  obtain ⟨log, run⟩ := parses_parse sources ha.keyed f
  exact run.recorded ha.keyed ha.named ha.mirrored ha.truthful hf hs hfault

/-- What is on record of a parsed file stays on record when other files are parsed. -/
theorem Arises.recorded_parseAll (sources : Sources) (h : ws.Recorded f text) {paths : List Path}
    (hpaths : ∀ p ∈ paths, p.same f.path = false) :
    ∃ incoming, (ws.parseAll sources paths).2.Recorded { f with incoming } text := by
  induction paths generalizing ws f with
  | nil => exact ⟨f.incoming, h⟩
  | cons p paths ih =>
    obtain ⟨hp, hpaths⟩ := List.forall_mem_cons.1 hpaths
    rw [parseAll]
    cases hc : ws.file? p with
    | none => exact ih ha h hpaths
    | some caller =>
      have hcaller : ws.Live caller := ha.keyed.live hc
      have hother : caller.path.same f.path = false := by
        rw [Path.same_congr_left (ha.keyed p caller hc), hp]
      obtain ⟨log, run⟩ := parses_parse sources ha.keyed caller
      obtain ⟨incoming, hrecorded⟩ :=
        h.parse_other run ha.keyed ha.mirrored ha.truthful hcaller hother
      have hrest := ih (ha.moves (run.moves ha.keyed hcaller)) hrecorded hpaths
      exact hrest

/-- What a parse has written down is still on record when the callers have been parsed after it. -/
theorem Arises.recorded_reparse (hf : ws.Live f) (hs : f.source sources = .ok text)
    (hfault : ws.faults.of? f.name = none) (strategy : ParseStrategy) :
    ∃ g, g.bare = f.bare ∧ (ws.reparse sources f strategy).2.Recorded g text ∧
      ∀ tool, tool ≠ .parser → g.diagnostics.ofTool tool = f.diagnostics.ofTool tool := by
  obtain ⟨g, hb, hrecorded, htools⟩ := ha.recorded_parse hf hs hfault
  rw [reparse]
  dsimp only
  split
  · have ha₁ := ha.moves (moves_parse sources ha.keyed hf)
    have hpath : g.path = f.path := ModuleFile.path_eq_of_bare hb
    have hg : (ws.parse sources f).2.file? f.path = some g := by
      rw [← hpath]
      exact hrecorded.live
    have hcallers : ∀ p ∈ g.incoming.toList, p.same g.path = false := fun p hp => by
      by_contra hs
      have hcalled := (ha₁.linked.symmetric p f.path).2 ⟨g, hg, PathSet.contains_of_mem hp⟩
      rw [Calls.congr_left (by simpa using hs), hpath] at hcalled
      exact ha₁.linked.irreflexive f.path hcalled
    obtain ⟨incoming, hafter⟩ := ha₁.recorded_parseAll sources hrecorded hcallers
    refine ⟨{ g with incoming }, hb, ?_, htools⟩
    simp only [reparseCallers, hg]
    exact hafter
  · exact ⟨g, hb, hrecorded, htools⟩

theorem Arises.recorded_setOverlay {overlay : Option String} (hp : ws.file? p = some f)
    (hs : { f with overlay }.source sources = .ok text) (hfault : ws.faults.of? f.name = none)
    (strategy : ParseStrategy) :
    ∃ g, g.bare = { f with overlay }.bare ∧
      (ws.setOverlay sources p overlay strategy).2.Recorded g text ∧
      ∀ tool, tool ≠ .parser → g.diagnostics.ofTool tool = f.diagnostics.ofTool tool := by
  have hedit : Move sources ws (ws.modifyFile p (Edit.overlay overlay).apply) := .edit ..
  have h := (ha.move hedit).recorded_reparse (ha.keyed.live_overlay hp overlay) hs hfault strategy
  simp only [setOverlay, hp]
  exact h

end Arises

end Workspace

/-- The file that an operation of the editor parses, with the unsaved text that it has then. A file
with a current module is not parsed when it is opened. -/
def Operation.parsed? (ws : Workspace) : Operation → Option ModuleFile
  | openFile p =>
    (ws.file? p).bind fun f =>
      match f.state with
      | .parsed _ => none
      | _ => some f
  | change p source _ => (ws.file? p).map fun f => { f with overlay := some source }
  | save p _ => (ws.file? p).map fun f => { f with overlay := none }
  | _ => none

namespace Workspace

variable {sources : Sources} {ws : Workspace} {f : ModuleFile} {text : String}

/-- After an operation of the editor has parsed a file, what was written down is on record. -/
theorem Arises.recorded_run (ha : Arises ws) {op : Operation} (hop : op.parsed? ws = some f)
    (hs : f.source sources = .ok text) (hfault : ws.faults.of? f.name = none) :
    ∃ g, g.bare = f.bare ∧ (op.run sources ws).Recorded g text ∧
      ∀ tool, tool ≠ .parser → g.diagnostics.ofTool tool = f.diagnostics.ofTool tool := by
  cases op with
  | openFile p =>
    obtain ⟨f', hp, hf⟩ := Option.bind_eq_some_iff.1 hop
    obtain ⟨hopen, rfl⟩ : (ws.openFile sources p).2 = (ws.parse sources f').2 ∧ f' = f := by
      have hdeleted := (ha.settled p f' hp).1
      cases hstate : f'.state <;> simp_all [openFile]
    simp only [Operation.run, hopen]
    exact ha.recorded_parse (ha.keyed.live hp) hs hfault
  | change p source strategy =>
    obtain ⟨f', hp, rfl⟩ := Option.map_eq_some_iff.1 hop
    exact ha.recorded_setOverlay hp hs hfault strategy
  | save p strategy =>
    obtain ⟨f', hp, rfl⟩ := Option.map_eq_some_iff.1 hop
    exact ha.recorded_setOverlay hp hs hfault strategy
  | _ => simp [Operation.parsed?] at hop

/-- Right after a file has been opened, changed or saved, and so parsed from a text that it has, its
edges, its waits, its diagnostics and its cached positions agree with how the names of its new
module resolve. What other tools have reported of the file is kept. -/
theorem Reachable.parse_agrees (h : Reachable ws) {op : Operation}
    (hop : op.parsed? ws = some f) (hs : f.source sources = .ok text)
    (hfault : ws.faults.of? f.name = none) :
    ∃ g m, (op.run sources ws).file? f.path = some g ∧ g.state = .parsed m ∧
      m = .ofTokens f.identity (tokenize text) ∧ (op.run sources ws).Agrees g m ∧
      ∀ tool, tool ≠ .parser → g.diagnostics.ofTool tool = f.diagnostics.ofTool tool := by
  obtain ⟨g, hb, hrecorded, htools⟩ := h.arises.recorded_run hop hs hfault
  have hid : g.identity = f.identity := ModuleFile.identity_eq_of_bare hb
  have ha : Arises (op.run sources ws) := (h.run sources op).arises
  refine ⟨g, _, ?_, hrecorded.state, by rw [hid], hrecorded.agrees ha.linked ha.mirrored, htools⟩
  rw [← ModuleFile.path_eq_of_bare hb]
  exact hrecorded.live

/-- In the small project the records agree after the calling subprogram has been changed. -/
theorem Reachable.parse_agrees_sample :
    Reachable Sample.workspace ∧ ∃ f,
      (Operation.change Sample.caller "CALLNAT 'A' CALLNAT 'D'" .withCallers).parsed?
          Sample.workspace = some f ∧
        f.source Sample.texts = .ok "CALLNAT 'A' CALLNAT 'D'" ∧
        Sample.workspace.faults.of? f.name = none ∧
        ∃ g m, ((Operation.change Sample.caller "CALLNAT 'A' CALLNAT 'D'" .withCallers).run
            Sample.texts Sample.workspace).file? f.path = some g ∧
          ((Operation.change Sample.caller "CALLNAT 'A' CALLNAT 'D'" .withCallers).run
            Sample.texts Sample.workspace).Agrees g m := by
  obtain ⟨f, hf⟩ := Sample.exists_caller
  have hop : (Operation.change Sample.caller "CALLNAT 'A' CALLNAT 'D'" .withCallers).parsed?
      Sample.workspace = some { f with overlay := some "CALLNAT 'A' CALLNAT 'D'" } := by
    simp only [Operation.parsed?, hf, Option.map_some]
  have hfault : Sample.workspace.faults.of? f.name = none := by
    have hnone : Sample.workspace.faults.faults = [] := by decide +kernel
    rw [ParserFaults.of?, hnone]
    rfl
  have hs : { f with overlay := some "CALLNAT 'A' CALLNAT 'D'" }.source Sample.texts =
      .ok "CALLNAT 'A' CALLNAT 'D'" := rfl
  obtain ⟨g, m, hg, -, -, hagrees, -⟩ := parse_agrees Sample.reachable hop hs hfault
  exact ⟨Sample.reachable, _, hop, hs, hfault, g, m, hg, hagrees⟩

end Workspace

end Steplib
