import Steplib.Proofs.Parse.Renewal
import Steplib.Proofs.Workspace.Indexed

/-!
# Opening files in any order

Opening a file parses it and, on the way, the files without a module that it leads to. Which files
are parsed by opening several files depends on the files alone and not on the order: a file that is
reached is parsed by the one or by the other. What a parse renews a file to is settled beforehand,
so two orders end with the same modules, edges, waits, cached positions and diagnostics, apart from
those about undeclared variables.

## Main definitions

* `Workspace.openAll`: files are opened one after the other.
* `Workspace.Refers`: a file looks up a name that stands for another file.
* `Workspace.Reached`: opening some files parses the file at a path.
* `Workspace.SameOutcome`: two workspaces agree, apart from diagnostics about variables.

## Main results

* `Workspace.Arises.renews_openAll`: opening files renews exactly the files that are reached.
* `Workspace.Reachable.opening_order`: the order does not matter.
-/

namespace Steplib

namespace Workspace

/-- The workspace after the files at the paths have been opened, one after the other. -/
def openAll (sources : Sources) (ws : Workspace) (paths : List Path) : Workspace :=
  paths.foldl (fun ws p => (ws.openFile sources p).2) ws

/-- The parse of the file at `p` looks up a name that stands for the file at `q`. -/
def Refers (sources : Sources) (ws : Workspace) (p q : Path) : Prop :=
  ∃ f name holder, ws.file? p = some f ∧ name ∈ f.lookups sources ws.faults ∧
    ws.resolve? f.library name = some holder ∧ holder.path.same q = true

/-- Opening the files at the paths parses the file at a path: it is opened itself and has no current
module, or it has no module and a file that is parsed refers to it. -/
inductive Reached (sources : Sources) (ws : Workspace) (paths : List Path) : Path → Prop
  | opened {p q f} (hp : p ∈ paths) (hs : p.same q = true) (hf : ws.file? q = some f)
      (hstate : ∀ m, f.state ≠ .parsed m) : Reached sources ws paths q
  | referred {p q} (h : Reached sources ws paths p) (hr : ws.Refers sources p q)
      (hm : ¬ ws.HasModule q) : Reached sources ws paths q

/-- The file at the path, if there is one, has a current module. -/
def IsParsed (ws : Workspace) (p : Path) : Prop :=
  ∀ f, ws.file? p = some f → ∃ m, f.state = .parsed m

/-- The files on the log have been renewed since the workspace `base`, all of them are reached, and
what they refer to has a module. -/
structure Explores (sources : Sources) (base : Workspace) (paths : List Path) (ws : Workspace)
    (log : List Path) : Prop where
  arises : Arises ws
  renews : Renews sources base ws log
  reached : ∀ q ∈ log, base.Reached sources paths q
  closed : ∀ p q, log.any (·.same p) = true → base.Refers sources p q → ws.HasModule q

/-- Both workspaces have the same graph, every file has the same state with the same module, and the
same is reported of every file, apart from undeclared variables. -/
structure SameOutcome (ws ws' : Workspace) : Prop extends SameGraph ws ws' where
  states : ∀ p, (ws'.file? p).map (·.state) = (ws.file? p).map (·.state)
  positions : ∀ called, ws'.cache.positions called = ws.cache.positions called
  diagnostics : ∀ p,
    (ws'.file? p).map (fun f => (f.diagnostics.ofTool .parser).filter (!·.isUndeclared)) =
      (ws.file? p).map fun f => (f.diagnostics.ofTool .parser).filter (!·.isUndeclared)
  tools : ∀ p tool, tool ≠ .parser →
    (ws'.file? p).map (·.diagnostics.ofTool tool) = (ws.file? p).map (·.diagnostics.ofTool tool)

variable {sources : Sources} {base ws ws₁ ws₂ ws' : Workspace} {f g : ModuleFile} {p q : Path}
  {paths paths' rest busy log log₁ log₂ : List Path} {library name : String}
  {names : List String} {found : List (String × Option Module)} {m : Module}

/-! ### What files refer to -/

theorem refers_iff_of_skeleton (h : ws'.skeleton = ws.skeleton) :
    ws'.Refers sources p q ↔ ws.Refers sources p q := by
  have hpart {ws ws' : Workspace} (h : ws'.skeleton = ws.skeleton)
      (hr : ws'.Refers sources p q) : ws.Refers sources p q := by
    obtain ⟨f, name, holder, hf, hname, hr, hs⟩ := hr
    obtain ⟨f', hf', hb⟩ := exists_file_of_skeleton h.symm hf
    rw [resolve?_eq_of_skeleton h, ← ModuleFile.library_eq_of_bare hb] at hr
    rw [faults_eq_of_skeleton h, ← ModuleFile.lookups_eq_of_bare hb] at hname
    exact ⟨f', name, holder, hf', hname, hr, hs⟩
  exact ⟨hpart h, hpart h.symm⟩

theorem Refers.congr_right {r : Path} (h : ws.Refers sources p q) (hs : q.same r = true) :
    ws.Refers sources p r := by
  obtain ⟨f, name, holder, hf, hname, hr, hq⟩ := h
  exact ⟨f, name, holder, hf, hname, hr, Path.same_trans hq hs⟩

theorem Reached.congr (h : ws.Reached sources paths p) (hs : p.same q = true) :
    ws.Reached sources paths q := by
  cases h with
  | opened hp hsame hf hstate =>
    exact .opened hp (Path.same_trans hsame hs) (by rwa [← ws.file?_congr hs]) hstate
  | referred h hr hm => exact .referred h (hr.congr_right hs) (by rwa [← HasModule.congr hs])

/-- The order of the opened files does not matter to what is reached. -/
theorem Reached.perm (h : ws.Reached sources paths q) (hp : paths.Perm paths') :
    ws.Reached sources paths' q := by
  induction h with
  | opened hmem hs hf hstate => exact .opened (hp.mem_iff.1 hmem) hs hf hstate
  | referred _ hr hm ih => exact .referred ih hr hm

/-! ### Parses reach what the opened files lead to -/

/-- A file refers to the files without a module that its names lead to. -/
theorem Keyed.refers_of_lookUp {target : ModuleFile} (hk : ws.Keyed)
    (hs : ws.skeleton = base.skeleton) (hf : base.file? p = some f) (hlibrary : f.library = library)
    (hname : name ∈ f.lookups sources base.faults)
    (hl : ws.lookUp library name = .unparsed target) : base.Refers sources p target.path := by
  obtain ⟨holder, hr, htarget, -⟩ := exists_of_lookUp_unparsed hl
  refine ⟨f, name, holder, hf, hname, ?_, ?_⟩
  · rw [hlibrary, ← resolve?_eq_of_skeleton hs, hr]
  · rw [Path.same_comm]
    exact hk _ _ htarget

theorem mem_lookups_of_skeleton (hs : ws.skeleton = base.skeleton) (hb : g.bare = f.bare)
    (hname : name ∈ f.lookups sources ws.faults) : name ∈ g.lookups sources base.faults := by
  rwa [ModuleFile.lookups_eq_of_bare hb, ← faults_eq_of_skeleton hs]

/-- All files that a run parses are reached, if the names that it looks up are those of a file that
is reached. -/
theorem Finds.reached (run : Finds sources busy library names ws found ws' log) (hk : ws.Keyed)
    (hs : ws.skeleton = base.skeleton) (hm : ∀ q, base.HasModule q → ws.HasModule q)
    (hp : base.Reached sources paths p) (hf : base.file? p = some f)
    (hlibrary : f.library = library)
    (hnames : ∀ name ∈ names, name ∈ f.lookups sources base.faults) :
    ∀ q ∈ log, base.Reached sources paths q := by
  induction run generalizing p f with
  | nil => simp
  | missing _ _ ih => exact ih hk hs hm hp hf hlibrary (List.forall_mem_cons.1 hnames).2
  | known _ _ ih => exact ih hk hs hm hp hf hlibrary (List.forall_mem_cons.1 hnames).2
  | pending _ _ _ ih => exact ih hk hs hm hp hf hlibrary (List.forall_mem_cons.1 hnames).2
  | @nested _ _ _ _ ws _ _ _ _ _ _ target hl _ run _ ihRun ihRest =>
    obtain ⟨holder, -, htarget, -⟩ := exists_of_lookUp_unparsed hl
    have hlive : ws.Live target := hk.live htarget
    obtain ⟨hname, hnames⟩ := List.forall_mem_cons.1 hnames
    have hrefers := hk.refers_of_lookUp hs hf hlibrary hname hl
    have hreached : base.Reached sources paths target.path :=
      .referred hp hrefers fun h => hk.not_hasModule hl (hm _ h)
    obtain ⟨target', htarget', hb⟩ := exists_file_of_skeleton hs.symm hlive
    have hinner := ihRun hk hs hm hreached htarget' (ModuleFile.library_eq_of_bare hb)
      fun _ => mem_lookups_of_skeleton hs hb
    have hsettled := run.skeleton_settle target
    have hrest := ihRest (hk.of_skeleton hsettled) (hsettled.trans hs)
      (fun q hq => run.hasModule_settle hk hlive (run.hasModule hk (hm q hq))) hp hf hlibrary hnames
    intro q hq
    rcases List.mem_append.1 hq with hq | hq
    · exact hinner q hq
    · rcases List.mem_cons.1 hq with rfl | hq
      · exact hreached
      · exact hrest q hq

/-- All files that a parse parses are reached, if the file itself is. -/
theorem Parses.reached (run : Parses sources busy f ws m ws' log) (hk : ws.Keyed) (hf : ws.Live f)
    (hs : ws.skeleton = base.skeleton) (hm : ∀ q, base.HasModule q → ws.HasModule q)
    (hp : base.Reached sources paths f.path) : ∀ q ∈ log, base.Reached sources paths q := by
  cases run with
  | intro run =>
    obtain ⟨f', hf', hb⟩ := exists_file_of_skeleton hs.symm hf
    have hlooked := run.reached hk hs hm hp hf' (ModuleFile.library_eq_of_bare hb)
      fun _ => mem_lookups_of_skeleton hs hb
    exact List.forall_mem_append.2 ⟨hlooked, by simpa using hp⟩

/-! ### Opening one file -/

/-- Opening a file parses it, unless it has a current module. -/
theorem Arises.openFile_cases (ha : Arises ws) (sources : Sources) (hp : ws.file? p = some f) :
    (∃ m, f.state = .parsed m) ∧ (ws.openFile sources p).2 = ws ∨
      (∀ m, f.state ≠ .parsed m) ∧ (ws.openFile sources p).2 = (ws.parse sources f).2 := by
  have hdeleted := (ha.settled p f hp).1
  cases hstate : f.state <;> simp_all [openFile]

theorem openFile_of_absent (sources : Sources) (hp : ws.file? p = none) :
    (ws.openFile sources p).2 = ws := by
  simp only [openFile, hp]

/-- A current module stays current. -/
theorem Renews.isParsed (h : Renews sources ws ws' log) (hp : ws.IsParsed p) : ws'.IsParsed p := by
  intro g hg
  cases hlog : log.any (·.same p) with
  | true =>
    obtain ⟨f, g', -, hg', hrenewed⟩ := h.renewed p hlog
    obtain rfl := Option.some.inj (hg.symm.trans hg')
    exact ⟨_, hrenewed.state⟩
  | false =>
    obtain ⟨f, hf, ho⟩ := (h.others p hlog).symm.exists_file hg
    obtain ⟨m, hm⟩ := hp f hf
    have hstate : f.state = g.state := congrArg (·.state) ho
    exact ⟨m, by rw [← hstate, hm]⟩

section Explores

variable (h : Explores sources base paths ws log) (hb : Arises base)

include h hb

/-- Parsing one of the opened files goes on exploring. -/
theorem Explores.parse (hp : p ∈ paths) (hf : ws.file? p = some f)
    (hstate : ∀ m, f.state ≠ .parsed m) :
    ∃ log', Renews sources ws (ws.parse sources f).2 log' ∧
      Explores sources base paths (ws.parse sources f).2 (log ++ log') ∧
      (ws.parse sources f).2.IsParsed p := by
  have ha := h.arises
  have hlive := ha.keyed.live hf
  have hsame : f.path.same p = true := ha.keyed p f hf
  obtain ⟨log', run⟩ := parses_parse sources ha.keyed f
  have hrenews := run.renews ha hlive
  have hskeleton := h.renews.skeleton
  obtain ⟨f₀, hf₀, hb₀⟩ := exists_file_of_skeleton hskeleton.symm hf
  have hopened : base.Reached sources paths f.path := by
    refine .opened (f := f₀) hp (by rw [Path.same_comm]; exact hsame) ?_ fun m hm => ?_
    · rw [file?_congr _ hsame, hf₀]
    · obtain ⟨m', hm'⟩ := h.renews.isParsed (p := p)
        (fun f' hf' => ⟨m, Option.some.inj (hf₀.symm.trans hf') ▸ hm⟩) f hf
      exact hstate m' hm'
  refine ⟨log', hrenews, ⟨ha.moves (moves_parse sources ha.keyed hlive),
    h.renews.trans hrenews hb.keyed, fun q hq => ?_, fun q r hq hr => ?_⟩, fun g hg => ?_⟩
  · rcases List.mem_append.1 hq with hq | hq
    · exact h.reached q hq
    · exact run.reached ha.keyed hlive hskeleton h.renews.modules hopened q hq
  · rw [List.any_append, Bool.or_eq_true] at hq
    rcases hq with hq | hq
    · exact hrenews.modules r (h.closed q r hq hr)
    · obtain ⟨g, name, holder, hg, hname, hholder, hs⟩ := (refers_iff_of_skeleton hskeleton).2 hr
      exact (HasModule.congr hs).1 (run.hasModule_of_mem ha hlive hq hg hname hholder)
  · obtain ⟨f', g', -, hg', hrenewed⟩ := hrenews.renewed p
      (List.any_eq_true.2 ⟨_, run.mem_log, hsame⟩)
    obtain rfl := Option.some.inj (hg.symm.trans hg')
    exact ⟨_, hrenewed.state⟩

/-- Opening one of the files goes on exploring. -/
theorem Explores.openFile (hp : p ∈ paths) :
    ∃ log', Renews sources ws (ws.openFile sources p).2 log' ∧
      Explores sources base paths (ws.openFile sources p).2 (log ++ log') ∧
      (ws.openFile sources p).2.IsParsed p := by
  cases hf : ws.file? p with
  | none =>
    rw [openFile_of_absent sources hf]
    refine ⟨[], .refl sources ws, by rwa [List.append_nil], fun f hf' => ?_⟩
    simp [hf] at hf'
  | some f =>
    rcases h.arises.openFile_cases sources hf with ⟨⟨m, hm⟩, heq⟩ | ⟨hstate, heq⟩
    · rw [heq]
      refine ⟨[], .refl sources ws, by rwa [List.append_nil], fun f' hf' => ?_⟩
      obtain rfl := Option.some.inj (hf.symm.trans hf')
      exact ⟨m, hm⟩
    · rw [heq]
      exact h.parse hb hp hf hstate

/-- Opening some of the files goes on exploring. -/
theorem Explores.openAll (hrest : rest ⊆ paths) :
    ∃ log', Renews sources ws (ws.openAll sources rest) log' ∧
      Explores sources base paths (ws.openAll sources rest) (log ++ log') ∧
      ∀ p ∈ rest, (ws.openAll sources rest).IsParsed p := by
  induction rest generalizing ws log with
  | nil => exact ⟨[], .refl sources ws, by rwa [List.append_nil], by simp⟩
  | cons p rest ih =>
    obtain ⟨hp, hrest⟩ := List.cons_subset.1 hrest
    obtain ⟨log₁, hrenews₁, hexplores₁, hparsed₁⟩ := h.openFile hb hp
    obtain ⟨log₂, hrenews₂, hexplores₂, hparsed₂⟩ := ih hexplores₁ hrest
    refine ⟨log₁ ++ log₂, hrenews₁.trans hrenews₂ h.arises.keyed, ?_, ?_⟩
    · rw [← List.append_assoc]
      exact hexplores₂
    · exact List.forall_mem_cons.2 ⟨hrenews₂.isParsed hparsed₁, hparsed₂⟩

end Explores

/-- Every file that is reached is on the log, when all files have been opened. -/
theorem Explores.any_of_reached (h : Explores sources base paths ws log)
    (hparsed : ∀ p ∈ paths, ws.IsParsed p) (hq : base.Reached sources paths q) :
    log.any (·.same q) = true := by
  -- a file that is not on the log has kept its state
  induction hq with
  | @opened p q f hp hs hf hstate =>
    by_contra hlog
    obtain ⟨f', hf', ho⟩ := (h.renews.others q (by simpa using hlog)).exists_file hf
    obtain ⟨m, hm⟩ := hparsed p hp f' (by rw [ws.file?_congr hs, hf'])
    have hkept : f'.state = f.state := congrArg (·.state) ho
    exact hstate m (by rw [← hkept, hm])
  | @referred p q _ hr hm ih =>
    by_contra hlog
    have hkept := h.renews.others q (by simpa using hlog)
    exact hm (HasModule.of_own hkept.symm.own (h.closed p q ih hr))

/-- Opening files renews exactly the files that are reached. -/
theorem Arises.renews_openAll (ha : Arises ws) (sources : Sources) (paths : List Path) :
    ∃ log, Renews sources ws (ws.openAll sources paths) log ∧
      ∀ q, log.any (·.same q) = true ↔ ws.Reached sources paths q := by
  have hstart : Explores sources ws paths ws [] :=
    ⟨ha, .refl sources ws, by simp, fun p q hp => by simp at hp⟩
  obtain ⟨log, hrenews, hexplores, hparsed⟩ := hstart.openAll ha (List.Subset.refl paths)
  rw [List.nil_append] at hexplores
  refine ⟨log, hrenews, fun q => ⟨fun hq => ?_, hexplores.any_of_reached hparsed⟩⟩
  obtain ⟨r, hr, hs⟩ := List.any_eq_true.1 hq
  exact (hexplores.reached r hr).congr hs

theorem Arises.openAll (ha : Arises ws) (sources : Sources) (paths : List Path) :
    Arises (ws.openAll sources paths) :=
  List.foldlRecOn paths _ ha fun _ h p _ => h.moves (readings_openFile sources h.keyed p).moves

/-! ### Two orders -/

/-- A renewed file refers to the names of its source. -/
theorem Renewed.referred (h : Renewed sources ws f g) :
    g.referred sources = (f.content sources ws.faults).references := by
  simp only [ModuleFile.referred, h.state, ModuleState.module?]

/-- A renewed file waits for the names of its source that stand for no file. -/
theorem Renewed.waits_iff (h : Renewed sources ws f g) (hk : ws.Keyed) (hg : ws.file? q = some g)
    (name : String) : ws.waiting.Waits q name ↔ name ∈
      (ws.unresolved f.library (f.content sources ws.faults).references).map Ascii.upper := by
  rw [← ModuleFile.library_eq_of_bare h.bare, ← h.referred, ← h.follows.awaits]
  exact (WaitingIndex.Waits.congr (hk q g hg)).symm

section TwoOrders

variable (h₁ : Renews sources base ws₁ log₁) (h₂ : Renews sources base ws₂ log₂)
  (hlog : ∀ q, log₁.any (·.same q) = log₂.any (·.same q))

include h₁ h₂ hlog

/-- What two renewals of the same files know of a file. -/
theorem Renews.file?_eq (q : Path) :
    (ws₂.file? q).map (fun f => (f.state, f.bare,
        (f.diagnostics.ofTool .parser).filter (!·.isUndeclared))) =
      (ws₁.file? q).map fun f => (f.state, f.bare,
        (f.diagnostics.ofTool .parser).filter (!·.isUndeclared)) := by
  have hs : ws₂.skeleton = ws₁.skeleton := h₂.skeleton.trans h₁.skeleton.symm
  cases hq : log₁.any (·.same q) with
  | true =>
    obtain ⟨f, g₁, hf, hg₁, hrenewed₁⟩ := h₁.renewed q hq
    obtain ⟨f', g₂, hf', hg₂, hrenewed₂⟩ := h₂.renewed q (by rw [← hlog, hq])
    obtain rfl := Option.some.inj (hf.symm.trans hf')
    rw [hg₁, hg₂, Option.map_some, Option.map_some, hrenewed₁.state, hrenewed₂.state,
      hrenewed₁.bare, hrenewed₂.bare, hrenewed₁.diagnostics, hrenewed₂.diagnostics,
      report_eq_of_skeleton hs, faults_eq_of_skeleton hs]
  | false =>
    have hkept := ((h₁.others q hq).symm.trans (h₂.others q (by rw [← hlog, hq]))).own
    have hmap := congrArg (Option.map fun f => (f.state, f.bare,
      (f.diagnostics.ofTool .parser).filter (!·.isUndeclared))) hkept
    rwa [Option.map_map, Option.map_map] at hmap

/-- Two renewals of the same files lead to the same edges. -/
theorem Renews.calls_iff (p q : Path) : ws₂.Calls p q ↔ ws₁.Calls p q := by
  have hs : ws₂.skeleton = ws₁.skeleton := h₂.skeleton.trans h₁.skeleton.symm
  cases hp : log₁.any (·.same p) with
  | true =>
    obtain ⟨f, g₁, hf, hg₁, hrenewed₁⟩ := h₁.renewed p hp
    obtain ⟨f', g₂, hf', hg₂, hrenewed₂⟩ := h₂.renewed p (by rw [← hlog, hp])
    obtain rfl := Option.some.inj (hf.symm.trans hf')
    rw [Workspace.calls_iff hg₁, Workspace.calls_iff hg₂, hrenewed₁.follows.connected,
      hrenewed₂.follows.connected, hrenewed₁.referred, hrenewed₂.referred,
      targets_eq_of_skeleton hs (hrenewed₂.bare.trans hrenewed₁.bare.symm),
      faults_eq_of_skeleton hs]
  | false =>
    have hkept := ((h₁.others p hp).symm.trans (h₂.others p (by rw [← hlog, hp]))).own
    have houtgoing := congrArg (Option.map ModuleFile.outgoing) hkept
    rw [Option.map_map, Option.map_map] at houtgoing
    cases hg₁ : ws₁.file? p <;> cases hg₂ : ws₂.file? p <;> simp_all [Calls, ModuleFile.own]

/-- Two renewals of the same files lead to the same waits. -/
theorem Renews.waits_iff (hk : base.Keyed) (p : Path) (name : String) :
    ws₂.waiting.Waits p name ↔ ws₁.waiting.Waits p name := by
  have hs : ws₂.skeleton = ws₁.skeleton := h₂.skeleton.trans h₁.skeleton.symm
  cases hp : log₁.any (·.same p) with
  | true =>
    obtain ⟨f, g₁, hf, hg₁, hrenewed₁⟩ := h₁.renewed p hp
    obtain ⟨f', g₂, hf', hg₂, hrenewed₂⟩ := h₂.renewed p (by rw [← hlog, hp])
    obtain rfl := Option.some.inj (hf.symm.trans hf')
    rw [hrenewed₁.waits_iff (hk.of_skeleton h₁.skeleton) hg₁,
      hrenewed₂.waits_iff (hk.of_skeleton h₂.skeleton) hg₂, unresolved_eq_of_skeleton hs,
      faults_eq_of_skeleton hs]
  | false => rw [(h₂.others p (by rw [← hlog, hp])).waits, (h₁.others p hp).waits]

/-- Two renewals of the same files end alike. -/
theorem Renews.sameOutcome (hb : Arises base) (ha₁ : Arises ws₁) (ha₂ : Arises ws₂) :
    SameOutcome ws₁ ws₂ := by
  have hs : ws₂.skeleton = ws₁.skeleton := h₂.skeleton.trans h₁.skeleton.symm
  have hcalls := h₁.calls_iff h₂ hlog
  have hwaits := h₁.waits_iff h₂ hlog hb.keyed
  have hpositions (called : Path) : ws₂.cache.positions called = ws₁.cache.positions called := by
    simp only [h₁.positions, h₂.positions, hlog]
  have hfile {α : Type} (view : ModuleState × ModuleFile × List Diagnostic → α) (p : Path) :=
    (congrArg (Option.map view) (h₁.file?_eq h₂ hlog p))
  simp only [Option.map_map] at hfile
  constructor
  · constructor
    · exact heads_eq_of_skeleton hs
    · exact map_bare_file?_of_skeleton hs
    · exact holder?_eq_of_skeleton hs
    · exact hcalls
    · intro q p
      rw [← ha₁.linked.symmetric, ← ha₂.linked.symmetric, hcalls]
    · exact hwaits
    · intro p name
      rw [← ha₁.mirrored, ← ha₂.mirrored, hwaits]
    · intro called x
      rw [ReferenceCache.Records, ReferenceCache.Records, hpositions]
  · exact hfile (·.1)
  · exact hpositions
  · exact hfile (·.2.2)
  · intro p tool htool
    cases hg₁ : ws₁.file? p with
    | none =>
      have hnone := map_bare_file?_of_skeleton hs p
      rw [hg₁, Option.map_none, Option.map_eq_none_iff] at hnone
      rw [hnone]
    | some g₁ =>
      obtain ⟨g₂, hg₂, -⟩ := exists_file_of_skeleton hs hg₁
      obtain ⟨f, hf, -⟩ := exists_file_of_skeleton h₁.skeleton.symm hg₁
      rw [hg₂, Option.map_some, Option.map_some, h₂.tools hf hg₂ htool, h₁.tools hf hg₁ htool]

end TwoOrders

/-- Opening files in two orders ends with the same states and modules, the same edges, waits and
cached positions, and the same diagnostics apart from those about undeclared variables, whatever
cycles the files form and wherever the parser fails. -/
theorem Reachable.opening_order (h : Reachable ws) (sources : Sources)
    (hperm : paths.Perm paths') :
    SameOutcome (ws.openAll sources paths) (ws.openAll sources paths') := by
  have ha := h.arises
  obtain ⟨log, hrenews, hlog⟩ := ha.renews_openAll sources paths
  obtain ⟨log', hrenews', hlog'⟩ := ha.renews_openAll sources paths'
  refine hrenews.sameOutcome hrenews' (fun q => ?_) ha (ha.openAll sources paths)
    (ha.openAll sources paths')
  rw [Bool.eq_iff_iff, hlog, hlog']
  exact ⟨fun hq => hq.perm hperm, fun hq => hq.perm hperm.symm⟩

/-- In the small project, where two subprograms call each other, it does not matter which of them is
opened first. -/
theorem Reachable.opening_order_sample :
    Reachable Sample.workspace ∧
      [Sample.caller, Sample.callee].Perm [Sample.callee, Sample.caller] ∧
      SameOutcome (Sample.workspace.openAll Sample.texts [Sample.caller, Sample.callee])
        (Sample.workspace.openAll Sample.texts [Sample.callee, Sample.caller]) :=
  ⟨Sample.reachable, .swap .., opening_order Sample.reachable Sample.texts (.swap ..)⟩

end Workspace

end Steplib
