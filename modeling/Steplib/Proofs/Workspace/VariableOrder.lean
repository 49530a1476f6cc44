import Steplib.Proofs.Parse.VariableChecks
import Steplib.Proofs.Workspace.OpeningOrder
import Steplib.Proofs.Workspace.Tenure

/-!
# Variables and the order of opening

A file is checked while it is parsed, amid the files whose parses are still going on. All of these
lead to the file. If one of them is an import of the file, nothing is said about the variables of
the file; otherwise the check is complete. So the order in which files are opened matters exactly to
the files that import a file which leads back to them, if there is something to say about their
variables.

## Main definitions

* `Workspace.LeadsTo`: the parse of a file can lead to another file.
* `Workspace.Entangled`: a file imports another file that leads back to it.
* `Workspace.undeclared`: what is reported about the variables of a file.
* `Workspace.Examined`: all files with a module were checked amid files that lead to them.

## Main results

* `Workspace.Finds.examined`: a run checks files amid the files that lead to them.
* `Workspace.CheckedAmid.undeclared_eq`: a check is complete or says nothing.
* `Workspace.Reachable.opening_order_variables`: to which files the order matters.
* `Workspace.variables_unchecked`: two files for which it does.
-/

namespace Steplib

namespace Workspace

/-- The file at the first path refers to the file at the second one, directly or through others. -/
def LeadsTo (sources : Sources) (ws : Workspace) : Path → Path → Prop :=
  Relation.TransGen (ws.Refers sources)

/-- The file imports another file, which leads back to it. -/
def Entangled (sources : Sources) (ws : Workspace) (f : ModuleFile) : Prop :=
  ∃ name ∈ (f.content sources ws.faults).imports, ∃ holder,
    ws.resolve? f.library name = some holder ∧ holder.path.same f.path = false ∧
      ws.LeadsTo sources holder.path f.path

/-- What the parser reports about the variables of the file at a path. -/
def undeclared (ws : Workspace) (p : Path) : Option (List Diagnostic) :=
  (ws.file? p).map fun f => (f.diagnostics.ofTool .parser).filter (·.isUndeclared)

/-- The file has a current module, from a parse during which the files at the paths `amid` were
being parsed. The file was one of them, and the others lead to it. -/
structure CheckedAmid (sources : Sources) (base : Workspace) (g : ModuleFile) (amid : List Path) :
    Prop where
  current : ∃ m, g.state = .parsed m
  self : amid.any (·.same g.path) = true
  others : ∀ r ∈ amid, r.same g.path = true ∨ base.LeadsTo sources r g.path
  checked : (g.diagnostics.ofTool .parser).filter (·.isUndeclared) = base.checks sources amid g

/-- Every file with a module was checked amid files that lead to it, among them those at the paths
`within`. -/
def Examined (sources : Sources) (base : Workspace) (within : List Path) (ws : Workspace) : Prop :=
  ∀ q g m, ws.file? q = some g → g.state.module? = some m →
    ∃ amid, within ⊆ amid ∧ CheckedAmid sources base g amid

/-- The workspace comes from `base` by parses, all of which were complete but for what was being
parsed at the time. -/
structure Surveyed (sources : Sources) (base ws : Workspace) : Prop where
  arises : Arises ws
  skeleton : ws.skeleton = base.skeleton
  upToDate : ws.UpToDate sources []
  examined : Examined sources base [] ws

variable {sources : Sources} {base ws ws₁ ws' : Workspace} {f g target : ModuleFile} {p q r : Path}
  {within amid busy log paths : List Path} {library name : String} {names : List String}
  {found : List (String × Option Module)} {m : Module}

/-! ### Leading to a file -/

theorem Refers.congr_left (h : ws.Refers sources p q) (hs : p.same r = true) :
    ws.Refers sources r q := by
  obtain ⟨f, name, holder, hf, hname, hr, hq⟩ := h
  exact ⟨f, name, holder, by rwa [← ws.file?_congr hs], hname, hr, hq⟩

theorem LeadsTo.congr_left (h : ws.LeadsTo sources p q) (hs : p.same r = true) :
    ws.LeadsTo sources r q := by
  obtain ⟨s, hfirst, hrest⟩ := Relation.TransGen.head'_iff.1 h
  exact .head' (hfirst.congr_left hs) hrest

/-- What leads to a file leads to the files that it refers to. -/
theorem Refers.leadsTo (h : ws.Refers sources p q)
    (hr : r.same p = true ∨ ws.LeadsTo sources r p) : ws.LeadsTo sources r q := by
  rcases hr with hs | hr
  · exact .single (h.congr_left (by rw [Path.same_comm]; exact hs))
  · exact .tail hr h

/-! ### Files are checked amid the files that lead to them -/

theorem CheckedAmid.of_own (h : CheckedAmid sources base f amid) (ho : g.own = f.own) :
    CheckedAmid sources base g amid := by
  have hpath : g.path = f.path := congrArg (·.path) ho
  have hstate : g.state = f.state := congrArg (·.state) ho
  have hdiagnostics : g.diagnostics = f.diagnostics := congrArg (·.diagnostics) ho
  refine ⟨by rw [hstate]; exact h.current, by rw [hpath]; exact h.self,
    by rw [hpath]; exact h.others, ?_⟩
  rw [hdiagnostics, h.checked, checks_eq_of_bare (bare_eq_of_own ho)]

/-- The file that was parsed last was checked amid the files that were being parsed. -/
theorem Examined.settle (he : Examined sources base within ws₁)
    (run : Finds sources (target.path :: busy) target.library
      (target.lookups sources ws.faults) ws found ws₁ log)
    (hk : ws.Keyed) (ht : ws.Live target) (hs : ws.skeleton = base.skeleton)
    (hfound : found = ws.answers sources (target.path :: busy) target.library
      (target.lookups sources ws.faults))
    (hwithin : within ⊆ target.path :: busy)
    (hbusy : ∀ r ∈ busy, base.LeadsTo sources r target.path) :
    Examined sources base within (settle sources target ws₁ found) := by
  intro q g m hg hm
  cases hq : target.path.same q with
  | true =>
    obtain ⟨f, g', -, hg', hb, hstate, -, hds⟩ := run.file?_settle hk ht
    rw [file?_congr _ hq, hg] at hg'
    obtain rfl := Option.some.inj hg'
    have hpath := ModuleFile.path_eq_of_bare hb
    refine ⟨target.path :: busy, hwithin, ⟨_, hstate⟩, ?_, ?_, ?_⟩
    · rw [hpath, List.any_cons, Path.same_refl, Bool.true_or]
    · rw [hpath]
      exact List.forall_mem_cons.2 ⟨.inl (Path.same_refl _), fun r hr => .inr (hbusy r hr)⟩
    · rw [hds, Partition.ofTool_replace, if_pos rfl, hfound, faults_eq_of_skeleton run.skeleton,
        filter_isUndeclared_answers, checks_eq_of_skeleton hs, checks_eq_of_bare hb]
  | false =>
    have hown := run.own_settle hk ht hq
    rw [hg] at hown
    obtain ⟨f, hf, ho⟩ := Option.map_eq_some_iff.1 hown.symm
    have hstate : f.state = g.state := congrArg (·.state) ho
    obtain ⟨amid, hsub, hchecked⟩ := he q f m hf (by rw [hstate, hm])
    exact ⟨amid, hsub, hchecked.of_own ho.symm⟩

/-- A run checks files amid the files that lead to them. -/
theorem Finds.examined (run : Finds sources busy library names ws found ws' log) (hk : ws.Keyed)
    (hn : ws.Named) (hu : ws.UpToDate sources busy) (hs : ws.skeleton = base.skeleton)
    (hf : base.file? p = some f) (hlibrary : f.library = library)
    (hnames : ∀ name ∈ names, name ∈ f.lookups sources base.faults) (hwithin : within ⊆ busy)
    (hbusy : ∀ r ∈ busy, r.same p = true ∨ base.LeadsTo sources r p)
    (he : Examined sources base within ws) : Examined sources base within ws' := by
  -- the files being parsed form a path of references that ends with the file at `p`
  induction run generalizing p f with
  | nil => exact he
  | missing _ _ ih =>
    exact ih hk hn hu hs hf hlibrary (List.forall_mem_cons.1 hnames).2 hwithin hbusy he
  | known _ _ ih =>
    exact ih hk hn hu hs hf hlibrary (List.forall_mem_cons.1 hnames).2 hwithin hbusy he
  | pending _ _ _ ih =>
    exact ih hk hn hu hs hf hlibrary (List.forall_mem_cons.1 hnames).2 hwithin hbusy he
  | @nested _ _ _ _ ws _ _ _ _ _ _ target hl hb run _ ihRun ihRest =>
    obtain ⟨holder, -, htarget, -⟩ := exists_of_lookUp_unparsed hl
    have hlive : ws.Live target := hk.live htarget
    obtain ⟨hname, hnames⟩ := List.forall_mem_cons.1 hnames
    have hrefers := hk.refers_of_lookUp hs hf hlibrary hname hl
    have hleads : ∀ r ∈ _, base.LeadsTo sources r target.path := fun r hr =>
      hrefers.leadsTo (hbusy r hr)
    obtain ⟨target', htarget', hbare⟩ := exists_file_of_skeleton hs.symm hlive
    have hbegin := hu.begin hk hl
    obtain ⟨hfound, hu₁⟩ := run.found_eq hk hn hbegin
    have hwithin' := List.Subset.trans hwithin (List.subset_cons_self target.path _)
    have hinner := ihRun hk hn hbegin hs htarget' (ModuleFile.library_eq_of_bare hbare)
      (fun _ => mem_lookups_of_skeleton hs hbare)
      hwithin' (List.forall_mem_cons.2 ⟨.inl (Path.same_refl _), fun r hr => .inr (hleads r hr)⟩) he
    have hskeleton := run.skeleton_settle target
    exact ihRest (hk.of_skeleton hskeleton) (hn.of_skeleton hskeleton)
      (hu₁.settle run hk hlive hb) (hskeleton.trans hs) hf hlibrary hnames hwithin hbusy
      (hinner.settle run hk hlive hs hfound hwithin' hleads)

/-- The parse of a file without a module checks files amid the files that lead to them. -/
theorem Parses.examined (run : Parses sources [] f ws m ws' log) (ha : Arises ws)
    (hf : ws.Live f) (hnone : ¬ ws.HasModule f.path) (hu : ws.UpToDate sources [])
    (hs : ws.skeleton = base.skeleton) (hwithin : within ⊆ [f.path])
    (he : Examined sources base within ws) :
    Examined sources base within ws' ∧ ws'.UpToDate sources [] := by
  cases run with
  | intro run =>
    have hbegin := hu.cons ha.keyed hnone
    obtain ⟨f', hf', hbare⟩ := exists_file_of_skeleton hs.symm hf
    obtain ⟨hfound, hu₁⟩ := run.found_eq ha.keyed ha.named hbegin
    have hlooked := run.examined ha.keyed ha.named hbegin hs hf'
      (ModuleFile.library_eq_of_bare hbare) (fun _ => mem_lookups_of_skeleton hs hbare)
      hwithin (by simp [Path.same_refl]) he
    exact ⟨hlooked.settle run ha.keyed hf hs hfound hwithin (by simp),
      hu₁.settle run ha.keyed hf rfl⟩

/-! ### What the check of a file says -/

/-- A check is complete, or it says nothing and the file is entangled. -/
theorem CheckedAmid.undeclared_eq (h : CheckedAmid sources base g amid) (ha : Arises base) :
    (g.diagnostics.ofTool .parser).filter (·.isUndeclared) = base.checks sources [g.path] g ∨
      base.Entangled sources g ∧ (g.diagnostics.ofTool .parser).filter (·.isUndeclared) = [] := by
  rw [h.checked]
  by_cases himport : ∃ name ∈ (g.content sources base.faults).imports, ∃ holder,
      base.resolve? g.library name = some holder ∧ holder.path.same g.path = false ∧
        amid.any (·.same holder.path) = true
  · obtain ⟨name, hname, holder, hr, hother, hamid⟩ := himport
    refine .inr ⟨⟨name, hname, holder, hr, hother, ?_⟩, ha.checks_of_busy hname hr hamid⟩
    obtain ⟨r, hr, hs⟩ := List.any_eq_true.1 hamid
    rcases h.others r hr with hself | hleads
    · rw [Path.same_congr_left hs] at hself
      simp [hother] at hself
    · exact hleads.congr_left hs
  · refine .inl (ha.checks_congr fun name hname holder hr => ?_)
    rw [List.any_cons, List.any_nil, Bool.or_false, Path.same_comm g.path]
    cases hother : holder.path.same g.path with
    | true =>
      obtain ⟨r, hr, hs⟩ := List.any_eq_true.1 h.self
      refine List.any_eq_true.2 ⟨r, hr, ?_⟩
      rw [Path.same_congr_right hother]
      exact hs
    | false =>
      exact Bool.eq_false_iff.2 fun hamid => himport ⟨name, hname, holder, hr, hother, hamid⟩

/-! ### Opening files -/

theorem Unparsed.not_hasModule (hu : ws.Unparsed) (q : Path) : ¬ ws.HasModule q := by
  rintro ⟨f, m, hf, hm⟩
  rw [hu q f hf] at hm
  simp [ModuleState.module?] at hm

theorem Unparsed.upToDate (hu : ws.Unparsed) (sources : Sources) (busy : List Path) :
    ws.UpToDate sources busy := fun q g m hg hm =>
  absurd ⟨g, m, hg, hm⟩ (hu.not_hasModule q)

theorem Unparsed.examined (hu : ws.Unparsed) (sources : Sources) (within : List Path) :
    Examined sources ws within ws := fun q g m hg hm =>
  absurd ⟨g, m, hg, hm⟩ (hu.not_hasModule q)

theorem Unparsed.surveyed (hu : ws.Unparsed) (ha : Arises ws) (sources : Sources) :
    Surveyed sources ws ws where
  arises := ha
  skeleton := rfl
  upToDate := hu.upToDate sources []
  examined := hu.examined sources []

/-- Opening a file that is not parsed parses it. -/
theorem Unparsed.openFile_eq (hu : ws.Unparsed) (ha : Arises ws) (sources : Sources)
    (hf : ws.Live f) : (ws.openFile sources f.path).2 = (ws.parse sources f).2 := by
  rcases ha.openFile_cases sources hf with ⟨⟨m, hm⟩, -⟩ | ⟨-, heq⟩
  · simp [hu f.path f hf] at hm
  · exact heq

/-- Opening a file surveys the files that it reaches. -/
theorem Surveyed.openFile (h : Surveyed sources base ws) (p : Path) :
    Surveyed sources base (ws.openFile sources p).2 := by
  cases hp : ws.file? p with
  | none =>
    rw [openFile_of_absent sources hp]
    exact h
  | some f =>
    rcases h.arises.openFile_cases sources hp with ⟨-, heq⟩ | ⟨hstate, heq⟩
    · rw [heq]
      exact h
    · rw [heq]
      have hlive := h.arises.keyed.live hp
      have hnone : ¬ ws.HasModule f.path := by
        rintro ⟨g, m, hg, hm⟩
        obtain rfl := Option.some.inj (hlive.symm.trans hg)
        obtain ⟨amid, -, hchecked⟩ := h.examined p f m hp hm
        obtain ⟨m', hm'⟩ := hchecked.current
        exact hstate m' hm'
      obtain ⟨log, run⟩ := parses_parse sources h.arises.keyed f
      obtain ⟨hexamined, hu⟩ := run.examined h.arises hlive hnone h.upToDate h.skeleton
        (List.nil_subset _) h.examined
      exact ⟨h.arises.moves (run.moves h.arises.keyed hlive), run.skeleton.trans h.skeleton, hu,
        hexamined⟩

theorem Surveyed.openAll (h : Surveyed sources base ws) (paths : List Path) :
    Surveyed sources base (ws.openAll sources paths) :=
  List.foldlRecOn paths _ h fun _ h p _ => h.openFile p

/-- What is reported about the variables of a file after files have been opened: nothing new if the
file is not reached, and otherwise its complete check, or nothing if the file is entangled. -/
theorem Unparsed.undeclared_openAll (hu : ws.Unparsed) (ha : Arises ws) (hf : ws.file? p = some f)
    (sources : Sources) (paths : List Path) :
    (¬ ws.Reached sources paths p → (ws.openAll sources paths).undeclared p = ws.undeclared p) ∧
      (ws.Reached sources paths p →
        (ws.openAll sources paths).undeclared p = some (ws.checks sources [f.path] f) ∨
          ws.Entangled sources f ∧ (ws.openAll sources paths).undeclared p = some []) := by
  obtain ⟨log, hrenews, hlog⟩ := ha.renews_openAll sources paths
  refine ⟨fun hnot => ?_, fun hreached => ?_⟩
  · have hkept := hrenews.others p (Bool.eq_false_iff.2 fun h => hnot ((hlog p).1 h))
    obtain ⟨g, hg, ho⟩ := hkept.exists_file hf
    have hdiagnostics : g.diagnostics = f.diagnostics := congrArg (·.diagnostics) ho
    rw [undeclared, undeclared, hg, hf, Option.map_some, Option.map_some, hdiagnostics]
  · obtain ⟨f', g, hf', hg, hrenewed⟩ := hrenews.renewed p ((hlog p).2 hreached)
    obtain rfl := Option.some.inj (hf.symm.trans hf')
    obtain ⟨amid, -, hchecked⟩ := ((hu.surveyed ha sources).openAll paths).examined p g _ hg
      (by rw [hrenewed.state]; rfl)
    have hb := hrenewed.bare
    have hpath := ModuleFile.path_eq_of_bare hb
    rw [undeclared, hg, Option.map_some, Option.some.injEq, Option.some.injEq]
    have hcheck := hchecked.undeclared_eq ha
    rwa [hpath, checks_eq_of_bare hb, Entangled, ModuleFile.content_eq_of_bare hb,
      ModuleFile.library_eq_of_bare hb, hpath] at hcheck

/-! ### Two orders that can differ -/

/-- Opening a file leaves alone what has a current module. -/
theorem Arises.kept_openFile (ha : Arises ws) (sources : Sources) (p : Path)
    (hg : ws.file? q = some g) (hm : g.state = .parsed m) :
    Kept ws (ws.openFile sources p).2 q := by
  cases hp : ws.file? p with
  | none =>
    rw [openFile_of_absent sources hp]
    exact .refl ws q
  | some f =>
    rcases ha.openFile_cases sources hp with ⟨-, heq⟩ | ⟨hstate, heq⟩
    · rw [heq]
      exact .refl ws q
    · rw [heq]
      have hlive := ha.keyed.live hp
      obtain ⟨log, run⟩ := parses_parse sources ha.keyed f
      refine (run.renews ha hlive).others q (Bool.eq_false_iff.2 fun hlog => ?_)
      obtain ⟨r, hr, hs⟩ := List.any_eq_true.1 hlog
      rcases run.unparsed_of_mem ha hr with rfl | hnone
      · rw [Live, ws.file?_congr hs, hg] at hlive
        obtain rfl := Option.some.inj hlive
        exact hstate m hm
      · exact hnone ((HasModule.congr hs).2 ⟨g, m, hg, by rw [hm]; rfl⟩)

theorem Kept.undeclared_eq (h : Kept ws ws' q) : ws'.undeclared q = ws.undeclared q := by
  have hown := congrArg (Option.map fun f : ModuleFile =>
    (f.diagnostics.ofTool .parser).filter (·.isUndeclared)) h.own
  rwa [Option.map_map, Option.map_map] at hown

/-- The check of a file that is opened first is complete. -/
theorem Unparsed.undeclared_opened (hu : ws.Unparsed) (ha : Arises ws) (hf : ws.Live f)
    (sources : Sources) (q : Path) : (ws.openAll sources [f.path, q]).undeclared f.path =
      some (ws.checks sources [f.path] f) := by
  obtain ⟨g, hg, -, hstate, -, hds⟩ := ha.exists_parse hf (hu.upToDate sources [f.path])
  have ha₁ := ha.moves (moves_parse sources ha.keyed hf)
  have hkept := ha₁.kept_openFile sources q hg hstate
  rw [openAll, List.foldl_cons, List.foldl_cons, List.foldl_nil,
    hu.openFile_eq ha sources hf, hkept.undeclared_eq, undeclared, hg, Option.map_some, hds]
  exact congrArg some (filter_isUndeclared_answers ..)

/-- Opening a file reaches the files that it leads to. -/
theorem Unparsed.reached_of_leadsTo (hu : ws.Unparsed) (hp : p ∈ paths) (hf : ws.file? p = some f)
    (h : ws.LeadsTo sources p q) : ws.Reached sources paths q := by
  have hfirst : ws.Reached sources paths p :=
    .opened hp (Path.same_refl p) hf fun m hm => by simp [hu p f hf] at hm
  induction h with
  | single hr => exact hfirst.referred hr (hu.not_hasModule _)
  | tail _ hr ih => exact ih.referred hr (hu.not_hasModule _)

/-- Nothing is said about the variables of a file when an import that leads to it is opened
first. -/
theorem Unparsed.undeclared_reached (hu : ws.Unparsed) (ha : Arises ws) (hf : ws.Live f)
    {holder : Holder} (hname : name ∈ (f.content sources ws.faults).imports)
    (hr : ws.resolve? f.library name = some holder)
    (hleads : ws.LeadsTo sources holder.path f.path) :
    (ws.openAll sources [holder.path, f.path]).undeclared f.path = some [] := by
  obtain ⟨-, -, -, g, hg, hpath, -⟩ := ha.named.holds_of_resolve? hr
  rw [← hpath] at hg hleads
  obtain ⟨log, hrenews, hlog⟩ := ha.renews_openAll sources [g.path]
  have hreached : ws.Reached sources [g.path] f.path :=
    hu.reached_of_leadsTo (by simp) hg hleads
  obtain ⟨f', f₁, hf', hf₁, hrenewed⟩ := hrenews.renewed f.path ((hlog f.path).2 hreached)
  obtain rfl := Option.some.inj (hf.symm.trans hf')
  have hopen : ws.openAll sources [g.path] = (ws.parse sources g).2 :=
    hu.openFile_eq ha sources hg
  have ha₁ := ha.openAll sources [g.path]
  have hkept := ha₁.kept_openFile sources f.path hf₁ hrenewed.state
  -- while the file was checked its import was still being parsed
  have hexamined : Examined sources ws [g.path] (ws.openAll sources [g.path]) := by
    rw [hopen]
    obtain ⟨log', run⟩ := parses_parse sources ha.keyed g
    exact (run.examined ha hg (hu.not_hasModule _) (hu.upToDate sources []) rfl
      (List.Subset.refl _) (hu.examined sources _)).1
  obtain ⟨amid, hsub, hchecked⟩ := hexamined f.path f₁ _ hf₁ (by rw [hrenewed.state]; rfl)
  have hb := hrenewed.bare
  have hbusy : amid.any (·.same holder.path) = true :=
    List.any_eq_true.2 ⟨g.path, hsub (by simp), by rw [hpath]; exact Path.same_refl _⟩
  have hnothing : ws.checks sources amid f = [] := ha.checks_of_busy hname hr hbusy
  rw [← hpath]
  refine hkept.undeclared_eq.trans ?_
  rw [undeclared, hf₁, Option.map_some, hchecked.checked, checks_eq_of_bare hb, hnothing]

/-- In a workspace in which no file is parsed the order in which files are opened does not matter to
what is reported about the variables of a file exactly if the file imports no other file that leads
back to it, or if there is nothing to report. In every order either everything is reported or
nothing. -/
theorem Reachable.opening_order_variables (h : Reachable ws) (hu : ws.Unparsed)
    (sources : Sources) (hp : ws.file? p = some f) :
    ((∀ paths paths' : List Path, paths.Perm paths' →
        (ws.openAll sources paths).undeclared p = (ws.openAll sources paths').undeclared p) ↔
      ¬ ws.Entangled sources f ∨ ws.checks sources [f.path] f = []) ∧
    ∀ paths, ws.Reached sources paths p →
      (ws.openAll sources paths).undeclared p = some (ws.checks sources [f.path] f) ∨
        (ws.openAll sources paths).undeclared p = some [] := by
  have ha := h.arises
  have hopened := hu.undeclared_openAll ha hp sources
  refine ⟨⟨fun hall => ?_, fun heither paths paths' hperm => ?_⟩, fun paths hreached => ?_⟩
  · by_contra hnot
    obtain ⟨hentangled, hsome⟩ := not_or.1 hnot
    obtain ⟨name, hname, holder, hr, -, hleads⟩ := not_not.1 hentangled
    have hsame := ha.keyed p f hp
    have hlive := ha.keyed.live hp
    have horders := hall [f.path, holder.path] [holder.path, f.path] (.swap ..)
    simp only [undeclared, ← Workspace.file?_congr _ hsame] at horders
    have hfirst := hu.undeclared_opened ha hlive sources holder.path
    have hsecond := hu.undeclared_reached ha hlive hname hr hleads
    exact hsome (Option.some.inj (hfirst.symm.trans (horders.trans hsecond)))
  · by_cases hreached : ws.Reached sources paths p
    · have hcomplete (paths : List Path) (hreached : ws.Reached sources paths p) :
          (ws.openAll sources paths).undeclared p = some (ws.checks sources [f.path] f) := by
        rcases (hopened paths).2 hreached with hcheck | ⟨hentangled, hnothing⟩
        · exact hcheck
        · rw [hnothing, heither.resolve_left (not_not.2 hentangled)]
      rw [hcomplete paths hreached, hcomplete paths' (hreached.perm hperm)]
    · rw [(hopened paths).1 hreached,
        (hopened paths').1 fun hreached' => hreached (hreached'.perm hperm.symm)]
  · exact ((hopened paths).2 hreached).imp_right And.right

end Workspace

namespace Sample

/-- In the library `L` the subprograms `S` and `T` call each other. The subprogram `S` includes the
copycode `C`, which calls `S`, and the subprogram `T` includes the copycode `D`, which calls
nothing. Each of the subprograms uses a variable that is not declared. -/
def circular : Sources := fun p =>
  match p.text with
  | "L/S.NSN" => .ok "INCLUDE C\nCALLNAT 'T'\nWRITE #X"
  | "L/T.NSN" => .ok "INCLUDE D\nCALLNAT 'S'\nWRITE #Y"
  | "L/C.NSC" => .ok "CALLNAT 'S'"
  | "L/D.NSC" => .ok "END"
  | _ => .error .notFound

def entangled : Path := .ofText "L/S.NSN"

def untangled : Path := .ofText "L/T.NSN"

def copycode : Path := .ofText "L/C.NSC"

def leaf : Path := .ofText "L/D.NSC"

/-- All files were added and indexed. -/
def circle : Workspace :=
  continued circular (after [])
    [.addFile entangled, .addFile untangled, .addFile copycode, .addFile leaf, .indexAll false]

theorem reachable_circle : circle.Reachable :=
  reachable_continued (reachable_after []) _ _

theorem unparsed_circle : circle.Unparsed := by
  have hall : ∀ f ∈ circle.files.values, f.state = .unparsed := by decide +kernel
  exact fun p f hf => hall f (PathMap.mem_values.2 ⟨p, hf⟩)

/-- The subprogram `T` imports only a copycode that leads nowhere. -/
theorem exists_untangled : ∃ f, circle.file? untangled = some f ∧ ¬ circle.Entangled circular f ∧
    (circle.checks circular [f.path] f).map (·.message) = ["unresolved reference: '#Y'"] := by
  obtain ⟨f, hf, h⟩ := (Option.any_eq_true _ _).1
    (by decide +kernel : (circle.file? untangled).any (fun f =>
      f.library == "L" && (f.content circular circle.faults).imports == ["D"] &&
        (circle.checks circular [f.path] f).map (·.message) ==
          ["unresolved reference: '#Y'"]) = true)
  simp only [Bool.and_eq_true, beq_iff_eq] at h
  obtain ⟨⟨hlibrary, himports⟩, hchecks⟩ := h
  refine ⟨f, hf, ?_, hchecks⟩
  rintro ⟨name, hname, holder, hr, -, hleads⟩
  rw [himports, List.mem_singleton] at hname
  have hleaf : circle.resolve? "L" "D" = some { path := leaf } := by decide +kernel
  rw [hname, hlibrary, hleaf] at hr
  obtain rfl := Option.some.inj hr
  obtain ⟨q, ⟨g, other, -, hg, hother, -⟩, -⟩ := Relation.TransGen.head'_iff.1 hleads
  have hnone : (circle.file? leaf).all
      (fun g => g.lookups circular circle.faults == []) = true := by decide +kernel
  rw [hg, Option.all_some, beq_iff_eq] at hnone
  simp [hnone] at hother

end Sample

namespace Workspace

/-- The variable of the subprogram `T` is reported in whatever order the files are opened. -/
theorem Reachable.opening_order_variables_sample :
    Reachable Sample.circle ∧ Sample.circle.Unparsed ∧
      ∃ f, Sample.circle.file? Sample.untangled = some f ∧
        ¬ Sample.circle.Entangled Sample.circular f ∧
        (Sample.circle.checks Sample.circular [f.path] f).map (·.message) =
          ["unresolved reference: '#Y'"] ∧
        ∀ paths paths' : List Path, paths.Perm paths' →
          (Sample.circle.openAll Sample.circular paths).undeclared Sample.untangled =
            (Sample.circle.openAll Sample.circular paths').undeclared Sample.untangled := by
  obtain ⟨f, hf, hnot, hchecks⟩ := Sample.exists_untangled
  exact ⟨Sample.reachable_circle, Sample.unparsed_circle, f, hf, hnot, hchecks,
    (opening_order_variables Sample.reachable_circle Sample.unparsed_circle Sample.circular
      hf).1.2 (.inl hnot)⟩

/-- The variable of the subprogram `S` is reported if the subprogram is opened before its copycode,
and it is not if the copycode is opened first. -/
theorem variables_unchecked :
    Reachable Sample.circle ∧ Sample.circle.Unparsed ∧
      [Sample.entangled, Sample.copycode].Perm [Sample.copycode, Sample.entangled] ∧
      ((Sample.circle.openAll Sample.circular
        [Sample.entangled, Sample.copycode]).undeclared Sample.entangled).map (·.map (·.message)) =
          some ["unresolved reference: '#X'"] ∧
      (Sample.circle.openAll Sample.circular
        [Sample.copycode, Sample.entangled]).undeclared Sample.entangled = some [] :=
  ⟨Sample.reachable_circle, Sample.unparsed_circle, .swap .., by decide +kernel⟩

end Workspace

end Steplib
