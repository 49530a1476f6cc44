import Steplib.Proofs.Parse.Agreement
import Steplib.Proofs.Workspace.Resolution

/-!
# Files in step with the names they refer to

A file is in step when its edges and its waits are what the names it refers to resolve to: the names
of its module, which is not stale, or those of its scan as long as it has no module. Parsing a file
or recording its scan brings the file in step and leaves every other file alone. A whole parse, with
the parses nested in it, therefore brings each file in step or leaves it alone.

## Main definitions

* `ModuleFile.referred`: the names that a file refers to.
* `Workspace.Connected`, `Workspace.Awaits`: the edges and the waits of a file follow from names.
* `Workspace.Follows`, `Workspace.InStep`: both follow from the names that the file refers to.
* `Workspace.Aligns`: one file is brought in step, the others are left alone and no name changes.
* `Workspace.Refreshes`: every file is brought in step or left alone, and no name changes.

## Main results

* `Workspace.aligns_install`, `Workspace.aligns_registerScan`: one parse or scan.
* `Workspace.refreshes_parse`: a parse with the parses nested in it.
-/

namespace Steplib

theorem WaitingIndex.Waits.congr {w : WaitingIndex} {p q : Path} {name : String}
    (h : p.same q = true) : w.Waits p name ↔ w.Waits q name := by
  simp only [Waits, Lists, PathSet.contains_congr _ h]

/-- The names that the file refers to: those of its module if it has one, otherwise those that a
scan finds. -/
def ModuleFile.referred (f : ModuleFile) (sources : Sources) : List String :=
  match f.state.module? with
  | some m => m.references
  | none => ((f.scan? sources).map fun s => s.candidates.map (·.name)).getD []

namespace Workspace

/-- The edges of the file lead to the other files that the names stand for. -/
def Connected (ws : Workspace) (f : ModuleFile) (names : List String) : Prop :=
  ∀ q, f.outgoing.contains q = (ws.targets f names).contains q

/-- The file waits for those of the names that stand for nothing. -/
def Awaits (ws : Workspace) (f : ModuleFile) (names : List String) : Prop :=
  ∀ name, ws.waiting.Waits f.path name ↔ name ∈ (ws.unresolved f.library names).map Ascii.upper

/-- The edges and the waits of the file follow from the names that it refers to, and its module, if
it has one, is not stale. -/
structure Follows (sources : Sources) (ws : Workspace) (f : ModuleFile) : Prop where
  current : ∀ m, f.state ≠ .stale m
  connected : ws.Connected f (f.referred sources)
  awaits : ws.Awaits f (f.referred sources)

/-- There is a file at the path, and it follows the names that it refers to. -/
def InStep (sources : Sources) (ws : Workspace) (p : Path) : Prop :=
  ∃ f, ws.file? p = some f ∧ ws.Follows sources f

/-- The file at a path is the same in both workspaces, but for its callers, and waits for the same
names. -/
structure Kept (ws ws' : Workspace) (p : Path) : Prop where
  own : (ws'.file? p).map ModuleFile.own = (ws.file? p).map ModuleFile.own
  waits : ∀ name, ws'.waiting.Waits p name ↔ ws.waiting.Waits p name

/-- Names, and what is known of files besides references, are the same in both workspaces, the file
at `p` is in step in the second one, and the others are left alone. -/
structure Aligns (sources : Sources) (p : Path) (ws ws' : Workspace) : Prop where
  skeleton : ws'.skeleton = ws.skeleton
  modules : ∀ q, ws.HasModule q → ws'.HasModule q
  inStep : InStep sources ws' p
  others : ∀ q, p.same q = false → Kept ws ws' q

/-- Names, and what is known of files besides references, are the same in both workspaces, and every
file is in step in the second one or left alone. -/
structure Refreshes (sources : Sources) (ws ws' : Workspace) : Prop where
  skeleton : ws'.skeleton = ws.skeleton
  modules : ∀ p, ws.HasModule p → ws'.HasModule p
  files : ∀ p, Kept ws ws' p ∨ InStep sources ws' p

variable {sources : Sources} {ws ws₁ ws' : Workspace} {f f' : ModuleFile} {p q : Path}
  {names : List String}

/-! ### Files that are left alone -/

theorem Kept.refl (ws : Workspace) (p : Path) : Kept ws ws p :=
  ⟨rfl, fun _ => Iff.rfl⟩

theorem Kept.trans (h : Kept ws ws₁ p) (h' : Kept ws₁ ws' p) : Kept ws ws' p :=
  ⟨h'.own.trans h.own, fun name => (h'.waits name).trans (h.waits name)⟩

theorem Kept.symm (h : Kept ws ws' p) : Kept ws' ws p :=
  ⟨h.own.symm, fun name => (h.waits name).symm⟩

/-- A file that is left alone is still there. -/
theorem Kept.exists_file (h : Kept ws ws' p) (hf : ws.file? p = some f) :
    ∃ f', ws'.file? p = some f' ∧ f'.own = f.own := by
  have ho := h.own
  rw [hf] at ho
  exact Option.map_eq_some_iff.1 ho

theorem bare_eq_of_own (h : f'.own = f.own) : f'.bare = f.bare := by
  rw [ModuleFile.eq_of_own h]
  rfl

theorem referred_eq_of_own (h : f'.own = f.own) : f'.referred sources = f.referred sources := by
  rw [ModuleFile.eq_of_own h]
  rfl

/-- The edges of a file that is left alone follow from the same names as long as these resolve in
the same way. -/
theorem Connected.of_own (ho : f'.own = f.own)
    (hr : ∀ name ∈ names, ws'.resolve? f.library name = ws.resolve? f.library name)
    (h : ws.Connected f names) : ws'.Connected f' names := by
  have hdestinations : ws'.destinations f.library f.path names =
      ws.destinations f.library f.path names :=
    List.filterMap_congr fun name hname => by rw [hr name hname]
  rw [ModuleFile.eq_of_own ho]
  intro q
  refine (h q).trans ?_
  simp only [targets, hdestinations]

theorem Awaits.of_own (ho : f'.own = f.own)
    (hw : ∀ name, ws'.waiting.Waits f.path name ↔ ws.waiting.Waits f.path name)
    (hr : ∀ name ∈ names, ws'.resolve? f.library name = ws.resolve? f.library name)
    (h : ws.Awaits f names) : ws'.Awaits f' names := by
  have hunresolved : ws'.unresolved f.library names = ws.unresolved f.library names :=
    List.filter_congr fun name hname => by rw [hr name hname]
  rw [ModuleFile.eq_of_own ho]
  intro name
  rw [hunresolved]
  exact (hw name).trans (h name)

/-- A file in step that is left alone stays in step as long as the names that it refers to resolve
in the same way. -/
theorem InStep.kept_of_resolve? (h : InStep sources ws p) (hk : ws.Keyed) (hkept : Kept ws ws' p)
    (hr : ∀ f, ws.file? p = some f → ∀ name ∈ f.referred sources,
      ws'.resolve? f.library name = ws.resolve? f.library name) : InStep sources ws' p := by
  obtain ⟨f, hf, hfollows⟩ := h
  obtain ⟨f', hf', ho⟩ := hkept.exists_file hf
  have hw (name : String) : ws'.waiting.Waits f.path name ↔ ws.waiting.Waits f.path name := by
    rw [WaitingIndex.Waits.congr (hk p f hf), hkept.waits,
      ← WaitingIndex.Waits.congr (hk p f hf)]
  refine ⟨f', hf', fun m => ?_, ?_, ?_⟩
  · rw [ModuleFile.eq_of_own ho]
    exact hfollows.current m
  · rw [referred_eq_of_own ho]
    exact hfollows.connected.of_own ho (hr f hf)
  · rw [referred_eq_of_own ho]
    exact hfollows.awaits.of_own ho hw (hr f hf)

/-- A file in step that is left alone stays in step. -/
theorem InStep.kept (h : InStep sources ws p) (hk : ws.Keyed) (hkept : Kept ws ws' p)
    (hs : ws'.skeleton = ws.skeleton) : InStep sources ws' p :=
  h.kept_of_resolve? hk hkept fun _ _ _ _ => resolve?_eq_of_skeleton hs ..

theorem Refreshes.refl (sources : Sources) (ws : Workspace) : Refreshes sources ws ws :=
  ⟨rfl, fun _ h => h, fun p => .inl (.refl ws p)⟩

theorem Refreshes.trans (hk : ws.Keyed) (h : Refreshes sources ws ws₁)
    (h' : Refreshes sources ws₁ ws') : Refreshes sources ws ws' := by
  refine ⟨h'.skeleton.trans h.skeleton, fun p hp => h'.modules p (h.modules p hp), fun p => ?_⟩
  rcases h'.files p with hkept | hstep
  · rcases h.files p with hkept₁ | hstep₁
    · exact .inl (hkept₁.trans hkept)
    · exact .inr (hstep₁.kept (hk.of_skeleton h.skeleton) hkept h'.skeleton)
  · exact .inr hstep

/-- A file in step stays in step. -/
theorem Refreshes.inStep (h : Refreshes sources ws ws') (hk : ws.Keyed)
    (hp : InStep sources ws p) : InStep sources ws' p :=
  (h.files p).elim (fun hkept => hp.kept hk hkept h.skeleton) id

theorem InStep.congr (h : p.same q = true) : InStep sources ws p ↔ InStep sources ws q := by
  rw [InStep, InStep, ws.file?_congr h]

theorem Aligns.refreshes (h : Aligns sources p ws ws') : Refreshes sources ws ws' := by
  refine ⟨h.skeleton, h.modules, fun q => ?_⟩
  cases hs : p.same q with
  | true => exact .inr ((InStep.congr hs).1 h.inStep)
  | false => exact .inl (h.others q hs)

/-! ### One parse or scan -/

/-- When the references of a file are set from the names that it refers to, with at most its module
changed before, the file is in step and the others are left alone. -/
theorem aligns_of_rewired (change : ModuleFile → ModuleFile) (hw : ws.waiting.Mirrored)
    (hf : ws.Live f) (hs : ws'.skeleton = ws.skeleton)
    (hfile : ∀ q, ws'.file? q = (ws.file? q).map fun g =>
      rewired f.path f.outgoing (ws.targets f names) q (if f.path.same q then change g else g))
    (hwaiting : ws'.waiting = ws.waiting.replace f.path (ws.unresolved f.library names))
    (hnames : (change f).referred sources = names) (hcurrent : ∀ m, (change f).state ≠ .stale m)
    (hmodule : f.state.module?.isSome → (change f).state.module?.isSome) :
    Aligns sources f.path ws ws' := by
  have hself : ws'.file? f.path =
      some (rewired f.path f.outgoing (ws.targets f names) f.path (change f)) := by
    have hf : ws.file? f.path = some f := hf
    rw [hfile, hf]
    simp
  have hstep : InStep sources ws' f.path := by
    obtain ⟨g, hg, hb⟩ := exists_file_of_skeleton hs hf
    obtain rfl := Option.some.inj (hself.symm.trans hg)
    have hreferred : (rewired f.path f.outgoing (ws.targets f names) f.path (change f)).referred
        sources = names := hnames
    refine ⟨_, hself, hcurrent, ?_, ?_⟩ <;> rw [hreferred]
    · intro q
      rw [targets_eq_of_skeleton hs hb]
      simp [rewired]
    · intro name
      rw [hwaiting, WaitingIndex.waits_replace hw, ModuleFile.path_eq_of_bare hb,
        Path.same_refl, if_pos rfl, unresolved_eq_of_skeleton hs,
        ModuleFile.library_eq_of_bare hb]
  refine ⟨hs, fun p hp => ?_, hstep, fun p hsame => ⟨?_, fun name => ?_⟩⟩
  · obtain ⟨g, m, hg, hm⟩ := hp
    cases hsame : f.path.same p with
    | true =>
      rw [← ws.file?_congr hsame, hf] at hg
      obtain rfl := Option.some.inj hg
      obtain ⟨m', hm'⟩ := Option.isSome_iff_exists.1 (hmodule (by rw [hm]; rfl))
      have hfile' := (ws'.file?_congr hsame).symm.trans hself
      exact ⟨_, m', hfile', hm'⟩
    | false =>
      have hfile' := hfile p
      rw [hg, hsame] at hfile'
      exact ⟨_, m, hfile', hm⟩
  · rw [hfile, Option.map_map]
    refine congrArg (Option.map · (ws.file? p)) (funext fun g => ?_)
    have hsame' : p.same f.path = false := by rw [Path.same_comm, hsame]
    simp [ModuleFile.own, rewired, hsame, hsame']
  · rw [hwaiting, WaitingIndex.waits_replace hw, hsame]
    rfl

/-- Installing the module of a file brings the file in step and leaves the others alone. -/
theorem aligns_install (hw : ws.waiting.Mirrored) (hf : ws.Live f) (m : Module)
    (ds : List Diagnostic) : Aligns sources f.path ws (ws.install f m ds) :=
  aligns_of_rewired (·.setParsed m ds) hw hf (skeleton_install ..)
    (file?_install hf m ds) (waiting_install ..) rfl (by simp [ModuleFile.setParsed]) fun _ => rfl

/-- Recording the scan of a file without a module brings the file in step and leaves the others
alone. -/
theorem aligns_registerScan (hw : ws.waiting.Mirrored) (hf : ws.Live f) {s : Scan}
    (hs : f.scan? sources = some s) (hstate : f.state = .unparsed ∨ f.state = .closed) :
    Aligns sources f.path ws (ws.registerScan f s).1 := by
  have heq : (ws.registerScan f s).1 = { ws.setReferences f (s.candidates.map (·.name)) with
      cache := ws.cacheReferences f s.candidates } := by
    rcases hstate with h | h <;> simp [registerScan, h]
  have hreferred : f.referred sources = s.candidates.map (·.name) := by
    rcases hstate with h | h <;> simp [ModuleFile.referred, ModuleState.module?, h, hs]
  have hcurrent (m : Module) : f.state ≠ .stale m := by rcases hstate with h | h <;> simp [h]
  rw [heq]
  refine aligns_of_rewired id hw hf (skeleton_setReferences ..) (fun q => ?_)
    (waiting_setReferences ..) hreferred hcurrent id
  refine (file?_setReferences hf _ q).trans ?_
  simp only [id, ite_self]

/-- It does not matter whether the name and the edges of the file have changed since it was looked
up. -/
theorem aligns_registerScan_of_unlinked (hk : ws.Keyed) (hw : ws.waiting.Mirrored)
    (hf : (ws.file? f.path).map unlinked = some (unlinked f)) {s : Scan}
    (hs : f.scan? sources = some s) (hstate : f.state = .unparsed ∨ f.state = .closed) :
    Aligns sources f.path ws (ws.registerScan f s).1 := by
  obtain ⟨f₁, hf₁, hb⟩ := Option.map_eq_some_iff.1 hf
  have hpath : f₁.path = f.path := congrArg (·.path) hb
  have hstate₁ : f₁.state = f.state := congrArg (·.state) hb
  rw [← registerScan_congr ws hb, ← hpath]
  exact aligns_registerScan hw (hk.live hf₁) (by rw [scan?_congr hb, hs])
    (by rw [hstate₁]; exact hstate)

/-! ### A parse with the parses nested in it -/

section Runs

variable {busy log : List Path} {library : String} {found : List (String × Option Module)}

theorem Finds.aligns_settle (run : Finds sources busy library names ws found ws₁ log)
    (hk : ws.Keyed) (hw : ws.waiting.Mirrored) (hf : ws.Live f) :
    Aligns sources f.path ws₁ (settle sources f ws₁ found) := by
  obtain ⟨f₁, hlive, hb, heq⟩ := run.settle_eq hk hf
  rw [heq, ← ModuleFile.path_eq_of_bare hb]
  exact aligns_install (run.mirrored hw) hlive _ _

/-- A run brings every file in step or leaves it alone. -/
theorem Finds.refreshes (run : Finds sources busy library names ws found ws' log)
    (hk : ws.Keyed) (hw : ws.waiting.Mirrored) : Refreshes sources ws ws' := by
  induction run with
  | nil => exact .refl sources _
  | missing _ _ ih => exact ih hk hw
  | known _ _ ih => exact ih hk hw
  | pending _ _ _ ih => exact ih hk hw
  | nested hl _ run rest ihRun ihRest =>
    obtain ⟨p, hp⟩ := file?_of_lookUp hl
    have hsettle := (run.aligns_settle hk hw (hk.live hp)).refreshes
    have hinner := (ihRun hk hw).trans hk hsettle
    refine hinner.trans hk (ihRest (hk.of_skeleton hinner.skeleton) ?_)
    rw [waiting_settle]
    exact (run.mirrored hw).replace _ _

/-- A parse brings the file in step, and every other file in step or leaves it alone. -/
theorem Parses.refreshes {m : Module} (run : Parses sources busy f ws m ws' log) (hk : ws.Keyed)
    (hw : ws.waiting.Mirrored) (hf : ws.Live f) :
    Refreshes sources ws ws' ∧ InStep sources ws' f.path := by
  cases run with
  | intro run =>
    have hsettle := run.aligns_settle hk hw hf
    exact ⟨(run.refreshes hk hw).trans hk hsettle.refreshes, hsettle.inStep⟩

end Runs

theorem refreshes_parse (sources : Sources) (hk : ws.Keyed) (hw : ws.waiting.Mirrored)
    (hf : ws.Live f) :
    Refreshes sources ws (ws.parse sources f).2 ∧
      InStep sources (ws.parse sources f).2 f.path := by
  obtain ⟨log, run⟩ := parses_parse sources hk f
  exact run.refreshes hk hw hf

end Workspace

end Steplib
