import Steplib.Proofs.Parse.VariableChecks
import Steplib.Proofs.Workspace.Deletion
import Steplib.Proofs.Workspace.Propagation

/-!
# Data areas and their importers

When the text of a data area changes, the area is parsed first and its callers after it. By then the
area has its new module, and no parse on the way takes that away, so every file that is parsed from
there on checks its variables against the new symbols. A file that is not parsed after the area does
not refer to it, before or after. So the check of an importer never goes by an old symbol table, nor
by a placeholder, whatever the callers refer to besides and whether or not they call each other.

## Main definitions

* `Workspace.StandsFor`: a name leads to a file.
* `Workspace.Provides`: a file has a module.
* `Workspace.Consults`: the check of a file has gone by a certain module of another file.
* `Workspace.Informs`: the files that were parsed have all gone by that module.
* `Workspace.ChecksAgainst`: what the diagnostics of an importer say about a data area.

## Main results

* `Workspace.Finds.informs`, `Workspace.Arises.informs_parseAll`: what is parsed while a file has a
  module goes by that module.
* `Workspace.Reachable.importers_follow`: a changed data area reaches its importers.
-/

namespace Steplib

theorem Problem.message_unresolvedReference (name : String) :
    (unresolvedReference name).message = "unresolved reference: '" ++ name ++ "'" := rfl

/-- The wording tells the variable. -/
theorem Problem.unresolvedReference_message_inj {a b : String}
    (h : (unresolvedReference a).message = (unresolvedReference b).message) : a = b := by
  rw [message_unresolvedReference, message_unresolvedReference, String.append_left_inj] at h
  rwa [String.append_right_inj] at h

namespace Module

/-- Data areas shape their callers. -/
theorem shapesCallers_of_isDataArea {m : Module} (h : m.type.isDataArea = true) :
    m.shapesCallers = true := by
  unfold shapesCallers
  cases ht : m.type <;> simp [ht, ObjectType.isDataArea] at h ⊢

/-- The diagnostics for the uses of variables that neither the module nor the data area declares. -/
def undeclaredBeside (m area : Module) : List Diagnostic :=
  m.variableUses.filterMap fun (name, span) =>
    if m.symbols.contains name || area.symbols.contains name then none
    else some (.ofProblem m.path span (.unresolvedReference name))

variable {m area : Module} {find : String → Option Module} {u : UsingClause}

/-- What is reported is a variable that is not in scope. -/
theorem exists_of_mem_variableDiagnostics {d : Diagnostic} (hd : d ∈ m.variableDiagnostics find) :
    ∃ name, d.message = (Problem.unresolvedReference name).message ∧
      m.inScope find name = false := by
  rw [variableDiagnostics] at hd
  split at hd
  · rcases List.mem_append.1 hd with hd | hd
    · obtain ⟨⟨name, span⟩, -, hd⟩ := List.mem_filterMap.1 hd
      dsimp only at hd
      split at hd
      · simp at hd
      · rename_i hscope
        obtain rfl := Option.some.inj hd
        exact ⟨name, rfl, by simpa using hscope⟩
    · obtain ⟨⟨copycode, includeSpan⟩, -, hd⟩ := List.mem_flatMap.1 hd
      obtain ⟨⟨name, span⟩, -, hd⟩ := List.mem_filterMap.1 hd
      dsimp only at hd
      split at hd
      · simp at hd
      · rename_i hscope
        obtain rfl := Option.some.inj hd
        exact ⟨name, rfl, by simpa using hscope⟩
  · simp at hd

section Using

variable (hu : u ∈ m.usings) (hfind : find u.name = some area)

include hu hfind

/-- The symbols of an imported data area are in scope. -/
theorem inScope_of_using {name : String} (h : area.symbols.contains name = true) :
    m.inScope find name = true := by
  rw [inScope, Bool.or_eq_true, List.any_eq_true]
  exact .inr ⟨u, hu, by rw [hfind, Option.any_some, h]⟩

/-- No variable that an imported data area declares is reported. -/
theorem message_ne_of_declared {name : String} (h : area.symbols.contains name = true)
    {d : Diagnostic} (hd : d ∈ m.variableDiagnostics find) :
    d.message ≠ (Problem.unresolvedReference name).message := by
  intro hmessage
  obtain ⟨other, hother, hscope⟩ := exists_of_mem_variableDiagnostics hd
  obtain rfl := Problem.unresolvedReference_message_inj (hmessage.symm.trans hother)
  simp [inScope_of_using hu hfind h] at hscope

/-- With a single import everything is reported that neither side declares. -/
theorem variableDiagnostics_eq_undeclaredBeside (hpending : area.pending = false)
    (husings : ∀ v ∈ m.usings, v.name = u.name) (hincludes : ∀ s ∈ m.tree, included? s = none)
    (htype : m.type ≠ .copycode) : m.variableDiagnostics find = m.undeclaredBeside area := by
  have hincluded : m.included find = [] := by
    refine List.filterMap_eq_nil_iff.2 fun s hs => ?_
    split
    · rename_i haction
      simpa [included?, haction] using hincludes s hs
    · rfl
  have hcomplete : m.importsComplete find = true := by
    rw [importsComplete, hincluded, List.all_nil, Bool.and_true, List.all_eq_true]
    intro v hv
    rw [husings v hv, hfind, Option.any_some, hpending, Bool.not_false]
  have hscope (name : String) :
      m.inScope find name = (m.symbols.contains name || area.symbols.contains name) := by
    rw [inScope]
    congr 1
    rw [Bool.eq_iff_iff, List.any_eq_true]
    constructor
    · rintro ⟨v, hv, hname⟩
      rwa [husings v hv, hfind, Option.any_some] at hname
    · exact fun hname => ⟨u, hu, by rw [hfind, Option.any_some, hname]⟩
  have hchecks : (m.type != .copycode && m.importsComplete find) = true := by
    rw [hcomplete, Bool.and_true, bne_iff_ne]
    exact htype
  rw [variableDiagnostics, if_pos hchecks, includedVariableDiagnostics, hincluded,
    List.flatMap_nil, List.append_nil, ownVariableDiagnostics, undeclaredBeside]
  simp only [hscope]

end Using

end Module

namespace Workspace

/-- The name, as seen from a library, leads to the file at the path. -/
def StandsFor (ws : Workspace) (library name : String) (p : Path) : Prop :=
  ∃ holder, ws.resolve? library name = some holder ∧ holder.path.same p = true

/-- The file at the path has been parsed and has the module. -/
def Provides (ws : Workspace) (p : Path) (m : Module) : Prop :=
  ∃ f, ws.file? p = some f ∧ f.state = .parsed m

/-- The file at `q` has the module of its source, and the check of its variables has gone by the
module `area` wherever a name leads to the file at `p`. -/
def Consults (sources : Sources) (ws : Workspace) (p : Path) (area : Module) (q : Path) : Prop :=
  ∃ c find, ws.file? q = some c ∧ c.state = .parsed (c.content sources ws.faults) ∧
    (c.diagnostics.ofTool .parser).filter (·.isUndeclared) =
      (c.content sources ws.faults).variableDiagnostics find ∧
    ∀ name ∈ (c.content sources ws.faults).references, ws.StandsFor c.library name p →
      find name = some area

/-- The files on the log are renewed and have gone by the module `area` of the file at `p`, which is
still its module. -/
structure Informs (sources : Sources) (p : Path) (area : Module) (ws ws' : Workspace)
    (log : List Path) : Prop extends Renews sources ws ws' log where
  provides : ws'.Provides p area
  consults : ∀ q, log.any (·.same q) = true → ws'.Consults sources p area q

variable {sources : Sources} {ws ws₁ ws' : Workspace} {f : ModuleFile} {p q : Path}
  {busy log log' paths : List Path} {library name : String} {names : List String}
  {found : List (String × Option Module)} {m area : Module}

/-! ### Looking up a file with a module -/

theorem Provides.hasModule (h : ws.Provides p m) : ws.HasModule p := by
  obtain ⟨f, hf, hstate⟩ := h
  exact ⟨f, m, hf, by rw [hstate]; rfl⟩

theorem Provides.kept (h : ws.Provides p m) (hkept : Kept ws ws' p) : ws'.Provides p m := by
  obtain ⟨f, hf, hstate⟩ := h
  obtain ⟨f', hf', ho⟩ := hkept.exists_file hf
  have hstate' : f'.state = f.state := congrArg (·.state) ho
  exact ⟨f', hf', hstate'.trans hstate⟩

theorem StandsFor.of_skeleton (h : ws.StandsFor library name p)
    (hs : ws'.skeleton = ws.skeleton) : ws'.StandsFor library name p := by
  obtain ⟨holder, hr, hsame⟩ := h
  exact ⟨holder, by rw [resolve?_eq_of_skeleton hs, hr], hsame⟩

/-- A name that leads to a file with a module is answered with the module. -/
theorem Provides.lookUp (h : ws.Provides p m) (hn : ws.Named)
    (hname : ws.StandsFor library name p) : ws.lookUp library name = .known m := by
  obtain ⟨f, hf, hstate⟩ := h
  obtain ⟨holder, hr, hs⟩ := hname
  obtain ⟨-, -, hlive, -⟩ := hn.holds_of_resolve? hr
  simp only [Workspace.lookUp, hr, hlive, if_true, ws.file?_congr hs, hf, hstate,
    ModuleState.module?]

/-- A file with a module keeps it in a run. -/
theorem Finds.provides (run : Finds sources busy library names ws found ws' log) (ha : Arises ws)
    (h : ws.Provides p m) : ws'.Provides p m := by
  refine h.kept ((run.renews ha).others p (List.any_eq_false.2 fun q hq => ?_))
  simpa using run.other_of_hasModule ha.keyed h.hasModule q hq

/-- A file that is parsed on the way is not one that has a module. -/
theorem Provides.other_of_lookUp {target : ModuleFile} (h : ws.Provides p m) (hk : ws.Keyed)
    (hl : ws.lookUp library name = .unparsed target) : target.path.same p = false :=
  Bool.eq_false_iff.2 fun hs => hk.not_hasModule hl ((HasModule.congr hs).2 h.hasModule)

/-- A file with a module keeps it when another one is settled. -/
theorem Arises.provides_settle (ha : Arises ws)
    (run : Finds sources busy f.library (f.lookups sources ws.faults) ws found ws₁ log)
    (hf : ws.Live f) (h : ws.Provides p m) (hother : f.path.same p = false) :
    (settle sources f ws₁ found).Provides p m :=
  (run.provides ha h).kept ((ha.renews_settle run hf).others p (by simpa using hother))

/-- A run finds the module of a file that has one under every name that leads to the file. -/
theorem Finds.foundModule_of_provides
    (run : Finds sources busy library names ws found ws' log) (ha : Arises ws)
    (h : ws.Provides p m) (hmem : name ∈ names) (hname : ws.StandsFor library name p) :
    foundModule found name = some m := by
  induction run with
  | nil => simp at hmem
  | missing hl _ ih =>
    rw [foundModule_cons]
    split
    · subst name
      simp [h.lookUp ha.named hname] at hl
    · rename_i hne
      exact ih ha h ((List.mem_cons.1 hmem).resolve_left hne) hname
  | known hl _ ih =>
    rw [foundModule_cons]
    split
    · subst name
      rw [h.lookUp ha.named hname] at hl
      rw [Lookup.known.inj hl]
    · rename_i hne
      exact ih ha h ((List.mem_cons.1 hmem).resolve_left hne) hname
  | pending hl _ _ ih =>
    rw [foundModule_cons]
    split
    · subst name
      simp [h.lookUp ha.named hname] at hl
    · rename_i hne
      exact ih ha h ((List.mem_cons.1 hmem).resolve_left hne) hname
  | @nested _ _ _ _ _ _ _ _ _ _ _ target hl _ run _ _ ihRest =>
    rw [foundModule_cons]
    split
    · subst name
      simp [h.lookUp ha.named hname] at hl
    · rename_i hne
      obtain ⟨r, hr⟩ := file?_of_lookUp hl
      have hlive := ha.keyed.live hr
      exact ihRest (ha.finds_settle run hlive)
        (ha.provides_settle run hlive h (h.other_of_lookUp ha.keyed hl))
        ((List.mem_cons.1 hmem).resolve_left hne)
        (hname.of_skeleton (run.skeleton_settle target))

/-! ### Parses while a file has a module -/

/-- A check that has gone by a module still has when the file is left alone. -/
theorem Consults.kept (h : ws.Consults sources p area q) (hkept : Kept ws ws' q)
    (hs : ws'.skeleton = ws.skeleton) : ws'.Consults sources p area q := by
  obtain ⟨c, find, hc, hstate, hds, hfind⟩ := h
  obtain ⟨c', hc', ho⟩ := hkept.exists_file hc
  have hstate' : c'.state = c.state := congrArg (·.state) ho
  have hds' : c'.diagnostics = c.diagnostics := congrArg (·.diagnostics) ho
  have hlibrary : c'.library = c.library := congrArg (·.library) ho
  have hcontent : c'.content sources ws'.faults = c.content sources ws.faults := by
    rw [ModuleFile.content_eq_of_bare (bare_eq_of_own ho), faults_eq_of_skeleton hs]
  refine ⟨c', find, hc', ?_, ?_, fun name hname hstands => ?_⟩
  · rw [hstate', hstate, hcontent]
  · rw [hds', hds, hcontent]
  · rw [hcontent] at hname
    rw [hlibrary] at hstands
    exact hfind name hname (hstands.of_skeleton hs.symm)

theorem Informs.refl (sources : Sources) (h : ws.Provides p area) :
    Informs sources p area ws ws [] :=
  { Renews.refl sources ws with
    provides := h
    consults := fun _ hq => by simp at hq }

theorem Informs.trans (h : Informs sources p area ws ws₁ log)
    (h' : Informs sources p area ws₁ ws' log') (hk : ws.Keyed) :
    Informs sources p area ws ws' (log ++ log') where
  toRenews := h.toRenews.trans h'.toRenews hk
  provides := h'.provides
  consults q hq := by
    rw [List.any_append, Bool.or_eq_true] at hq
    cases hlater : log'.any (·.same q) with
    | true => exact h'.consults q hlater
    | false =>
      have hbefore := h.consults q (hq.resolve_right (by simp [hlater]))
      exact hbefore.kept (h'.others q hlater) h'.skeleton

/-- The file that is settled after its names have been looked up has gone by the module. -/
theorem Arises.informs_settle (ha : Arises ws)
    (run : Finds sources busy f.library (f.lookups sources ws.faults) ws found ws₁ log)
    (hf : ws.Live f) (h : ws.Provides p area) (hother : f.path.same p = false) :
    Informs sources p area ws₁ (settle sources f ws₁ found) [f.path] := by
  refine ⟨ha.renews_settle run hf, ha.provides_settle run hf h hother, fun q hq => ?_⟩
  have hs : f.path.same q = true := by simpa using hq
  obtain ⟨_, g, -, hg, hb, hstate, -, hds⟩ := run.file?_settle ha.keyed hf
  have hskeleton := run.skeleton_settle f
  have hfaults := faults_eq_of_skeleton hskeleton
  have hcontent : g.content sources (settle sources f ws₁ found).faults =
      f.content sources ws.faults := by
    rw [ModuleFile.content_eq_of_bare hb, hfaults]
  refine ⟨g, foundModule found, ?_, ?_, ?_, fun name hname hstands => ?_⟩
  · rw [← file?_congr _ hs, hg]
  · rw [hstate, builtModule, ModuleFile.fst_outcome, hcontent, faults_eq_of_skeleton run.skeleton]
  · rw [hds, Partition.ofTool_replace, if_pos rfl, ModuleFile.filter_isUndeclared_outcome, hcontent,
      faults_eq_of_skeleton run.skeleton]
  · rw [hcontent, ModuleFile.mem_references_content] at hname
    rw [ModuleFile.library_eq_of_bare hb] at hstands
    exact run.foundModule_of_provides ha h hname (hstands.of_skeleton hskeleton.symm)

/-- Whatever is parsed on the way goes by the module of a file that has one. -/
theorem Finds.informs (run : Finds sources busy library names ws found ws' log) (ha : Arises ws)
    (h : ws.Provides p area) : Informs sources p area ws ws' log := by
  induction run with
  | nil => exact .refl sources h
  | missing _ _ ih => exact ih ha h
  | known _ _ ih => exact ih ha h
  | pending _ _ _ ih => exact ih ha h
  | @nested _ _ _ _ _ _ _ parsed _ _ log target hl _ run _ ihRun ihRest =>
    obtain ⟨r, hr⟩ := file?_of_lookUp hl
    have hlive := ha.keyed.live hr
    have hsettled := ha.informs_settle run hlive h (h.other_of_lookUp ha.keyed hl)
    have hinner := (ihRun ha h).trans hsettled ha.keyed
    have hall := hinner.trans (ihRest (ha.finds_settle run hlive) hsettled.provides) ha.keyed
    rwa [List.append_assoc, List.singleton_append] at hall

theorem Parses.informs (run : Parses sources [] f ws m ws' log) (ha : Arises ws) (hf : ws.Live f)
    (h : ws.Provides p area) (hother : f.path.same p = false) :
    Informs sources p area ws ws' log := by
  cases run with
  | intro run => exact (run.informs ha h).trans (ha.informs_settle run hf h hother) ha.keyed

/-- The files at the listed paths, parsed one after the other, all go by the module of a file that
is not among them. -/
theorem Arises.informs_parseAll (ha : Arises ws) (sources : Sources)
    (hpaths : ∀ q ∈ paths, (ws.file? q).isSome = true ∧ p.same q = false)
    (h : ws.Provides p area) :
    ∃ log, Informs sources p area ws (ws.parseAll sources paths).2 log ∧
      ∀ q, paths.any (·.same q) = true → log.any (·.same q) = true := by
  induction paths generalizing ws with
  | nil => exact ⟨[], .refl sources h, fun q hq => by simp at hq⟩
  | cons r paths ih =>
    obtain ⟨⟨hr, hother⟩, hpaths⟩ := List.forall_mem_cons.1 hpaths
    obtain ⟨f, hf⟩ := Option.isSome_iff_exists.1 hr
    have hlive := ha.keyed.live hf
    have hsame (q : Path) : f.path.same q = r.same q := Path.same_congr_left (ha.keyed r f hf) q
    obtain ⟨log, run⟩ := parses_parse sources ha.keyed f
    have hparse := run.informs ha hlive h (by rw [hsame, Path.same_comm, hother])
    have hthere : ∀ q ∈ paths, ((ws.parse sources f).2.file? q).isSome = true ∧
        p.same q = false := fun q hq => by
      obtain ⟨g, hg⟩ := Option.isSome_iff_exists.1 (hpaths q hq).1
      obtain ⟨g', hg', -⟩ := exists_file_of_skeleton hparse.skeleton hg
      rw [hg', Option.isSome_some]
      exact ⟨rfl, (hpaths q hq).2⟩
    obtain ⟨log', hrest, hmem⟩ :=
      ih (ha.moves (run.moves ha.keyed hlive)) hthere hparse.provides
    simp only [parseAll, hf]
    refine ⟨log ++ log', hparse.trans hrest ha.keyed, fun q hq => ?_⟩
    rw [List.any_cons, Bool.or_eq_true] at hq
    rw [List.any_append, Bool.or_eq_true]
    exact hq.imp (fun hs => List.any_eq_true.2 ⟨f.path, run.mem_log, by rw [hsame, hs]⟩) (hmem q)

/-! ### Callers -/

/-- A file that is left alone refers to the same files. -/
theorem Kept.calls_iff (h : Kept ws ws' q) : ws'.Calls q p ↔ ws.Calls q p := by
  have hto {ws ws' : Workspace} (h : Kept ws ws' q) (hcalls : ws.Calls q p) : ws'.Calls q p := by
    obtain ⟨c, hc, hout⟩ := hcalls
    obtain ⟨c', hc', ho⟩ := h.exists_file hc
    have houtgoing : c'.outgoing = c.outgoing := congrArg (·.outgoing) ho
    exact ⟨c', hc', by rw [houtgoing, hout]⟩
  exact ⟨hto h.symm, hto h⟩

/-- A renewed file refers to the other files that the names of its module lead to. -/
theorem Renewed.calls {c c' : ModuleFile} (h : Renewed sources ws c c') (hk : ws.Keyed)
    (hc : ws.file? q = some c') (hother : p.same q = false)
    (hname : name ∈ (c.content sources ws.faults).references)
    (hstands : ws.StandsFor c'.library name p) : ws.Calls q p := by
  obtain ⟨holder, hr, hs⟩ := hstands
  refine (Workspace.calls_iff hc).2 ?_
  rw [h.follows.connected, contains_targets_iff]
  refine ⟨name, ?_, holder, hr, ?_, hs⟩
  · rw [ModuleFile.referred, h.state]
    exact hname
  · rw [Path.same_congr_left hs, Path.same_comm, Path.same_congr_left (hk q c' hc), Path.same_comm,
      hother]

/-- A file that has ceased to refer to another one has been parsed, and none of its names leads
there. -/
theorem Renews.ceased (h : Renews sources ws ws' log) (hk' : ws'.Keyed)
    (hother : p.same q = false) (hbefore : ws.Calls q p) (hafter : ¬ ws'.Calls q p) :
    ∃ c m, ws'.file? q = some c ∧ c.state = .parsed m ∧
      ∀ name ∈ m.references, ¬ ws'.StandsFor c.library name p := by
  cases hlog : log.any (·.same q) with
  | false => exact absurd ((h.others q hlog).calls_iff.2 hbefore) hafter
  | true =>
    obtain ⟨c₀, c, -, hc, hrenewed⟩ := h.renewed q hlog
    exact ⟨c, _, hc, hrenewed.state, fun name hname hstands =>
      hafter (hrenewed.calls hk' hc hother hname hstands)⟩

/-! ### Changes of a data area -/

/-- What the parse of an importer has made of a data area that it imports by the name: no variable
of the area is reported, and if there is no other import, then every use of a variable is reported
that neither the importer nor the area declares. -/
structure ChecksAgainst (c : ModuleFile) (m area : Module) (name : String) : Prop where
  declared : ∀ used, area.symbols.contains used = true →
    ∀ d ∈ c.diagnostics.ofTool .parser, d.isUndeclared = true →
      d.message ≠ (Problem.unresolvedReference used).message
  only : (∀ v ∈ m.usings, v.name = name) → (∀ s ∈ m.tree, Module.included? s = none) →
    c.type ≠ .copycode →
    (c.diagnostics.ofTool .parser).filter (·.isUndeclared) = m.undeclaredBeside area

theorem Consults.checksAgainst (h : ws.Consults sources p area q)
    (hpending : area.pending = false) :
    ∃ c m, ws.file? q = some c ∧ c.state = .parsed m ∧
      ∀ u ∈ m.usings, ws.StandsFor c.library u.name p → ChecksAgainst c m area u.name := by
  obtain ⟨c, find, hc, hstate, hds, hfind⟩ := h
  refine ⟨c, _, hc, hstate, fun u hu hstands => ?_⟩
  have hfound := hfind u.name (Module.mem_references_of_using hu) hstands
  refine ⟨fun used hused d hd hcode => ?_, fun husings hincludes htype => ?_⟩
  · refine Module.message_ne_of_declared hu hfound hused ?_
    rw [← hds]
    exact List.mem_filter.2 ⟨hd, hcode⟩
  · rw [hds]
    refine Module.variableDiagnostics_eq_undeclaredBeside hu hfound hpending husings hincludes ?_
    rwa [ModuleFile.type_content]

/-- An edit of a data area parses the area and then, while the area has its new module, the callers
that it has by then. -/
theorem Arises.informs_edit (ha : Arises ws) (hp : ws.file? p = some f)
    (harea : f.type.isDataArea = true) (e : TextEdit) (sources : Sources) :
    ∃ ws₁ g log log', Arises ws₁ ∧ Renews sources (e.typed ws p) ws₁ log ∧ ws₁.file? p = some g ∧
      Informs sources p ((e.apply f).content sources ws.faults) ws₁
        (e.run sources ws p .withCallers).2 log' ∧
      ∀ q, g.incoming.contains q = true → log'.any (·.same q) = true := by
  have hsame := ha.keyed p f hp
  have htyped := ha.typed e p
  have hlive := e.live_typed ha.keyed hp
  obtain ⟨log, run⟩ := parses_parse sources htyped.keyed (e.apply f)
  have hrenews := run.renews htyped hlive
  have ha₁ := htyped.moves (run.moves htyped.keyed hlive)
  obtain ⟨g, hg, hstate⟩ := run.parsed htyped.keyed hlive
  have hcontent : ((e.typed ws p).parse sources (e.apply f)).1 =
      (e.apply f).content sources ws.faults := run.module_eq
  have hshapes : ((e.typed ws p).parse sources (e.apply f)).1.shapesCallers = true := by
    refine Module.shapesCallers_of_isDataArea ?_
    rw [hcontent, ModuleFile.type_content]
    exact harea
  have hrun : (e.run sources ws p .withCallers).2 =
      (((e.typed ws p).parse sources (e.apply f)).2.parseAll sources g.incoming.toList).2 := by
    rw [e.run_eq sources .withCallers hp, reparse]
    simp only [hshapes, and_self, if_true, reparseCallers, hg]
  have hcallers := ha₁.linked.callers hg
  have hp₁ : ((e.typed ws p).parse sources (e.apply f)).2.file? p = some g := by
    rw [← file?_congr _ hsame]
    exact hg
  obtain ⟨log', hinforms, hmem⟩ := ha₁.informs_parseAll sources
    (fun q hq => ⟨(hcallers q hq).1, by
      rw [← Path.same_congr_left hsame]
      exact (hcallers q hq).2⟩)
    ⟨g, hp₁, hstate⟩
  rw [hcontent, ← hrun] at hinforms
  exact ⟨_, g, log, log', ha₁, hrenews, hp₁, hinforms, hmem⟩

/-- A change or a save of a data area reaches its importers. The area gets the module of its new
text. Every caller that it had before or has afterwards is parsed, and if its module imports the
area, then its check has gone by the new symbols. A caller on which the parser fails has a module
without imports. -/
theorem Reachable.importers_follow (h : Reachable ws) (sources : Sources) (hp : ws.file? p = some f)
    (harea : f.type.isDataArea = true) (e : TextEdit)
    (hrun : (e.run sources ws p .withCallers).2 = ws') :
    ∃ f' area, ws'.file? p = some f' ∧ f'.state = .parsed area ∧
      area = (e.apply f).content sources ws.faults ∧
      ∀ q, f.incoming.contains q = true ∨ f'.incoming.contains q = true →
        ∃ c m, ws'.file? q = some c ∧ c.state = .parsed m ∧
          ∀ u ∈ m.usings, ws'.StandsFor c.library u.name p → ChecksAgainst c m area u.name := by
  have ha := h.arises
  have htyped := ha.typed e p
  obtain ⟨ws₁, g, log, log', ha₁, hrenews, hg, hinforms, hcallers⟩ :=
    ha.informs_edit hp harea e sources
  rw [hrun] at hinforms
  obtain ⟨f', hf', hstate⟩ := hinforms.provides
  refine ⟨f', _, hf', hstate, rfl, fun q hq => ?_⟩
  cases hlog' : log'.any (·.same q) with
  | true => exact (hinforms.consults q hlog').checksAgainst (ModuleFile.pending_outcome _)
  | false =>
    -- a file that is not parsed after the area has ceased to refer to it by then
    have hkept := hinforms.others q hlog'
    have hafter : ¬ ws₁.Calls q p := fun hcalls => by
      have hcalled := (calledBy_iff hg).1 ((ha₁.linked.symmetric q p).1 hcalls)
      simp [hcallers q hcalled] at hlog'
    have hbefore : (e.typed ws p).Calls q p := by
      rcases hq with hq | hq
      · exact (htyped.linked.symmetric q p).2 ((calledBy_iff (e.file?_typed_self hp)).2 hq)
      · have hlinked := (hrun ▸ e.reachable_run h sources p .withCallers).arises.linked
        exact absurd (hkept.calls_iff.1 ((hlinked.symmetric q p).2 ((calledBy_iff hf').2 hq)))
          hafter
    obtain ⟨c, m, hc, hstate₁, hnames⟩ := hrenews.ceased ha₁.keyed
      (htyped.linked.not_same_of_calls hbefore) hbefore hafter
    obtain ⟨c', hc', ho⟩ := hkept.exists_file hc
    have hstate' : c'.state = c.state := congrArg (·.state) ho
    have hlibrary : c'.library = c.library := congrArg (·.library) ho
    refine ⟨c', m, hc', hstate'.trans hstate₁, fun u hu hstands => ?_⟩
    rw [hlibrary] at hstands
    exact absurd (hstands.of_skeleton hinforms.skeleton.symm)
      (hnames _ (Module.mem_references_of_using hu))

end Workspace

namespace Sample

/-- The subprogram `S` imports the data area `A` and uses three variables. Nothing declares any of
them. -/
def shared : Sources := fun p =>
  match p.text with
  | "L/A.NSL" => .ok "DEFINE DATA LOCAL END-DEFINE"
  | "L/S.NSN" => .ok "DEFINE DATA LOCAL USING A END-DEFINE\nWRITE #X #Y\nWRITE #Z"
  | _ => .error .notFound

def area : Path := .ofText "L/A.NSL"

def importer : Path := .ofText "L/S.NSN"

/-- Both files were created. -/
def importing : Workspace :=
  (Operation.createFile area).run shared <| (Operation.createFile importer).run shared <|
    .fresh (.ofText "") {} { root := .ofText "" } [("L", .ofText "L", [])]

theorem reachable_importing : importing.Reachable :=
  .run (.run (.fresh ..) _ _) _ _

/-- The data area gets a declaration of `#Y`. -/
def declaring : TextEdit := .change "DEFINE DATA LOCAL\n1 #y (A5)\nEND-DEFINE"

end Sample

namespace Workspace

/-- The data area gets a declaration, and the importer, which had not been parsed yet, reports the
other two variables. -/
theorem Reachable.importers_follow_sample :
    Reachable Sample.importing ∧ ∃ ws',
      (Sample.declaring.run Sample.shared Sample.importing Sample.area .withCallers).2 = ws' ∧
      ∃ f f' area c m u, Sample.importing.file? Sample.area = some f ∧
        f.type.isDataArea = true ∧ f.incoming.contains Sample.importer = true ∧
        ws'.file? Sample.area = some f' ∧ f'.state = .parsed area ∧
        area.symbols.contains "#Y" = true ∧ ws'.file? Sample.importer = some c ∧
        c.state = .parsed m ∧ u ∈ m.usings ∧ ws'.StandsFor c.library u.name Sample.area ∧
        ChecksAgainst c m area u.name ∧ (c.diagnostics.ofTool .parser).map (·.message) =
          ["unresolved reference: '#X'", "unresolved reference: '#Z'"] := by
  generalize hrun : (Sample.declaring.run Sample.shared Sample.importing Sample.area
    .withCallers).2 = ws'
  obtain ⟨f, hf, h⟩ := (Option.any_eq_true _ _).1
    (by decide +kernel : (Sample.importing.file? Sample.area).any (fun f =>
      f.type.isDataArea && f.incoming.contains Sample.importer) = true)
  obtain ⟨htype, hincoming⟩ := Bool.and_eq_true_iff.1 h
  obtain ⟨f', area, hf', hstate', -, hcallers⟩ := importers_follow Sample.reachable_importing
    Sample.shared hf htype Sample.declaring hrun
  obtain ⟨c, m, hc, hstate, hchecks⟩ := hcallers _ (.inl hincoming)
  obtain ⟨hknown, himport, hresolved⟩ :
      (ws'.file? Sample.area).all (fun f' =>
        f'.state.module?.all (·.symbols.contains "#Y")) = true ∧
      (ws'.file? Sample.importer).all (fun c => c.library == "L" &&
        c.state.module?.all (fun m => m.usings.map (·.name) == ["A"]) &&
        (c.diagnostics.ofTool .parser).map (·.message) ==
          ["unresolved reference: '#X'", "unresolved reference: '#Z'"]) = true ∧
      ws'.resolve? "L" "A" = some { path := Sample.area } := by
    subst hrun
    decide +kernel
  simp only [hf', hstate', Option.all_some, ModuleState.module?] at hknown
  simp only [hc, hstate, Option.all_some, ModuleState.module?, Bool.and_eq_true, beq_iff_eq]
    at himport
  obtain ⟨⟨hlibrary, husings⟩, hmessages⟩ := himport
  obtain ⟨u, hu, hname⟩ := List.mem_map.1 (husings ▸ List.mem_singleton.2 rfl)
  have hstands : ws'.StandsFor c.library u.name Sample.area :=
    ⟨_, by rw [hlibrary, hname, hresolved], Path.same_refl _⟩
  exact ⟨Sample.reachable_importing, ws', rfl, f, f', area, c, m, u, hf, htype, hincoming, hf',
    hstate', hknown, hc, hstate, hu, hstands, hchecks u hu hstands, hmessages⟩

end Workspace

end Steplib
