import Steplib.Proofs.Parse.Answers

/-!
# What parses renew

A parse, with the parses nested in it, renews some files and leaves the others alone. What a file is
renewed to is settled by the skeleton of the workspace, which parses keep: its module, its edges,
its waits and its diagnostics, except for those about undeclared variables. Only these depend on the
modules that the parse has found, and so on what was parsed before it.

## Main definitions

* `Diagnostic.isUndeclared`: the diagnostic is about an undeclared variable.
* `Workspace.Renewed`: a file is as a parse leaves it.
* `Workspace.Renews`: the files at some paths are renewed, and the others are left alone.

## Main results

* `ModuleFile.filter_outcome_congr`: the other diagnostics depend only on which names are found.
* `Workspace.Renews.trans`: renewals compose.
* `Workspace.Parses.renews`: a parse renews the files that it parses.
* `Workspace.Parses.hasModule_of_mem`: the names of the renewed files lead to files with a module.
-/

namespace Steplib

/-- The diagnostic reports a variable that is not declared. -/
def Diagnostic.isUndeclared (d : Diagnostic) : Bool :=
  d.code == "E0001"

/-! ### Diagnostics that depend on names only -/

namespace Module

variable {m : Module} {find find' : String → Option Module}

theorem mem_references_of_using {u : UsingClause} (h : u ∈ m.usings) : u.name ∈ m.references :=
  List.mem_append_left _ (List.mem_map_of_mem h)

theorem mem_references_of_statement {s : Statement} {name : String} (h : s ∈ m.tree)
    (hname : s.reference? = some name) : name ∈ m.references :=
  List.mem_append_right _ (List.mem_filterMap.2 ⟨s, h, hname⟩)

section Congr

variable (h : ∀ name ∈ m.references, find name = none ↔ find' name = none)

include h

theorem importDiagnostics_congr : m.importDiagnostics find = m.importDiagnostics find' := by
  refine List.filterMap_congr fun u hu => ?_
  simp only [Option.isNone_iff_eq_none, h u.name (mem_references_of_using hu)]

theorem callDiagnostics_congr : m.callDiagnostics find = m.callDiagnostics find' := by
  refine List.filterMap_congr fun s hs => ?_
  cases hname : s.reference? with
  | none => rfl
  | some name =>
    cases missing? s.action with
    | none => rfl
    | some problem =>
      simp only [Option.isNone_iff_eq_none, h name (mem_references_of_statement hs hname)]

end Congr

end Module

/-- Of the diagnostics of a parse those about variables come last. -/
theorem snd_parseTokens (i : Identity) (tokens : List Token) (find : String → Option Module) :
    (parseTokens i tokens find).2 =
      lexicalDiagnostics i.path tokens ++ outlineDiagnostics i.path tokens ++
        (Module.ofTokens i tokens).importDiagnostics find ++
        (Module.ofTokens i tokens).callDiagnostics find ++
        (Module.ofTokens i tokens).variableDiagnostics find := by
  simp only [parseTokens, parse, Module.resolutionDiagnostics, List.append_assoc]

theorem filter_isUndeclared_variable (m : Module) (find : String → Option Module) :
    (m.variableDiagnostics find).filter (!·.isUndeclared) = [] := by
  refine List.filter_eq_nil_iff.2 fun d hd => ?_
  simp [Diagnostic.isUndeclared, code_of_mem_variable m find hd]

namespace ModuleFile

variable {sources : Sources} {faults : ParserFaults} {f : ModuleFile}

/-- Whatever is not about variables depends only on which names are found. -/
theorem filter_outcome_congr {find find' : String → Option Module}
    (h : ∀ name ∈ f.lookups sources faults, find name = none ↔ find' name = none) :
    (f.outcome sources faults find).2.filter (!·.isUndeclared) =
      (f.outcome sources faults find').2.filter (!·.isUndeclared) := by
  cases hs : f.source sources with
  | error cause => simp only [outcome, hs]
  | ok text =>
    cases hf : faults.of? f.name with
    | some failure => rw [outcome_of_fault hs hf, outcome_of_fault hs hf]
    | none =>
      have h : ∀ name ∈ (Module.ofTokens f.identity (tokenize text)).references,
          find name = none ↔ find' name = none := fun name hname => by
        refine h name ?_
        rw [lookups_of_ok hs hf]
        exact List.mem_eraseDups.2 hname
      rw [outcome_of_ok hs hf, outcome_of_ok hs hf, snd_parseTokens, snd_parseTokens,
        Module.importDiagnostics_congr h, Module.callDiagnostics_congr h]
      simp only [List.filter_append, filter_isUndeclared_variable]

end ModuleFile

namespace Workspace

variable {sources : Sources} {ws ws₁ ws' : Workspace} {f g : ModuleFile} {p q : Path}
  {busy log log' : List Path} {library name : String} {names : List String}
  {found : List (String × Option Module)} {m : Module}

/-! ### Answers -/

theorem foundModule_answers (hname : name ∈ names) :
    foundModule (ws.answers sources busy library names) name =
      ws.answer sources busy library name := by
  induction names with
  | nil => simp at hname
  | cons other names ih =>
    rw [answers_cons, foundModule_cons]
    split
    · rename_i heq
      rw [heq]
    · rename_i hne
      exact ih ((List.mem_cons.1 hname).resolve_left hne)

/-- There is an answer exactly when the name resolves. -/
theorem Named.answer_eq_none_iff (hn : ws.Named) :
    ws.answer sources busy library name = none ↔ ws.resolve? library name = none := by
  cases hr : ws.resolve? library name with
  | none => simp [answer, hr]
  | some holder =>
    obtain ⟨-, -, -, target, htarget, -⟩ := hn.holds_of_resolve? hr
    simp [answer_of_resolve? hr htarget]

theorem report_eq_of_skeleton (h : ws'.skeleton = ws.skeleton) (f : ModuleFile) :
    ws'.report sources f = ws.report sources f := by
  simp only [report, faults_eq_of_skeleton h, answers_eq_of_skeleton h]

/-! ### Renewed files -/

/-- The file `f` has become `g` by a parse: `g` has the module of its source, its edges and waits
follow from the names of the module, and its diagnostics are those that the parse gives, as far as
they are not about variables. What other tools have reported is kept. -/
structure Renewed (sources : Sources) (ws : Workspace) (f g : ModuleFile) : Prop where
  bare : g.bare = f.bare
  state : g.state = .parsed (f.content sources ws.faults)
  follows : ws.Follows sources g
  diagnostics : (g.diagnostics.ofTool .parser).filter (!·.isUndeclared) =
    (ws.report sources f).2.filter (!·.isUndeclared)
  tools : ∀ tool, tool ≠ .parser → g.diagnostics.ofTool tool = f.diagnostics.ofTool tool

/-- The files at the listed paths are renewed, the others are left alone, and what the renewed files
have contributed to the cache is evicted. -/
structure Renews (sources : Sources) (ws ws' : Workspace) (log : List Path) : Prop where
  skeleton : ws'.skeleton = ws.skeleton
  modules : ∀ q, ws.HasModule q → ws'.HasModule q
  renewed : ∀ q, log.any (·.same q) = true →
    ∃ f g, ws.file? q = some f ∧ ws'.file? q = some g ∧ Renewed sources ws' f g
  others : ∀ q, log.any (·.same q) = false → Kept ws ws' q
  positions : ∀ called, ws'.cache.positions called =
    (ws.cache.positions called).filter fun c => !log.any (·.same c.file)

theorem Renews.refl (sources : Sources) (ws : Workspace) : Renews sources ws ws [] where
  skeleton := rfl
  modules _ h := h
  renewed q hq := by simp at hq
  others q _ := .refl ws q
  positions called := by simp

/-- What other tools have reported of a file is kept, whether it is renewed or not. -/
theorem Renews.tools (h : Renews sources ws ws' log) (hf : ws.file? q = some f)
    (hg : ws'.file? q = some g) {tool : Tool} (htool : tool ≠ .parser) :
    g.diagnostics.ofTool tool = f.diagnostics.ofTool tool := by
  cases hq : log.any (·.same q) with
  | true =>
    obtain ⟨f', g', hf', hg', hrenewed⟩ := h.renewed q hq
    obtain rfl := Option.some.inj (hf.symm.trans hf')
    obtain rfl := Option.some.inj (hg.symm.trans hg')
    exact hrenewed.tools tool htool
  | false =>
    obtain ⟨g', hg', ho⟩ := (h.others q hq).exists_file hf
    obtain rfl := Option.some.inj (hg.symm.trans hg')
    rw [ModuleFile.eq_of_own ho]

/-- A renewed file that is left alone afterwards is still as the parse has left it. -/
theorem Renewed.kept (h : Renewed sources ws f g) (hk : ws.Keyed) (hg : ws.file? q = some g)
    (hkept : Kept ws ws' q) (hs : ws'.skeleton = ws.skeleton) :
    ∃ g', ws'.file? q = some g' ∧ Renewed sources ws' f g' := by
  obtain ⟨g', hg', ho⟩ := hkept.exists_file hg
  obtain ⟨g₁, hg₁, hfollows⟩ := InStep.kept ⟨g, hg, h.follows⟩ hk hkept hs
  obtain rfl := Option.some.inj (hg'.symm.trans hg₁)
  have hstate : g'.state = g.state := congrArg (·.state) ho
  have hdiagnostics : g'.diagnostics = g.diagnostics := congrArg (·.diagnostics) ho
  refine ⟨g', hg', (bare_eq_of_own ho).trans h.bare, ?_, hfollows, ?_, fun tool htool => ?_⟩
  · rw [hstate, h.state, faults_eq_of_skeleton hs]
  · rw [hdiagnostics, h.diagnostics, report_eq_of_skeleton hs]
  · rw [hdiagnostics, h.tools tool htool]

/-- A file that is renewed once more after it was renewed or left alone. -/
theorem Renewed.again {f₁ : ModuleFile} (h : Renewed sources ws f₁ g) (hb : f₁.bare = f.bare)
    (htools : ∀ tool, tool ≠ .parser → f₁.diagnostics.ofTool tool = f.diagnostics.ofTool tool) :
    Renewed sources ws f g := by
  refine ⟨h.bare.trans hb, ?_, h.follows, ?_, fun tool htool => ?_⟩
  · rw [h.state, ModuleFile.content_eq_of_bare hb]
  · rw [h.diagnostics, report_eq_of_bare hb]
  · rw [h.tools tool htool, htools tool htool]

/-- Renewals compose, also when a file is renewed twice. -/
theorem Renews.trans (h : Renews sources ws ws₁ log) (h' : Renews sources ws₁ ws' log')
    (hk : ws.Keyed) : Renews sources ws ws' (log ++ log') where
  skeleton := h'.skeleton.trans h.skeleton
  modules q hq := h'.modules q (h.modules q hq)
  renewed q hq := by
    rw [List.any_append, Bool.or_eq_true] at hq
    cases hlater : log'.any (·.same q) with
    | true =>
      obtain ⟨f₁, g, hf₁, hg, hrenewed⟩ := h'.renewed q hlater
      obtain ⟨f, hf, hb⟩ := exists_file_of_skeleton h.skeleton.symm hf₁
      exact ⟨f, g, hf, hg, hrenewed.again hb.symm fun tool => h.tools hf hf₁⟩
    | false =>
      obtain ⟨f, g, hf, hg, hrenewed⟩ := h.renewed q (hq.resolve_right (by simp [hlater]))
      obtain ⟨g', hg', hrenewed'⟩ := hrenewed.kept (hk.of_skeleton h.skeleton) hg
        (h'.others q hlater) h'.skeleton
      exact ⟨f, g', hf, hg', hrenewed'⟩
  others q hq := by
    rw [List.any_append, Bool.or_eq_false_iff] at hq
    exact (h.others q hq.1).trans (h'.others q hq.2)
  positions called := by
    rw [h'.positions, h.positions, List.filter_filter]
    simp only [List.any_append, Bool.not_or, Bool.and_comm]

/-! ### Parses -/

theorem Arises.finds (ha : Arises ws) (run : Finds sources busy library names ws found ws' log) :
    Arises ws' :=
  ha.moves (run.readings ha.keyed).moves

theorem Arises.finds_settle (ha : Arises ws)
    (run : Finds sources busy library names ws found ws' log) (hf : ws.Live f) :
    Arises (settle sources f ws' found) :=
  (ha.finds run).move (run.reading_settle ha.keyed hf).move

/-- A file is renewed when it is settled after its names have been looked up. -/
theorem Arises.renews_settle (ha : Arises ws)
    (run : Finds sources busy f.library (f.lookups sources ws.faults) ws found ws₁ log)
    (hf : ws.Live f) : Renews sources ws₁ (settle sources f ws₁ found) [f.path] := by
  have haligns := run.aligns_settle ha.keyed ha.mirrored hf
  have hfaults : ws₁.faults = ws.faults := faults_eq_of_skeleton run.skeleton
  have hsettled : (Workspace.settle sources f ws₁ found).skeleton = ws₁.skeleton :=
    haligns.skeleton
  refine ⟨hsettled, haligns.modules, fun q hq => ?_, fun q hq => ?_, fun called => ?_⟩
  · have hs : f.path.same q = true := by simpa using hq
    obtain ⟨f₁, g, hf₁, hg, hb, hstate, -, hds⟩ := run.file?_settle ha.keyed hf
    obtain ⟨g', hg', hfollows⟩ := haligns.inStep
    obtain rfl := Option.some.inj (hg.symm.trans hg')
    obtain ⟨f₂, hf₂, hb₂⟩ := exists_file_of_skeleton run.skeleton hf
    obtain rfl := Option.some.inj (hf₁.symm.trans hf₂)
    refine ⟨f₁, g, ?_, ?_, hb.trans hb₂.symm, ?_, hfollows, ?_, fun tool htool => ?_⟩
    · rw [← file?_congr _ hs, hf₁]
    · rw [← file?_congr _ hs, hg]
    · rw [hstate, builtModule, ModuleFile.fst_outcome, ModuleFile.content_eq_of_bare hb₂,
        faults_eq_of_skeleton hsettled]
    · rw [hds, Partition.ofTool_replace, if_pos rfl, report_eq_of_skeleton hsettled,
        report_eq_of_bare hb₂, report_eq_of_skeleton run.skeleton, hfaults]
      refine ModuleFile.filter_outcome_congr fun name hname => ?_
      rw [run.foundModule_eq_none_iff ha.named hname, foundModule_answers hname,
        ha.named.answer_eq_none_iff]
    · rw [hds, Partition.ofTool_replace, if_neg htool]
  · exact haligns.others q (by simpa using hq)
  · rw [cache_settle, ReferenceCache.positions_evict (ha.finds run).truthful]
    refine List.filter_congr fun c _ => ?_
    rw [List.any_cons, List.any_nil, Bool.or_false, Path.same_comm]

/-- A run renews the files that it parses. -/
theorem Finds.renews (run : Finds sources busy library names ws found ws' log)
    (ha : Arises ws) : Renews sources ws ws' log := by
  induction run with
  | nil => exact .refl sources _
  | missing _ _ ih => exact ih ha
  | known _ _ ih => exact ih ha
  | pending _ _ _ ih => exact ih ha
  | @nested _ _ _ _ _ _ _ parsed _ _ log target hl _ run _ ihRun ihRest =>
    obtain ⟨p, hp⟩ := file?_of_lookUp hl
    have hlive := ha.keyed.live hp
    have hinner := (ihRun ha).trans (ha.renews_settle run hlive) ha.keyed
    have hall := hinner.trans (ihRest (ha.finds_settle run hlive)) ha.keyed
    rwa [List.append_assoc, List.singleton_append] at hall

section Parses

variable (run : Parses sources [] f ws m ws' log) (ha : Arises ws) (hf : ws.Live f)

include run ha hf

/-- A parse renews the files that it parses. -/
theorem Parses.renews : Renews sources ws ws' log := by
  cases run with
  | intro run => exact (run.renews ha).trans (ha.renews_settle run hf) ha.keyed

omit hf in
/-- Besides the file itself a parse parses only files without a module. -/
theorem Parses.unparsed_of_mem (hq : q ∈ log) : q = f.path ∨ ¬ ws.HasModule q := by
  cases run with
  | intro run =>
    rcases List.mem_append.1 hq with hq | hq
    · exact .inr (run.unparsed_of_mem ha.keyed hq).2
    · exact .inl (List.mem_singleton.1 hq)

omit ha hf in
theorem Parses.mem_log : f.path ∈ log := by
  cases run with
  | intro run => simp

/-- The names of a renewed file lead to files that have a module after the parse. -/
theorem Parses.hasModule_of_mem {holder : Holder} (hq : log.any (·.same q) = true)
    (hg : ws.file? q = some g) (hname : name ∈ g.lookups sources ws.faults)
    (hr : ws.resolve? g.library name = some holder) : ws'.HasModule holder.path := by
  obtain ⟨r, hr', hs⟩ := List.any_eq_true.1 hq
  obtain ⟨g', m', hg', hstate', hleads⟩ := run.followed_of_mem ha.keyed hf ha.named hr'
  rw [file?_congr _ hs] at hg'
  obtain ⟨g₀, g₁, hg₀, hg₁, hrenewed⟩ := (run.renews ha hf).renewed q hq
  obtain rfl := Option.some.inj (hg.symm.trans hg₀)
  obtain rfl := Option.some.inj (hg'.symm.trans hg₁)
  obtain rfl : m' = g.content sources ws'.faults :=
    ModuleState.parsed.inj (hstate'.symm.trans hrenewed.state)
  have hskeleton := run.skeleton
  rw [faults_eq_of_skeleton hskeleton] at hleads
  have hfollowed := hleads name ((ModuleFile.mem_references_content name).2 hname) holder
    (by rw [resolve?_eq_of_skeleton hskeleton, ModuleFile.library_eq_of_bare hrenewed.bare, hr])
  exact hfollowed.resolve_right (by simp)

end Parses

end Workspace

end Steplib
