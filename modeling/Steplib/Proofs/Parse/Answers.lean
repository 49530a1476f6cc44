import Steplib.Proofs.Workspace.InStep

/-!
# What a parse finds

The module of a file depends on the file alone: on where it lies, on its source and on whether the
parser fails under its name. In a workspace whose modules are all up to date it therefore does not
matter which files have been parsed already and in which order the others are. Under a name a parse
finds the module of the file that the name stands for, or a placeholder if that file is being
parsed.

## Main definitions

* `ModuleFile.content`: the module of a file.
* `Workspace.UpToDate`: every module is that of its file, and no busy file has one.
* `Workspace.answer`: what a parse finds under a name.
* `Workspace.report`: what a parse of a file gives.

## Main results

* `Workspace.Finds.found_eq`: a run finds the answers.
* `Workspace.Arises.exists_parse`: what a parse writes down in a workspace that is up to date.
* `ModuleFile.snd_outcome_rename`, `ModuleFile.alike_of_snd_outcome`: another name leaves the
  diagnostics of a file as they are exactly if the parser treats the two names alike.
-/

namespace Steplib

namespace ModuleFile

variable {sources : Sources} {faults : ParserFaults} {f g : ModuleFile}

/-- The module of the file. -/
def content (sources : Sources) (faults : ParserFaults) (f : ModuleFile) : Module :=
  (f.outcome sources faults fun _ => none).1

/-- The modules that are found matter to the diagnostics only. -/
theorem fst_outcome (find : String → Option Module) :
    (f.outcome sources faults find).1 = f.content sources faults := by
  unfold content outcome
  cases f.source sources with
  | error cause => rfl
  | ok source => cases faults.of? f.name <;> rfl

theorem content_eq_of_bare (h : f.bare = g.bare) :
    f.content sources faults = g.content sources faults := by
  rw [content, content, outcome_eq_of_bare h]

theorem lookups_eq_of_bare (h : f.bare = g.bare) :
    f.lookups sources faults = g.lookups sources faults := by
  simp only [lookups, source_eq_of_bare h, identity_eq_of_bare h, name_eq_of_bare h]

theorem mem_references_content (name : String) :
    name ∈ (f.content sources faults).references ↔ name ∈ f.lookups sources faults :=
  (mem_lookups_iff _ name).symm

/-- The names that are looked up are in upper case. -/
theorem upper_of_mem_lookups {name : String} (h : name ∈ f.lookups sources faults) :
    Ascii.upper name = name := by
  unfold lookups at h
  split at h
  · exact Module.upper_of_mem_references f.identity (List.mem_eraseDups.1 h)
  · simp at h

end ModuleFile

namespace Workspace

/-- Every module is that of its file, and no busy file has one. -/
def UpToDate (sources : Sources) (busy : List Path) (ws : Workspace) : Prop :=
  ∀ p f m, ws.file? p = some f → f.state.module? = some m →
    m = f.content sources ws.faults ∧ busy.any (·.same f.path) = false

/-- What a parse finds under a name as seen from a library, while the files at the paths `busy` are
being parsed. -/
def answer (sources : Sources) (busy : List Path) (ws : Workspace) (library name : String) :
    Option Module :=
  ((ws.resolve? library name).bind fun holder => ws.file? holder.path).map fun target =>
    if busy.any (·.same target.path) then .placeholder target.identity
    else target.content sources ws.faults

/-- The modules that a parse finds under some names. -/
def answers (sources : Sources) (busy : List Path) (ws : Workspace) (library : String)
    (names : List String) : List (String × Option Module) :=
  names.map fun name => (name, ws.answer sources busy library name)

/-- The module and the diagnostics that a parse of the file gives while no other file is being
parsed. -/
def report (sources : Sources) (ws : Workspace) (f : ModuleFile) : Module × List Diagnostic :=
  f.outcome sources ws.faults
    (foundModule (ws.answers sources [f.path] f.library (f.lookups sources ws.faults)))

variable {sources : Sources} {ws ws₁ ws' : Workspace} {f g target : ModuleFile} {p q : Path}
  {busy log : List Path} {library name : String} {names : List String} {holder : Holder}
  {found : List (String × Option Module)}

/-! ### Answers -/

theorem answers_cons (sources : Sources) (busy : List Path) (ws : Workspace)
    (library name : String) (names : List String) :
    ws.answers sources busy library (name :: names) =
      (name, ws.answer sources busy library name) :: ws.answers sources busy library names := rfl

theorem answer_of_resolve? (hr : ws.resolve? library name = some holder)
    (hf : ws.file? holder.path = some target) :
    ws.answer sources busy library name =
      some (if busy.any (·.same target.path) then .placeholder target.identity
        else target.content sources ws.faults) := by
  simp only [answer, hr, Option.bind_some, hf, Option.map_some]

/-- The answer depends on the file that the name stands for and on what the file is read by. -/
theorem answer_congr (hfaults : ws'.faults = ws.faults)
    (hr : ws'.resolve? library name = ws.resolve? library name)
    (hfile : ∀ holder, ws.resolve? library name = some holder →
      (ws'.file? holder.path).map ModuleFile.bare = (ws.file? holder.path).map ModuleFile.bare) :
    ws'.answer sources busy library name = ws.answer sources busy library name := by
  rw [answer, answer, hr, hfaults]
  cases hholder : ws.resolve? library name with
  | none => rfl
  | some holder =>
    have hb := hfile holder hholder
    simp only [Option.bind_some]
    cases hf : ws.file? holder.path with
    | none =>
      rw [hf, Option.map_none, Option.map_eq_none_iff] at hb
      rw [hb]
    | some target =>
      rw [hf] at hb
      obtain ⟨target', hf', hb⟩ := Option.map_eq_some_iff.1 hb
      rw [hf', Option.map_some, Option.map_some, ModuleFile.path_eq_of_bare hb,
        ModuleFile.identity_eq_of_bare hb, ModuleFile.content_eq_of_bare hb]

theorem answers_eq_of_skeleton (h : ws'.skeleton = ws.skeleton) :
    ws'.answers sources busy library names = ws.answers sources busy library names := by
  refine List.map_congr_left fun name _ => ?_
  rw [answer_congr (faults_eq_of_skeleton h) (resolve?_eq_of_skeleton h ..)
    fun holder _ => map_bare_file?_of_skeleton h holder.path]

theorem report_eq_of_bare (h : f.bare = g.bare) : ws.report sources f = ws.report sources g := by
  simp only [report, ModuleFile.outcome_eq_of_bare h, ModuleFile.lookups_eq_of_bare h,
    ModuleFile.path_eq_of_bare h, ModuleFile.library_eq_of_bare h]

/-! ### Workspaces that are up to date -/

/-- A file without a module can become busy. -/
theorem UpToDate.cons (h : ws.UpToDate sources busy) (hk : ws.Keyed) (hnone : ¬ ws.HasModule q) :
    ws.UpToDate sources (q :: busy) := by
  intro p f m hf hm
  obtain ⟨hmodule, hbusy⟩ := h p f m hf hm
  refine ⟨hmodule, ?_⟩
  rw [List.any_cons, hbusy, Bool.or_false]
  by_contra hs
  exact hnone ((HasModule.congr (by simpa using hs)).2 ⟨f, m, hk.live hf, hm⟩)

theorem UpToDate.begin (h : ws.UpToDate sources busy) (hk : ws.Keyed)
    (hl : ws.lookUp library name = .unparsed target) :
    ws.UpToDate sources (target.path :: busy) :=
  h.cons hk (hk.not_hasModule hl)

/-- The file that was parsed last has its module, and the others have theirs still. -/
theorem UpToDate.settle (run : Finds sources (target.path :: busy) library names ws found ws₁ log)
    (hk : ws.Keyed) (ht : ws.Live target) (hb : busy.any (·.same target.path) = false)
    (h : ws₁.UpToDate sources (target.path :: busy)) :
    (settle sources target ws₁ found).UpToDate sources busy := by
  intro p f m hf hm
  have hfaults : (Workspace.settle sources target ws₁ found).faults = ws₁.faults :=
    faults_eq_of_skeleton (skeleton_settle ..)
  rw [hfaults]
  cases hs : target.path.same p with
  | true =>
    obtain ⟨-, g, -, hg, hbare, hstate, -⟩ := run.file?_settle hk ht
    rw [file?_congr _ hs, hf] at hg
    obtain rfl := Option.some.inj hg
    rw [hstate] at hm
    obtain rfl := Option.some.inj hm
    refine ⟨?_, ?_⟩
    · rw [builtModule, ModuleFile.fst_outcome, ModuleFile.content_eq_of_bare hbare]
    · rwa [ModuleFile.path_eq_of_bare hbare]
  | false =>
    have hown := run.own_settle hk ht hs
    rw [hf] at hown
    obtain ⟨f₁, hf₁, ho⟩ := Option.map_eq_some_iff.1 hown.symm
    have hstate : f₁.state = f.state := congrArg (·.state) ho
    have hpath : f₁.path = f.path := congrArg (·.path) ho
    obtain ⟨hmodule, hbusy⟩ := h p f₁ m hf₁ (by rw [hstate, hm])
    rw [hpath, List.any_cons, Bool.or_eq_false_iff] at hbusy
    exact ⟨by rw [hmodule, ModuleFile.content_eq_of_bare (bare_eq_of_own ho)], hbusy.2⟩

/-- A run finds the answers, and leaves the workspace up to date. -/
theorem Finds.found_eq (run : Finds sources busy library names ws found ws' log) (hk : ws.Keyed)
    (hn : ws.Named) (h : ws.UpToDate sources busy) :
    found = ws.answers sources busy library names ∧ ws'.UpToDate sources busy := by
  induction run with
  | nil => exact ⟨rfl, h⟩
  | missing hl _ ih =>
    obtain ⟨rfl, h'⟩ := ih hk hn h
    refine ⟨?_, h'⟩
    simp [answers_cons, answer, hn.lookUp_eq_missing_iff.1 hl]
  | known hl _ ih =>
    obtain ⟨rfl, h'⟩ := ih hk hn h
    obtain ⟨holder, target, hr, hf, hm⟩ := exists_of_lookUp_known hl
    obtain ⟨rfl, hbusy⟩ := h _ _ _ hf hm
    refine ⟨?_, h'⟩
    rw [answers_cons, answer_of_resolve? hr hf, hbusy]
    rfl
  | pending hl hb _ ih =>
    obtain ⟨rfl, h'⟩ := ih hk hn h
    obtain ⟨holder, hr, hf, -⟩ := exists_of_lookUp_unparsed hl
    refine ⟨?_, h'⟩
    rw [answers_cons, answer_of_resolve? hr hf, if_pos hb]
  | @nested _ _ _ _ _ _ _ _ _ _ _ target hl hb run _ ihRun ihRest =>
    obtain ⟨holder, hr, hf, -⟩ := exists_of_lookUp_unparsed hl
    have hskeleton := run.skeleton_settle target
    have hinner := (ihRun hk hn (h.begin hk hl)).2
    have hsettled := hinner.settle run hk (hk.live hf) hb
    obtain ⟨rfl, h'⟩ := ihRest (hk.of_skeleton hskeleton) (hn.of_skeleton hskeleton) hsettled
    refine ⟨?_, h'⟩
    rw [answers_eq_of_skeleton hskeleton, answers_cons, answer_of_resolve? hr hf, hb, builtModule,
      ModuleFile.fst_outcome, faults_eq_of_skeleton run.skeleton]
    rfl

/-- A parse in a workspace that is up to date writes down what the answers say. -/
theorem Arises.exists_parse (ha : Arises ws) (hf : ws.Live f) (h : ws.UpToDate sources [f.path]) :
    ∃ g, (ws.parse sources f).2.file? f.path = some g ∧ g.bare = f.bare ∧
      g.state = .parsed (f.content sources ws.faults) ∧
      (ws.parse sources f).2.Follows sources g ∧
      g.diagnostics.ofTool .parser = (ws.report sources f).2 := by
  obtain ⟨g, hg, hfollows⟩ := (refreshes_parse sources ha.keyed ha.mirrored hf).2
  obtain ⟨log, run⟩ := parses_parse sources ha.keyed f
  generalize ws.parse sources f = r at *
  obtain ⟨m, ws'⟩ := r
  cases run with
  | @intro found ws₁ parsed run =>
    obtain ⟨_, g', -, hg', hb, hstate, -, hds⟩ := run.file?_settle ha.keyed hf
    obtain rfl := Option.some.inj (hg.symm.trans hg')
    have hfaults : ws₁.faults = ws.faults := faults_eq_of_skeleton run.skeleton
    obtain ⟨rfl, -⟩ := run.found_eq ha.keyed ha.named h
    refine ⟨g, hg, hb, ?_, hfollows, ?_⟩
    · rw [hstate, builtModule, ModuleFile.fst_outcome, hfaults]
    · rw [hds, Partition.ofTool_replace, if_pos rfl, hfaults]
      rfl

end Workspace

/-! ### The name of the file -/

/-- A parse that does not fail reports no failure. -/
theorem code_of_mem_parseTokens {i : Identity} {tokens : List Token} {find : String → Option Module}
    {d : Diagnostic} (hd : d ∈ (parseTokens i tokens find).2) : d.code ≠ "E0099" := by
  simp only [parseTokens, parse, Module.resolutionDiagnostics, List.mem_append] at hd
  rcases hd with hd | hd | (hd | hd) | hd
  · rcases code_of_mem_lexical _ hd with h | h <;> simp [h]
  · rcases code_of_mem_outline _ hd with h | h <;> simp [h]
  · obtain ⟨u, -, hd⟩ := List.mem_filterMap.1 hd
    split at hd
    · obtain rfl := Option.some.inj hd
      simp [Diagnostic.ofProblem, Problem.code]
    · simp at hd
  · obtain ⟨s, -, hd⟩ := List.mem_filterMap.1 hd
    split at hd
    · rename_i name problem hr hmissing
      split at hd
      · obtain rfl := Option.some.inj hd
        unfold Module.missing? at hmissing
        split at hmissing <;> grind [Diagnostic.ofProblem, Problem.code]
      · simp at hd
    · simp at hd
  · simp [code_of_mem_variable _ _ hd]

/-- The diagnostics of a module do not ask for its name. -/
theorem Module.resolutionDiagnostics_rename (m : Module) (name : String)
    (find : String → Option Module) :
    { m with name }.resolutionDiagnostics find = m.resolutionDiagnostics find := rfl

theorem snd_parseTokens_rename (i : Identity) (name : String) (tokens : List Token)
    (find : String → Option Module) :
    (parseTokens { i with name } tokens find).2 = (parseTokens i tokens find).2 := by
  have hmodule : Module.ofTokens { i with name } tokens = { Module.ofTokens i tokens with name } :=
    rfl
  simp only [parseTokens, parse, hmodule, Module.resolutionDiagnostics_rename]

theorem snd_failedParse_congr {i j : Identity} {failure failure' : ParseFailure}
    (hpath : i.path = j.path) (hmessage : failure.message = failure'.message) :
    (failedParse i failure).2 = (failedParse j failure').2 := by
  rw [failedParse, failedParse, hpath]
  exact congrArg (fun message => [Diagnostic.mk j.path {} .error "E0099" message none]) hmessage

/-- The parser fails under both names with the same message, or under neither. -/
def ParserFaults.Alike (faults : ParserFaults) (a b : String) : Prop :=
  (faults.of? a).map ParseFailure.message = (faults.of? b).map ParseFailure.message

namespace ModuleFile

variable {sources : Sources} {faults : ParserFaults} {f : ModuleFile}

theorem outcome_of_fault {text : String} {failure : ParseFailure}
    (hs : f.source sources = .ok text) (hf : faults.of? f.name = some failure)
    (find : String → Option Module) :
    f.outcome sources faults find = failedParse f.identity failure := by
  simp only [outcome, hs, hf]

section Rename

variable {name : String} {find find' : String → Option Module}

/-- Under another name the same names are looked up, if the parser fails alike. -/
theorem lookups_rename (h : faults.Alike name f.name) :
    { f with name }.lookups sources faults = f.lookups sources faults := by
  have hsource : { f with name }.source sources = f.source sources := rfl
  unfold ParserFaults.Alike at h
  simp only [lookups, hsource]
  cases f.source sources with
  | error cause => rfl
  | ok text =>
    cases hf : faults.of? f.name <;> cases hn : faults.of? name <;> simp [hf, hn] at h ⊢
    rfl

/-- Under another name the file has the same diagnostics, if the parser fails alike. -/
theorem snd_outcome_rename (h : faults.Alike name f.name) (find : String → Option Module) :
    ({ f with name }.outcome sources faults find).2 = (f.outcome sources faults find).2 := by
  cases hs : f.source sources with
  | error cause =>
    have hs' : { f with name }.source sources = .error cause := hs
    simp only [outcome, hs, hs']
    rfl
  | ok text =>
    have hs' : { f with name }.source sources = .ok text := hs
    rw [ParserFaults.Alike] at h
    cases hf : faults.of? f.name with
    | none =>
      rw [hf, Option.map_none, Option.map_eq_none_iff] at h
      rw [outcome_of_ok hs hf, outcome_of_ok hs' h]
      exact snd_parseTokens_rename f.identity name _ find
    | some failure =>
      rw [hf] at h
      obtain ⟨failure', hn, hmessage⟩ := Option.map_eq_some_iff.1 h
      rw [outcome_of_fault hs hf, outcome_of_fault hs' hn]
      exact snd_failedParse_congr rfl hmessage

/-- The diagnostics of a parse do not report a failure unless there is one. -/
theorem snd_outcome_ne_failure {text : String} {failure : ParseFailure} {i : Identity}
    (hs : f.source sources = .ok text) (hf : faults.of? f.name = none) :
    (f.outcome sources faults find).2 ≠ (failedParse i failure).2 := by
  intro h
  rw [outcome_of_ok hs hf] at h
  have hmem : .ofProblem i.path {} (.parseFailure failure) ∈
      (parseTokens f.identity (tokenize text) find).2 := by
    rw [h]
    exact List.mem_singleton.2 rfl
  exact code_of_mem_parseTokens hmem rfl

/-- The diagnostics tell how the parser fails. -/
theorem alike_of_snd_outcome {text : String} (hs : f.source sources = .ok text)
    (h : ({ f with name }.outcome sources faults find).2 = (f.outcome sources faults find').2) :
    faults.Alike name f.name := by
  have hs' : { f with name }.source sources = .ok text := hs
  rw [ParserFaults.Alike]
  cases hf : faults.of? f.name with
  | none =>
    cases hn : faults.of? name with
    | none => rfl
    | some failure =>
      rw [outcome_of_fault hs' hn] at h
      exact absurd h.symm (snd_outcome_ne_failure hs hf)
  | some failure =>
    rw [outcome_of_fault hs hf] at h
    cases hn : faults.of? name with
    | none => exact absurd h (snd_outcome_ne_failure hs' hn)
    | some failure' =>
      rw [outcome_of_fault hs' hn] at h
      exact congrArg some (congrArg Diagnostic.message (List.singleton_inj.1 h))

end Rename

end ModuleFile

end Steplib
