import Steplib.Proofs.Parse.Renewal

/-!
# Checks of variables

Whether a variable is declared depends on the modules that a file imports: its data areas and
copycodes. While one of them is still being parsed nothing is said about variables. So the check of
a file depends on which of its imports are being parsed at that time, and on nothing else besides
the sources.

## Main definitions

* `Module.imports`: the names of the data areas and copycodes that a module imports.
* `Workspace.checks`: what a parse says about variables while some files are being parsed.

## Main results

* `ModuleFile.filter_isUndeclared_outcome`: what a parse reports about variables.
* `Workspace.checks_of_busy`: nothing is reported while an import is being parsed.
* `Workspace.checks_congr`: the check depends on which imports are being parsed.
-/

namespace Steplib

namespace Module

/-- The copycode that a statement includes. -/
def included? (s : Statement) : Option String :=
  match s.action with
  | .includeCopycode name => some name
  | _ => none

/-- The names of the data areas and copycodes that the module imports. -/
def imports (m : Module) : List String :=
  m.usings.map (·.name) ++ m.tree.filterMap included?

variable {m : Module} {find find' : String → Option Module} {name : String}

theorem mem_imports_of_using {u : UsingClause} (h : u ∈ m.usings) : u.name ∈ m.imports :=
  List.mem_append_left _ (List.mem_map_of_mem h)

theorem mem_imports_of_statement {s : Statement} (h : s ∈ m.tree)
    (hname : s.action = .includeCopycode name) : name ∈ m.imports :=
  List.mem_append_right _ (List.mem_filterMap.2 ⟨s, h, by simp only [included?, hname]⟩)

/-- Imports are references. -/
theorem mem_references_of_import (h : name ∈ m.imports) : name ∈ m.references := by
  rcases List.mem_append.1 h with h | h
  · exact List.mem_append_left _ h
  · obtain ⟨s, hs, hname⟩ := List.mem_filterMap.1 h
    refine mem_references_of_statement hs ?_
    unfold included? at hname
    split at hname
    · rename_i haction
      rw [Statement.reference?, haction]
      exact hname
    · simp at hname

section Congr

variable (h : ∀ name ∈ m.imports, find name = find' name)

include h

theorem included_congr : m.included find = m.included find' := by
  refine List.filterMap_congr fun s hs => ?_
  split
  · rename_i haction
    rw [h _ (mem_imports_of_statement hs haction)]
  · rfl

theorem inScope_congr (used : String) : m.inScope find used = m.inScope find' used := by
  simp only [inScope]
  congr 1
  rw [Bool.eq_iff_iff, List.any_eq_true, List.any_eq_true]
  refine exists_congr fun u => and_congr_right fun hu => ?_
  rw [h _ (mem_imports_of_using hu)]

theorem importsComplete_congr : m.importsComplete find = m.importsComplete find' := by
  simp only [importsComplete, included_congr h]
  congr 1
  rw [Bool.eq_iff_iff, List.all_eq_true, List.all_eq_true]
  refine forall₂_congr fun u hu => ?_
  rw [h _ (mem_imports_of_using hu)]

/-- The check of the variables depends on the imports only. -/
theorem variableDiagnostics_congr : m.variableDiagnostics find = m.variableDiagnostics find' := by
  simp only [variableDiagnostics, importsComplete_congr h, ownVariableDiagnostics,
    includedVariableDiagnostics, inScope_congr h, included_congr h]

end Congr

/-- The imports are not complete while one of them is pending. -/
theorem importsComplete_of_pending {imported : Module} (hname : name ∈ m.imports)
    (hfind : find name = some imported) (hpending : imported.pending = true) :
    m.importsComplete find = false := by
  refine Bool.eq_false_iff.2 fun hcomplete => ?_
  rw [importsComplete, Bool.and_eq_true, List.all_eq_true, List.all_eq_true] at hcomplete
  rcases List.mem_append.1 hname with h | h
  · obtain ⟨u, hu, rfl⟩ := List.mem_map.1 h
    have harea := hcomplete.1 u hu
    simp [hfind, hpending] at harea
  · obtain ⟨s, hs, hincluded⟩ := List.mem_filterMap.1 h
    unfold included? at hincluded
    split at hincluded
    · rename_i haction
      obtain rfl := Option.some.inj hincluded
      have hcopycode := hcomplete.2 (imported, s.span)
        (List.mem_filterMap.2 ⟨s, hs, by simp only [haction, hfind, Option.map_some]⟩)
      simp [hpending] at hcopycode
    · simp at hincluded

/-- A module without content uses no variables. -/
theorem variableDiagnostics_degraded (i : Identity) (find : String → Option Module) :
    (degraded i).variableDiagnostics find = [] := by
  rw [variableDiagnostics]
  split <;> rfl

end Module

/-! ### What is reported about variables -/

theorem isUndeclared_of_mem_import {m : Module} {find : String → Option Module} {d : Diagnostic}
    (hd : d ∈ m.importDiagnostics find) : d.isUndeclared = false := by
  obtain ⟨u, -, hd⟩ := List.mem_filterMap.1 hd
  split at hd
  · obtain rfl := Option.some.inj hd
    rfl
  · simp at hd

theorem isUndeclared_of_mem_call {m : Module} {find : String → Option Module} {d : Diagnostic}
    (hd : d ∈ m.callDiagnostics find) : d.isUndeclared = false := by
  obtain ⟨s, -, hd⟩ := List.mem_filterMap.1 hd
  split at hd
  · rename_i name problem _ hmissing
    split at hd
    · obtain rfl := Option.some.inj hd
      unfold Module.missing? at hmissing
      split at hmissing <;> cases hmissing <;> rfl
    · simp at hd
  · simp at hd

/-- Of the diagnostics of a parse those about variables are the check of the module. -/
theorem filter_isUndeclared_parseTokens (i : Identity) (tokens : List Token)
    (find : String → Option Module) : (parseTokens i tokens find).2.filter (·.isUndeclared) =
      (Module.ofTokens i tokens).variableDiagnostics find := by
  have hnone {ds : List Diagnostic} (h : ∀ d ∈ ds, d.isUndeclared = false) :
      ds.filter (·.isUndeclared) = [] :=
    List.filter_eq_nil_iff.2 fun d hd => by simp [h d hd]
  have hlexical : (lexicalDiagnostics i.path tokens).filter (·.isUndeclared) = [] :=
    hnone fun d hd => by
      rcases code_of_mem_lexical _ hd with h | h <;> simp [Diagnostic.isUndeclared, h]
  have houtline : (outlineDiagnostics i.path tokens).filter (·.isUndeclared) = [] :=
    hnone fun d hd => by
      rcases code_of_mem_outline _ hd with h | h <;> simp [Diagnostic.isUndeclared, h]
  have hvariable : ((Module.ofTokens i tokens).variableDiagnostics find).filter (·.isUndeclared) =
      (Module.ofTokens i tokens).variableDiagnostics find :=
    List.filter_eq_self.2 fun d hd => by
      simp [Diagnostic.isUndeclared, code_of_mem_variable _ _ hd]
  simp only [snd_parseTokens, List.filter_append, hlexical, houtline, hvariable,
    hnone fun _ => isUndeclared_of_mem_import, hnone fun _ => isUndeclared_of_mem_call,
    List.nil_append]

namespace ModuleFile

variable {sources : Sources} {faults : ParserFaults} {f : ModuleFile}

/-- What a parse reports about variables is the check of its module. -/
theorem filter_isUndeclared_outcome (find : String → Option Module) :
    (f.outcome sources faults find).2.filter (·.isUndeclared) =
      (f.content sources faults).variableDiagnostics find := by
  cases hs : f.source sources with
  | error cause =>
    simp only [content, outcome, hs]
    exact (Module.variableDiagnostics_degraded f.identity find).symm
  | ok text =>
    cases hf : faults.of? f.name with
    | some failure =>
      rw [content, outcome_of_fault hs hf, outcome_of_fault hs hf]
      exact (Module.variableDiagnostics_degraded f.identity find).symm
    | none =>
      rw [content, outcome_of_ok hs hf, outcome_of_ok hs hf]
      exact filter_isUndeclared_parseTokens ..

end ModuleFile

namespace Workspace

/-- What a parse of the file says about variables while the files at the paths `busy` are being
parsed. -/
def checks (sources : Sources) (busy : List Path) (ws : Workspace) (f : ModuleFile) :
    List Diagnostic :=
  (f.content sources ws.faults).variableDiagnostics (ws.answer sources busy f.library)

variable {sources : Sources} {ws ws' : Workspace} {f g : ModuleFile} {busy busy' : List Path}
  {name : String} {holder : Holder}

theorem checks_eq_of_skeleton (h : ws'.skeleton = ws.skeleton) (f : ModuleFile) :
    ws'.checks sources busy f = ws.checks sources busy f := by
  rw [checks, checks, faults_eq_of_skeleton h]
  refine Module.variableDiagnostics_congr fun name _ => ?_
  exact answer_congr (faults_eq_of_skeleton h) (resolve?_eq_of_skeleton h ..)
    fun holder _ => map_bare_file?_of_skeleton h holder.path

theorem checks_eq_of_bare (h : f.bare = g.bare) :
    ws.checks sources busy f = ws.checks sources busy g := by
  rw [checks, checks, ModuleFile.content_eq_of_bare h, ModuleFile.library_eq_of_bare h]

/-- A parse that finds the answers reports what the check says. -/
theorem filter_isUndeclared_answers (sources : Sources) (busy : List Path) (ws : Workspace)
    (f : ModuleFile) :
    (f.outcome sources ws.faults (foundModule (ws.answers sources busy f.library
      (f.lookups sources ws.faults)))).2.filter (·.isUndeclared) = ws.checks sources busy f := by
  rw [ModuleFile.filter_isUndeclared_outcome, checks]
  refine Module.variableDiagnostics_congr fun name hname => foundModule_answers ?_
  exact (ModuleFile.mem_references_content name).1 (Module.mem_references_of_import hname)

/-- The answer to a name that stands for a file is a placeholder exactly while the file is being
parsed. -/
theorem Arises.answer_eq (ha : Arises ws) (sources : Sources) (busy : List Path) {library : String}
    (hr : ws.resolve? library name = some holder) :
    ∃ target, ws.file? holder.path = some target ∧ ws.answer sources busy library name =
      some (if busy.any (·.same holder.path) then .placeholder target.identity
        else target.content sources ws.faults) := by
  obtain ⟨-, -, -, target, htarget, hpath, -⟩ := ha.named.holds_of_resolve? hr
  exact ⟨target, htarget, by rw [answer_of_resolve? hr htarget, hpath]⟩

/-- Nothing is said about the variables of a file while one of its imports is being parsed. -/
theorem Arises.checks_of_busy (ha : Arises ws)
    (hname : name ∈ (f.content sources ws.faults).imports)
    (hr : ws.resolve? f.library name = some holder)
    (hbusy : busy.any (·.same holder.path) = true) : ws.checks sources busy f = [] := by
  obtain ⟨target, -, hanswer⟩ := ha.answer_eq sources busy hr
  rw [if_pos hbusy] at hanswer
  rw [checks, Module.variableDiagnostics,
    Module.importsComplete_of_pending hname hanswer rfl, Bool.and_false]
  rfl

/-- The check depends on which of the imports are being parsed. -/
theorem Arises.checks_congr (ha : Arises ws)
    (h : ∀ name ∈ (f.content sources ws.faults).imports, ∀ holder,
      ws.resolve? f.library name = some holder →
        busy.any (·.same holder.path) = busy'.any (·.same holder.path)) :
    ws.checks sources busy f = ws.checks sources busy' f := by
  refine Module.variableDiagnostics_congr fun name hname => ?_
  cases hr : ws.resolve? f.library name with
  | none => rw [answer, answer, hr]; rfl
  | some holder =>
    obtain ⟨target, htarget, hanswer⟩ := ha.answer_eq sources busy hr
    obtain ⟨target', htarget', hanswer'⟩ := ha.answer_eq sources busy' hr
    obtain rfl := Option.some.inj (htarget.symm.trans htarget')
    rw [hanswer, hanswer', h name hname holder hr]

end Workspace

end Steplib
