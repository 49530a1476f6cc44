import Mathlib.Data.List.Forall2
import Steplib.Proofs.Parse.VariableChecks

/-!
# What is reported when more is found

The diagnostics of a parse are checked against the modules that can be found. Where more names are
found fewer references lead nowhere; where the modules that are found declare more names, fewer
variables are undeclared. Nothing that was not reported before is reported then, and the order of
what is left stays the same. A name that is newly found is another matter for the variables: it can
complete the imports, and only then are the variables checked at all.

## Main definitions

* `Module.Widens`: a module declares at least the names of another one and is otherwise the same to
  those that import it.

## Main results

* `Module.importDiagnostics_sublist`, `Module.callDiagnostics_sublist`: the references that lead
  nowhere when more names are found.
* `Module.importsComplete_of_widens`: whether the imports are at hand does not depend on what the
  modules declare.
* `Module.variableDiagnostics_sublist`: the undeclared variables when the modules declare more.
* `parse_monotone`: the same for the diagnostics of a parse.
-/

namespace Steplib

/-- Reports on the elements of a list, when each one is reported in the same way or not at all. -/
theorem filterMap_sublist_filterMap {α β : Type} {f g : α → Option β} (l : List α)
    (h : ∀ a b, g a = some b → f a = some b) : (l.filterMap g).Sublist (l.filterMap f) := by
  induction l with
  | nil => exact .refl []
  | cons a l ih =>
    cases hg : g a with
    | some b =>
      rw [List.filterMap_cons_some hg, List.filterMap_cons_some (h a b hg)]
      exact ih.cons_cons b
    | none =>
      rw [List.filterMap_cons_none hg]
      cases hf : f a with
      | none => rwa [List.filterMap_cons_none hf]
      | some b =>
        rw [List.filterMap_cons_some hf]
        exact ih.cons b

namespace Module

/-- The second module declares at least the names that the first one declares; its path, the
variables that it uses and whether its parse still goes on are the same. -/
structure Widens (area wider : Module) : Prop where
  path : wider.path = area.path
  pending : wider.pending = area.pending
  variableUses : wider.variableUses = area.variableUses
  symbols : ∀ name, area.symbols.contains name = true → wider.symbols.contains name = true

variable {find find' : String → Option Module}

/-! ### More names are found -/

section Found

variable (h : ∀ name, (find name).isSome = true → (find' name).isSome = true)

include h

/-- A name that is not found among more names is not found among fewer. -/
theorem isNone_of_isNone {name : String} (hname : (find' name).isNone = true) :
    (find name).isNone = true := by
  cases hfind : find name with
  | none => rfl
  | some area =>
    have hsome := h name (by simp [hfind])
    simp [Option.isNone_iff_eq_none.1 hname] at hsome

theorem importDiagnostics_sublist (m : Module) :
    (m.importDiagnostics find').Sublist (m.importDiagnostics find) := by
  refine filterMap_sublist_filterMap _ fun u d hd => ?_
  split at hd
  · rename_i hmissing
    rw [if_pos (isNone_of_isNone h hmissing), hd]
  · simp at hd

theorem callDiagnostics_sublist (m : Module) :
    (m.callDiagnostics find').Sublist (m.callDiagnostics find) := by
  refine filterMap_sublist_filterMap _ fun s d hd => ?_
  split at hd
  · rename_i name problem hname hproblem
    split at hd
    · rename_i hmissing
      rw [if_pos (isNone_of_isNone h hmissing), hd]
    · simp at hd
  · simp at hd

end Found

/-! ### The modules declare more names -/

section Declared

variable (h : ∀ name, Option.Rel Widens (find name) (find' name))

include h

theorem isNone_of_widens (name : String) : find name = none ↔ find' name = none := by
  have hname := h name
  generalize find name = area, find' name = wider at hname
  cases hname <;> simp

/-- The copycodes that are included correspond to each other. -/
theorem included_of_widens (m : Module) :
    List.Forall₂ (fun c c' => c.1.Widens c'.1 ∧ c'.2 = c.2) (m.included find)
      (m.included find') := by
  refine List.rel_filterMap (fun s s' (hs : s = s') => ?_) (List.forall₂_refl m.tree)
  subst hs
  split
  · rename_i name _
    have hname := h name
    generalize find name = area, find' name = wider at hname
    cases hname with
    | none => exact .none
    | some hwidens => exact .some ⟨hwidens, rfl⟩
  · exact .none

/-- The imports are at hand for both or for neither. -/
theorem importsComplete_of_widens (m : Module) :
    m.importsComplete find' = m.importsComplete find := by
  have hareas (u : UsingClause) :
      ((find' u.name).any fun area => !area.pending) =
        (find u.name).any fun area => !area.pending := by
    have hname := h u.name
    generalize find u.name = area, find' u.name = wider at hname
    cases hname with
    | none => rfl
    | some hwidens => simp [hwidens.pending]
  have hcopycodes : ((m.included find').all fun c => !c.1.pending) =
      (m.included find).all fun c => !c.1.pending := by
    have hincluded := m.included_of_widens h
    generalize m.included find = cs, m.included find' = cs' at hincluded
    induction hincluded with
    | nil => rfl
    | cons hc _ ih => rw [List.all_cons, List.all_cons, ih, hc.1.pending]
  simp only [importsComplete, hareas]
  exact congrArg _ hcopycodes

/-- What is in scope stays so. -/
theorem inScope_of_widens {m : Module} {name : String} (hscope : m.inScope find name = true) :
    m.inScope find' name = true := by
  simp only [inScope, Bool.or_eq_true, List.any_eq_true] at hscope ⊢
  refine hscope.imp_right ?_
  rintro ⟨u, hu, harea⟩
  refine ⟨u, hu, ?_⟩
  have hname := h u.name
  generalize find u.name = area, find' u.name = wider at hname harea ⊢
  cases hname with
  | none => exact harea
  | some hwidens => exact hwidens.symbols name harea

theorem ownVariableDiagnostics_sublist (m : Module) :
    (m.ownVariableDiagnostics find').Sublist (m.ownVariableDiagnostics find) := by
  refine filterMap_sublist_filterMap _ ?_
  rintro ⟨name, span⟩ d hd
  dsimp only at hd ⊢
  split at hd
  · simp at hd
  · rename_i hscope
    rw [if_neg fun hfound => hscope (inScope_of_widens h hfound), hd]

/-- A copycode is checked in the scope of the module that includes it. -/
theorem includedVariableDiagnostics_sublist (m : Module) :
    (m.includedVariableDiagnostics find').Sublist (m.includedVariableDiagnostics find) := by
  have hincluded := m.included_of_widens h
  rw [includedVariableDiagnostics, includedVariableDiagnostics]
  generalize m.included find = cs, m.included find' = cs' at hincluded
  induction hincluded with
  | nil => exact .refl []
  | @cons c c' cs cs' hc _ ih =>
    obtain ⟨copycode, includeSpan⟩ := c
    obtain ⟨copycode', includeSpan'⟩ := c'
    obtain ⟨hwidens, rfl⟩ := hc
    rw [List.flatMap_cons, List.flatMap_cons]
    refine List.Sublist.append ?_ ih
    dsimp only
    rw [hwidens.variableUses, hwidens.path]
    refine filterMap_sublist_filterMap _ ?_
    rintro ⟨name, span⟩ d hd
    dsimp only at hd ⊢
    split at hd
    · simp at hd
    · rename_i hscope
      rw [if_neg fun hfound => hscope (inScope_of_widens h hfound), hd]

theorem variableDiagnostics_sublist (m : Module) :
    (m.variableDiagnostics find').Sublist (m.variableDiagnostics find) := by
  rw [variableDiagnostics, variableDiagnostics, importsComplete_of_widens h]
  split
  · exact (ownVariableDiagnostics_sublist h m).append (includedVariableDiagnostics_sublist h m)
  · exact .refl []

end Declared

end Module

/-! ### The diagnostics of a parse -/

variable (i : Identity) (tokens : List Token) (find : String → Option Module)

theorem isMissing_of_mem_import {m : Module} {d : Diagnostic}
    (hd : d ∈ m.importDiagnostics find) : d.isMissing = true := by
  obtain ⟨u, -, hd⟩ := List.mem_filterMap.1 hd
  split at hd
  · obtain rfl := Option.some.inj hd
    rfl
  · simp at hd

theorem isMissing_of_mem_call {m : Module} {d : Diagnostic}
    (hd : d ∈ m.callDiagnostics find) : d.isMissing = true := by
  obtain ⟨s, -, hd⟩ := List.mem_filterMap.1 hd
  split at hd
  · rename_i name problem hname hproblem
    obtain ⟨p, hp, hmissing⟩ := exists_missing?_of_reference? hname m.path s.span
    obtain rfl := Option.some.inj (hp.symm.trans hproblem)
    split at hd
    · obtain rfl := Option.some.inj hd
      exact hmissing
    · simp at hd
  · simp at hd

/-- Of the diagnostics of a parse those about references that lead nowhere come from imports and
calls. -/
theorem filter_isMissing_parse :
    (parse i tokens find).2.filter (·.isMissing) =
      (Module.ofTokens i tokens).importDiagnostics find ++
        (Module.ofTokens i tokens).callDiagnostics find := by
  simp only [parse, Module.resolutionDiagnostics, List.filter_append, filter_isMissing_outline,
    filter_isMissing_variable, List.nil_append, List.append_nil]
  rw [List.filter_eq_self.2 fun d => isMissing_of_mem_import find,
    List.filter_eq_self.2 fun d => isMissing_of_mem_call find]

/-- Of the diagnostics of a parse those about variables are the check of the module. -/
theorem filter_isUndeclared_parse :
    (parse i tokens find).2.filter (·.isUndeclared) =
      (Module.ofTokens i tokens).variableDiagnostics find := by
  have hlexical : (lexicalDiagnostics i.path tokens).filter (·.isUndeclared) = [] :=
    List.filter_eq_nil_iff.2 fun d hd => by
      rcases code_of_mem_lexical _ hd with h | h <;> simp [Diagnostic.isUndeclared, h]
  rw [← filter_isUndeclared_parseTokens]
  simp only [parseTokens, List.filter_append, hlexical, List.nil_append]

/-- The other diagnostics of a parse depend only on which names are found. -/
theorem filter_not_isUndeclared_parse {find find' : String → Option Module}
    (h : ∀ name, find name = none ↔ find' name = none) :
    (parse i tokens find').2.filter (!·.isUndeclared) =
      (parse i tokens find).2.filter (!·.isUndeclared) := by
  simp only [parse, Module.resolutionDiagnostics, List.filter_append,
    filter_isUndeclared_variable, Module.importDiagnostics_congr fun name _ => h name,
    Module.callDiagnostics_congr fun name _ => h name]

/-- What a parse reports shrinks with what can be found. Where all names that were found are found
again, the references that are reported are among those that were. Where the modules that are found
differ only in that they declare more names, the undeclared variables that are reported are among
those that were, and everything else is reported as before. The module is the same. -/
theorem parse_monotone (i : Identity) (tokens : List Token)
    (find find' : String → Option Module) :
    ((∀ name, (find name).isSome = true → (find' name).isSome = true) →
      ((parse i tokens find').2.filter (·.isMissing)).Sublist
        ((parse i tokens find).2.filter (·.isMissing))) ∧
    ((∀ name, Option.Rel Module.Widens (find name) (find' name)) →
      ((parse i tokens find').2.filter (·.isUndeclared)).Sublist
          ((parse i tokens find).2.filter (·.isUndeclared)) ∧
        (parse i tokens find').2.filter (!·.isUndeclared) =
          (parse i tokens find).2.filter (!·.isUndeclared)) ∧
    (parse i tokens find').1 = (parse i tokens find).1 := by
  refine ⟨fun h => ?_, fun h => ⟨?_, ?_⟩, rfl⟩
  · rw [filter_isMissing_parse, filter_isMissing_parse]
    exact (Module.importDiagnostics_sublist h _).append (Module.callDiagnostics_sublist h _)
  · rw [filter_isUndeclared_parse, filter_isUndeclared_parse]
    exact Module.variableDiagnostics_sublist h _
  · exact filter_not_isUndeclared_parse i tokens (Module.isNone_of_widens h)

/-- A data area that declares the given names, and nothing else, can be found. -/
private def areaWith (names : List String) (name : String) : Option Module :=
  if name = "AREA" then
    some
      { path := .ofText "L/AREA.NSL"
        type := .localArea
        name := name
        symbols := .ofList (names.map fun n => ⟨n, n, 1, .localData, {}⟩) }
  else none

/-- What is reported for a program with an imported data area, two variables and a call. -/
private def reports (find : String → Option Module) : List Diagnostic :=
  (parse ⟨.ofText "L/P.NSP", "L", "P", .program⟩
    (tokenize "DEFINE DATA LOCAL USING AREA END-DEFINE\nWRITE #A #B CALLNAT 'SUB'") find).2

/-- The area is found, and then it declares more: the reports of a kind get fewer each time. -/
theorem parse_monotone_sample :
    (∀ name, Option.Rel Module.Widens (areaWith [] name) (areaWith ["#A"] name)) ∧
      ((reports (areaWith ["#A"])).filter (·.isUndeclared)).Sublist
        ((reports (areaWith [])).filter (·.isUndeclared)) ∧
      ((reports (areaWith [])).filter (·.isMissing)).Sublist
        ((reports fun _ => none).filter (·.isMissing)) ∧
      (reports fun _ => none).map (·.code) = ["E0002", "E0003"] ∧
      (reports (areaWith [])).map (·.code) = ["E0003", "E0001", "E0001"] ∧
      (reports (areaWith ["#A"])).map (·.code) = ["E0003", "E0001"] := by
  have hwidens : ∀ name, Option.Rel Module.Widens (areaWith [] name) (areaWith ["#A"] name) := by
    intro name
    unfold areaWith
    split
    · refine .some ⟨rfl, rfl, rfl, fun used hused => ?_⟩
      simp [SymbolTable.contains, SymbolTable.find?, SymbolTable.ofList] at hused
    · exact .none
  exact ⟨hwidens, ((parse_monotone _ _ _ _).2.1 hwidens).1, (parse_monotone _ _ _ _).1 (by simp),
    by decide +kernel, by decide +kernel, by decide +kernel⟩

end Steplib
