import Steplib.Proofs.Module.Declarations

/-!
# Parameters and callers

Callers pass data to a subprogram, subroutine or helproutine that declares or imports parameters, so
that an edit of it concerns them. Whether it does is read off the symbol table, which holds one
variable for every name, and off the imports, which are all kept. A parameter counts exactly if its
name is not declared before it in another scope: a field of a group hides a later parameter of the
same simple name.

## Main definitions

* `BlockPart.TakesParameters`: a part of a block in which parameters are declared or imported.

## Main results

* `SymbolTable.mem_ofList`: the table holds the variables that come first under their name.
* `parameters_shape_callers`: which sources concern their callers.
* `parameters_hidden`: a declared parameter that callers are not told about.
-/

namespace Steplib

/-! ### The scope of a part -/

theorem Declaration.scope_of_mem_grouped {scope : DataScope} {earlier ds : List Declaration}
    {v : Variable} (hv : v ∈ grouped scope earlier ds) : v.scope = scope := by
  induction ds generalizing earlier with
  | nil => cases hv
  | cons d ds ih =>
    rcases List.mem_cons.1 hv with rfl | hv
    · rfl
    · exact ih hv

theorem UsingClause.scope_of_mem_among {scope : DataScope} {tokens : List Token} {u : UsingClause}
    (hu : u ∈ among scope tokens) : u.scope = scope := by
  induction tokens with
  | nil => cases hu
  | cons t rest ih =>
    rcases List.mem_append.1 hu with hu | hu
    · unfold at? at hu
      split at hu
      · obtain ⟨name, -, rfl⟩ := Option.map_eq_some_iff.1 (Option.mem_toList.1 hu)
        rfl
      · cases hu
    · exact ih hu

namespace BlockPart

variable {p : BlockPart}

/-- A `USING` clause or a declaration on an allowed level stands under `PARAMETER`. -/
def TakesParameters (p : BlockPart) : Prop :=
  p.scope = .parameterData ∧ (p.imports ≠ [] ∨ ∃ d ∈ p.declarations, d.isAccepted = true)

instance : DecidablePred TakesParameters := fun p =>
  inferInstanceAs (Decidable (p.scope = .parameterData ∧
    (p.imports ≠ [] ∨ ∃ d ∈ p.declarations, d.isAccepted = true)))

theorem declared_eq_nil_iff : p.declared = [] ↔ ¬∃ d ∈ p.declarations, d.isAccepted = true := by
  have hgrouped (ds : List Declaration) :
      Declaration.grouped p.scope [] ds = [] ↔ ds = [] := by
    cases ds <;> simp [Declaration.grouped]
  rw [declared, hgrouped, List.filter_eq_nil_iff]
  push Not
  rfl

end BlockPart

/-! ### What the module keeps -/

/-- The table holds exactly the variables that come first under their name. -/
theorem SymbolTable.mem_ofList {vs : List Variable} {v : Variable} :
    v ∈ (ofList vs).declared ↔
      vs.find? (fun u => Ascii.upper u.name == Ascii.upper v.name) = some v := by
  have hfind : (ofList vs).find? v.name =
      vs.find? fun u => Ascii.upper u.name == Ascii.upper v.name := find?_ofList vs v.name
  rw [← hfind]
  refine ⟨fun hv => ?_, List.mem_of_find?_eq_some⟩
  obtain ⟨u, hu⟩ : ∃ u, (ofList vs).find? v.name = some u := by
    rw [← Option.isSome_iff_exists, find?, List.find?_isSome]
    exact ⟨v, hv, Ascii.eqIgnoreCase_iff.2 rfl⟩
  have hname : Ascii.upper u.name = Ascii.upper v.name := by
    simpa using List.find?_some (hfind.symm.trans hu)
  rw [hu, List.inj_on_of_nodup_map (nodup_ofList vs) (List.mem_of_find?_eq_some hu) hv hname]

theorem Module.usings_ofTokens (i : Identity) (tokens : List Token) :
    (Module.ofTokens i tokens).usings =
      (DefineData.blocks tokens).flatMap DefineData.imports :=
  (Clause.filterMap_ofTokens none tokens).2.2

theorem Module.hasParameterData_iff {m : Module} {ps : List BlockPart}
    (hsymbols : m.symbols = .ofList (ps.flatMap BlockPart.declared))
    (husings : m.usings = ps.flatMap BlockPart.imports) :
    m.hasParameterData = true ↔ ∃ p ∈ ps, p.scope = .parameterData ∧ (p.imports ≠ [] ∨
      ∃ v ∈ p.declared, (ps.flatMap BlockPart.declared).find?
        (fun u => Ascii.upper u.name == Ascii.upper v.name) = some v) := by
  rw [hasParameterData, hsymbols, husings, Bool.or_eq_true, List.any_eq_true, List.any_eq_true]
  simp only [SymbolTable.mem_ofList, beq_iff_eq, List.mem_flatMap]
  constructor
  · rintro (⟨v, hfirst, hscope⟩ | ⟨u, ⟨p, hp, hu⟩, hscope⟩)
    · obtain ⟨p, hp, hv⟩ := List.mem_flatMap.1 (List.mem_of_find?_eq_some hfirst)
      exact ⟨p, hp, (Declaration.scope_of_mem_grouped hv).symm.trans hscope, .inr ⟨v, hv, hfirst⟩⟩
    · exact ⟨p, hp, (UsingClause.scope_of_mem_among hu).symm.trans hscope,
        .inl (List.ne_nil_of_mem hu)⟩
  · rintro ⟨p, hp, hscope, himports | ⟨v, hv, hfirst⟩⟩
    · obtain ⟨u, hu⟩ := List.exists_mem_of_ne_nil _ himports
      exact .inr ⟨u, ⟨p, hp, hu⟩, (UsingClause.scope_of_mem_among hu).trans hscope⟩
    · exact .inl ⟨v, hfirst, (Declaration.scope_of_mem_grouped hv).trans hscope⟩

/-! ### Which sources concern their callers -/

/-- A subprogram, subroutine or helproutine concerns its callers exactly if it imports parameters or
declares one whose name has no earlier declaration. Then a declaration or an import stands under
`PARAMETER`; the converse holds if no parameter shares its name with a variable of another scope. -/
theorem parameters_shape_callers (i : Identity) (find : String → Option Module) (source : String)
    (htype : i.type = .subprogram ∨ i.type = .subroutine ∨ i.type = .helproutine) :
    let parts := (DefineData.blocks (tokenize source)).flatMap DefineData.parts
    let accepted := parts.flatMap BlockPart.declared
    let shapes := (parseSource i source find).1.shapesCallers = true
    (shapes ↔ ∃ p ∈ parts, p.scope = .parameterData ∧ (p.imports ≠ [] ∨ ∃ v ∈ p.declared,
        accepted.find? (fun u => Ascii.upper u.name == Ascii.upper v.name) = some v)) ∧
      (shapes → ∃ p ∈ parts, p.TakesParameters) ∧
      ((∀ u ∈ accepted, ∀ v ∈ accepted, Ascii.upper u.name = Ascii.upper v.name →
          u.scope = .parameterData → v.scope = .parameterData) →
        ((∃ p ∈ parts, p.TakesParameters) → shapes)) := by
  intro parts accepted shapes
  have hsymbols : (Module.ofTokens i (tokenize source)).symbols = .ofList accepted := by
    rw [Module.symbols_ofTokens]
    exact congrArg SymbolTable.ofList List.flatMap_assoc.symm
  have husings : (Module.ofTokens i (tokenize source)).usings =
      parts.flatMap BlockPart.imports := by
    rw [Module.usings_ofTokens]
    exact List.flatMap_assoc.symm
  have hshapes : shapes ↔ ∃ p ∈ parts, p.scope = .parameterData ∧ (p.imports ≠ [] ∨
      ∃ v ∈ p.declared,
        accepted.find? (fun u => Ascii.upper u.name == Ascii.upper v.name) = some v) := by
    rw [← Module.hasParameterData_iff hsymbols husings]
    show (Module.ofTokens i (tokenize source)).shapesCallers = true ↔ _
    have hsame : (Module.ofTokens i (tokenize source)).type = i.type := rfl
    rcases htype with h | h | h <;> rw [Module.shapesCallers, hsame, h]
  refine ⟨hshapes, fun h => ?_, fun hscopes h => ?_⟩
  · obtain ⟨p, hp, hscope, himports | ⟨v, hv, -⟩⟩ := hshapes.1 h
    · exact ⟨p, hp, hscope, .inl himports⟩
    · exact ⟨p, hp, hscope, .inr (not_not.1 fun hnone =>
        List.ne_nil_of_mem hv (BlockPart.declared_eq_nil_iff.2 hnone))⟩
  · obtain ⟨p, hp, hscope, himports | hdeclares⟩ := h
    · exact hshapes.2 ⟨p, hp, hscope, .inl himports⟩
    · -- some parameter is declared; the first declaration of its name is one of a parameter too
      obtain ⟨v, hv⟩ := List.exists_mem_of_ne_nil p.declared
        (mt BlockPart.declared_eq_nil_iff.1 (not_not.2 hdeclares))
      have hvmem : v ∈ accepted := List.mem_flatMap.2 ⟨p, hp, hv⟩
      obtain ⟨u, hu⟩ : ∃ u, accepted.find?
          (fun u => Ascii.upper u.name == Ascii.upper v.name) = some u := by
        rw [← Option.isSome_iff_exists, List.find?_isSome]
        exact ⟨v, hvmem, beq_self_eq_true _⟩
      have hname : Ascii.upper u.name = Ascii.upper v.name := by
        simpa using List.find?_some hu
      have humem := List.mem_of_find?_eq_some hu
      obtain ⟨q, hq, huq⟩ := List.mem_flatMap.1 humem
      have huscope : u.scope = .parameterData :=
        hscopes v hvmem u humem hname.symm ((Declaration.scope_of_mem_grouped hv).trans hscope)
      refine hshapes.2 ⟨q, hq, (Declaration.scope_of_mem_grouped huq).symm.trans huscope,
        .inr ⟨u, huq, ?_⟩⟩
      rw [hname]
      exact hu

/-- A parameter is declared twice, under a name that no other scope uses. -/
theorem parameters_shape_callers_sample :
    let source := "DEFINE DATA\nLOCAL\n1 #KEY\nPARAMETER\n1 #NAME (A20)\n1 #name\nEND-DEFINE"
    (∃ p ∈ (DefineData.blocks (tokenize source)).flatMap DefineData.parts, p.TakesParameters) ∧
      (parseSource ⟨.ofText "SUB.NSN", "LIB", "SUB", .subprogram⟩ source
        fun _ => none).1.shapesCallers = true := by
  intro source
  have htakes : ∃ p ∈ (DefineData.blocks (tokenize source)).flatMap DefineData.parts,
      p.TakesParameters := by
    decide +kernel
  obtain ⟨-, -, hshapes⟩ := parameters_shape_callers ⟨.ofText "SUB.NSN", "LIB", "SUB", .subprogram⟩
    (fun _ => none) source (.inl rfl)
  exact ⟨htakes, hshapes (by decide +kernel) htakes⟩

/-- A parameter whose simple name a field of a local group already has is declared, and callers are
not told about it. -/
theorem parameters_hidden :
    let source := "DEFINE DATA\nLOCAL\n1 #OLD\n2 #NAME (A20)\nPARAMETER\n1 #NAME (A20)\nEND-DEFINE"
    (∃ p ∈ (DefineData.blocks (tokenize source)).flatMap DefineData.parts, p.TakesParameters) ∧
      (parseSource ⟨.ofText "SUB.NSN", "LIB", "SUB", .subprogram⟩ source
        fun _ => none).1.shapesCallers = false := by
  decide +kernel

end Steplib
