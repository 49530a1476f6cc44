import Steplib.Module.Parse
import Steplib.Proofs.Token.LetterCase

/-!
# Modules of sources in upper case

Names are compared in upper case, whether they are those of modules, of subroutines or of variables.
Only the variables keep the letter case in which they are written, and only messages show it. So a
source in upper case has the same references at the same places, and its diagnostics say the same.

## Main definitions

* `Module.raised`: a module with the names of its variables in upper case.
* `Module.SameOutline`: two modules agree but for the letter case of their variables.
* `Diagnostic.unworded`: a diagnostic without its wording.

## Main results

* `Clause.ofTokens_raised`: the clauses of tokens in upper case are the clauses, in upper case.
* `upperCase_agrees`: what a source and the same source in upper case have in common.
-/

namespace Steplib

open Token

variable {t : Token} {rest tokens : List Token}

/-! ### What is looked for in the tokens -/

namespace Token

theorem leadingName?_raised (tokens : List Token) :
    leadingName? (tokens.map raised) = (leadingName? tokens).map raised := by
  cases tokens with
  | nil => rfl
  | cons t rest =>
    simp only [leadingName?, List.map_cons, List.head?_cons, Option.filter_some]
    have hsame : t.raised.isIdentifier = t.isIdentifier := rfl
    rw [hsame]
    split <;> rfl

theorem callsFunction_raised (t : Token) (rest : List Token) :
    t.raised.callsFunction (rest.map raised) = t.callsFunction rest := by
  match rest with
  | [] => rfl
  | [_] => rfl
  | paren :: angle :: _ =>
    simp only [callsFunction, List.map_cons, isHashName_raised, adjacentTo_raised]
    rfl

theorem fetchModifiers_raised (rest : List Token) :
    fetchModifiers (rest.map raised) = fetchModifiers rest := by
  cases rest <;> rfl

/-- A literal at some place keeps its value, up to the letter case. -/
theorem literal_raised (hrest : ∀ t ∈ rest, t.Spelled) (skip : Nat) :
    ((rest.map raised).drop skip).head?.bind stringValue? =
      ((rest.drop skip).head?.bind stringValue?).map Ascii.upper := by
  rw [← List.map_drop, List.head?_map]
  cases h : (rest.drop skip).head? with
  | none => rfl
  | some t =>
    exact (hrest t (List.mem_of_mem_drop (List.mem_of_head? h))).stringValue?_raised

end Token

/-! ### The scan -/

namespace Sighting

theorem ofLiteral_raised (hrest : ∀ t ∈ rest, t.Spelled) (t : Token) (skip : Nat) :
    ofLiteral t.raised (rest.map raised) skip = ofLiteral t rest skip := by
  rw [ofLiteral, ofLiteral, literal_raised hrest]
  cases (rest.drop skip).head?.bind stringValue? with
  | none => rfl
  | some target =>
    simp only [Option.map_some, Ascii.upper_upper]
    rfl

theorem ofHeader_raised (rest : List Token) : ofHeader (rest.map raised) = ofHeader rest := by
  match rest with
  | [] => rfl
  | [_] => rfl
  | kind :: name :: _ =>
    simp only [ofHeader, List.map_cons, name_raised]
    rfl

theorem read_raised (hrest : ∀ t ∈ rest, t.Spelled) (t : Token) :
    read t.raised (rest.map raised) = read t rest := by
  have hkind : t.raised.kind = t.kind := rfl
  unfold read
  rw [hkind, ofHeader_raised, ofLiteral_raised hrest, fetchModifiers_raised,
    ofLiteral_raised hrest, callsFunction_raised, leadingName?_raised, name_raised]
  cases leadingName? rest with
  | none => rfl
  | some name =>
    simp only [Option.map_some, name_raised]
    rfl

/-- A source in upper case shows the same as the source itself. -/
theorem ofTokens_raised (h : ∀ t ∈ tokens, t.Spelled) :
    ofTokens (tokens.map raised) = ofTokens tokens := by
  fun_induction ofTokens tokens with
  | case1 => rw [List.map_nil, ofTokens]
  | case2 t rest found used hread ih =>
    obtain ⟨-, hrest⟩ := List.forall_mem_cons.1 h
    rw [List.map_cons, ofTokens, read_raised hrest, hread]
    dsimp only
    rw [← List.map_drop, ih fun t ht => hrest t (List.mem_of_mem_drop ht)]

end Sighting

theorem Scan.ofSource_upper (type : ObjectType) (source : String) :
    Scan.ofSource type (Ascii.upper source) = Scan.ofSource type source := by
  unfold ofSource ofTokens
  rw [tokenize_upper, Sighting.ofTokens_raised fun _ => spelled_of_mem_tokenize]

/-! ### Clauses in upper case -/

/-- The variable that a call goes through, in upper case. -/
def CallTarget.raised : CallTarget → CallTarget
  | .literal name => .literal name
  | .variable text => .variable (Ascii.upper text)

/-- The action with the names of its variables in upper case. -/
def Action.raised : Action → Action
  | callnat target => callnat target.raised
  | fetch target => fetch target.raised
  | useVariable name => useVariable (Ascii.upper name)
  | action => action

/-- The statement with the names of its variables in upper case. -/
def Statement.raised (s : Statement) : Statement :=
  { s with action := s.action.raised }

/-- The declaration with its names in upper case. -/
def Variable.raised (v : Variable) : Variable :=
  { v with name := Ascii.upper v.name, qualifiedName := Ascii.upper v.qualifiedName }

/-- The problem of a declaration in upper case. -/
def Problem.raised : Problem → Problem
  | invalidLevel number name => invalidLevel number (Ascii.upper name)
  | problem => problem

/-- The clause with the names of its variables in upper case. -/
def Clause.raised : Clause → Clause
  | statement s => statement s.raised
  | declare v => declare v.raised
  | problem span p => problem span p.raised
  | clause => clause

/-- The block with the names of its groups in upper case. -/
def DataBlock.raised (b : DataBlock) : DataBlock where
  define := b.define.raised
  scope := b.scope
  groups := b.groups.map fun g => (g.1, Ascii.upper g.2)

/-- The result of reading the same tokens in upper case. -/
def ClauseStep.raised (r : ClauseStep) : ClauseStep where
  clause := r.clause.map Clause.raised
  block := r.block.map DataBlock.raised
  used := r.used

theorem Ascii.upper_append (a b : String) : upper (a ++ b) = upper a ++ upper b := by
  rw [upper, String.toList_append, List.map_append, String.ofList_append]
  rfl

namespace DataBlock

/-- A declaration in upper case belongs to the same group. -/
theorem declare_raised (b : DataBlock) {number : Token} (hnumber : number.raised.text = number.text)
    (name : Token) :
    b.raised.declare number.raised name.raised = (b.declare number name).raised := by
  unfold declare
  rw [hnumber]
  dsimp only
  generalize levelOf number.text = level
  have hgroups : (b.raised.groups.dropWhile fun g => decide (level ≤ g.1)) =
      (b.groups.dropWhile fun g => decide (level ≤ g.1)).map fun g => (g.1, Ascii.upper g.2) :=
    List.dropWhile_map ..
  split
  · rw [hgroups, List.head?_map, span_raised]
    cases (b.groups.dropWhile fun g => decide (level ≤ g.1)).head? with
    | none => rfl
    | some g =>
      simp only [Option.map_some, ClauseStep.raised, Clause.raised, Variable.raised,
        Ascii.upper_append]
      rfl
  · rw [span_raised, span_raised]
    rfl

theorem read_raised (ht : t.Spelled) (b : DataBlock) (startsLine : Bool) :
    b.raised.read startsLine t.raised (rest.map Token.raised) =
      (b.read startsLine t rest).raised := by
  have hsame : t.raised.kind = t.kind := rfl
  unfold read
  rw [hsame, leadingName?_raised]
  cases hkind : t.kind with
  | keyword k =>
    cases k with
    | endDefine =>
      simp only [DataBlock.raised, span_raised]
      rfl
    | usingWord =>
      cases leadingName? rest with
      | none => rfl
      | some name =>
        simp only [Option.map_some, name_raised, span_raised]
        rfl
    | _ => rfl
  | integer =>
    cases startsLine with
    | false => rfl
    | true =>
      cases leadingName? rest with
      | none => rfl
      | some name => exact b.declare_raised (ht.text_raised hkind) name
  | _ => rfl

theorem atEnd_raised (b : DataBlock) : b.raised.atEnd = b.atEnd.map Clause.raised := by
  simp only [atEnd, DataBlock.raised, span_raised, List.map_cons, List.map_nil]
  rfl

end DataBlock

namespace Clause

theorem readDefine_raised (t : Token) (rest : List Token) :
    readDefine t.raised (rest.map Token.raised) = (readDefine t rest).raised := by
  cases rest with
  | nil => rfl
  | cons word rest =>
    have hsame : word.raised.kind = word.kind := rfl
    simp only [readDefine, List.map_cons]
    rw [hsame, leadingName?_raised]
    cases word.kind with
    | keyword k =>
      cases k with
      | subroutine =>
        cases leadingName? rest with
        | none => rfl
        | some name =>
          simp only [Option.map_some, name_raised, span_raised]
          rfl
      | function => cases leadingName? rest <;> rfl
      | _ => rfl
    | _ => rfl

theorem readCall_raised (hrest : ∀ t ∈ rest, t.Spelled) {action : CallTarget → Action}
    (haction : ∀ target, (action target).raised = action target.raised) (t : Token) (skip : Nat) :
    readCall action t.raised (rest.map Token.raised) skip =
      (readCall action t rest skip).raised := by
  unfold readCall
  rw [← List.map_drop, List.head?_map]
  cases htarget : (rest.drop skip).head? with
  | none => rfl
  | some target =>
    have hspelled := hrest target (List.mem_of_mem_drop (List.mem_of_head? htarget))
    have hsame : target.raised.kind = target.kind := rfl
    simp only [Option.map_some]
    rw [hsame, hspelled.stringValue?_raised, span_raised, span_raised]
    cases target.kind with
    | string =>
      cases target.stringValue? with
      | none => rfl
      | some name =>
        simp only [Option.map_some, Ascii.upper_upper, ClauseStep.raised, Clause.raised,
          Statement.raised, haction]
        rfl
    | identifier =>
      simp only [ClauseStep.raised, Option.map_some, Clause.raised, Statement.raised, haction]
      rfl
    | _ => rfl

theorem read_raised (hrest : ∀ t ∈ rest, t.Spelled) (t : Token) :
    read t.raised (rest.map Token.raised) = (read t rest).raised := by
  have hsame : t.raised.kind = t.kind := rfl
  unfold read
  rw [hsame, leadingName?_raised, readDefine_raised, readCall_raised hrest fun _ => rfl,
    fetchModifiers_raised, readCall_raised hrest fun _ => rfl, callsFunction_raised,
    isHashName_raised]
  cases t.kind with
  | keyword k =>
    cases k with
    | perform | includeWord =>
      cases leadingName? rest with
      | none => rfl
      | some name =>
        simp only [Option.map_some, name_raised, span_raised]
        rfl
    | _ => rfl
  | identifier =>
    dsimp only
    rw [name_raised, span_raised]
    split
    · rfl
    · split <;> rfl
  | _ => rfl

/-- The clauses of a source in upper case are those of the source, in upper case. -/
theorem ofTokens_raised (block : Option DataBlock) (previous : Option Nat)
    (h : ∀ t ∈ tokens, t.Spelled) :
    ofTokens (block.map DataBlock.raised) previous (tokens.map Token.raised) =
      (ofTokens block previous tokens).map raised := by
  fun_induction ofTokens block previous tokens with
  | case1 block previous =>
    rw [List.map_nil, ofTokens]
    cases block with
    | none => rfl
    | some b => exact b.atEnd_raised
  | case2 block previous t rest result last ih =>
    obtain ⟨ht, hrest⟩ := List.forall_mem_cons.1 h
    have hstep : step (block.map DataBlock.raised) previous t.raised (rest.map Token.raised) =
        result.raised := by
      cases block with
      | none => exact read_raised hrest t
      | some b => exact b.read_raised ht _
    have hlast : ((rest.map Token.raised).take result.used).getLast?.getD t.raised =
        last.raised := by
      rw [← List.map_take, List.getLast?_map]
      exact Option.getD_map ..
    rw [List.map_cons, ofTokens, hstep]
    dsimp only [ClauseStep.raised]
    rw [hlast, ← List.map_drop]
    rw [List.map_append, ← ih fun t ht => hrest t (List.mem_of_mem_drop ht)]
    cases result.clause <;> rfl

end Clause

/-! ### The module -/

/-- The table with the names of the variables in upper case. -/
def SymbolTable.raised (s : SymbolTable) : SymbolTable :=
  ⟨s.declared.map Variable.raised⟩

/-- The module with the names of its variables in upper case. -/
def Module.raised (m : Module) : Module :=
  { m with tree := m.tree.map Statement.raised, symbols := m.symbols.raised }

namespace SymbolTable

theorem contains_upper (s : SymbolTable) (name : String) :
    s.contains (Ascii.upper name) = s.contains name := by
  simp only [contains, find?, Ascii.eqIgnoreCase, Ascii.upper_upper]

theorem contains_raised (s : SymbolTable) (name : String) :
    s.raised.contains name = s.contains name := by
  have hsame : (fun v : Variable => Ascii.eqIgnoreCase v.name name) ∘ Variable.raised =
      fun v => Ascii.eqIgnoreCase v.name name := funext fun v => by
    simp only [Function.comp_apply, Ascii.eqIgnoreCase, Variable.raised, Ascii.upper_upper]
  rw [contains, find?, contains, find?, SymbolTable.raised, List.find?_map, Option.isSome_map,
    hsame]

theorem insert_raised (s : SymbolTable) (v : Variable) :
    s.raised.insert v.raised = (s.insert v).raised := by
  have hcontains : s.raised.contains v.raised.name = s.contains v.name :=
    (s.contains_raised _).trans (s.contains_upper _)
  rw [insert, insert, hcontains]
  split
  · rfl
  · simp [SymbolTable.raised]

theorem ofList_raised (vs : List Variable) :
    ofList (vs.map Variable.raised) = (ofList vs).raised := by
  have hfold : ∀ s : SymbolTable,
      vs.foldl (fun s v => s.insert v.raised) s.raised = (vs.foldl insert s).raised := by
    induction vs with
    | nil => exact fun _ => rfl
    | cons v vs ih => exact fun s => by rw [List.foldl_cons, insert_raised, ih, List.foldl_cons]
  rw [ofList, ofList, List.foldl_map]
  exact hfold {}

end SymbolTable

theorem Action.reference?_raised (a : Action) : a.raised.reference? = a.reference? := by
  cases a with
  | callnat target | fetch target => cases target <;> rfl
  | _ => rfl

namespace Clause

theorem subroutine?_raised (c : Clause) : c.raised.subroutine? = c.subroutine? := by
  cases c with
  | statement s => 
    obtain ⟨action, span⟩ := s
    cases action <;> rfl
  | _ => rfl

theorem statement?_raised (defined : List String) (c : Clause) :
    c.raised.statement? defined = (c.statement? defined).map Statement.raised := by
  cases c <;> rfl

theorem declare?_raised (c : Clause) : c.raised.declare? = c.declare?.map Variable.raised := by
  cases c <;> rfl

theorem importArea?_raised (c : Clause) : c.raised.importArea? = c.importArea? := by
  cases c <;> rfl

end Clause

/-- The module of a source in upper case is that of the source, in upper case. -/
theorem Module.ofTokens_raised (i : Identity) (h : ∀ t ∈ tokens, t.Spelled) :
    ofTokens i (tokens.map Token.raised) = (ofTokens i tokens).raised := by
  have hclauses := Clause.ofTokens_raised none none h
  rw [Option.map_none] at hclauses
  rw [ofTokens, ofTokens, Clause.ofSource, Clause.ofSource, hclauses]
  generalize Clause.ofTokens none none tokens = clauses
  have hdefined : (clauses.map Clause.raised).filterMap Clause.subroutine? =
      clauses.filterMap Clause.subroutine? := by
    rw [List.filterMap_map]
    exact List.filterMap_congr fun c _ => c.subroutine?_raised
  have htree (defined : List String) :
      (clauses.map Clause.raised).filterMap (Clause.statement? defined) =
        (clauses.filterMap (Clause.statement? defined)).map Statement.raised := by
    rw [List.filterMap_map, List.map_filterMap]
    exact List.filterMap_congr fun c _ => c.statement?_raised defined
  have hdeclared : (clauses.map Clause.raised).filterMap Clause.declare? =
      (clauses.filterMap Clause.declare?).map Variable.raised := by
    rw [List.filterMap_map, List.map_filterMap]
    exact List.filterMap_congr fun c _ => c.declare?_raised
  have husings : (clauses.map Clause.raised).filterMap Clause.importArea? =
      clauses.filterMap Clause.importArea? := by
    rw [List.filterMap_map]
    exact List.filterMap_congr fun c _ => c.importArea?_raised
  simp only [ofClauses, hdefined, htree, hdeclared, husings, SymbolTable.ofList_raised]
  rfl

/-! ### The diagnostics -/

/-- The diagnostic without its wording. -/
def Diagnostic.unworded (d : Diagnostic) : Diagnostic :=
  { d with message := "" }

theorem Problem.code_raised (p : Problem) : p.raised.code = p.code := by
  cases p <;> rfl

theorem Diagnostic.unworded_ofProblem {p q : Problem} (h : p.code = q.code) (file : Path)
    (span : Span) (cause : Option Location) :
    (ofProblem file span p cause).unworded = (ofProblem file span q cause).unworded := by
  simp only [ofProblem, unworded, h]

namespace Module

variable (m : Module) (find : String → Option Module)

theorem references_raised : m.raised.references = m.references := by
  simp only [references, raised, List.filterMap_map]
  refine congrArg _ (List.filterMap_congr fun s _ => s.action.reference?_raised)

theorem missing?_raised (a : Action) : missing? a.raised = missing? a := by
  cases a with
  | callnat target | fetch target => cases target <;> rfl
  | _ => rfl

theorem callDiagnostics_raised : m.raised.callDiagnostics find = m.callDiagnostics find := by
  simp only [callDiagnostics, raised, List.filterMap_map]
  refine List.filterMap_congr fun s _ => ?_
  simp only [Function.comp_apply, Statement.reference?, Statement.raised,
    Action.reference?_raised, missing?_raised]

theorem included_raised : m.raised.included find = m.included find := by
  simp only [included, raised, List.filterMap_map]
  refine List.filterMap_congr fun s _ => ?_
  obtain ⟨action, span⟩ := s
  cases action <;> rfl

theorem variableUses_raised :
    m.raised.variableUses = m.variableUses.map fun use => (Ascii.upper use.1, use.2) := by
  simp only [variableUses, raised, List.filterMap_map, List.map_filterMap]
  refine List.filterMap_congr fun s _ => ?_
  obtain ⟨action, span⟩ := s
  cases action <;> rfl

theorem inScope_upper (name : String) :
    m.inScope find (Ascii.upper name) = m.inScope find name := by
  simp only [inScope, SymbolTable.contains_upper]

theorem inScope_raised (name : String) : m.raised.inScope find name = m.inScope find name := by
  simp only [inScope, raised, SymbolTable.contains_raised]

theorem importsComplete_raised : m.raised.importsComplete find = m.importsComplete find := by
  rw [importsComplete, included_raised]
  rfl

theorem ownVariableDiagnostics_raised :
    (m.raised.ownVariableDiagnostics find).map Diagnostic.unworded =
      (m.ownVariableDiagnostics find).map Diagnostic.unworded := by
  rw [ownVariableDiagnostics, ownVariableDiagnostics, variableUses_raised, List.filterMap_map,
    List.map_filterMap, List.map_filterMap]
  refine List.filterMap_congr fun use _ => ?_
  simp only [Function.comp_apply, inScope_raised, inScope_upper]
  split
  · rfl
  · exact congrArg some (Diagnostic.unworded_ofProblem rfl ..)

theorem includedVariableDiagnostics_raised :
    m.raised.includedVariableDiagnostics find = m.includedVariableDiagnostics find := by
  simp only [includedVariableDiagnostics, included_raised, inScope_raised]
  rfl

theorem resolutionDiagnostics_raised :
    (m.raised.resolutionDiagnostics find).map Diagnostic.unworded =
      (m.resolutionDiagnostics find).map Diagnostic.unworded := by
  have hvariables : (m.raised.variableDiagnostics find).map Diagnostic.unworded =
      (m.variableDiagnostics find).map Diagnostic.unworded := by
    rw [variableDiagnostics, variableDiagnostics, importsComplete_raised,
      includedVariableDiagnostics_raised, show m.raised.type = m.type from rfl]
    split
    · rw [List.map_append, List.map_append, ownVariableDiagnostics_raised]
    · rfl
  rw [resolutionDiagnostics, resolutionDiagnostics, callDiagnostics_raised, List.map_append,
    List.map_append, hvariables, List.map_append, List.map_append]
  rfl

end Module

theorem lexicalDiagnostics_raised (file : Path) (tokens : List Token) :
    (lexicalDiagnostics file (tokens.map Token.raised)).map Diagnostic.unworded =
      (lexicalDiagnostics file tokens).map Diagnostic.unworded := by
  rw [lexicalDiagnostics, lexicalDiagnostics, List.filterMap_map, List.map_filterMap,
    List.map_filterMap]
  refine List.filterMap_congr fun t _ => ?_
  have hkind : t.raised.kind = t.kind := rfl
  simp only [Function.comp_apply, Token.diagnostic?, Token.problem?, Token.span_raised, hkind]
  cases t.kind <;> rfl

theorem outlineDiagnostics_raised (file : Path) (h : ∀ t ∈ tokens, t.Spelled) :
    (outlineDiagnostics file (tokens.map Token.raised)).map Diagnostic.unworded =
      (outlineDiagnostics file tokens).map Diagnostic.unworded := by
  have hclauses := Clause.ofTokens_raised none none h
  rw [Option.map_none] at hclauses
  rw [outlineDiagnostics, outlineDiagnostics, Clause.ofSource, Clause.ofSource, hclauses,
    List.filterMap_map, List.map_filterMap, List.map_filterMap]
  refine List.filterMap_congr fun c _ => ?_
  cases c with
  | problem span p => exact congrArg some (Diagnostic.unworded_ofProblem p.code_raised ..)
  | _ => rfl

theorem parseTokens_raised (i : Identity) (find : String → Option Module)
    (h : ∀ t ∈ tokens, t.Spelled) :
    (parseTokens i (tokens.map Token.raised) find).1 = (parseTokens i tokens find).1.raised ∧
      (parseTokens i (tokens.map Token.raised) find).2.map Diagnostic.unworded =
        (parseTokens i tokens find).2.map Diagnostic.unworded := by
  refine ⟨Module.ofTokens_raised i h, ?_⟩
  simp only [parseTokens, parse, List.map_append, lexicalDiagnostics_raised,
    outlineDiagnostics_raised _ h, Module.ofTokens_raised i h,
    Module.resolutionDiagnostics_raised]

/-- Two modules refer to the same modules at the same places, and declare the same names on the same
levels and in the same scopes. -/
structure Module.SameOutline (m m' : Module) : Prop where
  references : m'.references = m.references
  statements : m'.tree.map Statement.span = m.tree.map Statement.span
  usings : m'.usings = m.usings
  symbols : m'.symbols.declared.map (fun v => (Ascii.upper v.name, v.level, v.scope)) =
    m.symbols.declared.map fun v => (Ascii.upper v.name, v.level, v.scope)

theorem Module.sameOutline_raised (m : Module) : m.SameOutline m.raised where
  references := m.references_raised
  statements := by
    simp only [raised, List.map_map]
    rfl
  usings := rfl
  symbols := by
    simp only [raised, SymbolTable.raised, List.map_map]
    refine List.map_congr_left fun v _ => ?_
    simp only [Function.comp_apply, Variable.raised, Ascii.upper_upper]

/-- The letter case of a source shows only in the texts of its tokens and in the wording of its
diagnostics. -/
theorem upperCase_agrees (type : ObjectType) (i : Identity) (find : String → Option Module)
    (source : String) :
    tokenize (Ascii.upper source) = (tokenize source).map Token.raised ∧
      (lexicalDiagnostics i.path (tokenize (Ascii.upper source))).map Diagnostic.unworded =
        (lexicalDiagnostics i.path (tokenize source)).map Diagnostic.unworded ∧
      Scan.ofSource type (Ascii.upper source) = Scan.ofSource type source ∧
      (parseSource i source find).1.SameOutline (parseSource i (Ascii.upper source) find).1 ∧
      (parseSource i (Ascii.upper source) find).2.map Diagnostic.unworded =
        (parseSource i source find).2.map Diagnostic.unworded := by
  obtain ⟨hmodule, hdiagnostics⟩ :=
    parseTokens_raised i find fun _ (h : _ ∈ tokenize source) => spelled_of_mem_tokenize h
  rw [parseSource, parseSource, tokenize_upper]
  refine ⟨rfl, lexicalDiagnostics_raised .., Scan.ofSource_upper type source, ?_, hdiagnostics⟩
  rw [hmodule]
  exact Module.sameOutline_raised _

end Steplib
