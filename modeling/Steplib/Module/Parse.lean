import Steplib.Module.Clause

/-!
# From source to module

The module of a source depends on the source and the file's identity alone. Its diagnostics also
depend on which of the referenced modules can be found: references that lead nowhere are reported
first, imports before statements, and then the variables that are declared neither in the module
nor in the data areas it imports. A copycode's variables are checked where it is included. While
an import is missing or still being parsed nothing is said about variables.

## Main definitions

* `Module.ofTokens`: the module of a source.
* `Module.resolutionDiagnostics`: the diagnostics that depend on the modules which can be found.
* `parseSource`: the module of a source text with all its diagnostics.
-/

namespace Steplib

namespace Module

/-- The module of a list of clauses. -/
def ofClauses (i : Identity) (clauses : List Clause) : Module :=
  let defined := clauses.filterMap Clause.subroutine?
  { path := i.path
    type := i.type
    name := i.name
    tree := clauses.filterMap (Clause.statement? defined)
    symbols := .ofList (clauses.filterMap Clause.declare?)
    usings := clauses.filterMap Clause.importArea? }

/-- The module of a list of tokens. -/
def ofTokens (i : Identity) (tokens : List Token) : Module :=
  ofClauses i (Clause.ofSource tokens)

variable (m : Module) (find : String → Option Module)

/-- The names that have to be looked up to check the module, in order and without repetition. -/
def wanted : List String :=
  m.references.eraseDups

/-- The diagnostics for imports of data areas that cannot be found. -/
def importDiagnostics : List Diagnostic :=
  m.usings.filterMap fun u =>
    if (find u.name).isNone then
      some (.ofProblem m.path u.span (.unresolvedDataArea u.name))
    else none

/-- What it means for an action that its module cannot be found. -/
def missing? : Action → Option Problem
  | .perform name true => some (.unresolvedSubroutine name)
  | .callnat (.literal name) | .fetch (.literal name) => some (.unresolvedModule .module name)
  | .callFunction name => some (.unresolvedModule .function name)
  | .includeCopycode name => some (.unresolvedCopycode name)
  | _ => none

/-- The diagnostics for statements whose module cannot be found. -/
def callDiagnostics : List Diagnostic :=
  m.tree.filterMap fun s =>
    match s.reference?, missing? s.action with
    | some name, some problem =>
      if (find name).isNone then some (.ofProblem m.path s.span problem) else none
    | _, _ => none

/-- The copycodes that the module includes and that can be found, with the ranges of their
`INCLUDE` statements. -/
def included : List (Module × Span) :=
  m.tree.filterMap fun s =>
    match s.action with
    | .includeCopycode name => (find name).map (·, s.span)
    | _ => none

/-- Every import is at hand: each data area is found, and no data area or found copycode is still
being parsed. -/
def importsComplete : Bool :=
  (m.usings.all fun u => (find u.name).any fun area => !area.pending) &&
    (m.included find).all fun (copycode, _) => !copycode.pending

/-- The variable is declared in the module or in a data area it imports. -/
def inScope (name : String) : Bool :=
  m.symbols.contains name ||
    m.usings.any fun u => (find u.name).any fun area => area.symbols.contains name

/-- The diagnostics for variables that the module itself uses without a declaration. -/
def ownVariableDiagnostics : List Diagnostic :=
  m.variableUses.filterMap fun (name, span) =>
    if m.inScope find name then none
    else some (.ofProblem m.path span (.unresolvedReference name))

/-- The diagnostics for variables that included copycodes use without a declaration. -/
def includedVariableDiagnostics : List Diagnostic :=
  (m.included find).flatMap fun (copycode, includeSpan) =>
    copycode.variableUses.filterMap fun (name, span) =>
      if m.inScope find name then none
      else some (.ofProblem m.path includeSpan (.unresolvedReference name)
        (some ⟨copycode.path, span⟩))

/-- The diagnostics for undeclared variables; none while an import is not at hand, and none for a
copycode. -/
def variableDiagnostics : List Diagnostic :=
  if m.type != .copycode && m.importsComplete find then
    m.ownVariableDiagnostics find ++ m.includedVariableDiagnostics find
  else []

/-- The diagnostics that depend on the modules which can be found. -/
def resolutionDiagnostics : List Diagnostic :=
  m.importDiagnostics find ++ m.callDiagnostics find ++ m.variableDiagnostics find

end Module

/-- The diagnostics for clauses that are wrong in themselves. -/
def outlineDiagnostics (file : Path) (tokens : List Token) : List Diagnostic :=
  (Clause.ofSource tokens).filterMap fun c =>
    c.problem?.map fun (span, problem) => .ofProblem file span problem

/-- The module of a list of tokens and its diagnostics, where `find` gives the modules that can be
found. -/
def parse (i : Identity) (tokens : List Token) (find : String → Option Module) :
    Module × List Diagnostic :=
  let m := Module.ofTokens i tokens
  (m, outlineDiagnostics i.path tokens ++ m.resolutionDiagnostics find)

/-- The module and the one diagnostic of a file that could not be parsed. -/
def failedParse (i : Identity) (failure : ParseFailure) : Module × List Diagnostic :=
  (.degraded i, [.ofProblem i.path {} (.parseFailure failure)])

/-- The module of a list of tokens and all its diagnostics, those of single tokens first. -/
def parseTokens (i : Identity) (tokens : List Token) (find : String → Option Module) :
    Module × List Diagnostic :=
  let (m, diagnostics) := parse i tokens find
  (m, lexicalDiagnostics i.path tokens ++ diagnostics)

/-- The module of a source text and all its diagnostics. -/
def parseSource (i : Identity) (source : String) (find : String → Option Module) :
    Module × List Diagnostic :=
  parseTokens i (tokenize source) find

/-- The ways in which a parser is known to fail, by the name of the module it fails on. The first
entry for a name counts. -/
structure ParserFaults where
  faults : List (String × ParseFailure) := []

/-- The failure of the parser on a module of the given name, if it fails there. -/
def ParserFaults.of? (f : ParserFaults) (name : String) : Option ParseFailure :=
  f.faults.lookup name

end Steplib
