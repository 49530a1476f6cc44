import Steplib.ObjectType
import Steplib.Token.Basic

/-!
# Modules

A module is what is known of a parsed source: the statements that matter for references between
modules, the declared variables and the imported data areas.
-/

namespace Steplib

/-- What identifies a source file: its path, its library, the name by which it is referred to and
its object type. -/
structure Identity where
  path : Path
  library : String
  name : String
  type : ObjectType
deriving DecidableEq, Repr

/-- The target of a `CALLNAT` or `FETCH`. -/
inductive CallTarget
  /-- A module named by a literal. -/
  | literal (name : String)
  /-- A variable whose value names the module only when the program runs. -/
  | variable (text : String)
deriving DecidableEq, Repr

/-- What a statement does. -/
inductive Action
  | defineData
  | defineSubroutine (name : String)
  | perform (name : String) (external : Bool)
  | callnat (target : CallTarget)
  | fetch (target : CallTarget)
  | includeCopycode (name : String)
  | callFunction (name : String)
  | useVariable (name : String)
deriving DecidableEq, Repr

/-- The module that the action refers to, if it refers to one. -/
def Action.reference? : Action → Option String
  | perform name true => some name
  | callnat (.literal name) | fetch (.literal name) => some name
  | includeCopycode name | callFunction name => some name
  | _ => none

/-- A statement and its range in the source. -/
structure Statement where
  action : Action
  span : Span
deriving DecidableEq, Repr

/-- The module that the statement refers to, if it refers to one. -/
def Statement.reference? (s : Statement) : Option String :=
  s.action.reference?

/-- An import of a data area by `USING`. -/
structure UsingClause where
  name : String
  scope : DataScope
  span : Span
deriving DecidableEq, Repr

/-- A declared variable. -/
structure Variable where
  name : String
  /-- The name with the name of its group in front of it, if it stands in a group. -/
  qualifiedName : String
  level : Nat
  scope : DataScope
  span : Span
deriving DecidableEq, Repr

/-- The variables of a module in the order of their declaration, one for each name. -/
structure SymbolTable where
  declared : List Variable := []
deriving DecidableEq, Repr

namespace SymbolTable

/-- The variable with the given name, in any letter case. -/
def find? (s : SymbolTable) (name : String) : Option Variable :=
  s.declared.find? fun v => Ascii.eqIgnoreCase v.name name

/-- The name is declared. -/
def contains (s : SymbolTable) (name : String) : Bool :=
  (s.find? name).isSome

/-- The table with a variable declared; the first declaration of a name stays. -/
def insert (s : SymbolTable) (v : Variable) : SymbolTable :=
  if s.contains v.name then s else ⟨s.declared ++ [v]⟩

/-- The table of a list of declarations. -/
def ofList (vs : List Variable) : SymbolTable :=
  vs.foldl insert {}

end SymbolTable

/-- A module. -/
structure Module where
  path : Path
  type : ObjectType
  /-- The name by which other modules refer to this one. -/
  name : String
  tree : List Statement := []
  symbols : SymbolTable := {}
  usings : List UsingClause := []
  /-- The module stands in for one that is still being parsed; its content is unknown. -/
  pending : Bool := false
deriving DecidableEq, Repr

namespace Module

/-- The module without content that stands for a file whose parse failed. The file can still be
found by its name. -/
def degraded (i : Identity) : Module :=
  { path := i.path, type := i.type, name := i.name }

/-- The module that stands for a file whose parse is still going on. -/
def placeholder (i : Identity) : Module :=
  { degraded i with pending := true }

variable (m : Module)

/-- The names of all modules that this one refers to: the imported data areas, then the targets
of the statements, in order and with repetitions. -/
def references : List String :=
  m.usings.map (·.name) ++ m.tree.filterMap Statement.reference?

/-- The ranges of the imports and statements that refer to the module called `name`, in any
letter case. -/
def referencesTo (name : String) : List Span :=
  (m.usings.filter fun u => Ascii.eqIgnoreCase u.name name).map (·.span) ++
    (m.tree.filter fun s => s.reference?.any (Ascii.eqIgnoreCase · name)).map (·.span)

/-- The name of the module that is referred to at a position. -/
def referenceAt? (p : Position) : Option String :=
  match m.usings.find? (·.span.contains p) with
  | some u => some u.name
  | none => (m.tree.filter (·.span.contains p)).findSome? Statement.reference?

/-- Callers of the module pass it data: it declares or imports parameter data. -/
def hasParameterData : Bool :=
  m.symbols.declared.any (·.scope == .parameterData) ||
    m.usings.any (·.scope == .parameterData)

/-- The variables that the statements use, with the ranges of their uses. -/
def variableUses : List (String × Span) :=
  m.tree.filterMap fun s =>
    match s.action with
    | .useVariable name => some (name, s.span)
    | _ => none

/-- Callers can observe a change to the module. Data areas, copycodes, DDMs and functions always
shape their callers; subprograms, subroutines and helproutines do through their parameters. -/
def shapesCallers : Bool :=
  match m.type with
  | .localArea | .parameterArea | .globalArea | .copycode | .ddm | .function => true
  | .subprogram | .subroutine | .helproutine => m.hasParameterData
  | .program | .map => false

end Module

end Steplib
