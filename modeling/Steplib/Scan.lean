import Steplib.ObjectType
import Steplib.Token.Source

/-!
# Scanning a source for references

One pass over the tokens finds the modules that a source refers to, without building a module.
A `PERFORM` may stand before the `DEFINE SUBROUTINE` it calls, so whether it leaves the source is
decided after the pass.

## Main definitions

* `Sighting.ofTokens`: everything that is noticed in the pass, in order.
* `Scan.ofSource`: the header name and the references of a source text.
-/

namespace Steplib

/-- A module name that is referred to at a position. -/
structure Candidate where
  name : String
  position : Position
deriving DecidableEq, Repr

/-- What the scanner notices at a token. -/
inductive Sighting
  /-- A reference to another module. -/
  | call (candidate : Candidate)
  /-- A call of a subroutine, which may be defined in the source itself. -/
  | perform (candidate : Candidate)
  /-- A `DEFINE SUBROUTINE` header. -/
  | subroutine (name : String)
  /-- A `DEFINE FUNCTION` header. -/
  | function (name : String)
deriving DecidableEq, Repr

namespace Token

/-- The first of the tokens, if it is an identifier. -/
def leadingName? (tokens : List Token) : Option Token :=
  tokens.head?.filter isIdentifier

/-- The identifier and the two tokens after it have the form `NAME(<`, without blanks. -/
def callsFunction (t : Token) (rest : List Token) : Bool :=
  match rest with
  | paren :: angle :: _ =>
    !t.isHashName && paren.kind == .mark .leftParen && angle.kind == .mark .less &&
      t.adjacentTo paren && paren.adjacentTo angle
  | _ => false

/-- The number of words between `FETCH` and its target. -/
def fetchModifiers (rest : List Token) : Nat :=
  match rest with
  | [] => 0
  | word :: _ =>
    match word.kind with
    | .keyword .returnWord | .keyword .repeatWord => 1
    | _ => 0

end Token

namespace Sighting

/-- A literal call target, `skip` tokens after the calling word `t`. -/
def ofLiteral (t : Token) (rest : List Token) (skip : Nat) : Option Sighting × Nat :=
  match (rest.drop skip).head?.bind Token.stringValue? with
  | some target => (some (.call ⟨Ascii.upper target, t.start⟩), skip + 1)
  | none => (none, 0)

/-- A header after the word `DEFINE`. -/
def ofHeader (rest : List Token) : Option Sighting × Nat :=
  match rest with
  | kind :: name :: _ =>
    if name.isIdentifier then
      match kind.kind with
      | .keyword .subroutine => (some (.subroutine name.name), 2)
      | .keyword .function => (some (.function name.name), 2)
      | _ => (none, 0)
    else (none, 0)
  | _ => (none, 0)

/-- What is noticed at the token `t` before the tokens `rest`, and how many of those it uses. -/
def read (t : Token) (rest : List Token) : Option Sighting × Nat :=
  match t.kind with
  | .keyword .define => ofHeader rest
  | .keyword .usingWord =>
    match Token.leadingName? rest with
    | some name => (some (.call ⟨name.name, name.start⟩), 1)
    | none => (none, 0)
  | .keyword .perform =>
    match Token.leadingName? rest with
    | some name => (some (.perform ⟨name.name, t.start⟩), 1)
    | none => (none, 0)
  | .keyword .callnat => ofLiteral t rest 0
  | .keyword .fetch => ofLiteral t rest (Token.fetchModifiers rest)
  | .keyword .includeWord =>
    match Token.leadingName? rest with
    | some name => (some (.call ⟨name.name, t.start⟩), 1)
    | none => (none, 0)
  | .identifier =>
    if t.callsFunction rest then (some (.call ⟨t.name, t.start⟩), 0) else (none, 0)
  | _ => (none, 0)

/-- Everything that is noticed in a list of tokens, in order. -/
def ofTokens : List Token → List Sighting
  | [] => []
  | t :: rest =>
    let (found, used) := Sighting.read t rest
    found.toList ++ ofTokens (rest.drop used)
termination_by tokens => tokens.length
decreasing_by simp only [List.length_drop, List.length_cons]; omega

/-- The module reference of a sighting. -/
def call? : Sighting → Option Candidate
  | call c => some c
  | _ => none

/-- The subroutine call of a sighting. -/
def perform? : Sighting → Option Candidate
  | perform c => some c
  | _ => none

/-- The name of a subroutine header. -/
def subroutine? : Sighting → Option String
  | subroutine name => some name
  | _ => none

/-- The name of a function header. -/
def function? : Sighting → Option String
  | function name => some name
  | _ => none

end Sighting

/-- What a scan learns about a source. -/
structure Scan where
  /-- The name in the header, for the object types that are named by their header. -/
  header : Option String
  /-- The references to other modules: first those that always leave the source, then the calls
  of subroutines that the source does not define. -/
  candidates : List Candidate
deriving DecidableEq, Repr

namespace Scan

/-- The scan of a list of tokens. -/
def ofTokens (type : ObjectType) (tokens : List Token) : Scan :=
  let seen := Sighting.ofTokens tokens
  let defined := seen.filterMap Sighting.subroutine?
  { header :=
      match type with
      | .subroutine => defined.head?
      | .function => (seen.filterMap Sighting.function?).head?
      | _ => none
    candidates :=
      seen.filterMap Sighting.call? ++
        (seen.filterMap Sighting.perform?).filter fun c => !defined.contains c.name }

/-- The scan of a source text. -/
def ofSource (type : ObjectType) (source : String) : Scan :=
  ofTokens type (tokenize source)

end Scan

end Steplib
