import Steplib.Module.Basic
import Steplib.Scan

/-!
# Clauses of a source

The tokens of a source are read from left to right as a sequence of clauses: statements, data
declarations and imports. Inside a `DEFINE DATA` block only declarations, imports and scope words
count; outside it only statements do. Tokens that belong to no clause are passed over.

## Main definitions

* `Clause.step`: what is read at one token, inside or outside a block.
* `Clause.ofSource`: the clauses of a source.
-/

namespace Steplib

/-- A piece of a source that contributes to its module. -/
inductive Clause
  | statement (statement : Statement)
  /-- A call of a subroutine, which may be defined anywhere in the source. -/
  | perform (name : String) (span : Span)
  | importArea (clause : UsingClause)
  | declare (declaration : Variable)
  | problem (span : Span) (problem : Problem)
deriving DecidableEq, Repr

/-- An open `DEFINE DATA` block. -/
structure DataBlock where
  /-- The token that opened the block. -/
  define : Token
  /-- The scope of what is declared next. -/
  scope : DataScope := .localData
  /-- The declarations that can group the next one, innermost first, with their levels. -/
  groups : List (Nat × String) := []
deriving DecidableEq, Repr

/-- The result of reading at a token: the clause found, the block that is open afterwards and the
number of further tokens that were used. -/
structure ClauseStep where
  clause : Option Clause := none
  block : Option DataBlock := none
  used : Nat := 0

namespace DataBlock

/-- The number that a row of decimal digits stands for. -/
def levelOf (digits : String) : Nat :=
  digits.toList.foldl (fun n c => 10 * n + (c.toNat - '0'.toNat)) 0

/-- The level number is in the allowed range. -/
def isLevel (n : Nat) : Bool :=
  1 ≤ n && n ≤ 99

/-- Reading the declaration of `name` on the level written as `number`. -/
def declare (b : DataBlock) (number name : Token) : ClauseStep :=
  let level := levelOf number.text
  if isLevel level then
    let groups := b.groups.dropWhile fun g => level ≤ g.1
    let qualifiedName :=
      match groups.head? with
      | some (_, group) => group ++ "." ++ name.text
      | none => name.text
    { clause := some <| .declare
        { name := name.text, qualifiedName, level, scope := b.scope, span := name.span }
      block := some { b with groups := (level, name.text) :: groups }
      used := 1 }
  else
    { clause := some <|
        .problem ⟨number.span.start, name.span.stop⟩ (.invalidLevel number.text name.text)
      block := some b
      used := 1 }

/-- Reading at the token `t` inside the block, where `startsLine` says that `t` is the first
token of its line. -/
def read (b : DataBlock) (startsLine : Bool) (t : Token) (rest : List Token) : ClauseStep :=
  match t.kind with
  | .keyword .endDefine => { clause := some (.statement ⟨.defineData, b.define.span⟩) }
  | .keyword (.scope scope) => { block := some { b with scope, groups := [] } }
  | .keyword .usingWord =>
    match Token.leadingName? rest with
    | some name =>
      { clause := some (.importArea ⟨name.name, b.scope, name.span⟩), block := some b, used := 1 }
    | none => { block := some b }
  | .integer =>
    match startsLine, Token.leadingName? rest with
    | true, some name => b.declare t name
    | _, _ => { block := some b }
  | _ => { block := some b }

/-- What is found when the source ends inside the block. -/
def atEnd (b : DataBlock) : List Clause :=
  [.problem b.define.span .missingEndDefine, .statement ⟨.defineData, b.define.span⟩]

end DataBlock

namespace Clause

/-- Reading after the word `DEFINE`. -/
def readDefine (define : Token) (rest : List Token) : ClauseStep :=
  match rest with
  | [] => {}
  | word :: rest =>
    match word.kind with
    | .keyword .data => { block := some { define }, used := 1 }
    | .keyword .subroutine =>
      match Token.leadingName? rest with
      | some name =>
        { clause := some <|
            .statement ⟨.defineSubroutine name.name, ⟨define.span.start, name.span.stop⟩⟩
          used := 2 }
      | none => { used := 1 }
    | .keyword .function => { used := if (Token.leadingName? rest).isSome then 2 else 1 }
    | _ => {}

/-- Reading a call target `skip` tokens after the calling word. -/
def readCall (action : CallTarget → Action) (word : Token) (rest : List Token) (skip : Nat) :
    ClauseStep :=
  match (rest.drop skip).head? with
  | none => { used := skip }
  | some target =>
    let found (t : CallTarget) : ClauseStep :=
      { clause := some (.statement ⟨action t, ⟨word.span.start, target.span.stop⟩⟩)
        used := skip + 1 }
    match target.kind, target.stringValue? with
    | .string, some name => found (.literal (Ascii.upper name))
    | .identifier, _ => found (.variable target.text)
    | _, _ => { used := skip }

/-- Reading at the token `t` outside every block. -/
def read (t : Token) (rest : List Token) : ClauseStep :=
  match t.kind with
  | .keyword .define => readDefine t rest
  | .keyword .perform =>
    match Token.leadingName? rest with
    | some name =>
      { clause := some (.perform name.name ⟨t.span.start, name.span.stop⟩), used := 1 }
    | none => {}
  | .keyword .callnat => readCall .callnat t rest 0
  | .keyword .fetch => readCall .fetch t rest (Token.fetchModifiers rest)
  | .keyword .includeWord =>
    match Token.leadingName? rest with
    | some name =>
      { clause := some <|
          .statement ⟨.includeCopycode name.name, ⟨t.span.start, name.span.stop⟩⟩
        used := 1 }
    | none => {}
  | .identifier =>
    if t.callsFunction rest then
      { clause := some (.statement ⟨.callFunction t.name, t.span⟩) }
    else if t.isHashName then
      { clause := some (.statement ⟨.useVariable t.text, t.span⟩) }
    else {}
  | _ => {}

/-- Reading at the token `t`, inside the open block if there is one; `previous` is the line of
the token before it. -/
def step (block : Option DataBlock) (previous : Option Nat) (t : Token) (rest : List Token) :
    ClauseStep :=
  match block with
  | some b => b.read (previous != some t.line) t rest
  | none => read t rest

/-- The clauses of a list of tokens, in order. -/
def ofTokens (block : Option DataBlock) (previous : Option Nat) : List Token → List Clause
  | [] => (block.map DataBlock.atEnd).getD []
  | t :: rest =>
    let result := step block previous t rest
    let last := (rest.take result.used).getLast?.getD t
    result.clause.toList ++ ofTokens result.block (some last.line) (rest.drop result.used)
termination_by tokens => tokens.length
decreasing_by simp only [List.length_drop, List.length_cons]; omega

/-- The clauses of a source, from its first token on. -/
def ofSource (tokens : List Token) : List Clause :=
  ofTokens none none tokens

/-- The name of the subroutine that the clause defines. -/
def subroutine? : Clause → Option String
  | statement ⟨.defineSubroutine name, _⟩ => some name
  | _ => none

/-- The statement of the clause, where `defined` are the subroutines of the source. -/
def statement? (defined : List String) : Clause → Option Statement
  | statement s => some s
  | perform name span => some ⟨.perform name (!defined.contains name), span⟩
  | _ => none

/-- The import of the clause. -/
def importArea? : Clause → Option UsingClause
  | importArea u => some u
  | _ => none

/-- The declaration of the clause. -/
def declare? : Clause → Option Variable
  | declare v => some v
  | _ => none

/-- What is wrong with the clause. -/
def problem? : Clause → Option (Span × Problem)
  | problem span p => some (span, p)
  | _ => none

end Clause

end Steplib
