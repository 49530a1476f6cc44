import Steplib.Severity.Rules
import Steplib.Text.Lines

/-!
# Severity rules in an `.editorconfig`

A section `[pattern]` holds settings, one a line, each of which gives a code of diagnostics a
severity in the files that the pattern describes. Lines that are blank or begin with `#` or `;` say
nothing, and what is not well formed is passed over.

## Main definitions

* `EditorConfig.entry?`: what one line says.
* `EditorConfig.rules`: the rules that a whole configuration sets.
-/

namespace Steplib.EditorConfig

/-- A line of the configuration that says something. -/
inductive Entry
  /-- The start of a section for the files that a pattern describes. -/
  | heading (pattern : String)
  /-- A setting of the severity of a code. -/
  | setting (code value : String)
deriving DecidableEq, Repr

/-- The text between an opening bracket and a closing one. -/
def bracketed? (line : List Char) : Option (List Char) :=
  (Text.dropLeading? ['['] line).bind (Text.dropTrailing? [']'])

/-- What the key of a setting begins with; the code comes next. -/
def keyStart : List Char := "natls.".toList

/-- What the key of a setting ends with, after the code. -/
def keyEnd : List Char := ".severity".toList

/-- The code that the key of a setting addresses. -/
def codeOf? (key : List Char) : Option (List Char) :=
  (Text.dropLeading? keyStart (Text.trim key)).bind (Text.dropTrailing? keyEnd)

/-- What a line says. -/
def entry? (line : List Char) : Option Entry :=
  let line := Text.trim line
  if line.isEmpty || line.head? == some '#' || line.head? == some ';' then
    none
  else
    match bracketed? line with
    | some pattern => some (.heading (String.ofList (Text.trim pattern)))
    | none => do
      let (key, value) ← Text.splitFirst? '=' line
      let code ← codeOf? key
      return .setting (String.ofList code) (String.ofList value)

/-- The rules with those of a list of entries added, where `pattern` is that of the open
section. -/
def addEntries (pattern : Option String) (rules : SeverityRules) : List Entry → SeverityRules
  | [] => rules
  | .heading pattern :: rest => addEntries (some pattern) rules rest
  | .setting code value :: rest =>
    let added := do
      let pattern ← pattern
      let action ← SeverityAction.ofConfig? value
      rules.add? code pattern action
    addEntries pattern (added.getD rules) rest

/-- The rules that a configuration sets, with patterns relative to `root`. -/
def rules (root : Path) (content : String) : SeverityRules :=
  addEntries none { root } ((Text.lines content.toList).filterMap entry?)

end Steplib.EditorConfig
