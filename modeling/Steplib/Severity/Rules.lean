import Steplib.Diagnostic.Basic
import Steplib.Severity.Glob

/-!
# Severity rules

A project can change the severity of diagnostics, or suppress them, by rules on the code of the
diagnostic and the file of its cause. Of the rules that apply the last one decides.
-/

namespace Steplib

/-- What a rule does to a diagnostic. -/
inductive SeverityAction
  | setTo (severity : Severity)
  | suppress
deriving DecidableEq, Repr

/-- The action that a configuration value names; `none` suppresses. -/
def SeverityAction.ofConfig? (value : String) : Option SeverityAction :=
  if Ascii.eqIgnoreCase (Text.trimmed value) "none" then some suppress
  else (Severity.ofConfig? value).map setTo

/-- A rule for the diagnostics of one code in the files that a pattern describes. -/
structure SeverityRule where
  code : String
  /-- The pattern describes the name of the file instead of its path. -/
  onFileName : Bool
  parts : List Glob.Part
  action : SeverityAction
deriving DecidableEq, Repr

/-- The rules of a project. -/
structure SeverityRules where
  /-- The directory to which the path patterns are relative. -/
  root : Path
  /-- The rules, the last added one first. -/
  latestFirst : List SeverityRule := []
deriving DecidableEq, Repr

namespace SeverityRule

/-- The rule with a written pattern, unless the pattern is malformed. Slashes at its start carry
no meaning, and a pattern without other slashes describes file names. -/
def ofPattern? (code : String) (pattern : String) (action : SeverityAction) :
    Option SeverityRule :=
  let pattern := pattern.toList.dropWhile (· == '/')
  (Glob.parse? pattern).map fun parts =>
    { code, onFileName := !pattern.contains '/', parts, action }

/-- The rule applies to diagnostics of a code in the file with the given path below the root and
the given name. -/
def applies (r : SeverityRule) (code relative name : String) : Bool :=
  Ascii.eqIgnoreCase r.code code &&
    Glob.accepts r.parts (if r.onFileName then name else relative).toList

end SeverityRule

namespace SeverityRules

/-- There are no rules. -/
def isEmpty (rs : SeverityRules) : Bool :=
  rs.latestFirst.isEmpty

/-- The rules with one more, unless its pattern is malformed. -/
def add? (rs : SeverityRules) (code pattern : String) (action : SeverityAction) :
    Option SeverityRules :=
  (SeverityRule.ofPattern? code pattern action).map fun r =>
    { rs with latestFirst := r :: rs.latestFirst }

/-- The action of the last rule that applies to diagnostics of a code in a file. -/
def lookup (rs : SeverityRules) (code : String) (file : Path) : Option SeverityAction :=
  let relative := file.textBelow rs.root
  let name := file.fileName?.getD ""
  (rs.latestFirst.find? (·.applies code relative name)).map (·.action)

/-- The diagnostic as the rules leave it, or nothing if it is suppressed. -/
def apply (rs : SeverityRules) (d : Diagnostic) : Option Diagnostic :=
  match rs.lookup d.code d.physicalFile with
  | some .suppress => none
  | some (.setTo severity) => some { d with severity }
  | none => some d

end SeverityRules

end Steplib
