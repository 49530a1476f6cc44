import Steplib.Path.Basic
import Steplib.Source.Position
import Steplib.Text.Ascii
import Steplib.Text.Blank

/-!
# Diagnostics

A diagnostic reports a finding of some tool at a place in a file. What the lexer, the outline of
a module and the resolution of names find is a `Problem`; its code and its wording are functions
of the problem.
-/

namespace Steplib

/-- How severe a diagnostic is. -/
inductive Severity
  | error
  | warning
  | info
  | hint
deriving DecidableEq, Repr

namespace Severity

/-- The number that stands for the severity in the language server protocol. -/
def number : Severity → Nat
  | error => 1
  | warning => 2
  | info => 3
  | hint => 4

/-- The severity that a configuration value names, in any letter case and with blanks around. -/
def ofConfig? (value : String) : Option Severity :=
  match Ascii.lower (Text.trimmed value) with
  | "error" => some error
  | "warning" | "warn" => some warning
  | "info" | "information" => some info
  | "hint" => some hint
  | _ => none

end Severity

/-- A subsystem that produces diagnostics. -/
inductive Tool
  | parser
  | linter
  | testRunner
  | catalog
deriving DecidableEq, Repr

/-- All tools, in the order in which their diagnostics are listed. -/
def Tool.all : List Tool :=
  [parser, linter, testRunner, catalog]

/-- A place in a file. -/
structure Location where
  file : Path
  span : Span
deriving DecidableEq, Repr

/-- A finding, reported on a range of a file. -/
structure Diagnostic where
  /-- The file on which the diagnostic is reported. -/
  file : Path
  span : Span
  severity : Severity
  code : String
  message : String
  /-- Where the cause stands, if it stands in source included from another file. -/
  cause : Option Location := none
deriving DecidableEq, Repr

/-- The file whose path decides how the diagnostic is treated. -/
def Diagnostic.physicalFile (d : Diagnostic) : Path :=
  (d.cause.map (·.file)).getD d.file

/-- Why the source of a file could not be read. -/
inductive ReadError
  | notFound
  | isDirectory
  | notDirectory
  /-- A name or the whole path is longer than a disk allows. -/
  | nameTooLong
  /-- The path holds the character NUL, which no name can hold. -/
  | nulInName
  | notText
deriving DecidableEq, Repr

/-- The wording of a read error. -/
def ReadError.message : ReadError → String
  | notFound => "No such file or directory (os error 2)"
  | isDirectory => "Is a directory (os error 21)"
  | notDirectory => "Not a directory (os error 20)"
  | nameTooLong => "File name too long (os error 36)"
  | nulInName => "file name contained an unexpected NUL byte"
  | notText => "stream did not contain valid UTF-8"

/-- Why no module could be built from a file. -/
inductive ParseFailure
  /-- The parser gave up and said why. -/
  | rejected (message : String)
  /-- The parser broke down, with a message if it left one. -/
  | crashed (message : Option String)
  /-- The source could not be read. -/
  | unreadable (cause : ReadError)
deriving DecidableEq, Repr

/-- The wording of a parse failure. -/
def ParseFailure.message : ParseFailure → String
  | rejected message => "parser fault: " ++ message
  | crashed message => "parser panicked: " ++ message.getD "unknown payload"
  | unreadable cause => "cannot read source: " ++ cause.message

/-- The kinds of module that a call can name. -/
inductive CallKind
  | module
  | function
deriving DecidableEq, Repr

/-- What can be wrong with a source text. -/
inductive Problem
  | unrecognizedCharacter (text : String)
  | unterminatedString
  | unresolvedReference (name : String)
  | unresolvedDataArea (name : String)
  | unresolvedModule (kind : CallKind) (name : String)
  | unresolvedSubroutine (name : String)
  | unresolvedCopycode (name : String)
  | missingEndDefine
  | invalidLevel (number name : String)
  | parseFailure (failure : ParseFailure)
deriving DecidableEq, Repr

namespace Problem

/-- The code under which severity rules address the problem. -/
def code : Problem → String
  | unrecognizedCharacter _ => "L0001"
  | unterminatedString => "L0002"
  | unresolvedReference _ => "E0001"
  | unresolvedDataArea _ => "E0002"
  | unresolvedModule _ _ => "E0003"
  | unresolvedSubroutine _ => "E0004"
  | unresolvedCopycode _ => "E0005"
  | missingEndDefine => "E0006"
  | invalidLevel _ _ => "E0007"
  | parseFailure _ => "E0099"

/-- The wording of the problem. -/
def message : Problem → String
  | unrecognizedCharacter text => "unrecognized character '" ++ text ++ "'"
  | unterminatedString => "unterminated string literal"
  | unresolvedReference name => "unresolved reference: '" ++ name ++ "'"
  | unresolvedDataArea name => "unresolved data area: '" ++ name ++ "'"
  | unresolvedModule .module name => "unresolved module: '" ++ name ++ "'"
  | unresolvedModule .function name => "unresolved function: '" ++ name ++ "'"
  | unresolvedSubroutine name => "unresolved subroutine: '" ++ name ++ "'"
  | unresolvedCopycode name => "unresolved copycode: '" ++ name ++ "'"
  | missingEndDefine => "DEFINE DATA is missing END-DEFINE"
  | invalidLevel number name => "invalid level number '" ++ number ++ "' for " ++ name
  | parseFailure failure => failure.message

end Problem

/-- The diagnostic that reports a problem; every problem is an error until a rule says otherwise. -/
def Diagnostic.ofProblem (file : Path) (span : Span) (problem : Problem)
    (cause : Option Location := none) : Diagnostic :=
  { file, span, severity := .error, code := problem.code, message := problem.message, cause }

end Steplib
