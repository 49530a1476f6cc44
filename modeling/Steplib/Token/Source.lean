import Steplib.Text.Lines
import Steplib.Token.Lexeme

/-!
# The tokens of a source text

No token extends over a line end, so a source is cut into tokens line by line. Text that is no
token counts for the positions of what follows it. Lexing never fails: text that no class allows
becomes a token with a diagnostic.
-/

namespace Steplib

namespace Token

/-- The tokens among the lexemes of a line, from the given column and byte offset on. -/
def ofLexemes (line column offset : Nat) : List Lexeme → List Token
  | [] => []
  | l :: rest =>
    let more :=
      ofLexemes line (column + l.text.length) (offset + Text.byteLength l.text) rest
    if l.kind.isTrivia then more
    else ⟨l.kind, String.ofList l.text, line, column, offset⟩ :: more

/-- The tokens of the lines from the given line number and byte offset on. -/
def ofLines (line offset : Nat) : List (List Char) → List Token
  | [] => []
  | cs :: rest =>
    ofLexemes line 0 offset (Lexeme.ofLine true cs) ++
      ofLines (line + 1) (offset + Text.byteLength cs + 1) rest

end Token

/-- The tokens of a source text, in order. -/
def tokenize (source : String) : List Token :=
  Token.ofLines 0 0 (source.toList.splitOn '\n')

/-- The diagnostics for what is wrong with single tokens. -/
def lexicalDiagnostics (file : Path) (tokens : List Token) : List Diagnostic :=
  tokens.filterMap (Token.diagnostic? · file)

end Steplib
