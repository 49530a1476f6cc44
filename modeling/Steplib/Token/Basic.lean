import Steplib.Diagnostic.Basic

/-!
# Tokens of Natural source

Only the words that the scanner and the module outline act on are keywords; every other word is
an identifier. Keywords and names are written in any letter case.
-/

namespace Steplib

/-- The scope of declared or imported data. -/
inductive DataScope
  | localData
  | parameterData
  | globalData
  | independentData
deriving DecidableEq, Repr

/-- A keyword. -/
inductive Keyword
  | define
  | data
  | scope (scope : DataScope)
  | usingWord
  | endDefine
  | subroutine
  | endSubroutine
  | function
  | endFunction
  | perform
  | callnat
  | fetch
  | returnWord
  | repeatWord
  | includeWord
  | map
  | endWord
deriving DecidableEq, Repr

namespace Keyword

/-- All keywords. -/
def all : List Keyword :=
  [define, data, scope .localData, scope .parameterData, scope .globalData,
   scope .independentData, usingWord, endDefine, subroutine, endSubroutine, function,
   endFunction, perform, callnat, fetch, returnWord, repeatWord, includeWord, map, endWord]

/-- The upper-case spelling of the keyword. -/
def text : Keyword → String
  | define => "DEFINE"
  | data => "DATA"
  | scope .localData => "LOCAL"
  | scope .parameterData => "PARAMETER"
  | scope .globalData => "GLOBAL"
  | scope .independentData => "INDEPENDENT"
  | usingWord => "USING"
  | endDefine => "END-DEFINE"
  | subroutine => "SUBROUTINE"
  | endSubroutine => "END-SUBROUTINE"
  | function => "FUNCTION"
  | endFunction => "END-FUNCTION"
  | perform => "PERFORM"
  | callnat => "CALLNAT"
  | fetch => "FETCH"
  | returnWord => "RETURN"
  | repeatWord => "REPEAT"
  | includeWord => "INCLUDE"
  | map => "MAP"
  | endWord => "END"

/-- The keyword that a word spells, in any letter case. -/
def ofText? (word : String) : Option Keyword :=
  all.find? fun k => k.text == Ascii.upper word

end Keyword

/-- A punctuation mark that is a token of its own. -/
inductive Mark
  | leftParen
  | rightParen
  | leftBracket
  | rightBracket
  | less
  | greater
  | equal
  | comma
  | colon
  | semicolon
  | dot
  | star
  | plus
  | minus
  | slash
deriving DecidableEq, Repr

/-- The mark that a character is. -/
def Mark.ofChar? : Char → Option Mark
  | '(' => some leftParen
  | ')' => some rightParen
  | '[' => some leftBracket
  | ']' => some rightBracket
  | '<' => some less
  | '>' => some greater
  | '=' => some equal
  | ',' => some comma
  | ':' => some colon
  | ';' => some semicolon
  | '.' => some dot
  | '*' => some star
  | '+' => some plus
  | '-' => some minus
  | '/' => some slash
  | _ => none

/-- The name of a mark in token listings. -/
def Mark.label : Mark → String
  | leftParen => "L_PAREN"
  | rightParen => "R_PAREN"
  | leftBracket => "L_BRACKET"
  | rightBracket => "R_BRACKET"
  | less => "LT"
  | greater => "GT"
  | equal => "EQ"
  | comma => "COMMA"
  | colon => "COLON"
  | semicolon => "SEMICOLON"
  | dot => "DOT"
  | star => "STAR"
  | plus => "PLUS"
  | minus => "MINUS"
  | slash => "SLASH"

/-- The kind of a piece of source text. -/
inductive TokenKind
  /-- Blanks within a line. -/
  | blank
  /-- A comment. -/
  | comment
  | identifier
  | integer
  | decimal
  | string
  | mark (mark : Mark)
  | keyword (keyword : Keyword)
  /-- A string literal that is still open at the end of its line. -/
  | unterminated
  /-- A character that starts no token. -/
  | unknown
deriving DecidableEq, Repr

namespace TokenKind

/-- Blanks and comments are no tokens. -/
def isTrivia : TokenKind → Bool
  | blank | comment => true
  | _ => false

/-- The kind is a keyword. -/
def isKeyword : TokenKind → Bool
  | keyword _ => true
  | _ => false

/-- Identifiers, numbers and strings are literals. -/
def isLiteral : TokenKind → Bool
  | identifier | integer | decimal | string => true
  | _ => false

/-- The name of the kind in token listings. -/
def label : TokenKind → String
  | blank => "WHITESPACE"
  | comment => "COMMENT"
  | identifier => "IDENT"
  | integer => "INTEGER"
  | decimal => "DECIMAL"
  | string => "STRING"
  | mark m => m.label
  | keyword k => k.text.map (fun c => if c = '-' then '_' else c) ++ "_KW"
  | unterminated | unknown => "ERROR"

end TokenKind

/-- A token of a source text. A token never extends over a line end. -/
structure Token where
  kind : TokenKind
  text : String
  line : Nat
  /-- The number of characters before the token in its line. -/
  column : Nat
  /-- The number of bytes before the token in the source. -/
  offset : Nat
deriving DecidableEq, Repr

/-- The text with every pair of adjacent marks `q` made one. -/
def undouble (q : Char) : List Char → List Char
  | a :: b :: rest =>
    if a = q ∧ b = q then q :: undouble q rest else a :: undouble q (b :: rest)
  | rest => rest

namespace Token

variable (t : Token)

/-- Where the token starts. -/
def start : Position :=
  ⟨t.line, t.column⟩

/-- The range of the token. -/
def span : Span :=
  .onLine t.line t.column t.text.length

/-- The next token starts right where this one ends. -/
def adjacentTo (next : Token) : Bool :=
  t.offset + t.text.utf8ByteSize == next.offset

/-- The token's text in upper case, the canonical form of a name. -/
def name : String :=
  Ascii.upper t.text

/-- The content of a string literal: without its quotes, a doubled quote standing for one. -/
def stringValue? : Option String :=
  match t.kind, t.text.toList with
  | .string, quote :: next :: rest =>
    some (String.ofList (undouble quote (next :: rest).dropLast))
  | _, _ => none

/-- The token is an identifier. -/
def isIdentifier : Bool :=
  t.kind == .identifier

/-- The token names a variable: it is written with a leading `#`. -/
def isHashName : Bool :=
  t.text.toList.head? == some '#'

/-- What is wrong with the token itself. -/
def problem? : Option Problem :=
  match t.kind with
  | .unterminated => some .unterminatedString
  | .unknown => some (.unrecognizedCharacter t.text)
  | _ => none

/-- The diagnostic for what is wrong with the token itself. -/
def diagnostic? (file : Path) : Option Diagnostic :=
  t.problem?.map (Diagnostic.ofProblem file t.span)

end Token

end Steplib
