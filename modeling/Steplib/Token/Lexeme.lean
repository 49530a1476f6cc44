import Steplib.Token.Basic

/-!
# Lexemes of a line

A line is cut into lexemes from left to right; each lexeme is the longest piece of text that one
of the token classes allows at its place. Blanks and comments are lexemes too, so that the
lexemes of a line put together give the line. A `*` opens a comment only where no token stands
before it in the line.

## Main definitions

* `Lexeme.longest`: the kind and the length of the lexeme at a place of a line.
* `Lexeme.ofLine`: the lexemes of a line.

## Main results

* `Lexeme.flatMap_text_ofLine`: the lexemes of a line make up the line.
-/

namespace Steplib

/-- A piece of a line, with its kind. -/
structure Lexeme where
  kind : TokenKind
  text : List Char
deriving DecidableEq, Repr

namespace Lexeme

/-- Blanks that separate tokens within a line. -/
def isSpace (c : Char) : Bool :=
  c == ' ' || c == '\t' || c == '\x0c' || c == '\r'

/-- Characters that start a word. -/
def isWordStart (c : Char) : Bool :=
  c.isAlpha || c == '#' || c == '&'

/-- Characters that continue a word. -/
def isWordPart (c : Char) : Bool :=
  c.isAlphanum || c == '_' || c == '#' || c == '@' || c == '$' || c == '&' || c == '-'

/-- The number of characters that continue a literal opened by a single quote: up to the first
single quote that is not doubled. -/
def singleQuotedLength : List Char → Nat
  | '\'' :: '\'' :: rest => singleQuotedLength rest + 2
  | '\'' :: _ => 0
  | _ :: rest => singleQuotedLength rest + 1
  | [] => 0

/-- The kind and the remaining length of a literal after its opening quote, given how many
characters of `rest` it contains: with the closing quote if there is one. -/
def closeLiteral (quote : Char) (length : Nat) (rest : List Char) : TokenKind × Nat :=
  if (rest.drop length).head? = some quote then (.string, length + 1) else (.unterminated, length)

/-- The length of the fraction at the start of a text: a dot and at least one digit. -/
def fractionLength : List Char → Nat
  | '.' :: rest => match (rest.takeWhile Char.isDigit).length with
    | 0 => 0
    | n => n + 1
  | _ => 0

/-- A `*` at the start of a line opens a comment unless a word or mark follows it directly. -/
def opensComment (next : Option Char) : Bool :=
  match next with
  | none => true
  | some c => c == ' ' || c == '\t' || c == '*' || c == '\r'

/-- The kind of the longest lexeme that starts with `c`, and the number of its characters after
`c`; `first` says that no token stands before it in the line. -/
def longest (first : Bool) (c : Char) (rest : List Char) : TokenKind × Nat :=
  if isSpace c then
    (.blank, (rest.takeWhile isSpace).length)
  else if c = '/' ∧ rest.head? = some '*' then
    (.comment, rest.length)
  else if c = '*' ∧ first ∧ opensComment rest.head? then
    (.comment, (rest.takeWhile (· != '\r')).length)
  else if isWordStart c || (c == '+' && rest.head?.any fun d => d.isAlpha || d == '#') then
    (.identifier, (rest.takeWhile isWordPart).length)
  else if c.isDigit then
    let digits := (rest.takeWhile Char.isDigit).length
    match fractionLength (rest.drop digits) with
    | 0 => (.integer, digits)
    | n => (.decimal, digits + n)
  else if c = '.' ∧ rest.head?.any Char.isDigit then
    (.decimal, (rest.takeWhile Char.isDigit).length)
  else if c = '\'' then
    closeLiteral '\'' (singleQuotedLength rest) rest
  else if c = '"' then
    closeLiteral '"' (rest.takeWhile (· != '"')).length rest
  else match Mark.ofChar? c with
    | some m => (.mark m, 0)
    | none => (.unknown, 0)

/-- The lexeme with the given class and text; a word is a keyword if it spells one. -/
def ofText (kind : TokenKind) (text : List Char) : Lexeme :=
  match kind with
  | .identifier => ⟨((Keyword.ofText? (String.ofList text)).map .keyword).getD .identifier, text⟩
  | kind => ⟨kind, text⟩

/-- The lexemes of a line, where `first` says that no token stands before the text. -/
def ofLine (first : Bool) : List Char → List Lexeme
  | [] => []
  | c :: rest =>
    let (kind, length) := longest first c rest
    ofText kind (c :: rest.take length) :: ofLine (first && kind.isTrivia) (rest.drop length)
termination_by cs => cs.length
decreasing_by simp only [List.length_drop, List.length_cons]; omega

@[simp]
theorem ofText_text (kind : TokenKind) (text : List Char) : (ofText kind text).text = text := by
  cases kind <;> rfl

/-- The lexemes of a line make up the line. -/
theorem flatMap_text_ofLine (first : Bool) (cs : List Char) :
    (ofLine first cs).flatMap (·.text) = cs := by
  fun_induction ofLine first cs with
  | case1 => rfl
  | case2 first c rest kind length h ih => simp [ih]

/-- Every lexeme has text. -/
theorem text_ne_nil_of_mem_ofLine {first : Bool} {cs : List Char} {l : Lexeme}
    (h : l ∈ ofLine first cs) : l.text ≠ [] := by
  fun_induction ofLine first cs with
  | case1 => simp at h
  | case2 first c rest kind length hl ih =>
    rcases List.mem_cons.1 h with rfl | h
    · simp
    · exact ih h

end Lexeme

end Steplib
