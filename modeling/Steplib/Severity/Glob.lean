import Steplib.Text.CaseFolding

/-!
# Glob patterns

A pattern describes file names or paths: `?` stands for a character and `*` for a text, neither
of which may hold a slash, `**` for a text that may hold slashes, `**/` for nothing or a text that
ends in a slash, and `{a,b}` for any of the listed patterns. Other characters stand for their case
variants. Groups do not nest; a group that is open at the end of the pattern is closed there.

Whether a text is described is found by following, symbol by symbol, all the places that the
description can have reached in the text; each symbol takes one walk along the text.

## Main definitions

* `Glob.parse?`: the parts of a written pattern.
* `Glob.accepts`: whether a text is described by the parts of a pattern.
-/

namespace Steplib.Glob

/-- A symbol of a pattern outside its groups. -/
inductive Symbol
  /-- A character, up to its case variants. -/
  | char (c : Char)
  /-- A character other than a slash. -/
  | one
  /-- A text without slashes. -/
  | many
  /-- A text without line feeds. -/
  | deep
  /-- Nothing, or a text without line feeds that ends in a slash. -/
  | directories
deriving DecidableEq, Repr

/-- A part of a pattern. -/
inductive Part
  | symbol (symbol : Symbol)
  /-- Any of the alternatives. -/
  | group (alternatives : List (List Symbol))
deriving DecidableEq, Repr

/-- What the characters of a pattern spell, before they are put into groups. -/
inductive Piece
  | symbol (symbol : Symbol)
  | openBrace
  | closeBrace
  | comma
deriving DecidableEq, Repr

/-- The pieces that the characters of a pattern spell; two stars together are one piece. -/
def pieces : List Char → List Piece
  | '*' :: '*' :: '/' :: rest => .symbol .directories :: pieces rest
  | '*' :: '*' :: rest => .symbol .deep :: pieces rest
  | '*' :: rest => .symbol .many :: pieces rest
  | '?' :: rest => .symbol .one :: pieces rest
  | '\x7b' :: rest => .openBrace :: pieces rest
  | '\x7d' :: rest => .closeBrace :: pieces rest
  | ',' :: rest => .comma :: pieces rest
  | c :: rest => .symbol (.char c) :: pieces rest
  | [] => []

section Pieces

variable {c : Char} {g : List Char}

theorem pieces_plain (h : c ≠ '*' ∧ c ≠ '?' ∧ c ≠ '\x7b') (hclose : c ≠ '\x7d') (hcomma : c ≠ ',') :
    pieces (c :: g) = .symbol (.char c) :: pieces g := by
  rw [pieces] <;> simp_all

theorem pieces_many (h : g.head? ≠ some '*') : pieces ('*' :: g) = .symbol .many :: pieces g := by
  rw [pieces] <;> rintro rest rfl <;> simp at h

theorem pieces_deep (h : g.head? ≠ some '/') :
    pieces ('*' :: '*' :: g) = .symbol .deep :: pieces g := by
  rw [pieces]
  rintro rest rfl
  simp at h

end Pieces

/-- An open group: the alternatives that are complete and the one being read, each in reverse. -/
structure OpenGroup where
  complete : List (List Symbol) := []
  current : List Symbol := []

namespace OpenGroup

variable (g : OpenGroup)

/-- The group with one more symbol. -/
def push (s : Symbol) : OpenGroup :=
  { g with current := s :: g.current }

/-- The group with the next alternative begun. -/
def next : OpenGroup :=
  ⟨g.current.reverse :: g.complete, []⟩

/-- The part that the group is when it is closed. -/
def close : Part :=
  .group g.next.complete.reverse

end OpenGroup

/-- The parts of a pattern, or nothing if it opens a group inside a group. Outside a group a comma
and a closing brace stand for themselves.

The refusal stands for an expression that is not balanced. Every opening brace opens a group of the
expression that the pattern is written into, but no more than one group is known to be open: the
next closing brace, or else the end of the pattern, closes one group and forgets the others. The
expression is then left with a group that nothing closes, and stands for nothing. -/
def parts? : Option OpenGroup → List Piece → Option (List Part)
  | none, [] => some []
  | some g, [] => some [g.close]
  | none, .openBrace :: rest => parts? (some {}) rest
  | some _, .openBrace :: _ => none
  | none, .closeBrace :: rest => (parts? none rest).map (.symbol (.char '\x7d') :: ·)
  | some g, .closeBrace :: rest => (parts? none rest).map (g.close :: ·)
  | none, .comma :: rest => (parts? none rest).map (.symbol (.char ',') :: ·)
  | some g, .comma :: rest => parts? (some g.next) rest
  | none, .symbol s :: rest => (parts? none rest).map (.symbol s :: ·)
  | some g, .symbol s :: rest => parts? (some (g.push s)) rest

theorem parts?_symbols (symbols : List Symbol) :
    parts? none (symbols.map .symbol) = some (symbols.map .symbol) := by
  induction symbols with
  | nil => rfl
  | cons s symbols ih => rw [List.map_cons, parts?, ih]; rfl

/-- The parts of a written pattern. -/
def parse? (pattern : List Char) : Option (List Part) :=
  parts? none (pieces pattern)

/-- How far the description of a text can have come: a mark for each place in the text, from its
start to its end. -/
abbrev Front := List Bool

namespace Front

/-- Nothing is described yet. -/
def start (text : List Char) : Front :=
  true :: text.map fun _ => false

/-- The places of either front. -/
def union (f g : Front) : Front :=
  List.zipWith or f g

/-- The places one character further on, where that character passes the test. -/
def advance (test : Char → Bool) (text : List Char) (f : Front) : Front :=
  false :: List.zipWith (fun here c => here && test c) f text

/-- The places any number of characters further on that all pass the test, where `carried` says
that the first place can be reached from before. -/
def spreadFrom (test : Char → Bool) (carried : Bool) : List Char → Front → Front
  | c :: text, here :: f =>
    let reached := carried || here
    reached :: spreadFrom test (reached && test c) text f
  | [], here :: f => (carried || here) :: f
  | _, [] => []

/-- The places any number of characters further on that all pass the test. -/
def spread (test : Char → Bool) (text : List Char) (f : Front) : Front :=
  spreadFrom test false text f

/-- The end of the text is among the places. -/
def atEnd (f : Front) : Bool :=
  f.getLast?.getD false

end Front

/-- The places that are reached by the symbol from the places of a front. -/
def Symbol.step (text : List Char) (f : Front) : Symbol → Front
  | char c => f.advance (Text.sameFold c) text
  | one => f.advance (· != '/') text
  | many => f.spread (· != '/') text
  | deep => f.spread (· != '\n') text
  | directories => f.union ((f.spread (· != '\n') text).advance (· == '/') text)

/-- The places that are reached by a sequence of symbols. -/
def sequence (text : List Char) (f : Front) (symbols : List Symbol) : Front :=
  symbols.foldl (Symbol.step text) f

/-- The places that are reached by the part from the places of a front. -/
def Part.step (text : List Char) (f : Front) : Part → Front
  | symbol s => s.step text f
  | group alternatives =>
    alternatives.foldl (fun reached a => reached.union (sequence text f a)) (f.map fun _ => false)

/-- The parts describe the text. -/
def accepts (parts : List Part) (text : List Char) : Bool :=
  (parts.foldl (Part.step text) (Front.start text)).atEnd

end Steplib.Glob
