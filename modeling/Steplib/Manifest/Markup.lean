import Steplib.Text.Lines

/-!
# Markup events

A marked-up text is read as a sequence of events: elements that open and close, and the texts
between tags without the white space around them. Comments, character data sections, processing
instructions, document types and elements without content give no event of their own, but they
end the text before them. Positions are byte offsets.

## Main definitions

* `Markup.readMarkup`: what stands after a `<`, and how long it is.
* `Markup.events`: the events of a marked-up text, up to what is wrong in it.
-/

namespace Steplib.Markup

/-- White space of markup. -/
def isSpace (c : Char) : Bool :=
  c == ' ' || c == '\t' || c == '\r' || c == '\n'

/-- An event of a marked-up text. -/
inductive Event
  | opened (name : List Char)
  | closed (name : List Char)
  /-- A text with its entities still in it, and the offset of its end. -/
  | text (raw : List Char) (stop : Nat)
deriving DecidableEq, Repr

/-- What is wrong with a marked-up text. -/
inductive Malformed
  | tagNotClosed
  | commentNotClosed
  | characterDataNotClosed
  | documentTypeNotClosed
  | instructionNotClosed
  | unknownMarkup
  | documentTypeWithoutName
  | mismatchedEnd (expected found : String)
  | unmatchedEnd (found : String)
deriving DecidableEq, Repr

/-- The wording of what is wrong. -/
def Malformed.message : Malformed → String
  | tagNotClosed => "syntax error: tag not closed: `>` not found before end of input"
  | commentNotClosed => "syntax error: comment not closed: `-->` not found before end of input"
  | characterDataNotClosed =>
    "syntax error: CDATA not closed: `]]>` not found before end of input"
  | documentTypeNotClosed =>
    "syntax error: DOCTYPE not closed: `>` not found before end of input"
  | instructionNotClosed =>
    "syntax error: processing instruction or xml declaration not closed: " ++
      "`?>` not found before end of input"
  | unknownMarkup => "syntax error: unknown or missed symbol in markup"
  | documentTypeWithoutName =>
    "ill-formed document: `<!DOCTYPE>` declaration does not contain a name of a document type"
  | mismatchedEnd expected found =>
    "ill-formed document: expected `</" ++ expected ++ ">`, but `</" ++ found ++ ">` was found"
  | unmatchedEnd found =>
    "ill-formed document: close tag `</" ++ found ++ ">` does not match any open tag"

/-- What stands after a `<`. -/
inductive Tag
  /-- A tag that opens an element, with its content. -/
  | opening (content : List Char)
  /-- A tag that closes an element, with its content after the slash. -/
  | closing (content : List Char)
  /-- Markup that gives no event. -/
  | silent
deriving DecidableEq, Repr

/-- The number of characters before the `>` that ends a tag; between quotes a `>` ends nothing. -/
def tagLength? : Option Char → List Char → Option Nat
  | _, [] => none
  | some quote, c :: cs => (tagLength? (if c = quote then none else some quote) cs).map (· + 1)
  | none, c :: cs =>
    if c = '>' then some 0
    else (tagLength? (if c = '\'' ∨ c = '"' then some c else none) cs).map (· + 1)

/-- The number of characters before the first place where `mark` stands. -/
def find? (mark : List Char) : List Char → Option Nat
  | [] => none
  | c :: cs =>
    if (Text.dropLeading? mark (c :: cs)).isSome then some 0 else (find? mark cs).map (· + 1)

/-- The number of characters before the `>` that ends a document type, which holds as many `<` as
`>`; `depth` many are still open. -/
def documentTypeLength? (depth : Nat) : List Char → Option Nat
  | [] => none
  | '<' :: cs => (documentTypeLength? (depth + 1) cs).map (· + 1)
  | '>' :: cs =>
    match depth with
    | 0 => some 0
    | depth + 1 => (documentTypeLength? depth cs).map (· + 1)
  | _ :: cs => (documentTypeLength? depth cs).map (· + 1)

/-- The result of reading markup: what was read and the number of characters it has, or what is
wrong and how many bytes after the `<` that shows. -/
abbrev Reading := Except (Malformed × Nat) (Tag × Nat)

/-- Reading a comment from its `!` on; its end may not overlap its beginning. -/
def readComment (cs : List Char) : Reading :=
  match find? "-->".toList (cs.drop 3), Text.dropLeading? "!--".toList cs with
  | some n, some _ => .ok (.silent, n + 6)
  | _, _ => .error (.commentNotClosed, 0)

/-- Reading a character data section from its `!` on. -/
def readCharacterData (cs : List Char) : Reading :=
  match find? "]]>".toList cs, Text.dropLeading? "![CDATA[".toList cs with
  | some n, some _ => .ok (.silent, n + 3)
  | _, _ => .error (.characterDataNotClosed, 0)

/-- Reading a document type from its `!` on. -/
def readDocumentType (cs : List Char) : Reading :=
  match documentTypeLength? 0 cs with
  | none => .error (.documentTypeNotClosed, 0)
  | some n =>
    let content := cs.take n
    if (content.take 8).map Char.toUpper != "!DOCTYPE".toList then
      .error (.documentTypeNotClosed, 0)
    else if (content.drop 8).all isSpace then
      .error (.documentTypeWithoutName, 1 + Text.byteLength content)
    else
      .ok (.silent, n + 1)

/-- Reading a processing instruction from its first `?` on; the `?` that ends it is another
one. -/
def readInstruction (cs : List Char) : Reading :=
  match find? "?>".toList cs with
  | some (n + 1) => .ok (.silent, n + 3)
  | _ => .error (.instructionNotClosed, 0)

/-- Reading a tag; one whose content ends in a slash is an element without content. -/
def readTag (cs : List Char) : Reading :=
  match tagLength? none cs with
  | none => .error (.tagNotClosed, 0)
  | some n =>
    let content := cs.take n
    match content with
    | '/' :: name => .ok (.closing name, n + 1)
    | _ =>
      if content.getLast? = some '/' then .ok (.silent, n + 1)
      else .ok (.opening content, n + 1)

/-- Reading the markup after a `<`. -/
def readMarkup (cs : List Char) : Reading :=
  match cs with
  | '!' :: '-' :: _ => readComment cs
  | '!' :: '[' :: _ => readCharacterData cs
  | '!' :: 'D' :: _ | '!' :: 'd' :: _ => readDocumentType cs
  | '!' :: _ => .error (.unknownMarkup, 0)
  | '?' :: _ => readInstruction cs
  | _ => readTag cs

/-- The characters without the white space at the end. -/
def trimEnd (cs : List Char) : List Char :=
  (cs.reverse.dropWhile isSpace).reverse

/-- The text between two tags without the white space around it. -/
def trim (cs : List Char) : List Char :=
  trimEnd (cs.dropWhile isSpace)

/-- The name in a tag that opens an element: all up to the first white space. -/
def openingName (content : List Char) : List Char :=
  content.takeWhile fun c => !isSpace c

/-- The name in a tag that closes an element: all but the white space at the end, unless there is
nothing else. -/
def closingName (content : List Char) : List Char :=
  if content.all isSpace then content else trimEnd content

/-- Closing the element called `name` while the elements `names` are open, the innermost first:
the elements that stay open, or what is wrong. -/
def close (names : List (List Char)) (name : List Char) : Except Malformed (List (List Char)) :=
  match names with
  | [] => .error (.unmatchedEnd (String.ofList name))
  | expected :: outer =>
    if name = expected then .ok outer
    else .error (.mismatchedEnd (String.ofList expected) (String.ofList name))

/-- What was read of a marked-up text: the events, up to the first place where something is
wrong. -/
structure Events where
  events : List Event := []
  /-- What is wrong, and where. -/
  malformed : Option (Malformed × Nat) := none
deriving DecidableEq, Repr

/-- The reading with one more event in front. -/
def Events.cons (e : Event) (es : Events) : Events :=
  { es with events := e :: es.events }

/-- The events of a text, where `names` are the open elements, the innermost first, and `offset`
is the number of bytes before the text. -/
def eventsFrom (names : List (List Char)) (offset : Nat) : List Char → Events
  | [] => {}
  | c :: cs =>
    if c = '<' then
      match readMarkup cs with
      | .error (problem, distance) => { malformed := some (problem, offset + distance) }
      | .ok (tag, length) =>
        let after := offset + 1 + Text.byteLength (cs.take length)
        match tag with
        | .silent => eventsFrom names after (cs.drop length)
        | .opening content =>
          let name := openingName content
          (eventsFrom (name :: names) after (cs.drop length)).cons (.opened name)
        | .closing content =>
          let name := closingName content
          match close names name with
          | .error problem => { malformed := some (problem, offset) }
          | .ok outer => (eventsFrom outer after (cs.drop length)).cons (.closed name)
    else
      let body := cs.takeWhile (· != '<')
      let raw := trim (c :: body)
      let stop := offset + c.utf8Size + Text.byteLength body
      let more := eventsFrom names stop (cs.drop body.length)
      if raw.isEmpty then more else more.cons (.text raw stop)
termination_by cs => cs.length
decreasing_by all_goals simp only [List.length_drop, List.length_cons]; omega

/-- The events of a marked-up text; a byte order mark at its start does not count. -/
def events (text : String) : Events :=
  match text.toList with
  | '\ufeff' :: cs => eventsFrom [] 0 cs
  | cs => eventsFrom [] 0 cs

end Steplib.Markup
