import Steplib.Text.Lines

/-!
# Entities in markup text

A text can hold characters by name (`&lt;`) or by number (`&#60;`, `&#x3C;`).
-/

namespace Steplib.Markup

/-- What is wrong with a character given by its number. -/
inductive ReferenceError
  | sign
  | empty
  | digit
  | tooLarge
  | zero
  | notCharacter (code : Nat)
deriving DecidableEq, Repr

/-- The wording of a reference error. -/
def ReferenceError.message : ReferenceError → String
  | sign => "unexpected number sign"
  | empty => "cannot parse integer from empty string"
  | digit => "invalid digit found in string"
  | tooLarge => "number too large to fit in target type"
  | zero => "0x0 character is not permitted in XML"
  | notCharacter code => "`" ++ toString code ++ "` is not a valid codepoint"

/-- What is wrong with an entity; `start` and `stop` are byte offsets in the text. -/
inductive EntityError
  | unrecognized (start stop : Nat) (name : String)
  | unterminated (start stop : Nat)
  | reference (cause : ReferenceError)
deriving DecidableEq, Repr

/-- The wording of an entity error. -/
def EntityError.message : EntityError → String
  | unrecognized start stop name =>
    "at " ++ toString start ++ ".." ++ toString stop ++ ": unrecognized entity `" ++ name ++ "`"
  | unterminated start stop =>
    "Error while escaping character at range " ++ toString start ++ ".." ++ toString stop ++
      ": Cannot find ';' after '&'"
  | reference cause => "invalid character reference: " ++ cause.message

/-- The value of a digit in base ten. -/
def decimalDigit? (c : Char) : Option Nat :=
  if c.isDigit then some (c.toNat - '0'.toNat) else none

/-- The value of a digit in base sixteen, in either letter case. -/
def hexDigit? (c : Char) : Option Nat :=
  if c.isDigit then some (c.toNat - '0'.toNat)
  else if 'a' ≤ c ∧ c ≤ 'f' then some (c.toNat - 'a'.toNat + 10)
  else if 'A' ≤ c ∧ c ≤ 'F' then some (c.toNat - 'A'.toNat + 10)
  else none

/-- The number that the digits stand for when `n` stands before them; it must fit in 32 bits. -/
def addDigits (digit? : Char → Option Nat) (radix n : Nat) :
    List Char → Except ReferenceError Nat
  | [] => .ok n
  | c :: cs =>
    match digit? c with
    | none => .error .digit
    | some d =>
      if n * radix + d < 2 ^ 32 then addDigits digit? radix (n * radix + d) cs
      else .error .tooLarge

/-- The number that a row of digits stands for. -/
def number (digit? : Char → Option Nat) (radix : Nat) (cs : List Char) :
    Except ReferenceError Nat :=
  match cs with
  | [] => .error .empty
  | c :: _ => if c == '+' || c == '-' then .error .sign else addDigits digit? radix 0 cs

/-- The character whose number is written after `&#`: in base sixteen after an `x`. -/
def reference (cs : List Char) : Except ReferenceError Char := do
  let code ←
    match cs with
    | 'x' :: digits => number hexDigit? 16 digits
    | digits => number decimalDigit? 10 digits
  if code = 0 then
    throw .zero
  else if code.isValidChar then
    return Char.ofNat code
  else
    throw (.notCharacter code)

/-- The character with the given entity name. -/
def named? (name : List Char) : Option Char :=
  match String.ofList name with
  | "lt" => some '<'
  | "gt" => some '>'
  | "amp" => some '&'
  | "apos" => some '\''
  | "quot" => some '"'
  | _ => none

/-- The character that an entity stands for; `start` is the byte offset of its name. -/
def entity (start : Nat) (name : List Char) : Except EntityError Char :=
  match name with
  | '#' :: number =>
    match reference number with
    | .ok c => .ok c
    | .error cause => .error (.reference cause)
  | name =>
    match named? name with
    | some c => .ok c
    | none => .error (.unrecognized start (start + Text.byteLength name) (String.ofList name))

/-- A character of the name of an entity. -/
def isEntityPart (c : Char) : Bool :=
  c != '&' && c != ';'

/-- The text with its entities replaced, where `offset` is the number of bytes before it and
`total` the length of the whole text in bytes. -/
def unescapeFrom (total offset : Nat) : List Char → Except EntityError (List Char)
  | [] => .ok []
  | c :: rest =>
    if c = '&' then
      let name := rest.takeWhile isEntityPart
      match rest.drop name.length with
      | ';' :: after => do
        let d ← entity (offset + 1) name
        let more ← unescapeFrom total (offset + 2 + Text.byteLength name)
          ((rest.drop name.length).drop 1)
        return d :: more
      | _ => .error (.unterminated offset total)
    else do
      let more ← unescapeFrom total (offset + c.utf8Size) rest
      return c :: more
termination_by cs => cs.length
decreasing_by
  · simp only [List.length_drop, List.length_cons]; omega
  · simp

/-- The text with its entities replaced by the characters they stand for. -/
def unescape (cs : List Char) : Except EntityError (List Char) :=
  unescapeFrom (Text.byteLength cs) 0 cs

end Steplib.Markup
