/-!
# Lines and affixes of a text

Texts are handled as lists of characters. A line ends at a line feed, and one carriage return
before the line feed belongs to the line end.
-/

namespace Steplib.Text

/-- The number of bytes of the characters in UTF-8. -/
def byteLength : List Char → Nat
  | [] => 0
  | c :: cs => c.utf8Size + byteLength cs

/-- The text after `affix`, if the text starts with it. -/
def dropLeading? : (affix text : List Char) → Option (List Char)
  | [], text => some text
  | _ :: _, [] => none
  | a :: affix, c :: text => if a = c then dropLeading? affix text else none

/-- The text before `affix`, if the text ends with it. -/
def dropTrailing? (affix text : List Char) : Option (List Char) :=
  (dropLeading? affix.reverse text.reverse).map List.reverse

/-- The characters before and after the first `sep`, if there is one. -/
def splitFirst? (sep : Char) : List Char → Option (List Char × List Char)
  | [] => none
  | c :: cs =>
    if c = sep then some ([], cs) else (splitFirst? sep cs).map fun (a, b) => (c :: a, b)

/-- The line without one carriage return at its end. -/
def chompReturn (cs : List Char) : List Char :=
  (dropTrailing? ['\r'] cs).getD cs

/-- The lines of a text, without their line ends; a line feed at the very end opens no line. -/
def lines (cs : List Char) : List (List Char) :=
  let pieces := cs.splitOn '\n'
  let ended := pieces.dropLast.map chompReturn
  match pieces.getLast? with
  | none => ended
  | some [] => ended
  | some last => ended ++ [last]

@[simp]
theorem byteLength_nil : byteLength [] = 0 := rfl

@[simp]
theorem byteLength_cons (c : Char) (cs : List Char) :
    byteLength (c :: cs) = c.utf8Size + byteLength cs := rfl

theorem byteLength_append (a b : List Char) :
    byteLength (a ++ b) = byteLength a + byteLength b := by
  induction a with
  | nil => simp
  | cons c a ih => simp [ih, Nat.add_assoc]

theorem dropLeading?_eq_some_iff {affix text rest : List Char} :
    dropLeading? affix text = some rest ↔ text = affix ++ rest := by
  induction affix generalizing text with
  | nil => simp [dropLeading?]
  | cons a affix ih =>
    cases text with
    | nil => simp [dropLeading?]
    | cons c text =>
      by_cases h : a = c
      · simp [dropLeading?, h, ih]
      · simp [dropLeading?, h, Ne.symm h]

end Steplib.Text
