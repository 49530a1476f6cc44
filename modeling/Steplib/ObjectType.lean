import Steplib.Path.Basic
import Steplib.Text.Ascii

/-!
# Natural object types

The type of a source object is given by the extension of its file, in any letter case.
-/

namespace Steplib

/-- The type of a Natural source object. -/
inductive ObjectType
  | program
  | subprogram
  | subroutine
  | helproutine
  | copycode
  | function
  | map
  | localArea
  | parameterArea
  | globalArea
  | ddm
deriving DecidableEq, Repr

namespace ObjectType

/-- All object types. -/
def all : List ObjectType :=
  [program, subprogram, subroutine, helproutine, copycode, function, map, localArea,
   parameterArea, globalArea, ddm]

/-- The file extension of the type, without the dot and in upper case. -/
def extension : ObjectType → String
  | program => "NSP"
  | subprogram => "NSN"
  | subroutine => "NSS"
  | helproutine => "NSH"
  | copycode => "NSC"
  | function => "NS7"
  | map => "NSM"
  | localArea => "NSL"
  | parameterArea => "NSA"
  | globalArea => "NSG"
  | ddm => "NSD"

/-- The type with the given extension, in any letter case. -/
def ofExtension? (ext : String) : Option ObjectType :=
  all.find? fun t => Ascii.eqIgnoreCase t.extension ext

/-- The type of the object in the file at a path. -/
def ofPath? (p : Path) : Option ObjectType :=
  p.extension?.bind ofExtension?

/-- Data areas are imported into other modules by `USING`. -/
def isDataArea : ObjectType → Bool
  | localArea | parameterArea | globalArea => true
  | _ => false

/-- Modules of these types are referred to by the name in their `DEFINE SUBROUTINE` or
`DEFINE FUNCTION` header instead of the name of their file. -/
def hasHeaderName : ObjectType → Bool
  | subroutine | function => true
  | _ => false

/-- Every type is recovered from its extension. -/
@[simp]
theorem ofExtension?_extension (t : ObjectType) : ofExtension? t.extension = some t := by
  cases t <;> decide

end ObjectType

end Steplib
