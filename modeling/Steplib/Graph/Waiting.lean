import Steplib.NameMap
import Steplib.Path.Map
import Steplib.Path.Set
import Steplib.Text.Ascii

/-!
# Files waiting for a name

A file waits for the names that it refers to and that no module carries. When a module of such a
name appears, the files waiting for it are found here. The relation is kept from both sides: the
files of each name and the names of each file. Names are stored in upper case.

## Main definitions

* `WaitingIndex.waiting`, `WaitingIndex.namesOf`: the relation from both sides.
* `WaitingIndex.replace`, `WaitingIndex.take`: what a file waits for, and who is told of a name.
-/

namespace Steplib

/-- The files that wait for each name. -/
structure WaitingIndex where
  byName : NameMap PathSet := {}
  byFile : PathMap (List String) := .empty

namespace WaitingIndex

instance : Inhabited WaitingIndex := ⟨{}⟩

/-- The files of a name without one of them; a name without files is dropped. -/
def detachFrom (file : Path) (byName : NameMap PathSet) (name : String) : NameMap PathSet :=
  match byName.get? name with
  | none => byName
  | some files =>
    let rest := files.erase file
    if rest.isEmpty then byName.erase name else byName.insert name rest

/-- The files of a name with one more. -/
def attachTo (file : Path) (byName : NameMap PathSet) (name : String) : NameMap PathSet :=
  byName.insert name (((byName.get? name).getD .empty).insert file)

variable (w : WaitingIndex)

/-- The index without a file. -/
def removeFile (file : Path) : WaitingIndex :=
  match w.byFile.get? file with
  | none => w
  | some names =>
    { byName := names.foldl (detachFrom file) w.byName, byFile := w.byFile.erase file }

/-- The index in which a file waits for exactly the given names. -/
def replace (file : Path) (names : List String) : WaitingIndex :=
  let names := (names.map Ascii.upper).eraseDups
  let rest := w.removeFile file
  { byName := names.foldl (attachTo file) rest.byName
    byFile := if names.isEmpty then rest.byFile else rest.byFile.insert file names }

/-- The index in which a file waits for one more name. -/
def add (file : Path) (name : String) : WaitingIndex :=
  let name := Ascii.upper name
  let names := (w.byFile.get? file).getD []
  { byName := attachTo file w.byName name
    byFile := w.byFile.insert file (if names.contains name then names else names ++ [name]) }

/-- The names of a file without one of them; a file without names is dropped. -/
def forget (name : String) (byFile : PathMap (List String)) (file : Path) :
    PathMap (List String) :=
  match byFile.get? file with
  | none => byFile
  | some names =>
    let rest := names.filter (· != name)
    if rest.isEmpty then byFile.erase file else byFile.insert file rest

/-- The files that wait for a name, in path order. -/
def waiting (name : String) : List Path :=
  ((w.byName.get? (Ascii.upper name)).getD .empty).toList

/-- The names that a file waits for. -/
def namesOf (file : Path) : List String :=
  (w.byFile.get? file).getD []

/-- The files that wait for a name, in path order, and the index in which none does. -/
def take (name : String) : List Path × WaitingIndex :=
  let files := w.waiting name
  let name := Ascii.upper name
  (files, { byName := w.byName.erase name, byFile := files.foldl (forget name) w.byFile })

end WaitingIndex

end Steplib
