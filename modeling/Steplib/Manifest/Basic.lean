import Steplib.Manifest.Entity
import Steplib.Manifest.Markup
import Steplib.Text.Ascii
import Steplib.Text.Blank

/-!
# Build manifests

A build manifest lists libraries, each with the libraries that are searched after it, its
steplibs:

```text
<BuildDescription>
  <LibrarySteplibs>
    <LibrarySteplib>
      <Library>LIB1</Library>
      <Steplibs><Steplib>LIB2</Steplib></Steplibs>
    </LibrarySteplib>
  </LibrarySteplibs>
</BuildDescription>
```
-/

namespace Steplib

/-- The libraries of a project in the order of the manifest, each with its steplibs in order. -/
structure Manifest where
  libraries : List (String × List String) := []
deriving DecidableEq, Repr

/-- Why a manifest could not be read, and where that shows as a byte offset. -/
structure ManifestError where
  position : Nat
  cause : Markup.Malformed ⊕ Markup.EntityError
deriving DecidableEq, Repr

/-- The wording of a manifest error. -/
def ManifestError.message (e : ManifestError) : String :=
  "XML error at position " ++ toString e.position ++ ": " ++
    match e.cause with
    | .inl problem => problem.message
    | .inr problem => problem.message

namespace Manifest

/-- The manifest names no library. -/
def isEmpty (m : Manifest) : Bool :=
  m.libraries.isEmpty

/-- The steplibs of a library, in any letter case; none for a library that is not named. -/
def steplibs (m : Manifest) (library : String) : List String :=
  (m.libraries.lookup (Ascii.upper library)).getD []

/-- The list with the steplibs of a library set; a library that is named again keeps its place. -/
def place (name : String) (steplibs : List String) :
    List (String × List String) → List (String × List String)
  | [] => [(name, steplibs)]
  | (other, theirs) :: rest =>
    if other = name then (other, steplibs) :: rest
    else (other, theirs) :: place name steplibs rest

/-- The manifest with the steplibs of a library set. -/
def insert (m : Manifest) (name : String) (steplibs : List String) : Manifest :=
  ⟨place name steplibs m.libraries⟩

/-- What is known while the manifest is read. -/
structure Reader where
  manifest : Manifest := {}
  /-- The name of the element that was opened last, unless one was closed since. -/
  element : Option String := none
  /-- The library of the current entry. -/
  library : Option String := none
  /-- The steplibs of the current entry. -/
  steplibs : List String := []

namespace Reader

/-- An element opens. -/
def opened (r : Reader) (name : String) : Reader :=
  if name = "LibrarySteplib" then
    { r with element := some name, library := none, steplibs := [] }
  else
    { r with element := some name }

/-- An element closes; the end of an entry enters its library. -/
def closed (r : Reader) (name : String) : Reader :=
  match name, r.library with
  | "LibrarySteplib", some library =>
    { manifest := r.manifest.insert library r.steplibs }
  | _, _ => { r with element := none }

/-- A text stands in the current element. -/
def text (r : Reader) (text : List Char) : Reader :=
  let name := Ascii.upper (String.ofList (Text.trim text))
  match r.element with
  | some "Library" => { r with library := some name }
  | some "Steplib" => { r with steplibs := r.steplibs ++ [name] }
  | _ => r

/-- The reader after an event. -/
def step (r : Reader) : Markup.Event → Except ManifestError Reader
  | .opened name => .ok (r.opened (String.ofList name))
  | .closed name => .ok (r.closed (String.ofList name))
  | .text raw stop =>
    match Markup.unescape raw with
    | .ok text => .ok (r.text text)
    | .error problem => .error ⟨stop, .inr problem⟩

end Reader

/-- The manifest that a text describes. -/
def parse (text : String) : Except ManifestError Manifest := do
  let read := Markup.events text
  let reader ← read.events.foldlM Reader.step {}
  match read.malformed with
  | none => return reader.manifest
  | some (problem, position) => throw ⟨position, .inl problem⟩

end Manifest

end Steplib
