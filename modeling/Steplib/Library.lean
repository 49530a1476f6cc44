import Steplib.NameMap
import Steplib.Path.Basic
import Steplib.Text.Ascii

/-!
# Libraries

A library is a directory of source files. Names are looked up first in the library itself and
then along its steplibs; the library `SYSTEM` is searched by all. Within a library a name belongs
to the first file that claims it.
-/

namespace Steplib

/-- The library that every search ends with. -/
def systemLibrary : String := "SYSTEM"

/-- The file that holds a name. -/
structure Holder where
  path : Path
  /-- The file is still part of the project. -/
  live : Bool := true
deriving DecidableEq, Repr

/-- A library. -/
structure Library where
  name : String
  sourcePath : Path
  /-- The libraries searched for a name, in order: the library itself comes first. -/
  chain : List String
  /-- The files that can be referred to, by name. -/
  modules : NameMap Holder := {}
deriving Repr

namespace Library

/-- The search order of a library: its own name, its steplibs and `SYSTEM`, each once and in upper
case. -/
def chainOf (name : String) (steplibs : List String) : List String :=
  (Ascii.upper name :: steplibs.map Ascii.upper ++ [systemLibrary]).eraseDups

/-- The library with the given name, directory and steplibs, without modules. -/
def make (name : String) (sourcePath : Path) (steplibs : List String) : Library :=
  { name := Ascii.upper name, sourcePath, chain := chainOf name steplibs }

variable (l : Library)

/-- The file that holds a name, in any letter case. -/
def module? (name : String) : Option Holder :=
  l.modules.get? (Ascii.upper name)

/-- The library with a name claimed by a file, and whether the file holds the name then: a file at
another path that holds it already keeps it. -/
def register (name : String) (holder : Holder) : Library × Bool :=
  match l.modules.get? name with
  | some other => (l, other.path.same holder.path)
  | none => ({ l with modules := l.modules.insert name holder }, true)

/-- The library without a name, if the file at the given path holds it. -/
def unregister (name : String) (path : Path) : Library :=
  match l.modules.get? name with
  | some holder =>
    if holder.path.same path then { l with modules := l.modules.erase name } else l
  | none => l

/-- The number of names that are held. -/
def moduleCount : Nat :=
  l.modules.size

@[simp]
theorem name_register (name : String) (holder : Holder) :
    (l.register name holder).1.name = l.name := by
  unfold register
  split <;> rfl

@[simp]
theorem name_unregister (name : String) (path : Path) : (l.unregister name path).name = l.name := by
  unfold unregister
  split
  · split <;> rfl
  · rfl

variable {l}

/-- A name that is held after a claim was held before or is the claimed one. -/
theorem get?_register {name other : String} {holder h : Holder}
    (hh : (l.register name holder).1.modules.get? other = some h) :
    l.modules.get? other = some h ∨ other = name ∧ h = holder := by
  unfold register at hh
  split at hh
  · exact .inl hh
  · rw [NameMap.get?_insert] at hh
    split at hh
    · exact .inr ⟨‹_›, (Option.some.inj hh).symm⟩
    · exact .inl hh

/-- A name that is held after a withdrawal was held before, and not under the withdrawn name by
the file that has withdrawn. -/
theorem get?_unregister {name other : String} {path : Path} {h : Holder}
    (hh : (l.unregister name path).modules.get? other = some h) :
    l.modules.get? other = some h ∧ (other = name → h.path.same path = false) := by
  unfold unregister at hh
  split at hh
  · rename_i holder hholder
    split at hh
    · rw [NameMap.get?_erase] at hh
      split at hh
      · simp at hh
      · exact ⟨hh, fun ho => absurd ho ‹_›⟩
    · rename_i hs
      refine ⟨hh, fun ho => ?_⟩
      rw [ho, hholder] at hh
      rw [← Option.some.inj hh]
      simpa using hs
  · rename_i hnone
    refine ⟨hh, fun ho => ?_⟩
    rw [ho, hnone] at hh
    simp at hh

end Library

end Steplib
