import Steplib.Text.Lines

/-!
# File paths

A path keeps the spelling it was written with and is compared by its components. Repeated
slashes, a slash at the end and a `.` between or after other components carry no meaning, so two
spellings can name the same path; `..` is a component like any other. Paths are ordered component
by component.

## Main definitions

* `Path`: a spelling with its components.
* `Path.same`, `Path.before`: equality and order of paths by components.
* `Path.join`, `Path.fileName?`, `Path.extension?`, `Path.startsWith`: putting paths together and
  taking them apart.
-/

namespace Steplib

/-- A component of a path. -/
inductive Component
  /-- The leading slash of an absolute path. -/
  | root
  /-- A leading `.`. -/
  | current
  /-- The component `..`. -/
  | parent
  /-- A file or directory name. -/
  | name (text : String)
deriving DecidableEq, Repr

namespace Component

/-- The component as it is written. -/
def text : Component → String
  | root => "/"
  | current => "."
  | parent => ".."
  | name text => text

/-- The place of the component's kind in the order of components. -/
def rank : Component → Nat
  | root => 0
  | current => 1
  | parent => 2
  | name _ => 3

/-- The root comes first, then `.`, then `..`, then the names by code points. -/
instance : Ord Component where
  compare := compareLex (compareOn rank) (compareOn text)

instance : Std.TransOrd Component :=
  inferInstanceAs (Std.TransCmp (compareLex (compareOn rank) (compareOn text)))

/-- Only equal components compare as equal. -/
theorem eq_of_compare {a b : Component} (h : compare a b = .eq) : a = b := by
  have h : compareLex (compareOn rank) (compareOn text) a b = .eq := h
  rw [compareLex_eq_eq] at h
  have hr : a.rank = b.rank := Std.LawfulEqCmp.eq_of_compare h.1
  have ht : a.text = b.text := Std.LawfulEqCmp.eq_of_compare h.2
  cases a <;> cases b <;> simp_all [rank, text]

instance : Std.LawfulEqOrd Component where
  eq_of_compare := eq_of_compare

/-- The component that a segment between slashes stands for, if it stands for one. -/
def ofSegment? : List Char → Option Component
  | [] => none
  | ['.'] => none
  | ['.', '.'] => some parent
  | segment => some (name (String.ofList segment))

/-- The components that the text before the first slash stands for. -/
def ofFirstSegment (segment : List Char) (more : Bool) : List Component :=
  match segment with
  | [] => if more then [root] else []
  | ['.'] => [current]
  | segment => (ofSegment? segment).toList

/-- The components of a written path. -/
def ofText (text : String) : List Component :=
  match text.toList.splitOn '/' with
  | [] => []
  | first :: rest => ofFirstSegment first (!rest.isEmpty) ++ rest.filterMap ofSegment?

end Component

/-- A path: its spelling, together with the components that the spelling stands for. -/
structure Path where
  text : String
  components : List Component
  components_eq : components = Component.ofText text
deriving DecidableEq

namespace Path

/-- The path with the given spelling. -/
def ofText (text : String) : Path :=
  ⟨text, Component.ofText text, rfl⟩

instance : Inhabited Path := ⟨ofText ""⟩

instance : Repr Path where
  reprPrec p n := reprPrec p.text n

/-- Paths are ordered by their components, a path before every longer path that extends it. -/
instance : Ord Path where
  compare := compareOn components

/-- The paths have the same components. -/
def same (p q : Path) : Bool :=
  p.components == q.components

/-- The first path comes before the second. -/
def before (p q : Path) : Bool :=
  (compare p q).isLT

/-- The path starts with a slash. -/
def isAbsolute (p : Path) : Bool :=
  p.text.toList.head? == some '/'

/-- The path of `other` as seen from the directory `p`; an absolute `other` is kept. -/
def join (p other : Path) : Path :=
  if other.isAbsolute then
    other
  else if p.text.isEmpty || p.text.toList.getLast? == some '/' then
    ofText (p.text ++ other.text)
  else
    ofText (p.text ++ "/" ++ other.text)

/-- The entry called `name` in the directory `p`. -/
def child (p : Path) (name : String) : Path :=
  p.join (ofText name)

/-- The name of the file or directory, if the path ends in a name. -/
def fileName? (p : Path) : Option String :=
  match p.components.getLast? with
  | some (.name text) => some text
  | _ => none

/-- The parts of a file name before and after its last dot; a dot at the very start divides
nothing. -/
def splitName? (name : String) : Option (String × String) :=
  let back := name.toList.reverse
  let after := back.takeWhile (· != '.')
  match back.drop after.length with
  | [] => none
  | [_] => none
  | _ :: front => some (String.ofList front.reverse, String.ofList after.reverse)

/-- The part of the file name after its last dot. -/
def extension? (p : Path) : Option String :=
  p.fileName?.bind fun name => (splitName? name).map (·.2)

/-- The part of the file name before its last dot. -/
def stem? (p : Path) : Option String :=
  p.fileName?.map fun name => ((splitName? name).map (·.1)).getD name

/-- The components of `base` are the first components of the path. -/
def startsWith (p base : Path) : Bool :=
  base.components.isPrefixOf p.components

/-- The components of the path below `base`, or all of them when it does not lie there. -/
def componentsBelow (p base : Path) : List Component :=
  if p.startsWith base then p.components.drop base.components.length else p.components

/-- The components below `base`, written with slashes between them. -/
def textBelow (p base : Path) : String :=
  String.intercalate "/" ((p.componentsBelow base).map Component.text)

/-- The spelling of the path as seen from `base`: what follows the spelling of the base and a
slash, `.` for the base itself, and the whole spelling for a path that is not spelled below the
base. -/
def shownFrom (p base : Path) : String :=
  match Text.dropLeading? base.text.toList p.text.toList with
  | some [] => "."
  | some ('/' :: below) => String.ofList below
  | _ => p.text

@[simp]
theorem ofText_text (p : Path) : ofText p.text = p := by
  cases p with
  | mk text components h => subst h; rfl

/-- Two paths are the same exactly when their components are equal. -/
theorem same_iff {p q : Path} : p.same q = true ↔ p.components = q.components :=
  beq_iff_eq

@[simp]
theorem same_refl (p : Path) : p.same p = true :=
  same_iff.2 rfl

theorem same_comm (p q : Path) : p.same q = q.same p :=
  Bool.beq_comm

theorem same_trans {p q r : Path} (h : p.same q = true) (k : q.same r = true) :
    p.same r = true :=
  same_iff.2 ((same_iff.1 h).trans (same_iff.1 k))

/-- Paths that are the same cannot be told apart by comparison with a third. -/
theorem same_congr_left {p q : Path} (h : p.same q = true) (r : Path) : p.same r = q.same r := by
  simp only [same, same_iff.1 h]

theorem same_congr_right {p q : Path} (h : p.same q = true) (r : Path) : r.same p = r.same q := by
  simp only [same, same_iff.1 h]

/-! ### The order of paths -/

instance : Std.TransOrd Path :=
  inferInstanceAs (Std.TransCmp (compareOn components))

/-- Paths compare as equal exactly when they are the same. -/
theorem compare_eq_iff {p q : Path} : compare p q = .eq ↔ p.same q = true := by
  have h : compare p.components q.components = .eq ↔ p.components = q.components :=
    Std.LawfulEqOrd.compare_eq_iff_eq
  rw [same_iff, ← h]
  rfl

theorem before_iff {p q : Path} : p.before q = true ↔ compare p q = .lt := by
  simp [before, Ordering.isLT_iff_eq_lt]

theorem before_trans {p q r : Path} (h : p.before q = true) (k : q.before r = true) :
    p.before r = true :=
  before_iff.2 (Std.TransCmp.lt_trans (before_iff.1 h) (before_iff.1 k))

/-- A path that comes before another is not the same. -/
theorem same_of_before {p q : Path} (h : p.before q = true) : p.same q = false := by
  rw [Bool.eq_false_iff]
  intro hs
  have := compare_eq_iff.2 hs
  rw [before_iff.1 h] at this
  exact Ordering.noConfusion this

/-- Of two paths that are not the same one comes before the other. -/
theorem before_of_not_before {p q : Path} (h : p.before q = false) (hs : p.same q = false) :
    q.before p = true := by
  have swapped : compare q p = (compare p q).swap := Std.OrientedCmp.eq_swap
  rw [before_iff, swapped]
  cases hc : compare p q with
  | lt => simp [before_iff.2 hc] at h
  | eq => simp [compare_eq_iff.1 hc] at hs
  | gt => rfl

theorem before_congr_left {p q : Path} (h : p.same q = true) (r : Path) :
    p.before r = q.before r := by
  have : compare p r = compare q r := Std.TransCmp.congr_left (compare_eq_iff.2 h)
  rw [before, before, this]

theorem before_congr_right {p q : Path} (h : p.same q = true) (r : Path) :
    r.before p = r.before q := by
  have : compare r p = compare r q := Std.TransCmp.congr_right (compare_eq_iff.2 h)
  rw [before, before, this]

end Path

end Steplib
