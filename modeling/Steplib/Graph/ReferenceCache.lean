import Steplib.Path.Map
import Steplib.Path.Set
import Steplib.Source.Position

/-!
# The cache of scanned references

The cache maps a called file to the places that call it, as far as they are known from scans
only. As soon as a calling file is really parsed, everything it contributed is evicted. A file that
was evicted and has contributed nothing since is marked, so that evicting it again costs nothing.

## Main definitions

* `ReferenceCache.positions`: the places that call a file.
* `ReferenceCache.add`, `ReferenceCache.evict`, `ReferenceCache.removeFile`: what scans, parses and
  deletions do to the cache.
-/

namespace Steplib

/-- A position in a file. -/
structure FilePosition where
  file : Path
  position : Position
deriving DecidableEq, Repr

namespace FilePosition

/-- Positions in files are ordered by file, then by position. -/
instance : Ord FilePosition where
  compare := compareLex (compareOn file) (compareOn position)

/-- The positions are the same, whatever the spelling of the file. -/
def same (p q : FilePosition) : Bool :=
  p.file.same q.file && p.position == q.position

/-- The list with `p` put before the first position after it. -/
def place (p : FilePosition) : List FilePosition → List FilePosition
  | [] => [p]
  | q :: rest => if (compare p q).isLT then p :: q :: rest else q :: place p rest

/-- The ordered list with `p` in it; a position that is the same keeps its spelling. -/
def insert (p : FilePosition) (ps : List FilePosition) : List FilePosition :=
  if ps.any (·.same p) then ps else place p ps

end FilePosition

/-- The scanned references to each called file. -/
structure ReferenceCache where
  /-- The positions that call a file, in order. No called file is without positions. -/
  entries : PathMap (List FilePosition) := .empty
  /-- The calling files that were evicted and have contributed nothing since. -/
  evicted : PathSet := .empty

namespace ReferenceCache

instance : Inhabited ReferenceCache := ⟨{}⟩

variable (c : ReferenceCache)

/-- The positions that call a file, in order. -/
def positions (called : Path) : List FilePosition :=
  (c.entries.get? called).getD []

/-- The cache with a position that calls a file. -/
def add (called : Path) (p : FilePosition) : ReferenceCache :=
  { entries := c.entries.insert called (p.insert (c.positions called))
    evicted := c.evicted.erase p.file }

/-- The entries without the positions in a calling file. -/
def dropCaller (calling : Path) : PathMap (List FilePosition) :=
  (c.entries.map fun _ ps => ps.filter fun p => !p.file.same calling).filter
    fun _ ps => !ps.isEmpty

/-- The cache without what a calling file contributed, and whether there was anything to do: not
when the file is marked as evicted. -/
def evict (calling : Path) : ReferenceCache × Bool :=
  if c.evicted.contains calling then (c, false)
  else (⟨c.dropCaller calling, c.evicted.insert calling⟩, true)

/-- The cache without the positions that call a file. -/
def removeCalled (called : Path) : ReferenceCache :=
  { c with entries := c.entries.erase called }

/-- The cache without any trace of a file, as called or as calling file. -/
def removeFile (p : Path) : ReferenceCache :=
  let rest := ((c.removeCalled p).evict p).1
  { rest with evicted := rest.evicted.erase p }

/-- The number of called files. -/
def size : Nat :=
  c.entries.size

/-- No file is called. -/
def isEmpty : Bool :=
  c.entries.isEmpty

end ReferenceCache

end Steplib
