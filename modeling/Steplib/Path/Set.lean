import Steplib.Path.Basic

/-!
# Sets of paths

A set holds one spelling of each of its paths, the first one inserted, and lists them in path
order.
-/

namespace Steplib

/-- A set of paths, listed in path order. -/
structure PathSet where
  toList : List Path
  ordered : toList.Pairwise (·.before ·)
deriving DecidableEq

namespace PathSet

/-- The set without members. -/
def empty : PathSet := ⟨[], .nil⟩

instance : Inhabited PathSet := ⟨empty⟩

instance : Repr PathSet where
  reprPrec s n := reprPrec s.toList n

/-- The path is a member, in whatever spelling. -/
def contains (s : PathSet) (p : Path) : Bool :=
  s.toList.any (·.same p)

/-- The list with `p` put before the first path that comes after it. -/
def place (p : Path) : List Path → List Path
  | [] => [p]
  | q :: rest => if p.before q then p :: q :: rest else q :: place p rest

theorem mem_place {p q : Path} {l : List Path} : q ∈ place p l ↔ q = p ∨ q ∈ l := by
  induction l with
  | nil => simp [place]
  | cons r l ih =>
    unfold place
    split
    · simp
    · simp [ih, or_left_comm]

/-- A path that is not there yet can be put into an ordered list. -/
theorem ordered_place {p : Path} {l : List Path} (h : l.Pairwise (·.before ·))
    (hp : l.any (·.same p) = false) : (place p l).Pairwise (·.before ·) := by
  induction l with
  | nil => simp [place]
  | cons q l ih =>
    obtain ⟨hq, hl⟩ := List.pairwise_cons.1 h
    rw [List.any_cons, Bool.or_eq_false_iff] at hp
    unfold place
    split
    · rename_i hb
      refine List.pairwise_cons.2 ⟨fun r hr => ?_, h⟩
      rcases List.mem_cons.1 hr with rfl | hr
      · exact hb
      · exact Path.before_trans hb (hq r hr)
    · rename_i hb
      refine List.pairwise_cons.2 ⟨fun r hr => ?_, ih hl hp.2⟩
      rcases mem_place.1 hr with rfl | hr
      · exact Path.before_of_not_before (by simpa using hb) (Path.same_comm q r ▸ hp.1)
      · exact hq r hr

/-- The set with `p` as a member; a member that is the same path keeps its spelling. -/
def insert (s : PathSet) (p : Path) : PathSet :=
  if h : s.contains p then s
  else ⟨place p s.toList, ordered_place s.ordered (Bool.eq_false_iff.2 h)⟩

/-- The set without `p`. -/
def erase (s : PathSet) (p : Path) : PathSet :=
  ⟨s.toList.filter fun q => !q.same p, s.ordered.filter _⟩

/-- The set of the listed paths. -/
def ofList (ps : List Path) : PathSet :=
  ps.foldl insert empty

/-- The set has no members. -/
def isEmpty (s : PathSet) : Bool :=
  s.toList.isEmpty

@[simp]
theorem contains_empty (p : Path) : empty.contains p = false := rfl

theorem any_place (f : Path → Bool) (p : Path) (l : List Path) :
    (place p l).any f = (f p || l.any f) := by
  induction l with
  | nil => rfl
  | cons q l ih =>
    unfold place
    split
    · rfl
    · simp only [List.any_cons, ih, Bool.or_left_comm]

/-- Insertion adds the inserted path and keeps every member. -/
theorem contains_insert (s : PathSet) (p q : Path) :
    (s.insert p).contains q = (p.same q || s.contains q) := by
  unfold insert
  split
  · rename_i h
    by_cases hq : p.same q = true
    · have hs : s.contains q = true := by
        obtain ⟨r, hr, hp⟩ := List.any_eq_true.1 h
        exact List.any_eq_true.2 ⟨r, hr, Path.same_trans hp hq⟩
      simp [hq, hs]
    · simp [hq]
  · exact any_place _ p s.toList

/-- Erasure removes the erased path and no other. -/
theorem contains_erase (s : PathSet) (p q : Path) :
    (s.erase p).contains q = (!p.same q && s.contains q) := by
  simp only [contains, erase, List.any_filter]
  induction s.toList with
  | nil => simp
  | cons r l ih =>
    simp only [List.any_cons, ih]
    by_cases h : r.same q = true
    · rw [Path.same_congr_left h p, Path.same_comm q p]
      cases p.same q <;> simp [h]
    · simp [h]

/-- Erasing a path that is no member changes nothing. -/
theorem erase_eq_self {s : PathSet} {p : Path} (h : s.contains p = false) : s.erase p = s := by
  have hkept : s.toList.filter (fun q => !q.same p) = s.toList := by
    refine List.filter_eq_self.2 fun q hq => ?_
    simpa using List.any_eq_false.1 h q hq
  simp only [erase, hkept]

/-- Membership does not depend on the spelling. -/
theorem contains_congr (s : PathSet) {p q : Path} (h : p.same q = true) :
    s.contains p = s.contains q := by
  simp only [contains, Path.same_congr_right h]

theorem contains_of_mem {s : PathSet} {p : Path} (h : p ∈ s.toList) : s.contains p = true :=
  List.any_eq_true.2 ⟨p, h, Path.same_refl p⟩

/-- The members of the set of a list are the listed paths. -/
theorem contains_ofList (ps : List Path) (q : Path) :
    (ofList ps).contains q = ps.any (·.same q) := by
  have h (s : PathSet) : (ps.foldl insert s).contains q = (s.contains q || ps.any (·.same q)) := by
    induction ps generalizing s with
    | nil => simp
    | cons p ps ih =>
      rw [List.foldl_cons, ih, contains_insert, List.any_cons, Bool.or_assoc, Bool.or_left_comm]
  simpa [ofList] using h empty

end PathSet

end Steplib
