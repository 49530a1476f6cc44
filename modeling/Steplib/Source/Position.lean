/-!
# Positions and spans in a source text

Lines and columns count from zero; a column counts characters since the start of its line.
-/

namespace Steplib

/-- A place in a source text. -/
structure Position where
  line : Nat := 0
  column : Nat := 0
deriving DecidableEq, Repr, Inhabited

/-- A range of a source text, from a start position to an end position. -/
structure Span where
  start : Position := {}
  stop : Position := {}
deriving DecidableEq, Repr, Inhabited

namespace Position

/-- Positions are ordered by line, then by column. -/
instance : Ord Position where
  compare := compareLex (compareOn line) (compareOn column)

instance : Std.TransOrd Position :=
  inferInstanceAs (Std.TransCmp (compareLex (compareOn line) (compareOn column)))

instance : Std.LawfulEqOrd Position where
  eq_of_compare {p q} h := by
    have h : compareLex (compareOn line) (compareOn column) p q = .eq := h
    rw [compareLex_eq_eq] at h
    have hline : p.line = q.line := Std.LawfulEqCmp.eq_of_compare h.1
    have hcolumn : p.column = q.column := Std.LawfulEqCmp.eq_of_compare h.2
    cases p
    cases q
    simp_all

end Position

namespace Span

/-- Spans are ordered by start, then by end. -/
instance : Ord Span where
  compare := compareLex (compareOn start) (compareOn stop)

instance : Std.TransOrd Span :=
  inferInstanceAs (Std.TransCmp (compareLex (compareOn start) (compareOn stop)))

instance : Std.LawfulEqOrd Span where
  eq_of_compare {s t} h := by
    have h : compareLex (compareOn start) (compareOn stop) s t = .eq := h
    rw [compareLex_eq_eq] at h
    have hstart : s.start = t.start := Std.LawfulEqCmp.eq_of_compare h.1
    have hstop : s.stop = t.stop := Std.LawfulEqCmp.eq_of_compare h.2
    cases s
    cases t
    simp_all

/-- The span of `length` characters from a column of one line. -/
def onLine (line column length : Nat) : Span :=
  ⟨⟨line, column⟩, ⟨line, column + length⟩⟩

/-- The position lies in the span; both ends count as inside. -/
def contains (s : Span) (p : Position) : Bool :=
  s.start.line ≤ p.line && p.line ≤ s.stop.line &&
    (p.line != s.start.line || s.start.column ≤ p.column) &&
    (p.line != s.stop.line || p.column ≤ s.stop.column)

/-- A position lies in a span exactly when it is not before the start and not after the end. -/
theorem contains_iff {s : Span} {p : Position} :
    s.contains p = true ↔
      s.start.line ≤ p.line ∧ p.line ≤ s.stop.line ∧
        (p.line = s.start.line → s.start.column ≤ p.column) ∧
        (p.line = s.stop.line → p.column ≤ s.stop.column) := by
  simp only [contains, Bool.and_eq_true, Bool.or_eq_true, bne_iff_ne, ne_eq, decide_eq_true_eq]
  omega

/-- A span on one line contains the positions of that line between its ends, ends included. -/
theorem onLine_contains {line column length : Nat} {p : Position} :
    (onLine line column length).contains p = true ↔
      p.line = line ∧ column ≤ p.column ∧ p.column ≤ column + length := by
  simp only [contains_iff, onLine]
  omega

end Span

end Steplib
