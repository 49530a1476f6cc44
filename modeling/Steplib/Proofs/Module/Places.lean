import Mathlib.Data.List.Pairwise
import Steplib.Proofs.Module.Occurrences
import Steplib.Proofs.Token.Positions

/-!
# The reference at a position

The places where a module refers to others come one after the other in its source. Two of them may
touch, so a position on the edge of one can lie on the edge of another one as well; but a position
strictly inside one of them lies in no other. What is found at such a position is therefore the name
of this reference, whatever else the module says. No place is empty, so the start of one lies in
another one only where that other one ends.

## Main definitions

* `Span.Encloses`: a position lies strictly inside a range.
* `Span.EndsBefore`: a range ends before another one starts.

## Main results

* `Clause.pairwise_occurrences`: the references of a source do not overlap.
* `Clause.forall_nonempty_occurrences`: no reference of a source is empty.
* `Module.mem_occurrences_of_referenceAt?`, `Module.isSome_referenceAt?_iff`: what is found at a
  position.
* `Module.referenceAt?_of_encloses`, `Module.referenceAt?_of_start`: what is found strictly inside a
  reference and at its start.
* `parseSource_referenceAt?`: what is found at the positions of a source.
-/

namespace Steplib

/-! ### Positions in order -/

namespace Position

variable {p q : Position}

theorem compare_eq_then (p q : Position) :
    compare p q = (compare p.line q.line).then (compare p.column q.column) := rfl

theorem compare_eq_lt_iff :
    compare p q = .lt ↔ p.line < q.line ∨ p.line = q.line ∧ p.column < q.column := by
  rw [compare_eq_then, Ordering.then_eq_lt]
  simp only [Nat.compare_eq_lt, Nat.compare_eq_eq]

theorem isLE_compare_iff :
    (compare p q).isLE = true ↔ p.line < q.line ∨ p.line = q.line ∧ p.column ≤ q.column := by
  rw [compare_eq_then, Ordering.isLE_then_iff_or]
  simp only [Nat.compare_eq_lt, Nat.compare_eq_eq, Nat.isLE_compare]

end Position

namespace Span

variable {s t : Span} {p : Position}

/-- The position lies strictly inside the range. -/
def Encloses (s : Span) (p : Position) : Prop :=
  compare s.start p = .lt ∧ compare p s.stop = .lt

instance (s : Span) (p : Position) : Decidable (s.Encloses p) :=
  inferInstanceAs (Decidable (_ ∧ _))

/-- The range ends where another one starts, or before. -/
def EndsBefore (s t : Span) : Prop :=
  (compare s.stop t.start).isLE = true

theorem contains_iff_isLE :
    s.contains p = true ↔ (compare s.start p).isLE = true ∧ (compare p s.stop).isLE = true := by
  rw [contains_iff, Position.isLE_compare_iff, Position.isLE_compare_iff]
  omega

theorem Encloses.contains (h : s.Encloses p) : s.contains p = true := by
  rw [contains_iff_isLE, h.1, h.2]
  exact ⟨rfl, rfl⟩

/-- A position strictly inside a range lies in no range before or after it. -/
theorem Encloses.not_contains (h : s.Encloses p) (hapart : s.EndsBefore t ∨ t.EndsBefore s) :
    t.contains p = false := by
  simp only [Encloses, Position.compare_eq_lt_iff] at h
  simp only [EndsBefore, Position.isLE_compare_iff] at hapart
  rw [Bool.eq_false_iff, ne_eq, contains_iff]
  omega

/-- The range starts before it ends. -/
def IsNonempty (s : Span) : Prop :=
  compare s.start s.stop = .lt

/-- The start of a range that is not empty lies in another range only where that one ends. -/
theorem IsNonempty.stop_eq_start (h : s.IsNonempty) (hapart : s.EndsBefore t ∨ t.EndsBefore s)
    (hcontains : t.contains s.start = true) : t.stop = s.start := by
  simp only [IsNonempty, Position.compare_eq_lt_iff] at h
  simp only [EndsBefore, Position.isLE_compare_iff] at hapart
  rw [contains_iff] at hcontains
  have hline : t.stop.line = s.start.line := by omega
  have hcolumn : t.stop.column = s.start.column := by omega
  exact congrArg₂ Position.mk hline hcolumn

theorem IsNonempty.contains_start (h : s.IsNonempty) : s.contains s.start = true := by
  have hself : compare s.start s.start = .eq := Std.ReflCmp.compare_self
  rw [contains_iff_isLE, hself, h]
  exact ⟨rfl, rfl⟩

end Span

/-- The ranges of tokens that stand one after the other do so as well. -/
theorem Token.EndsBefore.span {t u : Token} (h : t.EndsBefore u) : t.span.EndsBefore u.span :=
  Position.isLE_compare_iff.2 h

/-! ### References do not overlap -/

namespace Clause

variable {defined : List String} {c : Clause} {o : String × Span}

/-- The references of a source come one after the other. -/
theorem pairwise_occurrences (defined : List String) (block : Option DataBlock)
    (previous : Option Nat) {tokens : List Token} (h : tokens.Pairwise Token.EndsBefore) :
    ((ofTokens block previous tokens).filterMap (occurrence? defined)).Pairwise
      fun o o' => o.2.EndsBefore o'.2 := by
  fun_induction ofTokens block previous tokens with
  | case1 block previous => simp [filterMap_occurrence?_atEnd]
  | case2 block previous t rest result last ih =>
    rw [← List.take_append_drop result.used rest, ← List.cons_append, List.pairwise_append] at h
    obtain ⟨-, hrest, hcross⟩ := h
    rw [List.filterMap_append, List.pairwise_append]
    refine ⟨?_, ih hrest, fun o ho o' ho' => ?_⟩
    · cases result.clause with
      | none => simp
      | some c => cases ho : c.occurrence? defined <;> simp [ho]
    · -- the clause ends with a token that it has used, and the others start after that token
      obtain ⟨c, hc, ho⟩ := List.mem_filterMap.1 ho
      obtain ⟨u, hu, hstop⟩ :=
        List.mem_map.1 (occurrence_of_step (Option.mem_toList.1 hc) ho).2.2
      have hstarts := (starts_sublist defined result.block (some last.line)
        (rest.drop result.used)).subset (List.mem_map.2 ⟨o', ho', rfl⟩)
      obtain ⟨u', hu', hstart⟩ := List.mem_map.1 hstarts
      have hspan := (hcross u hu u' hu').span
      rw [Span.EndsBefore, ← hstop, ← hstart]
      exact hspan

/-- A range from a token to the end of the same token or of a later one is not empty. -/
theorem nonempty_range {t last : Token} {rest : List Token}
    (hapart : (t :: rest).Pairwise Token.EndsBefore) (htext : ∀ u ∈ t :: rest, u.text ≠ "")
    (hlast : last ∈ t :: rest) : (Span.mk t.start last.span.stop).IsNonempty := by
  have hlength : 0 < last.text.length :=
    Nat.pos_of_ne_zero fun h => htext last hlast (String.length_eq_zero_iff.1 h)
  have hbefore : last = t ∨ t.EndsBefore last :=
    (List.mem_cons.1 hlast).imp_right ((List.pairwise_cons.1 hapart).1 last)
  rw [Span.IsNonempty, Position.compare_eq_lt_iff]
  change t.line < last.line ∨ t.line = last.line ∧ t.column < last.column + last.text.length
  rcases hbefore with rfl | h
  · omega
  · rw [Token.EndsBefore] at h
    omega

/-- A reference that is read at a token is not empty. -/
theorem nonempty_of_step {block : Option DataBlock} {previous : Option Nat} {t : Token}
    {rest : List Token} (hapart : (t :: rest).Pairwise Token.EndsBefore)
    (htext : ∀ u ∈ t :: rest, u.text ≠ "")
    (hc : (step block previous t rest).clause = some c) (ho : c.occurrence? defined = some o) :
    o.2.IsNonempty := by
  cases block with
  | some b =>
    rcases readBlock_cases hc with rfl | ⟨name, hname, -, rfl⟩ | ⟨v, rfl⟩ | ⟨_, _, _, rfl⟩
    · simp [occurrence?, statement?, Statement.occurrence?, Statement.reference?,
        Action.reference?] at ho
    · obtain rfl := Option.some.inj ho
      have hmem := List.mem_of_mem_take (mem_take_one_of_leadingName? hname)
      exact nonempty_range (List.pairwise_singleton ..)
        (by simpa using htext name (List.mem_cons_of_mem _ hmem)) (List.mem_singleton_self name)
    · simp [occurrence?, statement?] at ho
    · simp [occurrence?, statement?] at ho
  | none =>
    have hplace (last : Token) (hlast : last ∈ t :: rest.take (read t rest).used) :=
      nonempty_range hapart htext
        ((List.cons_subset_cons t (List.take_subset _ rest)) hlast)
    rcases read_cases hc with ⟨_, _, rfl⟩ | ⟨last, hlast, ⟨name, -, rfl⟩ | ⟨action, rfl, -⟩⟩
    · simp [occurrence?, statement?, Statement.occurrence?, Statement.reference?,
        Action.reference?] at ho
    · obtain ⟨n, -, rfl⟩ := Option.map_eq_some_iff.1 ho
      exact hplace last hlast
    · obtain ⟨n, -, rfl⟩ := Option.map_eq_some_iff.1 ho
      exact hplace last hlast

/-- No reference of a source is empty. -/
theorem forall_nonempty_occurrences (defined : List String) (block : Option DataBlock)
    (previous : Option Nat) {tokens : List Token} (hapart : tokens.Pairwise Token.EndsBefore)
    (htext : ∀ t ∈ tokens, t.text ≠ "") :
    ∀ o ∈ (ofTokens block previous tokens).filterMap (occurrence? defined), o.2.IsNonempty := by
  fun_induction ofTokens block previous tokens with
  | case1 block previous => simp [filterMap_occurrence?_atEnd]
  | case2 block previous t rest result last ih =>
    intro o ho
    rw [List.filterMap_append] at ho
    rcases List.mem_append.1 ho with ho | ho
    · obtain ⟨c, hc, ho⟩ := List.mem_filterMap.1 ho
      exact nonempty_of_step hapart htext (Option.mem_toList.1 hc) ho
    · have hdrop : (rest.drop result.used).Sublist (t :: rest) :=
        (List.drop_sublist ..).trans (List.sublist_cons_self ..)
      exact ih (hapart.sublist hdrop) (fun u hu => htext u (hdrop.subset hu)) o ho

end Clause

namespace Module

variable {m : Module} {name : String} {q : Position}

/-- Two references of a module are the same, or one of them ends before the other starts. -/
theorem occurrences_apart (i : Identity) (source : String) {o o' : String × Span}
    (ho : o ∈ (ofTokens i (tokenize source)).occurrences)
    (ho' : o' ∈ (ofTokens i (tokenize source)).occurrences) (hne : o ≠ o') :
    o.2.EndsBefore o'.2 ∨ o'.2.EndsBefore o.2 := by
  obtain ⟨defined, hperm⟩ := occurrences_ofTokens i (tokenize source)
  have hpairwise : ((Clause.ofSource (tokenize source)).filterMap
      (Clause.occurrence? defined)).Pairwise
        fun o o' => o.2.EndsBefore o'.2 ∨ o'.2.EndsBefore o.2 :=
    (Clause.pairwise_occurrences defined none none
      (Token.pairwise_endsBefore_tokenize source)).imp .inl
  have hsymm : Std.Symm fun o o' : String × Span => o.2.EndsBefore o'.2 ∨ o'.2.EndsBefore o.2 :=
    ⟨fun _ _ => Or.symm⟩
  exact hpairwise.forall (hperm.mem_iff.1 ho) (hperm.mem_iff.1 ho') hne

/-- No reference of a module is empty. -/
theorem nonempty_of_mem_occurrences (i : Identity) (source : String) {o : String × Span}
    (ho : o ∈ (ofTokens i (tokenize source)).occurrences) : o.2.IsNonempty := by
  obtain ⟨defined, hperm⟩ := occurrences_ofTokens i (tokenize source)
  exact Clause.forall_nonempty_occurrences defined none none
    (Token.pairwise_endsBefore_tokenize source)
    (fun t ht => ((accounts_tokenize source).placed t ht).nonempty) o (hperm.mem_iff.1 ho)

/-! ### What is found at a position -/

/-- What is found at a position is the name of a reference there. -/
theorem mem_occurrences_of_referenceAt? (h : m.referenceAt? q = some name) :
    ∃ span, (name, span) ∈ m.occurrences ∧ span.contains q = true := by
  rw [referenceAt?] at h
  split at h
  · rename_i u hu
    obtain rfl := Option.some.inj h
    have hcontains : u.span.contains q = true := by simpa using List.find?_some hu
    exact ⟨u.span, List.mem_append_left _ (List.mem_map.2 ⟨u, List.mem_of_find?_eq_some hu, rfl⟩),
      hcontains⟩
  · obtain ⟨s, hs, hname⟩ := List.exists_of_findSome?_eq_some h
    obtain ⟨hmem, hcontains⟩ := List.mem_filter.1 hs
    refine ⟨s.span, List.mem_append_right _ (List.mem_filterMap.2 ⟨s, hmem, ?_⟩), hcontains⟩
    rw [Statement.occurrence?, hname]
    rfl

/-- Something is found at a position exactly when a reference is there. -/
theorem isSome_referenceAt?_iff :
    (m.referenceAt? q).isSome = true ↔ ∃ o ∈ m.occurrences, o.2.contains q = true := by
  constructor
  · intro h
    obtain ⟨name, hname⟩ := Option.isSome_iff_exists.1 h
    obtain ⟨span, hmem, hcontains⟩ := mem_occurrences_of_referenceAt? hname
    exact ⟨(name, span), hmem, hcontains⟩
  · rintro ⟨o, ho, hcontains⟩
    rw [referenceAt?]
    split
    · rfl
    · rename_i hnone
      rcases List.mem_append.1 ho with ho | ho
      · obtain ⟨u, hu, rfl⟩ := List.mem_map.1 ho
        exact absurd hcontains (List.find?_eq_none.1 hnone u hu)
      · obtain ⟨s, hs, hso⟩ := List.mem_filterMap.1 ho
        obtain ⟨name, hname, rfl⟩ := Option.map_eq_some_iff.1 hso
        rw [List.findSome?_isSome_iff]
        exact ⟨s, List.mem_filter.2 ⟨hs, hcontains⟩, by rw [hname]; rfl⟩

/-- The name of a reference is found where no other reference is. -/
theorem referenceAt?_of_contains {span : Span} (ho : (name, span) ∈ m.occurrences)
    (hcontains : span.contains q = true)
    (hother : ∀ o ∈ m.occurrences, o.2.contains q = true → o = (name, span)) :
    m.referenceAt? q = some name := by
  obtain ⟨other, hfound⟩ := Option.isSome_iff_exists.1
    (isSome_referenceAt?_iff.2 ⟨(name, span), ho, hcontains⟩)
  obtain ⟨span', ho', hcontains'⟩ := mem_occurrences_of_referenceAt? hfound
  have heq := hother (other, span') ho' hcontains'
  rw [hfound, (Prod.mk.inj heq).1]

/-- Strictly inside a reference its name is found. -/
theorem referenceAt?_of_encloses (i : Identity) (source : String) {span : Span}
    (ho : (name, span) ∈ (ofTokens i (tokenize source)).occurrences) (hq : span.Encloses q) :
    (ofTokens i (tokenize source)).referenceAt? q = some name := by
  refine referenceAt?_of_contains ho hq.contains fun o ho' hcontains => ?_
  by_contra hne
  have hapart := occurrences_apart i source ho ho' (Ne.symm hne)
  simp [hq.not_contains hapart] at hcontains

/-- At the start of a reference its name is found, unless another reference ends there. -/
theorem referenceAt?_of_start (i : Identity) (source : String) {span : Span}
    (ho : (name, span) ∈ (ofTokens i (tokenize source)).occurrences)
    (hfree : ∀ o ∈ (ofTokens i (tokenize source)).occurrences,
      o ≠ (name, span) → o.2.stop ≠ span.start) :
    (ofTokens i (tokenize source)).referenceAt? span.start = some name := by
  have hnonempty := nonempty_of_mem_occurrences i source ho
  refine referenceAt?_of_contains ho hnonempty.contains_start fun o ho' hcontains => ?_
  by_contra hne
  have hapart := occurrences_apart i source ho ho' (Ne.symm hne)
  exact hfree o ho' hne (hnonempty.stop_eq_start hapart hcontains)

end Module

/-- What is found at a position of a source: strictly inside a reference its name, and at its start
too unless another reference ends there; and whatever is found is the name of a reference whose
range contains the position. -/
theorem parseSource_referenceAt? (i : Identity) (source : String) (find : String → Option Module) :
    (∀ name span, (name, span) ∈ (parseSource i source find).1.occurrences →
      (∀ q, span.Encloses q → (parseSource i source find).1.referenceAt? q = some name) ∧
      ((∀ o ∈ (parseSource i source find).1.occurrences,
        o ≠ (name, span) → o.2.stop ≠ span.start) →
          (parseSource i source find).1.referenceAt? span.start = some name)) ∧
    ∀ q name, (parseSource i source find).1.referenceAt? q = some name →
      ∃ span, (name, span) ∈ (parseSource i source find).1.occurrences ∧
        span.contains q = true :=
  ⟨fun _ _ ho => ⟨fun _ hq => Module.referenceAt?_of_encloses i source ho hq,
    fun hfree => Module.referenceAt?_of_start i source ho hfree⟩,
    fun _ _ h => Module.mem_occurrences_of_referenceAt? h⟩

/-- The references of two calls that touch and of one over two lines with a comment in between. -/
private def touching : Module :=
  (parseSource ⟨.ofText "L/P.NSP", "L", "P", .program⟩
    "CALLNAT 'A'CALLNAT 'B'\nPERFORM /* a comment\n  C" fun _ => none).1

/-- The second call starts where the first one ends, and there the first one is found; the last one
is found in the comment between its words and at its start. -/
theorem parseSource_referenceAt?_sample :
    touching.occurrences =
        [("A", ⟨⟨0, 0⟩, ⟨0, 11⟩⟩), ("B", ⟨⟨0, 11⟩, ⟨0, 22⟩⟩), ("C", ⟨⟨1, 0⟩, ⟨2, 3⟩⟩)] ∧
      touching.referenceAt? ⟨0, 11⟩ = some "A" ∧ touching.referenceAt? ⟨0, 12⟩ = some "B" ∧
      touching.referenceAt? ⟨1, 12⟩ = some "C" ∧ touching.referenceAt? ⟨1, 0⟩ = some "C" := by
  have hoccurrences : touching.occurrences =
      [("A", ⟨⟨0, 0⟩, ⟨0, 11⟩⟩), ("B", ⟨⟨0, 11⟩, ⟨0, 22⟩⟩), ("C", ⟨⟨1, 0⟩, ⟨2, 3⟩⟩)] := by
    decide +kernel
  have h := (parseSource_referenceAt? ⟨.ofText "L/P.NSP", "L", "P", .program⟩
    "CALLNAT 'A'CALLNAT 'B'\nPERFORM /* a comment\n  C" fun _ => none).1
  change ∀ name span, (name, span) ∈ touching.occurrences → _ at h
  have hlast := h "C" ⟨⟨1, 0⟩, ⟨2, 3⟩⟩ (by simp [hoccurrences])
  refine ⟨hoccurrences, by decide +kernel, (h "B" ⟨⟨0, 11⟩, ⟨0, 22⟩⟩ ?_).1 _ (by decide),
    hlast.1 _ (by decide), hlast.2 ?_⟩
  · simp [hoccurrences]
  · change ∀ o ∈ touching.occurrences, _
    rw [hoccurrences]
    decide

end Steplib
