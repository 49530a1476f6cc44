import Steplib.Proofs.Workspace.Edges

/-!
# What a search for references reports

A search for the references to a file puts together what the modules of its callers say and what
scans have found of callers without a module. The answer is in order and without repetition, so it
is described by what it contains: the places in the modules of callers that refer to the file by its
name, and the cached positions in files that are not among these callers.

## Main definitions

* `Module.RefersAt`: an import or a statement of a module refers to a name.
* `Workspace.Reports`: a search for references reports a place.

## Main results

* `Workspace.pairwise_references`: the answer is strictly increasing.
* `Workspace.Linked.reports_parsed_iff`, `Workspace.Linked.reports_scanned_iff`: what is reported.
-/

namespace Steplib

/-! ### References in order -/

namespace Reference

instance : Std.TransOrd Reference :=
  inferInstanceAs (Std.TransCmp (compareLex (compareOn file)
    (compareLex (compareOn span) (compareOn provisional))))

/-- References compare as equal exactly when they are the same. -/
theorem compare_eq_iff {r s : Reference} : compare r s = .eq ↔ r.same s = true := by
  have h : compare r s =
    compareLex (compareOn file) (compareLex (compareOn span) (compareOn provisional)) r s := rfl
  have hfile : compareOn file r s = .eq ↔ r.file.same s.file = true := Path.compare_eq_iff
  have hspan : compareOn span r s = .eq ↔ r.span = s.span := Std.LawfulEqOrd.compare_eq_iff_eq
  have hprovisional : compareOn provisional r s = .eq ↔ r.provisional = s.provisional :=
    Std.LawfulEqOrd.compare_eq_iff_eq
  rw [h, compareLex_eq_eq, compareLex_eq_eq, hfile, hspan, hprovisional]
  simp [same, and_assoc]

variable {r s : Reference} {rs : List Reference}

theorem same_congr_left (h : r.same s = true) (x : Reference) : r.same x = s.same x := by
  simp only [same, Bool.and_eq_true, beq_iff_eq] at h ⊢
  rw [Path.same_congr_left h.1.1, h.1.2, h.2]

theorem mem_of_mem_dropRepeated (h : r ∈ dropRepeated rs) : r ∈ rs := by
  fun_induction dropRepeated rs with
  | case1 first second rest _ ih =>
    rcases List.mem_cons.1 (ih h) with rfl | hr
    · exact List.mem_cons_self
    · exact List.mem_cons_of_mem _ (List.mem_cons_of_mem _ hr)
  | case2 first second rest _ ih =>
    rcases List.mem_cons.1 h with rfl | hr
    · exact List.mem_cons_self
    · exact List.mem_cons_of_mem _ (ih hr)
  | case3 rest => exact h

/-- Of each reference one spelling is left. -/
theorem any_dropRepeated (rs : List Reference) (x : Reference) :
    (dropRepeated rs).any (·.same x) = rs.any (·.same x) := by
  fun_induction dropRepeated rs with
  | case1 first second rest hs ih =>
    rw [ih, List.any_cons, List.any_cons, List.any_cons, same_congr_left hs, ← Bool.or_assoc,
      Bool.or_self]
  | case2 first second rest _ ih =>
    rw [List.any_cons, ih]
    rfl
  | case3 rest => rfl

/-- In an ordered list only neighbours can be the same, so none are left. -/
theorem pairwise_dropRepeated (h : rs.Pairwise fun r s => (compare r s).isLE) :
    (dropRepeated rs).Pairwise fun r s => compare r s = .lt := by
  fun_induction dropRepeated rs with
  | case1 first second rest _ ih =>
    exact ih (h.sublist ((List.sublist_cons_self second rest).cons_cons first))
  | case2 first second rest hs ih =>
    obtain ⟨hfirst, hrest⟩ := List.pairwise_cons.1 h
    obtain ⟨hsecond, -⟩ := List.pairwise_cons.1 hrest
    have hlt : compare first second = .lt := by
      have hle := hfirst second List.mem_cons_self
      have hne := mt compare_eq_iff.1 hs
      cases hc : compare first second <;> simp_all
    refine List.pairwise_cons.2 ⟨fun r hr => ?_, ih hrest⟩
    rcases List.mem_cons.1 (mem_of_mem_dropRepeated hr) with rfl | hr
    · exact hlt
    · exact Std.TransCmp.lt_of_lt_of_isLE hlt (hsecond r hr)
  | case3 rest hshort =>
    match rest, hshort with
    | [], _ => exact .nil
    | [r], _ => exact List.pairwise_singleton _ r
    | r :: s :: rest, hshort => exact (hshort r s rest rfl).elim

theorem pairwise_inOrder (rs : List Reference) :
    (inOrder rs).Pairwise fun r s => compare r s = .lt := by
  refine pairwise_dropRepeated (List.pairwise_mergeSort (fun a b c => ?_) (fun a b => ?_) rs)
  · exact Std.TransCmp.isLE_trans
  · have hswap : compare b a = (compare a b).swap := Std.OrientedCmp.eq_swap
    rw [hswap]
    cases compare a b <;> rfl

theorem any_inOrder (rs : List Reference) (x : Reference) :
    (inOrder rs).any (·.same x) = rs.any (·.same x) := by
  rw [inOrder, any_dropRepeated]
  exact (List.mergeSort_perm rs _).any_eq

end Reference

/-! ### The references in a module -/

namespace Module

/-- An import or a statement of the module, which has the given range, refers to the name in any
letter case. -/
def RefersAt (m : Module) (name : String) (span : Span) : Prop :=
  (∃ u ∈ m.usings, Ascii.eqIgnoreCase u.name name = true ∧ u.span = span) ∨
    ∃ s ∈ m.tree, ∃ other, s.reference? = some other ∧ Ascii.eqIgnoreCase other name = true ∧
      s.span = span

variable {m : Module} {name : String} {span : Span}

theorem mem_referencesTo_iff : span ∈ m.referencesTo name ↔ m.RefersAt name span := by
  simp only [referencesTo, RefersAt, List.mem_append, List.mem_map, List.mem_filter,
    Option.any_eq_true, and_assoc]
  refine or_congr_right (exists_congr fun s => and_congr_right fun _ => ?_)
  simp only [← exists_and_right, and_assoc]

/-- Somewhere the module refers to a name exactly when the name is among its references. -/
theorem exists_refersAt_iff : (∃ span, m.RefersAt name span) ↔
    ∃ other ∈ m.references, Ascii.eqIgnoreCase other name = true := by
  constructor
  · rintro ⟨span, ⟨u, hu, hname, -⟩ | ⟨s, hs, other, hother, hname, -⟩⟩
    · exact ⟨u.name, List.mem_append_left _ (List.mem_map_of_mem hu), hname⟩
    · exact ⟨other, List.mem_append_right _ (List.mem_filterMap.2 ⟨s, hs, hother⟩), hname⟩
  · rintro ⟨other, hother, hname⟩
    rcases List.mem_append.1 hother with hother | hother
    · obtain ⟨u, hu, rfl⟩ := List.mem_map.1 hother
      exact ⟨u.span, .inl ⟨u, hu, hname, rfl⟩⟩
    · obtain ⟨s, hs, hother⟩ := List.mem_filterMap.1 hother
      exact ⟨s.span, .inr ⟨s, hs, other, hother, hname, rfl⟩⟩

end Module

namespace Workspace

/-- A search for the references to the file at `p` reports the range in the file at `c`, as known
from a scan only or not. -/
def Reports (ws : Workspace) (p c : Path) (span : Span) (provisional : Bool) : Prop :=
  ∃ r ∈ ws.references p, r.file.same c = true ∧ r.span = span ∧ r.provisional = provisional

/-- The file at `c` has a module and refers to the file at `p`. -/
def CallsFrom (ws : Workspace) (c p : Path) (m : Module) : Prop :=
  ∃ f, ws.file? c = some f ∧ f.outgoing.contains p = true ∧ f.state.module? = some m

variable {ws : Workspace} {f target : ModuleFile} {p c : Path} {span : Span} {provisional : Bool}
  {m : Module}

/-- The answer of a search is strictly increasing. -/
theorem pairwise_references (ws : Workspace) (p : Path) :
    (ws.references p).Pairwise fun r s => compare r s = .lt := by
  rw [references]
  split
  · exact .nil
  · exact Reference.pairwise_inOrder _

theorem toOption_module (f : ModuleFile) : f.module.toOption = f.state.module? := by
  cases hstate : f.state <;> simp [ModuleFile.module, ModuleState.module?, hstate, Except.toOption]

/-- The callers that answer with their modules are those that have one. -/
theorem Linked.mem_parsedCallers_iff (hl : ws.Linked) (hp : ws.file? p = some target) :
    (∃ e ∈ ws.parsedCallers target, e.1.same c = true ∧ e.2 = m) ↔ ws.CallsFrom c p m := by
  constructor
  · rintro ⟨⟨q, _⟩, he, hs, rfl⟩
    obtain ⟨q', hq', hbind⟩ := List.mem_filterMap.1 he
    obtain ⟨f, hf, hm⟩ := Option.bind_eq_some_iff.1 hbind
    obtain ⟨m', hm', hpair⟩ := Option.map_eq_some_iff.1 hm
    obtain ⟨rfl, rfl⟩ := Prod.mk.inj hpair
    have hcalls := (hl.symmetric q' p).2 ((calledBy_iff hp).2 (PathSet.contains_of_mem hq'))
    refine ⟨f, (ws.file?_congr hs).symm.trans hf, (calls_iff hf).1 hcalls, ?_⟩
    rw [← toOption_module, hm']
  · rintro ⟨f, hf, hedge, hm⟩
    have hcalled : target.incoming.contains c = true :=
      (calledBy_iff hp).1 ((hl.symmetric c p).1 ((calls_iff hf).2 hedge))
    obtain ⟨q, hq, hs⟩ := List.any_eq_true.1 hcalled
    refine ⟨(q, m), List.mem_filterMap.2 ⟨q, hq, ?_⟩, hs, rfl⟩
    rw [ws.file?_congr hs, hf, Option.bind_some, toOption_module, hm]
    rfl

/-- A search answers for the callers with a module first, and from the cache for all others. -/
theorem reports_iff (hp : ws.file? p = some target) : ws.Reports p c span provisional ↔
    provisional = false ∧ (∃ e ∈ ws.parsedCallers target,
      e.1.same c = true ∧ span ∈ e.2.referencesTo target.name) ∨
    provisional = true ∧ ∃ x ∈ ws.cache.positions p, x.file.same c = true ∧
      ⟨x.position, x.position⟩ = span ∧
        (ws.parsedCallers target).any (·.1.same x.file) = false := by
  have hany : ws.Reports p c span provisional ↔
      (ws.references p).any (·.same ⟨c, span, provisional⟩) = true := by
    simp only [Reports, List.any_eq_true, Reference.same, Bool.and_eq_true, beq_iff_eq, and_assoc]
  rw [hany, references, hp]
  dsimp only
  rw [Reference.any_inOrder, List.any_append, Bool.or_eq_true]
  simp only [List.any_eq_true, List.mem_flatMap, List.mem_map, List.mem_filter, Reference.same,
    Bool.and_eq_true, beq_iff_eq, Bool.not_eq_true']
  refine or_congr ⟨?_, ?_⟩ ⟨?_, ?_⟩
  · rintro ⟨_, ⟨e, he, span', hspan, rfl⟩, ⟨hs, rfl⟩, rfl⟩
    exact ⟨rfl, e, he, hs, hspan⟩
  · rintro ⟨rfl, e, he, hs, hspan⟩
    exact ⟨_, ⟨e, he, span, hspan, rfl⟩, ⟨hs, rfl⟩, rfl⟩
  · rintro ⟨_, ⟨x, ⟨hx, hcaller⟩, rfl⟩, ⟨hs, rfl⟩, rfl⟩
    exact ⟨rfl, x, hx, hs, rfl, hcaller⟩
  · rintro ⟨rfl, x, hx, hs, rfl, hcaller⟩
    exact ⟨_, ⟨x, ⟨hx, hcaller⟩, rfl⟩, ⟨hs, rfl⟩, rfl⟩

section Reports

variable (hl : ws.Linked) (hp : ws.file? p = some target)

include hl hp

/-- Of a caller with a module all places are reported that refer to the file by its name. -/
theorem Linked.reports_parsed_iff : ws.Reports p c span false ↔
    ∃ m, ws.CallsFrom c p m ∧ m.RefersAt target.name span := by
  simp only [reports_iff hp, ← hl.mem_parsedCallers_iff hp, ← Module.mem_referencesTo_iff,
    true_and, Bool.false_eq_true, false_and, or_false]
  constructor
  · rintro ⟨e, he, hs, hspan⟩
    exact ⟨e.2, ⟨e, he, hs, rfl⟩, hspan⟩
  · rintro ⟨_, ⟨e, he, hs, rfl⟩, hspan⟩
    exact ⟨e, he, hs, hspan⟩

/-- A cached position is reported unless it lies in a caller with a module. -/
theorem Linked.reports_scanned_iff : ws.Reports p c span true ↔
    (∃ x ∈ ws.cache.positions p, x.file.same c = true ∧ ⟨x.position, x.position⟩ = span) ∧
      ∀ m, ¬ ws.CallsFrom c p m := by
  simp only [reports_iff hp, ← hl.mem_parsedCallers_iff hp, true_and, Bool.true_eq_false,
    false_and, false_or, List.any_eq_false, not_exists, not_and]
  constructor
  · rintro ⟨x, hx, hs, hspan, hcaller⟩
    refine ⟨⟨x, hx, hs, hspan⟩, fun m e he hsame _ => hcaller e he ?_⟩
    rw [Path.same_congr_right hs, hsame]
  · rintro ⟨⟨x, hx, hs, hspan⟩, hcaller⟩
    refine ⟨x, hx, hs, hspan, fun e he hsame => hcaller e.2 e he ?_ rfl⟩
    rw [← Path.same_congr_right hs, hsame]

end Reports

end Workspace

end Steplib
