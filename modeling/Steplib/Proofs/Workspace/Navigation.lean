import Steplib.Proofs.Module.Places
import Steplib.Proofs.Parse.Agreement
import Steplib.Proofs.Workspace.Deletion
import Steplib.Proofs.Workspace.References

/-!
# From a reference to its target and back

The target of a reference is found from its position, by the name that stands there and the chain of
libraries in which the name is looked up. The references to a file are found from its callers, by
comparing the names in their modules with the name of the file. Right after a file has been parsed
the two are inverse to each other: its references to another file are those whose name leads there,
and from any position strictly inside one of them that file is reached.

## Main definitions

* `Workspace.PointsTo`: a reference of a module has a range, and its name stands for a file.

## Main results

* `Workspace.Recorded.reports_iff`: the references that are found to a file.
* `Workspace.Recorded.goto_eq`: the file that is reached from inside a reference.
* `Workspace.Reachable.references_inverse`: both, right after a file has been parsed.
-/

namespace Steplib

/-- A module refers to a name where one of its references has this name, in any letter case. -/
theorem Module.refersAt_iff {m : Module} {name : String} {span : Span} : m.RefersAt name span ↔
    ∃ other, (other, span) ∈ m.occurrences ∧ Ascii.eqIgnoreCase other name = true := by
  simp only [RefersAt, occurrences, List.mem_append, List.mem_map, List.mem_filterMap]
  constructor
  · rintro (⟨u, hu, hname, rfl⟩ | ⟨s, hs, other, hother, hname, rfl⟩)
    · exact ⟨u.name, .inl ⟨u, hu, rfl⟩, hname⟩
    · exact ⟨other, .inr ⟨s, hs, by rw [Statement.occurrence?, hother]; rfl⟩, hname⟩
  · rintro ⟨other, ⟨u, hu, heq⟩ | ⟨s, hs, hso⟩, hname⟩
    · obtain ⟨rfl, rfl⟩ := Prod.mk.inj heq
      exact .inl ⟨u, hu, hname, rfl⟩
    · obtain ⟨n, hn, heq⟩ := Option.map_eq_some_iff.1 hso
      obtain ⟨rfl, rfl⟩ := Prod.mk.inj heq
      exact .inr ⟨s, hs, n, hn, hname, rfl⟩

theorem Module.mem_references_of_mem {m : Module} {o : String × Span} (h : o ∈ m.occurrences) :
    o.1 ∈ m.references := by
  rw [references_eq]
  exact List.mem_map_of_mem h

namespace Workspace

/-- The module has a reference with the given range, and seen from the library its name stands for
the file at the path. -/
def PointsTo (ws : Workspace) (library : String) (m : Module) (span : Span) (p : Path) : Prop :=
  ∃ name, (name, span) ∈ m.occurrences ∧
    ∃ holder, ws.resolve? library name = some holder ∧ holder.path.same p = true

variable {sources : Sources} {ws : Workspace} {f target : ModuleFile} {p : Path} {text : String}
  {span : Span} {position : Position} {library name : String} {holder : Holder}

/-- A name that stands for a file is the name of this file, and the file lies where the name
says. -/
theorem Named.target_of_resolve? (hn : ws.Named) (hp : ws.file? p = some target)
    (hr : ws.resolve? library name = some holder) (hs : holder.path.same p = true) :
    Ascii.upper name = target.name ∧ holder = { path := target.path } := by
  obtain ⟨l, -, hlive, g, hg, hpath, -, hname⟩ := hn.holds_of_resolve? hr
  rw [ws.file?_congr hs, hp] at hg
  obtain rfl := Option.some.inj hg
  obtain ⟨path, live⟩ := holder
  obtain rfl : target.path = path := hpath
  obtain rfl : live = true := hlive
  exact ⟨hname.symm, rfl⟩

section Recorded

variable (h : ws.Recorded f text) (hn : ws.Named) (hp : ws.file? p = some target)

include h

/-- A parsed file refers to another one with its module where its names lead there. -/
theorem Recorded.callsFrom_iff {m : Module} (hother : f.path.same p = false) :
    ws.CallsFrom f.path p m ↔ m = .ofTokens f.identity (tokenize text) ∧
      ∃ span, ws.PointsTo f.library m span p := by
  have hf : ws.file? f.path = some f := h.live
  constructor
  · rintro ⟨f', hf', hedge, hm⟩
    obtain rfl := Option.some.inj (hf.symm.trans hf')
    rw [h.state] at hm
    obtain rfl := Option.some.inj hm
    rw [h.outgoing, contains_targets_iff, Module.references_eq] at hedge
    obtain ⟨name, hname, holder, hr, -, hs⟩ := hedge
    obtain ⟨⟨_, span⟩, ho, rfl⟩ := List.mem_map.1 hname
    exact ⟨rfl, span, _, ho, holder, hr, hs⟩
  · rintro ⟨rfl, span, name, ho, holder, hr, hs⟩
    refine ⟨f, hf, ?_, by rw [h.state]; rfl⟩
    rw [h.outgoing, contains_targets_iff]
    refine ⟨name, Module.mem_references_of_mem ho, holder, hr, ?_, hs⟩
    rw [Path.same_congr_left hs, Path.same_comm, hother]

include hn hp

/-- The references that a search reports of a parsed file are those that lead to the target. -/
theorem Recorded.reports_iff (hl : ws.Linked) (hother : f.path.same p = false) :
    ws.Reports p f.path span false ↔
      ws.PointsTo f.library (.ofTokens f.identity (tokenize text)) span p := by
  simp only [hl.reports_parsed_iff hp, h.callsFrom_iff hother, Module.refersAt_iff,
    Ascii.eqIgnoreCase_iff]
  constructor
  · rintro ⟨_, ⟨rfl, -, name, -, holder, hr, hs⟩, other, ho, hupper⟩
    refine ⟨other, ho, holder, ?_, hs⟩
    have hname := (hn.target_of_resolve? hp hr hs).1
    rw [(hn.file_upper p target hp).1, ← hname] at hupper
    rw [← resolve?_upper, hupper, resolve?_upper, hr]
  · rintro ⟨name, ho, holder, hr, hs⟩
    have hname := (hn.target_of_resolve? hp hr hs).1
    refine ⟨_, ⟨rfl, span, name, ho, holder, hr, hs⟩, name, ho, ?_⟩
    rw [hname, (hn.file_upper p target hp).1]

/-- From a position strictly inside a reference of a parsed file the target is reached. -/
theorem Recorded.goto_eq (sources : Sources)
    (hpoints : ws.PointsTo f.library (.ofTokens f.identity (tokenize text)) span p)
    (hposition : span.Encloses position) :
    ws.goto sources f.path position = (some (target.path, target.name), ws) := by
  have hf : ws.file? f.path = some f := h.live
  obtain ⟨name, ho, holder, hr, hs⟩ := hpoints
  obtain ⟨-, rfl⟩ := hn.target_of_resolve? hp hr hs
  have hfound := Module.referenceAt?_of_encloses f.identity text ho hposition
  have htarget : ws.file? target.path = some target := (ws.file?_congr hs).trans hp
  simp [goto, readModule, hf, h.state, hfound, hr, htarget]

end Recorded

/-- Right after a file has been opened, changed or saved, and so parsed from a text that it has, a
search for the references to another file reports of it exactly the ranges of the imports and the
statements of its module whose name stands for that file, seen from its library. From every position
strictly inside such a range that file is reached, and nothing is parsed on the way. -/
theorem Reachable.references_inverse (h : Reachable ws) {op : Operation}
    (hop : op.parsed? ws = some f) (hs : f.source sources = .ok text)
    (hfault : ws.faults.of? f.name = none) :
    ∃ g m, (op.run sources ws).file? f.path = some g ∧ g.state = .parsed m ∧
      ∀ p target, (op.run sources ws).file? p = some target → f.path.same p = false → ∀ span,
        ((op.run sources ws).Reports p f.path span false ↔
          (op.run sources ws).PointsTo f.library m span p) ∧
        ((op.run sources ws).Reports p f.path span false →
          ∀ sources' position, span.Encloses position →
            (op.run sources ws).goto sources' f.path position =
              (some (target.path, target.name), op.run sources ws)) := by
  have ha : Arises (op.run sources ws) := (h.run sources op).arises
  obtain ⟨g, hb, hrecorded, -⟩ := h.arises.recorded_run hop hs hfault
  have hpath : g.path = f.path := ModuleFile.path_eq_of_bare hb
  have hlibrary : g.library = f.library := ModuleFile.library_eq_of_bare hb
  rw [← hpath, ← hlibrary]
  refine ⟨g, _, hrecorded.live, hrecorded.state, fun p target hp hother span => ?_⟩
  have hreports : (op.run sources ws).Reports p g.path span false ↔
      (op.run sources ws).PointsTo g.library (.ofTokens g.identity (tokenize text)) span p :=
    hrecorded.reports_iff ha.named hp ha.linked hother
  exact ⟨hreports, fun hfound sources' position hposition =>
    hrecorded.goto_eq ha.named hp sources' (hreports.1 hfound) hposition⟩

end Workspace

namespace Sample

/-- The calling subprogram gets a second reference that extends over a line end. -/
def edit : Operation :=
  .change caller "CALLNAT 'A' PERFORM\nB" .withCallers

def edited : Workspace := edit.run texts workspace

end Sample

namespace Workspace

/-- The called subprogram is reached from the first line of the second reference. -/
theorem Reachable.references_inverse_sample :
    Reachable Sample.workspace ∧ ∃ f, Sample.edit.parsed? Sample.workspace = some f ∧
      f.source Sample.texts = .ok "CALLNAT 'A' PERFORM\nB" ∧
      Sample.workspace.faults.of? f.name = none ∧ ∃ target,
        Sample.edited.file? Sample.callee = some target ∧ f.path.same Sample.callee = false ∧
        Sample.edited.Reports Sample.callee f.path ⟨⟨0, 12⟩, ⟨1, 1⟩⟩ false ∧
        Span.Encloses ⟨⟨0, 12⟩, ⟨1, 1⟩⟩ ⟨0, 15⟩ ∧
        Sample.edited.goto Sample.texts f.path ⟨0, 15⟩ =
          (some (target.path, target.name), Sample.edited) := by
  obtain ⟨f, hf, h⟩ := (Option.any_eq_true _ _).1
    (by decide +kernel : (Sample.workspace.file? Sample.caller).any (fun f =>
      f.path == Sample.caller && !f.path.same Sample.callee &&
        Sample.workspace.faults.faults.isEmpty) = true)
  simp only [Bool.and_eq_true, beq_iff_eq, Bool.not_eq_true', List.isEmpty_iff] at h
  obtain ⟨⟨hpath, hother⟩, hfaults⟩ := h
  have hop : Sample.edit.parsed? Sample.workspace =
      some { f with overlay := some "CALLNAT 'A' PERFORM\nB" } := by
    simp only [Sample.edit, Operation.parsed?, hf, Option.map_some]
  have hfault : Sample.workspace.faults.of? f.name = none := by
    rw [ParserFaults.of?, hfaults]
    rfl
  obtain ⟨target, htarget, hreferences⟩ := (Option.any_eq_true _ _).1
    (by decide +kernel : (Sample.edited.file? Sample.callee).any (fun _ =>
      (Sample.edited.references Sample.callee).any (fun r => r.file.same Sample.caller &&
        r.span == ⟨⟨0, 12⟩, ⟨1, 1⟩⟩ && r.provisional == false)) = true)
  have hreports : Sample.edited.Reports Sample.callee f.path ⟨⟨0, 12⟩, ⟨1, 1⟩⟩ false := by
    obtain ⟨r, hr, hfound⟩ := List.any_eq_true.1 hreferences
    simp only [Bool.and_eq_true, beq_iff_eq, and_assoc] at hfound
    exact ⟨r, hr, hpath ▸ hfound⟩
  have hencloses : Span.Encloses ⟨⟨0, 12⟩, ⟨1, 1⟩⟩ ⟨0, 15⟩ := by decide
  obtain ⟨g, m, -, -, hinverse⟩ := references_inverse Sample.reachable hop
    (rfl : _ = Except.ok "CALLNAT 'A' PERFORM\nB") hfault
  exact ⟨Sample.reachable, _, hop, rfl, hfault, target, htarget, hother, hreports, hencloses,
    (hinverse _ target htarget hother _).2 hreports _ _ hencloses⟩

end Workspace

end Steplib
