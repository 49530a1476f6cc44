import Steplib.Proofs.Workspace.Propagation
import Steplib.Proofs.Workspace.Provisional

/-!
# Rename plans

Before a rename every caller of the module is parsed. The callers are taken down first and parsed
one after the other; each parse replaces the edges of the caller and may give modules to further
files. A caller that loses its edge on the way, or a file that gets one, has been parsed by then, so
in the end every file with an edge to the module has a current module, and the plan lists the places
in these modules that refer to the module by its name.

## Main results

* `Workspace.Arises.spreads_prepareRename`: the callers at the time of the call are parsed.
* `Workspace.Spreads.parsed_of_calls`: so are the files that are callers afterwards.
* `Workspace.Reachable.rename_plan`: what the plan contains.
-/

namespace Steplib

namespace Workspace

variable {sources : Sources} {ws ws' : Workspace} {f target : ModuleFile} {p c : Path}
  {reported log : List Path}

/-- A file that is reported has a current module. -/
theorem Spreads.exists_parsed (h : Spreads sources ws ws' reported log)
    (hc : log.any (·.same c) = true) : ∃ f m, ws'.file? c = some f ∧ f.state = .parsed m := by
  obtain ⟨f, g, -, hg, hrenewed⟩ := h.renewed c hc
  exact ⟨g, _, hg, hrenewed.state⟩

/-- When the callers of a file have been parsed, all files are parsed that call it then: a file that
was not parsed on the way has no new edges. -/
theorem Spreads.parsed_of_calls (h : Spreads sources ws ws' reported log)
    (hcallers : ∀ c, ws.Calls c p → reported.any (·.same c) = true) (hc : ws'.Calls c p) :
    ∃ f m, ws'.file? c = some f ∧ f.state = .parsed m := by
  cases hlog : log.any (·.same c) with
  | true => exact h.exists_parsed hlog
  | false =>
    obtain ⟨f', hf', hedge⟩ := hc
    obtain ⟨f, hf, ho⟩ := (h.others c hlog).symm.exists_file hf'
    have hedges : f.outgoing = f'.outgoing := congrArg (·.outgoing) ho
    have hreported := hcallers c ⟨f, hf, by rwa [hedges]⟩
    simp [h.mem_log c hreported] at hlog

section Rename

variable (ha : Arises ws) (hp : ws.file? p = some target)

include ha hp

/-- The plan is drawn up after the callers at the time of the call have been parsed. -/
theorem Arises.spreads_prepareRename (sources : Sources) :
    (ws.prepareRename sources p).1 =
        some ⟨target.name, (ws.prepareRename sources p).2.references p⟩ ∧
      ∃ log, Spreads sources ws (ws.prepareRename sources p).2 target.incoming.toList log := by
  obtain ⟨-, hspreads⟩ := ha.spreads_parseAll sources fun c hc => (ha.linked.callers hp c hc).1
  simp only [prepareRename, reparseCallers, hp]
  exact ⟨trivial, hspreads⟩

theorem Arises.mem_callers (hc : ws.Calls c p) :
    target.incoming.toList.any (·.same c) = true :=
  (calledBy_iff hp).1 ((ha.linked.symmetric c p).1 hc)

end Rename

/-- A rename plan has the name of the module. When it has been drawn up, every file that called the
module before is parsed, and so is every file that calls it now. The references in the plan that are
not provisional are exactly the ranges of the imports and statements in the modules of the present
callers that refer to the module by its name in any letter case, in order and without repetition. -/
theorem Reachable.rename_plan (h : Reachable ws) (sources : Sources)
    (hp : ws.file? p = some target) :
    let ws' := (ws.prepareRename sources p).2
    ∃ plan, (ws.prepareRename sources p).1 = some plan ∧ plan.name = target.name ∧
      (∃ target', ws'.file? p = some target' ∧ target'.name = target.name) ∧
      (∀ c, ws.Calls c p → ∃ f m, ws'.file? c = some f ∧ f.state = .parsed m) ∧
      (∀ c, ws'.Calls c p → ∃ f m, ws'.file? c = some f ∧ f.state = .parsed m) ∧
      (∀ c span, (∃ r ∈ plan.references, r.provisional = false ∧ r.file.same c = true ∧
          r.span = span) ↔
        ∃ f m, ws'.file? c = some f ∧ f.outgoing.contains p = true ∧ f.state = .parsed m ∧
          m.RefersAt target.name span) ∧
      (plan.references.filter (!·.provisional)).Pairwise fun r s => compare r s = .lt := by
  intro ws'
  have ha := h.arises
  have ha' : Arises ws' := (h.run sources (.prepareRename p)).arises
  obtain ⟨hplan, log, hspreads⟩ := ha.spreads_prepareRename hp sources
  obtain ⟨target', hp', hb⟩ := exists_file_of_skeleton hspreads.skeleton hp
  have hname : target'.name = target.name := ModuleFile.name_eq_of_bare hb
  have hcallers (c : Path) (hc : ws.Calls c p) := ha.mem_callers hp hc
  have hparsed (c : Path) (hc : ws'.Calls c p) := hspreads.parsed_of_calls hcallers hc
  refine ⟨_, hplan, rfl, ⟨target', hp', hname⟩,
    fun c hc => hspreads.exists_parsed (hspreads.mem_log c (hcallers c hc)), hparsed,
    fun c span => ?_, (ws'.pairwise_references p).filter _⟩
  have hreports : ws'.Reports p c span false ↔
      ∃ m, ws'.CallsFrom c p m ∧ m.RefersAt target.name span := by
    rw [← hname]
    exact ha'.linked.reports_parsed_iff hp'
  constructor
  · rintro ⟨r, hr, hprovisional, hs, hspan⟩
    obtain ⟨m, ⟨f, hf, hedge, hm⟩, hrefers⟩ := hreports.1 ⟨r, hr, hs, hspan, hprovisional⟩
    obtain ⟨f', m', hf', hstate⟩ := hparsed c ⟨f, hf, hedge⟩
    obtain rfl := Option.some.inj (hf.symm.trans hf')
    rw [hstate] at hm
    obtain rfl := Option.some.inj hm
    exact ⟨f, m', hf, hedge, hstate, hrefers⟩
  · rintro ⟨f, m, hf, hedge, hstate, hrefers⟩
    obtain ⟨r, hr, hs, hspan, hprovisional⟩ :=
      hreports.2 ⟨m, ⟨f, hf, hedge, by rw [hstate]; rfl⟩, hrefers⟩
    exact ⟨r, hr, hprovisional, hs, hspan⟩

/-- The subroutine was only scanned, but a plan to rename the nearer subprogram `N` lists what the
parse of the subroutine has found. -/
theorem Reachable.rename_plan_sample :
    Reachable Sample.mixed ∧
      (Sample.mixed.file? Sample.subroutine).map (·.state) = some .unparsed ∧
      ∃ target plan, Sample.mixed.file? Sample.near = some target ∧
        (Sample.mixed.prepareRename Sample.namesakes Sample.near).1 = some plan ∧
        plan.name = target.name ∧
        ∃ r ∈ plan.references, r.provisional = false ∧ r.file.same Sample.subroutine = true := by
  have hreachable : Reachable Sample.mixed := Sample.reachable_after _
  obtain ⟨target, hp, hname⟩ := (Option.any_eq_true _ _).1
    (by decide +kernel : (Sample.mixed.file? Sample.near).any (·.name == "N") = true)
  obtain ⟨plan, hplan, hplanName, -, -, hparsed, hiff, -⟩ :=
    rename_plan hreachable Sample.namesakes hp
  obtain ⟨f, hf, h⟩ := (Option.any_eq_true _ _).1
    (by decide +kernel : ((Sample.mixed.prepareRename Sample.namesakes Sample.near).2.file?
      Sample.subroutine).any (fun f => f.outgoing.contains Sample.near &&
        f.state.module?.any (·.references.contains "N")) = true)
  simp only [Bool.and_eq_true, Option.any_eq_true, List.contains_iff_mem] at h
  obtain ⟨hedge, m, hm, hmem⟩ := h
  obtain ⟨f', m', hf', hstate⟩ := hparsed Sample.subroutine ⟨f, hf, hedge⟩
  obtain rfl := Option.some.inj (hf.symm.trans hf')
  rw [hstate] at hm
  obtain rfl := Option.some.inj hm
  obtain ⟨span, hspan⟩ : ∃ span, m'.RefersAt target.name span :=
    Module.exists_refersAt_iff.2 ⟨"N", hmem, by rw [beq_iff_eq.1 hname]; rfl⟩
  obtain ⟨r, hr, hprovisional, hs, -⟩ :=
    (hiff Sample.subroutine span).2 ⟨f, m', hf, hedge, hstate, hspan⟩
  exact ⟨hreachable, by decide +kernel, target, plan, hp, hplan, hplanName, r, hr, hprovisional, hs⟩

end Workspace

end Steplib
