import Steplib.Proofs.Workspace.Events
import Steplib.Proofs.Workspace.Propagation
import Steplib.Proofs.Workspace.States

/-!
# Unsaved text, state and module

The unsaved text of a file, its state, its module and its diagnostics are fields of their own, which
operations set one after the other. They never contradict each other between operations. A text is
set only together with a parse, so a file with unsaved text has the module of that text, current or
stale; closing the file gives up both. The list of the parser goes with the module, unless somebody
publishes in the name of the parser.

## Main definitions

* `ModuleFile.built`: the module that the parser makes of a text.
* `ModuleFile.Buffered`: a file with unsaved text has the module of the text.
* `Workspace.PublishedInRun`: diagnostics without a module were published for the parser.
* `Workspace.Coherent`: text, state, module and diagnostics of a file agree.

## Main results

* `Workspace.Reachable.buffered`: every file of a reachable workspace is buffered.
* `Workspace.Happens.mute`: where the diagnostics of a file without a module come from.
* `Workspace.buffers_agree`: text, state, module and diagnostics of a file after a run.
-/

namespace Steplib

/-- The module that can be read is current or stale. -/
theorem ModuleState.module?_eq_some_iff {s : ModuleState} {m : Module} :
    s.module? = some m ↔ s = .parsed m ∨ s = .stale m := by
  cases s <;> simp [module?]

namespace ModuleFile

/-- The module that the parser makes of a text when the file goes by the name: the one without
content if it fails there. -/
def built (f : ModuleFile) (faults : ParserFaults) (name text : String) : Module :=
  match faults.of? name with
  | none => .ofTokens { f.identity with name } (tokenize text)
  | some _ => .degraded { f.identity with name }

/-- If the file has an unsaved text, it has the module of that text, under the name by which the
file went when it was parsed. -/
def Buffered (faults : ParserFaults) (f : ModuleFile) : Prop :=
  ∀ text, f.overlay = some text → ∃ name, f.state.module? = some (f.built faults name text)

variable {sources : Sources} {faults : ParserFaults} {f f' : ModuleFile} {text : String}

/-- A parse of a file with unsaved text gives the module of that text. -/
theorem fst_outcome_of_overlay (h : f.overlay = some text) (find : String → Option Module) :
    (f.outcome sources faults find).1 = f.built faults f.name text := by
  have hs : f.source sources = .ok text := by simp [source, h]
  rw [built, outcome, hs]
  cases faults.of? f.name <;> rfl

/-- A file that was just parsed is buffered. -/
theorem buffered_of_parsed {find : String → Option Module}
    (hstate : f'.state = .parsed (f.outcome sources faults find).1) (hb : f'.bare = f.bare) :
    f'.Buffered faults := by
  intro text htext
  rw [overlay_eq_of_bare hb] at htext
  refine ⟨f.name, ?_⟩
  rw [hstate, fst_outcome_of_overlay htext, built, built, identity_eq_of_bare hb]
  rfl

/-- Whether a file is buffered does not depend on the name that it has now. -/
theorem Buffered.retained (h : f.Buffered faults) (hretains : f.Retains f') :
    f'.Buffered faults := by
  obtain ⟨hpath, hlibrary, htype⟩ : f'.path = f.path ∧ f'.library = f.library ∧ f'.type = f.type :=
    by simpa using hretains.place
  intro text htext
  obtain ⟨name, hbuilt⟩ := h text (hretains.overlay.symm.trans htext)
  refine ⟨name, ?_⟩
  simp only [hretains.module, hbuilt, built, identity, hpath, hlibrary, htype]

theorem buffered_of_overlay (h : f.overlay = none) : f.Buffered faults := fun text htext => by
  simp [h] at htext

end ModuleFile

/-- The event sets the unsaved text of the file at the path. -/
def Event.TypesAt (p : Path) : Event → Prop
  | typed q _ => q.same p = true
  | _ => False

/-- The event is a report in the name of the parser on the file at the path. -/
def Event.PublishesAt (p : Path) : Event → Prop
  | published q tool _ => q.same p = true ∧ tool = .parser
  | _ => False

namespace Workspace

/-- The diagnostics were published in the name of the parser for the file at the path by an
operation of the run. Since then the file was always part of the project, had no module and kept
them. -/
def PublishedInRun (start : Workspace) (steps : List Step) (p : Path) (ds : List Diagnostic) :
    Prop :=
  ∃ front sources q back, steps = front ++ (sources, Operation.publish q .parser ds) :: back ∧
    q.same p = true ∧ ∀ mid, mid <+: back →
      ∃ g, (start.runAll (front ++ (sources, Operation.publish q .parser ds) :: mid)).file? p =
        some g ∧ g.state.module? = none ∧ g.diagnostics.ofTool .parser = ds

/-- The unsaved text, the state, the module and the diagnostics of the file at the path agree after
a run. A file with unsaved text has the module of that text, current or stale, or the module without
content if the parser fails on the file. A file without a module has no unsaved text, and nothing
from the parser but what was published in its name. -/
structure Coherent (faults : ParserFaults) (start : Workspace) (steps : List Step) (p : Path)
    (f : ModuleFile) : Prop where
  present : f.state ≠ .deleted
  module : ∀ text, f.overlay = some text → ∃ m, (f.state = .parsed m ∨ f.state = .stale m) ∧
    (faults.of? m.name = none → m.tree = (Module.ofTokens f.identity (tokenize text)).tree ∧
      m.symbols = (Module.ofTokens f.identity (tokenize text)).symbols ∧
      m.usings = (Module.ofTokens f.identity (tokenize text)).usings) ∧
    (faults.of? m.name ≠ none → m = .degraded { f.identity with name := m.name })
  overlay : f.state = .unparsed ∨ f.state = .closed → f.overlay = none
  published : f.state = .unparsed ∨ f.state = .closed → f.diagnostics.ofTool .parser = [] ∨
    PublishedInRun start steps p (f.diagnostics.ofTool .parser)
  settled : ∀ m, f.state.module? = some m → m.pending = false

variable {sources : Sources} {ws ws₁ ws' start : Workspace} {f f' g : ModuleFile} {p q : Path}
  {events : List Event} {steps : List Step}

/-! ### Operations with an edit -/

/-- A text is set by a change or a save of the file. -/
theorem exists_edit_of_typesAt {op : Operation} {e : Event} (h : op.Entails sources ws events)
    (he : e ∈ events) (ht : e.TypesAt p) : ∃ q f edit strategy, q.same p = true ∧
      ws.file? q = some f ∧ op.run sources ws = (TextEdit.run edit sources ws q strategy).2 := by
  rcases mem_of_entails h he with hparse | ⟨_, rfl⟩ | ⟨_, rfl⟩ | ⟨q, edit, hedit, he⟩
  · cases e <;> first | exact ht.elim | exact hparse.elim
  · exact ht.elim
  · exact ht.elim
  obtain ⟨f, hf, he⟩ := exists_of_mem_editing he
  cases op with
  | change _ text strategy =>
    cases hedit
    obtain rfl := List.mem_singleton.1 he
    exact ⟨_, f, .change text, strategy, ht, hf, rfl⟩
  | save _ strategy =>
    cases hedit
    obtain rfl := List.mem_singleton.1 he
    exact ⟨_, f, .save, strategy, ht, hf, rfl⟩
  | closeFile _ =>
    cases hedit
    rw [Edit.events] at he
    split at he <;> simp_all [Event.TypesAt]
  | publish _ tool ds =>
    cases hedit
    obtain rfl := List.mem_singleton.1 he
    exact ht.elim
  | _ => cases hedit

/-- A report in the name of the parser is published by an operation. -/
theorem exists_publish_of_publishesAt {op : Operation} {e : Event}
    (h : op.Entails sources ws events) (he : e ∈ events) (hp : e.PublishesAt p) :
    ∃ q f ds, q.same p = true ∧ ws.file? q = some f ∧ op = .publish q .parser ds := by
  rcases mem_of_entails h he with hparse | ⟨_, rfl⟩ | ⟨_, rfl⟩ | ⟨q, edit, hedit, he⟩
  · cases e <;> first | exact hp.elim | exact hparse.elim
  · exact hp.elim
  · exact hp.elim
  obtain ⟨f, hf, he⟩ := exists_of_mem_editing he
  cases op with
  | change q' text strategy | save _ strategy =>
    cases hedit
    obtain rfl := List.mem_singleton.1 he
    exact hp.elim
  | closeFile _ =>
    cases hedit
    rw [Edit.events] at he
    split at he <;> simp_all [Event.PublishesAt]
  | publish _ tool ds =>
    cases hedit
    obtain rfl := List.mem_singleton.1 he
    obtain ⟨hs, rfl⟩ := hp
    exact ⟨_, f, ds, hs, hf, rfl⟩
  | _ => cases hedit

/-! ### Unsaved text and module -/

/-- A move that does not set the text of a file leaves it buffered. -/
theorem Happens.buffered (h : Happens sources ws events ws')
    (hother : ∀ e ∈ events, ¬ e.TypesAt p)
    (hb : ∀ f, ws.file? p = some f → f.Buffered ws.faults) (hf' : ws'.file? p = some f') :
    f'.Buffered ws'.faults := by
  rw [h.rules.1]
  cases h.yields hf' with
  | retained hf hretains => exact (hb _ hf).retained hretains
  | parsed find _ _ hbare hstate => exact ModuleFile.buffered_of_parsed hstate hbare
  | typed text hs => exact absurd hs (hother _ List.mem_cons_self)
  | @published _ f tool ds _ hf =>
    have hbuffered := hb f hf
    exact hbuffered
  | closed => exact ModuleFile.buffered_of_overlay rfl
  | added _ hnew =>
    obtain ⟨l, -, type, rfl⟩ := newFile?_cases hnew
    exact ModuleFile.buffered_of_overlay rfl

theorem Unfolds.buffered (h : Unfolds sources ws events ws')
    (hother : ∀ e ∈ events, ¬ e.TypesAt p)
    (hb : ∀ f, ws.file? p = some f → f.Buffered ws.faults) :
    ∀ f, ws'.file? p = some f → f.Buffered ws'.faults :=
  h.invariant (P := fun ws => ∀ f, ws.file? p = some f → f.Buffered ws.faults) hother
    (fun hstep hevents hb _ => hstep.buffered hevents hb) hb

/-- A file whose text was set is buffered when it has been parsed. -/
theorem Arises.buffered_edit (ha : Arises ws) (e : TextEdit) (sources : Sources)
    (strategy : ParseStrategy) (hs : q.same p = true)
    (hf' : (e.run sources ws q strategy).2.file? p = some f') (hq : ws.file? q = some f) :
    f'.Buffered (e.run sources ws q strategy).2.faults := by
  obtain ⟨g, log, -, -, hspreads⟩ := ha.spreads_edit hq e sources strategy
  have hpath : f.path.same p = true := (Path.same_congr_left (ha.keyed q f hq) p).trans hs
  obtain ⟨f₀, g, -, hg, hrenewed⟩ := hspreads.renewed p (hspreads.mem_log p (by simp [hpath]))
  obtain rfl := Option.some.inj (hf'.symm.trans hg)
  exact ModuleFile.buffered_of_parsed hrenewed.state hrenewed.bare

/-- Every file of a reachable workspace with unsaved text has the module of that text. -/
theorem Reachable.buffered (h : Reachable ws) :
    ∀ p f, ws.file? p = some f → f.Buffered ws.faults := by
  induction h with
  | fresh => exact fun p f hf => by simp at hf
  | @run ws h sources op ih =>
    intro p f' hf'
    obtain ⟨events, hunfolds, hentails⟩ := unfolds_run sources h.arises.keyed op
    by_cases htyped : ∃ e ∈ events, e.TypesAt p
    · obtain ⟨e, he, htypes⟩ := htyped
      obtain ⟨q, f, edit, strategy, hs, hq, hrun⟩ := exists_edit_of_typesAt hentails he htypes
      rw [hrun] at hf' ⊢
      exact h.arises.buffered_edit edit sources strategy hs hf' hq
    · exact hunfolds.buffered (fun e he htypes => htyped ⟨e, he, htypes⟩) (ih p) f' hf'

/-! ### Diagnostics without a module -/

/-- The list of the parser is empty, or the file was there before with the same list and without a
module. -/
def Mute (ws : Workspace) (p : Path) (f' : ModuleFile) : Prop :=
  f'.diagnostics.ofTool .parser = [] ∨ ∃ f, ws.file? p = some f ∧ f.state.module? = none ∧
    f.diagnostics.ofTool .parser = f'.diagnostics.ofTool .parser

/-- A move that publishes nothing in the name of the parser leaves a file without a module with the
list that it has, or with none. -/
theorem Happens.mute (h : Happens sources ws events ws')
    (hother : ∀ e ∈ events, ¬ e.PublishesAt p) (hf' : ws'.file? p = some f')
    (hmodule : f'.state.module? = none) : ws.Mute p f' := by
  cases h.yields hf' with
  | retained hf hretains =>
    exact .inr ⟨_, hf, hretains.module.symm.trans hmodule, by rw [hretains.diagnostics]⟩
  | parsed find _ _ _ hstate => simp [hstate, ModuleState.module?] at hmodule
  | typed text _ hf => exact .inr ⟨_, hf, hmodule, rfl⟩
  | published tool ds hs hf =>
    have htool : Tool.parser ≠ tool := fun ht => hother _ List.mem_cons_self ⟨hs, ht.symm⟩
    exact .inr ⟨_, hf, hmodule, by rw [Partition.ofTool_replace, if_neg htool]⟩
  | closed => exact .inl (by rw [Partition.ofTool_clear, if_pos rfl])
  | added _ hnew =>
    obtain ⟨l, -, type, rfl⟩ := newFile?_cases hnew
    exact .inl rfl

theorem Unfolds.mute (h : Unfolds sources ws events ws')
    (hother : ∀ e ∈ events, ¬ e.PublishesAt p) (hf' : ws'.file? p = some f')
    (hmodule : f'.state.module? = none) : ws.Mute p f' := by
  induction h with
  | refl => exact .inr ⟨f', hf', hmodule, rfl⟩
  | next hfirst _ ih =>
    obtain ⟨hhead, hrest⟩ := List.forall_mem_append.1 hother
    rcases ih hrest hf' with hnil | ⟨f, hf, hnone, heq⟩
    · exact .inl hnil
    · rw [Mute, ← heq]
      exact hfirst.mute hhead hf hnone

/-- The diagnostics of the parser for a file without a module were published in its name. -/
theorem Reachable.publishedInRun (h : Reachable start) (hstart : ∀ p, start.file? p = none)
    (steps : List Step) (hf : (start.runAll steps).file? p = some f)
    (hmodule : f.state.module? = none) :
    f.diagnostics.ofTool .parser = [] ∨
      PublishedInRun start steps p (f.diagnostics.ofTool .parser) := by
  induction steps using List.reverseRec generalizing f with
  | nil =>
    have hf : start.file? p = some f := hf
    simp [hstart] at hf
  | append_singleton steps step ih =>
    obtain ⟨sources, op⟩ := step
    rw [runAll_append] at hf
    obtain ⟨events, hunfolds, hentails⟩ :=
      unfolds_run sources (h.runAll steps).arises.keyed op
    by_cases hpublished : ∃ e ∈ events, e.PublishesAt p
    · obtain ⟨e, he, hpublishes⟩ := hpublished
      obtain ⟨q, g, ds, hs, hq, rfl⟩ := exists_publish_of_publishesAt hentails he hpublishes
      have hds : f.diagnostics.ofTool .parser = ds := by
        have hp : (start.runAll steps).file? p = some g := by rw [← file?_congr _ hs, hq]
        simp only [Operation.run, publish, hq, file?_modifyFile, hs, hp, if_true, Option.map_some,
          Option.some.injEq] at hf
        rw [← hf, Partition.ofTool_replace, if_pos rfl]
      refine .inr ⟨steps, sources, q, [], by rw [hds], hs, fun mid hmid => ?_⟩
      obtain rfl := List.prefix_nil.1 hmid
      refine ⟨f, ?_, hmodule, rfl⟩
      rw [hds, runAll_append]
      exact hf
    · rcases hunfolds.mute (fun e he hpub => hpublished ⟨e, he, hpub⟩) hf hmodule with
        hnil | ⟨g, hg, hnone, heq⟩
      · exact .inl hnil
      rcases ih hg hnone with hnil | ⟨front, s, q, back, hsteps, hs, hsince⟩
      · exact .inl (heq.symm.trans hnil)
      · refine .inr ?_
        rw [← heq]
        refine ⟨front, s, q, back ++ [(sources, op)], by simp [hsteps], hs, fun mid hmid => ?_⟩
        rcases List.prefix_concat_iff.1 hmid with rfl | hmid
        · refine ⟨f, ?_, hmodule, heq.symm⟩
          rw [← hf, ← runAll_append, hsteps]
          simp
        · exact hsince mid hmid

/-- After a run of any operations every file agrees with itself, whatever came between: changes of
its text, parses on the way to other files, deletions of files that it refers to, new parses of the
callers of other files. -/
theorem buffers_agree (root : Path) (faults : ParserFaults) (severity : SeverityRules)
    (libraries : List (String × Path × List String)) (steps : List Step)
    (hf : ((fresh root faults severity libraries).runAll steps).file? p = some f) :
    Coherent faults (fresh root faults severity libraries) steps p f := by
  have hstart : Reachable (fresh root faults severity libraries) := .fresh ..
  have hreachable := hstart.runAll steps
  obtain ⟨hdeleted, hpending⟩ := hreachable.arises.settled p f hf
  have hbuffered := hreachable.buffered p f hf
  have hfaults : ((fresh root faults severity libraries).runAll steps).faults = faults := by
    obtain ⟨events, hhistory⟩ := exists_history hstart steps
    rw [hhistory.rules.1, fresh, foldl_addLibrary_eq]
    rfl
  rw [hfaults] at hbuffered
  have hmodule (hstate : f.state = .unparsed ∨ f.state = .closed) : f.state.module? = none := by
    rcases hstate with h | h <;> rw [h] <;> rfl
  refine ⟨hdeleted, fun text htext => ?_, fun hstate => ?_, fun hstate =>
    hstart.publishedInRun (by simp) steps hf (hmodule hstate), hpending⟩
  · obtain ⟨name, hm⟩ := hbuffered text htext
    refine ⟨_, ModuleState.module?_eq_some_iff.1 hm, ?_⟩
    rw [ModuleFile.built]
    cases hfault : faults.of? name with
    | none => exact ⟨fun _ => ⟨rfl, rfl, rfl⟩, fun h => absurd hfault h⟩
    | some failure => exact ⟨fun h => by simp [Module.degraded, hfault] at h, fun _ => rfl⟩
  · rw [Option.eq_none_iff_forall_ne_some]
    intro text htext
    obtain ⟨name, hm⟩ := hbuffered text htext
    simp [hmodule hstate] at hm

end Workspace

namespace Sample

/-- A finding that is published in the name of the parser. -/
def finding : Diagnostic := .ofProblem caller {} .missingEndDefine

/-- One subprogram is changed in the editor and then outside of it; for the other one a finding is
published while it has no module. -/
def edits : List Workspace.Step :=
  [.addFile caller, .addFile callee, .publish caller .parser [finding],
    .change callee "END" .withCallers, .markStale callee].map (texts, ·)

/-- The workspace without files in which the edits are made. -/
def blank : Workspace :=
  .fresh (.ofText "") {} { root := .ofText "" } [("L", .ofText "L", [])]

end Sample

namespace Workspace

/-- The first subprogram has the stale module of its unsaved text. The other one has no module, and
the finding was published. -/
theorem buffers_agree_sample :
    (∃ f, (Sample.blank.runAll Sample.edits).file? Sample.callee = some f ∧
      f.overlay = some "END" ∧ Coherent {} Sample.blank Sample.edits Sample.callee f) ∧
    ∃ f, (Sample.blank.runAll Sample.edits).file? Sample.caller = some f ∧ f.state = .unparsed ∧
      f.diagnostics.ofTool .parser = [Sample.finding] ∧
      Coherent {} Sample.blank Sample.edits Sample.caller f := by
  have hagree {p f} (hf : (Sample.blank.runAll Sample.edits).file? p = some f) :
      Coherent {} Sample.blank Sample.edits p f :=
    buffers_agree (.ofText "") {} { root := .ofText "" } [("L", .ofText "L", [])] Sample.edits hf
  obtain ⟨f, hf, htext⟩ := (Option.any_eq_true _ _).1
    (by decide +kernel : ((Sample.blank.runAll Sample.edits).file? Sample.callee).any
      (fun f => decide (f.overlay = some "END")) = true)
  obtain ⟨g, hg, hstate⟩ := (Option.any_eq_true _ _).1
    (by decide +kernel : ((Sample.blank.runAll Sample.edits).file? Sample.caller).any
      (fun f => decide (f.state = .unparsed ∧
        f.diagnostics.ofTool .parser = [Sample.finding])) = true)
  obtain ⟨hstate, hds⟩ := of_decide_eq_true hstate
  exact ⟨⟨f, hf, of_decide_eq_true htext, hagree hf⟩, g, hg, hstate, hds, hagree hg⟩

end Workspace

end Steplib
