import Steplib.Proofs.Parse.Renewal
import Steplib.Proofs.Workspace.Edges

/-!
# How far an edit spreads

When the text of a file changes, the file is parsed again and, if its callers can observe the
change, so are the files that refer to it directly, each of them once. Parses on the way give a
module to files that have none, but no file that has one is touched unless it is reported.

## Main definitions

* `TextEdit`: a change of a file in the editor, or a save.
* `Workspace.Spreads`: files were renewed, the reported ones and files without a module.
* `Workspace.Spared`: a file that has a module is left alone.

## Main results

* `Workspace.Arises.spreads_parseAll`: parsing files one after the other touches no other module.
* `Workspace.Reachable.edit_report`: what an edit reports, and what it leaves alone.
-/

namespace Steplib

/-- The text of a file is changed in the editor, or the file is saved. -/
inductive TextEdit
  | change (source : String)
  | save

namespace TextEdit

/-- The unsaved text of the file afterwards. -/
def overlay : TextEdit → Option String
  | change source => some source
  | save => none

/-- The file with its new text. -/
def apply (e : TextEdit) (f : ModuleFile) : ModuleFile :=
  { f with overlay := e.overlay }

/-- The workspace in which the file at the path has its new text and nothing is parsed yet. -/
def typed (e : TextEdit) (ws : Workspace) (p : Path) : Workspace :=
  ws.modifyFile p e.apply

/-- The report of the edit and the workspace after it. -/
def run (e : TextEdit) (sources : Sources) (ws : Workspace) (p : Path)
    (strategy : ParseStrategy) : ReparseReport × Workspace :=
  match e with
  | change source => ws.change sources p source strategy
  | save => ws.save sources p strategy

variable {ws : Workspace} {f : ModuleFile} {p q : Path}

/-- An edit sets the text, then parses the file again. -/
theorem run_eq (e : TextEdit) (sources : Sources) (strategy : ParseStrategy)
    (hp : ws.file? p = some f) :
    e.run sources ws p strategy = (e.typed ws p).reparse sources (e.apply f) strategy := by
  cases e <;> simp only [run, Workspace.change, Workspace.save, Workspace.setOverlay, hp] <;> rfl

theorem file?_typed (e : TextEdit) (hq : p.same q = false) :
    (e.typed ws p).file? q = ws.file? q := by
  rw [typed, Workspace.file?_modifyFile, hq, if_neg Bool.false_ne_true]

theorem file?_typed_self (e : TextEdit) (hp : ws.file? p = some f) :
    (e.typed ws p).file? p = some (e.apply f) := by
  rw [typed, Workspace.file?_modifyFile, Path.same_refl, if_pos rfl, hp]
  rfl

theorem live_typed (e : TextEdit) (hk : ws.Keyed) (hp : ws.file? p = some f) :
    (e.typed ws p).Live (e.apply f) :=
  hk.live_overlay hp e.overlay

theorem reachable_run (e : TextEdit) (h : ws.Reachable) (sources : Sources) (p : Path)
    (strategy : ParseStrategy) : (e.run sources ws p strategy).2.Reachable := by
  cases e with
  | change source => exact h.run sources (.change p source strategy)
  | save => exact h.run sources (.save p strategy)

theorem move_typed (e : TextEdit) (sources : Sources) (ws : Workspace) (p : Path) :
    Workspace.Move sources ws (e.typed ws p) :=
  .edit ws p (.overlay e.overlay)

end TextEdit

/-- The callers that are parsed together with a file, once the file has the module. -/
def ParseStrategy.callers (strategy : ParseStrategy) (m : Module) (f : ModuleFile) : List Path :=
  if strategy = .withCallers ∧ m.shapesCallers then f.incoming.toList else []

theorem ParseStrategy.ordered_callers (strategy : ParseStrategy) (m : Module) (f : ModuleFile) :
    (strategy.callers m f).Pairwise (·.before ·) := by
  unfold callers
  split
  · exact f.incoming.ordered
  · exact .nil

theorem ParseStrategy.callers_subset (strategy : ParseStrategy) (m : Module) (f : ModuleFile) :
    strategy.callers m f ⊆ f.incoming.toList := by
  unfold callers
  split <;> simp

theorem ModuleFile.type_content (sources : Sources) (faults : ParserFaults) (f : ModuleFile) :
    (f.content sources faults).type = f.type := by
  unfold content outcome
  split
  · rfl
  · split <;> rfl

namespace Workspace

/-- The files on the log are renewed: those that are reported, and files without a module. -/
structure Spreads (sources : Sources) (ws ws' : Workspace) (reported log : List Path) : Prop
    extends Renews sources ws ws' log where
  mem_log : ∀ q, reported.any (·.same q) = true → log.any (·.same q) = true
  unparsed : ∀ q, log.any (·.same q) = true → reported.any (·.same q) = true ∨ ¬ ws.HasModule q

/-- A file with a module, current or stale, is the same in both workspaces, but for its callers, and
waits for the same names. A file without a module keeps its state or has a current module. -/
structure Spared (ws ws' : Workspace) (q : Path) : Prop where
  kept : ∀ c m, ws.file? q = some c → c.state.module? = some m →
    (∃ c', ws'.file? q = some c' ∧ c' = { c with incoming := c'.incoming }) ∧
      (∀ name, ws'.waiting.Waits q name ↔ ws.waiting.Waits q name) ∧
      ∀ name, name ∈ ws'.waiting.namesOf q ↔ name ∈ ws.waiting.namesOf q
  parsed : ∀ c, ws.file? q = some c → c.state.module? = none →
    ∃ c', ws'.file? q = some c' ∧ (c'.state = c.state ∨ ∃ m, c'.state = .parsed m)

/-- An edit of the file `f` at `p` has the report and leads to the workspace `ws'`. The file is
parsed first, to the module `m`, and is `g` right after that; the report lists the file and those of
its callers then that are parsed as well, in path order. Every file on the report has been parsed,
and every other file that had a module is left alone. -/
structure Propagated (sources : Sources) (ws : Workspace) (p : Path) (e : TextEdit)
    (strategy : ParseStrategy) (f g : ModuleFile) (m : Module) (report : ReparseReport)
    (ws' : Workspace) : Prop where
  module : ((e.typed ws p).parse sources (e.apply f)).1 = m
  type : m.type = f.type
  file : ((e.typed ws p).parse sources (e.apply f)).2.file? p = some g
  reparsed : report.reparsed = f.path :: strategy.callers m g
  markedStale : report.markedStale = []
  ordered : (strategy.callers m g).Pairwise (·.before ·)
  distinct : report.reparsed.Pairwise (·.same · = false)
  renewed : ∀ q ∈ report.reparsed, ∃ c c', (e.typed ws p).file? q = some c ∧
    ws'.file? q = some c' ∧ Renewed sources ws' c c'
  spared : ∀ q, report.reparsed.any (·.same q) = false → Spared ws ws' q

variable {sources : Sources} {ws ws₁ ws' : Workspace} {f g : ModuleFile} {p q : Path}
  {reported reported' log log' paths : List Path} {m : Module}

/-! ### Parses that are reported -/

theorem Spreads.refl (sources : Sources) (ws : Workspace) : Spreads sources ws ws [] [] :=
  { Renews.refl sources ws with
    mem_log := fun _ hq => hq
    unparsed := fun _ hq => .inl hq }

theorem Spreads.trans (h : Spreads sources ws ws₁ reported log)
    (h' : Spreads sources ws₁ ws' reported' log') (hk : ws.Keyed) :
    Spreads sources ws ws' (reported ++ reported') (log ++ log') where
  toRenews := h.toRenews.trans h'.toRenews hk
  mem_log q hq := by
    rw [List.any_append, Bool.or_eq_true] at hq ⊢
    exact hq.imp (h.mem_log q) (h'.mem_log q)
  unparsed q hq := by
    rw [List.any_append, Bool.or_eq_true] at hq ⊢
    rcases hq with hq | hq
    · exact (h.unparsed q hq).imp_left .inl
    · exact (h'.unparsed q hq).imp .inr fun hnone hmodule => hnone (h.modules q hmodule)

/-- The parse of a file is reported under its path. -/
theorem Parses.spreads (run : Parses sources [] f ws m ws' log) (ha : Arises ws)
    (hf : ws.Live f) : Spreads sources ws ws' [f.path] log where
  toRenews := run.renews ha hf
  mem_log q hq := List.any_eq_true.2 ⟨f.path, run.mem_log, by simpa using hq⟩
  unparsed q hq := by
    obtain ⟨r, hr, hs⟩ := List.any_eq_true.1 hq
    rcases run.unparsed_of_mem ha hr with rfl | hnone
    · exact .inl (by simpa using hs)
    · exact .inr fun hmodule => hnone ((HasModule.congr hs).2 hmodule)

/-- A parse gives the module of the source. -/
theorem Parses.module_eq (run : Parses sources [] f ws m ws' log) :
    m = f.content sources ws.faults := by
  cases run with
  | intro run => rw [builtModule, ModuleFile.fst_outcome, faults_eq_of_skeleton run.skeleton]

theorem Arises.spreads_parse (ha : Arises ws) (sources : Sources) (hf : ws.Live f) :
    ∃ log, Spreads sources ws (ws.parse sources f).2 [f.path] log := by
  obtain ⟨log, run⟩ := parses_parse sources ha.keyed f
  exact ⟨log, run.spreads ha hf⟩

/-- The parses of files that are there are reported one by one, in order, and touch no other file
that has a module. -/
theorem Arises.spreads_parseAll (ha : Arises ws) (sources : Sources)
    (hpaths : ∀ p ∈ paths, (ws.file? p).isSome = true) :
    (ws.parseAll sources paths).1 = paths ∧
      ∃ log, Spreads sources ws (ws.parseAll sources paths).2 paths log := by
  induction paths generalizing ws with
  | nil => exact ⟨rfl, [], .refl sources ws⟩
  | cons p paths ih =>
    obtain ⟨hp, hpaths⟩ := List.forall_mem_cons.1 hpaths
    obtain ⟨f, hf⟩ := Option.isSome_iff_exists.1 hp
    have hlive := ha.keyed.live hf
    obtain ⟨log, hparse⟩ := ha.spreads_parse sources hlive
    have hthere : ∀ q ∈ paths, ((ws.parse sources f).2.file? q).isSome = true := fun q hq => by
      obtain ⟨g, hg⟩ := Option.isSome_iff_exists.1 (hpaths q hq)
      obtain ⟨g', hg', -⟩ := exists_file_of_skeleton hparse.skeleton hg
      rw [hg', Option.isSome_some]
    obtain ⟨hdone, log', hrest⟩ :=
      ih (ha.moves (moves_parse sources ha.keyed hlive)) hthere
    have hboth := hparse.trans hrest ha.keyed
    simp only [parseAll, hf, hdone, true_and]
    -- the file is reported under the path that was listed, which may be spelled otherwise
    have hsame (q : Path) : f.path.same q = p.same q := Path.same_congr_left (ha.keyed p f hf) q
    refine ⟨log ++ log', hboth.toRenews, fun q hq => hboth.mem_log q ?_, fun q hq => ?_⟩
    · simpa [hsame] using hq
    · simpa [hsame] using hboth.unparsed q hq

/-! ### Callers -/

/-- The callers of a file are there, and the file is not among them. -/
theorem Linked.callers (hl : ws.Linked) (hp : ws.file? p = some f) :
    ∀ q ∈ f.incoming.toList, (ws.file? q).isSome = true ∧ p.same q = false := by
  intro q hq
  have hcalls : ws.Calls q p := (hl.symmetric q p).2
    ((calledBy_iff hp).2 (List.any_eq_true.2 ⟨q, hq, Path.same_refl q⟩))
  obtain ⟨g, hg, -⟩ := id hcalls
  refine ⟨by rw [hg, Option.isSome_some], Bool.eq_false_iff.2 fun hs => ?_⟩
  exact hl.irreflexive p ((Calls.congr_left hs).2 hcalls)

/-- A new parse of a file reports the file and the callers that it has right after its parse. -/
theorem Arises.spreads_reparse (ha : Arises ws) (sources : Sources) (hf : ws.Live f)
    (strategy : ParseStrategy) (hg : (ws.parse sources f).2.file? f.path = some g) :
    (ws.reparse sources f strategy).1 =
        { reparsed := f.path :: strategy.callers (ws.parse sources f).1 g } ∧
      ∃ log, Spreads sources ws (ws.reparse sources f strategy).2
        (f.path :: strategy.callers (ws.parse sources f).1 g) log := by
  obtain ⟨log, hparse⟩ := ha.spreads_parse sources hf
  have ha' : Arises (ws.parse sources f).2 := ha.moves (moves_parse sources ha.keyed hf)
  rw [reparse]
  dsimp only
  split
  · rename_i hcallers
    obtain ⟨hdone, log', hrest⟩ := ha'.spreads_parseAll sources
      fun q hq => (ha'.linked.callers hg q hq).1
    simp only [reparseCallers, hg, ParseStrategy.callers, if_pos hcallers, hdone]
    exact ⟨rfl, log ++ log', hparse.trans hrest ha.keyed⟩
  · rename_i hcallers
    simp only [ParseStrategy.callers, if_neg hcallers]
    exact ⟨trivial, log, hparse⟩

/-- A file that is not reported is spared. -/
theorem Spreads.spared (h : Spreads sources ws ws' reported log) (ha : Arises ws)
    (ha' : Arises ws') (hq : reported.any (·.same q) = false) : Spared ws ws' q := by
  refine ⟨fun c m hc hm => ?_, fun c hc hnone => ?_⟩
  · have hlog : log.any (·.same q) = false := by
      refine Bool.eq_false_iff.2 fun hlog => ?_
      rcases h.unparsed q hlog with hreported | hnone
      · simp [hq] at hreported
      · exact hnone ⟨c, m, hc, hm⟩
    have hkept := h.others q hlog
    obtain ⟨c', hc', ho⟩ := hkept.exists_file hc
    refine ⟨⟨c', hc', ModuleFile.eq_of_own ho⟩, hkept.waits, fun name => ?_⟩
    rw [← ha.mirrored, ← ha'.mirrored, hkept.waits]
  · cases hlog : log.any (·.same q) with
    | true =>
      obtain ⟨c₀, c', -, hc', hrenewed⟩ := h.renewed q hlog
      exact ⟨c', hc', .inr ⟨_, hrenewed.state⟩⟩
    | false =>
      obtain ⟨c', hc', ho⟩ := (h.others q hlog).exists_file hc
      exact ⟨c', hc', .inl (congrArg (·.state) ho)⟩

/-! ### Edits -/

section Edit

variable (ha : Arises ws) (hp : ws.file? p = some f) (e : TextEdit)

include ha

theorem Arises.typed (p : Path) : Arises (e.typed ws p) :=
  ha.move (e.move_typed (fun _ => .error .notFound) ws p)

include hp

/-- An edit parses the file with its new text, and then the callers that it has after that. -/
theorem Arises.spreads_edit (sources : Sources) (strategy : ParseStrategy) :
    ∃ g log, ((e.typed ws p).parse sources (e.apply f)).2.file? f.path = some g ∧
      (e.run sources ws p strategy).1 =
        { reparsed := f.path :: strategy.callers ((e.typed ws p).parse sources (e.apply f)).1 g } ∧
      Spreads sources (e.typed ws p) (e.run sources ws p strategy).2
        (f.path :: strategy.callers ((e.typed ws p).parse sources (e.apply f)).1 g) log := by
  have hlive := e.live_typed ha.keyed hp
  obtain ⟨log₁, hparse⟩ := (ha.typed e p).spreads_parse sources hlive
  obtain ⟨g, hg, -⟩ := exists_file_of_skeleton hparse.skeleton hlive
  obtain ⟨hreport, log, hspreads⟩ := (ha.typed e p).spreads_reparse sources hlive strategy hg
  rw [e.run_eq sources strategy hp]
  exact ⟨g, log, hg, hreport, hspreads⟩

end Edit

/-- A change or a save reports the file, followed by the callers that the file has right after its
own parse if the strategy asks for them and the new module shapes its callers. The callers of the
callers are not parsed, and parses on the way touch only files without a module. -/
theorem Reachable.edit_report (h : Reachable ws) (sources : Sources) (hp : ws.file? p = some f)
    (e : TextEdit) (strategy : ParseStrategy) :
    ∃ g m, Propagated sources ws p e strategy f g m (e.run sources ws p strategy).1
      (e.run sources ws p strategy).2 := by
  have ha := h.arises
  have hsame := ha.keyed p f hp
  have htyped := ha.typed e p
  obtain ⟨g, log, hg, hreport, hspreads⟩ := ha.spreads_edit hp e sources strategy
  obtain ⟨log₁, run⟩ := parses_parse sources htyped.keyed (e.apply f)
  have hcallers := (htyped.moves
    (run.moves htyped.keyed (e.live_typed ha.keyed hp))).linked.callers hg
  rw [hreport]
  refine ⟨g, _, rfl, ?_, ?_, rfl, rfl, ParseStrategy.ordered_callers .., ?_, fun q hq => ?_,
    fun q hq => ?_⟩
  · rw [run.module_eq]
    exact ModuleFile.type_content ..
  · rw [← file?_congr _ hsame]
    exact hg
  · refine List.pairwise_cons.2 ⟨fun q hq => ?_, ?_⟩
    · exact (hcallers q (ParseStrategy.callers_subset _ _ _ hq)).2
    · exact (ParseStrategy.ordered_callers ..).imp Path.same_of_before
  · exact hspreads.renewed q (hspreads.mem_log q (List.any_eq_true.2 ⟨q, hq, Path.same_refl q⟩))
  · have hother : p.same q = false := by
      rw [← Path.same_congr_left hsame]
      exact (Bool.or_eq_false_iff.1 (List.any_cons ▸ hq)).1
    have hspared := hspreads.spared htyped (e.reachable_run h sources p strategy).arises hq
    exact ⟨fun c m hc => hspared.kept c m ((e.file?_typed hother).trans hc),
      fun c hc => hspared.parsed c ((e.file?_typed hother).trans hc)⟩

end Workspace

/-- A subprogram of the small project gets parameters. -/
def Sample.widened : TextEdit := .change "DEFINE DATA PARAMETER USING P END-DEFINE"

namespace Workspace

/-- In the small project the subprogram gets parameters, and so the subprogram that calls it is
parsed as well. -/
theorem Reachable.edit_report_sample :
    Reachable Sample.workspace ∧ (∃ f, Sample.workspace.file? Sample.caller = some f ∧
      ∃ g m, Propagated Sample.texts Sample.workspace Sample.caller Sample.widened .withCallers
        f g m
        (Sample.widened.run Sample.texts Sample.workspace Sample.caller .withCallers).1
        (Sample.widened.run Sample.texts Sample.workspace Sample.caller .withCallers).2) ∧
      (Sample.widened.run Sample.texts Sample.workspace Sample.caller
        .withCallers).1.reparsed = [Sample.caller, Sample.callee] := by
  obtain ⟨f, hf⟩ := Sample.exists_caller
  exact ⟨Sample.reachable, ⟨f, hf, edit_report Sample.reachable Sample.texts hf Sample.widened
    .withCallers⟩, by decide +kernel⟩

end Workspace

end Steplib
