import Steplib.Proofs.Workspace.Events

/-!
# The diagnostics of a file and who wrote them

Each tool has a list of its own for every file. A tool writes its list when it reports on the file;
the list of the parser is also written by every parse of the file, also one on the way to another
file, and emptied when the module is given up. A new file has empty lists. Nothing else writes a
list. So what a file shows is told by the events since it was added: of each tool the list that was
written last.

## Main definitions

* `Event.written?`: what an event writes as the list of a tool.
* `Workspace.lastWritten?`: what was written last.

## Main results

* `Workspace.Happens.diagnostics`: one move writes the lists that its events tell of.
* `Workspace.diagnostics_runAll`: what is shown of a file after a run.
-/

namespace Steplib

/-- What the event writes as the list of a tool for the file at the path, if it writes that
list. -/
def Event.written? (p : Path) (tool : Tool) : Event → Option (List Diagnostic)
  | added q => if q.same p then some [] else none
  | parsed f ds => if f.path.same p ∧ tool = .parser then some ds else none
  | closed q => if q.same p ∧ tool = .parser then some [] else none
  | published q reporter ds => if q.same p ∧ tool = reporter then some ds else none
  | deleted _ | typed _ _ => none

namespace Workspace

/-- The list that was written last for a tool and the file at a path. -/
def lastWritten? (events : List Event) (p : Path) (tool : Tool) : Option (List Diagnostic) :=
  events.reverse.findSome? (·.written? p tool)

variable {sources : Sources} {ws ws₁ ws' start : Workspace} {f f' g : ModuleFile} {p q : Path}
  {events more : List Event} {tool : Tool} {steps : List Step}

theorem lastWritten?_append (events more : List Event) (p : Path) (tool : Tool) :
    lastWritten? (events ++ more) p tool =
      (lastWritten? more p tool).or (lastWritten? events p tool) := by
  simp only [lastWritten?, List.reverse_append, List.findSome?_append]

/-! ### One move -/

/-- Events of other files write no list of the file. -/
theorem lastWritten?_of_others (h : ∀ e ∈ events, e.path.same p = false) (tool : Tool) :
    lastWritten? events p tool = none := by
  refine List.findSome?_eq_none_iff.2 fun e he => ?_
  have hother := h e (List.mem_reverse.1 he)
  cases e <;> simp_all [Event.written?, Event.path]

/-- The list of a tool was written by an event of the move, or the file was there before with the
same list. -/
def Inherits (ws : Workspace) (events : List Event) (p : Path) (tool : Tool) (f' : ModuleFile) :
    Prop :=
  lastWritten? events p tool = some (f'.diagnostics.ofTool tool) ∨
    lastWritten? events p tool = none ∧ ∃ f, ws.file? p = some f ∧
      f.diagnostics.ofTool tool = f'.diagnostics.ofTool tool

/-- Every move writes the lists that its events tell of, and no others. -/
theorem Happens.diagnostics (h : Happens sources ws events ws') (hf' : ws'.file? p = some f')
    (tool : Tool) : Inherits ws events p tool f' := by
  cases h.yields hf' with
  | retained hf hretains hother =>
    exact .inr ⟨lastWritten?_of_others hother tool, _, hf, by rw [hretains.diagnostics]⟩
  | parsed find hs hf _ _ hds =>
    by_cases ht : tool = .parser
    · exact .inl (by simp [lastWritten?, Event.written?, hs, ht, hds, Partition.ofTool_replace])
    · refine .inr ⟨by simp [lastWritten?, Event.written?, ht], _, hf, ?_⟩
      rw [hds, Partition.ofTool_replace, if_neg ht]
  | typed text hs hf => exact .inr ⟨rfl, _, hf, rfl⟩
  | published reporter ds hs hf =>
    by_cases ht : tool = reporter
    · exact .inl (by simp [lastWritten?, Event.written?, hs, ht, Partition.ofTool_replace])
    · exact .inr ⟨by simp [lastWritten?, Event.written?, ht], _, hf,
        by simp [Partition.ofTool_replace, ht]⟩
  | closed hs hf =>
    by_cases ht : tool = .parser
    · exact .inl (by simp [lastWritten?, Event.written?, hs, ht, Partition.ofTool_clear])
    · exact .inr ⟨by simp [lastWritten?, Event.written?, ht], _, hf,
        by simp [Partition.ofTool_clear, ht]⟩
  | added hs hnew =>
    obtain ⟨l, -, type, rfl⟩ := newFile?_cases hnew
    have hnone : Partition.ofTool {} tool = [] := Partition.ofTool_empty tool
    exact .inl (by simp [lastWritten?, Event.written?, hs, hnone])

/-! ### Many moves -/

/-- A list that was not written later is the one that was there before. -/
theorem Inherits.after (h : Inherits ws₁ more p tool f')
    (h₁ : ∀ f, ws₁.file? p = some f → Inherits ws events p tool f) :
    Inherits ws (events ++ more) p tool f' := by
  rw [Inherits, lastWritten?_append]
  rcases h with hlater | ⟨hnone, f, hf, heq⟩
  · exact .inl (by rw [hlater]; rfl)
  · rw [hnone, Option.none_or, ← heq]
    exact h₁ f hf

theorem Unfolds.diagnostics (h : Unfolds sources ws events ws') (hf' : ws'.file? p = some f')
    (tool : Tool) : Inherits ws events p tool f' := by
  induction h with
  | refl => exact .inr ⟨rfl, f', hf', rfl⟩
  | next hfirst _ ih => exact (ih hf').after fun f hf => hfirst.diagnostics hf tool

theorem History.diagnostics (h : History start steps events ws') (hf' : ws'.file? p = some f')
    (tool : Tool) : Inherits start events p tool f' := by
  induction h generalizing f' with
  | nil => exact .inr ⟨rfl, f', hf', rfl⟩
  | step _ sources op more hunfolds _ ih => exact (hunfolds.diagnostics hf' tool).after fun f => ih

/-- After a run from a workspace without files, what is shown of a file is the list that each tool
has written last, in the order of the tools, as far as the rules of the project do not suppress it.
Nothing but the severity of a diagnostic is changed; the rule is the one for its code and for the
file of its cause. The events of the run say who writes a list: a report of the tool, and for the
parser also a parse of the file or the end of its module. -/
theorem diagnostics_runAll (root : Path) (faults : ParserFaults) (severity : SeverityRules)
    (libraries : List (String × Path × List String)) (steps : List Step) :
    let start := fresh root faults severity libraries
    ∃ events, History start steps events (start.runAll steps) ∧
      ∀ p f, (start.runAll steps).file? p = some f →
        (∀ tool, lastWritten? events p tool = some (f.diagnostics.ofTool tool)) ∧
        (start.runAll steps).diagnostics p =
          ([Tool.parser, .linter, .testRunner, .catalog].flatMap fun tool =>
            (lastWritten? events p tool).getD []).filterMap fun d =>
              match severity.lookup d.code ((d.cause.map (·.file)).getD d.file) with
              | some .suppress => none
              | some (.setTo s) => some { d with severity := s }
              | none => some d := by
  intro start
  obtain ⟨events, hhistory⟩ := exists_history (.fresh root faults severity libraries) steps
  have hseverity : (start.runAll steps).severity = severity := hhistory.rules.2
  refine ⟨events, hhistory, fun p f hf => ?_⟩
  have hlast (tool : Tool) : lastWritten? events p tool = some (f.diagnostics.ofTool tool) := by
    refine (hhistory.diagnostics hf tool).resolve_right ?_
    rintro ⟨-, f₀, hf₀, -⟩
    simp at hf₀
  refine ⟨hlast, ?_⟩
  simp only [Workspace.diagnostics, hf, hseverity, hlast, Option.getD_some]
  rfl

end Workspace

end Steplib
