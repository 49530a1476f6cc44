import Steplib.Proofs.Workspace.Moves

/-!
# The states of live files

A file that is part of the project is never marked as deleted, and no placeholder is ever kept as
the module of a file.

## Main definitions

* `ModuleState.Settled`: a state that a live file can be in.

## Main results

* `Workspace.Arises.settled`: every live file is in such a state.
-/

namespace Steplib

/-- A live file can be in this state: it is not marked as deleted, and its module is no
placeholder. -/
def ModuleState.Settled (s : ModuleState) : Prop :=
  s ≠ .deleted ∧ ∀ m, s.module? = some m → m.pending = false

namespace Workspace

variable {sources : Sources} {ws ws' : Workspace} {f g : ModuleFile} {p : Path}

theorem settled_parsed {m : Module} (h : m.pending = false) :
    (ModuleState.parsed m).Settled :=
  ⟨by simp, fun _ hm => Option.some.inj hm ▸ h⟩

theorem settled_markStale (h : f.state.Settled) : f.markStale.1.state.Settled := by
  unfold ModuleFile.markStale
  split
  · rename_i m hm
    exact ⟨by simp, fun m' hm' => h.2 m' (by rw [hm]; exact hm')⟩
  · exact h

theorem settled_edit (e : Edit) (h : f.state.Settled) : (e.apply f).state.Settled := by
  cases e with
  | overlay text => exact h
  | publish tool ds => exact h
  | markStale => exact settled_markStale h
  | close =>
    simp only [Edit.apply, ModuleFile.close]
    split
    · exact ⟨by simp, by simp [ModuleState.module?]⟩
    · exact h

theorem settled_released (p : Path) (f : ModuleFile) (q : Path) (h : g.state.Settled) :
    (released p f q g).state.Settled := by
  unfold released
  split <;> split
  · exact settled_markStale h
  · exact h
  · exact settled_markStale h
  · exact h

/-- Indexing leaves the states of all files alone. -/
theorem settled_of_unlinked (hu : (ws'.file? p).map unlinked = (ws.file? p).map unlinked)
    (h : ∀ f, ws.file? p = some f → f.state.Settled) (hg : ws'.file? p = some g) :
    g.state.Settled := by
  rw [hg] at hu
  obtain ⟨g', hg', hb⟩ := Option.map_eq_some_iff.1 hu.symm
  have hstate : g'.state = g.state := congrArg (·.state) hb
  rw [← hstate]
  exact h g' hg'

/-- Moves keep every live file in a settled state. -/
theorem Move.settled (hm : Move sources ws ws')
    (h : ∀ p f, ws.file? p = some f → f.state.Settled) :
    ∀ p f, ws'.file? p = some f → f.state.Settled := by
  intro q g hg
  cases hm with
  | parse f hf find =>
    rw [file?_install hf] at hg
    obtain ⟨g', hg', rfl⟩ := Option.map_eq_some_iff.1 hg
    simp only [rewired]
    split
    · exact settled_parsed (ModuleFile.pending_outcome find)
    · exact h q g' hg'
  | name f s hf hs => exact settled_of_unlinked (unlinked_registerScannedName ws f s q) (h q) hg
  | scan f s hf hs => exact settled_of_unlinked (unlinked_registerScan hf s q) (h q) hg
  | edit p e =>
    rw [file?_modifyFile] at hg
    split at hg
    · obtain ⟨g', hg', rfl⟩ := Option.map_eq_some_iff.1 hg
      exact settled_edit e (h q g' hg')
    · exact h q g hg
  | add p =>
    rcases ws.addFile_cases p with ⟨hws, -⟩ | ⟨file, hnew, -, hadd⟩
    · rw [hws] at hg
      exact h q g hg
    · rw [hadd, file?_insert] at hg
      split at hg
      · obtain ⟨l, -, type, rfl⟩ := newFile?_cases hnew
        obtain rfl := Option.some.inj hg
        exact ⟨by simp, by simp [ModuleState.module?]⟩
      · exact h q g hg
  | take name => exact h q g hg
  | delete p =>
    cases hp : ws.file? p with
    | none =>
      simp only [deleteFile, hp] at hg
      exact h q g hg
    | some f =>
      rw [file?_deleteFile hp] at hg
      split at hg
      · simp at hg
      · obtain ⟨g', hg', rfl⟩ := Option.map_eq_some_iff.1 hg
        exact settled_released p f q (h q g' hg')

/-- No live file is marked as deleted, and none has a placeholder as its module. -/
theorem Arises.settled (h : Arises ws) : ∀ p f, ws.file? p = some f → f.state.Settled := by
  induction h with
  | fresh => exact fun p f hf => by simp at hf
  | move _ hm ih => exact hm.settled ih

end Workspace

end Steplib
