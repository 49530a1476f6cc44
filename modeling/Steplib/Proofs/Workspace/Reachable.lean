import Steplib.Proofs.Workspace.Moves
import Steplib.Workspace.References

/-!
# Reachable workspaces

A workspace is reachable when it comes from a workspace without files by operations taken one
after the other, each with its own texts on disk. Every operation is a sequence of moves, so every
reachable workspace arises from moves. An operation by which no file comes or goes is made of
readings, with at most an edit before them.

## Main definitions

* `Operation`, `Operation.run`: the operations of a workspace.
* `Workspace.Reachable`: the workspaces that operations lead to.
* `Workspace.ReachableBy`: the workspaces that allowed operations lead to.
* `Sample.workspace`: a small project in which files call each other.

## Main results

* `Workspace.revises_run`: most operations are made of readings and edits.
* `Workspace.moves_run`: every operation is a sequence of moves.
* `Workspace.Reachable.arises`: every reachable workspace arises from moves.
-/

namespace Steplib

/-- An operation on a workspace. -/
inductive Operation
  | addFile (p : Path)
  | createFile (p : Path)
  | indexPath (p : Path)
  | indexAll (cancelled : Bool)
  | openFile (p : Path)
  | readModule (p : Path)
  | change (p : Path) (source : String) (strategy : ParseStrategy)
  | save (p : Path) (strategy : ParseStrategy)
  | closeFile (p : Path)
  | markStale (p : Path)
  | reparseCallers (p : Path)
  | publish (p : Path) (tool : Tool) (ds : List Diagnostic)
  | deleteFile (p : Path)
  | renameFile (p new : Path)
  | goto (p : Path) (position : Position)
  | references (p : Path)
  | prepareRename (p : Path)

/-- The workspace after an operation. -/
def Operation.run (sources : Sources) (ws : Workspace) : Operation → Workspace
  | addFile p => (ws.addFile p).2
  | createFile p => (ws.createFile sources p).2.2
  | indexPath p => (ws.indexPath sources p).2
  | indexAll cancelled => (ws.indexAll sources cancelled).1
  | openFile p => (ws.openFile sources p).2
  | readModule p => (ws.readModule sources p).2
  | change p source strategy => (ws.change sources p source strategy).2
  | save p strategy => (ws.save sources p strategy).2
  | closeFile p => (ws.closeFile p).2
  | markStale p => (ws.markStale p).2
  | reparseCallers p => (ws.reparseCallers sources p).2
  | publish p tool ds => (ws.publish p tool ds).2
  | deleteFile p => (ws.deleteFile p).2
  | renameFile p new => (ws.renameFile sources p new).2
  | goto p position => (ws.goto sources p position).2
  -- looking references up changes nothing
  | references _ => ws
  | prepareRename p => (ws.prepareRename sources p).2

/-- No file comes or goes by the operation. -/
def Operation.staysPut : Operation → Bool
  | addFile _ | createFile _ | deleteFile _ | renameFile _ _ => false
  | _ => true

namespace Workspace

/-- The workspaces that operations lead to. What is on disk can change between operations. -/
inductive Reachable : Workspace → Prop
  | fresh (root faults severity libraries) : Reachable (.fresh root faults severity libraries)
  | run {ws : Workspace} (h : Reachable ws) (sources : Sources) (op : Operation) :
      Reachable (op.run sources ws)

/-- The workspaces that operations lead to which are allowed where they are taken. -/
inductive ReachableBy (allowed : Sources → Workspace → Operation → Prop) : Workspace → Prop
  | fresh (root faults severity libraries) :
      ReachableBy allowed (.fresh root faults severity libraries)
  | run {ws : Workspace} (h : ReachableBy allowed ws) (sources : Sources) (op : Operation)
      (hop : allowed sources ws op) : ReachableBy allowed (op.run sources ws)

theorem ReachableBy.reachable {allowed : Sources → Workspace → Operation → Prop} {ws : Workspace}
    (h : ReachableBy allowed ws) : Reachable ws := by
  induction h with
  | fresh => exact .fresh ..
  | run _ sources op _ ih => exact ih.run sources op

variable {ws : Workspace} {f : ModuleFile} {p : Path}

/-! ### Every operation is a sequence of moves -/

theorem readings_parseAll (sources : Sources) (hk : ws.Keyed) (paths : List Path) :
    Readings sources ws (ws.parseAll sources paths).2 := by
  induction paths generalizing ws with
  | nil => exact .refl
  | cons p paths ih =>
    rw [parseAll]
    cases hp : ws.file? p with
    | none => exact ih hk
    | some f =>
      have hparse := readings_parse sources hk (hk.live hp)
      exact hparse.trans (ih (hparse.moves.keyed hk))

theorem readings_reparseCallers (sources : Sources) (hk : ws.Keyed) (p : Path) :
    Readings sources ws (ws.reparseCallers sources p).2 := by
  rw [reparseCallers]
  cases ws.file? p with
  | none => exact .refl
  | some f => exact readings_parseAll sources hk f.incoming.toList

theorem readings_reparse (sources : Sources) (hk : ws.Keyed) (hf : ws.Live f)
    (strategy : ParseStrategy) : Readings sources ws (ws.reparse sources f strategy).2 := by
  have hparse := readings_parse sources hk hf
  rw [reparse]
  dsimp only
  split
  · exact hparse.trans (readings_reparseCallers sources (hparse.moves.keyed hk) f.path)
  · exact hparse

/-- The file with another unsaved text is live once the text has been set. -/
theorem Keyed.live_overlay (hk : ws.Keyed) (hp : ws.file? p = some f) (overlay : Option String) :
    (ws.modifyFile p (Edit.overlay overlay).apply).Live { f with overlay } := by
  have hs := hk p f hp
  have hf : ws.file? f.path = some f := hk.live hp
  rw [Live, file?_modifyFile, if_pos (by rw [Path.same_comm]; exact hs), hf]
  rfl

/-- Readings, with an edit of one file in place before them or not. -/
def Revises (sources : Sources) (ws ws' : Workspace) : Prop :=
  Readings sources ws ws' ∨ ∃ p, ∃ e : Edit, Readings sources (ws.modifyFile p e.apply) ws'

theorem Revises.moves {ws' : Workspace} {sources : Sources} (h : Revises sources ws ws') :
    Moves sources ws ws' := by
  obtain h | ⟨p, e, h⟩ := h
  · exact h.moves
  · exact .head (.edit ws p e) h.moves

theorem revises_edit (sources : Sources) (ws : Workspace) (p : Path) (e : Edit) :
    Revises sources ws (ws.modifyFile p e.apply) :=
  .inr ⟨p, e, .refl⟩

theorem revises_setOverlay (sources : Sources) (hk : ws.Keyed) (p : Path)
    (overlay : Option String) (strategy : ParseStrategy) :
    Revises sources ws (ws.setOverlay sources p overlay strategy).2 := by
  rw [setOverlay]
  cases hp : ws.file? p with
  | none => exact .inl .refl
  | some f =>
    have hedit : Move sources ws (ws.modifyFile p (Edit.overlay overlay).apply) := .edit ..
    exact .inr ⟨p, .overlay overlay,
      readings_reparse sources (hedit.keyed hk) (hk.live_overlay hp overlay) strategy⟩

theorem readings_openFile (sources : Sources) (hk : ws.Keyed) (p : Path) :
    Readings sources ws (ws.openFile sources p).2 := by
  rw [openFile]
  cases hp : ws.file? p with
  | none => exact .refl
  | some f =>
    dsimp only
    split
    · exact .refl
    · exact .refl
    · exact readings_parse sources hk (hk.live hp)

theorem readings_readModule (sources : Sources) (hk : ws.Keyed) (p : Path) :
    Readings sources ws (ws.readModule sources p).2 := by
  rw [readModule]
  cases hp : ws.file? p with
  | none => exact .refl
  | some f =>
    dsimp only
    split
    · exact .refl
    · exact .refl
    · exact .refl
    · exact readings_parse sources hk (hk.live hp)

theorem readings_wake (sources : Sources) (hk : ws.Keyed) (hf : ws.Live f) :
    Readings sources ws (ws.wake sources f).2 := by
  rw [wake]
  split
  · exact readings_parse sources hk hf
  · exact readings_parse sources hk hf
  · exact readings_indexFile sources hk hf
  · exact readings_indexFile sources hk hf
  · exact .refl

theorem moves_wake (sources : Sources) (hk : ws.Keyed) (hf : ws.Live f) :
    Moves sources ws (ws.wake sources f).2 :=
  (readings_wake sources hk hf).moves

theorem readings_wakeAll (sources : Sources) (hk : ws.Keyed) (self : Path) (paths : List Path) :
    Readings sources ws (ws.wakeAll sources self paths).2 := by
  induction paths generalizing ws with
  | nil => exact .refl
  | cons p paths ih =>
    rw [wakeAll]
    cases hs : p.same self with
    | true => exact ih hk
    | false =>
      cases hp : ws.file? p with
      | none => simpa [hp] using ih hk
      | some f =>
        have hwake := readings_wake sources hk (hk.live hp)
        exact hwake.trans (ih (hwake.moves.keyed hk))

theorem moves_wakeAll (sources : Sources) (hk : ws.Keyed) (self : Path) (paths : List Path) :
    Moves sources ws (ws.wakeAll sources self paths).2 :=
  (readings_wakeAll sources hk self paths).moves

theorem moves_resolveWaiting (sources : Sources) (hk : ws.Keyed) (p : Path) :
    Moves sources ws (ws.resolveWaiting sources p).2 := by
  rw [resolveWaiting]
  cases ws.file? p with
  | none => exact .refl
  | some f =>
    have htake : Move sources ws { ws with waiting := (ws.waiting.take f.name).2 } := .take ..
    exact .head htake (moves_wakeAll sources (htake.keyed hk) _ _)

/-- The file that was added or found is live. -/
theorem live_addFile (hk : ws.Keyed) (h : (ws.addFile p).1 = some f) :
    (ws.addFile p).2.Live f := by
  rcases ws.addFile_cases p with ⟨hws, hold⟩ | ⟨file, hnew, -, hadd⟩
  · rw [hws]
    exact hk.live (hold f h)
  · rw [hadd] at h ⊢
    obtain rfl := Option.some.inj h
    rw [Live, file?_insert, path_newFile? hnew]
    simp

theorem moves_createFile (sources : Sources) (hk : ws.Keyed) (p : Path) :
    Moves sources ws (ws.createFile sources p).2.2 := by
  have hadd : Move sources ws (ws.addFile p).2 := .add ws p
  rw [createFile]
  split
  · rename_i ws₁ h
    rw [h] at hadd
    exact .single hadd
  · rename_i file ws₁ h
    have hlive := live_addFile (f := file) (p := p) hk (by rw [h])
    rw [h] at hadd hlive
    have hk₁ := hadd.keyed hk
    have hindex := (readings_indexFile sources hk₁ hlive).moves
    exact .head hadd (hindex.trans (moves_resolveWaiting sources (hindex.keyed hk₁) file.path))

/-- An operation by which no file comes or goes is made of readings and edits. -/
theorem revises_run (sources : Sources) (hk : ws.Keyed) {op : Operation}
    (hop : op.staysPut = true) : Revises sources ws (op.run sources ws) := by
  cases op with
  | addFile p => simp [Operation.staysPut] at hop
  | createFile p => simp [Operation.staysPut] at hop
  | deleteFile p => simp [Operation.staysPut] at hop
  | renameFile p new => simp [Operation.staysPut] at hop
  | indexPath p =>
    simp only [Operation.run, indexPath]
    cases hp : ws.file? p with
    | none => exact .inl .refl
    | some f => exact .inl (readings_indexFile sources hk (hk.live hp))
  | indexAll cancelled => exact .inl (readings_indexAll sources hk cancelled)
  | openFile p => exact .inl (readings_openFile sources hk p)
  | readModule p => exact .inl (readings_readModule sources hk p)
  | change p source strategy => exact revises_setOverlay sources hk p (some source) strategy
  | save p strategy => exact revises_setOverlay sources hk p none strategy
  | closeFile p =>
    simp only [Operation.run, closeFile]
    cases ws.file? p with
    | none => exact .inl .refl
    | some f => exact revises_edit sources ws p .close
  | markStale p =>
    simp only [Operation.run, markStale]
    cases ws.file? p with
    | none => exact .inl .refl
    | some f => exact revises_edit sources ws p .markStale
  | reparseCallers p => exact .inl (readings_reparseCallers sources hk p)
  | publish p tool ds =>
    simp only [Operation.run, publish]
    cases ws.file? p with
    | none => exact .inl .refl
    | some f => exact revises_edit sources ws p (.publish tool ds)
  | goto p position =>
    simp only [Operation.run, goto]
    cases ws.file? p with
    | none => exact .inl .refl
    | some f => exact .inl (readings_readModule sources hk p)
  | references p => exact .inl .refl
  | prepareRename p =>
    simp only [Operation.run, prepareRename]
    cases ws.file? p with
    | none => exact .inl .refl
    | some f => exact .inl (readings_reparseCallers sources hk p)

/-- Every operation is a sequence of moves. -/
theorem moves_run (sources : Sources) (hk : ws.Keyed) (op : Operation) :
    Moves sources ws (op.run sources ws) := by
  cases op with
  | addFile p => exact .single (.add ws p)
  | createFile p => exact moves_createFile sources hk p
  | deleteFile p => exact .single (.delete ws p)
  | renameFile p new =>
    have hdelete : Move sources ws (ws.deleteFile p).2 := .delete ws p
    exact .head hdelete (moves_createFile sources (hdelete.keyed hk) new)
  | _ => exact (revises_run sources hk rfl).moves

/-- Every reachable workspace arises from moves. -/
theorem Reachable.arises (h : Reachable ws) : Arises ws := by
  induction h with
  | fresh => exact .fresh ..
  | run _ sources op ih => exact ih.moves (moves_run sources ih.keyed op)

end Workspace

/-! ### A small project -/

namespace Sample

/-- The subprogram `A` calls `B`, itself and a module that is not there; `B` calls `A`. -/
def texts : Sources := fun p =>
  match p.text with
  | "L/A.NSN" => .ok "CALLNAT 'B' CALLNAT 'A' CALLNAT 'C'"
  | "L/B.NSN" => .ok "CALLNAT 'A'"
  | _ => .error .notFound

def caller : Path := .ofText "L/A.NSN"

def callee : Path := .ofText "L/B.NSN"

/-- A workspace with one library, in which both subprograms were created. -/
def workspace : Workspace :=
  (Operation.createFile callee).run texts <| (Operation.createFile caller).run texts <|
    .fresh (.ofText "") {} { root := .ofText "" } [("L", .ofText "L", [])]

theorem reachable : workspace.Reachable :=
  .run (.run (.fresh ..) _ _) _ _

theorem exists_caller : ∃ f, workspace.file? caller = some f :=
  Option.isSome_iff_exists.1 (by decide +kernel)

end Sample

end Steplib
