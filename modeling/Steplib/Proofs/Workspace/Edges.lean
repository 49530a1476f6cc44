import Steplib.Proofs.Workspace.Names

/-!
# The two ends of an edge

A reference from one file to another is recorded at both files. The two records agree in every
reachable workspace: a file lists another one among the files it refers to exactly when that one
lists it among its callers. So both ends of every edge are live, and no file refers to itself.

## Main definitions

* `Workspace.Calls`, `Workspace.CalledBy`: an edge as it is recorded at its start and at its end.
* `Workspace.Linked`: the two records agree.

## Main results

* `Workspace.Linked.rewire`: replacing the references of a file keeps the records in agreement.
* `Workspace.Reachable.edges_symmetric`: the two records agree in every reachable workspace.
-/

namespace Steplib

namespace Workspace

/-- The file at `p` lists `q` among the files it refers to. -/
def Calls (ws : Workspace) (p q : Path) : Prop :=
  ∃ f, ws.file? p = some f ∧ f.outgoing.contains q = true

/-- The file at `q` lists `p` among the files that refer to it. -/
def CalledBy (ws : Workspace) (q p : Path) : Prop :=
  ∃ g, ws.file? q = some g ∧ g.incoming.contains p = true

/-- Every edge is recorded at both of its ends, and no file refers to itself. -/
structure Linked (ws : Workspace) : Prop where
  symmetric : ∀ p q, ws.Calls p q ↔ ws.CalledBy q p
  irreflexive : ∀ p, ¬ ws.Calls p p

variable {sources : Sources} {ws ws' : Workspace} {f g : ModuleFile} {p q : Path}

theorem calls_iff (hf : ws.file? p = some f) : ws.Calls p q ↔ f.outgoing.contains q = true := by
  simp [Calls, hf]

theorem calledBy_iff (hg : ws.file? q = some g) :
    ws.CalledBy q p ↔ g.incoming.contains p = true := by
  simp [CalledBy, hg]

theorem Calls.congr_left {r : Path} (h : p.same r = true) : ws.Calls p q ↔ ws.Calls r q := by
  rw [Calls, Calls, ws.file?_congr h]

/-! ### Moves that touch no edge -/

/-- The edges of a file, as they are recorded at the file. -/
def edges (f : ModuleFile) : PathSet × PathSet :=
  (f.outgoing, f.incoming)

/-- The records stay in agreement as long as no file's edges change. -/
theorem Linked.of_edges (hl : ws.Linked)
    (h : ∀ p, (ws'.file? p).map edges = (ws.file? p).map edges) : ws'.Linked := by
  have hcalls : ∀ p q, ws'.Calls p q ↔ ws.Calls p q := fun p q => by
    have hp := h p
    cases hf : ws.file? p <;> cases hf' : ws'.file? p <;>
      simp_all [Calls, edges]
  have hcalled : ∀ q p, ws'.CalledBy q p ↔ ws.CalledBy q p := fun q p => by
    have hq := h q
    cases hf : ws.file? q <;> cases hf' : ws'.file? q <;>
      simp_all [CalledBy, edges]
  refine ⟨fun p q => ?_, fun p => ?_⟩
  · rw [hcalls, hcalled]
    exact hl.symmetric p q
  · rw [hcalls]
    exact hl.irreflexive p

theorem edges_edit (e : Edit) (f : ModuleFile) : edges (e.apply f) = edges f := by
  cases e with
  | overlay text => rfl
  | publish tool ds => rfl
  | close =>
    simp only [Edit.apply, ModuleFile.close]
    split <;> rfl
  | markStale =>
    simp only [Edit.apply, ModuleFile.markStale]
    split <;> rfl

/-- A change of a file that keeps its edges keeps the records in agreement. -/
theorem Linked.modifyFile (hl : ws.Linked) (p : Path) {change : ModuleFile → ModuleFile}
    (hc : ∀ f, edges (change f) = edges f) : (ws.modifyFile p change).Linked := by
  refine hl.of_edges fun q => ?_
  rw [file?_modifyFile]
  split
  · rw [Option.map_map]
    exact congrArg (Option.map · (ws.file? q)) (funext hc)
  · rfl

theorem Linked.registerScannedName (hl : ws.Linked) (f : ModuleFile) (s : Scan) :
    (ws.registerScannedName f s).Linked := by
  rw [Workspace.registerScannedName]
  split
  · have hc : (ws.claimName f.library f.name (f.scannedName s) { path := f.path }).Linked :=
      hl.of_edges fun _ => rfl
    exact hc.modifyFile f.path fun _ => rfl
  · exact hl

/-! ### Replacing the references of a file -/

/-- The workspace `ws'` is `ws` with the references of `f` replaced by `targets`, up to what is
known of each file besides its edges. -/
def Rewired (ws : Workspace) (f : ModuleFile) (targets : PathSet) (ws' : Workspace) : Prop :=
  ∀ q, (ws'.file? q).map edges =
    (ws.file? q).map fun g => edges (rewired f.path f.outgoing targets q g)

theorem Rewired.calls_iff {targets : PathSet} (h : Rewired ws f targets ws') (hf : ws.Live f) :
    ws'.Calls p q ↔ if p.same f.path then targets.contains q = true else ws.Calls p q := by
  have hp := h p
  cases hs : p.same f.path with
  | true =>
    rw [ws.file?_congr hs, hf] at hp
    obtain ⟨f', hf', he⟩ := Option.map_eq_some_iff.1 hp
    have hout : f'.outgoing = targets := by
      have := congrArg Prod.fst he
      simpa [edges, rewired, hs] using this
    rw [Workspace.calls_iff hf', hout]
    simp
  | false =>
    cases hg : ws.file? p with
    | none => simp_all [Calls]
    | some g =>
      rw [hg] at hp
      obtain ⟨g', hg', he⟩ := Option.map_eq_some_iff.1 hp
      have hout : g'.outgoing = g.outgoing := by
        have := congrArg Prod.fst he
        simpa [edges, rewired, hs] using this
      rw [Workspace.calls_iff hg', hout, ← Workspace.calls_iff hg]
      simp

/-- Who is recorded as a caller after the references of a file have been replaced: the file
itself exactly at its new targets, and everyone else as before. -/
theorem Rewired.calledBy_iff {targets : PathSet} (h : Rewired ws f targets ws') (hf : ws.Live f)
    (hl : ws.Linked) (ht : ∀ q, targets.contains q = true → (ws.file? q).isSome) :
    ws'.CalledBy q p ↔ if p.same f.path then targets.contains q = true else ws.CalledBy q p := by
  have hq := h q
  cases hg : ws.file? q with
  | none =>
    have hnot : targets.contains q = false := by
      by_contra hc
      have := ht q (by simpa using hc)
      rw [hg] at this
      simp at this
    rw [hg] at hq
    simp_all [CalledBy]
  | some g =>
    rw [hg] at hq
    obtain ⟨g', hg', he⟩ := Option.map_eq_some_iff.1 hq
    have hin : g'.incoming = (rewired f.path f.outgoing targets q g).incoming :=
      congrArg Prod.snd he
    -- the file was recorded at `q` exactly when it referred to `q`
    have hself : p.same f.path = true → (g.incoming.contains p = true ↔
        f.outgoing.contains q = true) := fun hs => by
      rw [← Workspace.calledBy_iff hg, ← hl.symmetric, Calls.congr_left hs]
      exact Workspace.calls_iff hf
    rw [Workspace.calledBy_iff hg', hin, Workspace.calledBy_iff hg]
    simp only [rewired]
    cases hs : p.same f.path with
    | true =>
      have hsf : f.path.same p = true := by rw [Path.same_comm, hs]
      cases htq : targets.contains q with
      | true => simp [PathSet.contains_insert, hsf]
      | false =>
        cases hfq : f.outgoing.contains q with
        | true => simp [PathSet.contains_erase, hsf]
        | false => simpa [hfq] using hself hs
    | false =>
      have hsf : f.path.same p = false := by rw [Path.same_comm, hs]
      split
      · simp [PathSet.contains_insert, hsf]
      · split
        · simp [PathSet.contains_erase, hsf]
        · simp

/-- Replacing the references of a file keeps the records in agreement, as long as the file is to
refer to other live files only. -/
theorem Linked.rewire {targets : PathSet} (hl : ws.Linked) (hf : ws.Live f)
    (ht : ∀ q, targets.contains q = true → (ws.file? q).isSome ∧ f.path.same q = false)
    (h : Rewired ws f targets ws') : ws'.Linked := by
  refine ⟨fun p q => ?_, fun p hp => ?_⟩
  · rw [h.calls_iff hf, h.calledBy_iff hf hl fun q hq => (ht q hq).1, hl.symmetric]
  · rw [h.calls_iff hf] at hp
    split at hp
    · rename_i hs
      have := (ht p hp).2
      rw [Path.same_comm, hs] at this
      simp at this
    · exact hl.irreflexive p hp

/-- The files that a file refers to are the other ones that its names stand for. -/
theorem contains_targets_iff {names : List String} :
    (ws.targets f names).contains q = true ↔ ∃ name ∈ names, ∃ holder,
      ws.resolve? f.library name = some holder ∧ holder.path.same f.path = false ∧
        holder.path.same q = true := by
  rw [targets, PathSet.contains_ofList, List.any_eq_true]
  constructor
  · rintro ⟨p, hp, hs⟩
    obtain ⟨name, hname, hdest⟩ := List.mem_filterMap.1 hp
    obtain ⟨holder, hr, hother⟩ := Option.bind_eq_some_iff.1 hdest
    split at hother
    · simp at hother
    · rename_i hnot
      obtain rfl := Option.some.inj hother
      exact ⟨name, hname, holder, hr, by simpa using hnot, hs⟩
  · rintro ⟨name, hname, holder, hr, hother, hs⟩
    exact ⟨holder.path, List.mem_filterMap.2 ⟨name, hname, by simp [hr, hother]⟩, hs⟩

/-- The names of a file lead to other live files only. -/
theorem Named.targets_live (hn : ws.Named) {names : List String}
    (hq : (ws.targets f names).contains q = true) :
    (ws.file? q).isSome ∧ f.path.same q = false := by
  obtain ⟨name, -, holder, hr, hother, hs⟩ := contains_targets_iff.1 hq
  obtain ⟨-, -, -, g, hg, -, -, -⟩ := hn.holds_of_resolve? hr
  rw [← ws.file?_congr hs, hg, Path.same_comm, ← Path.same_congr_left hs]
  exact ⟨rfl, hother⟩

theorem rewired_setReferences (hf : ws.Live f) (names : List String) :
    Rewired ws f (ws.targets f names) (ws.setReferences f names) := fun q => by
  rw [file?_setReferences hf, Option.map_map]
  rfl

theorem rewired_install (hf : ws.Live f) (m : Module) (ds : List Diagnostic) :
    Rewired ws f (ws.targets f m.references) (ws.install f m ds) := fun q => by
  rw [file?_install hf, Option.map_map]
  refine congrArg (Option.map · (ws.file? q)) (funext fun g => ?_)
  simp only [Function.comp_apply]
  split <;> rfl

theorem Linked.install (hl : ws.Linked) (hn : ws.Named) (hf : ws.Live f) (m : Module)
    (ds : List Diagnostic) : (ws.install f m ds).Linked :=
  hl.rewire hf (fun _ => hn.targets_live) (rewired_install hf m ds)

theorem Linked.registerScan (hl : ws.Linked) (hn : ws.Named) (hf : ws.Live f) (s : Scan) :
    (ws.registerScan f s).1.Linked := by
  have hset : (ws.setReferences f (s.candidates.map (·.name))).Linked :=
    hl.rewire hf (fun _ => hn.targets_live) (rewired_setReferences hf _)
  rw [Workspace.registerScan]
  split
  · exact hset.of_edges fun _ => rfl
  · exact hset.of_edges fun _ => rfl
  · exact hl

/-! ### Files that come and go -/

theorem Linked.addFile (hl : ws.Linked) (p : Path) : (ws.addFile p).2.Linked := by
  rcases ws.addFile_cases p with ⟨h, -⟩ | ⟨file, hnew, hnone, h⟩
  · rw [h]
    exact hl
  · rw [h]
    have hempty : file.outgoing = .empty ∧ file.incoming = .empty := by
      obtain ⟨l, -, type, rfl⟩ := newFile?_cases hnew
      exact ⟨rfl, rfl⟩
    have hcalls : ∀ a b, Calls { ws.claimStem file with files := ws.files.insert p file } a b ↔
        ws.Calls a b := fun a b => by
      rw [Calls, file?_insert, Calls]
      cases hs : p.same a with
      | true =>
        rw [← ws.file?_congr hs, hnone]
        simp [hempty.1]
      | false => simp
    have hcalled : ∀ b a, CalledBy { ws.claimStem file with files := ws.files.insert p file } b a ↔
        ws.CalledBy b a := fun b a => by
      rw [CalledBy, file?_insert, CalledBy]
      cases hs : p.same b with
      | true =>
        rw [← ws.file?_congr hs, hnone]
        simp [hempty.2]
      | false => simp
    refine ⟨fun a b => ?_, fun a => ?_⟩
    · rw [hcalls, hcalled]
      exact hl.symmetric a b
    · rw [hcalls]
      exact hl.irreflexive a

theorem outgoing_released (p : Path) (f : ModuleFile) (q : Path) (g : ModuleFile) :
    (released p f q g).outgoing =
      if f.incoming.contains q then g.outgoing.erase p else g.outgoing := by
  rw [released]
  split <;> split <;> rfl

/-- A file gets no new edge when another one is deleted. -/
theorem contains_of_outgoing_released {r : Path}
    (h : (released p f q g).outgoing.contains r = true) : g.outgoing.contains r = true := by
  rw [outgoing_released] at h
  split at h
  · rw [PathSet.contains_erase, Bool.and_eq_true] at h
    exact h.2
  · exact h

theorem incoming_released (p : Path) (f : ModuleFile) (q : Path) (g : ModuleFile) :
    (released p f q g).incoming =
      if f.outgoing.contains q then g.incoming.erase p else g.incoming := by
  have hstale (g : ModuleFile) : g.markStale.1.incoming = g.incoming :=
    congrArg Prod.snd (edges_edit .markStale g)
  rw [released]
  split <;> split <;> simp [hstale]

/-- The edges that are left after a deletion are those between other files. -/
theorem Linked.calls_deleteFile (hl : ws.Linked) (hp : ws.file? p = some f) (a b : Path) :
    (ws.deleteFile p).2.Calls a b ↔ p.same a = false ∧ p.same b = false ∧ ws.Calls a b := by
  rw [Calls, file?_deleteFile hp]
  cases ha : p.same a with
  | true => simp
  | false =>
    cases hg : ws.file? a with
    | none => simp [Calls, hg]
    | some g =>
      rw [Workspace.calls_iff hg]
      have hcaller : g.outgoing.contains p = true ↔ f.incoming.contains a = true := by
        rw [← Workspace.calls_iff hg, hl.symmetric, Workspace.calledBy_iff hp]
      have hout : (released p f a g).outgoing.contains b =
          (!p.same b && g.outgoing.contains b) := by
        rw [outgoing_released]
        split
        · rw [PathSet.contains_erase]
        · rename_i hnot
          cases hb : p.same b with
          | false => rfl
          | true =>
            rw [← PathSet.contains_congr _ hb]
            simpa using fun h => hnot (hcaller.1 h)
      simp [hout]

theorem Linked.calledBy_deleteFile (hl : ws.Linked) (hp : ws.file? p = some f) (b a : Path) :
    (ws.deleteFile p).2.CalledBy b a ↔
      p.same a = false ∧ p.same b = false ∧ ws.CalledBy b a := by
  rw [CalledBy, file?_deleteFile hp]
  cases hb : p.same b with
  | true => simp
  | false =>
    cases hg : ws.file? b with
    | none => simp [CalledBy, hg]
    | some g =>
      rw [Workspace.calledBy_iff hg]
      have hcalled : g.incoming.contains p = true ↔ f.outgoing.contains b = true := by
        rw [← Workspace.calledBy_iff hg, ← hl.symmetric, Workspace.calls_iff hp]
      have hin : (released p f b g).incoming.contains a =
          (!p.same a && g.incoming.contains a) := by
        rw [incoming_released]
        split
        · rw [PathSet.contains_erase]
        · rename_i hnot
          cases ha : p.same a with
          | false => rfl
          | true =>
            rw [← PathSet.contains_congr _ ha]
            simpa using fun h => hnot (hcalled.1 h)
      simp [hin]

theorem Linked.deleteFile (hl : ws.Linked) (p : Path) : (ws.deleteFile p).2.Linked := by
  cases hp : ws.file? p with
  | none =>
    simp only [Workspace.deleteFile, hp]
    exact hl
  | some f =>
    refine ⟨fun a b => ?_, fun a ha => ?_⟩
    · rw [hl.calls_deleteFile hp, hl.calledBy_deleteFile hp, hl.symmetric]
    · exact hl.irreflexive a ((hl.calls_deleteFile hp a a).1 ha).2.2

/-! ### Every reachable workspace -/

theorem Linked.move (hl : ws.Linked) (hn : ws.Named) (h : Move sources ws ws') : ws'.Linked := by
  cases h with
  | parse f hf find => exact hl.install hn hf _ _
  | name f s hf hs => exact hl.registerScannedName f s
  | scan f s hf hs => exact hl.registerScan hn hf s
  | edit p e => exact hl.modifyFile p (edges_edit e)
  | add p => exact hl.addFile p
  | take name => exact hl.of_edges fun _ => rfl
  | delete p => exact hl.deleteFile p

/-- Every edge is recorded at both of its ends in every workspace that arises from moves. -/
theorem Arises.linked (h : Arises ws) : ws.Linked := by
  induction h with
  | fresh => exact ⟨fun p q => by simp [Calls, CalledBy], fun p => by simp [Calls]⟩
  | move h hm ih => exact ih.move h.named hm

/-- The two ends of an edge agree in every reachable workspace: one live file refers to another
exactly when it is among the callers of that one, all paths in the records are live, and no file
refers to itself. -/
theorem Reachable.edges_symmetric (h : Reachable ws) :
    (∀ p q f g, ws.file? p = some f → ws.file? q = some g →
      (f.outgoing.contains q = true ↔ g.incoming.contains p = true)) ∧
    (∀ p f, ws.file? p = some f →
      ∀ q, q ∈ f.outgoing.toList ∨ q ∈ f.incoming.toList → (ws.file? q).isSome = true) ∧
    ∀ p f, ws.file? p = some f →
      f.outgoing.contains p = false ∧ f.incoming.contains p = false := by
  have hl := h.arises.linked
  refine ⟨fun p q f g hf hg => ?_, fun p f hf q hq => ?_, fun p f hf => ?_⟩
  · rw [← Workspace.calls_iff hf, ← Workspace.calledBy_iff hg]
    exact hl.symmetric p q
  · rcases hq with hq | hq
    · obtain ⟨g, hg, -⟩ := (hl.symmetric p q).1 ⟨f, hf, PathSet.contains_of_mem hq⟩
      simp [hg]
    · obtain ⟨g, hg, -⟩ := (hl.symmetric q p).2 ⟨f, hf, PathSet.contains_of_mem hq⟩
      simp [hg]
  · have hout := hl.irreflexive p
    have hin := mt (hl.symmetric p p).2 hout
    rw [Workspace.calls_iff hf] at hout
    rw [Workspace.calledBy_iff hf] at hin
    exact ⟨by simpa using hout, by simpa using hin⟩

/-- In the small project the called subprogram lists its caller. -/
theorem Reachable.edges_symmetric_sample :
    Reachable Sample.workspace ∧ ∃ f g,
      Sample.workspace.file? Sample.caller = some f ∧
        Sample.workspace.file? Sample.callee = some g ∧
        f.outgoing.contains Sample.callee = true ∧ g.incoming.contains Sample.caller = true := by
  obtain ⟨f, hf, hout⟩ : ∃ f, Sample.workspace.file? Sample.caller = some f ∧
      f.outgoing.contains Sample.callee = true :=
    (Option.any_eq_true _ _).1 (by decide +kernel)
  obtain ⟨g, hg⟩ : ∃ g, Sample.workspace.file? Sample.callee = some g :=
    Option.isSome_iff_exists.1 (by decide +kernel)
  exact ⟨Sample.reachable, f, g, hf, hg, hout,
    ((edges_symmetric Sample.reachable).1 _ _ f g hf hg).1 hout⟩

end Workspace

end Steplib
