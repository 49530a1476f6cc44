import Steplib.Proofs.Workspace.OpeningOrder
import Steplib.Proofs.Workspace.Propagation
import Steplib.Proofs.Workspace.Provisional

/-!
# Files that are scanned again

A scan replaces the edges of a file, but to the cache it only adds: what an earlier scan has put
there stays, whether the file still leads there or not. No operation scans a file twice, so what an
operation adds to the cache is backed by an edge when it is over. A cached position therefore comes
with an edge as long as no later operation takes the edge away from a file without a module.

## Main definitions

* `Workspace.Adds`: what has been added to the cache is backed by edges of the scanned files.
* `Workspace.Reparses`: files are parsed, after one of them was edited in place or not.
* `Workspace.EdgesStay`: a file without a module loses no edge to a file that is still there.
* `Workspace.Backed`: every cached position comes with an edge.
* `Operation.scans`: the operation can scan files.

## Main results

* `Workspace.records_indexPath`: what scanning a file does to the cache.
* `Workspace.Arises.adds_run`: what an operation adds to the cache is backed.
* `Workspace.Reachable.rescan_adds`: what a scan leaves in the cache, and when it is backed.
* `Workspace.rescan_leaves_behind`: positions of an earlier scan stay.
-/

namespace Steplib

namespace Workspace

/-- The cache knows only those calls that were cached in the workspace `base`, or that are edges of
files on the log. -/
def Adds (base ws : Workspace) (log : List Path) : Prop :=
  ∀ c t, ws.Cached c t → base.Cached c t ∨ log.any (·.same c) = true ∧ ws.Calls c t

/-- The files at some paths are renewed, after an edit of one file in place or without one. -/
def Reparses (sources : Sources) (ws ws' : Workspace) : Prop :=
  (∃ log, Renews sources ws ws' log) ∨
    ∃ p, ∃ e : Edit, ∃ log, Renews sources (ws.modifyFile p e.apply) ws' log

/-- A file that is there afterwards and has no module then keeps its edges to the files that are
there. -/
def EdgesStay (ws ws' : Workspace) : Prop :=
  ∀ c t, ws.Calls c t → (ws'.file? t).isSome = true →
    (∃ f, ws'.file? c = some f ∧ f.state.module? = none) → ws'.Calls c t

/-- The file in which a cached position lies has an edge to the file that is called there. -/
def Backed (ws : Workspace) : Prop :=
  ∀ t, ∀ x ∈ ws.cache.positions t, ws.Calls x.file t

variable {sources : Sources} {base ws ws' : Workspace} {f g : ModuleFile} {s : Scan}
  {p q c t : Path} {log log' : List Path}

/-! ### What is added to the cache -/

theorem Adds.refl (ws : Workspace) : Adds ws ws [] :=
  fun _ _ => .inl

/-- What has been added stays backed as long as the cache takes up nothing and a file of which
anything is cached keeps its edges. -/
theorem Adds.mono (h : Adds base ws log) (hstep : ∀ c t, ws'.Cached c t →
    ws.Cached c t ∧ (ws.Calls c t → ws'.Calls c t)) : Adds base ws' log := by
  intro c t hcached
  obtain ⟨hold, hcalls⟩ := hstep c t hcached
  exact (h c t hold).imp_right (And.imp_right hcalls)

/-- Edges depend on what the files refer to. -/
theorem calls_congr (h : (ws'.file? c).map (·.outgoing) = (ws.file? c).map (·.outgoing)) :
    ws'.Calls c t ↔ ws.Calls c t := by
  cases hf : ws.file? c <;> cases hf' : ws'.file? c <;> simp_all [Calls]

/-- A parse takes the file out of the cache. -/
theorem Adds.renews (h : Adds base ws log) (hrenews : Renews sources ws ws' log') :
    Adds base ws' log := by
  refine h.mono fun c t hcached => ?_
  obtain ⟨x, hx, hs⟩ := cached_iff_exists_mem.1 hcached
  rw [hrenews.positions, List.mem_filter, Bool.not_eq_true'] at hx
  obtain ⟨hx, hlog⟩ := hx
  simp only [Path.same_congr_right hs] at hlog
  have hown := (hrenews.others c hlog).own
  have houtgoing := congrArg (Option.map (·.outgoing)) hown
  rw [Option.map_map, Option.map_map] at houtgoing
  exact ⟨cached_iff_exists_mem.2 ⟨x, hx, hs⟩, (calls_congr houtgoing).2⟩

theorem Adds.registerScannedName (h : Adds base ws log) (f : ModuleFile) (s : Scan) :
    Adds base (ws.registerScannedName f s) log := by
  refine h.mono fun c t hcached => ⟨?_, (calls_congr ?_).2⟩
  · rwa [Cached, cache_registerScannedName] at hcached
  · rw [file?_registerScannedName]
    split
    · rw [Option.map_map]
      rfl
    · rfl

theorem Adds.edit (h : Adds base ws log) (p : Path) (e : Edit) :
    Adds base (ws.modifyFile p e.apply) log := by
  refine h.mono fun c t hcached => ⟨hcached, (calls_congr ?_).2⟩
  rw [file?_modifyFile]
  split
  · rw [Option.map_map]
    exact congrArg (Option.map · (ws.file? c)) (funext fun f => congrArg Prod.fst (edges_edit e f))
  · rfl

/-- A scan of a file that has not been scanned before is backed by the edges that it gives to the
file. What was cached of the file then has been there from the start. -/
theorem Adds.registerScan (h : Adds base ws log) (hk : ws.Keyed)
    (hf : (ws.file? f.path).map unlinked = some (unlinked f)) (hs : f.scan? sources = some s)
    (hnew : log.any (·.same f.path) = false) :
    Adds base (ws.registerScan f s).1 (f.path :: log) := by
  obtain ⟨f₁, hf₁, hb⟩ := Option.map_eq_some_iff.1 hf
  have hpath : f₁.path = f.path := congrArg (·.path) hb
  have hlive := hk.live hf₁
  have hscan : f₁.scan? sources = some s := by rw [scan?_congr hb, hs]
  rw [← registerScan_congr ws hb, ← hpath]
  rw [← hpath] at hnew
  have hlog (c t : Path) (hcached : ws.Cached c t) : base.Cached c t ∨
      (f₁.path :: log).any (·.same c) = true ∧ ws.Calls c t :=
    (h c t hcached).imp_right (And.imp_left fun hc => by simp [hc])
  by_cases hstate : f₁.state = .unparsed ∨ f₁.state = .closed
  · intro c t hcached
    rw [cached_registerScan hstate hscan] at hcached
    rw [(rewired_registerScan hlive hstate s).calls_iff hlive]
    cases hsame : f₁.path.same c with
    | true =>
      have hsame' : c.same f₁.path = true := by rw [Path.same_comm, hsame]
      rw [if_pos hsame']
      rcases hcached with hold | ⟨-, ht⟩
      · refine (h c t hold).imp_right fun ⟨hc, _⟩ => ?_
        simp only [← Path.same_congr_right hsame, hnew] at hc
        simp at hc
      · exact .inr ⟨by simp [hsame], ht⟩
    | false =>
      have hsame' : c.same f₁.path = false := by rw [Path.same_comm, hsame]
      rw [hsame', if_neg Bool.false_ne_true]
      exact hlog c t (hcached.resolve_right fun hnew => by simp [hsame] at hnew)
  · rw [registerScan_eq_self hstate]
    exact hlog

/-! ### Scans within an operation -/

/-- Scanning one more file. -/
theorem Adds.indexFile (h : Adds base ws log) (hk : ws.Keyed) (hf : ws.Live f)
    (hnew : log.any (·.same f.path) = false) :
    Adds base (ws.indexFile sources f).1 (f.path :: log) := by
  rw [Workspace.indexFile]
  split
  · exact fun c t hcached => (h c t hcached).imp_right (And.imp_left fun hc => by simp [hc])
  · rename_i s hs
    have hsame : ((ws.registerScannedName f s).file? f.path).map unlinked = some (unlinked f) := by
      rw [unlinked_registerScannedName, hf]
      rfl
    exact (h.registerScannedName f s).registerScan (hk.registerScannedName f s) hsame hs hnew

/-- Recording the scans of files at different paths. -/
theorem Adds.registerScans {scans : List (ModuleFile × Scan)} (h : Adds base ws log)
    (hk : ws.Keyed) (hscans : ∀ e ∈ scans, (ws.file? e.1.path).map unlinked = some (unlinked e.1) ∧
      e.1.scan? sources = some e.2)
    (hdistinct : scans.Pairwise fun a b => a.1.path.same b.1.path = false)
    (hnew : ∀ e ∈ scans, log.any (·.same e.1.path) = false) :
    ∃ log', Adds base (ws.registerScans scans).1 log' := by
  rw [registerScans_eq]
  induction scans generalizing ws log with
  | nil => exact ⟨log, h⟩
  | cons e scans ih =>
    obtain ⟨hfirst, hrest⟩ := List.pairwise_cons.1 hdistinct
    obtain ⟨⟨hf, hs⟩, hscans⟩ := List.forall_mem_cons.1 hscans
    obtain ⟨hnewFirst, hnew⟩ := List.forall_mem_cons.1 hnew
    obtain ⟨hmove, hkept⟩ := move_registerScan hk hf hs
    refine ih (h.registerScan hk hf hs hnewFirst) (hmove.keyed hk) (fun d hd => ?_) hrest
      fun d hd => ?_
    · rw [hkept]
      exact hscans d hd
    · rw [List.any_cons, hfirst d hd, hnew d hd]
      rfl

/-- Indexing scans every file once. -/
theorem Arises.adds_indexAll (ha : Arises ws) (sources : Sources) (cancelled : Bool) :
    ∃ log, Adds ws (ws.indexAll sources cancelled).1 log := by
  cases cancelled with
  | true => exact ⟨[], .refl ws⟩
  | false =>
    have hnamed : Adds ws (ws.registerNames (ws.scans sources)) [] :=
      List.foldlRecOn (motive := fun ws₁ => Adds ws ws₁ []) (ws.scans sources) _ (.refl ws)
        fun _ h e _ => h.registerScannedName e.1 e.2
    have hscans (e : ModuleFile × Scan) (he : e ∈ ws.scans sources) :
        ((ws.registerNames (ws.scans sources)).file? e.1.path).map unlinked =
          some (unlinked e.1) ∧ e.1.scan? sources = some e.2 :=
      ⟨ha.keyed.unlinked_registerNames he, (ha.keyed.live_of_mem_scans he).2⟩
    exact hnamed.registerScans (ha.registerNames sources).keyed hscans ha.keyed.pairwise_scans
      fun _ _ => rfl

/-- Waking files at different paths scans each of them at most once. -/
theorem Arises.adds_wakeAll (ha : Arises ws) (h : Adds base ws log) {self : Path}
    {paths : List Path} (hdistinct : paths.Pairwise fun p q => p.same q = false)
    (hnew : ∀ p ∈ paths, p.same self = false → log.any (·.same p) = false) :
    ∃ log', Adds base (ws.wakeAll sources self paths).2 log' := by
  induction paths generalizing ws log with
  | nil => exact ⟨log, h⟩
  | cons p paths ih =>
    obtain ⟨hfirst, hrest⟩ := List.pairwise_cons.1 hdistinct
    obtain ⟨hnewFirst, hnew⟩ := List.forall_mem_cons.1 hnew
    rcases ws.skipped_or_woken self p with hskipped | ⟨hself, f, hf⟩
    · rw [wakeAll_cons_of_skipped hskipped]
      exact ih ha h hrest hnew
    · have hlive := ha.keyed.live hf
      have hpath := ha.keyed p f hf
      have ha₁ := ha.after_wake sources hlive
      rw [wakeAll_cons_of_woken hself hf]
      rcases ha.wake_cases sources hlive with heq | ⟨-, heq⟩
      · obtain ⟨log', run⟩ := parses_parse sources ha.keyed f
        refine ih ha₁ ?_ hrest hnew
        rw [heq]
        exact h.renews (run.renews ha hlive)
      · have hadds : Adds base (ws.wake sources f).2 (f.path :: log) := by
          rw [heq]
          refine h.indexFile ha.keyed hlive ?_
          simp only [Path.same_congr_right hpath]
          exact hnewFirst hself
        refine ih ha₁ hadds hrest fun q hq hs => ?_
        rw [List.any_cons, Path.same_congr_left hpath, hfirst q hq, hnew q hq hs]
        rfl

theorem Adds.addFile (h : Adds base ws log) (p : Path) : Adds base (ws.addFile p).2 log := by
  refine h.mono fun c t hcached => ?_
  rw [Cached, (ws.records_addFile p).2] at hcached
  refine ⟨hcached, ?_⟩
  rintro ⟨f, hf, hedge⟩
  rcases ws.addFile_cases p with ⟨heq, -⟩ | ⟨new, hnew, hp, -⟩
  · rw [heq]
    exact ⟨f, hf, hedge⟩
  · refine ⟨f, ?_, hedge⟩
    rw [file?_addFile hnew hp, if_neg, hf]
    intro hs
    rw [← ws.file?_congr hs, hp] at hf
    simp at hf

/-- A creation scans the new file and wakes others. -/
theorem Arises.adds_createFile (ha : Arises ws) (h : Adds base ws []) (sources : Sources)
    (p : Path) : ∃ log, Adds base (ws.createFile sources p).2.2 log := by
  have hadd := h.addFile p
  rcases ha.createFile_cases sources p with heq | ⟨new, w, f, hnew, hw, hf, heq⟩ <;> rw [heq]
  · exact ⟨[], hadd⟩
  · have ha₁ := ha.addFile p
    have hlive := live_addFile ha.keyed hnew
    have hindex := readings_indexFile sources ha₁.keyed hlive
    have hadds : Adds base w [new.path] := by
      rw [hw]
      exact hadd.indexFile ha₁.keyed hlive rfl
    rw [← hw] at hindex
    have ha₂ := ha₁.moves hindex.moves
    have hpath := ha₂.keyed new.path f hf
    have hdismissed : Adds base (w.dismiss f.name) [new.path] :=
      hadds.mono fun c t hcached => ⟨hcached, id⟩
    refine (ha₂.dismiss f.name).adds_wakeAll hdismissed
      ((PathSet.ordered _).imp Path.same_of_before) fun q _ hs => ?_
    rw [Path.same_comm, Path.same_congr_left hpath] at hs
    rw [List.any_cons, hs, List.any_nil, Bool.or_self]

end Workspace

/-- The operation can scan files. -/
def Operation.scans : Operation → Bool
  | createFile _ | indexPath _ | indexAll _ | renameFile _ _ => true
  | _ => false

namespace Workspace

variable {sources : Sources} {base ws ws' : Workspace} {f : ModuleFile} {c t p : Path}
  {log : List Path} {op : Operation}

/-- Reading the module of a file parses it or changes nothing. -/
theorem readModule_cases (sources : Sources) (ws : Workspace) (p : Path) :
    (ws.readModule sources p).2 = ws ∨
      ∃ f, ws.file? p = some f ∧ (ws.readModule sources p).2 = (ws.parse sources f).2 := by
  rw [readModule]
  cases hp : ws.file? p with
  | none => exact .inl rfl
  | some f => cases hstate : f.state <;> simp [hstate]

theorem Reparses.edit (sources : Sources) (ws : Workspace) (p : Path) (e : Edit) :
    Reparses sources ws (ws.modifyFile p e.apply) :=
  .inr ⟨p, e, [], .refl sources _⟩

theorem Reparses.refl (sources : Sources) (ws : Workspace) : Reparses sources ws ws :=
  .inl ⟨[], .refl sources ws⟩

section Reparses

variable (ha : Arises ws) (sources : Sources)

include ha

theorem Arises.reparses_parse (hp : ws.file? p = some f) :
    Reparses sources ws (ws.parse sources f).2 := by
  obtain ⟨log, run⟩ := parses_parse sources ha.keyed f
  exact .inl ⟨log, run.renews ha (ha.keyed.live hp)⟩

theorem Arises.reparses_readModule (p : Path) :
    Reparses sources ws (ws.readModule sources p).2 := by
  rcases ws.readModule_cases sources p with heq | ⟨f, hp, heq⟩ <;> rw [heq]
  · exact .refl sources ws
  · exact ha.reparses_parse sources hp

theorem Arises.reparses_openFile (p : Path) : Reparses sources ws (ws.openFile sources p).2 := by
  cases hp : ws.file? p with
  | none =>
    rw [openFile_of_absent sources hp]
    exact .refl sources ws
  | some f =>
    rcases ha.openFile_cases sources hp with ⟨-, heq⟩ | ⟨-, heq⟩ <;> rw [heq]
    · exact .refl sources ws
    · exact ha.reparses_parse sources hp

theorem Arises.reparses_textEdit (e : TextEdit) (p : Path) (strategy : ParseStrategy) :
    Reparses sources ws (e.run sources ws p strategy).2 := by
  cases hp : ws.file? p with
  | none =>
    have heq : (e.run sources ws p strategy).2 = ws := by
      cases e <;> simp only [TextEdit.run, change, save, setOverlay, hp]
    rw [heq]
    exact .refl sources ws
  | some f =>
    obtain ⟨g, log, -, -, hspreads⟩ := ha.spreads_edit hp e sources strategy
    exact .inr ⟨p, .overlay e.overlay, log, hspreads.toRenews⟩

theorem Arises.reparses_reparseCallers (p : Path) :
    Reparses sources ws (ws.reparseCallers sources p).2 := by
  rw [reparseCallers]
  cases hp : ws.file? p with
  | none => exact .refl sources ws
  | some f =>
    obtain ⟨-, log, hspreads⟩ :=
      ha.spreads_parseAll sources fun q hq => (ha.linked.callers hp q hq).1
    exact .inl ⟨log, hspreads.toRenews⟩

/-- An operation that neither scans files nor lets them come or go edits at most one file and parses
others. -/
theorem Arises.reparses_run (hput : op.staysPut = true) (hscans : op.scans = false) :
    Reparses sources ws (op.run sources ws) := by
  cases op with
  | addFile p => simp [Operation.staysPut] at hput
  | createFile p => simp [Operation.staysPut] at hput
  | deleteFile p => simp [Operation.staysPut] at hput
  | renameFile p new => simp [Operation.staysPut] at hput
  | indexPath p => simp [Operation.scans] at hscans
  | indexAll cancelled => simp [Operation.scans] at hscans
  | openFile p => exact ha.reparses_openFile sources p
  | readModule p => exact ha.reparses_readModule sources p
  | change p source strategy => exact ha.reparses_textEdit sources (.change source) p strategy
  | save p strategy => exact ha.reparses_textEdit sources .save p strategy
  | closeFile p =>
    simp only [Operation.run, closeFile]
    cases ws.file? p with
    | none => exact .refl sources ws
    | some f => exact .edit sources ws p .close
  | markStale p =>
    simp only [Operation.run, markStale]
    cases ws.file? p with
    | none => exact .refl sources ws
    | some f => exact .edit sources ws p .markStale
  | reparseCallers p => exact ha.reparses_reparseCallers sources p
  | publish p tool ds =>
    simp only [Operation.run, publish]
    cases ws.file? p with
    | none => exact .refl sources ws
    | some f => exact .edit sources ws p (.publish tool ds)
  | goto p position =>
    simp only [Operation.run, goto]
    cases ws.file? p with
    | none => exact .refl sources ws
    | some f => exact ha.reparses_readModule sources p
  | references p => exact .refl sources ws
  | prepareRename p =>
    simp only [Operation.run, prepareRename]
    cases ws.file? p with
    | none => exact .refl sources ws
    | some f => exact ha.reparses_reparseCallers sources p

end Reparses

theorem Adds.reparses (h : Adds base ws log) (hr : Reparses sources ws ws') :
    Adds base ws' log := by
  obtain ⟨log', hrenews⟩ | ⟨p, e, log', hrenews⟩ := hr
  · exact h.renews hrenews
  · exact (h.edit p e).renews hrenews

/-- A deletion leaves the edges between the other files alone. -/
theorem Adds.deleteFile (h : Adds base ws log) (ha : Arises ws) (p : Path) :
    Adds base (ws.deleteFile p).2 log := by
  cases hp : ws.file? p with
  | none =>
    simp only [Workspace.deleteFile, hp]
    exact h
  | some f =>
    refine h.mono fun c t hcached => ?_
    rw [cached_deleteFile ha hp] at hcached
    obtain ⟨⟨ht, hcached⟩, hc⟩ := hcached
    exact ⟨hcached, fun hcalls => (ha.linked.calls_deleteFile hp c t).2 ⟨hc, ht, hcalls⟩⟩

/-- What an operation adds to the cache is backed by edges when it is over. -/
theorem Arises.adds_run (ha : Arises ws) (sources : Sources) (op : Operation) :
    ∃ log, Adds ws (op.run sources ws) log := by
  cases op with
  | addFile p => exact ⟨[], (Adds.refl ws).addFile p⟩
  | createFile p => exact ha.adds_createFile (.refl ws) sources p
  | deleteFile p => exact ⟨[], (Adds.refl ws).deleteFile ha p⟩
  | renameFile p new =>
    have ha₁ := ha.move (.delete ws p : Move sources _ _)
    exact ha₁.adds_createFile ((Adds.refl ws).deleteFile ha p) sources new
  | indexPath p =>
    simp only [Operation.run, indexPath]
    cases hp : ws.file? p with
    | none => exact ⟨[], .refl ws⟩
    | some f => exact ⟨[f.path], (Adds.refl ws).indexFile ha.keyed (ha.keyed.live hp) rfl⟩
  | indexAll cancelled => exact ha.adds_indexAll sources cancelled
  | _ => exact ⟨[], (Adds.refl ws).reparses (ha.reparses_run sources rfl rfl)⟩

/-! ### What a scan leaves in the cache -/

/-- Scanning a file without a module adds what the scan finds to the cache and drops nothing. -/
theorem records_indexPath (hp : ws.file? p = some f)
    (hstate : f.state = .unparsed ∨ f.state = .closed) (hscan : (f.scan? sources).isSome = true)
    (called : Path) (x : FilePosition) :
    (ws.indexPath sources p).2.cache.Records called x ↔
      ws.cache.Records called x ∨ (ws.indexPath sources p).2.Cites sources f called x := by
  obtain ⟨s, hscan⟩ := Option.isSome_iff_exists.1 hscan
  simp only [indexPath, hp, indexFile, hscan]
  rw [records_registerScan hstate hscan, cache_registerScannedName,
    cites_eq_of_skeleton (skeleton_registerScan ..)]

/-- Every cached position comes with an edge after an operation if that was so before and files
without a module keep their edges. -/
theorem Backed.run (hb : ws.Backed) (ha : Arises ws) (sources : Sources) (op : Operation)
    (hstay : EdgesStay ws (op.run sources ws)) : (op.run sources ws).Backed := by
  have ha' := ha.moves (moves_run sources ha.keyed op)
  obtain ⟨log, hadds⟩ := ha.adds_run sources op
  intro t x hx
  have hcached := cached_of_mem hx
  rcases hadds _ _ hcached with hold | ⟨-, hcalls⟩
  · obtain ⟨y, hy, hs⟩ := cached_iff_exists_mem.1 hold
    obtain ⟨hlive, ht, -⟩ := (ha'.cacheFollows x.file).live t hcached
    exact hstay x.file t ((Calls.congr_left hs).1 (hb t y hy)) ht hlive
  · exact hcalls

/-- Scanning a file without a module adds the positions that lead to another file to the cache, each
under the file to which it leads. What was cached of the file before stays, so what is cached then
is exactly what the scan has found if and only if the scan has found again all that was cached.
Every call that an operation adds to the cache is an edge when the operation is over. So a cached
position comes with an edge as long as no operation has taken an edge away from a file without a
module. -/
theorem Reachable.rescan_adds (h : Reachable ws) :
    (∀ sources p f, ws.file? p = some f → (f.state = .unparsed ∨ f.state = .closed) →
      (f.scan? sources).isSome = true →
      let ws' := (ws.indexPath sources p).2
      (∀ called x, ws'.cache.Records called x ↔
        ws.cache.Records called x ∨ ws'.Cites sources f called x) ∧
      ((∀ called x, x.file.same p = true →
          (ws'.cache.Records called x ↔ ws'.Cites sources f called x)) ↔
        ∀ called x, x.file.same p = true → ws.cache.Records called x →
          ws'.Cites sources f called x)) ∧
    (∀ (sources : Sources) (op : Operation) (c t : Path), (op.run sources ws).Cached c t →
      ws.Cached c t ∨ (op.run sources ws).Calls c t) ∧
    (ReachableBy (fun sources ws op => EdgesStay ws (op.run sources ws)) ws →
      ∀ t, ∀ x ∈ ws.cache.positions t,
        ∃ c, ws.file? x.file = some c ∧ c.outgoing.contains t = true) := by
  have ha := h.arises
  refine ⟨fun sources p f hp hstate hscan => ?_, fun sources op c t hcached => ?_, fun hstay => ?_⟩
  · have hrecords := records_indexPath hp hstate hscan
    simp only [hrecords, or_iff_right_iff_imp, true_and, implies_true]
  · obtain ⟨log, hadds⟩ := ha.adds_run sources op
    exact (hadds c t hcached).imp_right And.right
  · clear h ha
    induction hstay with
    | fresh => exact fun t x hx => by simp [ReferenceCache.positions] at hx
    | run h sources op hop ih => exact Backed.run ih h.reachable.arises sources op hop

/-- Whether edges stay can be checked file by file. -/
theorem Keyed.edgesStay (hk : ws.Keyed)
    (h : (ws.files.values.all fun c => c.outgoing.toList.all fun t => (ws'.file? t).isNone ||
      (ws'.file? c.path).all fun c' => c'.state.module?.isSome || c'.outgoing.contains t) = true) :
    EdgesStay ws ws' := by
  rintro c t ⟨f, hf, hedge⟩ ht ⟨f', hf', hnone⟩
  obtain ⟨q, hq, hs⟩ := List.any_eq_true.1 hedge
  have hpath := hk c f hf
  have hall := List.all_eq_true.1 (List.all_eq_true.1 h f (PathMap.mem_values.2 ⟨c, hf⟩)) q hq
  rw [ws'.file?_congr hs, ws'.file?_congr hpath, hf'] at hall
  refine ⟨f', hf', ?_⟩
  rw [← f'.outgoing.contains_congr hs]
  simpa [hnone, Option.isNone_eq_false_iff.2 ht] using hall

end Workspace

namespace Sample

/-- The program `C` calls the subprogram `N` in the steplib. Then all files were scanned again. -/
def rescanned : Workspace :=
  after [.createFile far, .createFile program, .indexAll false]

/-- The program was scanned when the name `N` led to the steplib. A nearer subprogram of that name
was created since. -/
def redirected : Workspace :=
  after [.createFile far, .createFile program, .createFile near]

end Sample

namespace Workspace

/-- When all files have been scanned again, the program still has a cached position and an edge that
goes with it. -/
theorem Reachable.rescan_adds_sample :
    Reachable Sample.rescanned ∧
      ReachableBy (fun sources ws op => EdgesStay ws (op.run sources ws)) Sample.rescanned ∧
      Sample.rescanned.Cached Sample.program Sample.far ∧
      (∀ t, ∀ x ∈ Sample.rescanned.cache.positions t,
        ∃ c, Sample.rescanned.file? x.file = some c ∧ c.outgoing.contains t = true) ∧
      ∃ f, Sample.rescanned.file? Sample.program = some f ∧ f.state = .unparsed ∧
        ∀ called x, (Sample.rescanned.indexPath Sample.namesakes
          Sample.program).2.cache.Records called x ↔
            Sample.rescanned.cache.Records called x ∨ (Sample.rescanned.indexPath Sample.namesakes
              Sample.program).2.Cites Sample.namesakes f called x := by
  let allowed := fun (sources : Sources) (ws : Workspace) (op : Operation) =>
    EdgesStay ws (op.run sources ws)
  have hfresh : ReachableBy allowed (Sample.after []) := .fresh ..
  have hfar : ReachableBy allowed (Sample.after [.createFile Sample.far]) :=
    hfresh.run Sample.namesakes (.createFile Sample.far)
      (hfresh.reachable.arises.keyed.edgesStay (by decide +kernel))
  have hprogram : ReachableBy allowed
      (Sample.after [.createFile Sample.far, .createFile Sample.program]) :=
    hfar.run Sample.namesakes (.createFile Sample.program)
      (hfar.reachable.arises.keyed.edgesStay (by decide +kernel))
  have hrescanned : ReachableBy allowed Sample.rescanned :=
    hprogram.run Sample.namesakes (.indexAll false)
      (hprogram.reachable.arises.keyed.edgesStay (by decide +kernel))
  obtain ⟨x, hx, hs⟩ := List.any_eq_true.1
    (by decide +kernel : (Sample.rescanned.cache.positions Sample.far).any
      (·.file.same Sample.program) = true)
  obtain ⟨f, hf, h⟩ := (Option.any_eq_true _ _).1
    (by decide +kernel : (Sample.rescanned.file? Sample.program).any (fun f =>
      f.state == .unparsed && (f.scan? Sample.namesakes).isSome) = true)
  rw [Bool.and_eq_true, beq_iff_eq] at h
  obtain ⟨hadds, -, hbacked⟩ := rescan_adds hrescanned.reachable
  exact ⟨hrescanned.reachable, hrescanned, cached_iff_exists_mem.2 ⟨x, hx, hs⟩,
    hbacked hrescanned, f, hf, h.1,
    (hadds Sample.namesakes Sample.program f hf (.inl h.1) h.2).1⟩

/-- When the program has been scanned again, the name `N` leads it to the nearer subprogram, and its
only edge leads there, but its position is still cached under the other one as well. -/
theorem rescan_leaves_behind :
    Reachable Sample.redirected ∧
      (Sample.redirected.file? Sample.program).map (fun f =>
        (f.library, f.state, (f.scan? Sample.namesakes).map (·.candidates.map (·.name)))) =
          some ("L", .unparsed, some ["N"]) ∧
      let ws' := (Sample.redirected.indexPath Sample.namesakes Sample.program).2
      ws'.resolve? "L" "N" = some { path := Sample.near } ∧
        (ws'.file? Sample.program).map (·.outgoing.toList) = some [Sample.near] ∧
        ws'.cache.positions Sample.near = [⟨Sample.program, ⟨0, 0⟩⟩] ∧
        ws'.cache.positions Sample.far = [⟨Sample.program, ⟨0, 0⟩⟩] :=
  ⟨Sample.reachable_after _, by decide +kernel⟩

end Workspace

end Steplib
