import Steplib.Proofs.Workspace.Tenure

/-!
# Unresolved references on record

A file whose module refers to a name is tracked: it waits for the name, or it has an edge to a file
that holds the name, or it holds the name itself. When a file that holds a name is deleted, its
callers are told, so they wait for the name from then on. Nobody is told when a file gives up a name
and stays, since a scan gives it another one, and a file that is created once more is taken off the
record without being woken. Apart from these two, every operation keeps files tracked, so a file
waits for each name of its module that leads nowhere.

## Main definitions

* `Workspace.Keeps`: nobody gives up the name and stays.
* `Workspace.Tracked`: the file waits for the name or is bound to a file that holds it.
* `Operation.Spares`: no file is created that is there already and waits for the name.

## Main results

* `Workspace.Arises.tracked_readings`, `Workspace.Arises.tracked_deleteFile`,
  `Workspace.Arises.tracked_createFile`: what keeps files tracked.
* `Workspace.ReachableBy.unresolved_waits`: a file waits for the names that lead nowhere.
* `Workspace.unresolved_forgotten`: the two ways in which a wait gets lost.
-/

namespace Steplib

/-- The module of the file refers to the name, in any spelling. -/
def ModuleFile.Mentions (f : ModuleFile) (name : String) : Prop :=
  ∃ m, f.state.module? = some m ∧ ∃ other ∈ m.references, Ascii.upper other = name

namespace Workspace

/-- A file that holds the name and is still there holds it still. -/
def Keeps (name : String) (ws ws' : Workspace) : Prop :=
  ∀ library holder, ws.holder? library name = some holder → (ws'.file? holder.path).isSome →
    ws'.holder? library name = some holder

/-- In some library of its search order the file holds the name itself or has an edge to the file
that does. -/
def Bound (ws : Workspace) (name : String) (p : Path) (f : ModuleFile) : Prop :=
  ∃ chain, ws.chain? f.library = some chain ∧ ∃ steplib ∈ chain, ∃ holder,
    ws.holder? steplib name = some holder ∧
      (holder.path.same p = true ∨ f.outgoing.contains holder.path = true)

/-- If the module of the file at the path refers to the name, the file waits for the name or is
bound to a file that holds it. -/
def Tracked (ws : Workspace) (name : String) (p : Path) : Prop :=
  ∀ f, ws.file? p = some f → f.Mentions name → ws.waiting.Waits p name ∨ ws.Bound name p f

variable {sources : Sources} {ws ws₁ ws' : Workspace} {f f' : ModuleFile} {p q : Path}
  {name : String}

/-! ### Names that are kept throughout -/

section Keeps

variable (h : Tenure sources ws ws₁) (h' : Tenure sources ws₁ ws') (hkeeps : Keeps name ws ws')

include h h' hkeeps

/-- A name that is kept from first to last is not given up in between: the file that gives it up
does not get it back. -/
theorem Tenure.keeps_first (hn' : ws'.Named) : Keeps name ws ws₁ := by
  intro library holder hh _
  refine (h.lost library name holder hh).resolve_right ?_
  rintro ⟨f₁, hf₁, hname, hconfirmed⟩
  obtain ⟨f', hf', hcontinues⟩ := h'.files _ f₁ hf₁
  obtain ⟨-, g, hg, -, -, hgname⟩ := hn'.holds_of_holder? (hkeeps library holder hh (by simp [hf']))
  obtain rfl := Option.some.inj (hf'.symm.trans hg)
  exact hname ((hcontinues.name hconfirmed).1.symm.trans hgname)

/-- A name that is kept from first to last is kept by those who get it in between. -/
theorem Tenure.keeps_last (hn₁ : ws₁.Named) : Keeps name ws₁ ws' := by
  intro library holder hh hlive
  rcases h.gained library name holder hh with hh₀ | ⟨f₁, hf₁, hconfirmed, -⟩
  · exact hkeeps library holder hh₀ hlive
  · refine (h'.lost library name holder hh).resolve_right ?_
    rintro ⟨f', hf', hname, -⟩
    obtain ⟨-, g, hg, -, -, hgname⟩ := hn₁.holds_of_holder? hh
    obtain rfl := Option.some.inj (hf₁.symm.trans hg)
    obtain ⟨g', hg', hcontinues⟩ := h'.files _ f₁ hf₁
    obtain rfl := Option.some.inj (hf'.symm.trans hg')
    exact hname ((hcontinues.name hconfirmed).1.trans hgname)

end Keeps

/-! ### Files that are tracked -/

theorem Tracked.congr (h : p.same q = true) : ws.Tracked name p ↔ ws.Tracked name q := by
  simp only [Tracked, Bound, ws.file?_congr h, WaitingIndex.Waits.congr h, Path.same_congr_right h]

/-- A tracked file waits for a name that leads nowhere. -/
theorem Tracked.waits (h : ws.Tracked (Ascii.upper name) p) (hf : ws.file? p = some f)
    (hm : f.Mentions (Ascii.upper name)) (hnone : ws.resolve? f.library name = none) :
    ws.waiting.Waits p (Ascii.upper name) := by
  refine (h f hf hm).resolve_right ?_
  rintro ⟨chain, hchain, steplib, hmem, holder, hholder, -⟩
  rw [resolve?_eq, hchain, Option.bind_some, List.findSome?_eq_none_iff] at hnone
  simp [hnone steplib hmem] at hholder

/-- A file in step is tracked. -/
theorem InStep.tracked (h : InStep sources ws p) (hk : ws.Keyed) (name : String) :
    ws.Tracked name p := by
  rintro f hf ⟨m, hm, other, hother, rfl⟩
  obtain ⟨g, hg, hfollows⟩ := h
  obtain rfl := Option.some.inj (hf.symm.trans hg)
  have hpath := hk p f hf
  have hreferred : f.referred sources = m.references := by rw [ModuleFile.referred, hm]
  rw [← hreferred] at hother
  cases hr : ws.resolve? f.library other with
  | none =>
    refine .inl ?_
    rw [← WaitingIndex.Waits.congr hpath]
    exact (hfollows.waits_upper_iff hother).2 hr
  | some holder =>
    rw [resolve?_eq] at hr
    obtain ⟨chain, hchain, hfind⟩ := Option.bind_eq_some_iff.1 hr
    obtain ⟨steplib, hmem, hholder⟩ := List.exists_of_findSome?_eq_some hfind
    refine .inr ⟨chain, hchain, steplib, hmem, holder, hholder, ?_⟩
    cases hself : holder.path.same f.path with
    | true => exact .inl (by rw [← Path.same_congr_right hpath, hself])
    | false =>
      refine .inr (hfollows.contains_outgoing_iff.2 ⟨other, hother, holder, ?_, hself, ?_⟩)
      · rw [resolve?_eq, hr]
      · exact Path.same_refl _

/-- A file without a module is tracked. -/
theorem Tracked.of_no_module (h : ∀ f, ws.file? p = some f → f.state.module? = none) :
    ws.Tracked name p := by
  rintro f hf ⟨m, hm, -⟩
  simp [h f hf] at hm

/-- A file stays tracked as long as it keeps its edges and its wait and nobody gives up the
name. -/
theorem Tracked.mono (h : ws.Tracked name p) (hheads : ws'.heads = ws.heads)
    (hfile : ∀ f', ws'.file? p = some f' → f'.Mentions name → ∃ f, ws.file? p = some f ∧
      f.Mentions name ∧ f'.library = f.library ∧
        ∀ q, f.outgoing.contains q = true → f'.outgoing.contains q = true)
    (hwaits : ws.waiting.Waits p name → ws'.waiting.Waits p name)
    (hholders : ∀ library holder, ws.holder? library name = some holder →
      ws'.holder? library name = some holder) : ws'.Tracked name p := by
  intro f' hf' hm'
  obtain ⟨f, hf, hm, hlibrary, hedges⟩ := hfile f' hf' hm'
  refine (h f hf hm).imp hwaits ?_
  rintro ⟨chain, hchain, steplib, hmem, holder, hholder, hbound⟩
  refine ⟨chain, ?_, steplib, hmem, holder, hholders _ _ hholder, hbound.imp_right (hedges _)⟩
  rw [hlibrary, chain?_eq_of_heads hheads, hchain]

theorem Tracked.kept (h : ws.Tracked name p) (hkept : Kept ws ws' p)
    (hskeleton : ws'.skeleton = ws.skeleton) : ws'.Tracked name p := by
  have hlibraries := libraries_eq_of_skeleton hskeleton
  refine h.mono (by rw [heads, hlibraries, heads]) (fun f' hf' hm' => ?_) (hkept.waits name).2
    fun library holder hh => by rw [holder?_eq_of_skeleton hskeleton, hh]
  obtain ⟨f, hf, ho⟩ := hkept.symm.exists_file hf'
  have hlibrary : f.library = f'.library := congrArg (·.library) ho
  have hstate : f.state = f'.state := congrArg (·.state) ho
  have hedges : f.outgoing = f'.outgoing := congrArg (·.outgoing) ho
  refine ⟨f, hf, ?_, hlibrary.symm, fun q => by rw [hedges]; exact id⟩
  rwa [ModuleFile.Mentions, hstate]

/-! ### Reading files -/

theorem Aligns.tracked (h : Aligns sources q ws ws') (hk' : ws'.Keyed) (ht : ws.Tracked name p) :
    ws'.Tracked name p := by
  cases hs : q.same p with
  | true => exact ((InStep.congr hs).1 h.inStep).tracked hk' name
  | false => exact ht.kept (h.others p hs) h.skeleton

/-- A file stays tracked while others are read, as long as nobody gives up the name. -/
theorem Arises.tracked_reading (ha : Arises ws) (h : Reading sources ws ws')
    (hkeeps : Keeps name ws ws') (ht : ws.Tracked name p) : ws'.Tracked name p := by
  have hk' := (ha.move h.move).keyed
  have hsome := h.isSome_file?
  cases h with
  | parse f hf find =>
    exact Aligns.tracked (aligns_install ha.mirrored hf _ _ : Aligns sources _ _ _) hk' ht
  | name f s hf hs =>
    refine ht.mono (heads_registerScannedName ..) (fun g' hg' hm' => ?_) (fun hw => ?_)
      fun library holder hh => hkeeps library holder hh ?_
    · rw [file?_registerScannedName] at hg'
      split at hg'
      · obtain ⟨g, hg, rfl⟩ := Option.map_eq_some_iff.1 hg'
        exact ⟨g, hg, hm', rfl, fun _ => id⟩
      · exact ⟨g', hg', hm', rfl, fun _ => id⟩
    · rw [registerScannedName]
      split <;> exact hw
    · obtain ⟨-, g, hg, -⟩ := ha.named.holds_of_holder? hh
      rw [hsome, hg]
      rfl
  | scan f s hf hs =>
    cases hstate : f.state with
    | unparsed => exact (aligns_registerScan ha.mirrored hf hs (.inl hstate)).tracked hk' ht
    | closed => exact (aligns_registerScan ha.mirrored hf hs (.inr hstate)).tracked hk' ht
    | _ => simpa [registerScan, hstate] using ht

theorem Arises.tracked_readings (ha : Arises ws) (h : Readings sources ws ws')
    (hkeeps : Keeps name ws ws') (ht : ws.Tracked name p) : ws'.Tracked name p := by
  induction h with
  | refl => exact ht
  | tail hbefore hlast ih =>
    have ha₁ := ha.moves (Readings.moves hbefore)
    have hfirst := ha.tenure_readings hbefore
    have hsecond := ha₁.tenure_reading hlast
    refine ha₁.tracked_reading hlast (hfirst.keeps_last hsecond hkeeps ha₁.named) (ih ?_)
    exact hfirst.keeps_first hsecond hkeeps (ha₁.move hlast.move).named

/-! ### Files that are edited, come and go -/

/-- An edit gives a file no other module. -/
theorem module?_of_edit {e : Edit} {m : Module} (hm : (e.apply f).state.module? = some m) :
    f.state.module? = some m := by
  cases e with
  | overlay text => exact hm
  | publish tool ds => exact hm
  | markStale => simpa [Edit.apply, markStale_eq] using hm
  | close =>
    simp only [Edit.apply, ModuleFile.close] at hm
    split at hm
    · simp [ModuleState.module?] at hm
    · exact hm

theorem Tracked.edit (h : ws.Tracked name p) (q : Path) (e : Edit) :
    (ws.modifyFile q e.apply).Tracked name p := by
  refine h.mono rfl (fun f' hf' hm' => ?_) id fun _ _ => id
  rw [file?_modifyFile] at hf'
  split at hf'
  · obtain ⟨f, hf, rfl⟩ := Option.map_eq_some_iff.1 hf'
    have hlibrary : (e.apply f).library = f.library := congrArg Identity.library (identity_edit e f)
    have hedges : (e.apply f).outgoing = f.outgoing := congrArg Prod.fst (edges_edit e f)
    obtain ⟨m, hm, hname⟩ := hm'
    exact ⟨f, hf, ⟨m, module?_of_edit hm, hname⟩, hlibrary, fun q => by rw [hedges]; exact id⟩
  · exact ⟨f', hf', hm', rfl, fun _ => id⟩

theorem Named.tracked_addFile (hn : ws.Named) (q : Path) (h : ws.Tracked name p) :
    (ws.addFile q).2.Tracked name p := by
  rcases ws.addFile_cases q with ⟨heq, -⟩ | ⟨new, hnew, hq, -⟩
  · rwa [heq]
  · have hmodule : new.state.module? = none := by
      obtain ⟨l, -, type, rfl⟩ := newFile?_cases hnew
      rfl
    refine h.mono (heads_addFile hnew hq) (fun f' hf' hm' => ?_)
      (by rw [(ws.records_addFile q).1]; exact id) fun library holder hh => ?_
    · rw [file?_addFile hnew hq] at hf'
      split at hf'
      · obtain rfl := Option.some.inj hf'
        obtain ⟨m, hm, -⟩ := hm'
        simp [hmodule] at hm
      · exact ⟨f', hf', hm', rfl, fun _ => id⟩
    · rw [holder?_addFile hnew hq hn, hh]
      exact ite_self _

/-- When the file that holds the name is deleted, those that were bound to it wait for the name. -/
theorem Arises.tracked_deleteFile (ha : Arises ws) (q : Path) (h : ws.Tracked name p) :
    (ws.deleteFile q).2.Tracked name p := by
  cases hq : ws.file? q with
  | none =>
    simp only [deleteFile, hq]
    exact h
  | some t =>
    intro f' hf' hm'
    rw [file?_deleteFile hq] at hf'
    split at hf'
    · simp at hf'
    · rename_i hother
      have hother : q.same p = false := by simpa using hother
      obtain ⟨f, hf, rfl⟩ := Option.map_eq_some_iff.1 hf'
      have hm : f.Mentions name := by
        obtain ⟨m, hm, hname⟩ := hm'
        exact ⟨m, by rwa [module?_released] at hm, hname⟩
      rw [ha.waits_deleteFile hq]
      rcases h f hf hm with hwaits | ⟨chain, hchain, steplib, hmem, holder, hholder, hbound⟩
      · exact .inl ⟨hother, .inl hwaits⟩
      · cases hs : holder.path.same q with
        | true =>
          -- the file was bound to the deleted one, which carries the name
          obtain ⟨-, rfl⟩ := ha.named.eq_of_holder?_same hq hholder hs
          have hedge : f.outgoing.contains q = true := by
            rw [← f.outgoing.contains_congr hs]
            refine hbound.resolve_left fun hself => ?_
            rw [Path.same_comm, ← Path.same_congr_left hself, hs] at hother
            simp at hother
          exact .inl ⟨hother, .inr ⟨rfl, (calls_iff hf).2 hedge⟩⟩
        | false =>
          refine .inr ⟨chain, ?_, steplib, hmem, holder, ?_, hbound.imp_right fun hedge => ?_⟩
          · have hlibrary : (released q t p f).library = f.library :=
              congrArg Identity.library (identity_released q t p f)
            rw [hlibrary, chain?_eq_of_heads (heads_deleteFile ws q), hchain]
          · rw [ha.named.holder?_deleteFile hq, hholder]
            simp [Option.filter_some, hs]
          · rw [outgoing_released]
            split
            · rw [PathSet.contains_erase, hedge, Path.same_comm, hs]
              rfl
            · exact hedge

/-! ### Waking the files that wait for the name -/

/-- A name that others wait for is taken off the record. -/
theorem Tracked.dismiss (h : ws.Tracked name p) {taken : String}
    (hname : ws.waiting.Waits p name → Ascii.upper taken ≠ name) :
    (ws.dismiss taken).Tracked name p := by
  refine h.mono rfl (fun f hf hm => ⟨f, hf, hm, rfl, fun _ => id⟩) (fun hw => ?_) fun _ _ => id
  exact WaitingIndex.waits_take.2 ⟨(hname hw).symm, hw⟩

theorem Keyed.unlinked_indexFile (hk : ws.Keyed) (hf : ws.Live f) (sources : Sources) (q : Path) :
    ((ws.indexFile sources f).1.file? q).map unlinked = (ws.file? q).map unlinked := by
  rw [indexFile]
  split
  · rfl
  · rename_i s hs
    have hsame : ((ws.registerScannedName f s).file? f.path).map unlinked = some (unlinked f) := by
      rw [unlinked_registerScannedName, hf]
      rfl
    rw [(reading_registerScan (hk.registerScannedName f s) hsame hs).2,
      unlinked_registerScannedName]

/-- A file that is woken is tracked afterwards. -/
theorem Arises.tracked_wake (ha : Arises ws) (hf : ws.Live f) :
    (ws.wake sources f).2.Tracked name f.path := by
  rcases ha.wake_cases sources hf with heq | ⟨hstate, heq⟩
  · have hstep := (refreshes_parse sources ha.keyed ha.mirrored hf).2
    rw [← heq] at hstep
    exact hstep.tracked (ha.after_wake sources hf).keyed name
  · -- a scan gives the file no module
    refine .of_no_module fun f' hf' => ?_
    have hunlinked := ha.keyed.unlinked_indexFile hf sources f.path
    rw [← heq, hf', hf] at hunlinked
    have hstate' : f'.state = f.state := congrArg (·.state) (Option.some.inj hunlinked)
    rw [hstate']
    rcases hstate with h | h <;> rw [h] <;> rfl

/-- While files are woken one after the other, those are tracked that were so before and those whose
turn has come. -/
theorem Arises.tracked_wakeAll (ha : Arises ws) {self : Path} {paths : List Path}
    (hkeeps : Keeps name ws (ws.wakeAll sources self paths).2)
    (h : ws.Tracked name p ∨ p.same self = false ∧ paths.any (·.same p) = true) :
    (ws.wakeAll sources self paths).2.Tracked name p := by
  induction paths generalizing ws with
  | nil => exact h.resolve_right (by simp)
  | cons q paths ih =>
    rcases ws.skipped_or_woken self q with hskipped | ⟨hself, f, hf⟩
    · rw [wakeAll_cons_of_skipped hskipped] at hkeeps ⊢
      refine ih ha hkeeps (h.elim .inl fun ⟨hother, hany⟩ => ?_)
      cases hs : q.same p with
      | false => exact .inr ⟨hother, by simpa [hs] using hany⟩
      | true =>
        rw [Path.same_congr_left hs, hother, ws.file?_congr hs] at hskipped
        exact .inl (.of_no_module fun f hf => by simp [hf] at hskipped)
    · have hlive := ha.keyed.live hf
      have ha₁ := ha.after_wake sources hlive
      have hwake := readings_wake sources ha.keyed hlive
      have hfirst := ha.tenure_readings hwake
      have hrest := readings_wakeAll sources ha₁.keyed self paths
      have hsecond := ha₁.tenure_readings hrest
      rw [wakeAll_cons_of_woken hself hf] at hkeeps ⊢
      refine ih ha₁ (hfirst.keeps_last hsecond hkeeps ha₁.named) ?_
      cases hs : q.same p with
      | true =>
        have hpath := (Path.same_congr_left (ha.keyed q f hf) p).trans hs
        exact .inl ((Tracked.congr hpath).1 (ha.tracked_wake hlive))
      | false =>
        refine h.imp (ha.tracked_readings hwake ?_) fun ⟨hother, hany⟩ => ⟨hother, ?_⟩
        · exact hfirst.keeps_first hsecond hkeeps (ha₁.moves hrest.moves).named
        · simpa [hs] using hany

/-- Scanning a file that has a module leaves the waits alone. -/
theorem waiting_indexFile {m : Module} (hm : f.state.module? = some m) (sources : Sources) :
    (ws.indexFile sources f).1.waiting = ws.waiting := by
  rw [indexFile]
  split
  · rfl
  · have hstate : f.state = .parsed m ∨ f.state = .stale m := by
      cases hstate : f.state <;> simp_all [ModuleState.module?]
    have hname (s : Scan) : (ws.registerScannedName f s).waiting = ws.waiting := by
      rw [registerScannedName]
      split <;> rfl
    rcases hstate with h | h <;> simp [registerScan, h, hname]

/-- A file with a module that is added was there before. -/
theorem file?_of_addFile {new : ModuleFile} {m : Module} (h : (ws.addFile q).1 = some new)
    (hm : new.state.module? = some m) : ws.file? q = some new := by
  rcases ws.addFile_cases q with ⟨-, hold⟩ | ⟨file, hfile, -, hadd⟩
  · exact hold new h
  · rw [hadd] at h
    obtain rfl := Option.some.inj h
    obtain ⟨l, -, type, rfl⟩ := newFile?_cases hfile
    simp [ModuleState.module?] at hm

/-- A creation leaves every file tracked, as long as nobody gives up the name and the file itself,
if it was there before, does not wait for the name. -/
theorem Arises.tracked_createFile (ha : Arises ws)
    (hkeeps : Keeps name ws (ws.createFile sources q).2.2)
    (hself : (ws.file? q).isSome → ¬ ws.waiting.Waits q name) (h : ws.Tracked name p) :
    (ws.createFile sources q).2.2.Tracked name p := by
  have hadd := ha.named.tracked_addFile q h
  have htenure := ha.named.tenure_addFile sources q
  rcases ha.createFile_cases sources q with heq | ⟨new, w, f, hnew, hw, hf, heq⟩
  · rwa [heq]
  · have ha₁ := ha.addFile q
    have hlive := live_addFile ha.keyed hnew
    have hindex := readings_indexFile sources ha₁.keyed hlive
    have hunlinked := ha₁.keyed.unlinked_indexFile hlive sources
    rw [← hw] at hindex hunlinked
    have hindexed := htenure.trans (ha₁.tenure_readings hindex)
    have ha₂ := ha₁.moves hindex.moves
    have ha₃ := ha₂.dismiss f.name
    have hwake := readings_wakeAll sources ha₃.keyed f.path (w.waiting.waiting f.name)
    have hwoken := ha₃.tenure_readings hwake
    rw [heq] at hkeeps ⊢
    have hrest : Tenure sources w _ := (Tenure.of_skeleton (w.skeleton_dismiss f.name)).trans hwoken
    have hkeeps₂ : Keeps name ws w :=
      hindexed.keeps_first hrest hkeeps (ha₃.moves hwake.moves).named
    have hw₂ : w.Tracked name p := by
      refine ha₁.tracked_readings hindex ?_ hadd
      exact htenure.keeps_last (ha₁.tenure_readings hindex) hkeeps₂ ha₁.named
    refine ha₃.tracked_wakeAll (hindexed.keeps_last hrest hkeeps ha₂.named) ?_
    have hupper := (ha₂.named.file_upper _ f hf).1
    by_cases hexpects : w.waiting.Waits p name ∧ f.name = name
    · obtain ⟨hwaits, rfl⟩ := hexpects
      cases hs : p.same f.path with
      | false => exact .inr ⟨rfl, WaitingIndex.any_waiting_iff.2 (by rwa [hupper])⟩
      | true =>
        -- the file itself is not woken, but if it has a module it has not been waiting
        refine .inl (.of_no_module fun g hg => ?_)
        by_contra hmodule
        obtain ⟨m, hm⟩ := Option.ne_none_iff_exists'.1 hmodule
        have hpath : p.same new.path = true := by
          rw [← Path.same_congr_right (ha₂.keyed _ f hf), hs]
        have hg : w.file? new.path = some g := (w.file?_congr hpath).symm.trans hg
        have hstate := hunlinked new.path
        rw [hg, hlive] at hstate
        have hstate : g.state = new.state := congrArg (·.state) (Option.some.inj hstate)
        rw [hstate] at hm
        have hq := file?_of_addFile hnew hm
        refine hself (by rw [hq]; rfl) ?_
        rw [hw, waiting_indexFile hm, (ws.records_addFile q).1,
          WaitingIndex.Waits.congr hpath] at hwaits
        rwa [← WaitingIndex.Waits.congr (ha.keyed q new hq)]
    · refine .inl (hw₂.dismiss fun hwaits hname => hexpects ⟨hwaits, ?_⟩)
      rw [← hupper, hname]

/-- What nobody gives up, nobody gives up who is left after a deletion. -/
theorem Keeps.deleteFile (h : Keeps name ws ws') (hn : ws.Named) (q : Path) :
    Keeps name (ws.deleteFile q).2 ws' :=
  fun library holder hh => h library holder (hn.holder?_of_deleteFile hh)

theorem Arises.tracked_revises (ha : Arises ws) (h : Revises sources ws ws')
    (hkeeps : Keeps name ws ws') (ht : ws.Tracked name p) : ws'.Tracked name p := by
  obtain h | ⟨q, e, h⟩ := h
  · exact ha.tracked_readings h hkeeps ht
  · have ha₁ := ha.move (.edit ws q e : Move sources _ _)
    exact ha₁.tracked_readings h (fun library holder hh => hkeeps library holder hh) (ht.edit q e)

end Workspace

/-- The operation creates no file that is there already and waits for the name. -/
def Operation.Spares (name : String) (ws : Workspace) : Operation → Prop
  | createFile p => (ws.file? p).isSome → ¬ ws.waiting.Waits p name
  | renameFile old p =>
    ((ws.deleteFile old).2.file? p).isSome → ¬ (ws.deleteFile old).2.waiting.Waits p name
  | _ => True

namespace Workspace

variable {sources : Sources} {ws : Workspace} {c : ModuleFile} {m : Module} {p : Path}
  {name : String} {op : Operation}

/-- Every file stays tracked when an operation makes nobody give up the name and creates no file
that waits for it. -/
theorem Arises.tracked_run (ha : Arises ws) (hkeeps : Keeps name ws (op.run sources ws))
    (hspares : op.Spares name ws) (h : ws.Tracked name p) : (op.run sources ws).Tracked name p := by
  cases op with
  | addFile q => exact ha.named.tracked_addFile q h
  | createFile q => exact ha.tracked_createFile hkeeps hspares h
  | deleteFile q => exact ha.tracked_deleteFile q h
  | renameFile q new =>
    have ha₁ := ha.move (.delete ws q : Move sources _ _)
    exact ha₁.tracked_createFile (hkeeps.deleteFile ha.named q) hspares (ha.tracked_deleteFile q h)
  | _ => exact ha.tracked_revises (revises_run sources ha.keyed rfl) hkeeps h

/-- A file whose module refers to a name that leads nowhere waits for the name, if no file has ever
given up the name while it stayed in the project and no file was created that was there already and
waited for it. -/
theorem ReachableBy.unresolved_waits (h : ReachableBy (fun sources ws op =>
      Keeps (Ascii.upper name) ws (op.run sources ws) ∧ op.Spares (Ascii.upper name) ws) ws)
    (hc : ws.file? p = some c) (hm : c.state.module? = some m) (hname : name ∈ m.references)
    (hnone : ws.resolve? c.library name = none) :
    (ws.waiting.waiting name).any (·.same p) = true := by
  have htracked : ws.Tracked (Ascii.upper name) p := by
    clear hc hnone
    induction h with
    | fresh => exact .of_no_module (by simp)
    | run h sources op hop ih => exact h.reachable.arises.tracked_run hop.1 hop.2 ih
  exact WaitingIndex.any_waiting_iff.2 (htracked.waits hc ⟨m, hm, name, hname, rfl⟩ hnone)

/-- Whether a name is kept can be checked library by library. -/
theorem Keeps.of_libraries {ws' : Workspace}
    (h : ∀ l ∈ ws.libraries, (l.modules.get? name).all (fun holder =>
      (ws'.file? holder.path).isNone || ws'.holder? l.name name == some holder) = true) :
    Keeps name ws ws' := by
  intro library holder hh hlive
  obtain ⟨l, hl, hget⟩ := Option.bind_eq_some_iff.1 hh
  have hname : l.name = library := by simpa using List.find?_some hl
  have hl := h l (mem_of_libraryNamed? hl)
  rw [hget, hname] at hl
  simpa [Option.isNone_eq_false_iff.2 hlive] using hl

end Workspace

namespace Sample

/-- In the library `L` the program `C` performs `X`, and the subroutine `D` has the given header. -/
def headed (header : String) : Sources := fun p =>
  match p.text with
  | "L/C.NSP" => .ok "PERFORM X"
  | "L/D.NSS" => .ok ("DEFINE SUBROUTINE " ++ header ++ "\nEND-SUBROUTINE")
  | _ => .error .notFound

/-- The program was opened while the subroutine had the name `X`. Since then the header has been
changed and the subroutine has been scanned again. -/
def renamed : Workspace :=
  continued (headed "Y") (continued (headed "X") (after [])
    [.addFile program, .addFile subroutine, .indexAll false, .openFile program])
    [.indexPath subroutine]

/-- The program `N` has been waiting for the subprogram `N` since that was deleted, and then the
program was created once more. -/
def recreated : Workspace :=
  continued twins (after [])
    [.createFile near, .createFile twin, .openFile twin, .deleteFile near, .createFile twin]

end Sample

namespace Workspace

/-- The program waits for `N` when the subprogram that it calls has been deleted. -/
theorem ReachableBy.unresolved_waits_sample :
    ∃ ws c m, ReachableBy (fun sources ws op =>
        Keeps (Ascii.upper "N") ws (op.run sources ws) ∧ op.Spares (Ascii.upper "N") ws) ws ∧
      ws.file? Sample.program = some c ∧ c.state.module? = some m ∧ "N" ∈ m.references ∧
      ws.resolve? c.library "N" = none ∧
      (ws.waiting.waiting "N").any (·.same Sample.program) = true := by
  let allowed := fun (sources : Sources) (ws : Workspace) (op : Operation) =>
    Keeps (Ascii.upper "N") ws (op.run sources ws) ∧ op.Spares (Ascii.upper "N") ws
  have hfresh : ReachableBy allowed (Sample.after []) := .fresh ..
  have hfar : ReachableBy allowed (Sample.after [.createFile Sample.far]) :=
    hfresh.run Sample.namesakes (.createFile Sample.far)
      ⟨.of_libraries (by decide +kernel), fun h => absurd h (by decide +kernel)⟩
  have hprogram : ReachableBy allowed
      (Sample.after [.createFile Sample.far, .createFile Sample.program]) :=
    hfar.run Sample.namesakes (.createFile Sample.program)
      ⟨.of_libraries (by decide +kernel), fun h => absurd h (by decide +kernel)⟩
  have hopen : ReachableBy allowed (Sample.after
      [.createFile Sample.far, .createFile Sample.program, .openFile Sample.program]) :=
    hprogram.run Sample.namesakes (.openFile Sample.program)
      ⟨.of_libraries (by decide +kernel), trivial⟩
  have hgone : ReachableBy allowed (Sample.after [.createFile Sample.far,
      .createFile Sample.program, .openFile Sample.program, .deleteFile Sample.far]) :=
    hopen.run Sample.namesakes (.deleteFile Sample.far)
      ⟨.of_libraries (by decide +kernel), trivial⟩
  obtain ⟨c, hc, h⟩ := (Option.any_eq_true _ _).1
    (by decide +kernel : ((Sample.after [.createFile Sample.far, .createFile Sample.program,
      .openFile Sample.program, .deleteFile Sample.far]).file? Sample.program).any (fun c =>
        c.library == "L" && c.state.module?.any (·.references.contains "N")) = true)
  simp only [Bool.and_eq_true, beq_iff_eq, Option.any_eq_true, List.contains_iff_mem] at h
  obtain ⟨hlibrary, m, hm, hname⟩ := h
  have hnone : (Sample.after [.createFile Sample.far, .createFile Sample.program,
      .openFile Sample.program, .deleteFile Sample.far]).resolve? c.library "N" = none := by
    rw [hlibrary]
    decide +kernel
  exact ⟨_, c, m, hgone, hc, hm, hname, hnone, unresolved_waits hgone hc hm hname hnone⟩

/-- The program `C` does not wait for `X`, which has led nowhere since the subroutine got another
name, and the program `N` does not wait for the subprogram `N`, since it was created once more. -/
theorem unresolved_forgotten :
    (Reachable Sample.renamed ∧
      (Sample.renamed.file? Sample.program).map (fun c =>
        (c.library, c.state.module?.map (·.references))) = some ("L", some ["X"]) ∧
      Sample.renamed.resolve? "L" "X" = none ∧ Sample.renamed.waiting.waiting "X" = []) ∧
    Reachable Sample.recreated ∧
      (Sample.recreated.file? Sample.twin).map (fun c =>
        (c.library, c.state.module?.map (·.references))) = some ("L", some ["N"]) ∧
      Sample.recreated.resolve? "L" "N" = none ∧ Sample.recreated.waiting.waiting "N" = [] := by
  have hreachable := Sample.reachable_continued (Sample.reachable_after [])
  exact ⟨⟨Sample.reachable_continued (hreachable _ _) _ _, by decide +kernel⟩, hreachable _ _,
    by decide +kernel⟩

end Workspace

end Steplib
