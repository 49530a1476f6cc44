import Steplib.Proofs.Workspace.OnRecord
import Steplib.Proofs.Workspace.Provisional

/-!
# Known callers

A file with a module that has an edge to another one refers to it by its name, as long as that file
keeps the name it held when the edge was made. So a search for the references to a file finds every
caller with a module, and a caller without one is found in the cache, unless the caller was closed
and nothing of it is cached.

## Main definitions

* `Workspace.KeepsName`: a file that holds its name carries the same name afterwards.
* `Workspace.CallsByName`: an edge of a file with a module comes from a name in the module.

## Main results

* `Workspace.Tenure.keepsName_first`, `Workspace.Tenure.keepsName_last`: a name that is kept from
  first to last is kept in between.
* `Workspace.Arises.callsByName_run`: operations keep edges explained by names.
* `Workspace.ReachableBy.finds_caller_iff`: which callers a search for references finds.
* `Workspace.closed_caller_missed`: a caller that was closed is missed.
-/

namespace Steplib

namespace Workspace

/-- If the file at the path holds its name and is still there afterwards, it carries the same
name. -/
def KeepsName (t : Path) (ws ws' : Workspace) : Prop :=
  ∀ f f', ws.file? t = some f → ws.Registered f → ws'.file? t = some f' → f'.name = f.name

/-- If the file at `c` has a module and an edge to the file at `t`, then that file holds its name
and the module refers to it. -/
def CallsByName (ws : Workspace) (t c : Path) : Prop :=
  ∀ f target, ws.file? c = some f → ws.file? t = some target → f.outgoing.contains t = true →
    f.state.module?.isSome = true → ws.Registered target ∧ f.Mentions target.name

variable {sources : Sources} {ws ws₁ ws' : Workspace} {f f' target caller : ModuleFile}
  {p q c t : Path}

/-! ### Names that are kept throughout -/

/-- A file holds its name if the same file holds it in another workspace and the name is held by the
same file in both. -/
theorem Registered.of_identity (h : ws.Registered f) (hid : f'.identity = f.identity)
    (hh : ∀ holder, ws.holder? f.library f.name = some holder →
      ws'.holder? f.library f.name = some holder) :
    ws'.Registered f' ∧ f'.name = f.name := by
  have hlibrary : f'.library = f.library := congrArg Identity.library hid
  have hname : f'.name = f.name := congrArg Identity.name hid
  have hpath : f'.path = f.path := congrArg Identity.path hid
  refine ⟨?_, hname⟩
  rw [Registered, hlibrary, hname, hpath]
  exact hh _ h

/-- A file that keeps its name goes on holding it. -/
theorem Tenure.registered (h : Tenure sources ws ws') (hk : ws.Keyed) (hkeeps : KeepsName t ws ws')
    (hf : ws.file? t = some f) (hregistered : ws.Registered f) (hf' : ws'.file? t = some f') :
    ws'.Registered f' ∧ f'.name = f.name := by
  have hname := hkeeps f f' hf hregistered hf'
  obtain ⟨g, hg, hcontinues⟩ := h.files t f hf
  obtain rfl := Option.some.inj (hf'.symm.trans hg)
  refine ⟨?_, hname⟩
  rw [Registered, hcontinues.library, hname, hcontinues.path]
  refine (h.lost _ _ _ hregistered).resolve_right ?_
  rintro ⟨g, hg, hne, -⟩
  rw [ws'.file?_congr (hk t f hf), hf'] at hg
  exact hne (Option.some.inj hg ▸ hname)

section KeepsName

variable (h : Tenure sources ws ws₁) (h' : Tenure sources ws₁ ws') (hkeeps : KeepsName t ws ws')

include h h' hkeeps

/-- A name that a file has given up does not come back. -/
theorem Tenure.keepsName_first (hk : ws.Keyed) (hn₁ : ws₁.Named) : KeepsName t ws ws₁ := by
  intro f f₁ hf hregistered hf₁
  have hpath := hk t f hf
  rcases h.lost _ _ _ hregistered with hh | ⟨g, hg, hname, hconfirmed⟩
  · obtain ⟨-, g, hg, -, -, hgname⟩ := hn₁.holds_of_holder? hh
    rw [ws₁.file?_congr hpath, hf₁] at hg
    rw [Option.some.inj hg, hgname]
  · rw [ws₁.file?_congr hpath, hf₁] at hg
    obtain rfl := Option.some.inj hg
    obtain ⟨f', hf', hcontinues⟩ := h'.files t f₁ hf₁
    exact absurd ((hcontinues.name hconfirmed).1.symm.trans (hkeeps f f' hf hregistered hf')) hname

/-- A file that gets a name on the way keeps it. -/
theorem Tenure.keepsName_last (hk₁ : ws₁.Keyed) (hn : ws.Named) :
    KeepsName t ws₁ ws' := by
  intro f₁ f' hf₁ hregistered hf'
  have hpath := hk₁ t f₁ hf₁
  obtain ⟨g', hg', hcontinues'⟩ := h'.files t f₁ hf₁
  obtain rfl := Option.some.inj (hf'.symm.trans hg')
  rcases h.gained _ _ _ hregistered with hh | ⟨g, hg, hconfirmed, -⟩
  · obtain ⟨-, f, hf, hfpath, hlibrary, hname⟩ := hn.holds_of_holder? hh
    rw [← hname]
    refine hkeeps f f' ?_ ?_ hf'
    · rw [← ws.file?_congr hpath, hf]
    · rw [Registered, hlibrary, hname, hfpath, hh]
  · rw [ws₁.file?_congr hpath, hf₁] at hg
    obtain rfl := Option.some.inj hg
    exact (hcontinues'.name hconfirmed).1

end KeepsName

/-! ### Edges that come from names -/

/-- What a name resolves to holds the name. -/
theorem Named.registered_of_resolve? (hn : ws.Named) {library name : String} {holder : Holder}
    (hr : ws.resolve? library name = some holder) (hs : holder.path.same t = true)
    (ht : ws.file? t = some target) :
    ws.Registered target ∧ Ascii.upper name = target.name := by
  obtain ⟨steplib, hh⟩ := exists_holder?_of_resolve? hr
  obtain ⟨hlive, g, hg, hpath, hlibrary, hname⟩ := hn.holds_of_holder? hh
  rw [ws.file?_congr hs, ht] at hg
  obtain rfl := Option.some.inj hg
  obtain ⟨path, live⟩ := holder
  refine ⟨?_, hname.symm⟩
  rw [Registered, hlibrary, hname, hh]
  simp_all

/-- The edges of a file in step come from its names. -/
theorem InStep.callsByName (h : InStep sources ws c) (hn : ws.Named) : ws.CallsByName t c := by
  intro f target hf ht hedge hmodule
  obtain ⟨m, hm⟩ := Option.isSome_iff_exists.1 hmodule
  obtain ⟨g, hg, hfollows⟩ := h
  obtain rfl := Option.some.inj (hf.symm.trans hg)
  have hreferred : f.referred sources = m.references := by rw [ModuleFile.referred, hm]
  rw [hfollows.connected, contains_targets_iff, hreferred] at hedge
  obtain ⟨name, hname, holder, hr, -, hs⟩ := hedge
  obtain ⟨hregistered, hupper⟩ := hn.registered_of_resolve? hr hs ht
  exact ⟨hregistered, m, hm, name, hname, hupper⟩

/-- An edge goes on coming from a name as long as the file keeps its module, gets no new edge and
the other file keeps its name. -/
theorem CallsByName.mono (h : ws.CallsByName t c) (hl : ws.Linked)
    (hfile : ∀ f', ws'.file? c = some f' → f'.state.module?.isSome = true →
      f'.outgoing.contains t = true → ∃ f, ws.file? c = some f ∧
        f.state.module? = f'.state.module? ∧ f.outgoing.contains t = true)
    (htarget : ∀ target target', ws.file? t = some target → ws.Registered target →
      ws'.file? t = some target' → ws'.Registered target' ∧ target'.name = target.name) :
    ws'.CallsByName t c := by
  intro f' target' hf' ht' hedge' hmodule'
  obtain ⟨f, hf, hmodule, hedge⟩ := hfile f' hf' hmodule' hedge'
  obtain ⟨target, ht, -⟩ := (hl.symmetric c t).1 ((calls_iff hf).2 hedge)
  obtain ⟨hregistered, m, hm, hname⟩ := h f target hf ht hedge (by rwa [hmodule])
  obtain ⟨hregistered', hsame⟩ := htarget target target' ht hregistered ht'
  exact ⟨hregistered', m, by rw [← hmodule, hm], by rwa [hsame]⟩

/-- Bringing a file in step lets all edges come from names. -/
theorem Aligns.callsByName (h : Aligns sources q ws ws') (hl : ws.Linked) (hn' : ws'.Named)
    (hc : ws.CallsByName t c) : ws'.CallsByName t c := by
  cases hs : q.same c with
  | true => exact ((InStep.congr hs).1 h.inStep).callsByName hn'
  | false =>
    refine hc.mono hl (fun f' hf' _ hedge => ?_) fun target target' ht hregistered ht' => ?_
    · obtain ⟨f, hf, ho⟩ := (h.others c hs).symm.exists_file hf'
      have hstate : f.state = f'.state := congrArg (·.state) ho
      have hedges : f.outgoing = f'.outgoing := congrArg (·.outgoing) ho
      exact ⟨f, hf, by rw [hstate], by rwa [hedges]⟩
    · obtain ⟨g, hg, hb⟩ := exists_file_of_skeleton h.skeleton ht
      obtain rfl := Option.some.inj (ht'.symm.trans hg)
      exact hregistered.of_identity (ModuleFile.identity_eq_of_bare hb) fun holder hh => by
        rwa [holder?_eq_of_skeleton h.skeleton]

/-! ### Reading files -/

theorem Arises.callsByName_reading (ha : Arises ws) (h : Reading sources ws ws')
    (hkeeps : KeepsName t ws ws') (hc : ws.CallsByName t c) : ws'.CallsByName t c := by
  have htenure := ha.tenure_reading h
  have hn' := (ha.move h.move).named
  cases h with
  | parse f hf find =>
    exact Aligns.callsByName (aligns_install ha.mirrored hf _ _ : Aligns sources _ _ _)
      ha.linked hn' hc
  | name f s hf hs =>
    refine hc.mono ha.linked (fun g' hg' _ hedge => ?_) fun target target' ht hregistered ht' =>
      htenure.registered ha.keyed hkeeps ht hregistered ht'
    rw [file?_registerScannedName] at hg'
    split at hg'
    · obtain ⟨g, hg, rfl⟩ := Option.map_eq_some_iff.1 hg'
      exact ⟨g, hg, rfl, hedge⟩
    · exact ⟨g', hg', rfl, hedge⟩
  | scan f s hf hs =>
    by_cases hstate : f.state = .unparsed ∨ f.state = .closed
    · exact (aligns_registerScan ha.mirrored hf hs hstate).callsByName ha.linked hn' hc
    · rwa [registerScan_eq_self hstate]

theorem Arises.callsByName_readings (ha : Arises ws) (h : Readings sources ws ws')
    (hkeeps : KeepsName t ws ws') (hc : ws.CallsByName t c) : ws'.CallsByName t c := by
  induction h with
  | refl => exact hc
  | tail hbefore hlast ih =>
    have ha₁ := ha.moves (Readings.moves hbefore)
    have hfirst := ha.tenure_readings hbefore
    have hsecond := ha₁.tenure_reading hlast
    refine ha₁.callsByName_reading hlast (hfirst.keepsName_last hsecond hkeeps ha₁.keyed ha.named)
      (ih ?_)
    exact hfirst.keepsName_first hsecond hkeeps ha.keyed ha₁.named

/-! ### Files that are edited, come and go -/

theorem exists_file_of_edit {e : Edit} (hf' : (ws.modifyFile q e.apply).file? p = some f') :
    ∃ f, ws.file? p = some f ∧ f'.identity = f.identity := by
  rw [file?_modifyFile] at hf'
  split at hf'
  · obtain ⟨f, hf, rfl⟩ := Option.map_eq_some_iff.1 hf'
    exact ⟨f, hf, identity_edit e f⟩
  · exact ⟨f', hf', rfl⟩

theorem CallsByName.edit (h : ws.CallsByName t c) (hl : ws.Linked) (q : Path) (e : Edit) :
    (ws.modifyFile q e.apply).CallsByName t c := by
  refine h.mono hl (fun f' hf' hmodule hedge => ?_) fun target target' ht hregistered ht' => ?_
  · rw [file?_modifyFile] at hf'
    split at hf'
    · obtain ⟨f, hf, rfl⟩ := Option.map_eq_some_iff.1 hf'
      have hedges : (e.apply f).outgoing = f.outgoing := congrArg Prod.fst (edges_edit e f)
      obtain ⟨m, hm⟩ := Option.isSome_iff_exists.1 hmodule
      exact ⟨f, hf, by rw [hm, module?_of_edit hm], by rwa [← hedges]⟩
    · exact ⟨f', hf', rfl, hedge⟩
  · obtain ⟨g, hg, hid⟩ := exists_file_of_edit ht'
    obtain rfl := Option.some.inj (ht.symm.trans hg)
    exact hregistered.of_identity hid fun _ => id

/-- A new file has no module. -/
theorem Arises.callsByName_addFile (ha : Arises ws) (hkeeps : KeepsName t ws (ws.addFile p).2)
    (hc : ws.CallsByName t c) : (ws.addFile p).2.CallsByName t c := by
  have htenure := ha.named.tenure_addFile (fun _ => .error .notFound) p
  refine hc.mono ha.linked (fun f' hf' hmodule hedge => ?_) fun target target' ht hregistered ht' =>
    htenure.registered ha.keyed hkeeps ht hregistered ht'
  rcases ws.addFile_cases p with ⟨heq, -⟩ | ⟨new, hnew, hp, -⟩
  · rw [heq] at hf'
    exact ⟨f', hf', rfl, hedge⟩
  · rw [file?_addFile hnew hp] at hf'
    split at hf'
    · obtain rfl := Option.some.inj hf'
      obtain ⟨l, -, type, rfl⟩ := newFile?_cases hnew
      simp [ModuleState.module?] at hmodule
    · exact ⟨f', hf', rfl, hedge⟩

/-- A deletion leaves the names of the other files alone. -/
theorem Arises.callsByName_deleteFile (ha : Arises ws) (q : Path) (hc : ws.CallsByName t c) :
    (ws.deleteFile q).2.CallsByName t c := by
  cases hq : ws.file? q with
  | none =>
    simp only [deleteFile, hq]
    exact hc
  | some g =>
    refine hc.mono ha.linked (fun f' hf' _ hedge => ?_) fun target target' ht hregistered ht' => ?_
    · rw [file?_deleteFile hq] at hf'
      split at hf'
      · simp at hf'
      · obtain ⟨f, hf, rfl⟩ := Option.map_eq_some_iff.1 hf'
        exact ⟨f, hf, (module?_released ..).symm, contains_of_outgoing_released hedge⟩
    · rw [file?_deleteFile hq] at ht'
      split at ht'
      · simp at ht'
      · rename_i hother
        rw [ht] at ht'
        obtain rfl := Option.some.inj ht'
        have hs : target.path.same q = false := by
          rw [Path.same_congr_left (ha.keyed t target ht), Path.same_comm]
          simpa using hother
        refine hregistered.of_identity (identity_released q g t target) fun holder hh => ?_
        obtain rfl := Option.some.inj (hregistered.symm.trans hh)
        rw [ha.named.holder?_deleteFile hq, hregistered]
        simp [Option.filter_some, hs]

/-- A creation leaves edges to come from names. -/
theorem Arises.callsByName_createFile (ha : Arises ws)
    (hkeeps : KeepsName t ws (ws.createFile sources q).2.2) (hc : ws.CallsByName t c) :
    (ws.createFile sources q).2.2.CallsByName t c := by
  have hadd := ha.named.tenure_addFile sources q
  have hadded := (ha.tenure_added sources q).1
  have ha₁ := ha.addFile q
  have hkeeps₁ := hadd.keepsName_last hadded hkeeps ha₁.keyed ha.named
  have hc₁ := ha.callsByName_addFile
    (hadd.keepsName_first hadded hkeeps ha.keyed ha₁.named) hc
  rcases ha.createFile_cases sources q with heq | ⟨new, w, f, hnew, hw, hf, heq⟩
  · rwa [heq]
  · have hindex := readings_indexFile sources ha₁.keyed (live_addFile ha.keyed hnew)
    rw [← hw] at hindex
    have ha₂ := ha₁.moves hindex.moves
    have ha₃ := ha₂.dismiss f.name
    have hwake := readings_wakeAll sources ha₃.keyed f.path (w.waiting.waiting f.name)
    have hwoken : Tenure sources w _ :=
      (Tenure.of_skeleton (w.skeleton_dismiss f.name)).trans (ha₃.tenure_readings hwake)
    have hindexed := ha₁.tenure_readings hindex
    rw [heq] at hkeeps₁ ⊢
    have hc₂ := ha₁.callsByName_readings hindex
      (hindexed.keepsName_first hwoken hkeeps₁ ha₁.keyed ha₂.named) hc₁
    exact ha₃.callsByName_readings hwake
      (hindexed.keepsName_last hwoken hkeeps₁ ha₂.keyed ha₁.named) hc₂

theorem Arises.callsByName_revises (ha : Arises ws) (h : Revises sources ws ws')
    (hkeeps : KeepsName t ws ws') (hc : ws.CallsByName t c) : ws'.CallsByName t c := by
  obtain h | ⟨q, e, h⟩ := h
  · exact ha.callsByName_readings h hkeeps hc
  · have ha₁ := ha.move (.edit ws q e : Move sources _ _)
    refine ha₁.callsByName_readings h (fun f₁ f' hf₁ hregistered hf' => ?_) (hc.edit ha.linked q e)
    obtain ⟨f, hf, hid⟩ := exists_file_of_edit hf₁
    obtain ⟨hregistered, hname⟩ := hregistered.of_identity hid.symm fun _ => id
    rw [hkeeps f f' hf hregistered hf', hname]

/-- What keeps a name, keeps the name of a file that is left after a deletion. -/
theorem KeepsName.deleteFile (h : KeepsName t ws ws') (hn : ws.Named) (q : Path) :
    KeepsName t (ws.deleteFile q).2 ws' := by
  cases hq : ws.file? q with
  | none =>
    simp only [Workspace.deleteFile, hq]
    exact h
  | some g =>
    intro f f' hf hregistered hf'
    rw [file?_deleteFile hq] at hf
    split at hf
    · simp at hf
    · obtain ⟨f₀, hf₀, rfl⟩ := Option.map_eq_some_iff.1 hf
      obtain ⟨hregistered₀, hname⟩ := hregistered.of_identity (identity_released q g t f₀).symm
        fun _ => hn.holder?_of_deleteFile
      rw [h f₀ f' hf₀ hregistered₀ hf', hname]

/-- Edges go on coming from names while an operation keeps the name of the file, unless it takes the
file out of the project. -/
theorem Arises.callsByName_run (ha : Arises ws) (sources : Sources) {op : Operation}
    (hkeeps : op.removes t = false → KeepsName t ws (op.run sources ws))
    (hc : ws.CallsByName t c) : (op.run sources ws).CallsByName t c := by
  cases op with
  | addFile q => exact ha.callsByName_addFile (hkeeps rfl) hc
  | createFile q => exact ha.callsByName_createFile (hkeeps rfl) hc
  | deleteFile q => exact ha.callsByName_deleteFile q hc
  | renameFile q new =>
    have ha₁ := ha.move (.delete ws q : Move sources _ _)
    refine ha₁.callsByName_createFile ?_ (ha.callsByName_deleteFile q hc)
    cases hremoves : q.same t with
    | false => exact (hkeeps hremoves).deleteFile ha.named q
    | true =>
      -- the file is gone, so there is no name to be kept
      intro f f' hf
      rw [absent_deleteFile (.inr hremoves)] at hf
      simp at hf
  | _ => exact ha.callsByName_revises (revises_run sources ha.keyed rfl) (hkeeps rfl) hc

/-! ### Callers that a search finds -/

/-- Of a caller without a module a search for references reports what is cached. -/
theorem Arises.finds_iff_cached (ha : Arises ws) (ht : ws.file? t = some target)
    (hc : ws.file? c = some caller) (hnone : caller.state.module? = none) :
    (∃ r ∈ ws.references t, r.file.same c = true) ↔ ws.Cached c t := by
  have hcalls (m : Module) : ¬ ws.CallsFrom c t m := by
    rintro ⟨f, hf, -, hm⟩
    obtain rfl := Option.some.inj (hc.symm.trans hf)
    simp [hnone] at hm
  rw [cached_iff_exists_mem]
  constructor
  · rintro ⟨r, hr, hs⟩
    have hreports : ws.Reports t c r.span r.provisional := ⟨r, hr, hs, rfl, rfl⟩
    cases hprovisional : r.provisional with
    | false =>
      rw [hprovisional, ha.linked.reports_parsed_iff ht] at hreports
      obtain ⟨m, hm, -⟩ := hreports
      exact absurd hm (hcalls m)
    | true =>
      rw [hprovisional, ha.linked.reports_scanned_iff ht] at hreports
      obtain ⟨⟨x, hx, hsame, -⟩, -⟩ := hreports
      exact ⟨x, hx, hsame⟩
  · rintro ⟨x, hx, hs⟩
    obtain ⟨r, hr, hsame, -⟩ := (ha.linked.reports_scanned_iff ht).2 ⟨⟨x, hx, hs, rfl⟩, hcalls⟩
    exact ⟨r, hr, hsame⟩

/-- A caller that refers to a file by its name is found in its module. -/
theorem Arises.finds_of_mentions (ha : Arises ws) (ht : ws.file? t = some target)
    (hc : ws.file? c = some caller) (hedge : caller.outgoing.contains t = true)
    (hmentions : caller.Mentions target.name) : ∃ r ∈ ws.references t, r.file.same c = true := by
  obtain ⟨m, hm, other, hother, hupper⟩ := hmentions
  have hname : Ascii.eqIgnoreCase other target.name = true := by
    rw [Ascii.eqIgnoreCase_iff, hupper, (ha.named.file_upper t target ht).1]
  obtain ⟨span, hspan⟩ := Module.exists_refersAt_iff.2 ⟨other, hother, hname⟩
  obtain ⟨r, hr, hs, -⟩ :=
    (ha.linked.reports_parsed_iff ht).2 ⟨m, ⟨caller, hc, hedge, hm⟩, hspan⟩
  exact ⟨r, hr, hs⟩

/-- Suppose that no operation has changed the name that the file at `t` held, as happens only when
its header has changed since it was scanned. Then a search for the references to the file finds a
caller exactly when the caller is not closed or something of it is cached. -/
theorem ReachableBy.finds_caller_iff
    (h : ReachableBy (fun sources ws op => op.removes t = false →
      KeepsName t ws (op.run sources ws)) ws)
    (ht : ws.file? t = some target) (hc : ws.file? c = some caller)
    (hcall : target.incoming.contains c = true) :
    (∃ r ∈ ws.references t, r.file.same c = true) ↔
      (caller.state = .closed → ¬ ws.cache.FreeOf c) := by
  have ha := h.reachable.arises
  have hedge : caller.outgoing.contains t = true :=
    (calls_iff hc).1 ((ha.linked.symmetric c t).2 ((calledBy_iff ht).2 hcall))
  have hbyName : ws.CallsByName t c := by
    clear ht hc hcall
    induction h with
    | fresh => exact fun f _ hf => by simp at hf
    | run h sources op hop ih =>
      have ha := h.reachable.arises
      exact ha.callsByName_run sources hop (ih ha)
  cases hm : caller.state.module? with
  | some m =>
    have hmentions := (hbyName caller target hc ht hedge (by rw [hm]; rfl)).2
    refine iff_of_true (ha.finds_of_mentions ht hc hedge hmentions) fun hclosed => ?_
    simp [hclosed, ModuleState.module?] at hm
  | none =>
    rw [ha.finds_iff_cached ht hc hm, freeOf_iff_not_cached]
    rcases (ha.cacheFollows c).complete caller hc hm with ⟨hclosed, hnever⟩ | hall
    · exact iff_of_false (hnever t) fun hsome => hsome hclosed hnever
    · exact iff_of_true (hall t hedge) fun _ hnever => hnever t (hall t hedge)

/-- Whether a name is kept can be checked at the file. -/
theorem KeepsName.of_file (h : (ws.file? t).all (fun f => (ws'.file? t).all
    fun f' => f'.name == f.name) = true) : KeepsName t ws ws' := by
  intro f f' hf _ hf'
  simpa [hf, hf'] using h

end Workspace

namespace Sample

/-- The program that calls the nearer subprogram `N` was opened and closed. -/
def forsaken : Workspace :=
  after [.createFile near, .createFile program, .openFile program, .closeFile program]

/-- Since then all files have been scanned. -/
def revisited : Workspace :=
  after [.createFile near, .createFile program, .openFile program, .closeFile program,
    .indexAll false]

end Sample

namespace Workspace

/-- A search finds the closed program again when it has been scanned. -/
theorem ReachableBy.finds_caller_iff_sample :
    ReachableBy (fun sources ws op => op.removes Sample.near = false →
        KeepsName Sample.near ws (op.run sources ws)) Sample.revisited ∧
      ∃ target caller, Sample.revisited.file? Sample.near = some target ∧
        Sample.revisited.file? Sample.program = some caller ∧
        target.incoming.contains Sample.program = true ∧ caller.state = .closed ∧
        ∃ r ∈ Sample.revisited.references Sample.near, r.file.same Sample.program = true := by
  let allowed := fun (sources : Sources) (ws : Workspace) (op : Operation) =>
    op.removes Sample.near = false → KeepsName Sample.near ws (op.run sources ws)
  have hfresh : ReachableBy allowed (Sample.after []) := .fresh ..
  have hnear : ReachableBy allowed (Sample.after [.createFile Sample.near]) :=
    hfresh.run Sample.namesakes (.createFile Sample.near) fun _ => .of_file (by decide +kernel)
  have hprogram : ReachableBy allowed
      (Sample.after [.createFile Sample.near, .createFile Sample.program]) :=
    hnear.run Sample.namesakes (.createFile Sample.program) fun _ => .of_file (by decide +kernel)
  have hopen : ReachableBy allowed (Sample.after [.createFile Sample.near,
      .createFile Sample.program, .openFile Sample.program]) :=
    hprogram.run Sample.namesakes (.openFile Sample.program) fun _ => .of_file (by decide +kernel)
  have hclose : ReachableBy allowed Sample.forsaken :=
    hopen.run Sample.namesakes (.closeFile Sample.program) fun _ => .of_file (by decide +kernel)
  have hindex : ReachableBy allowed Sample.revisited :=
    hclose.run Sample.namesakes (.indexAll false) fun _ => .of_file (by decide +kernel)
  obtain ⟨target, ht, hcall⟩ := (Option.any_eq_true _ _).1
    (by decide +kernel : (Sample.revisited.file? Sample.near).any
      (·.incoming.contains Sample.program) = true)
  obtain ⟨caller, hc, hclosed⟩ := (Option.any_eq_true _ _).1
    (by decide +kernel : (Sample.revisited.file? Sample.program).any (·.state == .closed) = true)
  obtain ⟨x, hx, hs⟩ := List.any_eq_true.1
    (by decide +kernel : (Sample.revisited.cache.positions Sample.near).any
      (·.file.same Sample.program) = true)
  refine ⟨hindex, target, caller, ht, hc, hcall, beq_iff_eq.1 hclosed, ?_⟩
  exact (finds_caller_iff hindex ht hc hcall).2 fun _ hfree => by simp [hfree _ x hx] at hs

/-- The closed program has its edge to the subprogram, and the subprogram lists it as its caller,
but a search for the references to the subprogram finds nothing. No file is named by a header. -/
theorem closed_caller_missed :
    Reachable Sample.forsaken ∧
      (Sample.forsaken.files.values.all fun f => !f.type.hasHeaderName) = true ∧
      (Sample.forsaken.file? Sample.program).map (fun c => (c.state, c.outgoing.toList)) =
        some (.closed, [Sample.near]) ∧
      (Sample.forsaken.file? Sample.near).map (·.incoming.toList) = some [Sample.program] ∧
      Sample.forsaken.references Sample.near = [] := by
  refine ⟨Sample.reachable_after _, by decide +kernel, by decide +kernel, by decide +kernel, ?_⟩
  obtain ⟨target, ht, h⟩ := (Option.any_eq_true _ _).1
    (by decide +kernel : (Sample.forsaken.file? Sample.near).any (fun target =>
      (Sample.forsaken.parsedCallers target).isEmpty &&
        (Sample.forsaken.cache.positions Sample.near).isEmpty) = true)
  simp only [Bool.and_eq_true, List.isEmpty_iff] at h
  simp [references, ht, h.1, h.2, Reference.inOrder, Reference.dropRepeated]

end Workspace

end Steplib
