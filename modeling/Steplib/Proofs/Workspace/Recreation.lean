import Steplib.Proofs.Workspace.Opening
import Steplib.Proofs.Workspace.Provisional
import Steplib.Proofs.Workspace.Traces

/-!
# Deleting a file and creating it again

A deletion withdraws the name of a file and leaves its callers waiting for it. When the file is
created again, it finds its name free, or held by another file as before, and its callers are told.
In a workspace that has been loaded and indexed everything is therefore as it was before the
deletion: a name is held by the file that held it, also if several files of a library or of a
steplib claim it, and the graph follows from the files.

## Main definitions

* `Workspace.Catalogued`: files are named by their scans, and what a file claims is held.
* `Workspace.NamesTaken`: files have taken over the names of their headers.

## Main results

* `Workspace.Loaded.catalogued_indexAll`: a loaded workspace is catalogued by indexing it.
* `Workspace.Catalogued.ready_deleteFile`: a deleted file can come again.
* `Workspace.Loaded.recreation_identity`: deletion and creation lead back to the same graph.
-/

namespace Steplib

theorem ModuleFile.claims_eq_of_bare {sources : Sources} {f g : ModuleFile} (h : f.bare = g.bare) :
    f.claims sources = g.claims sources := by
  rw [claims, claims, type_eq_of_bare h, Workspace.scan?_eq_of_bare h]

namespace Workspace

/-- The graph follows from the files, each file is the one that its path stands for under the name
that its scan gives it, and names are held by files that claim one. What a file claims is held, if
not by the file itself then by another one. -/
structure Catalogued (sources : Sources) (ws : Workspace) : Prop extends Charted sources ws where
  searches : ws.SearchesItself
  placed : ∀ f, ws.Live f →
    ∃ new, ws.newFile? f.path = some new ∧ f.bare = new.settle sources
  held : ∀ f, ws.Live f → f.claims sources = true → (ws.holder? f.library f.name).isSome
  claimed : ∀ library name holder, ws.holder? library name = some holder →
    ∃ f, ws.file? holder.path = some f ∧ f.claims sources = true

/-- The files that are named by their headers have taken over those of the names of their scans that
were free, and no other name has been touched. -/
structure NamesTaken (scans : List (ModuleFile × Scan)) (ws ws' : Workspace) : Prop where
  kept : ∀ library name holder, ws.holder? library name = some holder →
    ws'.holder? library name = some holder
  held : ∀ e ∈ scans, e.1.type.hasHeaderName = true →
    (ws'.holder? e.1.library (e.1.scannedName e.2)).isSome
  taken : ∀ library name holder, ws'.holder? library name = some holder →
    ws.holder? library name = some holder ∨
      ∃ e ∈ scans, e.1.type.hasHeaderName = true ∧ holder.path = e.1.path

variable {sources : Sources} {ws ws₁ ws' : Workspace} {f t new : ModuleFile} {p q : Path}
  {library name : String} {holder : Holder} {e : ModuleFile × Scan}
  {scans : List (ModuleFile × Scan)}

/-! ### The names of a loaded workspace -/

theorem Loaded.searches (h : Loaded ws) : ws.SearchesItself := by
  induction h with
  | fresh root faults severity libraries =>
    exact searchesItself_fresh root faults severity libraries
  | @add ws _ p ih =>
    rcases ws.addFile_cases p with ⟨hkept, -⟩ | ⟨new, hnew, hp, -⟩
    · rwa [hkept]
    · exact ih.of_heads (heads_addFile hnew hp)

/-- No references of a loaded workspace are known. -/
theorem Loaded.records (h : Loaded ws) : ws.waiting = {} ∧ ws.cache = {} := by
  induction h with
  | fresh => simp
  | @add ws _ p ih =>
    obtain ⟨hwaiting, hcache⟩ := ws.records_addFile p
    rw [hwaiting, hcache]
    exact ih

/-- A file that was added is the one that its path stands for. -/
theorem Loaded.newFile? (h : Loaded ws) (hf : ws.file? q = some f) :
    ws.newFile? f.path = some f := by
  induction h generalizing q with
  | fresh => simp at hf
  | @add ws _ p ih =>
    rcases ws.addFile_cases p with ⟨hkept, -⟩ | ⟨new, hnew, hp, -⟩
    · rw [hkept] at hf ⊢
      exact ih hf
    · rw [newFile?_eq_of_heads (heads_addFile hnew hp)]
      rw [file?_addFile hnew hp] at hf
      split at hf
      · obtain rfl := Option.some.inj hf
        rwa [path_newFile? hnew]
      · exact ih hf

/-- A stem that a file claims is held. -/
theorem Loaded.held (h : Loaded ws) (hf : ws.file? q = some f)
    (hstem : Workspace.claimsStem f = true) : (ws.holder? f.library f.name).isSome := by
  induction h generalizing q with
  | fresh => simp at hf
  | @add ws hloaded p ih =>
    rcases ws.addFile_cases p with ⟨hkept, -⟩ | ⟨new, hnew, hp, -⟩
    · rw [hkept] at hf ⊢
      exact ih hf
    · rw [file?_addFile hnew hp] at hf
      rw [holder?_addFile hnew hp hloaded.arises.named]
      split
      · rfl
      · rename_i hother
        split at hf
        · obtain rfl := Option.some.inj hf
          exact absurd ⟨by simpa [Workspace.claimsStem] using hstem, rfl, rfl⟩ hother
        · exact ih hf

/-! ### The names after indexing -/

/-- A file that takes over its name when it holds none gets the name of its scan, if that is free
and files of its type are named by their headers. -/
theorem namesTaken_registerScannedName (hn : ws.Named) (hnew : ws.newFile? e.1.path = some e.1)
    (hself : e.1.type.hasHeaderName = true → ws.Nameless e.1.path) :
    NamesTaken [e] ws (ws.registerScannedName e.1 e.2) := by
  obtain ⟨hupper, hsome⟩ := hn.library_newFile? hnew
  cases htype : e.1.type.hasHeaderName with
  | false =>
    have hsame : ws.registerScannedName e.1 e.2 = ws := by simp [registerScannedName, htype]
    rw [hsame]
    exact ⟨fun _ _ _ => id, by simp [htype], fun _ _ _ => .inl⟩
  | true =>
    have hholder := (hself htype).holder?_registerScannedName e.2
    simp only [htype, true_and, hupper] at hholder
    refine ⟨fun library name holder hh => ?_, ?_, fun library name holder hh => ?_⟩
    · rw [hholder, hh]
      exact ite_self _
    · simp [hholder, hsome]
    · rw [hholder] at hh
      cases hold : ws.holder? library name with
      | some taken =>
        rw [hold] at hh
        exact .inl (by simpa using hh)
      | none =>
        rw [hold] at hh
        split at hh
        · obtain rfl := Option.some.inj hh
          exact .inr ⟨e, List.mem_singleton_self e, htype, rfl⟩
        · simp at hh

theorem NamesTaken.cons (h : NamesTaken [e] ws ws₁) (h' : NamesTaken scans ws₁ ws') :
    NamesTaken (e :: scans) ws ws' := by
  refine ⟨fun library name holder hh => h'.kept _ _ _ (h.kept _ _ _ hh),
    List.forall_mem_cons.2 ⟨fun htype => ?_, h'.held⟩, fun library name holder hh => ?_⟩
  · obtain ⟨holder, hh⟩ :=
      Option.isSome_iff_exists.1 (h.held e (List.mem_singleton_self e) htype)
    rw [h'.kept _ _ _ hh]
    rfl
  · rcases h'.taken _ _ _ hh with hh | ⟨d, hd, hrest⟩
    · refine (h.taken _ _ _ hh).imp_right fun ⟨d, hd, hrest⟩ => ?_
      exact ⟨d, List.mem_cons.2 (.inl (List.mem_singleton.1 hd)), hrest⟩
    · exact .inr ⟨d, List.mem_cons_of_mem e hd, hrest⟩

/-- Other files than those that take over their names get no name. -/
theorem NamesTaken.nameless (h : NamesTaken scans ws ws') (hn : ws'.Named) (hp : ws.Nameless p)
    (hother : ∀ e ∈ scans, e.1.path.same p = false) : ws'.Nameless p :=
  hn.nameless_of_holder? fun library name holder hh => by
    rcases h.taken _ _ _ hh with hh | ⟨e, he, -, hpath⟩
    · exact hp.not_same hh
    · rw [hpath, hother e he]

/-- Many files take over their names. -/
theorem Arises.namesTaken_registerNames (ha : Arises ws)
    (hscans : ∀ e ∈ scans, ws.Live e.1 ∧ e.1.scan? sources = some e.2 ∧
      ws.newFile? e.1.path = some e.1)
    (hdistinct : scans.Pairwise fun a b => a.1.path.same b.1.path = false)
    (hnameless : ∀ e ∈ scans, e.1.type.hasHeaderName = true → ws.Nameless e.1.path) :
    NamesTaken scans ws (ws.registerNames scans) := by
  induction scans generalizing ws with
  | nil => exact ⟨fun _ _ _ => id, by simp, fun _ _ _ => .inl⟩
  | cons e scans ih =>
    obtain ⟨⟨hlive, hscan, hnew⟩, hrest⟩ := List.forall_mem_cons.1 hscans
    obtain ⟨hother, hdistinct⟩ := List.pairwise_cons.1 hdistinct
    obtain ⟨hself, hlater⟩ := List.forall_mem_cons.1 hnameless
    have ha₁ : Arises (ws.registerScannedName e.1 e.2) := ha.move (.name e.1 e.2 hlive hscan)
    have hfirst := namesTaken_registerScannedName ha.named hnew hself
    rw [registerNames_cons]
    refine hfirst.cons (ih ha₁ (registerScannedName_others hother hrest) hdistinct
      fun d hd htype => ?_)
    refine hfirst.nameless ha₁.named (hlater d hd htype) fun c hc => ?_
    rw [List.mem_singleton.1 hc, hother d hd]

/-- Files that are named by their headers hold no name before they are scanned. -/
theorem Loaded.nameless (h : Loaded ws) (hf : ws.Live f) (htype : f.type.hasHeaderName = true) :
    ws.Nameless f.path :=
  h.arises.named.nameless_of_holder? fun library name holder hh => by
    obtain ⟨g, hg, hstem⟩ := h.claimsStem hh
    by_contra hs
    rw [ws.file?_congr (by simpa using hs), hf] at hg
    obtain rfl := Option.some.inj hg
    simp [Workspace.claimsStem, htype] at hstem

section Indexed

variable (h : Loaded ws) (sources : Sources)

include h

/-- A file is there after indexing under the name of its scan. -/
theorem Loaded.exists_file_indexAll (hf : (ws.indexAll sources false).1.file? q = some f) :
    ∃ g, ws.file? q = some g ∧ f.bare = (g.settle sources).bare := by
  have hb := h.file?_indexAll sources q
  rw [hf] at hb
  obtain ⟨g, hg, hb⟩ := Option.map_eq_some_iff.1 hb.symm
  exact ⟨g, hg, hb.symm⟩

theorem Loaded.claims_indexAll {g : ModuleFile} (hg : ws.file? q = some g)
    (hclaims : g.claims sources = true) :
    ∃ f, (ws.indexAll sources false).1.file? q = some f ∧ f.claims sources = true := by
  have hb := h.file?_indexAll sources q
  rw [hg] at hb
  obtain ⟨f, hf, hb⟩ := Option.map_eq_some_iff.1 hb
  exact ⟨f, hf, (ModuleFile.claims_eq_of_bare hb).trans hclaims⟩

/-- A loaded workspace is catalogued by indexing it. -/
theorem Loaded.catalogued_indexAll : Catalogued sources (ws.indexAll sources false).1 := by
  have ha := h.arises
  have hskeleton := (ha.indexes_indexAll h.unparsed sources).refreshes.skeleton
  have hheads : (ws.indexAll sources false).1.heads = ws.heads :=
    (heads_eq_of_skeleton hskeleton).trans (ws.heads_registerNames _)
  have hidle (q : Path) (f : ModuleFile) (hf : ws.file? q = some f) : f.outgoing = .empty := by
    obtain ⟨l, -, type, heq⟩ := newFile?_cases (h.newFile? hf)
    rw [heq]
  have hscans : ∀ e ∈ ws.scans sources, ws.Live e.1 ∧ e.1.scan? sources = some e.2 ∧
      ws.newFile? e.1.path = some e.1 := fun e he => by
    obtain ⟨hlive, hscan⟩ := ha.keyed.live_of_mem_scans he
    exact ⟨hlive, hscan, h.newFile? hlive⟩
  have hnames : NamesTaken (ws.scans sources) ws (ws.registerNames (ws.scans sources)) :=
    ha.namesTaken_registerNames hscans ha.keyed.pairwise_scans fun e he =>
      h.nameless (hscans e he).1
  refine ⟨ha.charted_indexAll h.unparsed hidle h.records.1 h.records.2 sources,
    h.searches.of_heads hheads, fun f hf => ?_, fun f hf hclaims => ?_,
    fun library name holder hh => ?_⟩
  · obtain ⟨g, hg, hb⟩ := h.exists_file_indexAll sources hf
    have hpath : f.path = g.path := (ModuleFile.path_eq_of_bare hb :)
    refine ⟨g, ?_, ?_⟩
    · rw [newFile?_eq_of_heads hheads, hpath]
      exact h.newFile? hg
    · rw [hb]
      obtain ⟨l, -, type, heq⟩ := newFile?_cases (h.newFile? hg)
      rw [heq]
      rfl
  · obtain ⟨g, hg, hb⟩ := h.exists_file_indexAll sources hf
    have hlibrary : f.library = g.library := (ModuleFile.library_eq_of_bare hb :)
    have hname : f.name = g.settledName sources := (ModuleFile.name_eq_of_bare hb :)
    have hclaims : g.claims sources = true := (ModuleFile.claims_eq_of_bare hb).symm.trans hclaims
    rw [holder?_eq_of_skeleton hskeleton, hlibrary, hname]
    cases htype : g.type.hasHeaderName with
    | true =>
      obtain ⟨s, hscan⟩ : ∃ s, g.scan? sources = some s := by
        simpa [ModuleFile.claims, htype, Option.isSome_iff_exists] using hclaims
      rw [ModuleFile.settledName, hscan]
      exact hnames.held (g, s) (mem_scans_of_file? hg hscan) htype
    | false =>
      have hstem : Workspace.claimsStem g = true := by simp [Workspace.claimsStem, htype]
      have hsettle : g.settledName sources = g.name :=
        congrArg (·.name) (settle_of_claimsStem sources hstem)
      obtain ⟨holder, hh⟩ := Option.isSome_iff_exists.1 (h.held hg hstem)
      rw [hsettle, hnames.kept _ _ _ hh]
      rfl
  · rw [holder?_eq_of_skeleton hskeleton] at hh
    rcases hnames.taken _ _ _ hh with hh | ⟨e, he, -, hpath⟩
    · obtain ⟨g, hg, hstem⟩ := h.claimsStem hh
      exact h.claims_indexAll sources hg (Bool.or_eq_true_iff.2 (.inl hstem))
    · obtain ⟨hlive, hscan⟩ := ha.keyed.live_of_mem_scans he
      rw [hpath]
      refine h.claims_indexAll sources hlive (Bool.or_eq_true_iff.2 (.inr ?_))
      rw [hscan]
      rfl

end Indexed

/-! ### The file comes again -/

section Deleted

variable (ha : Arises ws) (ht : ws.Live t)

include ha ht

/-- The other files are there as before, but for their edges with the deleted one. -/
theorem Arises.exists_file_deleteFile (hf : (ws.deleteFile t.path).2.file? q = some f) :
    ∃ g, ws.file? q = some g ∧ t.path.same q = false ∧ f = g.without t.path := by
  have hother := not_same_of_file? (ha.traceless_deleteFile ht).absent hf
  rw [(ha.sheds_deleteFile ht).files q hother] at hf
  obtain ⟨g, hg, rfl⟩ := Option.map_eq_some_iff.1 hf
  exact ⟨g, hg, hother, rfl⟩

theorem Arises.live_deleteFile_iff : (ws.deleteFile t.path).2.Live f ↔
    ∃ g, ws.Live g ∧ t.path.same g.path = false ∧ f = g.without t.path := by
  constructor
  · intro hf
    obtain ⟨g, hg, hother, rfl⟩ := ha.exists_file_deleteFile ht hf
    exact ⟨g, hg, hother, rfl⟩
  · rintro ⟨g, hg, hother, rfl⟩
    have hfile := (ha.sheds_deleteFile ht).files g.path hother
    rw [hg] at hfile
    exact hfile

end Deleted

section Catalogued

variable (h : Catalogued sources ws)

include h

/-- Scanning the files again changes no name. -/
theorem Catalogued.steady (hf : ws.Live f) : ws.Steady sources (fun _ => false) f := by
  obtain ⟨new, -, hb⟩ := h.placed f hf
  have hsettled := new.settledName_settle sources
  rw [← hb] at hsettled
  exact steady_of_settledName hsettled (h.held f hf)

variable (ht : ws.Live t) (hnew : (ws.deleteFile t.path).2.newFile? t.path = some new)

include ht hnew

/-- The file comes again under the name that it had. -/
theorem Catalogued.bare_eq_settle : t.bare = new.settle sources := by
  rw [newFile?_eq_of_heads (heads_deleteFile ws t.path)] at hnew
  obtain ⟨new', hnew', hb⟩ := h.placed t ht
  rw [hb, Option.some.inj (hnew.symm.trans hnew')]

/-- Every name is held by the file that held it when the file has entered again: by another one if
that one came first. -/
theorem Catalogued.holder?_recreate (library name : String) :
    ((ws.deleteFile t.path).2.enter sources new).holder? library name =
      ws.holder? library name := by
  have hn := h.arises.named
  have hb := h.bare_eq_settle ht hnew
  have hlibrary : t.library = new.library := congrArg (·.library) hb
  have hname : t.name = new.settledName sources := congrArg (·.name) hb
  have hclaims : t.claims sources = new.claims sources := congrArg (·.claims sources) hb
  have habsent := (h.arises.traceless_deleteFile ht).absent
  rw [holder?_enter sources hnew habsent (h.arises.deleteFile t.path).named, ← hclaims,
    ← hlibrary, ← hname, hn.holder?_deleteFile ht]
  split
  · rename_i hown
    obtain ⟨hclaimed, rfl, rfl⟩ := hown
    obtain ⟨holder, hholder⟩ := Option.isSome_iff_exists.1 (h.held t ht hclaimed)
    rw [hholder]
    cases hs : holder.path.same t.path with
    | true =>
      obtain ⟨hlive, f, hf, hpath, -⟩ := hn.holds_of_holder? hholder
      rw [ws.file?_congr hs, ht] at hf
      obtain rfl := Option.some.inj hf
      obtain ⟨path, live⟩ := holder
      obtain rfl : t.path = path := hpath
      obtain rfl : live = true := hlive
      simp [Option.filter_some]
    | false => simp [Option.filter_some, hs]
  · rename_i hother
    cases hh : ws.holder? library name with
    | none => rfl
    | some holder =>
      have hs : holder.path.same t.path = false := by
        by_contra hs
        rw [Bool.not_eq_false] at hs
        obtain ⟨hl, hn'⟩ := hn.eq_of_holder?_same ht hh hs
        obtain ⟨f, hf, hclaimed⟩ := h.claimed library name holder hh
        rw [ws.file?_congr hs, ht] at hf
        obtain rfl := Option.some.inj hf
        exact hother ⟨hclaimed, hl, hn'⟩
      simp [Option.filter_some, hs]

theorem Catalogued.heads_recreate :
    ((ws.deleteFile t.path).2.enter sources new).heads = ws.heads :=
  (heads_enter sources hnew (h.arises.traceless_deleteFile ht).absent).trans
    (heads_deleteFile ws t.path)

theorem Catalogued.resolve?_recreate (library name : String) :
    ((ws.deleteFile t.path).2.enter sources new).resolve? library name =
      ws.resolve? library name :=
  resolve?_congr (chain?_eq_of_heads (h.heads_recreate ht hnew) library) fun steplib =>
    h.holder?_recreate ht hnew steplib _

omit hnew in
theorem Catalogued.unparsed_deleteFile : (ws.deleteFile t.path).2.Unparsed := fun q f hf => by
  obtain ⟨g, hg, -, rfl⟩ := h.arises.exists_file_deleteFile ht hf
  simp [ModuleFile.without, h.unparsed q g hg, ModuleState.aged]

/-- A file that does not wait for the name has not lost an edge and is left alone. -/
theorem Catalogued.kept_recreate {g : ModuleFile} (hg : ws.file? q = some g)
    (hother : t.path.same q = false) (hnot : ¬ ws.Calls q t.path) :
    Kept ws ((ws.deleteFile t.path).2.enter sources new) q := by
  have hsheds := h.arises.sheds_deleteFile ht
  have habsent := (h.arises.traceless_deleteFile ht).absent
  have hdeleted : Kept ws (ws.deleteFile t.path).2 q := by
    refine ⟨?_, fun name => ?_⟩
    · rw [hsheds.files q hother, hg]
      have hedge : g.outgoing.contains t.path = false := by
        simpa using fun hcontains => hnot ((calls_iff hg).2 hcontains)
      simp [ModuleFile.own, ModuleFile.without, hedge, PathSet.erase_eq_self hedge]
    · rw [hsheds.waits q name hother]
      exact or_iff_left fun h => hnot h.2
  exact hdeleted.trans (kept_enter sources hnew habsent hother)

/-- A file that has been deleted can come again. -/
theorem Catalogued.ready_deleteFile : Ready sources (ws.deleteFile t.path).2 new := by
  have ha := h.arises
  have hsheds := ha.sheds_deleteFile ht
  have htraceless := ha.traceless_deleteFile ht
  have hresolve := h.resolve?_recreate ht hnew
  have hname : t.name = new.settledName sources :=
    congrArg (·.name) (h.bare_eq_settle ht hnew)
  have hrecords (called : Path) (x : FilePosition) :
      (ws.deleteFile t.path).2.cache.Records called x ↔
        (t.path.same called = false ∧ ws.cache.Records called x) ∧ x.file.same t.path = false := by
    rw [cache_deleteFile ht, ReferenceCache.records_removeFile ha.truthful]
  refine ⟨ha.deleteFile t.path, h.unparsed_deleteFile ht,
    h.searches.of_heads (heads_deleteFile ws t.path), fun q name hwaits => ?_, fun f hf => ?_,
    fun f hf hnot => ?_, fun called x hx => ?_, fun f called x hf hnot hcites => ?_⟩
  · have hother : t.path.same q = false := by
      by_contra hs
      rw [← WaitingIndex.Waits.congr (by simpa using hs)] at hwaits
      exact htraceless.idle.2 name hwaits
    have hknown : (∃ p, ws.Calls q p) ∨ ∃ name, ws.waiting.Waits q name :=
      ((hsheds.waits q name hother).1 hwaits).symm.imp (fun h => ⟨_, h.2⟩) fun h => ⟨_, h⟩
    obtain ⟨g, hg⟩ : ∃ g, ws.file? q = some g := by
      rcases hknown with ⟨p, g, hg, -⟩ | ⟨name, hwaits⟩
      · exact ⟨g, hg⟩
      · exact h.waits q name hwaits
    have hscan : (g.scan? sources).isSome := h.toCharted.scan?_isSome hg hknown
    refine ⟨g.without t.path, ?_, hscan⟩
    rw [hsheds.files q hother, hg]
    rfl
  · obtain ⟨g, hg, -, rfl⟩ := (ha.live_deleteFile_iff ht).1 hf
    refine (h.steady hg).of_bare rfl (fun hmodule => ?_) fun holder hholder _ => ?_
    · simp [h.unparsed _ g hg, ModuleState.module?] at hmodule
    · rw [h.holder?_recreate ht hnew, hholder]
  · obtain ⟨g, hg, hother, rfl⟩ := (ha.live_deleteFile_iff ht).1 hf
    have hnocall : ¬ ws.Calls g.path t.path := fun hcalls =>
      hnot ((hsheds.waits _ _ hother).2 (.inr ⟨hname.symm, hcalls⟩))
    exact (h.inStep _ g hg).kept_of_resolve? ha.keyed (h.kept_recreate ht hnew hg hother hnocall)
      fun _ _ name _ => hresolve _ name
  · obtain ⟨⟨hcalled, hx⟩, hcaller⟩ := (hrecords called x).1 hx
    obtain ⟨g, hg, hcites⟩ := (h.records called x).1 hx
    have hother : t.path.same g.path = false := by
      rw [Path.same_comm, Path.same_congr_left (file_of_cites hcites), hcaller]
    exact ⟨g.without t.path, (ha.live_deleteFile_iff ht).2 ⟨g, hg, hother, rfl⟩,
      hcites.of_bare rfl hresolve⟩
  · obtain ⟨g, hg, hother, rfl⟩ := (ha.live_deleteFile_iff ht).1 hf
    have hcites : ws.Cites sources g called x := hcites.of_bare rfl fun library name =>
      (hresolve library name).symm
    have hcalled : t.path.same called = false := by
      by_contra hs
      obtain ⟨f, hf, hcontains⟩ := h.calls_of_cites hg hcites
      rw [← PathSet.contains_congr _ (by simpa using hs)] at hcontains
      exact hnot ((hsheds.waits _ _ hother).2 (.inr ⟨hname.symm, f, hf, hcontains⟩))
    refine (hrecords called x).2 ⟨⟨hcalled, (h.records called x).2 ⟨g, hg, hcites⟩⟩, ?_⟩
    rw [← Path.same_congr_left (file_of_cites hcites), Path.same_comm, hother]

omit hnew in
/-- A catalogued workspace has the same graph when a file has been deleted and created again. -/
theorem Catalogued.sameGraph_recreate :
    SameGraph ws ((ws.deleteFile t.path).2.createFile sources t.path).2.2 := by
  obtain ⟨new, hnew⟩ : ∃ new, (ws.deleteFile t.path).2.newFile? t.path = some new := by
    rw [newFile?_eq_of_heads (heads_deleteFile ws t.path)]
    exact (h.placed t ht).imp fun _ => And.left
  have habsent := (h.arises.traceless_deleteFile ht).absent
  have hready := h.ready_deleteFile ht hnew
  have hskeleton := hready.skeleton_createFile hnew habsent
  refine h.toCharted.sameGraph (hready.charted hnew habsent) ?_ (fun q => ?_)
    fun library name => ?_
  · exact (heads_eq_of_skeleton hskeleton).trans (h.heads_recreate ht hnew)
  · rw [hready.bare_createFile hnew habsent]
    split
    · rename_i hs
      have ht' : ws.file? t.path = some t := ht
      rw [← h.bare_eq_settle ht hnew, ← ws.file?_congr hs, ht']
      rfl
    · rename_i hs
      rw [(h.arises.sheds_deleteFile ht).files q (by simpa using hs), Option.map_map]
      rfl
  · rw [holder?_eq_of_skeleton hskeleton, h.holder?_recreate ht hnew]

end Catalogued

/-- In a workspace that has just been loaded and indexed, deleting a file and creating it again
leads back to the same graph: the same names are held by the same files, and the same edges, waits
and cached positions are on record, also when the file shares its name with another one and when it
or one of its callers cannot be read. -/
theorem Loaded.recreation_identity (h : Loaded ws) (sources : Sources)
    (hf : (ws.indexAll sources false).1.Live f) :
    SameGraph (ws.indexAll sources false).1
      (((ws.indexAll sources false).1.deleteFile f.path).2.createFile sources f.path).2.2 :=
  (h.catalogued_indexAll sources).sameGraph_recreate hf

end Workspace

namespace Sample

/-- The program, the subroutine and both subprograms `N` were loaded. -/
def supplied : Workspace :=
  after [.addFile far, .addFile near, .addFile program, .addFile subroutine]

theorem loaded_supplied : supplied.Loaded :=
  .add (.add (.add (.add (.fresh ..) far) near) program) subroutine

/-- The project after indexing. -/
def surveyed : Workspace := (supplied.indexAll namesakes false).1

end Sample

namespace Workspace

/-- The header of the subroutine and the subprogram in the steplib give the name of the nearer
subprogram, too. It holds its name again and is called again when it comes back. -/
theorem Loaded.recreation_identity_sample :
    Loaded Sample.supplied ∧ ∃ f, Sample.surveyed.Live f ∧ f.path = Sample.near ∧
      (Sample.surveyed.file? Sample.subroutine).map (·.name) = some f.name ∧
      Sample.surveyed.holder? "M" f.name = some { path := Sample.far } ∧
      SameGraph Sample.surveyed
        ((Sample.surveyed.deleteFile f.path).2.createFile Sample.namesakes f.path).2.2 ∧
      ((Sample.surveyed.deleteFile f.path).2.createFile Sample.namesakes f.path).2.2.Calls
        Sample.program Sample.near := by
  obtain ⟨f, hf, h⟩ := (Option.any_eq_true _ _).1
    (by decide +kernel : (Sample.surveyed.file? Sample.near).any (fun f =>
      f.path == Sample.near && f.name == "N") = true)
  simp only [Bool.and_eq_true, beq_iff_eq] at h
  obtain ⟨hpath, hname⟩ := h
  have hlive : Sample.surveyed.Live f := by rw [Live, hpath, hf]
  have hsame := recreation_identity Sample.loaded_supplied Sample.namesakes hlive
  refine ⟨Sample.loaded_supplied, f, hlive, hpath, ?_, ?_, hsame, (hsame.calls ..).2 ?_⟩
  · rw [hname]
    decide +kernel
  · rw [hname]
    decide +kernel
  · exact (Option.any_eq_true _ _).1 (by decide +kernel :
      (Sample.surveyed.file? Sample.program).any (·.outgoing.contains Sample.near) = true)

end Workspace

end Steplib
