import Steplib.Proofs.Workspace.Waking

/-!
# What the creation of a file does

A file that is created claims its name, has its references recorded and wakes the files that wait
for its name. Those that are woken are in step afterwards, as long as waking changes no name: a scan
that gives a woken file another name comes too late for the files that were woken before it. Files
that do not wait for the name are not woken, also if the new file now stands in the way of the one
that the name led them to.

## Main definitions

* `ModuleFile.settledName`: the name that a scan gives a file.
* `Workspace.enter`, `Workspace.enroll`, `Workspace.announce`: the stages of a creation.
* `Workspace.Quiet`: waking the files that wait for a name changes no name.
* `Workspace.InSync`: the edges of all files lead where their names lead.

## Main results

* `Workspace.createFile_eq`: a creation is made of its stages.
* `Workspace.Reachable.creation_wakes`: the files that wait for the name are in step afterwards.
* `Workspace.Reachable.creation_keeps_sync`: edges keep leading where names lead.
* `Workspace.creation_wakes_too_early`, `Workspace.creation_shadows`: where they do not.
-/

namespace Steplib

/-- The name that the file carries once it has been scanned, if it can be read. -/
def ModuleFile.settledName (f : ModuleFile) (sources : Sources) : String :=
  ((f.scan? sources).map f.scannedName).getD f.name

/-- The file holds a name as soon as it has been created, unless somebody else does: its stem, or
the name of its header if it can be read. -/
def ModuleFile.claims (f : ModuleFile) (sources : Sources) : Bool :=
  !f.type.hasHeaderName || (f.scan? sources).isSome

/-- A member of a set stands in one place of its list. -/
theorem PathSet.exists_split {s : PathSet} {p : Path} (h : s.contains p = true) :
    ∃ before q after, s.toList = before ++ q :: after ∧ q.same p = true ∧
      ∀ r ∈ before ++ after, r.same p = false := by
  obtain ⟨q, hq, hs⟩ := List.any_eq_true.1 h
  obtain ⟨before, after, heq⟩ := List.append_of_mem hq
  refine ⟨before, q, after, heq, hs, fun r hr => ?_⟩
  have hordered := s.ordered
  rw [heq, List.pairwise_append, List.pairwise_cons] at hordered
  obtain ⟨-, ⟨hafter, -⟩, hbefore⟩ := hordered
  rw [← Path.same_congr_right hs]
  rcases List.mem_append.1 hr with hr | hr
  · exact Path.same_of_before (hbefore r hr q List.mem_cons_self)
  · rw [Path.same_comm]
    exact Path.same_of_before (hafter r hr)

namespace Workspace

/-- The workspace with a new file, which has taken over the name that its scan gives it. -/
def enter (sources : Sources) (ws : Workspace) (new : ModuleFile) : Workspace :=
  match new.scan? sources with
  | none => (ws.addFile new.path).2
  | some s => (ws.addFile new.path).2.registerScannedName new s

/-- The workspace with a new file, whose name and references are on record. The files that wait for
the name have not been told yet. -/
def enroll (sources : Sources) (ws : Workspace) (new : ModuleFile) : Workspace :=
  match new.scan? sources with
  | none => ws.enter sources new
  | some s => ((ws.enter sources new).registerScan new s).1

/-- The workspace with a new file after its name has been taken off the record of waits. -/
def announce (sources : Sources) (ws : Workspace) (new : ModuleFile) : Workspace :=
  { ws.enroll sources new with
    waiting := ((ws.enroll sources new).waiting.take (new.settledName sources)).2 }

/-- The files that wait for the name of a new file. -/
def expecting (sources : Sources) (ws : Workspace) (new : ModuleFile) : List Path :=
  (ws.enroll sources new).waiting.waiting (new.settledName sources)

/-- Waking the files that wait for a name, besides some of them, changes no name. -/
def Quiet (sources : Sources) (ws : Workspace) (name : String) (besides : Path → Bool) : Prop :=
  ∀ f, ws.Live f → ws.waiting.Waits f.path name → besides f.path = false →
    ws.Steady sources besides f

variable {sources : Sources} {ws ws' : Workspace} {new f f' c : ModuleFile} {p q : Path}
  {name : String}

theorem records_enter (sources : Sources) (ws : Workspace) (new : ModuleFile) :
    (ws.enter sources new).waiting = ws.waiting ∧ (ws.enter sources new).cache = ws.cache := by
  obtain ⟨hwaiting, hcache⟩ := ws.records_addFile new.path
  rw [enter]
  split
  · exact ⟨hwaiting, hcache⟩
  · rw [registerScannedName]
    split <;> exact ⟨hwaiting, hcache⟩

theorem skeleton_enroll (sources : Sources) (ws : Workspace) (new : ModuleFile) :
    (ws.enroll sources new).skeleton = (ws.enter sources new).skeleton := by
  rw [enroll]
  split
  · rfl
  · exact skeleton_registerScan ..

/-- A live file lies elsewhere than a file that is not there. -/
theorem not_same_of_absent (hp : ws.file? p = none) (hc : ws.Live c) : p.same c.path = false :=
  not_same_of_file? hp hc

/-! ### The new file and its name -/

section NewFile

variable (sources) (hnew : ws.newFile? p = some new) (hp : ws.file? p = none)

include hnew hp

theorem file?_enter (q : Path) :
    (ws.enter sources new).file? q =
      if p.same q then some { new with name := new.settledName sources } else ws.file? q := by
  obtain rfl := path_newFile? hnew
  rw [enter, ModuleFile.settledName]
  cases new.scan? sources with
  | none => exact file?_addFile hnew hp q
  | some s =>
    dsimp only
    rw [file?_registerScannedName, file?_addFile hnew hp]
    cases new.path.same q with
    | false => simp
    | true => cases htype : new.type.hasHeaderName <;> simp [ModuleFile.scannedName, htype]

theorem file?_enter_self : (ws.enter sources new).file? p =
    some { new with name := new.settledName sources } := by
  rw [file?_enter sources hnew hp, Path.same_refl, if_pos rfl]

theorem heads_enter : (ws.enter sources new).heads = ws.heads := by
  rw [enter, path_newFile? hnew]
  split
  · exact heads_addFile hnew hp
  · rw [heads_registerScannedName, heads_addFile hnew hp]

/-- A new file that is named by its header claims nothing before it is scanned. -/
theorem libraries_addFile (htype : new.type.hasHeaderName = true) :
    (ws.addFile p).2.libraries = ws.libraries := by
  rw [addFile_of_new hnew hp, claimStem, if_pos htype]

/-- The new file holds its name unless somebody else does, and no other name is touched. -/
theorem holder?_enter (hn : ws.Named) (steplib other : String) :
    (ws.enter sources new).holder? steplib other =
      if new.claims sources = true ∧ steplib = new.library ∧ other = new.settledName sources then
        some ((ws.holder? steplib other).getD { path := p })
      else ws.holder? steplib other := by
  obtain rfl := path_newFile? hnew
  have hadd := holder?_addFile hnew hp hn steplib other
  cases htype : new.type.hasHeaderName with
  | false =>
    have hclaims : new.claims sources = true := by simp [ModuleFile.claims, htype]
    have hname : new.settledName sources = new.name := by
      rw [ModuleFile.settledName]
      cases new.scan? sources <;> simp [ModuleFile.scannedName, htype]
    have henter : ws.enter sources new = (ws.addFile new.path).2 := by
      rw [enter]
      cases new.scan? sources <;> simp [registerScannedName, htype]
    rw [henter, hadd, hclaims, hname]
    simp [htype]
  | true =>
    have hkept : (ws.addFile new.path).2.holder? steplib other = ws.holder? steplib other := by
      rw [hadd, if_neg (by simp [htype])]
    rw [enter, ModuleFile.claims, ModuleFile.settledName]
    cases new.scan? sources with
    | none => simpa [htype] using hkept
    | some s =>
      have hlibraries := libraries_addFile hnew hp htype
      obtain ⟨hupper, hsome⟩ := hn.library_newFile? hnew
      have hnameless : (ws.addFile new.path).2.Nameless new.path := by
        rw [Nameless, hlibraries]
        exact hn.nameless hp
      have hsome' : ((ws.addFile new.path).2.libraryNamed? new.library).isSome := by
        rwa [libraryNamed?, hlibraries]
      refine (hnameless.holder?_registerScannedName s steplib other).trans ?_
      rw [hkept, hupper]
      by_cases hs : steplib = new.library
      · subst hs
        simp [htype, hsome']
      · simp [hs]

theorem holder?_enter_of_some (hn : ws.Named) {steplib other : String} {holder : Holder}
    (h : ws.holder? steplib other = some holder) :
    (ws.enter sources new).holder? steplib other = some holder := by
  rw [holder?_enter sources hnew hp hn, h]
  exact ite_self _

/-- Other names than that of the new file stand for what they stood for before. -/
theorem resolve?_enter (hn : ws.Named) (library : String)
    (hname : Ascii.upper name ≠ new.settledName sources) :
    (ws.enter sources new).resolve? library name = ws.resolve? library name := by
  refine resolve?_congr (chain?_eq_of_heads (heads_enter sources hnew hp) library) fun steplib => ?_
  rw [holder?_enter sources hnew hp hn, if_neg fun h => hname h.2.2]

theorem Arises.enter (ha : Arises ws) : Arises (ws.enter sources new) := by
  obtain rfl := path_newFile? hnew
  have hadd : Arises (ws.addFile new.path).2 :=
    ha.moves (.single (.add ws new.path : Move sources ws _))
  rw [Workspace.enter]
  split
  · exact hadd
  · rename_i s hs
    refine hadd.move (.name new s ?_ hs)
    rw [Live, file?_addFile hnew hp, Path.same_refl, if_pos rfl]

/-! ### The references of the new file -/

theorem unlinked_enter :
    ((ws.enter sources new).file? new.path).map unlinked = some (unlinked new) := by
  obtain rfl := path_newFile? hnew
  rw [file?_enter_self sources hnew hp]
  rfl

/-- Recording the references of a new file that can be read brings it in step. -/
theorem Arises.aligns_enroll (ha : Arises ws) (hscan : (new.scan? sources).isSome) :
    Aligns sources p (ws.enter sources new) (ws.enroll sources new) := by
  obtain ⟨s, hscan⟩ := Option.isSome_iff_exists.1 hscan
  have ha₁ := ha.enter sources hnew hp
  have hstate : new.state = .unparsed := by
    obtain ⟨l, -, type, rfl⟩ := newFile?_cases hnew
    rfl
  simp only [enroll, hscan]
  exact path_newFile? hnew ▸ aligns_registerScan_of_unlinked ha₁.keyed ha₁.mirrored
    (unlinked_enter sources hnew hp) hscan (.inl hstate)

theorem Arises.enroll (ha : Arises ws) : Arises (ws.enroll sources new) := by
  have ha₁ := ha.enter sources hnew hp
  rw [Workspace.enroll]
  split
  · exact ha₁
  · rename_i s hs
    exact ha₁.move (move_registerScan ha₁.keyed (unlinked_enter sources hnew hp) hs).1

/-- The other files are left alone while the new one takes over its name. -/
theorem kept_enter (hother : p.same q = false) : Kept ws (ws.enter sources new) q := by
  refine ⟨?_, fun name => by rw [(records_enter sources ws new).1]⟩
  rw [file?_enter sources hnew hp, hother]
  rfl

/-- The other files are left alone while the new one is enrolled. -/
theorem Arises.kept_enroll (ha : Arises ws) (hother : p.same q = false) :
    Kept ws (ws.enroll sources new) q := by
  have henter : Kept ws (ws.enter sources new) q := kept_enter sources hnew hp hother
  cases hscan : new.scan? sources with
  | none => simpa only [Workspace.enroll, hscan] using henter
  | some s =>
    exact henter.trans ((ha.aligns_enroll sources hnew hp (by rw [hscan]; rfl)).others q hother)

/-- Creating a file enrolls it and wakes the files that wait for its name. -/
theorem createFile_eq :
    (ws.createFile sources p).2.2 =
      ((ws.announce sources new).wakeAll sources p (ws.expecting sources new)).2 := by
  obtain rfl := path_newFile? hnew
  have hindex : ((ws.addFile new.path).2.indexFile sources new).1 = ws.enroll sources new := by
    rw [indexFile, enroll, enter]
    cases new.scan? sources <;> rfl
  have hfile : ∃ f, (ws.enroll sources new).file? new.path = some f ∧ f.path = new.path ∧
      f.name = new.settledName sources := by
    obtain ⟨f, hf, hb⟩ := exists_file_of_skeleton (skeleton_enroll sources ws new)
      (file?_enter_self sources hnew hp)
    exact ⟨f, hf, (ModuleFile.path_eq_of_bare hb :), ModuleFile.name_eq_of_bare hb⟩
  obtain ⟨f, hf, hpath, hname⟩ := hfile
  have hadd := addFile_of_new hnew hp
  have hadded := congrArg Prod.snd hadd
  dsimp only at hadded
  simp only [createFile, hadd]
  rw [← hadded, hindex]
  simp only [resolveWaiting, hf, hpath, hname]
  rfl

/-! ### The files that wait for the name -/

theorem Arises.upper_settledName (ha : Arises ws) :
    Ascii.upper (new.settledName sources) = new.settledName sources :=
  ((ha.enter sources hnew hp).named.file_upper p _ (file?_enter_self sources hnew hp)).1

theorem Arises.announce (ha : Arises ws) : Arises (ws.announce sources new) :=
  (ha.enroll sources hnew hp).moves (.single (.take .. : Move sources _ _))

/-- Other files than the new one are told if they have been waiting for the name. -/
theorem Arises.any_expecting_iff (ha : Arises ws) (hother : p.same q = false) :
    (ws.expecting sources new).any (·.same q) = true ↔
      ws.waiting.Waits q (new.settledName sources) := by
  rw [expecting, WaitingIndex.any_waiting_iff, ha.upper_settledName sources hnew hp]
  exact (ha.kept_enroll sources hnew hp hother).waits _

/-- The other files that are not told are left alone. -/
theorem Arises.kept_announce (ha : Arises ws) (hother : p.same q = false)
    (hnot : ¬ ws.waiting.Waits q (new.settledName sources)) :
    Kept ws (ws.announce sources new) q := by
  have hkept := ha.kept_enroll sources hnew hp hother
  refine ⟨hkept.own, fun name => ?_⟩
  have htake : (ws.announce sources new).waiting.Waits q name ↔
      name ≠ new.settledName sources ∧ (ws.enroll sources new).waiting.Waits q name := by
    rw [Workspace.announce, WaitingIndex.waits_take, ha.upper_settledName sources hnew hp]
  rw [htake, hkept.waits]
  refine ⟨And.right, fun hwaits => ⟨?_, hwaits⟩⟩
  rintro rfl
  exact hnot hwaits

/-- Steady files stay steady while the new one is enrolled. -/
theorem Arises.steady_announce (ha : Arises ws) {besides : Path → Bool} (hother : p.same q = false)
    (hs : ∀ f, ws.file? q = some f → ws.Steady sources besides f) :
    ∀ f, (ws.announce sources new).file? q = some f →
      (ws.announce sources new).Steady sources besides f := fun f' hf' => by
  obtain ⟨f, hf, ho⟩ := (ha.kept_enroll sources hnew hp hother).symm.exists_file hf'
  have hstate : f.state = f'.state := congrArg (·.state) ho
  refine (hs f hf).of_bare (bare_eq_of_own ho.symm) (by rw [hstate]; exact id)
    fun holder hholder _ => ?_
  refine Eq.trans ?_ (holder?_enter_of_some sources hnew hp ha.named hholder)
  exact holder?_eq_of_skeleton (skeleton_enroll sources ws new) ..

/-- When the files that wait for the name of a new file are steady, telling them changes no name. It
brings those that can be read in step, and every other file in step or leaves it alone. -/
theorem Arises.refreshes_createFile (ha : Arises ws)
    (hquiet : ws.Quiet sources (new.settledName sources) fun _ => false) :
    Refreshes sources (ws.announce sources new) (ws.createFile sources p).2.2 ∧
      ∀ c, ws.Live c → ws.waiting.Waits c.path (new.settledName sources) →
        (c.scan? sources).isSome → InStep sources (ws.createFile sources p).2.2 c.path := by
  have ha₁ := ha.announce sources hnew hp
  have hexpecting : ∀ q ∈ ws.expecting sources new, q.same p = false →
      p.same q = false ∧ ws.waiting.Waits q (new.settledName sources) := fun q hq hother => by
    rw [Path.same_comm] at hother
    exact ⟨hother, (ha.any_expecting_iff sources hnew hp hother).1
      (List.any_eq_true.2 ⟨q, hq, Path.same_refl q⟩)⟩
  obtain ⟨hrefreshes, hsteps⟩ := ha₁.refreshes_wakeAll sources (fun _ => false) p
    fun q hq hself => by
      obtain ⟨hother, hwaits⟩ := hexpecting q hq hself
      refine ha.steady_announce sources hnew hp hother fun f hf => ?_
      refine hquiet f (ha.keyed.live hf) ?_ rfl
      rwa [WaitingIndex.Waits.congr (ha.keyed q f hf)]
  rw [createFile_eq sources hnew hp]
  refine ⟨hrefreshes, fun c hc hwaits hscan => ?_⟩
  have hother := not_same_of_absent hp hc
  obtain ⟨q, hq, hs⟩ := List.any_eq_true.1 ((ha.any_expecting_iff sources hnew hp hother).2 hwaits)
  have hself : q.same p = false := by
    rw [Path.same_congr_left hs, Path.same_comm, hother]
  obtain ⟨c', hc', ho⟩ := (ha.kept_enroll sources hnew hp hother).exists_file hc
  have hscan' : (c'.scan? sources).isSome := by rwa [scan?_eq_of_bare (bare_eq_of_own ho)]
  refine (InStep.congr hs).1 (hsteps q hq hself c' ?_ hscan')
  exact (file?_congr _ hs).trans hc'

/-- Other names than that of the new file stand for what they stood for before. -/
theorem Arises.resolve?_createFile (ha : Arises ws)
    (hquiet : ws.Quiet sources (new.settledName sources) fun _ => false) (library : String)
    (hname : Ascii.upper name ≠ new.settledName sources) :
    (ws.createFile sources p).2.2.resolve? library name = ws.resolve? library name := by
  have hrefreshes := (ha.refreshes_createFile sources hnew hp hquiet).1
  rw [resolve?_eq_of_skeleton (hrefreshes.skeleton.trans (skeleton_enroll sources ws new)),
    resolve?_enter sources hnew hp ha.named library hname]

/-- The other files that do not wait for the name are left alone or brought in step. -/
theorem Arises.files_createFile (ha : Arises ws)
    (hquiet : ws.Quiet sources (new.settledName sources) fun _ => false) (hother : p.same q = false)
    (hnot : ¬ ws.waiting.Waits q (new.settledName sources)) :
    Kept ws (ws.createFile sources p).2.2 q ∨ InStep sources (ws.createFile sources p).2.2 q :=
  ((ha.refreshes_createFile sources hnew hp hquiet).1.files q).imp_left
    (ha.kept_announce sources hnew hp hother hnot).trans

/-- A file that waits for the name of a new file and can be read is in step once the new file has
been created, if the others that wait for the name are steady. -/
theorem Arises.inStep_createFile (ha : Arises ws) (hc : ws.Live c)
    (hwaits : ws.waiting.Waits c.path (new.settledName sources)) (hscan : (c.scan? sources).isSome)
    (hquiet : ws.Quiet sources (new.settledName sources) (·.same c.path)) :
    InStep sources (ws.createFile sources p).2.2 c.path := by
  have ha₁ := ha.announce sources hnew hp
  have hother := not_same_of_absent hp hc
  -- the file may take over a name itself when its turn comes, so its turn is kept apart
  obtain ⟨before, q, after, hlist, hq, hrest⟩ :=
    PathSet.exists_split ((ha.any_expecting_iff sources hnew hp hother).2 hwaits)
  have hlist : ws.expecting sources new = before ++ q :: after := hlist
  have hself : q.same p = false := by
    rw [Path.same_congr_left hq, Path.same_comm, hother]
  obtain ⟨c', hc', ho⟩ := (ha.kept_enroll sources hnew hp hother).exists_file hc
  have hc₁ : (ws.announce sources new).file? q = some c' := (file?_congr _ hq).trans hc'
  have hbesides : (fun r : Path => r.same q) = (·.same c.path) :=
    funext fun r => Path.same_congr_right hq r
  rw [createFile_eq sources hnew hp, hlist]
  refine (InStep.congr hq).1 (ha₁.inStep_wakeAll hc₁ hself ?_ fun r hr => ⟨?_, fun hself => ?_⟩)
  · rwa [scan?_eq_of_bare (bare_eq_of_own ho)]
  · rw [Path.same_congr_right hq]
    exact hrest r hr
  · rw [Path.same_comm] at hself
    rw [hbesides]
    refine ha.steady_announce sources hnew hp hself fun d hd => ?_
    have hpath := ha.keyed r d hd
    refine hquiet d (ha.keyed.live hd) ?_ ?_
    · rw [WaitingIndex.Waits.congr hpath, ← ha.any_expecting_iff sources hnew hp hself, hlist]
      refine List.any_eq_true.2 ⟨r, ?_, Path.same_refl r⟩
      rcases List.mem_append.1 hr with hr | hr
      · exact List.mem_append_left _ hr
      · exact List.mem_append_right _ (List.mem_cons_of_mem q hr)
    · exact (Path.same_congr_left hpath _).trans (hrest r hr)

/-- The new file carries the name of its scan once it has been created. -/
theorem Arises.name_createFile (ha : Arises ws) :
    ∃ f, (ws.createFile sources p).2.2.file? p = some f ∧ f.name = new.settledName sources := by
  have hbare := (ha.announce sources hnew hp).bare_wakeAll sources p (ws.expecting sources new)
  have henroll := map_bare_file?_of_skeleton (skeleton_enroll sources ws new) p
  rw [← createFile_eq sources hnew hp] at hbare
  rw [file?_enter_self sources hnew hp] at henroll
  obtain ⟨f, hf, hb⟩ := Option.map_eq_some_iff.1 (hbare.trans henroll)
  exact ⟨f, hf, ModuleFile.name_eq_of_bare hb⟩

end NewFile

/-! ### No wake-up is lost -/

/-- An edge leads where one of the names that the file refers to leads. -/
theorem Follows.contains_outgoing_iff (h : ws.Follows sources f) :
    f.outgoing.contains q = true ↔ ∃ name ∈ f.referred sources, ∃ holder,
      ws.resolve? f.library name = some holder ∧ holder.path.same f.path = false ∧
        holder.path.same q = true := by
  rw [h.connected, contains_targets_iff]

theorem Follows.waits_iff (h : ws.Follows sources f) :
    ws.waiting.Waits f.path name ↔ ∃ other ∈ f.referred sources,
      Ascii.upper other = name ∧ ws.resolve? f.library other = none := by
  rw [h.awaits, unresolved, List.mem_map]
  constructor
  · rintro ⟨other, hother, hupper⟩
    obtain ⟨hmem, hnone⟩ := List.mem_filter.1 hother
    exact ⟨other, hmem, hupper, by simpa using hnone⟩
  · rintro ⟨other, hmem, hupper, hnone⟩
    exact ⟨other, List.mem_filter.2 ⟨hmem, by simp [hnone]⟩, hupper⟩

/-- A file waits for a name that it refers to exactly when the name stands for nothing. -/
theorem Follows.waits_upper_iff (h : ws.Follows sources f) (hname : name ∈ f.referred sources) :
    ws.waiting.Waits f.path (Ascii.upper name) ↔ ws.resolve? f.library name = none := by
  rw [h.waits_iff]
  constructor
  · rintro ⟨other, -, hupper, hnone⟩
    rw [← resolve?_upper, ← hupper, resolve?_upper, hnone]
  · exact fun hnone => ⟨name, hname, rfl, hnone⟩

/-- A file has an edge to a file whose name it refers to exactly when the name leads there. -/
theorem Follows.contains_iff_of_name (h : ws.Follows sources f) (hn : ws.Named)
    (hself : p.same f.path = false) (hfile : ∃ g, ws.file? p = some g ∧ g.name = Ascii.upper name)
    (hname : name ∈ f.referred sources) :
    f.outgoing.contains p = true ↔
      ∃ holder, ws.resolve? f.library name = some holder ∧ holder.path.same p = true := by
  rw [h.contains_outgoing_iff]
  constructor
  · rintro ⟨other, -, holder, hr, -, hs⟩
    -- the file that is led to carries the other name, so the two names are the same
    obtain ⟨l, -, -, g, hg, -, -, hother⟩ := hn.holds_of_resolve? hr
    obtain ⟨g', hg', hgname⟩ := hfile
    rw [ws.file?_congr hs, hg'] at hg
    obtain rfl := Option.some.inj hg
    refine ⟨holder, ?_, hs⟩
    rw [← resolve?_upper, ← hgname, hother, resolve?_upper, hr]
  · rintro ⟨holder, hr, hs⟩
    exact ⟨name, hname, holder, hr, by rw [Path.same_congr_left hs, hself], hs⟩

/-- No wake-up is lost: when a file has been created, a file that waited for its name and can be
read is up to date. Its edges, at both of their ends, and its waits are what the names that it
refers to stand for then; in particular it has an edge to the new file exactly when the name leads
there, and waits for the name exactly when it stands for nothing. The other files that wait for the
name must not take over names when they are woken. -/
theorem Reachable.creation_wakes (h : Reachable ws) (sources : Sources)
    (hnew : ws.newFile? p = some new) (hp : ws.file? p = none) (hc : ws.Live c)
    (hwaits : ws.waiting.Waits c.path (new.settledName sources)) (hscan : (c.scan? sources).isSome)
    (hquiet : ws.Quiet sources (new.settledName sources) (·.same c.path)) :
    let ws' := (ws.createFile sources p).2.2
    ∃ c', ws'.file? c.path = some c' ∧ (∀ m, c'.state ≠ .stale m) ∧
      (∀ q, c'.outgoing.contains q = true ↔ ∃ name ∈ c'.referred sources, ∃ holder,
        ws'.resolve? c'.library name = some holder ∧ holder.path.same c'.path = false ∧
          holder.path.same q = true) ∧
      (∀ q, ws'.CalledBy q c.path ↔ c'.outgoing.contains q = true) ∧
      (∀ name, ws'.waiting.Waits c.path name ↔ ∃ other ∈ c'.referred sources,
        Ascii.upper other = name ∧ ws'.resolve? c'.library other = none) ∧
      ∀ name ∈ c'.referred sources, Ascii.upper name = new.settledName sources →
        (c'.outgoing.contains p = true ↔
          ∃ holder, ws'.resolve? c'.library name = some holder ∧ holder.path.same p = true) ∧
        (ws'.waiting.Waits c.path (Ascii.upper name) ↔ ws'.resolve? c'.library name = none) := by
  intro ws'
  have ha := h.arises
  have ha' : Arises ws' := (h.run sources (.createFile p)).arises
  obtain ⟨c', hc', hfollows⟩ := ha.inStep_createFile sources hnew hp hc hwaits hscan hquiet
  have hpath := ha'.keyed c.path c' hc'
  have hother : p.same c'.path = false := by
    rw [Path.same_congr_right hpath]
    exact not_same_of_absent hp hc
  refine ⟨c', hc', hfollows.current, fun q => hfollows.contains_outgoing_iff, fun q => ?_,
    fun name => ?_, fun name hname hupper => ⟨?_, ?_⟩⟩
  · rw [← ha'.linked.symmetric, calls_iff hc']
  · rw [← WaitingIndex.Waits.congr hpath]
    exact hfollows.waits_iff
  · refine hfollows.contains_iff_of_name ha'.named hother ?_ hname
    rw [hupper]
    exact ha.name_createFile sources hnew hp
  · rw [← WaitingIndex.Waits.congr hpath]
    exact hfollows.waits_upper_iff hname

end Workspace

/-! #### A project with namesakes -/

namespace Sample

/-- In the library `L` the program `C` calls `N`, and so does the subroutine `D`, whose header gives
it the name `N`. There are subprograms `N` in `L` and in its steplib `M`. -/
def namesakes : Sources := fun p =>
  match p.text with
  | "L/C.NSP" => .ok "CALLNAT 'N'"
  | "L/D.NSS" => .ok "DEFINE SUBROUTINE N\nCALLNAT 'N'\nEND-SUBROUTINE"
  | "L/N.NSN" => .ok "END"
  | "M/N.NSN" => .ok "END"
  | _ => .error .notFound

def program : Path := .ofText "L/C.NSP"

def subroutine : Path := .ofText "L/D.NSS"

def near : Path := .ofText "L/N.NSN"

def far : Path := .ofText "M/N.NSN"

def libraries : List (String × Path × List String) :=
  [("L", .ofText "L", ["M"]), ("M", .ofText "M", [])]

/-- The workspace after some operations on the project. -/
def after (ops : List Operation) : Workspace :=
  ops.foldl (fun ws op => op.run namesakes ws) <|
    .fresh (.ofText "") {} { root := .ofText "" } libraries

theorem reachable_after (ops : List Operation) : (after ops).Reachable :=
  List.foldlRecOn ops _ (.fresh ..) fun _ h op _ => h.run namesakes op

/-- Only the program was created. It waits for `N`. -/
def expectant : Workspace := after [.createFile program]

/-- Both files were opened and the subroutine was closed again. It waits for `N` like the program
and does not hold that name yet. -/
def overtaken : Workspace :=
  after [.addFile program, .addFile subroutine, .openFile program, .openFile subroutine,
    .closeFile subroutine]

/-- The name `N` leads the program to the steplib. -/
def shadowed : Workspace := after [.createFile program, .createFile far]

/-- The file waits for `N`, can be read and is named by its stem, and its edges lead where its names
lead. -/
structure Awaits (f : ModuleFile) : Prop where
  waits : expectant.waiting.Waits f.path "N"
  readable : (f.scan? namesakes).isSome
  stem : f.type.hasHeaderName = false
  edges : f.outgoing = expectant.targets f (f.referred namesakes)

/-- The subprogram of the steplib can be created next under the name `N`, which all files wait
for. -/
theorem expectant_awaits :
    (expectant.newFile? far).any (fun new => (expectant.file? far).isNone &&
        ((new.scan? namesakes).isSome && new.settledName namesakes == "N")) = true ∧
      (expectant.file? program).isSome ∧
      ∀ f ∈ expectant.files.values, (expectant.waiting.waiting "N").any (·.same f.path) = true ∧
        (f.scan? namesakes).isSome ∧ f.type.hasHeaderName = false ∧
        f.outgoing = expectant.targets f (f.referred namesakes) := by
  decide +kernel

theorem exists_far : ∃ new, expectant.newFile? far = some new ∧ expectant.file? far = none ∧
    (new.scan? namesakes).isSome ∧ new.settledName namesakes = "N" := by
  obtain ⟨new, hnew, h⟩ := (Option.any_eq_true _ _).1 expectant_awaits.1
  simp only [Bool.and_eq_true, beq_iff_eq, Option.isNone_iff_eq_none] at h
  exact ⟨new, hnew, h⟩

theorem awaits_expectant {f : ModuleFile} (hf : expectant.Live f) : Awaits f := by
  obtain ⟨hlists, hscan, hstem, hedges⟩ := expectant_awaits.2.2 f (PathMap.mem_values.2 ⟨_, hf⟩)
  exact ⟨WaitingIndex.any_waiting_iff.1 hlists, hscan, hstem, hedges⟩

theorem quiet_expectant (besides : Path → Bool) : expectant.Quiet namesakes "N" besides :=
  fun f hf _ _ _ htype => by simp [(awaits_expectant hf).stem] at htype

end Sample

namespace Workspace

/-- The program that waits for `N` gets its edge when the subprogram is created. -/
theorem Reachable.creation_wakes_sample :
    Reachable Sample.expectant ∧ ∃ new c,
      Sample.expectant.newFile? Sample.far = some new ∧
        Sample.expectant.file? Sample.far = none ∧ Sample.expectant.Live c ∧
        Sample.expectant.waiting.Waits c.path (new.settledName Sample.namesakes) ∧
        (c.scan? Sample.namesakes).isSome ∧
        Sample.expectant.Quiet Sample.namesakes (new.settledName Sample.namesakes)
          (·.same c.path) ∧
        ∃ c', (Sample.expectant.createFile Sample.namesakes Sample.far).2.2.file? c.path =
            some c' ∧ c'.outgoing.contains Sample.far = true := by
  obtain ⟨new, hnew, hp, -, hname⟩ := Sample.exists_far
  obtain ⟨c, hc⟩ := Option.isSome_iff_exists.1 Sample.expectant_awaits.2.1
  have hreachable : Reachable Sample.expectant := Sample.reachable_after _
  have hkeyed := hreachable.arises.keyed
  have hlive := hkeyed.live hc
  have hpath := hkeyed _ c hc
  obtain ⟨hwaits, hscan, -, -⟩ := Sample.awaits_expectant hlive
  have hquiet := Sample.quiet_expectant (·.same c.path)
  rw [← hname] at hwaits hquiet
  obtain ⟨c', hc', -, hedges, -⟩ :=
    creation_wakes hreachable Sample.namesakes hnew hp hlive hwaits hscan hquiet
  obtain ⟨c₁, hc₁, h⟩ := (Option.any_eq_true _ _).1
    (by decide +kernel :
      ((Sample.expectant.createFile Sample.namesakes Sample.far).2.2.file? Sample.program).any
        (fun c => (c.referred Sample.namesakes).contains "N" && c.library == "L" &&
          !Sample.far.same c.path && (Sample.expectant.createFile Sample.namesakes
            Sample.far).2.2.resolve? "L" "N" == some { path := Sample.far }) = true)
  rw [file?_congr _ hpath, hc₁] at hc'
  obtain rfl := Option.some.inj hc'
  simp only [Bool.and_eq_true, beq_iff_eq, List.contains_iff_mem, Bool.not_eq_true'] at h
  obtain ⟨⟨⟨hmem, hlibrary⟩, hother⟩, hr⟩ := h
  refine ⟨hreachable, new, c, hnew, hp, hlive, hwaits, hscan, hquiet, c₁,
    (file?_congr _ hpath).trans hc₁, (hedges _).2 ?_⟩
  exact ⟨"N", hmem, _, hlibrary ▸ hr, hother, Path.same_refl _⟩

/-- Waking the subroutine gives it the name `N`, which comes too late for the program: its edge
leads to the steplib, while the name leads to the subroutine. -/
theorem creation_wakes_too_early :
    Reachable Sample.overtaken ∧
      (Sample.overtaken.waiting.waiting "N").any (·.same Sample.program) = true ∧
      (Sample.overtaken.newFile? Sample.far).map (·.settledName Sample.namesakes) = some "N" ∧
      Sample.overtaken.file? Sample.far = none ∧
      ((Sample.overtaken.createFile Sample.namesakes Sample.far).2.2.file? Sample.program).map
        (fun c => (c.library, c.referred Sample.namesakes, c.outgoing.toList)) =
          some ("L", ["N"], [Sample.far]) ∧
      (Sample.overtaken.createFile Sample.namesakes Sample.far).2.2.resolve? "L" "N" =
        some { path := Sample.subroutine } :=
  ⟨Sample.reachable_after _, by decide +kernel⟩

/-! ### Edges stay in step with names -/

/-- The edges of every file that can be read lead where the names lead that it refers to. -/
def InSync (sources : Sources) (ws : Workspace) : Prop :=
  ∀ f, ws.Live f → (f.scan? sources).isSome → ws.Connected f (f.referred sources)

theorem InStep.connected (h : InStep sources ws p) (hf : ws.file? p = some f) :
    ws.Connected f (f.referred sources) := by
  obtain ⟨g, hg, hfollows⟩ := h
  obtain rfl := Option.some.inj (hf.symm.trans hg)
  exact hfollows.connected

theorem Kept.connected (h : Kept ws ws' p) (hf : ws.file? p = some f) (hf' : ws'.file? p = some f')
    (hconnected : ws.Connected f (f.referred sources))
    (hr : ∀ name ∈ f.referred sources, ws'.resolve? f.library name = ws.resolve? f.library name) :
    ws'.Connected f' (f'.referred sources) := by
  obtain ⟨g, hg, ho⟩ := h.exists_file hf
  obtain rfl := Option.some.inj (hf'.symm.trans hg)
  rw [referred_eq_of_own ho]
  exact hconnected.of_own ho hr

/-- Edges that lead where the names lead still do so when every file has been brought in step or
left alone. -/
theorem Refreshes.connected (h : Refreshes sources ws ws') (hf' : ws'.file? q = some f')
    (hconnected : ∀ f, ws.file? q = some f → ws.Connected f (f.referred sources)) :
    ws'.Connected f' (f'.referred sources) := by
  rcases h.files q with hkept | hstep
  · obtain ⟨f, hf, -⟩ := hkept.symm.exists_file hf'
    exact hkept.connected hf hf' (hconnected f hf) fun _ _ => resolve?_eq_of_skeleton h.skeleton ..
  · exact hstep.connected hf'

/-- Creation keeps the edges in step with the names: if the edges of all files that can be read lead
where their names lead, they still do so when a file that can be read has been created. Files that
refer to the name of the new file have to wait for it or to see under it what they saw before, and
those that wait for it have to be steady. -/
theorem Reachable.creation_keeps_sync (h : Reachable ws) (sources : Sources)
    (hnew : ws.newFile? p = some new) (hp : ws.file? p = none) (hscan : (new.scan? sources).isSome)
    (hsync : ws.InSync sources)
    (hseen : ∀ f, ws.Live f → (f.scan? sources).isSome → ∀ name ∈ f.referred sources,
      Ascii.upper name = new.settledName sources →
        ws.waiting.Waits f.path (new.settledName sources) ∨
          (ws.createFile sources p).2.2.resolve? f.library name = ws.resolve? f.library name)
    (hquiet : ws.Quiet sources (new.settledName sources) fun _ => false) :
    (ws.createFile sources p).2.2.InSync sources := by
  have ha := h.arises
  obtain ⟨hrefreshes, hwoken⟩ := ha.refreshes_createFile sources hnew hp hquiet
  intro f' hf' hscan'
  cases hother : p.same f'.path with
  | true =>
    -- the new file was in step before the others were woken
    refine hrefreshes.connected hf' fun f hf => ?_
    obtain ⟨g, hg, hfollows⟩ := (ha.aligns_enroll sources hnew hp hscan).inStep
    have hgf : (ws.enroll sources new).file? p = some f := (file?_congr _ hother).trans hf
    obtain rfl := Option.some.inj (hg.symm.trans hgf)
    exact hfollows.connected
  | false =>
    obtain ⟨f₁, hf₁, hb₁⟩ := exists_file_of_skeleton hrefreshes.skeleton.symm hf'
    obtain ⟨f, hf, ho⟩ := (ha.kept_enroll sources hnew hp hother).symm.exists_file hf₁
    have hlive := ha.keyed.live hf
    have hpath := ha.keyed _ f hf
    have hscan : (f.scan? sources).isSome := by
      rwa [scan?_eq_of_bare (bare_eq_of_own ho), scan?_eq_of_bare hb₁]
    by_cases hwaits : ws.waiting.Waits f.path (new.settledName sources)
    · exact ((InStep.congr hpath).1 (hwoken f hlive hwaits hscan)).connected hf'
    · rw [WaitingIndex.Waits.congr hpath] at hwaits
      rcases ha.files_createFile sources hnew hp hquiet hother hwaits with hkept | hstep
      · refine hkept.connected hf hf' (hsync f hlive hscan) fun name hname => ?_
        by_cases hupper : Ascii.upper name = new.settledName sources
        · refine (hseen f hlive hscan name hname hupper).resolve_left fun h => ?_
          exact hwaits ((WaitingIndex.Waits.congr hpath).1 h)
        · exact ha.resolve?_createFile sources hnew hp hquiet f.library hupper
      · exact hstep.connected hf'

/-- The edges are in step when the subprogram has been created that the program waits for. -/
theorem Reachable.creation_keeps_sync_sample :
    Reachable Sample.expectant ∧ ∃ new,
      Sample.expectant.newFile? Sample.far = some new ∧
        Sample.expectant.file? Sample.far = none ∧ (new.scan? Sample.namesakes).isSome ∧
        Sample.expectant.InSync Sample.namesakes ∧
        Sample.expectant.Quiet Sample.namesakes (new.settledName Sample.namesakes)
          (fun _ => false) ∧
        (Sample.expectant.createFile Sample.namesakes Sample.far).2.2.InSync Sample.namesakes := by
  obtain ⟨new, hnew, hp, hscan, hname⟩ := Sample.exists_far
  have hsync : Sample.expectant.InSync Sample.namesakes := fun f hf _ q =>
    congrArg (·.contains q) (Sample.awaits_expectant hf).edges
  have hquiet := Sample.quiet_expectant fun _ => false
  have hwaits : ∀ f, Sample.expectant.Live f → Sample.expectant.waiting.Waits f.path "N" :=
    fun f hf => (Sample.awaits_expectant hf).waits
  rw [← hname] at hquiet hwaits
  exact ⟨Sample.reachable_after _, new, hnew, hp, hscan, hsync, hquiet,
    creation_keeps_sync (Sample.reachable_after _) Sample.namesakes hnew hp hscan hsync
      (fun f hf _ _ _ _ => .inl (hwaits f hf)) hquiet⟩

/-- A subprogram that is created nearer to the program takes the name `N`, but the edge of the
program still leads to the steplib. -/
theorem creation_shadows :
    Reachable Sample.shadowed ∧ Sample.shadowed.InSync Sample.namesakes ∧
      (Sample.shadowed.newFile? Sample.near).map (fun new => (new.scan? Sample.namesakes).isSome) =
        some true ∧
      Sample.shadowed.file? Sample.near = none ∧
      ((Sample.shadowed.createFile Sample.namesakes Sample.near).2.2.file? Sample.program).map
        (fun c => (c.library, c.referred Sample.namesakes, c.outgoing.toList)) =
          some ("L", ["N"], [Sample.far]) ∧
      (Sample.shadowed.createFile Sample.namesakes Sample.near).2.2.resolve? "L" "N" =
        some { path := Sample.near } := by
  have hall : ∀ f ∈ Sample.shadowed.files.values,
      f.outgoing = Sample.shadowed.targets f (f.referred Sample.namesakes) := by
    decide +kernel
  refine ⟨Sample.reachable_after _, fun f hf _ q => ?_, by decide +kernel⟩
  exact congrArg (·.contains q) (hall f (PathMap.mem_values.2 ⟨_, hf⟩))

end Workspace

end Steplib
