import Steplib.Proofs.Workspace.Creation
import Steplib.Proofs.Workspace.Scans

/-!
# Graphs that follow from the files

In a workspace whose files have been scanned but never parsed, everything that is known of
references follows from the files and their names: the edges, the waits and the cached positions.
Such a workspace is charted, and two of them with the same files and the same names have the same
graph. A file that is created takes its place in the graph as long as the files that refer to its
name wait for it.

## Main definitions

* `Workspace.SameGraph`: two workspaces agree in their files and in the graph between them.
* `Workspace.Charted`: the graph follows from the files.
* `Workspace.Ready`: a new file can come.

## Main results

* `Workspace.Charted.sameGraph`: the same files with the same names have the same graph.
* `Workspace.Ready.charted`: the graph follows from the files again when a new one has come.
-/

namespace Steplib

/-- The file with the name that its scan gives it. -/
def ModuleFile.settle (f : ModuleFile) (sources : Sources) : ModuleFile :=
  { f with name := f.settledName sources }

/-- A scan gives a file the name that it has given it before. -/
theorem ModuleFile.settledName_settle (f : ModuleFile) (sources : Sources) :
    (f.settle sources).settledName sources = (f.settle sources).name := by
  have hscan : (f.settle sources).scan? sources = f.scan? sources := rfl
  rw [settledName, hscan]
  simp only [settle, settledName]
  cases f.scan? sources with
  | none => rfl
  | some s =>
    simp only [Option.map_some, Option.getD_some, scannedName]
    split
    · cases s.header <;> rfl
    · rfl

namespace Workspace

/-- Both workspaces have the same libraries and the same files, the same names stand for the same
files, and the same edges, waits and cached positions are on record. -/
structure SameGraph (ws ws' : Workspace) : Prop where
  heads : ws'.heads = ws.heads
  files : ∀ p, (ws'.file? p).map ModuleFile.bare = (ws.file? p).map ModuleFile.bare
  holders : ∀ library name, ws'.holder? library name = ws.holder? library name
  calls : ∀ p q, ws'.Calls p q ↔ ws.Calls p q
  calledBy : ∀ q p, ws'.CalledBy q p ↔ ws.CalledBy q p
  waits : ∀ p name, ws'.waiting.Waits p name ↔ ws.waiting.Waits p name
  namesOf : ∀ p name, name ∈ ws'.waiting.namesOf p ↔ name ∈ ws.waiting.namesOf p
  records : ∀ called x, ws'.cache.Records called x ↔ ws.cache.Records called x

/-- None of the files has been parsed, and what is known of references follows from the files: each
of them is in step, nobody else waits, and the cache holds what they cite. -/
structure Charted (sources : Sources) (ws : Workspace) : Prop where
  arises : Arises ws
  unparsed : ws.Unparsed
  inStep : ∀ q f, ws.file? q = some f → InStep sources ws q
  waits : ∀ q name, ws.waiting.Waits q name → ∃ f, ws.file? q = some f
  records : ∀ called x, ws.cache.Records called x ↔ ∃ f, ws.Live f ∧ ws.Cites sources f called x

/-- Every library is searched itself. -/
def SearchesItself (ws : Workspace) : Prop :=
  ∀ l ∈ ws.libraries, l.name ∈ l.chain

/-- A new file can come: none of the other files has been parsed, and those that do not wait for its
name are charted with the names as they stand once the new file has entered. Scanning the others
again changes no name then. -/
structure Ready (sources : Sources) (ws : Workspace) (new : ModuleFile) : Prop where
  arises : Arises ws
  unparsed : ws.Unparsed
  searches : ws.SearchesItself
  waits : ∀ q name, ws.waiting.Waits q name →
    ∃ f, ws.file? q = some f ∧ (f.scan? sources).isSome
  steady : ∀ f, ws.Live f → (ws.enter sources new).Steady sources (fun _ => false) f
  inStep : ∀ f, ws.Live f → ¬ ws.waiting.Waits f.path (new.settledName sources) →
    InStep sources (ws.enter sources new) f.path
  cited : ∀ called x, ws.cache.Records called x →
    ∃ f, ws.Live f ∧ (ws.enter sources new).Cites sources f called x
  recorded : ∀ f called x, ws.Live f → ¬ ws.waiting.Waits f.path (new.settledName sources) →
    (ws.enter sources new).Cites sources f called x → ws.cache.Records called x

variable {sources : Sources} {base ws ws' : Workspace} {new f g : ModuleFile} {p q called : Path}
  {name library : String} {x : FilePosition}

/-! ### The graph follows from the files -/

theorem referred_bare (hstate : f.state = .unparsed) :
    f.bare.referred sources = f.referred sources := by
  simp only [ModuleFile.referred, hstate]
  rfl

/-- Scanning a file again changes no name if it has the name of its scan and that name is held. -/
theorem steady_of_settledName (hname : f.settledName sources = f.name)
    (hheld : f.claims sources = true → (ws.holder? f.library f.name).isSome) :
    ws.Steady sources (fun _ => false) f := by
  intro _ _ s hscan
  rw [ModuleFile.settledName, hscan] at hname
  have hclaims : f.claims sources = true := by simp [ModuleFile.claims, hscan]
  obtain ⟨holder, hholder⟩ := Option.isSome_iff_exists.1 (hheld hclaims)
  exact ⟨hname, holder, hholder, rfl⟩

theorem scan?_isSome_of_referred (hstate : f.state = .unparsed) (h : name ∈ f.referred sources) :
    (f.scan? sources).isSome := by
  simp only [ModuleFile.referred, hstate, ModuleState.module?] at h
  cases hscan : f.scan? sources with
  | none => simp [hscan] at h
  | some s => rfl

/-- An unparsed file refers to the names that its scan finds. -/
theorem mem_referred_of_scan {s : Scan} {c : Candidate} (hstate : f.state = .unparsed)
    (hscan : f.scan? sources = some s) (hc : c ∈ s.candidates) : c.name ∈ f.referred sources := by
  simp only [ModuleFile.referred, hstate, ModuleState.module?, hscan]
  exact List.mem_map_of_mem hc

/-- An unparsed file that cannot be read is in step as long as it has no edges and no waits. -/
theorem inStep_of_idle (hf : ws.file? p = some f) (hstate : f.state = .unparsed)
    (hscan : f.scan? sources = none) (hedges : f.outgoing = .empty)
    (hwaits : ∀ name, ¬ ws.waiting.Waits f.path name) : InStep sources ws p := by
  have hreferred : f.referred sources = [] := by
    simp [ModuleFile.referred, hstate, ModuleState.module?, hscan]
  refine ⟨f, hf, by simp [hstate], fun q => ?_, fun name => ?_⟩
  · rw [hreferred, hedges]
    rfl
  · simp [hreferred, unresolved, hwaits]

theorem referred_eq_of_bare (hb : g.bare = f.bare) (hg : g.state = .unparsed)
    (hf : f.state = .unparsed) : g.referred sources = f.referred sources := by
  rw [← referred_bare hg, hb, referred_bare hf]

/-- What a file cites is told by where it is, what it says and how names resolve. -/
theorem Cites.of_bare (h : ws.Cites sources f called x) (hb : g.bare = f.bare)
    (hr : ∀ library name, ws'.resolve? library name = ws.resolve? library name) :
    ws'.Cites sources g called x := by
  obtain ⟨s, hs, c, hc, holder, hled, hother, hcalled, hx⟩ := h
  refine ⟨s, by rwa [scan?_eq_of_bare hb], c, hc, holder, ?_, ?_, hcalled, ?_⟩
  · rw [hr, ModuleFile.library_eq_of_bare hb, hled]
  · rwa [ModuleFile.path_eq_of_bare hb]
  · rwa [ModuleFile.path_eq_of_bare hb]

theorem exists_live_of_bare
    (hfiles : ∀ p, (ws'.file? p).map ModuleFile.bare = (ws.file? p).map ModuleFile.bare)
    (hf : ws.Live f) : ∃ g, ws'.Live g ∧ g.bare = f.bare := by
  have hp := hfiles f.path
  rw [hf] at hp
  obtain ⟨g, hg, hb⟩ := Option.map_eq_some_iff.1 hp
  exact ⟨g, by rwa [Live, ModuleFile.path_eq_of_bare hb], hb⟩

/-- The same files cite the same. -/
theorem exists_cites_congr
    (hfiles : ∀ p, (ws'.file? p).map ModuleFile.bare = (ws.file? p).map ModuleFile.bare)
    (hr : ∀ library name, ws'.resolve? library name = ws.resolve? library name) :
    (∃ f, ws'.Live f ∧ ws'.Cites sources f called x) ↔
      ∃ f, ws.Live f ∧ ws.Cites sources f called x := by
  constructor
  · rintro ⟨f, hf, hcites⟩
    obtain ⟨g, hg, hb⟩ := exists_live_of_bare (fun p => (hfiles p).symm) hf
    exact ⟨g, hg, hcites.of_bare hb fun library name => (hr library name).symm⟩
  · rintro ⟨f, hf, hcites⟩
    obtain ⟨g, hg, hb⟩ := exists_live_of_bare hfiles hf
    exact ⟨g, hg, hcites.of_bare hb hr⟩

theorem Charted.follows (h : Charted sources ws) (hf : ws.file? p = some f) :
    ws.Follows sources f := by
  obtain ⟨g, hg, hfollows⟩ := h.inStep p f hf
  obtain rfl := Option.some.inj (hf.symm.trans hg)
  exact hfollows

/-- A file has an edge to every file that it cites. -/
theorem Charted.calls_of_cites (h : Charted sources ws) (hf : ws.Live f)
    (hcites : ws.Cites sources f called x) : ws.Calls f.path called := by
  obtain ⟨s, hs, c, hc, holder, hr, hother, hcalled, -⟩ := hcites
  have hmem := mem_referred_of_scan (h.unparsed f.path f hf) hs hc
  exact ⟨f, hf, (h.follows hf).contains_outgoing_iff.2
    ⟨c.name, hmem, holder, hr, hother, hcalled⟩⟩

/-- A file that has an edge or waits can be read. -/
theorem Charted.scan?_isSome (h : Charted sources ws) (hf : ws.file? q = some f)
    (hknown : (∃ p, ws.Calls q p) ∨ ∃ name, ws.waiting.Waits q name) :
    (f.scan? sources).isSome := by
  have hfollows := h.follows hf
  obtain ⟨name, hmem⟩ : ∃ name, name ∈ f.referred sources := by
    rcases hknown with ⟨p, hcalls⟩ | ⟨name, hwaits⟩
    · rw [calls_iff hf, hfollows.contains_outgoing_iff] at hcalls
      obtain ⟨name, hmem, -⟩ := hcalls
      exact ⟨name, hmem⟩
    · rw [← WaitingIndex.Waits.congr (h.arises.keyed q f hf), hfollows.waits_iff] at hwaits
      obtain ⟨other, hmem, -⟩ := hwaits
      exact ⟨other, hmem⟩
  exact scan?_isSome_of_referred (h.unparsed q f hf) hmem

section SameFiles

variable (h : Charted sources ws) (h' : Charted sources ws')
  (hfiles : ∀ p, (ws'.file? p).map ModuleFile.bare = (ws.file? p).map ModuleFile.bare)

include h h' hfiles

/-- The file at a path refers to the same names in both workspaces and follows them. -/
theorem Charted.exists_follows (hf : ws.file? p = some f) :
    ∃ g, ws'.file? p = some g ∧ g.bare = f.bare ∧ ws'.Follows sources g ∧
      g.referred sources = f.referred sources := by
  have hp := hfiles p
  rw [hf] at hp
  obtain ⟨g, hg, hb⟩ := Option.map_eq_some_iff.1 hp
  exact ⟨g, hg, hb, h'.follows hg, referred_eq_of_bare hb (h'.unparsed p g hg) (h.unparsed p f hf)⟩

variable (hr : ∀ library name, ws'.resolve? library name = ws.resolve? library name)

include hr

theorem Charted.calls_of (hcalls : ws.Calls p q) : ws'.Calls p q := by
  obtain ⟨f, hf, hq⟩ := hcalls
  obtain ⟨g, hg, hb, hfollows, hreferred⟩ := h.exists_follows h' hfiles hf
  rw [(h.follows hf).contains_outgoing_iff] at hq
  refine ⟨g, hg, hfollows.contains_outgoing_iff.2 ?_⟩
  rw [hreferred, ModuleFile.library_eq_of_bare hb, ModuleFile.path_eq_of_bare hb]
  simpa only [hr] using hq

theorem Charted.waits_of (hwaits : ws.waiting.Waits p name) : ws'.waiting.Waits p name := by
  obtain ⟨f, hf⟩ := h.waits p name hwaits
  obtain ⟨g, hg, hb, hfollows, hreferred⟩ := h.exists_follows h' hfiles hf
  have hpath := ModuleFile.path_eq_of_bare hb
  have hs := h.arises.keyed p f hf
  rw [← WaitingIndex.Waits.congr hs, (h.follows hf).waits_iff] at hwaits
  rw [← WaitingIndex.Waits.congr hs, ← hpath, hfollows.waits_iff, hreferred,
    ModuleFile.library_eq_of_bare hb]
  simpa only [hr] using hwaits

end SameFiles

/-- Charted workspaces with the same files and the same names have the same graph. -/
theorem Charted.sameGraph (h : Charted sources ws) (h' : Charted sources ws')
    (hheads : ws'.heads = ws.heads)
    (hfiles : ∀ p, (ws'.file? p).map ModuleFile.bare = (ws.file? p).map ModuleFile.bare)
    (hholders : ∀ library name, ws'.holder? library name = ws.holder? library name) :
    SameGraph ws ws' := by
  have hr (library name : String) : ws'.resolve? library name = ws.resolve? library name :=
    resolve?_congr (chain?_eq_of_heads hheads library) fun steplib => hholders steplib _
  have hfiles' (p : Path) := (hfiles p).symm
  have hr' (library name : String) := (hr library name).symm
  have hcalls (p q : Path) : ws'.Calls p q ↔ ws.Calls p q :=
    ⟨h'.calls_of h hfiles' hr', h.calls_of h' hfiles hr⟩
  have hwaits (p : Path) (name : String) :
      ws'.waiting.Waits p name ↔ ws.waiting.Waits p name :=
    ⟨h'.waits_of h hfiles' hr', h.waits_of h' hfiles hr⟩
  refine ⟨hheads, hfiles, hholders, hcalls, fun q p => ?_, hwaits, fun p name => ?_,
    fun called x => ?_⟩
  · rw [← h.arises.linked.symmetric, ← h'.arises.linked.symmetric, hcalls]
  · rw [← h.arises.mirrored, ← h'.arises.mirrored, hwaits]
  · rw [h.records, h'.records, exists_cites_congr hfiles hr]

/-! ### A file comes -/

theorem SearchesItself.of_heads (h : base.SearchesItself) (heq : ws.heads = base.heads) :
    ws.SearchesItself := fun l hl => by
  have hmem : l.head ∈ base.heads := heq ▸ List.mem_map_of_mem hl
  obtain ⟨k, hk, hkl⟩ := List.mem_map.1 hmem
  have hname : k.name = l.name := congrArg (·.name) hkl
  have hchain : k.chain = l.chain := congrArg (·.chain) hkl
  rw [← hname, ← hchain]
  exact h k hk

/-- A name that is held in a library resolves there. -/
theorem SearchesItself.resolve?_isSome (h : ws.SearchesItself)
    (hlibrary : Ascii.upper library = library)
    (hheld : (ws.holder? library (Ascii.upper name)).isSome) :
    (ws.resolve? library name).isSome := by
  obtain ⟨holder, hholder⟩ := Option.isSome_iff_exists.1 hheld
  obtain ⟨l, hl, -⟩ := Option.bind_eq_some_iff.1 hholder
  have hname : l.name = library := by simpa using List.find?_some hl
  have hchain : ws.chain? library = some l.chain := by rw [chain?, library?, hlibrary, hl]; rfl
  rw [resolve?_eq, hchain, Option.bind_some, List.findSome?_isSome_iff]
  exact ⟨library, hname ▸ h l (mem_of_libraryNamed? hl), hheld⟩

section NewFile

variable (hnew : ws.newFile? p = some new) (hp : ws.file? p = none)

include hnew hp

theorem Unparsed.enter (hu : ws.Unparsed) : (ws.enter sources new).Unparsed := by
  intro q f hf
  rw [file?_enter sources hnew hp] at hf
  split at hf
  · obtain ⟨l, -, type, rfl⟩ := newFile?_cases hnew
    obtain rfl := Option.some.inj hf
    rfl
  · exact hu q f hf

/-- The scan of the new file is recorded. -/
theorem Arises.indexes_enroll (ha : Arises ws) :
    Indexes sources [new] (ws.enter sources new) (ws.enroll sources new) := by
  rw [Workspace.enroll]
  cases hscan : new.scan? sources with
  | none => exact ⟨.refl sources _, fun _ => rfl, by simp [hscan], by simp [Cites, hscan]⟩
  | some s =>
    have hstate : new.state = .unparsed := by
      obtain ⟨l, -, type, rfl⟩ := newFile?_cases hnew
      rfl
    exact (ha.enter sources hnew hp).indexes_registerScan (unlinked_enter sources hnew hp)
      hstate hscan

/-- The files that are woken are those that have been waiting for the name. -/
theorem Arises.mem_woken_iff (ha : Arises ws) :
    g ∈ (ws.announce sources new).woken p (ws.expecting sources new) ↔ ∃ f, ws.Live f ∧
      ws.waiting.Waits f.path (new.settledName sources) ∧ unlinked f = g := by
  constructor
  · intro hg
    obtain ⟨q, hq, hfound⟩ := List.mem_filterMap.1 hg
    split at hfound
    · simp at hfound
    · rename_i hself
      have hother : p.same q = false := by rw [Path.same_comm]; simpa using hself
      obtain ⟨g', hg', rfl⟩ := Option.map_eq_some_iff.1 hfound
      obtain ⟨f, hf, ho⟩ := (ha.kept_enroll sources hnew hp hother).symm.exists_file hg'
      refine ⟨f, ha.keyed.live hf, ?_, ?_⟩
      · rw [WaitingIndex.Waits.congr (ha.keyed q f hf),
          ← ha.any_expecting_iff sources hnew hp hother]
        exact List.any_eq_true.2 ⟨q, hq, Path.same_refl q⟩
      · rw [ModuleFile.eq_of_own ho]
        rfl
  · rintro ⟨f, hf, hwaits, rfl⟩
    have hother := not_same_of_absent hp hf
    obtain ⟨q, hq, hs⟩ := List.any_eq_true.1
      ((ha.any_expecting_iff sources hnew hp hother).2 hwaits)
    obtain ⟨f', hf', ho⟩ := (ha.kept_enroll sources hnew hp hother).exists_file hf
    have hfound : (ws.announce sources new).file? q = some f' := (file?_congr _ hs).trans hf'
    have hself : q.same p = false := by rw [Path.same_congr_left hs, Path.same_comm, hother]
    have hunlinked : unlinked f' = unlinked f := by
      rw [ModuleFile.eq_of_own ho]
      rfl
    exact List.mem_filterMap.2 ⟨q, hq, by simp [hself, hfound, hunlinked]⟩

variable (h : Ready sources ws new)

include h

omit hnew in
theorem Ready.not_waits (name : String) : ¬ ws.waiting.Waits p name := fun hwaits => by
  obtain ⟨f, hf, -⟩ := h.waits p name hwaits
  simp [hp] at hf

/-- Waking the files that wait for the name of the new one only records their scans. -/
theorem Ready.indexes_createFile :
    Indexes sources ((ws.announce sources new).woken p (ws.expecting sources new))
      (ws.announce sources new) (ws.createFile sources p).2.2 := by
  have ha := h.arises
  rw [createFile_eq sources hnew hp]
  refine (ha.announce sources hnew hp).indexes_wakeAll ?_ (fun _ => false) p
    fun q _ hself f' hf' => ?_
  · exact (ha.indexes_enroll hnew hp).unparsed (h.unparsed.enter hnew hp)
  · rw [Path.same_comm] at hself
    obtain ⟨f, hf, ho⟩ := (ha.kept_enroll sources hnew hp hself).symm.exists_file hf'
    have hstate : f.state = f'.state := congrArg (·.state) ho
    refine (h.steady f (ha.keyed.live hf)).of_bare (bare_eq_of_own ho.symm)
      (by rw [hstate]; exact id) fun holder hholder _ => Eq.trans ?_ hholder
    exact holder?_eq_of_skeleton (skeleton_enroll sources ws new) ..

theorem Ready.skeleton_createFile :
    (ws.createFile sources p).2.2.skeleton = (ws.enter sources new).skeleton :=
  (h.indexes_createFile hnew hp).refreshes.skeleton.trans (skeleton_enroll sources ws new)

/-- The new file is in step as soon as its scan is recorded, also if it cannot be read. -/
theorem Ready.inStep_enroll : InStep sources (ws.enroll sources new) p := by
  cases hscan : new.scan? sources with
  | some s => exact (h.arises.aligns_enroll sources hnew hp (by rw [hscan]; rfl)).inStep
  | none =>
    have hfile := file?_enter_self sources hnew hp
    have hfree := h.not_waits hp
    simp only [enroll, hscan]
    obtain ⟨l, -, type, rfl⟩ := newFile?_cases hnew
    refine inStep_of_idle hfile rfl hscan rfl fun name hwaits => ?_
    rw [(records_enter sources ws _).1] at hwaits
    exact hfree name hwaits

/-- The new file does not wait for its own name. -/
theorem Ready.not_waits_enroll :
    ¬ (ws.enroll sources new).waiting.Waits p (new.settledName sources) := by
  have ha := h.arises
  have hskeleton := skeleton_enroll sources ws new
  obtain ⟨f, hf, hfollows⟩ := h.inStep_enroll hnew hp
  have hfile := file?_enter_self sources hnew hp
  obtain ⟨g, hg, hb⟩ := exists_file_of_skeleton hskeleton.symm hf
  obtain rfl := Option.some.inj (hfile.symm.trans hg)
  have hkeyed := (ha.enroll sources hnew hp).keyed p f hf
  rw [← WaitingIndex.Waits.congr hkeyed, hfollows.waits_iff]
  -- a file that refers to its own name can be read, so it holds that name already
  rintro ⟨other, hmem, hupper, hnone⟩
  have hstate := (ha.indexes_enroll hnew hp).unparsed (h.unparsed.enter hnew hp) p f hf
  have hscan := scan?_isSome_of_referred hstate hmem
  rw [← scan?_eq_of_bare hb] at hscan
  have hclaims : new.claims sources = true := by
    rw [ModuleFile.claims]
    exact Bool.or_eq_true_iff.2 (.inr hscan)
  have hlibrary : f.library = new.library := (ModuleFile.library_eq_of_bare hb).symm
  have hsearches := h.searches.of_heads (heads_enter sources hnew hp)
  have hresolves : ((ws.enter sources new).resolve? new.library other).isSome := by
    refine hsearches.resolve?_isSome (ha.named.library_newFile? hnew).1 ?_
    rw [holder?_enter sources hnew hp ha.named, if_pos ⟨hclaims, rfl, hupper⟩]
    rfl
  rw [hlibrary, resolve?_eq_of_skeleton hskeleton] at hnone
  simp [hnone] at hresolves

/-- A file that is enrolled and does not wait for the name is left alone when the name is announced
and stays in step. -/
theorem Ready.inStep_of_enroll (hstep : InStep sources (ws.enroll sources new) q)
    (hnot : ¬ (ws.enroll sources new).waiting.Waits q (new.settledName sources)) :
    InStep sources (ws.createFile sources p).2.2 q := by
  have hkept : Kept (ws.enroll sources new) (ws.announce sources new) q := by
    refine ⟨rfl, fun name => ?_⟩
    rw [announce, WaitingIndex.waits_take, h.arises.upper_settledName sources hnew hp]
    refine ⟨And.right, fun hwaits => ⟨?_, hwaits⟩⟩
    rintro rfl
    exact hnot hwaits
  have hk := (h.arises.enroll sources hnew hp).keyed
  exact (h.indexes_createFile hnew hp).refreshes.inStep hk (hstep.kept hk hkept rfl)

theorem Ready.inStep_other (hf : ws.file? q = some f) :
    InStep sources (ws.createFile sources p).2.2 q := by
  have ha := h.arises
  have hs := ha.keyed q f hf
  have hlive := ha.keyed.live hf
  have hother := not_same_of_absent hp hlive
  refine (InStep.congr hs).1 ?_
  by_cases hwaits : ws.waiting.Waits f.path (new.settledName sources)
  · have hmem : unlinked f ∈ (ws.announce sources new).woken p (ws.expecting sources new) :=
      (ha.mem_woken_iff hnew hp).2 ⟨f, hlive, hwaits, rfl⟩
    obtain ⟨f', hf', hscan⟩ := h.waits _ _ hwaits
    obtain rfl := Option.some.inj (hlive.symm.trans hf')
    exact (h.indexes_createFile hnew hp).inStep (unlinked f) hmem hscan
  · have hk := (ha.enter sources hnew hp).keyed
    have hstep := (ha.indexes_enroll hnew hp).refreshes.inStep hk (h.inStep f hlive hwaits)
    refine h.inStep_of_enroll hnew hp hstep fun henrolled => hwaits ?_
    exact ((ha.kept_enroll sources hnew hp hother).waits _).1 henrolled

/-- Who lies where after the creation, and what the files carry. -/
theorem Ready.bare_createFile (q : Path) :
    ((ws.createFile sources p).2.2.file? q).map ModuleFile.bare =
      if p.same q then some (new.settle sources) else (ws.file? q).map ModuleFile.bare := by
  rw [map_bare_file?_of_skeleton (h.skeleton_createFile hnew hp), file?_enter sources hnew hp]
  split
  · obtain ⟨l, -, type, rfl⟩ := newFile?_cases hnew
    rfl
  · rfl

/-- Nobody waits for a name but the files that are there. -/
theorem Ready.exists_file_of_waits (hwaits : (ws.createFile sources p).2.2.waiting.Waits q name) :
    ∃ f, (ws.createFile sources p).2.2.file? q = some f := by
  by_contra hnone
  have habsent : (ws.createFile sources p).2.2.file? q = none :=
    Option.eq_none_iff_forall_ne_some.2 fun f hf => hnone ⟨f, hf⟩
  have hfile := h.bare_createFile hnew hp q
  rw [habsent] at hfile
  cases hs : p.same q with
  | true => simp [hs] at hfile
  | false =>
    have hfree (name : String) : ¬ ws.waiting.Waits q name := fun hwaits => by
      obtain ⟨f, hf, -⟩ := h.waits q name hwaits
      simp [hs, hf] at hfile
    have hkept := h.arises.kept_announce sources hnew hp hs (hfree _)
    rcases (h.indexes_createFile hnew hp).refreshes.files q with hkept' | ⟨f, hf, -⟩
    · exact hfree name (((hkept.trans hkept').waits name).1 hwaits)
    · simp [habsent] at hf

/-- The files cite what the new one and the others cite with the new name. -/
theorem Ready.exists_cites_iff :
    (∃ f, (ws.createFile sources p).2.2.Live f ∧
      (ws.createFile sources p).2.2.Cites sources f called x) ↔
      (ws.enter sources new).Cites sources new called x ∨
        ∃ f, ws.Live f ∧ (ws.enter sources new).Cites sources f called x := by
  have hskeleton := h.skeleton_createFile hnew hp
  rw [exists_cites_congr (map_bare_file?_of_skeleton hskeleton) (resolve?_eq_of_skeleton hskeleton)]
  have hpath := path_newFile? hnew
  have hfile := file?_enter sources hnew hp
  constructor
  · rintro ⟨f, hf, hcites⟩
    rw [Live, hfile] at hf
    split at hf
    · obtain rfl := Option.some.inj hf
      exact .inl hcites
    · exact .inr ⟨f, hf, hcites⟩
  · rintro (hcites | ⟨f, hf, hcites⟩)
    · refine ⟨{ new with name := new.settledName sources }, ?_, hcites⟩
      rw [Live, hfile, ← hpath, Path.same_refl, if_pos rfl]
    · refine ⟨f, ?_, hcites⟩
      rw [Live, hfile, not_same_of_absent hp hf]
      exact hf

theorem Ready.records_createFile (called : Path) (x : FilePosition) :
    (ws.createFile sources p).2.2.cache.Records called x ↔
      ∃ f, (ws.createFile sources p).2.2.Live f ∧
        (ws.createFile sources p).2.2.Cites sources f called x := by
  have hwoken := (h.indexes_createFile hnew hp).records called x
  have hfirst : Indexes sources [new] (ws.enter sources new) (ws.enroll sources new) :=
    h.arises.indexes_enroll hnew hp
  have henroll := hfirst.records called x
  have hcites (f : ModuleFile) : (ws.announce sources new).Cites sources f called x ↔
      (ws.enter sources new).Cites sources f called x :=
    cites_eq_of_skeleton (skeleton_enroll sources ws new)
  rw [(records_enter sources ws new).2] at henroll
  simp only [List.mem_singleton, exists_eq_left] at henroll
  simp only [hcites, h.arises.mem_woken_iff hnew hp] at hwoken
  rw [hwoken, h.exists_cites_iff hnew hp]
  refine (or_congr_left henroll).trans ⟨?_, ?_⟩
  · rintro ((hrecords | hself) | ⟨_, ⟨f, hf, -, rfl⟩, hcited⟩)
    · exact .inr (h.cited called x hrecords)
    · exact .inl hself
    · exact .inr ⟨f, hf, hcited⟩
  · rintro (hself | ⟨f, hf, hcited⟩)
    · exact .inl (.inr hself)
    · by_cases hwaits : ws.waiting.Waits f.path (new.settledName sources)
      · exact .inr ⟨unlinked f, ⟨f, hf, hwaits, rfl⟩, hcited⟩
      · exact .inl (.inl (h.recorded f called x hf hwaits hcited))

/-- When the new file has come, the graph follows from the files again. -/
theorem Ready.charted : Charted sources (ws.createFile sources p).2.2 := by
  have ha := h.arises
  refine ⟨ha.moves (moves_createFile sources ha.keyed p),
    (h.indexes_createFile hnew hp).unparsed
      ((ha.indexes_enroll hnew hp).unparsed (h.unparsed.enter hnew hp)),
    fun q f hf => ?_, fun q name => h.exists_file_of_waits hnew hp,
    h.records_createFile hnew hp⟩
  cases hs : p.same q with
  | true =>
    have hnew' := h.inStep_of_enroll hnew hp (h.inStep_enroll hnew hp) (h.not_waits_enroll hnew hp)
    exact (InStep.congr hs).1 hnew'
  | false =>
    have hq := h.bare_createFile hnew hp q
    rw [hs, hf] at hq
    obtain ⟨g, hg, -⟩ := Option.map_eq_some_iff.1 hq.symm
    exact h.inStep_other hnew hp hg

end NewFile

end Workspace

end Steplib
