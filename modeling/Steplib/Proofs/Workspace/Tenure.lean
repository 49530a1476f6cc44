import Steplib.Proofs.Workspace.Batch
import Steplib.Proofs.Workspace.Deletion

/-!
# How long a file keeps its name

A name that is taken stays with the file that has it. A file that is named by its stem claims its
name once, when it is added, and never again: from then on it holds the name as long as it is part
of the project, or it never does. A file that finds its name taken therefore depends on the file
that holds it. As long as no other file gives up the name, by leaving the project or by taking over
another one, the name leads to a live file of the library.

## Main definitions

* `Workspace.Tenure`: what becomes of names while files are read and added.
* `Workspace.Registered`, `Workspace.Persists`: a file holds its name, and goes on doing so.
* `Workspace.Respects`: no other file gives up the name of a file.

## Main results

* `Workspace.Arises.tenure_readings`, `Workspace.Arises.tenure_createFile`: names while files are
  read and created.
* `Workspace.Arises.persists_run`: a file named by its stem neither gets nor gives up its name.
* `Workspace.ReachableBy.stem_held`: the name of a file is held as long as no other file gives it
  up.
* `Workspace.stem_orphaned`: when the file that held a name first is deleted, no other gets it.
-/

namespace Steplib

namespace ModuleFile

/-- The file carries the name that its scan gives it. -/
def Confirmed (f : ModuleFile) (sources : Sources) : Prop :=
  f.settledName sources = f.name

/-- The second file is the first one at a later time. If the first one carries the name that its
scan gives it, the second one still does. -/
structure Continues (sources : Sources) (f f' : ModuleFile) : Prop where
  path : f'.path = f.path
  library : f'.library = f.library
  type : f'.type = f.type
  name : f.Confirmed sources → f'.name = f.name ∧ f'.Confirmed sources

variable {sources : Sources} {f f' g : ModuleFile}

theorem Continues.trans (h : f.Continues sources g) (h' : g.Continues sources f') :
    f.Continues sources f' where
  path := h'.path.trans h.path
  library := h'.library.trans h.library
  type := h'.type.trans h.type
  name hf := by
    obtain ⟨hname, hg⟩ := h.name hf
    obtain ⟨hname', hf'⟩ := h'.name hg
    exact ⟨hname'.trans hname, hf'⟩

theorem continues_settle (f : ModuleFile) (sources : Sources) :
    f.Continues sources (f.settle sources) :=
  ⟨rfl, rfl, rfl, fun h => ⟨h, f.settledName_settle sources⟩⟩

/-- A file that is named by its stem carries the name of every scan. -/
theorem confirmed_of_stem (sources : Sources) (h : f.type.hasHeaderName = false) :
    f.Confirmed sources := by
  have hstem : Workspace.claimsStem f = true := by simp [Workspace.claimsStem, h]
  have hsettle := Workspace.settle_of_claimsStem sources hstem
  have hname : (f.settle sources).name = f.name := congrArg (·.name) hsettle
  exact hname

theorem continues_of_bare (hb : f'.bare = f.bare) : f.Continues sources f' where
  path := path_eq_of_bare hb
  library := library_eq_of_bare hb
  type := type_eq_of_bare hb
  name h := by
    have hscanned : f'.scannedName = f.scannedName :=
      funext fun s => by simp only [scannedName, type_eq_of_bare hb, name_eq_of_bare hb]
    refine ⟨name_eq_of_bare hb, ?_⟩
    rw [Confirmed, settledName, Workspace.scan?_eq_of_bare hb, hscanned, name_eq_of_bare hb]
    exact h

end ModuleFile

/-- The operation takes the file at the path out of the project. -/
def Operation.removes (p : Path) : Operation → Bool
  | deleteFile q | renameFile q _ => q.same p
  | _ => false

namespace Workspace

/-- What becomes of names while files are read and added, but none is deleted: a file that gives up
a name carries the name of its scan from then on, and so does a file that gets a name. Only files
that are named by their headers and new files get names. -/
structure Tenure (sources : Sources) (ws ws' : Workspace) : Prop where
  files : ∀ p f, ws.file? p = some f → ∃ f', ws'.file? p = some f' ∧ f.Continues sources f'
  lost : ∀ library name holder, ws.holder? library name = some holder →
    ws'.holder? library name = some holder ∨
      ∃ f', ws'.file? holder.path = some f' ∧ f'.name ≠ name ∧ f'.Confirmed sources
  gained : ∀ library name holder, ws'.holder? library name = some holder →
    ws.holder? library name = some holder ∨
      ∃ f', ws'.file? holder.path = some f' ∧ f'.Confirmed sources ∧
        (f'.type.hasHeaderName = true ∨ ws.file? holder.path = none)

variable {sources : Sources} {ws ws₁ ws' : Workspace} {f f' : ModuleFile} {p q : Path}
  {library name : String} {s : Scan}

/-! ### One step after the other -/

theorem Tenure.trans (h : Tenure sources ws ws₁) (h' : Tenure sources ws₁ ws') :
    Tenure sources ws ws' := by
  refine ⟨fun p f hf => ?_, fun library name holder hh => ?_, fun library name holder hh => ?_⟩
  · obtain ⟨f₁, hf₁, hcontinues⟩ := h.files p f hf
    obtain ⟨f', hf', hcontinues'⟩ := h'.files p f₁ hf₁
    exact ⟨f', hf', hcontinues.trans hcontinues'⟩
  · rcases h.lost library name holder hh with hh₁ | ⟨f₁, hf₁, hname, hconfirmed⟩
    · exact h'.lost library name holder hh₁
    · obtain ⟨f', hf', hcontinues⟩ := h'.files _ f₁ hf₁
      obtain ⟨hname', hconfirmed'⟩ := hcontinues.name hconfirmed
      exact .inr ⟨f', hf', by rwa [hname'], hconfirmed'⟩
  · rcases h'.gained library name holder hh with hh₁ | ⟨f', hf', hconfirmed, hnew⟩
    · rcases h.gained library name holder hh₁ with hh | ⟨f₁, hf₁, hconfirmed, hnew⟩
      · exact .inl hh
      · obtain ⟨f', hf', hcontinues⟩ := h'.files _ f₁ hf₁
        refine .inr ⟨f', hf', (hcontinues.name hconfirmed).2, ?_⟩
        rwa [hcontinues.type]
    · refine .inr ⟨f', hf', hconfirmed, hnew.imp_right fun hnone => ?_⟩
      rw [Option.eq_none_iff_forall_ne_some]
      intro f hf
      obtain ⟨f₁, hf₁, -⟩ := h.files _ f hf
      simp [hf₁] at hnone

theorem Tenure.of_skeleton (h : ws'.skeleton = ws.skeleton) : Tenure sources ws ws' := by
  refine ⟨fun p f hf => ?_, fun library name holder hh => .inl ?_, fun library name holder hh =>
    .inl ?_⟩
  · obtain ⟨f', hf', hb⟩ := exists_file_of_skeleton h hf
    exact ⟨f', hf', ModuleFile.continues_of_bare hb⟩
  · rw [holder?_eq_of_skeleton h, hh]
  · rw [← holder?_eq_of_skeleton h, hh]

/-! ### Reading and adding files -/

/-- A file that takes over a name gets no name from another file, and if it gives up the one that it
held, it carries the new one. -/
theorem Arises.tenure_registerScannedName (ha : Arises ws) (hf : ws.Live f)
    (hscan : f.scan? sources = some s) : Tenure sources ws (ws.registerScannedName f s) := by
  have hfile := file?_registerScannedName_of_live hf hscan
  have hself (holder : Holder) (hs : holder.path.same f.path = true) :
      (ws.registerScannedName f s).file? holder.path = some (f.settle sources) := by
    rw [hfile, Path.same_comm, hs, if_pos rfl]
  refine ⟨fun p g hg => ?_, fun library name holder hh => ?_, fun library name holder hh => ?_⟩
  · rw [hfile]
    split
    · rename_i hs
      rw [← ws.file?_congr hs, hf] at hg
      obtain rfl := Option.some.inj hg
      exact ⟨_, rfl, f.continues_settle sources⟩
    · exact ⟨g, hg, ModuleFile.continues_of_bare rfl⟩
  · cases hs : holder.path.same f.path with
    | false => exact .inl (holder?_registerScannedName_of_other hh hs s)
    | true =>
      obtain ⟨rfl, rfl⟩ := ha.named.eq_of_holder?_same hf hh hs
      by_cases hname : f.settledName sources = f.name
      · refine .inl ?_
        have hscanned : f.scannedName s = f.name := by
          rwa [ModuleFile.settledName, hscan] at hname
        rw [registerScannedName_eq_self ha.named hf hscanned (by rw [hh]; rfl), hh]
      · exact .inr ⟨_, hself holder hs, hname, f.settledName_settle sources⟩
  · rw [registerScannedName] at hh
    split at hh
    · rename_i htype
      obtain ⟨l', hl', hget⟩ := Option.bind_eq_some_iff.1 hh
      have hlname : l'.name = library := by simpa using List.find?_some hl'
      obtain ⟨l, hl, hname, hheld⟩ := mem_claimName (mem_of_libraryNamed? hl')
      rcases hheld name holder hget with ⟨-, rfl, -⟩ | ⟨hold, -⟩
      · exact .inr ⟨_, hself _ (Path.same_refl _), f.settledName_settle sources, .inl htype⟩
      · refine .inl ?_
        rw [← hlname, hname, ha.named.holder?_of_mem hl, hold]
    · exact .inl hh

theorem Arises.tenure_reading (ha : Arises ws) (h : Reading sources ws ws') :
    Tenure sources ws ws' := by
  cases h with
  | parse f hf find => exact .of_skeleton (skeleton_install ..)
  | name f s hf hs => exact ha.tenure_registerScannedName hf hs
  | scan f s hf hs => exact .of_skeleton (skeleton_registerScan ..)

theorem Arises.tenure_readings (ha : Arises ws) (h : Readings sources ws ws') :
    Tenure sources ws ws' := by
  induction h with
  | refl => exact .of_skeleton rfl
  | tail hbefore hlast ih =>
    exact ih.trans ((ha.moves (Readings.moves hbefore)).tenure_reading hlast)

/-- A new file takes no name from another file. -/
theorem Named.tenure_addFile (hn : ws.Named) (sources : Sources) (p : Path) :
    Tenure sources ws (ws.addFile p).2 := by
  rcases ws.addFile_cases p with ⟨h, -⟩ | ⟨new, hnew, hp, -⟩
  · rw [h]
    exact .of_skeleton rfl
  · have hfile := file?_addFile hnew hp
    have hholder := holder?_addFile hnew hp hn
    refine ⟨fun q g hg => ⟨g, ?_, ModuleFile.continues_of_bare rfl⟩,
      fun library name holder hh => .inl ?_, fun library name holder hh => ?_⟩
    · rw [hfile, if_neg, hg]
      intro hs
      rw [← ws.file?_congr hs, hp] at hg
      simp at hg
    · rw [hholder, hh]
      exact ite_self _
    · rw [hholder] at hh
      split at hh
      · rename_i hnamed
        cases hold : ws.holder? library name with
        | some taken =>
          rw [hold] at hh
          exact .inl hh
        | none =>
          rw [hold] at hh
          obtain rfl := Option.some.inj hh
          refine .inr ⟨new, ?_, ModuleFile.confirmed_of_stem sources hnamed.1, .inr hp⟩
          simp [hfile]
      · exact .inl hh

theorem Arises.addFile (ha : Arises ws) (p : Path) : Arises (ws.addFile p).2 :=
  ha.moves (.single (.add ws p : Move (fun _ => .error .notFound) ws _))

/-- The workspace in which nobody waits for a name. -/
def dismiss (ws : Workspace) (name : String) : Workspace :=
  { ws with waiting := (ws.waiting.take name).2 }

theorem Arises.dismiss (ha : Arises ws) (name : String) : Arises (ws.dismiss name) :=
  ha.move (.take ws name : Move (fun _ => .error .notFound) ws _)

theorem skeleton_dismiss (ws : Workspace) (name : String) :
    (ws.dismiss name).skeleton = ws.skeleton := rfl

/-- A creation adds the file, unless it is there already, scans it and wakes the files that wait for
its name. -/
theorem Arises.createFile_cases (ha : Arises ws) (sources : Sources) (p : Path) :
    (ws.createFile sources p).2.2 = (ws.addFile p).2 ∨ ∃ new w f,
      (ws.addFile p).1 = some new ∧ w = ((ws.addFile p).2.indexFile sources new).1 ∧
      w.file? new.path = some f ∧ (ws.createFile sources p).2.2 =
        ((w.dismiss f.name).wakeAll sources f.path (w.waiting.waiting f.name)).2 := by
  have hlive (new : ModuleFile) (h : (ws.addFile p).1 = some new) := live_addFile ha.keyed h
  have ha₁ := ha.addFile p
  rw [createFile]
  generalize ws.addFile p = added at hlive ha₁
  obtain ⟨new, ws₁⟩ := added
  cases new with
  | none => exact .inl rfl
  | some new =>
    have hlive := hlive new rfl
    have hindex := readings_indexFile sources ha₁.keyed hlive
    obtain ⟨f, hf, -⟩ := (ha₁.tenure_readings hindex).files _ new hlive
    refine .inr ⟨new, _, f, rfl, rfl, hf, ?_⟩
    simp only [resolveWaiting, hf]
    rfl

/-- No file comes or goes while files are read. -/
theorem Reading.isSome_file? (h : Reading sources ws ws') (p : Path) :
    (ws'.file? p).isSome = (ws.file? p).isSome := by
  have hskeleton (h : ws'.skeleton = ws.skeleton) : (ws'.file? p).isSome = (ws.file? p).isSome := by
    rw [← Option.isSome_map, map_bare_file?_of_skeleton h, Option.isSome_map]
  cases h with
  | parse f hf find => exact hskeleton (skeleton_install ..)
  | name f s hf hs =>
    rw [← Option.isSome_map, unlinked_registerScannedName, Option.isSome_map]
  | scan f s hf hs => exact hskeleton (skeleton_registerScan ..)

theorem Readings.isSome_file? (h : Readings sources ws ws') (p : Path) :
    (ws'.file? p).isSome = (ws.file? p).isSome := by
  induction h with
  | refl => rfl
  | tail _ hlast ih => rw [hlast.isSome_file?, ih]

/-- What follows in a creation once the file has been added: files are read, and none comes or
goes. -/
theorem Arises.tenure_added (ha : Arises ws) (sources : Sources) (p : Path) :
    Tenure sources (ws.addFile p).2 (ws.createFile sources p).2.2 ∧
      ∀ q, ((ws.createFile sources p).2.2.file? q).isSome =
        ((ws.addFile p).2.file? q).isSome := by
  rcases ha.createFile_cases sources p with h | ⟨new, w, f, hnew, hw, -, h⟩ <;> rw [h]
  · exact ⟨.of_skeleton rfl, fun _ => rfl⟩
  · have ha₁ := ha.addFile p
    have hindex := readings_indexFile sources ha₁.keyed (live_addFile ha.keyed hnew)
    rw [← hw] at hindex
    have hdismiss : Tenure sources w (w.dismiss f.name) := .of_skeleton (skeleton_dismiss ..)
    have ha₂ := (ha₁.moves hindex.moves).dismiss f.name
    have hwake := readings_wakeAll sources ha₂.keyed f.path (w.waiting.waiting f.name)
    refine ⟨?_, fun q => (hwake.isSome_file? q).trans (hindex.isSome_file? q)⟩
    exact (ha₁.tenure_readings hindex).trans (hdismiss.trans (ha₂.tenure_readings hwake))

theorem Arises.tenure_createFile (ha : Arises ws) (sources : Sources) (p : Path) :
    Tenure sources ws (ws.createFile sources p).2.2 :=
  (ha.named.tenure_addFile sources p).trans (ha.tenure_added sources p).1

/-! ### Names taken from the stem -/

/-- The file holds the name that it carries. -/
def Registered (ws : Workspace) (f : ModuleFile) : Prop :=
  ws.holder? f.library f.name = some { path := f.path }

/-- The file `f` is still there, in the same library and of the same type. If it is named by its
stem, it still carries its name, and it holds the name if and only if it did before. -/
def Persists (ws : Workspace) (f : ModuleFile) (ws' : Workspace) : Prop :=
  ∃ f', ws'.file? f.path = some f' ∧ f'.path = f.path ∧ f'.library = f.library ∧
    f'.type = f.type ∧
    (f.type.hasHeaderName = false → f'.name = f.name ∧ (ws'.Registered f' ↔ ws.Registered f))

/-- A file that is named by its stem neither gets nor gives up its name while files are read and
added. -/
theorem Tenure.persists (h : Tenure sources ws ws') (hf : ws.Live f) : Persists ws f ws' := by
  obtain ⟨f', hf', hcontinues⟩ := h.files _ f hf
  refine ⟨f', hf', hcontinues.path, hcontinues.library, hcontinues.type, fun htype => ?_⟩
  obtain ⟨hname, -⟩ := hcontinues.name (ModuleFile.confirmed_of_stem sources htype)
  refine ⟨hname, ?_⟩
  rw [Registered, hcontinues.library, hname, hcontinues.path, Registered]
  constructor
  · intro hh
    refine (h.gained _ _ _ hh).resolve_right ?_
    rintro ⟨g, hg, -, hnew⟩
    obtain rfl := Option.some.inj (hf'.symm.trans hg)
    have hf : ws.file? f.path = some f := hf
    simp [hcontinues.type, htype, hf] at hnew
  · intro hh
    refine (h.lost _ _ _ hh).resolve_right ?_
    rintro ⟨g, hg, hne, -⟩
    obtain rfl := Option.some.inj (hf'.symm.trans hg)
    exact hne hname

theorem Persists.tenure (h : Persists ws f ws₁) (h' : Tenure sources ws₁ ws') :
    Persists ws f ws' := by
  obtain ⟨f₁, hf₁, hpath, hlibrary, htype, hname⟩ := h
  obtain ⟨f', hf', hpath', hlibrary', htype', hname'⟩ :=
    h'.persists (f := f₁) (by rw [Live, hpath, hf₁])
  rw [hpath] at hf' hpath'
  rw [hlibrary] at hlibrary'
  rw [htype] at htype' hname'
  refine ⟨f', hf', hpath', hlibrary', htype', fun hstem => ?_⟩
  obtain ⟨heq, hiff⟩ := hname hstem
  obtain ⟨heq', hiff'⟩ := hname' hstem
  exact ⟨heq'.trans heq, hiff'.trans hiff⟩

theorem Persists.of_identity (hf' : ws'.file? f.path = some f') (hid : f'.identity = f.identity)
    (hh : ws'.holder? f.library f.name = some { path := f.path } ↔ ws.Registered f) :
    Persists ws f ws' := by
  have hpath : f'.path = f.path := congrArg Identity.path hid
  have hlibrary : f'.library = f.library := congrArg Identity.library hid
  have hname : f'.name = f.name := congrArg Identity.name hid
  refine ⟨f', hf', hpath, hlibrary, congrArg Identity.type hid, fun _ => ⟨hname, ?_⟩⟩
  rw [Registered, hlibrary, hname, hpath]
  exact hh

theorem persists_edit (hf : ws.Live f) (p : Path) (e : Edit) :
    Persists ws f (ws.modifyFile p e.apply) := by
  have hf : ws.file? f.path = some f := hf
  have hfile := file?_modifyFile ws p f.path e.apply
  rw [hf] at hfile
  split at hfile
  · exact .of_identity hfile (identity_edit e f) Iff.rfl
  · exact .of_identity hfile rfl Iff.rfl

/-- Deleting another file leaves the name with the file. -/
theorem Named.persists_deleteFile (hn : ws.Named) (hf : ws.Live f)
    (hother : p.same f.path = false) : Persists ws f (ws.deleteFile p).2 := by
  cases hp : ws.file? p with
  | none =>
    simp only [Workspace.deleteFile, hp]
    exact .of_identity hf rfl Iff.rfl
  | some t =>
    have hf : ws.file? f.path = some f := hf
    have hfile := file?_deleteFile hp f.path
    rw [hother, hf] at hfile
    refine .of_identity hfile (identity_released p t f.path f) ?_
    rw [hn.holder?_deleteFile hp, Option.filter_eq_some_iff, Registered]
    rw [Path.same_comm] at hother
    simp [hother]

theorem Arises.persists_revises (ha : Arises ws) (h : Revises sources ws ws') (hf : ws.Live f) :
    Persists ws f ws' := by
  obtain h | ⟨p, e, h⟩ := h
  · exact (ha.tenure_readings h).persists hf
  · have ha₁ := ha.move (.edit ws p e : Move sources _ _)
    exact (persists_edit hf p e).tenure (ha₁.tenure_readings h)

/-- A file that is named by its stem neither gets nor gives up its name as long as it is part of the
project. -/
theorem Arises.persists_run (ha : Arises ws) (sources : Sources) {op : Operation} (hf : ws.Live f)
    (hstays : op.removes f.path = false) : Persists ws f (op.run sources ws) := by
  cases op with
  | addFile p => exact (ha.named.tenure_addFile sources p).persists hf
  | createFile p => exact (ha.tenure_createFile sources p).persists hf
  | deleteFile p => exact ha.named.persists_deleteFile hf hstays
  | renameFile p new =>
    have ha₁ := ha.move (.delete ws p : Move sources _ _)
    exact (ha.named.persists_deleteFile hf hstays).tenure (ha₁.tenure_createFile sources new)
  | _ => exact ha.persists_revises (revises_run sources ha.keyed rfl) hf

/-! ### Names that somebody holds -/

/-- The name of the file at the path is held in its library, if the file is named by its stem. -/
def StemHeld (ws : Workspace) (p : Path) : Prop :=
  ∀ f, ws.file? p = some f → f.type.hasHeaderName = false →
    (ws.holder? f.library f.name).isSome

/-- The name of the file at the path is held by the same other file in both workspaces, if another
file holds it in the first one. -/
def Respects (ws : Workspace) (p : Path) (ws' : Workspace) : Prop :=
  ∀ f, ws'.file? p = some f → f.type.hasHeaderName = false → ∀ holder,
    ws.holder? f.library f.name = some holder → holder.path.same p = false →
      ws'.holder? f.library f.name = some holder

/-- A name is held by the file at a path only if there is one, and then the file is registered. -/
theorem Named.registered_of_same (hn : ws.Named) (hf : ws.file? p = some f) {holder : Holder}
    (hh : ws.holder? f.library f.name = some holder) (hs : holder.path.same p = true) :
    ws.Registered f := by
  obtain ⟨hlive, g, hg, hpath, -, -⟩ := hn.holds_of_holder? hh
  rw [ws.file?_congr hs, hf] at hg
  obtain rfl := Option.some.inj hg
  obtain ⟨path, live⟩ := holder
  rw [Registered, hh]
  simp_all

/-- A file that finds its name free holds it when it has been added. -/
theorem Named.registered_addFile (hn : ws.Named) (hp : ws.file? p = none)
    (hf : (ws.addFile q).2.file? p = some f) (htype : f.type.hasHeaderName = false)
    (hfree : ws.holder? f.library f.name = none) : (ws.addFile q).2.Registered f := by
  rcases ws.addFile_cases q with ⟨h, -⟩ | ⟨new, hnew, hq, -⟩
  · rw [h, hp] at hf
    simp at hf
  · rw [file?_addFile hnew hq, hp] at hf
    split at hf
    · obtain rfl := Option.some.inj hf
      rw [Registered, holder?_addFile hnew hq hn, hfree, path_newFile? hnew]
      simp [htype]
    · simp at hf

/-- A file that finds its name free holds it when it has been created. -/
theorem Arises.registered_createFile (ha : Arises ws) (hp : ws.file? p = none)
    (hf : (ws.createFile sources q).2.2.file? p = some f) (htype : f.type.hasHeaderName = false)
    (hfree : ws.holder? f.library f.name = none) : (ws.createFile sources q).2.2.Registered f := by
  obtain ⟨htenure, hsome⟩ := ha.tenure_added sources q
  have hk := (ha.addFile q).keyed
  have hback := hsome p
  rw [hf] at hback
  obtain ⟨new, hnew⟩ := Option.isSome_iff_exists.1 hback.symm
  obtain ⟨f', hf', -, hlibrary, htype', hname⟩ := htenure.persists (hk.live hnew)
  rw [file?_congr _ (hk p new hnew), hf] at hf'
  obtain rfl := Option.some.inj hf'
  rw [htype'] at htype
  obtain ⟨hname, hiff⟩ := hname htype
  rw [hlibrary, hname] at hfree
  exact hiff.2 (ha.named.registered_addFile hp hnew htype hfree)

theorem Revises.absent (h : Revises sources ws ws') (hp : ws.file? p = none) :
    ws'.file? p = none := by
  rw [← Option.not_isSome_iff_eq_none] at hp ⊢
  obtain h | ⟨q, e, h⟩ := h
  · rwa [h.isSome_file?]
  · rw [h.isSome_file?, file?_modifyFile]
    split
    · rwa [Option.isSome_map]
    · exact hp

theorem absent_deleteFile (h : ws.file? p = none ∨ q.same p = true) :
    (ws.deleteFile q).2.file? p = none := by
  cases hq : ws.file? q with
  | none =>
    simp only [deleteFile, hq]
    exact h.elim id fun hs => (ws.file?_congr hs).symm.trans hq
  | some t =>
    rw [file?_deleteFile hq]
    rcases h with h | h <;> simp [h]

section Operation

variable {op : Operation} (ha : Arises ws) (hf : (op.run sources ws).file? p = some f)
  (htype : f.type.hasHeaderName = false)
  (hself : ∀ holder, ws.holder? f.library f.name = some holder → holder.path.same p = true)

include ha hf htype hself

/-- A file that was there before an operation holds its name if nobody else does and its name was
held. -/
theorem Arises.registered_run_of_stays (h : ws.StemHeld p) (hf₀ : ws.file? p = some f')
    (hstays : op.removes f'.path = false) : (op.run sources ws).Registered f := by
  obtain ⟨g, hg, -, hlibrary, htype', hname⟩ := ha.persists_run sources (ha.keyed.live hf₀) hstays
  rw [file?_congr _ (ha.keyed p f' hf₀), hf] at hg
  obtain rfl := Option.some.inj hg
  rw [htype'] at htype
  obtain ⟨hname, hiff⟩ := hname htype
  rw [hlibrary, hname] at hself
  obtain ⟨holder, hh⟩ := Option.isSome_iff_exists.1 (h f' hf₀ htype)
  exact hiff.2 (ha.named.registered_of_same hf₀ hh (hself holder hh))

/-- A file that an operation brings in holds its name if nobody else does. -/
theorem Arises.registered_run_of_absent (habsent : ws.file? p = none ∨ op.removes p = true) :
    (op.run sources ws).Registered f := by
  -- no file at the path holds the name after the operation has taken out what was there before
  have hfree {ws₁ : Workspace} (hn : ws₁.Named) (hp : ws₁.file? p = none)
      (hold : ∀ holder, ws₁.holder? f.library f.name = some holder →
        ws.holder? f.library f.name = some holder) : ws₁.holder? f.library f.name = none := by
    rw [Option.eq_none_iff_forall_ne_some]
    intro holder hh
    obtain ⟨-, g, hg, -⟩ := hn.holds_of_holder? hh
    rw [file?_congr _ (hself holder (hold holder hh)), hp] at hg
    simp at hg
  by_cases hput : op.staysPut = true
  · have hp : ws.file? p = none := by
      cases op <;> simp_all [Operation.removes, Operation.staysPut]
    rw [(revises_run sources ha.keyed hput).absent hp] at hf
    simp at hf
  cases op with
  | addFile q =>
    have hp : ws.file? p = none := by simpa [Operation.removes] using habsent
    exact ha.named.registered_addFile hp hf htype (hfree ha.named hp fun _ => id)
  | createFile q =>
    have hp : ws.file? p = none := by simpa [Operation.removes] using habsent
    exact ha.registered_createFile hp hf htype (hfree ha.named hp fun _ => id)
  | deleteFile q =>
    have hp : (ws.deleteFile q).2.file? p = none := absent_deleteFile habsent
    exact absurd (hp.symm.trans hf) (by simp)
  | renameFile q new =>
    have ha₁ := ha.move (.delete ws q : Move sources _ _)
    have hp : (ws.deleteFile q).2.file? p = none := absent_deleteFile habsent
    refine ha₁.registered_createFile hp hf htype (hfree ha₁.named hp fun holder hh => ?_)
    exact ha.named.holder?_of_deleteFile hh
  | _ => simp [Operation.staysPut] at hput

end Operation

/-- While an operation makes no other file give up the name of the file at the path, the name stays
held. -/
theorem Arises.stemHeld_run (ha : Arises ws) (h : ws.StemHeld p) {op : Operation}
    (hop : Respects ws p (op.run sources ws)) : (op.run sources ws).StemHeld p := by
  intro f hf htype
  by_cases hother : ∃ holder, ws.holder? f.library f.name = some holder ∧
      holder.path.same p = false
  · obtain ⟨holder, hh, hs⟩ := hother
    rw [hop f hf htype holder hh hs]
    rfl
  have hself (holder : Holder) (hh : ws.holder? f.library f.name = some holder) :
      holder.path.same p = true := by
    by_contra hs
    exact hother ⟨holder, hh, by simpa using hs⟩
  have hregistered : (op.run sources ws).Registered f := by
    cases hp : ws.file? p with
    | none => exact ha.registered_run_of_absent hf htype hself (.inl hp)
    | some f' =>
      have hremoves : op.removes f'.path = op.removes p := by
        cases op <;> simp [Operation.removes, Path.same_congr_right (ha.keyed p f' hp)]
      cases hstays : op.removes p with
      | true => exact ha.registered_run_of_absent hf htype hself (.inr hstays)
      | false => exact ha.registered_run_of_stays hf htype hself h hp (hremoves.trans hstays)
  rw [hregistered]
  rfl

/-- Whether other files keep the name can be checked at the file that carries it. -/
theorem Respects.of_file (h : (ws'.file? p).all (fun f => (ws.holder? f.library f.name).all
    fun holder => holder.path.same p || ws'.holder? f.library f.name == some holder) = true) :
    Respects ws p ws' := by
  intro f hf _ holder hh hs
  simpa [hf, hh, hs] using h

/-- The name of a file that is named by its stem is held by a live file of its library, as long as
no other file has given up the name since the file was added. -/
theorem ReachableBy.stem_held
    (h : ReachableBy (fun sources ws op => Respects ws p (op.run sources ws)) ws)
    (hf : ws.file? p = some f) (htype : f.type.hasHeaderName = false) :
    ∃ l, ws.library? f.library = some l ∧ ∃ holder, l.module? f.name = some holder ∧
      ∃ g, ws.file? holder.path = some g ∧ g.library = f.library ∧ g.name = f.name := by
  have hheld : ws.StemHeld p := by
    clear hf htype
    induction h with
    | fresh => exact fun f hf => by simp at hf
    | run h sources op hop ih => exact h.reachable.arises.stemHeld_run ih hop
  have hn := h.reachable.arises.named
  obtain ⟨hname, hlibrary⟩ := hn.file_upper p f hf
  obtain ⟨holder, hh⟩ := Option.isSome_iff_exists.1 (hheld f hf htype)
  obtain ⟨-, g, hg, -, hglibrary, hgname⟩ := hn.holds_of_holder? hh
  obtain ⟨l, hl, hget⟩ := Option.bind_eq_some_iff.1 hh
  refine ⟨l, by rw [library?, hlibrary, hl], holder, ?_, g, hg, hglibrary, hgname⟩
  rw [Library.module?, hname, hget]

end Workspace

namespace Sample

/-- The workspace after some more operations. -/
def continued (sources : Sources) (ws : Workspace) (ops : List Operation) : Workspace :=
  ops.foldl (fun ws op => op.run sources ws) ws

theorem reachable_continued {ws : Workspace} (h : ws.Reachable) (sources : Sources)
    (ops : List Operation) : (continued sources ws ops).Reachable :=
  List.foldlRecOn ops _ h fun _ h op _ => h.run sources op

/-- In the library `L` there are a subprogram and a program of the name `N`. The program calls the
subprogram. -/
def twins : Sources := fun p =>
  match p.text with
  | "L/N.NSN" => .ok "END"
  | "L/N.NSP" => .ok "CALLNAT 'N'"
  | _ => .error .notFound

def twin : Path := .ofText "L/N.NSP"

/-- The program was created while the subprogram held the name, and then the subprogram was
deleted. The program was scanned and created again since. -/
def orphaned : Workspace :=
  continued twins (after [])
    [.createFile near, .createFile twin, .deleteFile near, .indexAll false, .createFile twin]

end Sample

namespace Workspace

/-- The name of the program leads to the subprogram that held it first, also after the subprogram
in the steplib has come and gone. -/
theorem ReachableBy.stem_held_sample :
    ∃ ws f, ReachableBy (fun sources ws op => Respects ws Sample.twin (op.run sources ws)) ws ∧
      ws.file? Sample.twin = some f ∧ f.type.hasHeaderName = false ∧
      ∃ l, ws.library? f.library = some l ∧ ∃ holder, l.module? f.name = some holder ∧
        ∃ g, ws.file? holder.path = some g ∧ g.library = f.library ∧ g.name = f.name := by
  let allowed := fun (sources : Sources) (ws : Workspace) (op : Operation) =>
    Respects ws Sample.twin (op.run sources ws)
  have hfresh : ReachableBy allowed (Sample.continued Sample.twins (Sample.after []) []) :=
    .fresh ..
  have hnear : ReachableBy allowed (Sample.continued Sample.twins (Sample.after [])
      [.createFile Sample.near]) :=
    hfresh.run Sample.twins (.createFile Sample.near) (.of_file (by decide +kernel))
  have htwin : ReachableBy allowed (Sample.continued Sample.twins (Sample.after [])
      [.createFile Sample.near, .createFile Sample.twin]) :=
    hnear.run Sample.twins (.createFile Sample.twin) (.of_file (by decide +kernel))
  have hfar : ReachableBy allowed (Sample.continued Sample.twins (Sample.after [])
      [.createFile Sample.near, .createFile Sample.twin, .createFile Sample.far]) :=
    htwin.run Sample.twins (.createFile Sample.far) (.of_file (by decide +kernel))
  have hgone : ReachableBy allowed (Sample.continued Sample.twins (Sample.after [])
      [.createFile Sample.near, .createFile Sample.twin, .createFile Sample.far,
        .deleteFile Sample.far]) :=
    hfar.run Sample.twins (.deleteFile Sample.far) (.of_file (by decide +kernel))
  obtain ⟨f, hf, htype⟩ := (Option.any_eq_true _ _).1
    (by decide +kernel : ((Sample.continued Sample.twins (Sample.after [])
      [.createFile Sample.near, .createFile Sample.twin, .createFile Sample.far,
        .deleteFile Sample.far]).file? Sample.twin).any (fun f => !f.type.hasHeaderName) = true)
  have htype : f.type.hasHeaderName = false := by simpa using htype
  exact ⟨_, f, hgone, hf, htype, stem_held hgone hf htype⟩

/-- The program carries the name `N`, but the name leads nowhere in its library. -/
theorem stem_orphaned :
    Reachable Sample.orphaned ∧
      (Sample.orphaned.file? Sample.twin).map
        (fun f => (f.library, f.name, f.type.hasHeaderName)) = some ("L", "N", false) ∧
      (Sample.orphaned.library? "L").map (·.module? "N") = some none :=
  ⟨Sample.reachable_continued (Sample.reachable_after []) _ _, by decide +kernel⟩

end Workspace

end Steplib
