import Steplib.Proofs.Workspace.InStep

/-!
# Waking the files that wait for a name

A file that is woken is parsed again if it has a module and scanned again otherwise, so it is in
step afterwards. But a scan can also give a file another name, and then files that were woken before
it are no longer in step. A file is steady when its scan gives it the name that it carries and that
name is taken: scanning it then changes no name. Waking steady files brings each of them in step.

## Main definitions

* `Workspace.Steady`: scanning the file changes no name.

## Main results

* `Workspace.Arises.refreshes_wakeAll`: waking steady files changes no name and brings them in step.
* `Workspace.Arises.inStep_wakeAll`: a file that is woken among steady ones is in step afterwards.
-/

namespace Steplib

namespace Workspace

/-- Scanning the file changes no name: the file has a module, or it carries the name that its scan
gives it and that name is held, by a file that is not among the `besides`. -/
def Steady (sources : Sources) (ws : Workspace) (besides : Path → Bool) (f : ModuleFile) : Prop :=
  f.state.module? = none → f.type.hasHeaderName = true → ∀ s, f.scan? sources = some s →
    f.scannedName s = f.name ∧
      ∃ holder, ws.holder? f.library f.name = some holder ∧ besides holder.path = false

variable {sources : Sources} {ws ws' : Workspace} {f f' c : ModuleFile} {p self : Path} {s : Scan}
  {besides : Path → Bool}

/-! ### Scans that change no name -/

theorem modifyFile_eq_self {change : ModuleFile → ModuleFile} (hf : ws.Live f)
    (hc : change f = f) : ws.modifyFile f.path change = ws := by
  have hfiles : ws.files.modify f.path change = ws.files := by
    ext1
    simp only [PathMap.modify, PathMap.map]
    refine (List.map_congr_left fun e he => ?_).trans (List.map_id _)
    split
    · rename_i hs
      have hget : ws.file? f.path = some e.2 := by
        rw [← ws.file?_congr hs]
        exact PathMap.get?_of_mem he
      obtain rfl := Option.some.inj (hf.symm.trans hget)
      rw [hc]
      rfl
    · rfl
  rw [modifyFile, hfiles]

/-- A file that carries the name of its scan changes nothing by claiming it once more, if the name
is taken. -/
theorem registerScannedName_eq_self (hn : ws.Named) (hf : ws.Live f)
    (hname : f.scannedName s = f.name) (hheld : (ws.holder? f.library f.name).isSome) :
    ws.registerScannedName f s = ws := by
  obtain ⟨holder, hholder⟩ := Option.isSome_iff_exists.1 hheld
  obtain ⟨l, hl, hget⟩ := Option.bind_eq_some_iff.1 hholder
  have hlname : l.name = f.library := by simpa using List.find?_some hl
  have hclaim : ws.claimName f.library f.name f.name { path := f.path } = ws := by
    have hlibraries : (ws.modifyLibrary f.library
        (claim f.name f.name { path := f.path })).libraries = ws.libraries := by
      refine (List.map_congr_left fun k hk => ?_).trans (List.map_id _)
      split
      · rename_i hk'
        have hkname : k.name = l.name := by
          rw [hlname, ← (hn.file_upper _ f hf).2]
          simpa using hk'
        obtain rfl := hn.library_ext hk (mem_of_libraryNamed? hl) hkname
        simp [claim, Library.register, hget]
      · rfl
    rw [claimName_eq]
    exact congrArg (fun libraries => { ws with libraries }) hlibraries
  rw [registerScannedName]
  split
  · dsimp only
    rw [hname, hclaim]
    exact modifyFile_eq_self hf rfl
  · rfl

theorem Steady.registerScannedName_eq (hs : ws.Steady sources besides f) (hn : ws.Named)
    (hf : ws.Live f) (hmodule : f.state.module? = none) (hscan : f.scan? sources = some s) :
    ws.registerScannedName f s = ws := by
  cases htype : f.type.hasHeaderName with
  | false => simp [registerScannedName, htype]
  | true =>
    obtain ⟨hname, holder, hholder, -⟩ := hs hmodule htype s hscan
    exact registerScannedName_eq_self hn hf hname (by rw [hholder]; rfl)

/-- A steady file stays steady as long as its name and the tables are kept. -/
theorem Steady.of_bare (hs : ws.Steady sources besides f) (hb : f'.bare = f.bare)
    (hmodule : f.state.module?.isSome → f'.state.module?.isSome)
    (hholder : ∀ holder, ws.holder? f.library f.name = some holder →
      besides holder.path = false → ws'.holder? f.library f.name = some holder) :
    ws'.Steady sources besides f' := by
  have hname := ModuleFile.name_eq_of_bare hb
  have htype := ModuleFile.type_eq_of_bare hb
  have hlibrary := ModuleFile.library_eq_of_bare hb
  intro hnone ht s hscan
  have hnone' : f.state.module? = none := by
    cases h : f.state.module? with
    | none => rfl
    | some m => simp [hnone, h] at hmodule
  have hscan' : f.scan? sources = some s := by
    rwa [ModuleFile.scan?, ← htype, ← ModuleFile.source_eq_of_bare hb]
  obtain ⟨hscanned, holder, hh, hbesides⟩ := hs hnone' (htype ▸ ht) s hscan'
  refine ⟨?_, holder, ?_, hbesides⟩
  · rw [ModuleFile.scannedName, htype, hname]
    exact hscanned
  · rw [hlibrary, hname]
    exact hholder holder hh hbesides

theorem holder?_eq_of_skeleton (h : ws'.skeleton = ws.skeleton) (library name : String) :
    ws'.holder? library name = ws.holder? library name := by
  simp only [holder?, libraryNamed?, libraries_eq_of_skeleton h]

/-- Steady files stay steady while files are brought in step. -/
theorem Steady.refreshes (hs : ws.Steady sources besides f) (h : Refreshes sources ws ws')
    (hf : ws.file? p = some f) (hf' : ws'.file? p = some f') : ws'.Steady sources besides f' := by
  obtain ⟨f₁, hf₁, hb⟩ := exists_file_of_skeleton h.skeleton hf
  obtain rfl := Option.some.inj (hf'.symm.trans hf₁)
  refine hs.of_bare hb (fun hmodule => ?_) fun holder hholder _ => ?_
  · obtain ⟨m, hm⟩ := Option.isSome_iff_exists.1 hmodule
    obtain ⟨g, m', hg, hm'⟩ := h.modules p ⟨f, m, hf, hm⟩
    obtain rfl := Option.some.inj (hf'.symm.trans hg)
    simp [hm']
  · rw [holder?_eq_of_skeleton h.skeleton, hholder]

theorem scan?_eq_of_bare (hb : f'.bare = f.bare) : f'.scan? sources = f.scan? sources := by
  rw [ModuleFile.scan?, ModuleFile.scan?, ModuleFile.type_eq_of_bare hb,
    ModuleFile.source_eq_of_bare hb]

/-! ### Waking one file -/

/-- In a list of files to be woken, a path is passed over or leads to a file that is woken. -/
theorem skipped_or_woken (ws : Workspace) (self p : Path) :
    (p.same self = true ∨ ws.file? p = none) ∨ p.same self = false ∧ ∃ f, ws.file? p = some f := by
  cases p.same self <;> cases ws.file? p <;> simp

theorem wakeAll_cons_of_skipped {paths : List Path}
    (h : p.same self = true ∨ ws.file? p = none) :
    (ws.wakeAll sources self (p :: paths)).2 = (ws.wakeAll sources self paths).2 := by
  rw [wakeAll]
  rcases h with h | h <;> simp [h]

theorem wakeAll_cons_of_woken {paths : List Path} (hs : p.same self = false)
    (hf : ws.file? p = some f) :
    (ws.wakeAll sources self (p :: paths)).2 =
      ((ws.wake sources f).2.wakeAll sources self paths).2 := by
  rw [wakeAll]
  simp [hs, hf]

section Arises

variable (ha : Arises ws)

include ha

/-- A file is parsed when it is woken, or scanned if it has no module. -/
theorem Arises.wake_cases (sources : Sources) (hf : ws.Live f) :
    (ws.wake sources f).2 = (ws.parse sources f).2 ∨
      (f.state = .unparsed ∨ f.state = .closed) ∧
        (ws.wake sources f).2 = (ws.indexFile sources f).1 := by
  cases hstate : f.state with
  | deleted => exact absurd hstate (ha.settled _ f hf).1
  | _ => simp [wake, hstate]

theorem Arises.inStep_indexFile (hf : ws.Live f)
    (hstate : f.state = .unparsed ∨ f.state = .closed) (hscan : f.scan? sources = some s) :
    InStep sources (ws.indexFile sources f).1 f.path := by
  have ha₁ : Arises (ws.registerScannedName f s) := ha.move (.name f s hf hscan)
  have hf₁ : ((ws.registerScannedName f s).file? f.path).map unlinked = some (unlinked f) := by
    rw [unlinked_registerScannedName, hf]
    rfl
  simp only [indexFile, hscan]
  exact (aligns_registerScan_of_unlinked ha₁.keyed ha₁.mirrored hf₁ hscan hstate).inStep

/-- A file that is woken and can be read is in step afterwards. -/
theorem Arises.inStep_wake (hf : ws.Live f) (hscan : (f.scan? sources).isSome) :
    InStep sources (ws.wake sources f).2 f.path := by
  obtain ⟨s, hscan⟩ := Option.isSome_iff_exists.1 hscan
  rcases ha.wake_cases sources hf with heq | ⟨hstate, heq⟩ <;> rw [heq]
  · exact (refreshes_parse sources ha.keyed ha.mirrored hf).2
  · exact ha.inStep_indexFile hf hstate hscan

/-- Waking a steady file changes no name and leaves every file alone or brings it in step. -/
theorem Arises.refreshes_wake (hf : ws.Live f) (hs : ws.Steady sources besides f) :
    Refreshes sources ws (ws.wake sources f).2 := by
  rcases ha.wake_cases sources hf with heq | ⟨hstate, heq⟩ <;> rw [heq]
  · exact (refreshes_parse sources ha.keyed ha.mirrored hf).1
  · have hmodule : f.state.module? = none := by rcases hstate with h | h <;> rw [h] <;> rfl
    rw [indexFile]
    split
    · exact .refl sources ws
    · rename_i s hscan
      rw [hs.registerScannedName_eq ha.named hf hmodule hscan]
      exact (aligns_registerScan ha.mirrored hf hscan hstate).refreshes

/-! ### Waking many files -/

theorem Arises.after_wake (sources : Sources) (hf : ws.Live f) : Arises (ws.wake sources f).2 :=
  ha.moves (moves_wake sources ha.keyed hf)

/-- Waking steady files changes no name. It brings those that can be read in step, and every other
file in step or leaves it alone. -/
theorem Arises.refreshes_wakeAll (sources : Sources) (besides : Path → Bool) (self : Path)
    {paths : List Path}
    (hsteady : ∀ p ∈ paths, p.same self = false → ∀ f, ws.file? p = some f →
      ws.Steady sources besides f) :
    Refreshes sources ws (ws.wakeAll sources self paths).2 ∧
      ∀ p ∈ paths, p.same self = false → ∀ f, ws.file? p = some f → (f.scan? sources).isSome →
        InStep sources (ws.wakeAll sources self paths).2 p := by
  induction paths generalizing ws with
  | nil => exact ⟨.refl sources ws, by simp⟩
  | cons p paths ih =>
    obtain ⟨hp, hpaths⟩ := List.forall_mem_cons.1 hsteady
    rcases ws.skipped_or_woken self p with hskipped | ⟨hself, f, hf⟩
    · obtain ⟨hrefreshes, hsteps⟩ := ih ha hpaths
      rw [wakeAll_cons_of_skipped hskipped]
      refine ⟨hrefreshes, List.forall_mem_cons.2 ⟨fun hs f hf => ?_, hsteps⟩⟩
      simp [hs, hf] at hskipped
    · rw [wakeAll_cons_of_woken hself hf]
      have hlive : ws.Live f := ha.keyed.live hf
      have hwake := ha.refreshes_wake hlive (hp hself f hf)
      have ha₁ := ha.after_wake sources hlive
      have hsteady₁ : ∀ q ∈ paths, q.same self = false → ∀ g,
          (ws.wake sources f).2.file? q = some g →
            (ws.wake sources f).2.Steady sources besides g := fun q hq hs g hg => by
        obtain ⟨g₀, hg₀, -⟩ := exists_file_of_skeleton hwake.skeleton.symm hg
        exact (hpaths q hq hs g₀ hg₀).refreshes hwake hg₀ hg
      obtain ⟨hrefreshes, hsteps⟩ := ih ha₁ hsteady₁
      refine ⟨hwake.trans ha.keyed hrefreshes, List.forall_mem_cons.2 ⟨fun _ f' hf' hscan => ?_,
        fun q hq hs g hg hscan => ?_⟩⟩
      · obtain rfl := Option.some.inj (hf.symm.trans hf')
        have hstep := ha.inStep_wake hlive hscan
        exact (InStep.congr (ha.keyed p f hf)).1 (hrefreshes.inStep ha₁.keyed hstep)
      · obtain ⟨g₁, hg₁, hb⟩ := exists_file_of_skeleton hwake.skeleton hg
        exact hsteps q hq hs g₁ hg₁ (by rwa [scan?_eq_of_bare hb])

/-- A file that is woken takes no name from another one, so that steady files stay steady. -/
theorem Arises.steady_wake (hc : ws.Live c) (hother : c.path.same p = false)
    (hs : ∀ f, ws.file? p = some f → ws.Steady sources (·.same c.path) f) :
    ∀ f, (ws.wake sources c).2.file? p = some f →
      (ws.wake sources c).2.Steady sources (·.same c.path) f := by
  intro f hf
  rcases ha.wake_cases sources hc with heq | ⟨hstate, heq⟩ <;> rw [heq] at hf ⊢
  · have hrefreshes := (refreshes_parse sources ha.keyed ha.mirrored hc).1
    obtain ⟨f₀, hf₀, -⟩ := exists_file_of_skeleton hrefreshes.skeleton.symm hf
    exact (hs f₀ hf₀).refreshes hrefreshes hf₀ hf
  · cases hscan : c.scan? sources with
    | none =>
      simp only [indexFile, hscan] at hf ⊢
      exact hs f hf
    | some s =>
      simp only [indexFile, hscan] at hf ⊢
      have ha₁ : Arises (ws.registerScannedName c s) := ha.move (.name c s hc hscan)
      have hc₁ : ((ws.registerScannedName c s).file? c.path).map unlinked = some (unlinked c) := by
        rw [unlinked_registerScannedName, hc]
        rfl
      have hrefreshes :=
        (aligns_registerScan_of_unlinked ha₁.keyed ha₁.mirrored hc₁ hscan hstate).refreshes
      obtain ⟨f₁, hf₁, -⟩ := exists_file_of_skeleton hrefreshes.skeleton.symm hf
      have hf₀ : ws.file? p = some f₁ := by
        rw [← file?_registerScannedName_of_not_same ws s hother, hf₁]
      have hs₁ : (ws.registerScannedName c s).Steady sources (·.same c.path) f₁ :=
        (hs f₁ hf₀).of_bare rfl id fun holder hholder hnot =>
          holder?_registerScannedName_of_other hholder hnot s
      exact hs₁.refreshes hrefreshes hf₁ hf

/-- Waking a file leaves the names of the others alone. -/
theorem Arises.bare_wake (hf : ws.Live f) (hother : f.path.same p = false) :
    ((ws.wake sources f).2.file? p).map ModuleFile.bare = (ws.file? p).map ModuleFile.bare := by
  rcases ha.wake_cases sources hf with heq | ⟨-, heq⟩ <;> rw [heq]
  · exact map_bare_file?_of_skeleton (refreshes_parse sources ha.keyed ha.mirrored hf).1.skeleton p
  · rw [indexFile]
    split
    · rfl
    · rename_i s _
      rw [map_bare_file?_of_skeleton (skeleton_registerScan ..),
        file?_registerScannedName_of_not_same ws s hother]

/-- The file on whose behalf others are woken keeps its name. -/
theorem Arises.bare_wakeAll (sources : Sources) (self : Path) (paths : List Path) :
    ((ws.wakeAll sources self paths).2.file? self).map ModuleFile.bare =
      (ws.file? self).map ModuleFile.bare := by
  induction paths generalizing ws with
  | nil => rfl
  | cons p paths ih =>
    rcases ws.skipped_or_woken self p with hskipped | ⟨hself, f, hf⟩
    · rw [wakeAll_cons_of_skipped hskipped, ih ha]
    · have hlive := ha.keyed.live hf
      rw [wakeAll_cons_of_woken hself hf, ih (ha.after_wake sources hlive)]
      refine ha.bare_wake hlive ?_
      rw [Path.same_congr_left (ha.keyed p f hf), hself]

end Arises

theorem wakeAll_append (sources : Sources) (self : Path) (ws : Workspace)
    (before after : List Path) :
    (ws.wakeAll sources self (before ++ after)).2 =
      ((ws.wakeAll sources self before).2.wakeAll sources self after).2 := by
  induction before generalizing ws with
  | nil => rfl
  | cons p before ih =>
    rcases ws.skipped_or_woken self p with hskipped | ⟨hself, f, hf⟩
    · rw [List.cons_append, wakeAll_cons_of_skipped hskipped, wakeAll_cons_of_skipped hskipped, ih]
    · rw [List.cons_append, wakeAll_cons_of_woken hself hf, wakeAll_cons_of_woken hself hf, ih]

/-- A file that is woken among steady ones and can be read is in step afterwards, also if it takes
over another name. -/
theorem Arises.inStep_wakeAll (ha : Arises ws) {before after : List Path}
    (hc : ws.file? p = some c) (hself : p.same self = false) (hscan : (c.scan? sources).isSome)
    (hsteady : ∀ q ∈ before ++ after, q.same p = false ∧ (q.same self = false →
      ∀ f, ws.file? q = some f → ws.Steady sources (·.same p) f)) :
    InStep sources (ws.wakeAll sources self (before ++ p :: after)).2 p := by
  -- the others are steady besides this file, so neither those before it nor those after it matter
  have hbefore := (ha.refreshes_wakeAll sources (·.same p) self fun q hq =>
    (hsteady q (List.mem_append_left after hq)).2).1
  have ha₁ : Arises (ws.wakeAll sources self before).2 :=
    ha.moves (moves_wakeAll sources ha.keyed self before)
  obtain ⟨c₁, hc₁, hb⟩ := exists_file_of_skeleton hbefore.skeleton hc
  have hlive := ha₁.keyed.live hc₁
  have hpath := ha₁.keyed p c₁ hc₁
  have hstep := ha₁.inStep_wake hlive (by rwa [scan?_eq_of_bare hb])
  have ha₂ := ha₁.after_wake sources hlive
  rw [wakeAll_append, wakeAll_cons_of_woken hself hc₁]
  have hbesides : (fun q : Path => q.same p) = (·.same c₁.path) :=
    funext fun q => (Path.same_congr_right hpath q).symm
  have hafter := (ha₂.refreshes_wakeAll sources (·.same p) self fun q hq hs => by
    obtain ⟨hother, hq⟩ := hsteady q (List.mem_append_right before hq)
    have hother₁ : c₁.path.same q = false := by
      rw [Path.same_congr_left hpath, Path.same_comm, hother]
    rw [hbesides] at hq ⊢
    refine ha₁.steady_wake hlive hother₁ fun g hg => ?_
    obtain ⟨g₀, hg₀, -⟩ := exists_file_of_skeleton hbefore.skeleton.symm hg
    exact (hq hs g₀ hg₀).refreshes hbefore hg₀ hg).1
  exact (InStep.congr hpath).1 (hafter.inStep ha₂.keyed hstep)

end Workspace

end Steplib
