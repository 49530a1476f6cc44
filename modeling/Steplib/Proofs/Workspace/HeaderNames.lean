import Steplib.Proofs.Workspace.OnRecord
import Steplib.Proofs.Workspace.Propagation

/-!
# Header names and edits

A subroutine or a function goes by the name in its header. The name is read by scans: a scan gives
the file the name of its header, as long as no other file of the library holds it. An edit parses
the new text but does not read the name from it, so the file goes by the name that it had before,
until it is scanned again.

## Main definitions

* `Workspace.Housed`: libraries are searched first themselves, and files lie in libraries.
* `Workspace.GoesBy`: the name of a file, in the file and in the table of its library.

## Main results

* `Workspace.Arises.housed`: all of this is so in every workspace that arises from moves.
* `Workspace.Arises.goesBy_indexPath`: a scan gives a file the name of its header.
* `Workspace.Reachable.header_name_edit`: an edit leaves the name to the next scan.
* `Workspace.header_name_outdated`: after an edit a file can go by the name of its old header.
-/

namespace Steplib

namespace Workspace

/-- The names looked up from a library are searched in the library first, and every file lies in a
library of the workspace. -/
structure Housed (ws : Workspace) : Prop where
  first : ∀ l ∈ ws.libraries, l.chain.head? = some l.name
  library : ∀ p f, ws.file? p = some f → ∃ l ∈ ws.libraries, l.name = f.library

/-- The file at the path carries the name, the name stands for it as seen from its library, and it
holds no other name. -/
def GoesBy (ws : Workspace) (p : Path) (name : String) : Prop :=
  ∃ f, ws.file? p = some f ∧ f.name = name ∧
    (∃ holder, ws.resolve? f.library name = some holder ∧ holder.path.same p = true) ∧
    ∀ library other holder, ws.holder? library other = some holder →
      holder.path.same p = true → other = name

variable {sources : Sources} {ws ws' : Workspace} {f f' : ModuleFile} {p q : Path}
  {library name : String}

/-! ### Libraries stay as they are -/

theorem Move.heads (h : Move sources ws ws') : ws'.heads = ws.heads := by
  cases h with
  | parse f hf find => exact heads_eq_of_skeleton (skeleton_install ..)
  | name f s hf hs => exact heads_registerScannedName ..
  | scan f s hf hs => exact heads_eq_of_skeleton (skeleton_registerScan ..)
  | edit p e => rfl
  | add p =>
    rcases ws.addFile_cases p with ⟨h, -⟩ | ⟨new, hnew, hp, -⟩
    · rw [h]
    · exact heads_addFile hnew hp
  | take name => rfl
  | delete p => exact heads_deleteFile ws p

/-- A file after a move was there before, in the same library, or it lies in a library of the
workspace. -/
theorem Move.library_cases (h : Move sources ws ws') (hf : ws'.file? q = some f') :
    (∃ f, ws.file? q = some f ∧ f.library = f'.library) ∨
      ∃ l ∈ ws.libraries, l.name = f'.library := by
  have hskeleton {ws' : Workspace} (h : ws'.skeleton = ws.skeleton) (hf : ws'.file? q = some f') :
      ∃ f, ws.file? q = some f ∧ f.library = f'.library := by
    obtain ⟨f, hf, hb⟩ := exists_file_of_skeleton h.symm hf
    exact ⟨f, hf, ModuleFile.library_eq_of_bare hb⟩
  cases h with
  | parse f hf' find => exact .inl (hskeleton (skeleton_install ..) hf)
  | scan f s hf' hs => exact .inl (hskeleton (skeleton_registerScan ..) hf)
  | name f s hf' hs =>
    rw [file?_registerScannedName] at hf
    split at hf
    · obtain ⟨g, hg, rfl⟩ := Option.map_eq_some_iff.1 hf
      exact .inl ⟨g, hg, rfl⟩
    · exact .inl ⟨f', hf, rfl⟩
  | edit p e =>
    rw [file?_modifyFile] at hf
    split at hf
    · obtain ⟨g, hg, rfl⟩ := Option.map_eq_some_iff.1 hf
      exact .inl ⟨g, hg, (congrArg Identity.library (identity_edit e g)).symm⟩
    · exact .inl ⟨f', hf, rfl⟩
  | add p =>
    rcases ws.addFile_cases p with ⟨h, -⟩ | ⟨new, hnew, hp, -⟩
    · exact .inl ⟨f', by rwa [h] at hf, rfl⟩
    · rw [file?_addFile hnew hp] at hf
      split at hf
      · obtain rfl := Option.some.inj hf
        obtain ⟨l, hl, type, hfile⟩ := newFile?_cases hnew
        exact .inr ⟨l, hl, by rw [hfile]⟩
      · exact .inl ⟨f', hf, rfl⟩
  | take name => exact .inl ⟨f', hf, rfl⟩
  | delete p =>
    cases hp : ws.file? p with
    | none =>
      simp only [Workspace.deleteFile, hp] at hf
      exact .inl ⟨f', hf, rfl⟩
    | some t =>
      rw [file?_deleteFile hp] at hf
      split at hf
      · simp at hf
      · obtain ⟨g, hg, rfl⟩ := Option.map_eq_some_iff.1 hf
        exact .inl ⟨g, hg, (congrArg Identity.library (identity_released p t q g)).symm⟩

/-- Every library of the one workspace is a library of the other, up to its table. -/
theorem exists_library_of_heads (h : ws'.heads = ws.heads) {l : Library} (hl : l ∈ ws.libraries) :
    ∃ l' ∈ ws'.libraries, l'.name = l.name ∧ l'.chain = l.chain := by
  have hmem : l.head ∈ ws'.heads := h ▸ List.mem_map_of_mem hl
  obtain ⟨l', hl', heq⟩ := List.mem_map.1 hmem
  exact ⟨l', hl', congrArg (·.name) heq, congrArg (·.chain) heq⟩

theorem Housed.move (hh : ws.Housed) (h : Move sources ws ws') : ws'.Housed where
  first l' hl' := by
    obtain ⟨l, hl, hname, hchain⟩ := exists_library_of_heads h.heads.symm hl'
    rw [← hname, ← hchain]
    exact hh.first l hl
  library p f' hf' := by
    obtain ⟨l, hl, hlibrary⟩ : ∃ l ∈ ws.libraries, l.name = f'.library := by
      rcases h.library_cases hf' with ⟨f, hf, hlibrary⟩ | hnew
      · rw [← hlibrary]
        exact hh.library p f hf
      · exact hnew
    obtain ⟨l', hl', hname, -⟩ := exists_library_of_heads h.heads hl
    exact ⟨l', hl', hname.trans hlibrary⟩

theorem first_addLibrary (h : ∀ l ∈ ws.libraries, l.chain.head? = some l.name)
    (l : String × Path × List String) :
    ∀ k ∈ (ws.addLibrary l.1 l.2.1 l.2.2).libraries, k.chain.head? = some k.name := by
  intro k hk
  rw [addLibrary] at hk
  split at hk
  · exact h k hk
  · rcases List.mem_append.1 hk with hk | hk
    · exact h k hk
    · obtain rfl := List.mem_singleton.1 hk
      simp [Library.make, Library.chainOf, List.eraseDups_cons]

theorem housed_fresh (root : Path) (faults : ParserFaults) (severity : SeverityRules)
    (libraries : List (String × Path × List String)) :
    (fresh root faults severity libraries).Housed where
  first := List.foldlRecOn
    (motive := fun ws : Workspace => ∀ l ∈ ws.libraries, l.chain.head? = some l.name)
    libraries _ (by simp [empty]) fun ws h l _ => first_addLibrary h l
  library p f hf := by simp at hf

theorem Arises.housed (h : Arises ws) : ws.Housed := by
  induction h with
  | fresh => exact housed_fresh ..
  | move _ hm ih => exact ih.move hm

/-- A name that is held in a library stands for its holder as seen from the library. -/
theorem Housed.resolve?_eq_some (h : ws.Housed) (hlibrary : Ascii.upper library = library)
    {holder : Holder} (hh : ws.holder? library (Ascii.upper name) = some holder) :
    ws.resolve? library name = some holder := by
  obtain ⟨l, hl, -⟩ := Option.bind_eq_some_iff.1 hh
  have hname : l.name = library := by simpa using List.find?_some hl
  obtain ⟨rest, hchain⟩ := List.head?_eq_some_iff.1 (h.first l (mem_of_libraryNamed? hl))
  have hsearched : ws.chain? library = some (library :: rest) := by
    rw [chain?, library?, hlibrary, hl, Option.map_some, hchain, hname]
  rw [resolve?_eq, hsearched, Option.bind_some, List.findSome?_cons, hh]

/-! ### Scans -/

/-- A file that takes over a name holds it, unless another file of the library does. -/
theorem holder?_takeOver_self {l : Library} (hl : ws.libraryNamed? f.library = some l)
    (hlibrary : Ascii.upper f.library = f.library)
    (hfree : ∀ holder, ws.holder? f.library name = some holder →
      holder.path.same f.path = true) :
    ∃ holder, (ws.takeOver f name).holder? f.library name = some holder ∧
      holder.path.same f.path = true := by
  have hlname : l.name = f.library := by simpa using List.find?_some hl
  have hnamed : (ws.takeOver f name).libraryNamed? f.library =
      some (claim f.name name { path := f.path } l) := by
    refine Eq.trans (b := (ws.claimName f.library f.name name
      { path := f.path }).libraryNamed? f.library) rfl ?_
    rw [claimName_eq, libraryNamed?_modifyLibrary (name_claim _ _ _), hl, hlibrary]
    simp [hlname]
  rw [holder?, hnamed, Option.bind_some, claim, Library.modules_register, if_pos rfl]
  refine ⟨_, rfl, ?_⟩
  -- what holds the name once the file has withdrawn its old one held it before
  cases htaken : (if f.name = name then l else l.unregister f.name f.path).modules.get? name with
  | none => exact Path.same_refl f.path
  | some holder =>
    refine hfree holder ?_
    rw [holder?, hl, Option.bind_some]
    split at htaken
    · exact htaken
    · exact (Library.get?_unregister htaken).1

/-- A scan gives a file the name of its header, if no other file of the library holds it. -/
theorem Arises.goesBy_indexPath (ha : Arises ws) (hp : ws.file? p = some f)
    (htype : f.type.hasHeaderName = true) {s : Scan} (hscan : f.scan? sources = some s)
    (hheader : s.header = some name)
    (hfree : ∀ holder, ws.holder? f.library name = some holder → holder.path.same p = true) :
    (ws.indexPath sources p).2.GoesBy p name := by
  have hsame := ha.keyed p f hp
  have hlive := ha.keyed.live hp
  obtain ⟨-, hlibrary⟩ := ha.named.file_upper p f hp
  obtain ⟨l, hl, hlname⟩ := ha.housed.library p f hp
  have hscanned : f.scannedName s = name := by
    rw [ModuleFile.scannedName, if_pos htype, hheader, Option.getD_some]
  have htakes : ws.registerScannedName f s = ws.takeOver f name := by
    rw [registerScannedName, if_pos htype, hscanned]
    rfl
  have hskeleton : (ws.indexPath sources p).2.skeleton = (ws.takeOver f name).skeleton := by
    rw [indexPath, hp, ← htakes]
    simp only [indexFile, hscan]
    exact skeleton_registerScan ..
  have ha₁ : Arises (ws.takeOver f name) := htakes ▸ ha.move (.name f s hlive hscan)
  have hfile : (ws.takeOver f name).file? p = some { f with name } := by
    rw [file?_takeOver, if_pos hsame, hp, Option.map_some]
  have hfree' : ∀ holder, ws.holder? f.library name = some holder →
      holder.path.same f.path = true := fun holder hh => by
    rw [Path.same_congr_right hsame]
    exact hfree holder hh
  obtain ⟨holder, hholder, hholds⟩ :=
    holder?_takeOver_self (hlname ▸ ha.named.libraryNamed?_of_mem hl) hlibrary hfree'
  have hupper : Ascii.upper name = name := (ha₁.named.file_upper p _ hfile).1
  obtain ⟨g, hg, hb⟩ := exists_file_of_skeleton hskeleton hfile
  refine ⟨g, hg, ModuleFile.name_eq_of_bare hb, ⟨holder, ?_, ?_⟩,
    fun library other holder hh hs => ?_⟩
  · rw [resolve?_eq_of_skeleton hskeleton, ModuleFile.library_eq_of_bare hb]
    exact ha₁.housed.resolve?_eq_some hlibrary (hupper.symm ▸ hholder)
  · rw [← Path.same_congr_right hsame]
    exact hholds
  · rw [holder?_eq_of_skeleton hskeleton] at hh
    exact (ha₁.named.eq_of_holder?_same hfile hh hs).2

/-! ### Edits -/

/-- What a file goes by depends on its name and on the tables. -/
theorem GoesBy.congr (hlibraries : ws'.libraries = ws.libraries) (hf : ws.file? p = some f)
    (hf' : ws'.file? p = some f') (hname : f'.name = f.name) (hlibrary : f'.library = f.library) :
    ws'.GoesBy p name ↔ ws.GoesBy p name := by
  have hr (library : String) : ws'.resolve? library name = ws.resolve? library name := by
    simp only [resolve?, library?, libraryNamed?, hlibraries]
  have hh (library other : String) : ws'.holder? library other = ws.holder? library other := by
    simp only [holder?, libraryNamed?, hlibraries]
  simp only [GoesBy, hf, hf', Option.some.injEq, exists_eq_left', hname, hlibrary, hr, hh]

/-- After an edit the file at the path has the new text, and no name is touched. -/
theorem Arises.exists_edited (ha : Arises ws) (hp : ws.file? p = some f) (e : TextEdit)
    (sources : Sources) (strategy : ParseStrategy) :
    (e.run sources ws p strategy).2.libraries = ws.libraries ∧
      ∃ g, (e.run sources ws p strategy).2.file? p = some g ∧ g.bare = (e.apply f).bare := by
  obtain ⟨g₁, log, -, -, hspreads⟩ := ha.spreads_edit hp e sources strategy
  have hskeleton := hspreads.skeleton
  obtain ⟨g, hg, hb⟩ := exists_file_of_skeleton hskeleton (e.live_typed ha.keyed hp)
  refine ⟨(libraries_eq_of_skeleton hskeleton).trans rfl, g, ?_, hb⟩
  rw [← file?_congr _ (ha.keyed p f hp)]
  exact hg

/-- Let the text of a subroutine or function get a header whose name no other file of the library
holds. The file goes by that name after the edit if and only if it did before, and it does so as
soon as it is scanned again. -/
theorem Reachable.header_name_edit (h : Reachable ws) (sources : Sources)
    (hp : ws.file? p = some f) (htype : f.type.hasHeaderName = true) (e : TextEdit)
    (strategy : ParseStrategy) {s : Scan} (hscan : (e.apply f).scan? sources = some s)
    (hheader : s.header = some name)
    (hfree : ∀ holder, ws.holder? f.library name = some holder → holder.path.same p = true) :
    ((e.run sources ws p strategy).2.GoesBy p name ↔ ws.GoesBy p name) ∧
      ((e.run sources ws p strategy).2.indexPath sources p).2.GoesBy p name := by
  have ha := h.arises
  obtain ⟨hlibraries, g, hg, hb⟩ := ha.exists_edited hp e sources strategy
  have hname : g.name = f.name := (ModuleFile.name_eq_of_bare hb).trans rfl
  have hlibrary : g.library = f.library := (ModuleFile.library_eq_of_bare hb).trans rfl
  have htype' : g.type.hasHeaderName = true := by rwa [ModuleFile.type_eq_of_bare hb]
  have hscan' : g.scan? sources = some s := by rwa [scan?_eq_of_bare hb]
  refine ⟨GoesBy.congr hlibraries hp hg hname hlibrary, ?_⟩
  have ha' := (e.reachable_run h sources p strategy).arises
  refine ha'.goesBy_indexPath hg htype' hscan' hheader fun holder hh => hfree holder ?_
  rw [holder?, libraryNamed?, hlibraries, hlibrary] at hh
  exact hh

end Workspace

namespace Sample

/-- In the library `L` there is the subroutine `D`, which was scanned when its header had the name
`X`. -/
def scanned : Workspace :=
  continued (headed "X") (after []) [.addFile subroutine, .indexAll false]

/-- The header of the subroutine gets the name `Y`. -/
def retitled : TextEdit := .change "DEFINE SUBROUTINE Y\nEND-SUBROUTINE"

end Sample

namespace Workspace

/-- The header of a subroutine is changed in the editor and scanned afterwards. -/
theorem Reachable.header_name_edit_sample :
    Reachable Sample.scanned ∧ ∃ f s, Sample.scanned.file? Sample.subroutine = some f ∧
      f.type.hasHeaderName = true ∧
      (Sample.retitled.apply f).scan? (Sample.headed "X") = some s ∧ s.header = some "Y" ∧
      (∀ holder, Sample.scanned.holder? f.library "Y" = some holder →
        holder.path.same Sample.subroutine = true) ∧
      ((Sample.retitled.run (Sample.headed "X") Sample.scanned Sample.subroutine
          .withCallers).2.indexPath (Sample.headed "X") Sample.subroutine).2.GoesBy
        Sample.subroutine "Y" := by
  obtain ⟨f, hf, h⟩ := (Option.any_eq_true _ _).1
    (by decide +kernel : (Sample.scanned.file? Sample.subroutine).any (fun f =>
      f.type.hasHeaderName && f.library == "L" &&
        ((Sample.retitled.apply f).scan? (Sample.headed "X")).any (·.header == some "Y")) = true)
  simp only [Bool.and_eq_true, beq_iff_eq, Option.any_eq_true] at h
  obtain ⟨⟨htype, hlibrary⟩, s, hscan, hheader⟩ := h
  have hreachable : Reachable Sample.scanned :=
    Sample.reachable_continued (Sample.reachable_after []) _ _
  have hfree : Sample.scanned.holder? f.library "Y" = none := by
    rw [hlibrary]
    decide +kernel
  have hfree' : ∀ holder, Sample.scanned.holder? f.library "Y" = some holder →
      holder.path.same Sample.subroutine = true := fun holder hh => by simp [hfree] at hh
  exact ⟨hreachable, f, s, hf, htype, hscan, hheader, hfree',
    (header_name_edit hreachable _ hf htype Sample.retitled .withCallers hscan hheader hfree').2⟩

/-- After the header of a subroutine has got the name `Y`, which no file holds, the subroutine still
goes by the name `X`, and `Y` leads nowhere. -/
theorem header_name_outdated :
    Reachable Sample.scanned ∧
    (Sample.scanned.file? Sample.subroutine).map (fun f => (f.library, f.type.hasHeaderName,
      ((Sample.retitled.apply f).scan? (Sample.headed "X")).bind (·.header))) =
        some ("L", true, some "Y") ∧
    Sample.scanned.holder? "L" "Y" = none ∧
    ((Sample.retitled.run (Sample.headed "X") Sample.scanned Sample.subroutine
      .withCallers).2.file? Sample.subroutine).map (·.name) = some "X" ∧
    (Sample.retitled.run (Sample.headed "X") Sample.scanned Sample.subroutine
      .withCallers).2.resolve? "L" "Y" = none ∧
    (Sample.retitled.run (Sample.headed "X") Sample.scanned Sample.subroutine
      .withCallers).2.holder? "L" "X" = some { path := Sample.subroutine } :=
  ⟨Sample.reachable_continued (Sample.reachable_after []) _ _, by decide +kernel⟩

end Workspace

end Steplib
