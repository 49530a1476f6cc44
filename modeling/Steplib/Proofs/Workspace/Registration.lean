import Mathlib.Data.List.Induction
import Steplib.Proofs.Project.Tree
import Steplib.Proofs.Workspace.Batch

/-!
# Files that are added one after the other

A workspace to which paths are added one after the other has a file for each path that stands for
one, the first of several spellings. A name belongs to the first of the files that claim it. No
condition is put on the paths: they may repeat, and their names may collide.

## Main definitions

* `Workspace.claims`: a file claims a name in a library.
* `Workspace.Entered`: the files and the names after paths have been added.

## Main results

* `Workspace.exists_libraryForPath?`: a path lies in the library with the deepest directory.
* `Workspace.entered_addFiles`: adding paths registers the first file for each path and name.
-/

namespace Steplib

namespace Workspace

variable {base ws : Workspace} {paths : List Path} {p q : Path} {new f : ModuleFile}

/-! ### New files -/

/-- The number of components of a library's directory. -/
def depth (l : Library) : ℕ :=
  l.sourcePath.components.length

/-- The choice between the best library so far and another one. -/
def deeper (best : Option Library) (l : Library) : Option Library :=
  match best with
  | some b => if depth b ≤ depth l then some l else best
  | none => some l

theorem exists_deeper (best : Option Library) (l : Library) : ∃ b, deeper best l = some b ∧
    (b = l ∨ best = some b) ∧ depth l ≤ depth b ∧ ∀ k, best = some k → depth k ≤ depth b := by
  cases best with
  | none => exact ⟨l, rfl, .inl rfl, Nat.le_refl _, fun k hk => by cases hk⟩
  | some b =>
    by_cases h : depth b ≤ depth l
    · refine ⟨l, if_pos h, .inl rfl, Nat.le_refl _, fun k hk => ?_⟩
      rwa [← Option.some.inj hk]
    · refine ⟨b, if_neg h, .inr rfl, Nat.le_of_lt (Nat.lt_of_not_le h), fun k hk => ?_⟩
      exact Nat.le_of_eq (congrArg depth (Option.some.inj hk).symm)

theorem exists_foldl_deeper (ls : List Library) (best : Option Library)
    (h : best.isSome ∨ ls ≠ []) : ∃ b, ls.foldl deeper best = some b ∧
      (b ∈ ls ∨ best = some b) ∧ (∀ k ∈ ls, depth k ≤ depth b) ∧
      ∀ k, best = some k → depth k ≤ depth b := by
  induction ls generalizing best with
  | nil =>
    obtain ⟨b, rfl⟩ := Option.isSome_iff_exists.1 (h.resolve_right (· rfl))
    refine ⟨b, rfl, .inr rfl, by simp, fun k hk => ?_⟩
    exact Nat.le_of_eq (congrArg depth (Option.some.inj hk).symm)
  | cons l ls ih =>
    obtain ⟨b, hb, hfrom, hl, hbest⟩ := exists_deeper best l
    obtain ⟨c, hc, hmem, hls, hle⟩ := ih (some b) (.inl rfl)
    have hbc : depth b ≤ depth c := hle b rfl
    refine ⟨c, by rw [List.foldl_cons, hb, hc], ?_, ?_, fun k hk => Nat.le_trans (hbest k hk) hbc⟩
    · rcases hmem with hmem | heq
      · exact .inl (List.mem_cons_of_mem _ hmem)
      · obtain rfl := Option.some.inj heq
        rcases hfrom with rfl | hsame
        · exact .inl List.mem_cons_self
        · exact .inr hsame
    · exact List.forall_mem_cons.2 ⟨Nat.le_trans hl hbc, hls⟩

/-- A path that lies in a library lies in one whose directory is the deepest. -/
theorem exists_libraryForPath? {l : Library} (hl : l ∈ ws.libraries)
    (hp : p.startsWith l.sourcePath = true) : ∃ k, ws.libraryForPath? p = some k ∧
      k ∈ ws.libraries ∧ p.startsWith k.sourcePath = true ∧
      ∀ l' ∈ ws.libraries, p.startsWith l'.sourcePath = true → depth l' ≤ depth k := by
  have hmem : l ∈ ws.libraries.filter fun l => p.startsWith l.sourcePath :=
    List.mem_filter.2 ⟨hl, hp⟩
  obtain ⟨k, hk, hfrom, hdeepest, -⟩ :=
    exists_foldl_deeper _ none (.inr (List.ne_nil_of_mem hmem))
  obtain ⟨hlibrary, hstarts⟩ := List.mem_filter.1 (hfrom.resolve_right (by simp))
  exact ⟨k, hk, hlibrary, hstarts, fun l' hl' hp' => hdeepest l' (List.mem_filter.2 ⟨hl', hp'⟩)⟩

theorem stem?_congr (h : p.same q = true) : p.stem? = q.stem? := by
  simp only [Path.stem?, Path.fileName?, Path.same_iff.1 h]

/-- Two spellings of a path stand for the same file. -/
theorem newFile?_congr (ws : Workspace) (h : p.same q = true) :
    (ws.newFile? p).map (fun f => { f with path := q }) = ws.newFile? q := by
  have hlibrary : ws.libraryForPath? p = ws.libraryForPath? q := by
    simp only [libraryForPath?, Path.startsWith, Path.same_iff.1 h]
  rw [newFile?, newFile?, ObjectType.ofPath?_congr h, hlibrary, stem?_congr h]
  cases ObjectType.ofPath? q with
  | none => rfl
  | some type => cases ws.libraryForPath? q <;> rfl

/-! ### Paths that are added -/

/-- The file claims the name in the library: it is named by its stem. -/
def claims (library name : String) (f : ModuleFile) : Bool :=
  claimsStem f && f.library == library && f.name == name

theorem claims_iff {library name : String} : claims library name f = true ↔
    f.type.hasHeaderName = false ∧ library = f.library ∧ name = f.name := by
  rw [claims, claimsStem, Bool.and_eq_true, Bool.and_eq_true, Bool.not_eq_true', beq_iff_eq,
    beq_iff_eq, and_assoc, eq_comm (a := f.library), eq_comm (a := f.name)]

/-- The paths have been added to the workspace `base`: the first new file for a path is there, and
the first that claims a name holds it. -/
structure Entered (base : Workspace) (paths : List Path) (ws : Workspace) : Prop where
  arises : Arises ws
  heads : ws.heads = base.heads
  file : ∀ q, ws.file? q = (newFiles base paths).find? fun f => f.path.same q
  holder : ∀ library name, ws.holder? library name =
    ((newFiles base paths).find? (claims library name)).map fun f => { path := f.path }

/-- It makes no difference to list a file again whose path is taken. -/
theorem Entered.keep (h : Entered base paths ws) (hnew : base.newFile? p = some new)
    (hp : ws.file? p = some f) (q : Path) (library name : String) :
    ((newFiles base paths ++ [new]).find? fun f => f.path.same q) = ws.file? q ∧
      ((newFiles base paths ++ [new]).find? (claims library name)).map
        (fun f => ({ path := f.path } : Holder)) = ws.holder? library name := by
  have hpath : new.path = p := path_newFile? hnew
  rw [h.file] at hp
  have hlisted : f ∈ newFiles base paths := List.mem_of_find?_eq_some hp
  have hs : f.path.same p = true := by simpa using List.find?_some hp
  have hsame : { f with path := p } = new := by
    obtain ⟨r, -, hr⟩ := List.mem_filterMap.1 hlisted
    obtain rfl := path_newFile? hr
    have hcongr := newFile?_congr base hs
    rw [hr, hnew] at hcongr
    exact Option.some.inj hcongr
  rw [h.file, h.holder, List.find?_append, List.find?_append]
  constructor
  · cases hfound : (newFiles base paths).find? fun f => f.path.same q with
    | some g => rfl
    | none =>
      -- the path is taken, so it is not the one looked up
      have hq : f.path.same q = false := by simpa using List.find?_eq_none.1 hfound f hlisted
      simp [hpath, ← Path.same_congr_left hs, hq]
  · cases hfound : (newFiles base paths).find? (claims library name) with
    | some g => rfl
    | none =>
      have hclaims : claims library name new = claims library name f := by rw [← hsame]; rfl
      simp [hclaims, Bool.eq_false_iff.2 (List.find?_eq_none.1 hfound f hlisted)]

theorem Entered.addFile (h : Entered base paths ws) (p : Path) :
    Entered base (paths ++ [p]) (ws.addFile p).2 := by
  have harises : Arises (ws.addFile p).2 :=
    h.arises.move (.add ws p : Move (fun _ => .error .notFound) _ _)
  have hnew? : ws.newFile? p = base.newFile? p := newFile?_eq_of_heads h.heads p
  cases hnew : base.newFile? p with
  | none =>
    have hfiles : newFiles base (paths ++ [p]) = newFiles base paths := by simp [newFiles, hnew]
    have hadd : (ws.addFile p).2 = ws := by
      rw [Workspace.addFile, hnew?, hnew]
      cases ObjectType.ofPath? p <;> cases ws.file? p <;> rfl
    rw [hadd]
    exact ⟨h.arises, h.heads, hfiles ▸ h.file, hfiles ▸ h.holder⟩
  | some new =>
    have hfiles : newFiles base (paths ++ [p]) = newFiles base paths ++ [new] := by
      simp [newFiles, hnew]
    have hpath : new.path = p := path_newFile? hnew
    rw [hnew] at hnew?
    cases hp : ws.file? p with
    | none =>
      refine ⟨harises, (heads_addFile hnew? hp).trans h.heads, fun q => ?_, fun library name => ?_⟩
      · rw [file?_addFile hnew? hp, hfiles, List.find?_append, ← h.file]
        cases hs : p.same q with
        | true => simp [← ws.file?_congr hs, hp, hpath, hs]
        | false => simp [hpath, hs]
      · rw [holder?_addFile hnew? hp h.arises.named, hfiles, List.find?_append, h.holder]
        by_cases hclaims : claims library name new = true
        · rw [if_pos (claims_iff.1 hclaims)]
          cases (newFiles base paths).find? (claims library name) <;> simp [hclaims, hpath]
        · rw [if_neg fun hc => hclaims (claims_iff.2 hc)]
          simp [hclaims]
    | some f =>
      have hkept : (ws.addFile p).2 = ws := by
        rcases ws.addFile_cases p with ⟨hkept, -⟩ | ⟨_, -, hnone, -⟩
        · exact hkept
        · rw [hp] at hnone
          cases hnone
      rw [hkept]
      exact ⟨h.arises, h.heads, fun q => hfiles ▸ (h.keep hnew hp q "" "").1.symm,
        fun library name => hfiles ▸ (h.keep hnew hp p library name).2.symm⟩

/-- Adding paths to a workspace without files enters them. -/
theorem entered_addFiles (root : Path) (faults : ParserFaults) (severity : SeverityRules)
    (libraries : List (String × Path × List String)) (paths : List Path) :
    Entered (fresh root faults severity libraries) paths
      (paths.foldl (fun ws p => (ws.addFile p).2) (fresh root faults severity libraries)) := by
  induction paths using List.reverseRecOn with
  | nil =>
    exact ⟨.fresh .., rfl, fun q => by simp [newFiles], fun library name => by
      simp [newFiles, holder?_fresh]⟩
  | append_singleton paths p ih =>
    rw [List.foldl_append]
    exact ih.addFile p

end Workspace

end Steplib
