import Steplib.Proofs.Workspace.Succession

/-!
# Indexing twice

Indexing a project once more finds the same scans, so everything it writes follows from the names.
Every file carries the name of its scan after the first pass, and the second one gives a name to a
file only if the first one has left it free. So the second pass changes nothing exactly when the
first one has handed over all names, and a third pass never changes anything.

## Main definitions

* `Workspace.SameIndex`: two workspaces agree in all that indexing writes.
* `Scanned.plain`: a scan with what no pass changes of its file.

## Main results

* `Workspace.Registers.again`: scans that are recorded once more leave the same behind.
* `Workspace.Arises.registerNames_eq_self`: names that have been handed over stay where they are.
* `Workspace.Reachable.second_pass_iff`: when the second pass changes nothing.
-/

namespace Steplib

namespace Workspace

/-- Both workspaces have the same graph, their files differ at most in the lists of their edges, and
the same files are marked as evicted. -/
structure SameIndex (ws ws' : Workspace) : Prop where
  graph : SameGraph ws ws'
  unlinked : ∀ q, (ws'.file? q).map unlinked = (ws.file? q).map unlinked
  marks : ∀ q, ws'.cache.evicted.contains q = ws.cache.evicted.contains q

/-- The scan with its file as no pass changes it. -/
def Scanned.plain (e : Scanned) : Scanned :=
  (unlinked e.1, e.2)

variable {sources : Sources} {ws ws₁ ws' : Workspace} {scans scans' : List Scanned} {e : Scanned}
  {f : ModuleFile} {p : Path} {now : Scanned → Prop} {before : Prop}

/-! ### The same scans -/

/-- A pass lists the same files as before, in the same order. -/
theorem unlinked_registerNames (ws : Workspace) (scans : List Scanned) :
    (ws.registerNames scans).files.values.map unlinked = ws.files.values.map unlinked := by
  induction scans generalizing ws with
  | nil => rfl
  | cons e scans ih =>
    rw [registerNames_cons, ih, registerScannedName]
    split
    · refine PathMap.map_values_map _ fun q v => ?_
      split <;> rfl
    · rfl

theorem unlinked_setReferences (ws : Workspace) (f : ModuleFile) (names : List String) :
    (ws.setReferences f names).files.values.map unlinked = ws.files.values.map unlinked := by
  simp only [setReferences, setOutgoing]
  split
  · rfl
  · exact PathMap.map_values_map _ fun _ _ => rfl

theorem unlinked_registerScans (ws : Workspace) (scans : List Scanned) :
    (ws.registerScans scans).1.files.values.map unlinked = ws.files.values.map unlinked := by
  rw [registerScans_eq]
  induction scans generalizing ws with
  | nil => rfl
  | cons e scans ih =>
    rw [List.foldl_cons, ih, registerScan]
    split
    · exact ws.unlinked_setReferences ..
    · exact ws.unlinked_setReferences ..
    · rfl

theorem unlinked_indexAll (ws : Workspace) (sources : Sources) :
    (ws.indexAll sources false).1.files.values.map unlinked = ws.files.values.map unlinked :=
  (unlinked_registerScans ..).trans (unlinked_registerNames ..)

/-- The same files are scanned with the same results in every pass. -/
theorem plain_scans_eq (h : ws'.files.values.map unlinked = ws.files.values.map unlinked) :
    (ws'.scans sources).map Scanned.plain = (ws.scans sources).map Scanned.plain := by
  have hview (ws : Workspace) : (ws.scans sources).map Scanned.plain =
      (ws.files.values.map unlinked).filterMap fun f => (f.scan? sources).map (f, ·) := by
    rw [scans, List.map_filterMap, List.filterMap_map]
    refine List.filterMap_congr fun f _ => ?_
    rw [Option.map_map, Function.comp_apply]
    rfl
  rw [hview, h, hview]

/-! ### Recording scans twice -/

section Plain

variable (h : scans'.map Scanned.plain = scans.map Scanned.plain) {told : Scanned → Prop}
  (htold : ∀ e : Scanned, told e.plain ↔ told e)

include h htold

theorem exists_mem_of_plain : (∃ e ∈ scans', told e) ↔ ∃ e ∈ scans, told e := by
  have hview (scans : List Scanned) : (∃ e ∈ scans.map Scanned.plain, told e) ↔
      ∃ e ∈ scans, told e := by
    simp only [List.mem_map, exists_exists_and_eq_and, htold]
  rw [← hview, h, hview]

theorem forall_mem_of_plain : (∀ e ∈ scans', told e) ↔ ∀ e ∈ scans, told e := by
  have hview (scans : List Scanned) : (∀ e ∈ scans.map Scanned.plain, told e) ↔
      ∀ e ∈ scans, told e := by
    simp only [List.forall_mem_map, htold]
  rw [← hview, h, hview]

/-- What scans say of a file does not depend on its name and its edges. -/
theorem overlaid_of_plain : Overlaid scans' p told before ↔ Overlaid scans p told before := by
  have hconcerns (e : Scanned) : Concerns e.plain p ↔ Concerns e p := Iff.rfl
  have hsome : (∃ e ∈ scans', Concerns e p ∧ told e) ↔ ∃ e ∈ scans, Concerns e p ∧ told e :=
    exists_mem_of_plain h fun e => and_congr (hconcerns e) (htold e)
  have hnone : (∀ e ∈ scans', ¬ Concerns e p) ↔ ∀ e ∈ scans, ¬ Concerns e p :=
    forall_mem_of_plain h fun e => not_congr (hconcerns e)
  rw [Overlaid, Overlaid, hsome, hnone]

end Plain

/-- The same scans leave the same behind, whatever the names and the edges of their files are. -/
theorem Registers.of_plain (h : Registers sources scans' ws ws')
    (hplain : scans'.map Scanned.plain = scans.map Scanned.plain) :
    Registers sources scans ws ws' :=
  ⟨h.skeleton, h.unlinked,
    fun p q => (h.calls p q).trans (overlaid_of_plain hplain fun _ => Iff.rfl),
    fun p name => (h.waits p name).trans (overlaid_of_plain hplain fun _ => Iff.rfl),
    fun called x => (h.records called x).trans
      (or_congr_right (exists_mem_of_plain hplain fun _ => Iff.rfl)),
    fun q => (h.marks q).trans
      (and_congr_right' (forall_mem_of_plain hplain fun _ => Iff.rfl))⟩

theorem overlaid_idem :
    Overlaid scans p now (Overlaid scans p now before) ↔ Overlaid scans p now before := by
  simp only [Overlaid]
  generalize (∃ e ∈ scans, Concerns e p ∧ now e) = found
  tauto

/-- Scans that are recorded once more leave the same behind. -/
theorem Registers.again (h : Registers sources scans ws ws₁)
    (h' : Registers sources scans ws₁ ws') : Registers sources scans ws ws' := by
  refine ⟨h'.skeleton.trans h.skeleton, fun q => (h'.unlinked q).trans (h.unlinked q),
    fun p q => ?_, fun p name => ?_, fun called x => ?_, fun q => ?_⟩
  · have htargets (e : Scanned) : ws₁.targets e.1 e.names = ws.targets e.1 e.names :=
      targets_eq_of_skeleton h.skeleton rfl _
    rw [h'.calls]
    simp only [htargets, h.calls, overlaid_idem]
  · rw [h'.waits]
    simp only [unresolved_eq_of_skeleton h.skeleton, h.waits, overlaid_idem]
  · rw [h'.records, h.records]
    simp only [cites_eq_of_skeleton h.skeleton, or_assoc, or_self]
  · rw [h'.marks, h.marks]
    simp only [destinations_eq_of_skeleton h.skeleton, and_assoc, and_self]

/-- Which edges a scan leads to does not depend on the name and the edges of its file. -/
theorem edges_registerScans_plain (ws : Workspace) (scans : List Scanned) :
    (ws.registerScans scans).2 =
      ((scans.map Scanned.plain).map fun e => (ws.registerScan e.1 e.2).2).sum := by
  rw [edges_registerScans, List.map_map]
  rfl

/-! ### One pass -/

section Pass

variable (ha : Arises ws)

include ha

theorem Arises.registers_indexAll (sources : Sources) :
    Registers sources (ws.scans sources) (ws.registerNames (ws.scans sources))
      (ws.indexAll sources false).1 :=
  (ha.registerNames sources).registers_registerScans (fun _ he =>
    ⟨ha.keyed.unlinked_registerNames he, (ha.keyed.live_of_mem_scans he).2⟩) ha.keyed.pairwise_scans

theorem Arises.indexAll (sources : Sources) : Arises (ws.indexAll sources false).1 :=
  ha.moves (moves_indexAll sources ha.keyed false)

/-- A file that is there after a pass was there before, and it has the name of its scan. -/
theorem Arises.exists_settled (hf : (ws.indexAll sources false).1.file? p = some f) :
    ∃ g, ws.file? p = some g ∧ f.bare = (g.settle sources).bare := by
  obtain ⟨f', hf', hb⟩ := exists_file_of_skeleton (ha.registers_indexAll sources).skeleton.symm hf
  rw [ha.keyed.file?_registerNames] at hf'
  obtain ⟨g, hg, rfl⟩ := Option.map_eq_some_iff.1 hf'
  exact ⟨g, hg, hb.symm⟩

/-- Every file carries the name of its scan after a pass. -/
theorem Arises.confirmed_indexAll (hf : (ws.indexAll sources false).1.file? p = some f) :
    f.Confirmed sources := by
  obtain ⟨g, -, hb⟩ := ha.exists_settled hf
  exact ((ModuleFile.continues_of_bare hb).name (g.settledName_settle sources)).2

/-- A scan of the second pass gives its file the name that it has got in the first one. -/
theorem Arises.scannedName_indexAll (he : e ∈ (ws.indexAll sources false).1.scans sources) :
    e.1.scannedName e.2 = e.1.name := by
  obtain ⟨hlive, hscan⟩ := (ha.indexAll sources).keyed.live_of_mem_scans he
  have hc := ha.confirmed_indexAll hlive
  rwa [ModuleFile.Confirmed, ModuleFile.settledName, hscan] at hc

/-- The scan of the second pass belongs to one of the first pass. -/
theorem Arises.exists_first_scan (he : e ∈ (ws.indexAll sources false).1.scans sources) :
    ∃ d ∈ ws.scans sources, d.1.type = e.1.type ∧ d.1.library = e.1.library ∧
      d.1.scannedName d.2 = e.1.name := by
  obtain ⟨hlive, hscan⟩ := (ha.indexAll sources).keyed.live_of_mem_scans he
  obtain ⟨g, hg, hb⟩ := ha.exists_settled hlive
  have hgscan : g.scan? sources = some e.2 := (scan?_eq_of_bare hb).symm.trans hscan
  refine ⟨(g, e.2), mem_scans_of_file? hg hgscan, (ModuleFile.type_eq_of_bare hb).symm,
    (ModuleFile.library_eq_of_bare hb).symm, ?_⟩
  rw [ModuleFile.name_eq_of_bare hb, ModuleFile.settle, ModuleFile.settledName, hgscan]
  rfl

/-- The scan of the first pass comes again in the second one. -/
theorem Arises.exists_second_scan (he : e ∈ ws.scans sources) :
    ∃ d ∈ (ws.indexAll sources false).1.scans sources, d.1.type = e.1.type ∧
      d.1.library = e.1.library ∧ d.1.name = e.1.scannedName e.2 := by
  obtain ⟨hlive, hscan⟩ := ha.keyed.live_of_mem_scans he
  have hsettled : (ws.registerNames (ws.scans sources)).file? e.1.path =
      some (e.1.settle sources) := by
    rw [ha.keyed.file?_registerNames, hlive, Option.map_some]
  obtain ⟨f, hf, hb⟩ :=
    exists_file_of_skeleton (ha.registers_indexAll sources).skeleton hsettled
  refine ⟨(f, e.2), mem_scans_of_file? hf ((scan?_eq_of_bare hb).trans hscan),
    (ModuleFile.type_eq_of_bare hb).trans rfl, (ModuleFile.library_eq_of_bare hb).trans rfl, ?_⟩
  rw [ModuleFile.name_eq_of_bare hb, ModuleFile.settle, ModuleFile.settledName, hscan]
  rfl

end Pass

/-! ### The second pass -/

/-- Names that are held stay where they are when files claim them that carry them already. -/
theorem Arises.registerNames_eq_self (ha : Arises ws) (hscans : ∀ e ∈ scans, ws.Live e.1 ∧
      e.1.scannedName e.2 = e.1.name ∧
      (e.1.type.hasHeaderName = true → (ws.holder? e.1.library e.1.name).isSome)) :
    ws.registerNames scans = ws := by
  induction scans with
  | nil => rfl
  | cons e scans ih =>
    obtain ⟨⟨hlive, hname, hheld⟩, hrest⟩ := List.forall_mem_cons.1 hscans
    have hsame : ws.registerScannedName e.1 e.2 = ws := by
      cases htype : e.1.type.hasHeaderName with
      | false => simp [registerScannedName, htype]
      | true => exact registerScannedName_eq_self ha.named hlive hname (hheld htype)
    rw [registerNames_cons, hsame, ih hrest]

/-- When all names have been handed over, the second pass changes nothing. -/
theorem Arises.sameIndex_of_handsOver (ha : Arises ws) (h : ws.HandsOver (ws.scans sources)) :
    let once := ws.indexAll sources false
    let twice := once.1.indexAll sources false
    SameIndex once.1 twice.1 ∧ twice.2 = once.2 := by
  intro once twice
  have ha₁ : Arises once.1 := ha.indexAll sources
  have hfirst := ha.registers_indexAll sources
  have hplain : (once.1.scans sources).map Scanned.plain =
      (ws.scans sources).map Scanned.plain := plain_scans_eq (unlinked_indexAll ws sources)
  have hnames : once.1.registerNames (once.1.scans sources) = once.1 := by
    refine ha₁.registerNames_eq_self fun e he => ?_
    refine ⟨(ha₁.keyed.live_of_mem_scans he).1, ha.scannedName_indexAll he, fun htype => ?_⟩
    obtain ⟨d, hd, hdtype, hlibrary, hname⟩ := ha.exists_first_scan he
    have hheld := (ha.handsOver_iff sources).1 h d hd (hdtype ▸ htype)
    rwa [hlibrary, hname, ← holder?_eq_of_skeleton hfirst.skeleton] at hheld
  have hagain : Registers sources (ws.scans sources) once.1 twice.1 := by
    have hsecond := ha₁.registers_indexAll sources
    rw [hnames] at hsecond
    exact hsecond.of_plain hplain
  refine ⟨⟨hfirst.sameGraph ha₁ (hfirst.again hagain) (ha₁.indexAll sources), hagain.unlinked,
    fun q => ?_⟩, ?_⟩
  · rw [Bool.eq_iff_iff, (hfirst.again hagain).marks, hfirst.marks]
  · have hedges : twice.2.edges = once.2.edges := by
      have hcount (e : Scanned) : (once.1.registerScan e.1 e.2).2 =
          ((ws.registerNames (ws.scans sources)).registerScan e.1 e.2).2 :=
        edges_registerScan_of_skeleton hfirst.skeleton e
      calc twice.2.edges = ((once.1.registerNames (once.1.scans sources)).registerScans
            (once.1.scans sources)).2 := rfl
        _ = (((ws.scans sources).map Scanned.plain).map fun e =>
            ((ws.registerNames (ws.scans sources)).registerScan e.1 e.2).2).sum := by
          rw [hnames, edges_registerScans_plain, hplain]
          simp only [hcount]
        _ = once.2.edges := (edges_registerScans_plain ..).symm
    have hscanned : (once.1.scans sources).length = (ws.scans sources).length := by
      simpa using congrArg List.length hplain
    have hfiles : once.1.files.values.length = ws.files.values.length := by
      simpa using congrArg List.length (unlinked_indexAll ws sources)
    have hsummary (w : Workspace) : (w.indexAll sources false).2 =
        { scanned := (w.scans sources).length
          failed := w.files.values.length - (w.scans sources).length
          edges := (w.indexAll sources false).2.edges } := rfl
    calc twice.2 = { scanned := (once.1.scans sources).length
                     failed := once.1.files.values.length - (once.1.scans sources).length
                     edges := twice.2.edges } := hsummary once.1
      _ = once.2 := by rw [hscanned, hfiles, hedges]; exact (hsummary ws).symm

/-- When the second pass gives no name to a file, all names have been handed over. -/
theorem Arises.handsOver_of_holders (ha : Arises ws)
    (h : ∀ library name, ((ws.indexAll sources false).1.indexAll sources false).1.holder? library
      name = (ws.indexAll sources false).1.holder? library name) :
    ws.HandsOver (ws.scans sources) := by
  rw [ha.handsOver_iff sources]
  intro e he htype
  have ha₁ := ha.indexAll sources
  have hq := ha₁.keyed.queued_scans sources
  obtain ⟨d, hd, hdtype, hlibrary, hname⟩ := ha.exists_second_scan he
  have htakes : Scanned.TakesUp d e.1.library (e.1.scannedName e.2) :=
    ⟨hdtype ▸ htype, hlibrary, (ha.scannedName_indexAll hd).trans hname⟩
  rw [← holder?_eq_of_skeleton (ha.registers_indexAll sources).skeleton, ← h,
    holder?_eq_of_skeleton (ha₁.registers_indexAll sources).skeleton]
  obtain ⟨front, back, hsplit⟩ := List.append_of_mem hd
  rw [hsplit] at hq ⊢
  -- nobody can give up a name in the second pass
  refine ha₁.isSome_holder?_of_takesUp hq htakes fun holder hh => ?_
  obtain ⟨-, f, hf, -⟩ := ha₁.named.holds_of_holder? hh
  obtain ⟨f', hf', hcontinues⟩ :=
    (ha₁.tenure_readings (hq.append.1.readings ha₁.keyed)).files _ f hf
  exact ⟨f', hf', (hcontinues.name (ha.confirmed_indexAll hf)).2⟩

/-- After a first pass no name is given up any more. -/
theorem Arises.handsOver_indexAll (ha : Arises ws) (sources : Sources) :
    let once := ws.indexAll sources false
    once.1.HandsOver (once.1.scans sources) := by
  intro once e _ _ d hd hgives
  have ha₁ := ha.indexAll sources
  obtain ⟨hlive, -⟩ := ha₁.keyed.live_of_mem_scans hd
  have hname := (ha₁.named.eq_of_holder?_same hlive hgives.1 (Path.same_refl _)).2
  exact absurd ((ha.scannedName_indexAll hd).trans hname.symm) hgives.2

/-- A second pass over the same texts changes nothing and reports the same counts if and only if
every name that one file gives up and another one takes up in the first pass is taken up by a file
that comes later in path order. A third pass never changes anything. -/
theorem Reachable.second_pass_iff (h : Reachable ws) (sources : Sources) :
    let once := ws.indexAll sources false
    let twice := once.1.indexAll sources false
    let thrice := twice.1.indexAll sources false
    (SameIndex once.1 twice.1 ∧ twice.2 = once.2 ↔ ws.HandsOver (ws.scans sources)) ∧
      SameIndex twice.1 thrice.1 ∧ thrice.2 = twice.2 := by
  intro once twice thrice
  have ha := h.arises
  exact ⟨⟨fun hsame => ha.handsOver_of_holders hsame.1.graph.holders,
    ha.sameIndex_of_handsOver⟩,
    (ha.indexAll sources).sameIndex_of_handsOver (ha.handsOver_indexAll sources)⟩

end Workspace

namespace Sample

/-- In the library `L` there are two subroutines, whose headers have the given names, and a program
that performs `Y`. -/
def pair (first second : String) : Sources := fun p =>
  match p.text with
  | "L/A.NSS" => .ok ("DEFINE SUBROUTINE " ++ first ++ "\nEND-SUBROUTINE")
  | "L/B.NSS" => .ok ("DEFINE SUBROUTINE " ++ second ++ "\nEND-SUBROUTINE")
  | "L/C.NSP" => .ok "PERFORM Y"
  | _ => .error .notFound

def firstOfPair : Path := .ofText "L/A.NSS"

def secondOfPair : Path := .ofText "L/B.NSS"

/-- The subroutines hold the names `X` and `Y`. -/
def paired : Workspace :=
  continued (pair "X" "Y") (after [])
    [.addFile firstOfPair, .addFile secondOfPair, .addFile program, .indexAll false]

theorem reachable_paired : paired.Reachable :=
  reachable_continued (reachable_after []) _ _

end Sample

namespace Workspace

/-- The first subroutine gives up the name `X`, which the second one takes up after it: the second
pass finds everything in its place. -/
theorem Reachable.second_pass_iff_sample :
    let scans := Sample.paired.scans (Sample.pair "Z" "X")
    let once := Sample.paired.indexAll (Sample.pair "Z" "X") false
    let twice := once.1.indexAll (Sample.pair "Z" "X") false
    Reachable Sample.paired ∧ Sample.paired.HandsOver scans ∧
      (∃ d ∈ scans, Sample.paired.GivesUp d "L" "X") ∧
      once.1.holder? "L" "X" = some { path := Sample.secondOfPair } ∧
      SameIndex once.1 twice.1 ∧ twice.2 = once.2 := by
  intro scans once twice
  obtain ⟨hhands, hgives, hholder⟩ : Sample.paired.HandsOver scans ∧
      (∃ d ∈ scans, Sample.paired.GivesUp d "L" "X") ∧
      once.1.holder? "L" "X" = some { path := Sample.secondOfPair } := by decide +kernel
  exact ⟨Sample.reachable_paired, hhands, hgives, hholder,
    (second_pass_iff Sample.reachable_paired (Sample.pair "Z" "X")).1.2 hhands⟩

/-- The first subroutine takes up the name `Y` before the second one gives it up. Nobody holds the
name after the first pass, and the program waits for it; the second pass connects them. -/
theorem second_pass_connects :
    let once := Sample.paired.indexAll (Sample.pair "Y" "Z") false
    let twice := once.1.indexAll (Sample.pair "Y" "Z") false
    Reachable Sample.paired ∧ (once.1.file? Sample.firstOfPair).map (·.name) = some "Y" ∧
      once.1.holder? "L" "Y" = none ∧ once.1.waiting.namesOf Sample.program = ["Y"] ∧
      once.2.edges = 0 ∧
      twice.1.holder? "L" "Y" = some { path := Sample.firstOfPair } ∧
      twice.1.waiting.namesOf Sample.program = [] ∧ twice.2.edges = 1 :=
  ⟨Sample.reachable_paired, by decide +kernel⟩

end Workspace

end Steplib
