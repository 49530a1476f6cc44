import Steplib.Proofs.Workspace.HeaderNames
import Steplib.Proofs.Workspace.RegistrationOrder
import Steplib.Proofs.Workspace.Tenure

/-!
# Names that change hands within one pass

An indexing pass takes the files in path order, and each of them gives up its old name and claims
that of its header. A claim fails while somebody else holds the name. So a name that its holder
gives up is handed over only to a file that comes after the holder; a file that comes before it has
asked in vain, and the name is free at the end of the pass although a file carries it.

## Main definitions

* `Workspace.Queued`: the scans are those of different live files, in path order.
* `Workspace.GivesUp`, `Scanned.TakesUp`: the scan takes a name away from its file, or gives it one.
* `Workspace.HandsOver`: every name that is given up and taken up is taken up later than it is given
  up.

## Main results

* `Workspace.Arises.isSome_holder?_registerNames_iff`: when a name is held at the end of the pass.
* `Workspace.Arises.handsOver_iff`: every file holds a name or finds it taken if and only if all
  names are handed over.
-/

namespace Steplib

namespace Workspace

/-- The scan gives its file the name, in the library of the file. -/
def Scanned.TakesUp (e : Scanned) (library name : String) : Prop :=
  e.1.type.hasHeaderName = true ∧ e.1.library = library ∧ e.1.scannedName e.2 = name

/-- The file of the scan holds the name, and the scan gives it another one. -/
def GivesUp (ws : Workspace) (e : Scanned) (library name : String) : Prop :=
  ws.holder? library name = some { path := e.1.path } ∧ e.1.scannedName e.2 ≠ name

instance (e : Scanned) (library name : String) : Decidable (e.TakesUp library name) :=
  inferInstanceAs (Decidable (_ ∧ _ ∧ _))

instance (ws : Workspace) (e : Scanned) (library name : String) :
    Decidable (ws.GivesUp e library name) :=
  inferInstanceAs (Decidable (_ ∧ _))

/-- Every name that one file gives up and another one takes up is taken up by a file that comes
after the one that gives it up. -/
def HandsOver (ws : Workspace) (scans : List Scanned) : Prop :=
  ∀ e ∈ scans, e.1.type.hasHeaderName = true →
    ∀ d ∈ scans, ws.GivesUp d e.1.library (e.1.scannedName e.2) →
      ∃ e' ∈ scans, e'.TakesUp e.1.library (e.1.scannedName e.2) ∧
        d.1.path.before e'.1.path = true

instance (ws : Workspace) (scans : List Scanned) : Decidable (ws.HandsOver scans) :=
  inferInstanceAs (Decidable (∀ e ∈ scans, _ → ∀ d ∈ scans, _ → ∃ e' ∈ scans, _))

/-- The scans are those of different live files, in path order. -/
structure Queued (sources : Sources) (ws : Workspace) (scans : List Scanned) : Prop where
  live : ∀ e ∈ scans, ws.Live e.1 ∧ e.1.scan? sources = some e.2
  ordered : scans.Pairwise fun a b => a.1.path.before b.1.path = true

variable {sources : Sources} {ws ws' : Workspace} {scans front back : List Scanned}
  {d e : Scanned} {f : ModuleFile} {s : Scan} {library name : String} {holder : Holder}

/-! ### Scans in path order -/

theorem Queued.distinct (h : Queued sources ws scans) :
    scans.Pairwise fun a b => a.1.path.same b.1.path = false :=
  h.ordered.imp Path.same_of_before

theorem Keyed.queued_scans (hk : ws.Keyed) (sources : Sources) :
    Queued sources ws (ws.scans sources) := by
  refine ⟨fun e => hk.live_of_mem_scans, ?_⟩
  have hvalues : ws.files.values.Pairwise fun f g => f.path.before g.path = true := by
    have hpath : ∀ e ∈ ws.files.entries, e.2.path.same e.1 = true := fun e he =>
      hk e.1 e.2 (PathMap.get?_of_mem he)
    rw [PathMap.values, List.pairwise_map]
    refine ws.files.ordered.imp_of_mem fun ha hb hab => ?_
    rw [Path.before_congr_left (hpath _ ha), Path.before_congr_right (hpath _ hb)]
    exact hab
  refine hvalues.filterMap _ fun f g hfg a ha b hb => ?_
  obtain ⟨_, -, rfl⟩ := Option.map_eq_some_iff.1 ha
  obtain ⟨_, -, rfl⟩ := Option.map_eq_some_iff.1 hb
  exact hfg

theorem registerNames_append (ws : Workspace) (front back : List Scanned) :
    ws.registerNames (front ++ back) = (ws.registerNames front).registerNames back :=
  List.foldl_append

/-- Recording the first scans leaves the files of the other ones alone. -/
theorem Queued.append (h : Queued sources ws (front ++ back)) :
    Queued sources ws front ∧ Queued sources (ws.registerNames front) back := by
  obtain ⟨hfront, hback, hacross⟩ := List.pairwise_append.1 h.ordered
  have hfirst : Queued sources ws front :=
    ⟨fun e he => h.live e (List.mem_append_left back he), hfront⟩
  refine ⟨hfirst, fun e he => ?_, hback⟩
  obtain ⟨hlive, hscan⟩ := h.live e (List.mem_append_right front he)
  refine ⟨?_, hscan⟩
  rw [Live, (file?_registerNames hfirst.live hfirst.distinct).2]
  · exact hlive
  · exact fun d hd => Path.same_of_before (hacross d hd e he)

/-- Recording the first scan leaves the files of the other ones alone. -/
theorem Queued.tail (h : Queued sources ws (e :: scans)) :
    Queued sources (ws.registerScannedName e.1 e.2) scans := by
  rw [← List.singleton_append] at h
  exact h.append.2

theorem Queued.readings (h : Queued sources ws scans) (hk : ws.Keyed) :
    Readings sources ws (ws.registerNames scans) :=
  (readings_registerNames hk h.live h.distinct).1

theorem Queued.arises (h : Queued sources ws scans) (ha : Arises ws) :
    Arises (ws.registerNames scans) :=
  ha.moves (h.readings ha.keyed).moves

/-- A scanned file carries the name of its scan when it has been recorded, and goes on doing so. -/
theorem Queued.confirmed (h : Queued sources ws scans) (he : e ∈ scans) :
    (ws.registerNames scans).file? e.1.path = some (e.1.settle sources) ∧
      (e.1.settle sources).Confirmed sources :=
  ⟨(file?_registerNames h.live h.distinct).1 e he, e.1.settledName_settle sources⟩

/-! ### One file takes over a name -/

/-- A file whose scan gives it a name finds the name taken or takes it. -/
theorem Arises.isSome_holder?_registerScannedName (ha : Arises ws) (hf : ws.Live f)
    (htype : f.type.hasHeaderName = true) (s : Scan) :
    ((ws.registerScannedName f s).holder? f.library (f.scannedName s)).isSome := by
  by_cases hother : ∃ holder, ws.holder? f.library (f.scannedName s) = some holder ∧
      holder.path.same f.path = false
  · obtain ⟨holder, hh, hs⟩ := hother
    rw [holder?_registerScannedName_of_other hh hs]
    rfl
  · obtain ⟨l, hl, hlname⟩ := ha.housed.library _ f hf
    obtain ⟨holder, hholder, -⟩ := holder?_takeOver_self
      (hlname ▸ ha.named.libraryNamed?_of_mem hl) (ha.named.file_upper _ f hf).2 fun holder hh => by
        by_contra hs
        exact hother ⟨holder, hh, by simpa using hs⟩
    have htakes : ws.registerScannedName f s = ws.takeOver f (f.scannedName s) := by
      rw [registerScannedName, if_pos htype]
      rfl
    rw [htakes, hholder]
    rfl

/-- Who holds a name after a scan held it before, unless the scan gives its file the name. -/
theorem Arises.holder?_of_registerScannedName (ha : Arises ws) (hf : ws.Live f)
    (hscan : f.scan? sources = some s)
    (h : (ws.registerScannedName f s).holder? library name = some holder) :
    ws.holder? library name = some holder ∨ Scanned.TakesUp (f, s) library name := by
  have hfile := file?_registerScannedName_of_live hf hscan f.path
  rw [if_pos (Path.same_refl _)] at hfile
  have hn : (ws.registerScannedName f s).Named := (ha.move (.name f s hf hscan)).named
  have hself (hs : holder.path.same f.path = true) := hn.eq_of_holder?_same hfile h hs
  rw [registerScannedName] at h
  split at h
  · rename_i htype
    obtain ⟨l', hl', hget⟩ := Option.bind_eq_some_iff.1 h
    have hlname : l'.name = library := by simpa using List.find?_some hl'
    obtain ⟨l, hl, hname, hheld⟩ := mem_claimName (mem_of_libraryNamed? hl')
    rcases hheld name holder hget with ⟨hclaimed, rfl, -⟩ | ⟨hold, -⟩
    · exact .inr ⟨htype, (hself (Path.same_refl _)).1.symm, hclaimed.symm⟩
    · refine .inl ?_
      rw [← hlname, hname, ha.named.holder?_of_mem hl, hold]
  · exact .inl h

/-! ### Many files take over names -/

/-- Who holds a name after some scans held it before, unless one of them gives its file the name. -/
theorem Arises.holder?_of_registerNames (ha : Arises ws) (hq : Queued sources ws scans)
    (hnone : ∀ e ∈ scans, ¬ e.TakesUp library name)
    (h : (ws.registerNames scans).holder? library name = some holder) :
    ws.holder? library name = some holder := by
  induction scans generalizing ws with
  | nil => exact h
  | cons e scans ih =>
    obtain ⟨hfirst, hrest⟩ := List.forall_mem_cons.1 hnone
    obtain ⟨hlive, hscan⟩ := hq.live e List.mem_cons_self
    have hone := ih (ha.move (.name e.1 e.2 hlive hscan)) hq.tail hrest h
    exact (ha.holder?_of_registerScannedName hlive hscan hone).resolve_right hfirst

/-- A file that holds a name and carries the name of its scan keeps it while files are read. -/
theorem Arises.holder?_of_confirmed (ha : Arises ws) (h : Readings sources ws ws')
    (hh : ws.holder? library name = some holder) (hf : ws.file? holder.path = some f)
    (hc : f.Confirmed sources) : ws'.holder? library name = some holder := by
  have htenure := ha.tenure_readings h
  have hname : f.name = name := (ha.named.eq_of_holder?_same hf hh (Path.same_refl _)).2.symm
  obtain ⟨f', hf', hcontinues⟩ := htenure.files _ f hf
  refine (htenure.lost _ _ _ hh).resolve_right ?_
  rintro ⟨g, hg, hother, -⟩
  obtain rfl := Option.some.inj (hf'.symm.trans hg)
  exact hother ((hcontinues.name hc).1.trans hname)

/-- A file that holds a name keeps it while others are scanned. -/
theorem Arises.holder?_of_others (ha : Arises ws) (hq : Queued sources ws scans)
    (hh : ws.holder? library name = some holder)
    (hother : ∀ e ∈ scans, e.1.path.same holder.path = false) :
    (ws.registerNames scans).holder? library name = some holder := by
  obtain ⟨-, f, hf, -, -, hname⟩ := ha.named.holds_of_holder? hh
  refine ((ha.tenure_readings (hq.readings ha.keyed)).lost _ _ _ hh).resolve_right ?_
  rintro ⟨g, hg, hlost, -⟩
  rw [(file?_registerNames hq.live hq.distinct).2 _ hother, hf] at hg
  obtain rfl := Option.some.inj hg
  exact hlost hname

/-- A name that a scan gives its file is held at the end of the pass, unless the file that held it
before the pass is scanned later. -/
theorem Arises.isSome_holder?_of_takesUp (ha : Arises ws)
    (hq : Queued sources ws (front ++ e :: back)) (he : e.TakesUp library name)
    (hsettled : ∀ holder, ws.holder? library name = some holder →
      ∃ f, (ws.registerNames front).file? holder.path = some f ∧ f.Confirmed sources) :
    ((ws.registerNames (front ++ e :: back)).holder? library name).isSome := by
  obtain ⟨htype, rfl, rfl⟩ := he
  obtain ⟨hfront, hrest⟩ := hq.append
  obtain ⟨hlive, hscan⟩ := hrest.live e List.mem_cons_self
  have hread : Reading sources (ws.registerNames front)
      ((ws.registerNames front).registerScannedName e.1 e.2) := .name e.1 e.2 hlive hscan
  have hfirst := hfront.readings ha.keyed
  have ha₁ := ha.moves hfirst.moves
  have ha₂ := ha₁.move hread.move
  obtain ⟨holder, hh⟩ := Option.isSome_iff_exists.1
    (ha₁.isSome_holder?_registerScannedName hlive htype e.2)
  -- whoever holds the name after the claim has been scanned, so nobody is left to give it up
  obtain ⟨f, hf, hc⟩ : ∃ f, ((ws.registerNames front).registerScannedName e.1 e.2).file?
      holder.path = some f ∧ f.Confirmed sources := by
    rcases (ha.tenure_readings (hfirst.tail hread)).gained _ _ _ hh with hbefore | ⟨f, hf, hc, -⟩
    · obtain ⟨f₁, hf₁, hc₁⟩ := hsettled holder hbefore
      obtain ⟨f, hf, hcontinues⟩ := (ha₁.tenure_reading hread).files _ f₁ hf₁
      exact ⟨f, hf, (hcontinues.name hc₁).2⟩
    · exact ⟨f, hf, hc⟩
  rw [registerNames_append, registerNames_cons,
    ha₂.holder?_of_confirmed (hrest.tail.readings ha₂.keyed) hh hf hc]
  rfl

/-- A name that its holder gives up is free at the end of the pass if no file takes it up later. -/
theorem Arises.holder?_eq_none_of_givesUp (ha : Arises ws)
    (hq : Queued sources ws (front ++ d :: back)) (hd : ws.GivesUp d library name)
    (hnone : ∀ e ∈ back, ¬ e.TakesUp library name) :
    (ws.registerNames (front ++ d :: back)).holder? library name = none := by
  obtain ⟨hheld, hname⟩ := hd
  obtain ⟨hfront, hrest⟩ := hq.append
  have ha₁ := hfront.arises ha
  have hkept := ha.holder?_of_others hfront hheld fun e he =>
    Path.same_of_before ((List.pairwise_append.1 hq.ordered).2.2 e he d List.mem_cons_self)
  obtain ⟨hfile, -⟩ := hq.confirmed (List.mem_append_right front List.mem_cons_self)
  rw [Option.eq_none_iff_forall_ne_some]
  intro holder hh
  -- whoever holds the name at the end has held it when the file was scanned that gives it up
  have hbefore := ha₁.holder?_of_registerNames hrest (List.forall_mem_cons.2
    ⟨fun htakes => hname htakes.2.2, hnone⟩) (by rwa [← registerNames_append])
  obtain rfl := Option.some.inj (hkept.symm.trans hbefore)
  have hsettled := ((hq.arises ha).named.eq_of_holder?_same hfile hh (Path.same_refl _)).2
  obtain ⟨-, hscan⟩ := hq.live d (List.mem_append_right front List.mem_cons_self)
  refine hname (Eq.trans ?_ hsettled.symm)
  rw [ModuleFile.settle, ModuleFile.settledName, hscan]
  rfl

/-- A scan that is recorded before another one stands in front of it. -/
theorem Queued.mem_front (hq : Queued sources ws (front ++ e :: back)) (hd : d ∈ front ++ e :: back)
    (h : d.1.path.before e.1.path = true) : d ∈ front := by
  obtain ⟨-, hback, -⟩ := List.pairwise_append.1 hq.ordered
  have hs := Path.same_of_before h
  rcases List.mem_append.1 hd with hd | hd
  · exact hd
  rcases List.mem_cons.1 hd with rfl | hd
  · simp at hs
  · have hcycle := Path.before_trans h ((List.pairwise_cons.1 hback).1 _ hd)
    simpa using Path.same_of_before hcycle

/-- A file that holds a name and does not carry the name of its scan gives up what it holds. -/
theorem Arises.exists_givesUp (ha : Arises ws) (hh : ws.holder? library name = some holder)
    (hf : ws.file? holder.path = some f) (hc : ¬ f.Confirmed sources) :
    ∃ s, f.scan? sources = some s ∧ f.path = holder.path ∧ ws.GivesUp (f, s) library name := by
  obtain ⟨hlive, g, hg, hpath, -, hname⟩ := ha.named.holds_of_holder? hh
  obtain rfl := Option.some.inj (hf.symm.trans hg)
  cases hscan : f.scan? sources with
  | none => exact absurd (by rw [ModuleFile.Confirmed, ModuleFile.settledName, hscan]; rfl) hc
  | some s =>
    refine ⟨s, rfl, hpath, ?_, fun hsame => hc ?_⟩
    · rw [hh]
      obtain ⟨path, live⟩ := holder
      simp_all
    · rw [ModuleFile.Confirmed, ModuleFile.settledName, hscan, hname]
      exact hsame

/-- A name that a file is given by its scan is held at the end of the pass if and only if it was not
given up, or a file takes it up after that. -/
theorem Arises.isSome_holder?_registerNames_iff (ha : Arises ws) (hq : Queued sources ws scans)
    (hall : ∀ p f s, ws.file? p = some f → f.scan? sources = some s → (f, s) ∈ scans)
    (he : e ∈ scans) (htakes : e.TakesUp library name) :
    ((ws.registerNames scans).holder? library name).isSome ↔
      ∀ d ∈ scans, ws.GivesUp d library name →
        ∃ e' ∈ scans, e'.TakesUp library name ∧ d.1.path.before e'.1.path = true := by
  constructor
  · intro hheld d hd hgives
    by_contra hlate
    obtain ⟨front, back, rfl⟩ := List.append_of_mem hd
    have hafter := (List.pairwise_cons.1 (List.pairwise_append.1 hq.ordered).2.1).1
    rw [ha.holder?_eq_none_of_givesUp hq hgives fun e' he' htakes' => hlate
      ⟨e', List.mem_append_right front (List.mem_cons_of_mem d he'), htakes', hafter e' he'⟩]
      at hheld
    simp at hheld
  · intro hlater
    cases hheld : ws.holder? library name with
    | none =>
      obtain ⟨front, back, rfl⟩ := List.append_of_mem he
      exact ha.isSome_holder?_of_takesUp hq htakes (by simp [hheld])
    | some holder =>
      obtain ⟨-, f, hf, -⟩ := ha.named.holds_of_holder? hheld
      by_cases hc : f.Confirmed sources
      · rw [ha.holder?_of_confirmed (hq.readings ha.keyed) hheld hf hc]
        rfl
      -- the holder gives up the name, and when a later file takes it up the holder is settled
      obtain ⟨s, hscan, hpath, hgives⟩ := ha.exists_givesUp hheld hf hc
      have hd := hall _ f s hf hscan
      obtain ⟨e', he', htakes', hbefore⟩ := hlater _ hd hgives
      obtain ⟨front, back, rfl⟩ := List.append_of_mem he'
      obtain ⟨hfile, hconfirmed⟩ := hq.append.1.confirmed (hq.mem_front hd hbefore)
      refine ha.isSome_holder?_of_takesUp hq htakes' fun holder' hh => ?_
      obtain rfl := Option.some.inj (hheld.symm.trans hh)
      exact ⟨_, by rw [← hpath]; exact hfile, hconfirmed⟩

/-- All names that files carry after the pass are held if and only if every name that is given up
and taken up is handed over. -/
theorem Arises.handsOver_iff (ha : Arises ws) (sources : Sources) :
    ws.HandsOver (ws.scans sources) ↔
      ∀ e ∈ ws.scans sources, e.1.type.hasHeaderName = true →
        ((ws.registerNames (ws.scans sources)).holder? e.1.library (e.1.scannedName e.2)).isSome :=
  forall₃_congr fun _ he htype => (ha.isSome_holder?_registerNames_iff
    (ha.keyed.queued_scans sources) (fun _ _ _ => mem_scans_of_file?) he ⟨htype, rfl, rfl⟩).symm

end Workspace

end Steplib
