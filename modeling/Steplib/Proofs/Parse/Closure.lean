import Steplib.Proofs.Workspace.Names
import Steplib.Proofs.Workspace.States

/-!
# What a parse leaves behind

A parse of a file comes to an end however the files refer to each other. It parses no file twice
and touches no file that had a module already. When it has ended, every module it has built can
be followed: each of its names that resolves leads to a file with a module. The argument is that of
a depth-first search: while a parse is going on, a name can also lead to a file whose own parse is
going on, and that file has its module by the time the outermost parse ends.

## Main definitions

* `Workspace.HasModule`: the file at a path has a module, current or stale.
* `Workspace.Leads`: a name that resolves leads to a file with a module or to a busy one.
* `Workspace.Followed`: all names of a built module lead somewhere in this sense.

## Main results

* `Workspace.Finds.unparsed_of_mem`, `Workspace.Finds.pairwise`: a run parses only files without a
  module, and none twice.
* `Workspace.Finds.followed_of_mem`: the names of the modules that a run has built can be followed.
* `Workspace.Reachable.parse_closed`: what a parse leaves behind in a reachable workspace.
-/

namespace Steplib

/-- What is known of the file apart from the files that refer to it. -/
def ModuleFile.own (f : ModuleFile) : ModuleFile :=
  { f with incoming := .empty }

theorem ModuleFile.eq_of_own {f g : ModuleFile} (h : g.own = f.own) :
    g = { f with incoming := g.incoming } := by
  cases f
  cases g
  simp_all [own]

namespace Workspace

/-- The file at a path has a module, current or stale. -/
def HasModule (ws : Workspace) (p : Path) : Prop :=
  ∃ f m, ws.file? p = some f ∧ f.state.module? = some m

/-- The name resolves to nothing, to a file with a module or to a busy file. -/
def Leads (ws : Workspace) (busy : List Path) (library name : String) : Prop :=
  ∀ holder, ws.resolve? library name = some holder →
    ws.HasModule holder.path ∨ busy.any (·.same holder.path) = true

variable {sources : Sources} {ws ws₁ ws' : Workspace} {f g : ModuleFile} {p q : Path}
  {busy log : List Path} {library name : String} {names : List String}
  {found : List (String × Option Module)}

theorem HasModule.congr (h : p.same q = true) : ws.HasModule p ↔ ws.HasModule q := by
  rw [HasModule, HasModule, ws.file?_congr h]

theorem HasModule.of_own (h : (ws'.file? p).map ModuleFile.own = (ws.file? p).map ModuleFile.own)
    (hp : ws.HasModule p) : ws'.HasModule p := by
  obtain ⟨f, m, hf, hm⟩ := hp
  rw [hf] at h
  obtain ⟨f', hf', ho⟩ := Option.map_eq_some_iff.1 h
  have hstate : f'.state = f.state := congrArg (·.state) ho
  exact ⟨f', m, hf', by rw [hstate, hm]⟩

/-! ### What a name leads to -/

/-- A name leads nowhere exactly when it does not resolve. -/
theorem Named.lookUp_eq_missing_iff (hn : ws.Named) :
    ws.lookUp library name = .missing ↔ ws.resolve? library name = none := by
  cases hr : ws.resolve? library name with
  | none => simp [lookUp, hr]
  | some holder =>
    obtain ⟨-, -, hlive, f, hf, -⟩ := hn.holds_of_resolve? hr
    cases hm : f.state.module? <;> simp [lookUp, hr, hlive, hf, hm]

/-- A name that leads to a module resolves to a file with it. -/
theorem exists_of_lookUp_known {m : Module} (h : ws.lookUp library name = .known m) :
    ∃ holder f, ws.resolve? library name = some holder ∧ ws.file? holder.path = some f ∧
      f.state.module? = some m := by
  simp only [lookUp] at h
  grind

/-- A name that leads to a file without a module resolves to it. -/
theorem exists_of_lookUp_unparsed (h : ws.lookUp library name = .unparsed f) :
    ∃ holder, ws.resolve? library name = some holder ∧ ws.file? holder.path = some f ∧
      f.state.module? = none := by
  simp only [lookUp] at h
  grind

theorem Keyed.not_hasModule (hk : ws.Keyed) (h : ws.lookUp library name = .unparsed f) :
    ¬ ws.HasModule f.path := by
  obtain ⟨holder, -, hf, hnone⟩ := exists_of_lookUp_unparsed h
  rintro ⟨g, m, hg, hm⟩
  have hlive : ws.file? f.path = some f := hk.live hf
  obtain rfl := Option.some.inj (hlive.symm.trans hg)
  simp [hnone] at hm

/-! ### Settling a file after a run -/

section Settle

variable (run : Finds sources busy library names ws found ws₁ log) (hk : ws.Keyed)
  (hf : ws.Live f)

include run hk hf

/-- The file is still live after the run, and settling it means installing its module. -/
theorem Finds.settle_eq : ∃ f₁, ws₁.Live f₁ ∧ f₁.bare = f.bare ∧
    settle sources f ws₁ found = ws₁.install f₁ (builtModule sources f ws₁ found)
      (f.outcome sources ws₁.faults (foundModule found)).2 := by
  obtain ⟨f₁, hf₁, hb⟩ := exists_file_of_skeleton run.skeleton hf
  exact ⟨f₁, (hk.of_skeleton run.skeleton).live hf₁, hb, install_congr ws₁ hb.symm _ _⟩

/-- Settling a file leaves every other file alone but for its callers. -/
theorem Finds.own_settle (hq : f.path.same q = false) :
    ((settle sources f ws₁ found).file? q).map ModuleFile.own =
      (ws₁.file? q).map ModuleFile.own := by
  obtain ⟨f₁, hlive, hb, heq⟩ := run.settle_eq hk hf
  have hpath : f₁.path = f.path := ModuleFile.path_eq_of_bare hb
  have hq' : q.same f.path = false := by rw [Path.same_comm, hq]
  rw [heq, file?_install hlive, Option.map_map]
  refine congrArg (Option.map · (ws₁.file? q)) (funext fun g => ?_)
  simp [ModuleFile.own, rewired, hpath, hq, hq']

/-- A settled file has the module that was built, and refers to what the names of the module
stand for. -/
theorem Finds.file?_settle : ∃ f₁ g, ws₁.file? f.path = some f₁ ∧
    (settle sources f ws₁ found).file? f.path = some g ∧ g.bare = f.bare ∧
    g.state = .parsed (builtModule sources f ws₁ found) ∧
    g.outgoing = ws₁.targets f (builtModule sources f ws₁ found).references ∧
    g.diagnostics = f₁.diagnostics.replace .parser
      (f.outcome sources ws₁.faults (foundModule found)).2 := by
  obtain ⟨f₁, hlive, hb, heq⟩ := run.settle_eq hk hf
  have hpath : f₁.path = f.path := ModuleFile.path_eq_of_bare hb
  have hlibrary : f₁.library = f.library := ModuleFile.library_eq_of_bare hb
  have hfile : ws₁.file? f₁.path = some f₁ := hlive
  rw [heq, ← hpath, file?_install hlive, hfile]
  refine ⟨f₁, _, rfl, rfl, ?_, ?_, ?_, ?_⟩
  · simp only [Path.same_refl, if_true]
    exact hb
  · simp [rewired, ModuleFile.setParsed]
  · simp [rewired, targets, hpath, hlibrary]
  · simp [rewired, ModuleFile.setParsed]

theorem Finds.hasModule_settle_self : (settle sources f ws₁ found).HasModule f.path := by
  obtain ⟨-, g, -, hg, -, hstate, -⟩ := run.file?_settle hk hf
  exact ⟨g, _, hg, by rw [hstate]; rfl⟩

/-- No file loses its module when one is settled. -/
theorem Finds.hasModule_settle (hq : ws₁.HasModule q) :
    (settle sources f ws₁ found).HasModule q := by
  cases hs : f.path.same q with
  | true => exact (HasModule.congr hs).1 (run.hasModule_settle_self hk hf)
  | false => exact hq.of_own (run.own_settle hk hf hs)

end Settle

/-! ### The files that a run parses -/

/-- No file loses its module in a run. -/
theorem Finds.hasModule (run : Finds sources busy library names ws found ws' log)
    (hk : ws.Keyed) (hq : ws.HasModule q) : ws'.HasModule q := by
  induction run with
  | nil => exact hq
  | missing _ _ ih => exact ih hk hq
  | known _ _ ih => exact ih hk hq
  | pending _ _ _ ih => exact ih hk hq
  | nested hl _ run _ ihRun ihRest =>
    obtain ⟨p, hp⟩ := file?_of_lookUp hl
    exact ihRest (hk.of_skeleton (run.skeleton_settle _))
      (run.hasModule_settle hk (hk.live hp) (ihRun hk hq))

/-- A run parses only files that are not busy and have no module. -/
theorem Finds.unparsed_of_mem (run : Finds sources busy library names ws found ws' log)
    (hk : ws.Keyed) (hq : q ∈ log) : busy.any (·.same q) = false ∧ ¬ ws.HasModule q := by
  induction run with
  | nil => simp at hq
  | missing _ _ ih => exact ih hk hq
  | known _ _ ih => exact ih hk hq
  | pending _ _ _ ih => exact ih hk hq
  | nested hl hb run _ ihRun ihRest =>
    obtain ⟨p, hp⟩ := file?_of_lookUp hl
    rcases List.mem_append.1 hq with hq | hq
    · obtain ⟨hbusy, hnone⟩ := ihRun hk hq
      rw [List.any_cons, Bool.or_eq_false_iff] at hbusy
      exact ⟨hbusy.2, hnone⟩
    · rcases List.mem_cons.1 hq with rfl | hq
      · exact ⟨hb, hk.not_hasModule hl⟩
      · obtain ⟨hbusy, hnone⟩ := ihRest (hk.of_skeleton (run.skeleton_settle _)) hq
        exact ⟨hbusy, fun h => hnone (run.hasModule_settle hk (hk.live hp) (run.hasModule hk h))⟩

/-- A file that a run does not parse keeps everything but its callers. -/
theorem Finds.own_of_not_mem (run : Finds sources busy library names ws found ws' log)
    (hk : ws.Keyed) (hq : ∀ r ∈ log, r.same q = false) :
    (ws'.file? q).map ModuleFile.own = (ws.file? q).map ModuleFile.own := by
  induction run with
  | nil => rfl
  | missing _ _ ih => exact ih hk hq
  | known _ _ ih => exact ih hk hq
  | pending _ _ _ ih => exact ih hk hq
  | nested hl _ run _ ihRun ihRest =>
    obtain ⟨p, hp⟩ := file?_of_lookUp hl
    obtain ⟨hbefore, hq⟩ := List.forall_mem_append.1 hq
    obtain ⟨hself, hafter⟩ := List.forall_mem_cons.1 hq
    rw [ihRest (hk.of_skeleton (run.skeleton_settle _)) hafter,
      run.own_settle hk (hk.live hp) hself, ihRun hk hbefore]

/-- A run does not parse a busy file. -/
theorem Finds.other_of_busy (run : Finds sources busy library names ws found ws' log)
    (hk : ws.Keyed) (hq : busy.any (·.same q) = true) : ∀ r ∈ log, r.same q = false := by
  intro r hr
  by_contra hs
  rw [Bool.not_eq_false] at hs
  have hidle := (run.unparsed_of_mem hk hr).1
  simp [Path.same_congr_right hs, hq] at hidle

/-- A busy file keeps everything but its callers in a run. -/
theorem Finds.own_of_busy (run : Finds sources busy library names ws found ws' log)
    (hk : ws.Keyed) (hq : busy.any (·.same q) = true) :
    (ws'.file? q).map ModuleFile.own = (ws.file? q).map ModuleFile.own :=
  run.own_of_not_mem hk (run.other_of_busy hk hq)

/-- A run does not parse a file with a module. -/
theorem Finds.other_of_hasModule (run : Finds sources busy library names ws found ws' log)
    (hk : ws.Keyed) (hq : ws.HasModule q) : ∀ r ∈ log, r.same q = false := by
  intro r hr
  by_contra hs
  exact (run.unparsed_of_mem hk hr).2 ((HasModule.congr (by simpa using hs)).2 hq)

/-- A file with a module keeps everything but its callers in a run. -/
theorem Finds.own_of_hasModule (run : Finds sources busy library names ws found ws' log)
    (hk : ws.Keyed) (hq : ws.HasModule q) :
    (ws'.file? q).map ModuleFile.own = (ws.file? q).map ModuleFile.own :=
  run.own_of_not_mem hk (run.other_of_hasModule hk hq)

/-! ### Following the names of the built modules -/

theorem Leads.mono (hn : ws.Leads busy library name) (h : ws'.skeleton = ws.skeleton)
    (hm : ∀ p, ws.HasModule p → ws'.HasModule p) : ws'.Leads busy library name := by
  intro holder hholder
  rw [resolve?_eq_of_skeleton h] at hholder
  exact (hn holder hholder).imp_left (hm _)

/-- Every name that a run has looked up leads to a file with a module or to a busy one. -/
theorem Finds.leads (run : Finds sources busy library names ws found ws' log)
    (hk : ws.Keyed) (hn : ws.Named) (hname : name ∈ names) : ws'.Leads busy library name := by
  induction run with
  | nil => simp at hname
  | missing hl rest ih =>
    rcases List.mem_cons.1 hname with rfl | hname
    · intro holder hholder
      rw [resolve?_eq_of_skeleton rest.skeleton, hn.lookUp_eq_missing_iff.1 hl] at hholder
      simp at hholder
    · exact ih hk hn hname
  | known hl rest ih =>
    rcases List.mem_cons.1 hname with rfl | hname
    · obtain ⟨holder, f, hr, hf, hm⟩ := exists_of_lookUp_known hl
      intro other hother
      rw [resolve?_eq_of_skeleton rest.skeleton, hr] at hother
      obtain rfl := Option.some.inj hother
      exact .inl (rest.hasModule hk ⟨f, _, hf, hm⟩)
    · exact ih hk hn hname
  | pending hl hb rest ih =>
    rcases List.mem_cons.1 hname with rfl | hname
    · obtain ⟨holder, hr, hf, -⟩ := exists_of_lookUp_unparsed hl
      intro other hother
      rw [resolve?_eq_of_skeleton rest.skeleton, hr] at hother
      obtain rfl := Option.some.inj hother
      refine .inr ?_
      simpa only [Path.same_congr_right (hk _ _ hf)] using hb
    · exact ih hk hn hname
  | @nested busy library other names ws inner ws₁ parsed found ws' log target hl hb run rest ihRun
      ihRest =>
    have hsettled := run.skeleton_settle target
    rcases List.mem_cons.1 hname with rfl | hname
    · obtain ⟨holder, hr, hf, -⟩ := exists_of_lookUp_unparsed hl
      intro other hother
      rw [resolve?_eq_of_skeleton (rest.skeleton.trans hsettled), hr] at hother
      obtain rfl := Option.some.inj hother
      refine .inl (rest.hasModule (hk.of_skeleton hsettled) ?_)
      exact (HasModule.congr (hk _ _ hf)).1 (run.hasModule_settle_self hk (hk.live hf))
    · exact ihRest (hk.of_skeleton hsettled) (hn.of_skeleton hsettled) hname

/-- The file at `q` has been parsed, and every name of its module leads to a file with a module
or to a busy one. -/
def Followed (ws : Workspace) (busy : List Path) (q : Path) : Prop :=
  ∃ g m, ws.file? q = some g ∧ g.state = .parsed m ∧
    ∀ name ∈ m.references, ws.Leads busy g.library name

theorem Followed.hasModule (h : ws.Followed busy q) : ws.HasModule q := by
  obtain ⟨g, m, hg, hstate, -⟩ := h
  exact ⟨g, m, hg, by rw [hstate]; rfl⟩

/-- What could be followed can still be followed in a workspace with more modules. -/
theorem Followed.mono (hq : ws.Followed busy q) (h : ws'.skeleton = ws.skeleton)
    (hm : ∀ p, ws.HasModule p → ws'.HasModule p)
    (ho : (ws'.file? q).map ModuleFile.own = (ws.file? q).map ModuleFile.own) :
    ws'.Followed busy q := by
  obtain ⟨g, m, hg, hstate, hleads⟩ := hq
  rw [hg] at ho
  obtain ⟨g', hg', hown⟩ := Option.map_eq_some_iff.1 ho
  have hs : g'.state = g.state := congrArg (·.state) hown
  have hl : g'.library = g.library := congrArg (·.library) hown
  refine ⟨g', m, hg', by rw [hs, hstate], fun name hname => ?_⟩
  rw [hl]
  exact (hleads name hname).mono h hm

/-- What could be followed before a run can be followed after it: the run parses other files. -/
theorem Followed.run {passed : List Path} (h : ws.Followed passed q)
    (run : Finds sources busy library names ws found ws' log) (hk : ws.Keyed) :
    ws'.Followed passed q :=
  h.mono run.skeleton (fun _ => run.hasModule hk) (run.own_of_hasModule hk h.hasModule)

/-- A file that has its module does not count as busy any more. -/
theorem Leads.release (h : ws.Leads (p :: busy) library name) (hp : ws.HasModule p) :
    ws.Leads busy library name := by
  intro holder hholder
  rcases h holder hholder with hm | hb
  · exact .inl hm
  · rw [List.any_cons, Bool.or_eq_true] at hb
    rcases hb with hs | hb
    · exact .inl ((HasModule.congr hs).1 hp)
    · exact .inr hb

theorem Followed.release (h : ws.Followed (p :: busy) q) (hp : ws.HasModule p) :
    ws.Followed busy q := by
  obtain ⟨g, m, hg, hstate, hleads⟩ := h
  exact ⟨g, m, hg, hstate, fun name hname => (hleads name hname).release hp⟩

section Settle

variable (run : Finds sources (f.path :: busy) f.library (f.lookups sources ws.faults) ws found
  ws₁ log) (hk : ws.Keyed) (hf : ws.Live f)

include run hk hf

/-- When a file is settled, its own module can be followed. -/
theorem Finds.followed_settle_self (hn : ws.Named) :
    (settle sources f ws₁ found).Followed busy f.path := by
  obtain ⟨-, g, -, hg, hb, hstate, -⟩ := run.file?_settle hk hf
  refine ⟨g, _, hg, hstate, fun name hname => ?_⟩
  rw [ModuleFile.library_eq_of_bare hb]
  have hlookup : name ∈ f.lookups sources ws.faults := by
    rw [← faults_eq_of_skeleton run.skeleton]
    exact (ModuleFile.mem_lookups_iff _ name).2 hname
  have hleads := (run.leads hk hn hlookup).mono (Workspace.skeleton_settle sources f ws₁ found)
    fun p => run.hasModule_settle hk hf
  exact hleads.release (run.hasModule_settle_self hk hf)

/-- When a file is settled, the modules built before it can be followed without it. -/
theorem Finds.followed_settle (hq : q ∈ log) (h : ws₁.Followed (f.path :: busy) q) :
    (settle sources f ws₁ found).Followed busy q := by
  have hother : f.path.same q = false := by
    rw [Path.same_comm]
    exact run.other_of_busy hk (by simp) q hq
  have hmono := h.mono (Workspace.skeleton_settle sources f ws₁ found)
    (fun p => run.hasModule_settle hk hf) (run.own_settle hk hf hother)
  exact hmono.release (run.hasModule_settle_self hk hf)

end Settle

/-- The names of the modules that a run has built lead to files with a module or to busy ones. -/
theorem Finds.followed_of_mem (run : Finds sources busy library names ws found ws' log)
    (hk : ws.Keyed) (hn : ws.Named) (hq : q ∈ log) : ws'.Followed busy q := by
  induction run with
  | nil => simp at hq
  | missing _ _ ih => exact ih hk hn hq
  | known _ _ ih => exact ih hk hn hq
  | pending _ _ _ ih => exact ih hk hn hq
  | @nested busy library other names ws inner ws₁ parsed found ws' log target hl hb run rest ihRun
      ihRest =>
    obtain ⟨p, hp⟩ := file?_of_lookUp hl
    have hsettled := run.skeleton_settle target
    have hk₁ := hk.of_skeleton hsettled
    rcases List.mem_append.1 hq with hq | hq
    · exact (run.followed_settle hk (hk.live hp) hq (ihRun hk hn hq)).run rest hk₁
    · rcases List.mem_cons.1 hq with rfl | hq
      · exact (run.followed_settle_self hk (hk.live hp) hn).run rest hk₁
      · exact ihRest hk₁ (hn.of_skeleton hsettled) hq

/-- A run parses no file twice. -/
theorem Finds.pairwise (run : Finds sources busy library names ws found ws' log)
    (hk : ws.Keyed) (hn : ws.Named) : log.Pairwise fun a b => a.same b = false := by
  induction run with
  | nil => exact .nil
  | missing _ _ ih => exact ih hk hn
  | known _ _ ih => exact ih hk hn
  | pending _ _ _ ih => exact ih hk hn
  | @nested busy library other names ws inner ws₁ parsed found ws' log target hl hb run rest ihRun
      ihRest =>
    obtain ⟨p, hp⟩ := file?_of_lookUp hl
    have hsettled := run.skeleton_settle target
    have hk₁ := hk.of_skeleton hsettled
    -- a file that has its module by now is not among those that are parsed later
    have hlater {a : Path} (ha : HasModule (settle sources target ws₁ inner) a) :
        ∀ b ∈ log, a.same b = false := by
      intro b hb
      rw [Path.same_comm]
      exact rest.other_of_hasModule hk₁ ha b hb
    refine List.pairwise_append.2 ⟨ihRun hk hn, ?_, fun a ha b hb => ?_⟩
    · exact List.pairwise_cons.2
        ⟨hlater (run.hasModule_settle_self hk (hk.live hp)), ihRest hk₁ (hn.of_skeleton hsettled)⟩
    · rcases List.mem_cons.1 hb with rfl | hb
      · exact run.other_of_busy hk (by simp) a ha
      · have ha' := (run.followed_of_mem hk hn ha).hasModule
        exact hlater (run.hasModule_settle hk (hk.live hp) ha') b hb

/-! ### The outermost parse -/

section Parses

variable {m : Module} (run : Parses sources busy f ws m ws' log) (hk : ws.Keyed) (hf : ws.Live f)

include run hk hf

/-- The parsed file has the module that the parse gives. -/
theorem Parses.parsed : ∃ g, ws'.file? f.path = some g ∧ g.state = .parsed m := by
  cases run with
  | intro run =>
    obtain ⟨-, g, -, hg, -, hstate, -⟩ := run.file?_settle hk hf
    exact ⟨g, hg, hstate⟩

/-- Every other file that has a module keeps everything but its callers. -/
theorem Parses.own_of_hasModule (hq : ws.HasModule q) (hother : f.path.same q = false) :
    (ws'.file? q).map ModuleFile.own = (ws.file? q).map ModuleFile.own := by
  cases run with
  | intro run => rw [run.own_settle hk hf hother, run.own_of_hasModule hk hq]

omit hf in
/-- No file is parsed twice. -/
theorem Parses.pairwise (hn : ws.Named) : log.Pairwise fun a b => a.same b = false := by
  cases run with
  | intro run =>
    refine List.pairwise_append.2 ⟨run.pairwise hk hn, List.pairwise_singleton .., ?_⟩
    intro a ha b hb
    obtain rfl := List.mem_singleton.1 hb
    exact run.other_of_busy hk (by simp) a ha

/-- The names of the modules that the parse has built can be followed. -/
theorem Parses.followed_of_mem (hn : ws.Named) (hq : q ∈ log) : ws'.Followed busy q := by
  cases run with
  | intro run =>
    rcases List.mem_append.1 hq with hq | hq
    · exact run.followed_settle hk hf hq (run.followed_of_mem hk hn hq)
    · obtain rfl := List.mem_singleton.1 hq
      exact run.followed_settle_self hk hf hn

end Parses

/-- A parse of a live file comes to an end, whatever cycles the references form, and has only one
run. No file is parsed twice on the way. Afterwards the file is parsed, no stored module is a
placeholder, every other file that had a module has kept its state, its diagnostics and its
references, and every name of a module built on the way that resolves leads to a file with a
module. -/
theorem Reachable.parse_closed (h : Reachable ws) (sources : Sources) (hf : ws.file? p = some f) :
    ∃ m ws' log, ws.parse sources f = (m, ws') ∧ Parses sources [] f ws m ws' log ∧
      (∀ m₂ ws₂ log₂, Parses sources [] f ws m₂ ws₂ log₂ → m₂ = m ∧ ws₂ = ws' ∧ log₂ = log) ∧
      log.Pairwise (fun a b => a.same b = false) ∧
      (∃ g, ws'.file? p = some g ∧ g.state = .parsed m) ∧
      (∀ q g m, ws'.file? q = some g → g.state.module? = some m → m.pending = false) ∧
      (∀ q g m, ws.file? q = some g → g.state.module? = some m → p.same q = false →
        ∃ g', ws'.file? q = some g' ∧ g'.state = g.state ∧ g'.diagnostics = g.diagnostics ∧
          g'.outgoing = g.outgoing) ∧
      ∀ q ∈ log, ∃ g m, ws'.file? q = some g ∧ g.state = .parsed m ∧
        ∀ name ∈ m.references, ∀ holder, ws'.resolve? g.library name = some holder →
          ∃ target m, ws'.file? holder.path = some target ∧ target.state.module? = some m := by
  have hk := h.arises.keyed
  have hn := h.arises.named
  have hlive : ws.Live f := hk.live hf
  have hsame : f.path.same p = true := hk p f hf
  obtain ⟨log, run⟩ := parses_parse sources hk f
  have hunique (m₂ ws₂ log₂) (h : Parses sources [] f ws m₂ ws₂ log₂) := h.unique run
  refine ⟨_, _, log, rfl, run, hunique, run.pairwise hk hn, ?_, ?_, ?_, ?_⟩
  · obtain ⟨g, hg, hstate⟩ := run.parsed hk hlive
    rw [file?_congr _ hsame] at hg
    exact ⟨g, hg, hstate⟩
  · intro q g m hg hm
    exact ((h.arises.moves (run.moves hk hlive)).settled q g hg).2 m hm
  · intro q g m hg hm hq
    have hown := run.own_of_hasModule hk hlive ⟨g, m, hg, hm⟩
      (by rw [Path.same_congr_left hsame]; exact hq)
    rw [hg] at hown
    obtain ⟨g', hg', ho⟩ := Option.map_eq_some_iff.1 hown
    have hstate : g'.state = g.state := congrArg (·.state) ho
    have hdiagnostics : g'.diagnostics = g.diagnostics := congrArg (·.diagnostics) ho
    have houtgoing : g'.outgoing = g.outgoing := congrArg (·.outgoing) ho
    exact ⟨g', hg', hstate, hdiagnostics, houtgoing⟩
  · intro q hq
    obtain ⟨g, m, hg, hstate, hleads⟩ := run.followed_of_mem hk hlive hn hq
    refine ⟨g, m, hg, hstate, fun name hname holder hholder => ?_⟩
    rcases hleads name hname holder hholder with hm | hb
    · exact hm
    · simp at hb

/-- In the small project two subprograms call each other; the parse of one parses both. -/
theorem Reachable.parse_closed_sample :
    Reachable Sample.workspace ∧ ∃ f m ws' log,
      Sample.workspace.file? Sample.caller = some f ∧
        Sample.workspace.parse Sample.texts f = (m, ws') ∧
        Parses Sample.texts [] f Sample.workspace m ws' log ∧
        log.Pairwise (fun a b => a.same b = false) ∧
        ∀ q ∈ log, ∃ g m, ws'.file? q = some g ∧ g.state = .parsed m := by
  obtain ⟨f, hf⟩ := Sample.exists_caller
  obtain ⟨m, ws', log, hparse, run, -, hpairwise, -, -, -, hlog⟩ :=
    parse_closed Sample.reachable Sample.texts hf
  refine ⟨Sample.reachable, f, m, ws', log, hf, hparse, run, hpairwise, fun q hq => ?_⟩
  obtain ⟨g, m, hg, hstate, -⟩ := hlog q hq
  exact ⟨g, m, hg, hstate⟩

end Workspace

end Steplib
