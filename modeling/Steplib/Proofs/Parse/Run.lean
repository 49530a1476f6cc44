import Steplib.Proofs.Workspace.Skeleton

/-!
# Runs of nested parses

A parse looks up names one after the other, and a name can lead to a file that has to be parsed
first. `Finds` writes this recursion down as rules, without a bound on its depth: a derivation is
a run that comes to its end. The files whose parse is going on are `busy`; a busy file is answered
for by a placeholder. The run also lists the files that it has parsed, in the order in which their
parses ended.

## Main definitions

* `ModuleFile.lookups`, `ModuleFile.outcome`: what a parse of a file looks up, and what it gives.
* `Workspace.Finds`: the runs that look up a list of names.
* `Workspace.Parses`: the runs that parse a file.

## Main results

* `Workspace.parses_parse`: every parse has a run, so it comes to an end.
* `Workspace.Parses.unique`: a parse has only one run.
* `Workspace.Finds.invariant`, `Workspace.Finds.skeleton`: what a run keeps.
-/

namespace Steplib

namespace ModuleFile

variable (sources : Sources) (faults : ParserFaults)

/-- The names that a parse of the file looks up, in order. A parse that fails looks up none. -/
def lookups (f : ModuleFile) : List String :=
  match f.source sources, faults.of? f.name with
  | .ok source, none => (Module.ofTokens f.identity (tokenize source)).wanted
  | _, _ => []

/-- The module and the diagnostics of the file, where `find` gives the modules it can refer to. -/
def outcome (f : ModuleFile) (find : String → Option Module) : Module × List Diagnostic :=
  match f.source sources with
  | .error cause => failedParse f.identity (.unreadable cause)
  | .ok source =>
    match faults.of? f.name with
    | some failure => failedParse f.identity failure
    | none => parseTokens f.identity (tokenize source) find

variable {sources faults} {f g : ModuleFile}

theorem outcome_eq_of_bare (h : f.bare = g.bare) :
    f.outcome sources faults = g.outcome sources faults := by
  funext find
  simp only [outcome, source_eq_of_bare h, identity_eq_of_bare h, name_eq_of_bare h]

/-- The outcome of a parse that does not fail. -/
theorem outcome_of_ok {text : String} (hs : f.source sources = .ok text)
    (hf : faults.of? f.name = none) (find : String → Option Module) :
    f.outcome sources faults find = parseTokens f.identity (tokenize text) find := by
  simp only [outcome, hs, hf]

theorem lookups_of_ok {text : String} (hs : f.source sources = .ok text)
    (hf : faults.of? f.name = none) :
    f.lookups sources faults = (Module.ofTokens f.identity (tokenize text)).wanted := by
  simp only [lookups, hs, hf]

/-- The names of the module are those that were looked up. -/
theorem mem_lookups_iff (find : String → Option Module) (name : String) :
    name ∈ f.lookups sources faults ↔ name ∈ (f.outcome sources faults find).1.references := by
  unfold lookups outcome
  cases f.source sources with
  | error cause => simp [failedParse, Module.degraded, Module.references]
  | ok source =>
    cases faults.of? f.name with
    | none => simp [parseTokens, parse, Module.wanted]
    | some failure => simp [failedParse, Module.degraded, Module.references]

/-- No parse gives a placeholder. -/
theorem pending_outcome (find : String → Option Module) :
    (f.outcome sources faults find).1.pending = false := by
  rw [outcome]
  cases f.source sources with
  | error cause => rfl
  | ok source =>
    cases faults.of? f.name with
    | none => rfl
    | some failure => rfl

end ModuleFile

namespace Workspace

/-- The module of a name among those that were found. -/
def foundModule (found : List (String × Option Module)) (name : String) : Option Module :=
  (found.lookup name).join

/-- The module of a file for which the modules `found` were looked up. -/
def builtModule (sources : Sources) (f : ModuleFile) (ws : Workspace)
    (found : List (String × Option Module)) : Module :=
  (f.outcome sources ws.faults (foundModule found)).1

/-- The workspace with a file parsed for which the modules `found` were looked up. -/
def settle (sources : Sources) (f : ModuleFile) (ws : Workspace)
    (found : List (String × Option Module)) : Workspace :=
  let (m, ds) := f.outcome sources ws.faults (foundModule found)
  ws.install f m ds

/-- Looking up the names as seen from a library comes to an end, while the files at the paths
`busy` are being parsed. The run finds the modules `found`, leads from the first workspace to the
second and parses the files at the listed paths. -/
inductive Finds (sources : Sources) : (busy : List Path) → (library : String) → List String →
    Workspace → (found : List (String × Option Module)) → Workspace → List Path → Prop
  | nil (busy library ws) : Finds sources busy library [] ws [] ws []
  | missing {busy library name names ws found ws' log}
      (h : ws.lookUp library name = .missing)
      (rest : Finds sources busy library names ws found ws' log) :
      Finds sources busy library (name :: names) ws ((name, none) :: found) ws' log
  | known {busy library name names ws found ws' log m}
      (h : ws.lookUp library name = .known m)
      (rest : Finds sources busy library names ws found ws' log) :
      Finds sources busy library (name :: names) ws ((name, some m) :: found) ws' log
  | pending {busy library name names ws found ws' log target}
      (h : ws.lookUp library name = .unparsed target)
      (hb : busy.any (·.same target.path) = true)
      (rest : Finds sources busy library names ws found ws' log) :
      Finds sources busy library (name :: names) ws
        ((name, some (.placeholder target.identity)) :: found) ws' log
  | nested {busy library name names ws inner ws₁ parsed found ws' log target}
      (h : ws.lookUp library name = .unparsed target)
      (hb : busy.any (·.same target.path) = false)
      (run : Finds sources (target.path :: busy) target.library
        (target.lookups sources ws.faults) ws inner ws₁ parsed)
      (rest : Finds sources busy library names (settle sources target ws₁ inner) found ws' log) :
      Finds sources busy library (name :: names) ws
        ((name, some (builtModule sources target ws₁ inner)) :: found) ws'
        (parsed ++ target.path :: log)

/-- The parse of a file comes to an end, while the files at the paths `busy` are being parsed: the
names of the file are looked up, then its module is installed. -/
inductive Parses (sources : Sources) (busy : List Path) (f : ModuleFile) (ws : Workspace) :
    Module → Workspace → List Path → Prop
  | intro {found ws₁ parsed}
      (run : Finds sources (f.path :: busy) f.library (f.lookups sources ws.faults) ws
        found ws₁ parsed) :
      Parses sources busy f ws (builtModule sources f ws₁ found) (settle sources f ws₁ found)
        (parsed ++ [f.path])

variable {sources : Sources} {busy available : List Path} {library : String} {names : List String}
  {ws ws' : Workspace} {found : List (String × Option Module)} {log : List Path}

theorem skeleton_settle (sources : Sources) (f : ModuleFile) (ws : Workspace)
    (found : List (String × Option Module)) :
    (settle sources f ws found).skeleton = ws.skeleton :=
  skeleton_install ..

/-- What holds before a run holds after it, if it is kept whenever one of the parsed files is
settled. -/
theorem Finds.invariant {P : Workspace → Prop}
    (run : Finds sources busy library names ws found ws' log)
    (step : ∀ f ws found, f.path ∈ log → P ws → P (settle sources f ws found)) (h : P ws) :
    P ws' := by
  induction run with
  | nil => exact h
  | missing _ _ ih => exact ih step h
  | known _ _ ih => exact ih step h
  | pending _ _ _ ih => exact ih step h
  | nested _ _ _ _ ihRun ihRest =>
    have hinner := ihRun (fun f ws found hf => step f ws found (List.mem_append_left _ hf)) h
    refine ihRest (fun f ws found hf => step f ws found ?_) (step _ _ _ ?_ hinner)
    · exact List.mem_append_right _ (List.mem_cons_of_mem _ hf)
    · exact List.mem_append_right _ List.mem_cons_self

/-- A run keeps the skeleton of the workspace. -/
theorem Finds.skeleton (run : Finds sources busy library names ws found ws' log) :
    ws'.skeleton = ws.skeleton := by
  refine run.invariant (P := fun ws₁ => ws₁.skeleton = ws.skeleton) (fun f ws₁ found _ h => ?_) rfl
  rw [Workspace.skeleton_settle, h]

/-- A run and the parse after it keep the skeleton. -/
theorem Finds.skeleton_settle (h : Finds sources busy library names ws found ws' log)
    (f : ModuleFile) : (settle sources f ws' found).skeleton = ws.skeleton := by
  rw [Workspace.skeleton_settle, h.skeleton]

theorem Parses.skeleton {f : ModuleFile} {m : Module} (h : Parses sources busy f ws m ws' log) :
    ws'.skeleton = ws.skeleton := by
  cases h with
  | intro run => exact run.skeleton_settle f

/-! ### There is only one run -/

/-- Looking up names has only one run. -/
theorem Finds.unique {found' : List (String × Option Module)} {ws'' : Workspace}
    {log' : List Path} (h : Finds sources busy library names ws found ws' log)
    (h' : Finds sources busy library names ws found' ws'' log') :
    found = found' ∧ ws' = ws'' ∧ log = log' := by
  induction h generalizing found' ws'' log' with
  | nil =>
    cases h'
    exact ⟨rfl, rfl, rfl⟩
  | missing h _ ih =>
    cases h' with
    | missing _ rest => grind
    | known k _ => simp [h] at k
    | pending k _ _ => simp [h] at k
    | nested k _ _ _ => simp [h] at k
  | known h _ ih =>
    cases h' with
    | missing k _ => simp [h] at k
    | known k rest => grind
    | pending k _ _ => simp [h] at k
    | nested k _ _ _ => simp [h] at k
  | pending h hb _ ih =>
    cases h' with
    | missing k _ => simp [h] at k
    | known k _ => simp [h] at k
    | pending k _ rest => grind
    | nested k kb _ _ => grind
  | nested h hb _ _ ihRun ihRest =>
    cases h' with
    | missing k _ => simp [h] at k
    | known k _ => simp [h] at k
    | pending k kb _ => grind
    | nested k _ run rest =>
      obtain rfl : _ = _ := Lookup.unparsed.inj (h.symm.trans k)
      obtain ⟨rfl, rfl, rfl⟩ := ihRun run
      obtain ⟨rfl, rfl, rfl⟩ := ihRest rest
      exact ⟨rfl, rfl, rfl⟩

/-- A parse has only one run. -/
theorem Parses.unique {f : ModuleFile} {m m' : Module} {ws'' : Workspace} {log' : List Path}
    (h : Parses sources busy f ws m ws' log) (h' : Parses sources busy f ws m' ws'' log') :
    m = m' ∧ ws' = ws'' ∧ log = log' := by
  cases h with
  | intro run =>
    cases h' with
    | intro run' =>
      obtain ⟨rfl, rfl, rfl⟩ := run.unique run'
      exact ⟨rfl, rfl, rfl⟩

/-! ### Every parse has a run -/

/-- How a parse finds the module of a name when the files at the paths `available` can be parsed
on the way. -/
def finder (sources : Sources) (available : List Path) (library : String) : Finder :=
  fun name ws =>
    match ws.lookUp library name with
    | .missing => (none, ws)
    | .known m => (some m, ws)
    | .unparsed target =>
      if available.any (·.same target.path) then
        let (m, ws) := parseAmong sources (without target.path available) target ws
        (some m, ws)
      else (some (.placeholder target.identity), ws)

theorem parseAmong_eq (f : ModuleFile) (ws : Workspace) :
    parseAmong sources available f ws =
      parseWith sources (finder sources available f.library) f ws := by
  rw [parseAmong]
  rfl

/-- A parse looks up its names and then settles the file. -/
theorem parseWith_eq {find : Finder} {f : ModuleFile}
    (hrun : (findAll find (f.lookups sources ws.faults) ws).2.skeleton = ws.skeleton) :
    parseWith sources find f ws =
      let r := findAll find (f.lookups sources ws.faults) ws
      (builtModule sources f r.2 r.1, settle sources f r.2 r.1) := by
  have hfaults := faults_eq_of_skeleton hrun
  simp only [builtModule, settle, hfaults]
  simp only [parseWith, ModuleFile.lookups, ModuleFile.outcome, ModuleFile.identity]
  cases hs : f.source sources with
  | error cause => rfl
  | ok source =>
    cases hf : ws.faults.of? f.name with
    | some failure => rfl
    | none => rfl

/-- The files that can still be parsed are those that are not busy. -/
def Idle (ws : Workspace) (available busy : List Path) : Prop :=
  ∀ p, (ws.file? p).isSome → available.any (·.same p) = !busy.any (·.same p)

theorem Idle.of_skeleton (hi : ws.Idle available busy) (h : ws'.skeleton = ws.skeleton) :
    ws'.Idle available busy := by
  intro p hp
  refine hi p ?_
  obtain ⟨f, hf⟩ := Option.isSome_iff_exists.1 hp
  obtain ⟨f', hf', -⟩ := exists_file_of_skeleton h.symm hf
  simp [hf']

theorem any_without (p q : Path) (paths : List Path) :
    (without p paths).any (·.same q) = (paths.any (·.same q) && !p.same q) := by
  induction paths with
  | nil => rfl
  | cons r paths ih =>
    simp only [without] at ih ⊢
    by_cases hr : r.same p = true
    · rw [List.filter_cons_of_neg (by simp [hr]), ih, List.any_cons, Path.same_congr_left hr]
      cases p.same q <;> simp
    · rw [List.filter_cons_of_pos (by simp [hr]), List.any_cons, ih, List.any_cons]
      by_cases hq : r.same q = true
      · have : p.same q = false := by
          rw [Path.same_comm, ← Path.same_congr_left hq]
          simpa using hr
        simp [hq, this]
      · simp [hq]

/-- A file that begins to be parsed is busy and can be parsed no more. -/
theorem Idle.begin (hi : ws.Idle available busy) (p : Path) :
    ws.Idle (without p available) (p :: busy) := by
  intro q hq
  rw [any_without, hi q hq, List.any_cons, Bool.not_or, Bool.and_comm]

theorem file?_of_lookUp {target : ModuleFile} {name : String}
    (h : ws.lookUp library name = .unparsed target) : ∃ p, ws.file? p = some target := by
  simp only [lookUp] at h
  grind

/-- Looking up names has a run. The induction is on the files that can still be parsed, and for
each number of those on the names. -/
theorem finds_findAll (sources : Sources) (hk : ws.Keyed) (hi : ws.Idle available busy)
    (library : String) (names : List String) :
    ∃ log, Finds sources busy library names ws
      (findAll (finder sources available library) names ws).1
      (findAll (finder sources available library) names ws).2 log := by
  induction hn : available.length using Nat.strongRecOn
    generalizing available busy library names ws with
  | _ n ihDepth =>
    subst hn
    induction names generalizing ws with
    | nil => exact ⟨[], .nil ..⟩
    | cons name names ihNames =>
      simp only [findAll, finder]
      cases hl : ws.lookUp library name with
      | missing =>
        obtain ⟨log, run⟩ := ihNames hk hi
        exact ⟨log, .missing hl run⟩
      | known m =>
        obtain ⟨log, run⟩ := ihNames hk hi
        exact ⟨log, .known hl run⟩
      | unparsed target =>
        obtain ⟨p, hp⟩ := file?_of_lookUp hl
        have hlive : ws.Live target := hk.live hp
        have hidle := hi target.path (by rw [hlive]; rfl)
        by_cases ha : available.any (·.same target.path) = true
        · have hbusy : busy.any (·.same target.path) = false := by simpa [ha] using hidle
          obtain ⟨parsed, inner⟩ := ihDepth _ (length_without_lt ha) hk (hi.begin target.path)
            target.library (target.lookups sources ws.faults) rfl
          have hsettled := inner.skeleton_settle target
          obtain ⟨log, rest⟩ := ihNames (hk.of_skeleton hsettled) (hi.of_skeleton hsettled)
          refine ⟨parsed ++ target.path :: log, ?_⟩
          simp only [ha, if_true, parseAmong_eq, parseWith_eq inner.skeleton]
          exact .nested hl hbusy inner rest
        · have hbusy : busy.any (·.same target.path) = true := by simpa [ha] using hidle
          obtain ⟨log, run⟩ := ihNames hk hi
          simp only [ha]
          exact ⟨log, .pending hl hbusy run⟩

/-- Every parse has a run, so it comes to an end. -/
theorem parses_parse (sources : Sources) (hk : ws.Keyed) (f : ModuleFile) :
    ∃ log, Parses sources [] f ws (ws.parse sources f).1 (ws.parse sources f).2 log := by
  have hidle : ws.Idle ws.files.keys [] := fun p hp => by
    rw [PathMap.any_keys]
    exact hp
  obtain ⟨parsed, run⟩ := finds_findAll sources hk (hidle.begin f.path) f.library
    (f.lookups sources ws.faults)
  refine ⟨parsed ++ [f.path], ?_⟩
  simp only [parse, parseAmong_eq, parseWith_eq run.skeleton]
  exact .intro run

end Workspace

end Steplib
