import Steplib.Proofs.Workspace.Creation

/-!
# What the deletion of a file does

A file that is deleted withdraws its name, so that the name may lead further along the search order
of a library: to a file that was hidden behind the deleted one, or to nothing. Its callers lose
their edge and wait for the name, whatever it leads to now. All other names, edges and waits stay as
they are. The edges of a caller therefore lead where its names lead exactly when nothing was hidden
behind the deleted file.

## Main results

* `Workspace.Named.holder?_deleteFile`: the tables after a deletion.
* `Workspace.Arises.waits_deleteFile`: the waits after a deletion.
* `Workspace.Reachable.deletion_connects_iff`: the edges and waits of a caller after a deletion.
* `Workspace.deletion_uncovers`: a file that was hidden gets no edge.
-/

namespace Steplib

/-- A withdrawal takes the name from the file at the path and leaves everything else. -/
theorem Library.modules_unregister (l : Library) (name other : String) (path : Path) :
    (l.unregister name path).modules.get? other =
      if other = name then (l.modules.get? other).filter fun h => !h.path.same path
      else l.modules.get? other := by
  by_cases ho : other = name
  · subst ho
    unfold unregister
    cases hget : l.modules.get? other with
    | none => simp [hget]
    | some holder => cases hs : holder.path.same path <;>
        simp [NameMap.get?_erase, Option.filter_some, hget, hs]
  · rw [if_neg ho, unregister]
    split
    · split
      · rw [NameMap.get?_erase, if_neg ho]
      · rfl
    · rfl

/-- The state of a file whose module, if it has a current one, has been made stale. -/
def ModuleState.aged : ModuleState → ModuleState
  | parsed m => stale m
  | s => s

@[simp]
theorem ModuleState.module?_aged (s : ModuleState) : s.aged.module? = s.module? := by
  cases s <;> rfl

/-- Files wait for one more name. -/
theorem WaitingIndex.waits_foldl_add (callers : List ModuleFile) (w : WaitingIndex)
    {q : Path} {name other : String} :
    (callers.foldl (fun w c => w.add c.path name) w).Waits q other ↔
      w.Waits q other ∨ other = Ascii.upper name ∧ ∃ c ∈ callers, c.path.same q = true := by
  induction callers generalizing w with
  | nil => simp
  | cons c callers ih =>
    rw [List.foldl_cons, ih, waits_add, List.exists_mem_cons_iff]
    grind

namespace Workspace

variable {sources : Sources} {ws : Workspace} {t c : ModuleFile} {p q : Path}
  {library name : String}

/-! ### Names -/

theorem heads_deleteFile (ws : Workspace) (p : Path) : (ws.deleteFile p).2.heads = ws.heads := by
  rw [deleteFile]
  split
  · rfl
  · rename_i t _
    simp only [heads, modifyLibrary, List.map_map]
    refine List.map_congr_left fun l _ => ?_
    simp only [Function.comp_apply]
    split
    · exact l.head_unregister _ _
    · rfl

/-- What the deleted file holds is its name in its library. -/
theorem Named.eq_of_holder?_same (hn : ws.Named) (hp : ws.file? p = some t) {holder : Holder}
    (h : ws.holder? library name = some holder) (hs : holder.path.same p = true) :
    library = t.library ∧ name = t.name := by
  obtain ⟨-, f, hf, -, hlibrary, hname⟩ := hn.holds_of_holder? h
  rw [ws.file?_congr hs, hp] at hf
  obtain rfl := Option.some.inj hf
  exact ⟨hlibrary.symm, hname.symm⟩

/-- Deletion withdraws what the file holds, and no other name is touched. -/
theorem Named.holder?_deleteFile (hn : ws.Named) (hp : ws.file? p = some t)
    (library name : String) :
    (ws.deleteFile p).2.holder? library name =
      (ws.holder? library name).filter fun h => !h.path.same p := by
  have hlibraries : (ws.deleteFile p).2.libraries =
      (ws.modifyLibrary t.library (·.unregister t.name p)).libraries := by
    simp only [Workspace.deleteFile, hp]
  have hnamed : (ws.deleteFile p).2.libraryNamed? library =
      (ws.modifyLibrary t.library (·.unregister t.name p)).libraryNamed? library := by
    simp only [libraryNamed?, hlibraries]
  have hkept (hnot : ¬ (library = t.library ∧ name = t.name)) :
      ws.holder? library name = (ws.holder? library name).filter fun h => !h.path.same p := by
    cases hh : ws.holder? library name with
    | none => rfl
    | some h =>
      have hs : h.path.same p = false := by
        simpa using fun hs => hnot (hn.eq_of_holder?_same hp hh hs)
      simp [Option.filter_some, hs]
  rw [holder?, hnamed, libraryNamed?_modifyLibrary fun l => l.name_unregister t.name p]
  rw [holder?] at hkept ⊢
  cases hl : ws.libraryNamed? library with
  | none => rfl
  | some l =>
    have hname : l.name = library := by simpa using List.find?_some hl
    simp only [hl, Option.map_some, Option.bind_some, (hn.file_upper p t hp).2, beq_iff_eq,
      hname] at hkept ⊢
    split
    · rename_i hlibrary
      rw [Library.modules_unregister]
      split
      · rfl
      · rename_i hother
        exact hkept fun h => hother h.2
    · rename_i hlibrary
      exact hkept fun h => hlibrary h.1

theorem Named.holder?_of_deleteFile (hn : ws.Named) {holder : Holder}
    (h : (ws.deleteFile p).2.holder? library name = some holder) :
    ws.holder? library name = some holder := by
  cases hp : ws.file? p with
  | none => simpa only [Workspace.deleteFile, hp] using h
  | some t =>
    rw [hn.holder?_deleteFile hp, Option.filter_eq_some_iff] at h
    exact h.1

/-- Other names than that of the deleted file stand for what they stood for before. -/
theorem Named.resolve?_deleteFile (hn : ws.Named) (hp : ws.file? p = some t) (library : String)
    (hname : Ascii.upper name ≠ t.name) :
    (ws.deleteFile p).2.resolve? library name = ws.resolve? library name := by
  refine resolve?_congr (chain?_eq_of_heads (heads_deleteFile ws p) library) fun steplib => ?_
  rw [hn.holder?_deleteFile hp]
  cases hh : ws.holder? steplib (Ascii.upper name) with
  | none => rfl
  | some h =>
    have hs : h.path.same p = false := by
      simpa using fun hs => hname (hn.eq_of_holder?_same hp hh hs).2
    simp [Option.filter_some, hs]

/-! ### Waits -/

/-- A file and a caller of it lie at different paths. -/
theorem Linked.not_same_of_calls (hl : ws.Linked) (h : ws.Calls q p) : p.same q = false := by
  by_contra hs
  refine hl.irreflexive p ((Calls.congr_left ?_).1 h)
  rw [Path.same_comm]
  simpa using hs

/-- The callers of a deleted file wait for its name, and nothing else changes for other files. -/
theorem Arises.waits_deleteFile (ha : Arises ws) (hp : ws.file? p = some t) :
    (ws.deleteFile p).2.waiting.Waits q name ↔
      p.same q = false ∧ (ws.waiting.Waits q name ∨ name = t.name ∧ ws.Calls q p) := by
  have hcallers : (∃ c ∈ callers { ws with files := ws.files.erase p } t, c.path.same q = true) ↔
      ws.Calls q p := by
    have herase (r : Path) : file? { ws with files := ws.files.erase p } r =
        if p.same r then none else ws.file? r := ws.files.get?_erase p r
    rw [ha.linked.symmetric, calledBy_iff hp]
    constructor
    · rintro ⟨c, hc, hs⟩
      obtain ⟨r, hr, hfile⟩ := List.mem_filterMap.1 hc
      rw [herase] at hfile
      split at hfile
      · simp at hfile
      · rw [← t.incoming.contains_congr hs, t.incoming.contains_congr (ha.keyed r c hfile)]
        exact PathSet.contains_of_mem hr
    · intro hq
      obtain ⟨c, hc, hcalls⟩ := (ha.linked.symmetric q p).2 ⟨t, hp, hq⟩
      obtain ⟨r, hr, hs⟩ := List.any_eq_true.1 hq
      have hother : p.same r = false := by
        rw [Path.same_congr_right hs]
        exact ha.linked.not_same_of_calls ⟨c, hc, hcalls⟩
      refine ⟨c, List.mem_filterMap.2 ⟨r, hr, ?_⟩, ha.keyed q c hc⟩
      rw [herase, hother, ws.file?_congr hs]
      exact hc
  simp only [Workspace.deleteFile, hp]
  rw [WaitingIndex.waits_foldl_add, WaitingIndex.waits_removeFile ha.mirrored, hcallers,
    (ha.named.file_upper p t hp).1]
  constructor
  · rintro (⟨hs, hwaits⟩ | ⟨hname, hcalls⟩)
    · exact ⟨hs, .inl hwaits⟩
    · exact ⟨ha.linked.not_same_of_calls hcalls, .inr ⟨hname, hcalls⟩⟩
  · rintro ⟨hs, hwaits | h⟩
    · exact .inl ⟨hs, hwaits⟩
    · exact .inr h

/-! ### The callers of a deleted file -/

theorem markStale_eq (f : ModuleFile) : f.markStale.1 = { f with state := f.state.aged } := by
  obtain ⟨_, _, _, _, state, _, _, _, _⟩ := f
  cases state <;> rfl

theorem state_released (p : Path) (f : ModuleFile) (q : Path) (g : ModuleFile) :
    (released p f q g).state = if f.incoming.contains q then g.state.aged else g.state := by
  simp only [released, markStale_eq]
  split <;> split <;> rfl

/-- A file that is freed of its edges with a deleted one keeps its module. -/
theorem module?_released (p : Path) (f : ModuleFile) (q : Path) (g : ModuleFile) :
    (released p f q g).state.module? = g.state.module? := by
  rw [state_released]
  split
  · exact g.state.module?_aged
  · rfl

/-- A file that is freed of its edges with a deleted one refers to the same names. -/
theorem referred_released (p : Path) (f : ModuleFile) (q : Path) (g : ModuleFile) :
    (released p f q g).referred sources = g.referred sources := by
  have hscan : (released p f q g).scan? sources = g.scan? sources := by
    simp only [released, markStale_eq]
    split <;> split <;> rfl
  rw [ModuleFile.referred, module?_released, hscan]
  rfl

/-- A caller refers to a file by the name that the file carries. -/
theorem Named.exists_name_of_calls (hn : ws.Named) (hp : ws.file? p = some t)
    (hconnected : ws.Connected c (c.referred sources)) (hcall : c.outgoing.contains p = true) :
    ∃ name ∈ c.referred sources, Ascii.upper name = t.name ∧
      ∃ holder, ws.resolve? c.library name = some holder ∧ holder.path.same p = true := by
  rw [hconnected, contains_targets_iff] at hcall
  obtain ⟨name, hname, holder, hr, -, hs⟩ := hcall
  obtain ⟨l, -, -, f, hf, -, -, hfname⟩ := hn.holds_of_resolve? hr
  rw [ws.file?_congr hs, hp] at hf
  obtain rfl := Option.some.inj hf
  exact ⟨name, hname, hfname.symm, holder, hr, hs⟩

/-- Names that lead to the same file are spellings of one name. -/
theorem Named.upper_eq_of_same (hn : ws.Named) {holder holder' : Holder} {other library' : String}
    (h : ws.resolve? library name = some holder) (h' : ws.resolve? library' other = some holder')
    (hs : holder.path.same holder'.path = true) : Ascii.upper name = Ascii.upper other := by
  obtain ⟨-, -, -, f, hf, -, -, hname⟩ := hn.holds_of_resolve? h
  obtain ⟨-, -, -, g, hg, -, -, hother⟩ := hn.holds_of_resolve? h'
  rw [ws.file?_congr hs, hg] at hf
  obtain rfl := Option.some.inj hf
  exact hname.symm.trans hother

section Caller

variable (ha : Arises ws) (hp : ws.file? p = some t) (hc : ws.file? q = some c)
  (hcall : c.outgoing.contains p = true)

include ha hp hc hcall

theorem Arises.file?_deleteFile_of_calls :
    (ws.deleteFile p).2.file? q = some (released p t q c) := by
  rw [file?_deleteFile hp, ha.linked.not_same_of_calls ((calls_iff hc).2 hcall), hc]
  rfl

variable (hconnected : ws.Connected c (c.referred sources))

include hconnected

/-- The edges of a caller lead where its names lead, except for the name of the deleted file. -/
theorem Arises.contains_outgoing_released {r : Path} :
    (released p t q c).outgoing.contains r = true ↔ ∃ name ∈ c.referred sources,
      Ascii.upper name ≠ t.name ∧ ∃ holder,
        (ws.deleteFile p).2.resolve? c.library name = some holder ∧
          holder.path.same q = false ∧ holder.path.same r = true := by
  have hn := ha.named
  have hpath := ha.keyed q c hc
  obtain ⟨called, -, hupper, deleted, hled, hdeleted⟩ :=
    hn.exists_name_of_calls hp hconnected hcall
  rw [← calls_iff (ha.file?_deleteFile_of_calls hp hc hcall), ha.linked.calls_deleteFile hp,
    calls_iff hc, hconnected, contains_targets_iff]
  constructor
  · rintro ⟨-, hpr, name, hname, holder, hr, hself, hs⟩
    have hnot : Ascii.upper name ≠ t.name := fun hname => by
      rw [← resolve?_upper, hname, ← hupper, resolve?_upper, hled] at hr
      obtain rfl := Option.some.inj hr
      rw [Path.same_comm, ← Path.same_congr_left hs, hdeleted] at hpr
      simp at hpr
    refine ⟨name, hname, hnot, holder, ?_, by rwa [← Path.same_congr_right hpath], hs⟩
    rw [hn.resolve?_deleteFile hp _ hnot, hr]
  · rintro ⟨name, hname, hnot, holder, hr, hself, hs⟩
    rw [hn.resolve?_deleteFile hp _ hnot] at hr
    refine ⟨ha.linked.not_same_of_calls ((calls_iff hc).2 hcall), ?_, name, hname, holder, hr,
      by rwa [Path.same_congr_right hpath], hs⟩
    by_contra hpr
    obtain ⟨l, -, -, f, hf, -, -, hfname⟩ := hn.holds_of_resolve? hr
    rw [ws.file?_congr hs, ← ws.file?_congr (by simpa using hpr), hp] at hf
    obtain rfl := Option.some.inj hf
    exact hnot hfname.symm

/-- The edges of a caller lead where all of its names lead exactly when the name of the deleted file
leads to no other file. -/
theorem Arises.connected_released_iff :
    (ws.deleteFile p).2.Connected (released p t q c) (c.referred sources) ↔ ∀ holder,
      (ws.deleteFile p).2.resolve? c.library t.name = some holder →
        holder.path.same q = true := by
  have hn := ha.named
  have hpath : (released p t q c).path.same q = true := by
    rw [path_released]
    exact ha.keyed q c hc
  have hlibrary : (released p t q c).library = c.library :=
    congrArg Identity.library (identity_released p t q c)
  have hedges {r : Path} := ha.contains_outgoing_released hp hc hcall hconnected (r := r)
  constructor
  · intro hfollow holder hr
    by_contra hself
    obtain ⟨called, hcalled, hupper, -⟩ := hn.exists_name_of_calls hp hconnected hcall
    -- the edge would have to come from another name of the file that was hidden
    have hedge : (released p t q c).outgoing.contains holder.path = true := by
      rw [hfollow, contains_targets_iff]
      refine ⟨called, hcalled, holder, ?_, ?_, Path.same_refl _⟩
      · rw [hlibrary, ← resolve?_upper, hupper, hr]
      · rw [Path.same_congr_right hpath]
        simpa using hself
    obtain ⟨name, -, hname, holder', hr', -, hs⟩ := hedges.1 hedge
    refine hname (((hn.deleteFile p).upper_eq_of_same hr' hr hs).trans ?_)
    exact (hn.file_upper p t hp).1
  · intro hself r
    rw [Bool.eq_iff_iff, hedges, contains_targets_iff, hlibrary]
    refine exists_congr fun name => and_congr_right fun _ => ?_
    simp only [Path.same_congr_right hpath]
    refine ⟨And.right, fun hled => ⟨fun hname => ?_, hled⟩⟩
    obtain ⟨holder, hr, hnot, -⟩ := hled
    rw [← resolve?_upper, hname] at hr
    rw [hself holder hr] at hnot
    simp at hnot

end Caller

/-- After a deletion the edges of a caller lead where its names lead, except for the name of the
deleted file, and it waits for that name whatever the name leads to. So its edges lead where all of
its names lead exactly when that name leads to no other file, and it waits only for names that lead
nowhere exactly when that name leads nowhere. -/
theorem Reachable.deletion_connects_iff (h : Reachable ws) (sources : Sources)
    (hp : ws.file? p = some t) (hc : ws.file? q = some c) (hcall : c.outgoing.contains p = true)
    (hconnected : ws.Connected c (c.referred sources)) :
    let ws' := (ws.deleteFile p).2
    ∃ c', ws'.file? q = some c' ∧ c'.library = c.library ∧
      (c.state = .unparsed → c'.state = .unparsed) ∧
      c'.referred sources = c.referred sources ∧
      (∀ r, c'.outgoing.contains r = true ↔ ∃ name ∈ c.referred sources,
        Ascii.upper name ≠ t.name ∧ ∃ holder, ws'.resolve? c.library name = some holder ∧
          holder.path.same q = false ∧ holder.path.same r = true) ∧
      (∀ name, ws'.waiting.Waits q name ↔ name = t.name ∨ ws.waiting.Waits q name) ∧
      (ws'.Connected c' (c'.referred sources) ↔ ∀ holder,
        ws'.resolve? c.library t.name = some holder → holder.path.same q = true) ∧
      (ws'.Connected c' (c'.referred sources) ∧
        (ws'.waiting.Waits q t.name → ws'.resolve? c.library t.name = none) ↔
          ws'.resolve? c.library t.name = none) := by
  intro ws'
  have ha := h.arises
  have hcalls : ws.Calls q p := (calls_iff hc).2 hcall
  have hlibrary : (released p t q c).library = c.library :=
    congrArg Identity.library (identity_released p t q c)
  have hstate : c.state = .unparsed → (released p t q c).state = .unparsed := fun hs => by
    rw [state_released, hs]
    exact ite_self _
  have hwaits (name : String) :
      ws'.waiting.Waits q name ↔ name = t.name ∨ ws.waiting.Waits q name := by
    rw [ha.waits_deleteFile hp]
    simp [ha.linked.not_same_of_calls hcalls, hcalls, or_comm]
  have hfollow := ha.connected_released_iff hp hc hcall hconnected
  refine ⟨_, ha.file?_deleteFile_of_calls hp hc hcall, hlibrary, hstate, referred_released p t q c,
    fun r => ha.contains_outgoing_released hp hc hcall hconnected, hwaits, ?_, ?_, ?_⟩
  · rw [referred_released]
    exact hfollow
  · rintro ⟨-, hwait⟩
    exact hwait ((hwaits _).2 (.inl rfl))
  · intro hnone
    rw [referred_released, hfollow, hnone]
    simp

end Workspace

namespace Sample

/-- Both subprograms `N` are there, and the nearer one hides the other from the program. -/
def layered : Workspace := after [.createFile far, .createFile near, .createFile program]

end Sample

namespace Workspace

/-- The edge of the program is gone and nothing is missed when the subprogram in the steplib is
deleted and no other one is there. -/
theorem Reachable.deletion_connects_iff_sample :
    Reachable Sample.shadowed ∧ ∃ t c,
      Sample.shadowed.file? Sample.far = some t ∧ Sample.shadowed.file? Sample.program = some c ∧
        c.outgoing.contains Sample.far = true ∧
        Sample.shadowed.Connected c (c.referred Sample.namesakes) ∧
        ∃ c', (Sample.shadowed.deleteFile Sample.far).2.file? Sample.program = some c' ∧
          (Sample.shadowed.deleteFile Sample.far).2.Connected c'
            (c'.referred Sample.namesakes) := by
  have hreachable : Reachable Sample.shadowed := Sample.reachable_after _
  obtain ⟨t, ht, hgone⟩ := (Option.any_eq_true _ _).1
    (by decide +kernel : (Sample.shadowed.file? Sample.far).any (fun t => t.name == "N" &&
      ((Sample.shadowed.deleteFile Sample.far).2.resolve? "L" "N").isNone) = true)
  obtain ⟨c, hc, h⟩ := (Option.any_eq_true _ _).1
    (by decide +kernel : (Sample.shadowed.file? Sample.program).any (fun c =>
      c.outgoing.contains Sample.far && c.library == "L" &&
        decide (c.outgoing = Sample.shadowed.targets c (c.referred Sample.namesakes))) = true)
  simp only [Bool.and_eq_true, beq_iff_eq, decide_eq_true_eq, Option.isNone_iff_eq_none] at h hgone
  obtain ⟨hname, hnone⟩ := hgone
  obtain ⟨⟨hcall, hlibrary⟩, houtgoing⟩ := h
  have hconnected : Sample.shadowed.Connected c (c.referred Sample.namesakes) := fun q =>
    congrArg (·.contains q) houtgoing
  obtain ⟨c', hc', -, -, -, -, -, -, hiff⟩ :=
    deletion_connects_iff hreachable Sample.namesakes ht hc hcall hconnected
  rw [hname, hlibrary] at hiff
  exact ⟨hreachable, t, c, ht, hc, hcall, hconnected, c', hc', (hiff.2 hnone).1⟩

/-- When the nearer subprogram is deleted, the name `N` leads the program to the steplib, but the
program has no edge to it and waits for the name. -/
theorem deletion_uncovers :
    Reachable Sample.layered ∧
      (Sample.layered.file? Sample.program).map (fun c => (c.state, c.referred Sample.namesakes,
        c.outgoing.toList, (c.scan? Sample.namesakes).isSome)) =
          some (.unparsed, ["N"], [Sample.near], true) ∧
      Sample.layered.resolve? "L" "N" = some { path := Sample.near } ∧
      ((Sample.layered.deleteFile Sample.near).2.file? Sample.program).map (fun c =>
        (c.library, c.state, c.referred Sample.namesakes, c.outgoing.toList)) =
          some ("L", .unparsed, ["N"], []) ∧
      (Sample.layered.deleteFile Sample.near).2.resolve? "L" "N" = some { path := Sample.far } ∧
      ((Sample.layered.deleteFile Sample.near).2.waiting.waiting "N").any
        (·.same Sample.program) = true :=
  ⟨Sample.reachable_after _, by decide +kernel⟩

end Workspace

end Steplib
