import Steplib.Proofs.Severity.Pattern
import Steplib.Severity.Rules

/-!
# Which setting decides

The rules of a project come from settings that are added one after the other. A setting whose
pattern nests groups is refused and leaves the rules as they were. Of the others, the last one that
speaks of the code of a diagnostic and describes its file decides.

## Main definitions

* `SeveritySetting`: what a project sets for a code in the files of a pattern.
* `SeveritySetting.Applies`: the setting speaks of a code in a file.
* `SeverityRules.ofSettings`: the rules that settings come to.

## Main results

* `SeverityRules.lookup_set_of_applies`, `SeverityRules.lookup_set_of_not_applies`: what a setting
  changes in the rules.
* `SeverityRules.last_setting_decides`: which settings are refused, what a rule accepts and which
  setting is found.
-/

namespace Steplib

/-- What a project sets for the diagnostics of a code in the files that a pattern describes. -/
structure SeveritySetting where
  code : String
  pattern : String
  action : SeverityAction
deriving DecidableEq

namespace SeveritySetting

variable (s : SeveritySetting)

/-- The pattern without the slashes at its start. -/
def glob : List Char :=
  s.pattern.toList.dropWhile (· == '/')

/-- The text that the pattern is held against: the path of the file below the root, or only its
name if the pattern has no slash. -/
def subject (root file : Path) : List Char :=
  (if '/' ∈ s.glob then file.textBelow root else file.fileName?.getD "").toList

/-- The setting is not refused, and it speaks of the code in the file. -/
def Applies (root : Path) (code : String) (file : Path) : Prop :=
  ¬ Glob.Nests s.glob ∧ Ascii.eqIgnoreCase s.code code = true ∧
    Glob.Describes s.glob (s.subject root file)

end SeveritySetting

namespace SeverityRules

/-- The rules with one more setting; a refused one leaves them as they are. -/
def set (rs : SeverityRules) (s : SeveritySetting) : SeverityRules :=
  (rs.add? s.code s.pattern s.action).getD rs

/-- The rules with all the settings, one after the other, unless one of them is refused. -/
def addAll? (rs : SeverityRules) (settings : List SeveritySetting) : Option SeverityRules :=
  settings.foldlM (fun rs s => rs.add? s.code s.pattern s.action) rs

/-- The rules that settings come to, one after the other. -/
def ofSettings (root : Path) (settings : List SeveritySetting) : SeverityRules :=
  settings.foldl set { root }

variable {rs : SeverityRules} {s : SeveritySetting} {r : SeverityRule} {code : String}
  {root file : Path}

theorem ofPattern?_eq_some (h : SeverityRule.ofPattern? s.code s.pattern s.action = some r) :
    ∃ parts, Glob.parse? s.glob = some parts ∧
      r = { code := s.code, onFileName := !s.glob.contains '/', parts, action := s.action } := by
  obtain ⟨parts, hparts, rfl⟩ := Option.map_eq_some_iff.1 h
  exact ⟨parts, hparts, rfl⟩

theorem add?_eq_none_iff : rs.add? s.code s.pattern s.action = none ↔ Glob.Nests s.glob := by
  rw [add?, SeverityRule.ofPattern?, Option.map_eq_none_iff, Option.map_eq_none_iff,
    Glob.parse?_eq_none_iff]
  rfl

/-- The rule of a setting applies where the setting does. -/
theorem applies_iff (h : SeverityRule.ofPattern? s.code s.pattern s.action = some r) :
    r.applies code (file.textBelow root) (file.fileName?.getD "") = true ↔
      s.Applies root code file := by
  obtain ⟨parts, hparts, rfl⟩ := ofPattern?_eq_some h
  have hnest : ¬ Glob.Nests s.glob := by
    rw [← Glob.parse?_eq_none_iff, hparts]
    exact Option.some_ne_none parts
  have hsubject : (if (!s.glob.contains '/') = true then file.fileName?.getD ""
      else file.textBelow root).toList = s.subject root file := by
    by_cases hslash : '/' ∈ s.glob <;> simp [SeveritySetting.subject, hslash]
  rw [SeverityRule.applies, Bool.and_eq_true, hsubject, Glob.accepts_parse?_iff hparts,
    SeveritySetting.Applies]
  exact (and_iff_right hnest).symm

theorem set_of_nests (h : Glob.Nests s.glob) : rs.set s = rs := by
  rw [set, add?_eq_none_iff.2 h, Option.getD_none]

theorem set_root (rs : SeverityRules) (s : SeveritySetting) : (rs.set s).root = rs.root := by
  rw [set, add?]
  cases SeverityRule.ofPattern? s.code s.pattern s.action <;> rfl

/-- A setting that applies decides from then on. -/
theorem lookup_set_of_applies (h : s.Applies rs.root code file) :
    (rs.set s).lookup code file = some s.action := by
  cases hr : SeverityRule.ofPattern? s.code s.pattern s.action with
  | none =>
    have hnone : rs.add? s.code s.pattern s.action = none := by rw [add?, hr]; rfl
    exact absurd (add?_eq_none_iff.1 hnone) h.1
  | some r =>
    obtain ⟨parts, -, heq⟩ := ofPattern?_eq_some hr
    have happly := (applies_iff hr).2 h
    simp only [set, add?, hr, Option.map_some, Option.getD_some, lookup, List.find?_cons, happly]
    rw [heq]

/-- A setting that does not apply changes nothing. -/
theorem lookup_set_of_not_applies (h : ¬ s.Applies rs.root code file) :
    (rs.set s).lookup code file = rs.lookup code file := by
  cases hr : SeverityRule.ofPattern? s.code s.pattern s.action with
  | none => simp only [set, add?, hr, Option.map_none, Option.getD_none]
  | some r =>
    have happly := Bool.eq_false_iff.2 fun happly => h ((applies_iff hr).1 happly)
    simp only [set, add?, hr, Option.map_some, Option.getD_some, lookup, List.find?_cons, happly]

theorem ofSettings_append_singleton (root : Path) (settings : List SeveritySetting)
    (s : SeveritySetting) :
    ofSettings root (settings ++ [s]) = (ofSettings root settings).set s :=
  List.foldl_append ..

theorem ofSettings_root (root : Path) (settings : List SeveritySetting) :
    (ofSettings root settings).root = root := by
  induction settings using List.reverseRecOn with
  | nil => rfl
  | append_singleton settings s ih => rw [ofSettings_append_singleton, set_root, ih]

/-- The last member with a property is the one at the end or, if that has it not, the last one
before it. -/
theorem exists_last_append_singleton {p q : SeveritySetting → Prop}
    {settings : List SeveritySetting} :
    (∃ earlier t later, settings ++ [s] = earlier ++ t :: later ∧ p t ∧ q t ∧
        ∀ t ∈ later, ¬ p t) ↔
      p s ∧ q s ∨ ¬ p s ∧ ∃ earlier t later, settings = earlier ++ t :: later ∧ p t ∧ q t ∧
        ∀ t ∈ later, ¬ p t := by
  constructor
  · rintro ⟨earlier, t, later, heq, hp, hq, hlater⟩
    rcases List.eq_nil_or_concat later with rfl | ⟨later, u, rfl⟩
    · rw [(List.append_singleton_inj.1 heq).2]
      exact .inl ⟨hp, hq⟩
    · rw [List.concat_eq_append, ← List.cons_append, ← List.append_assoc] at heq
      obtain ⟨rfl, rfl⟩ := List.append_singleton_inj.1 heq
      exact .inr ⟨hlater s (by simp), earlier, t, later, rfl, hp, hq,
        fun v hmem => hlater v (by simp [hmem])⟩
  · rintro (⟨hp, hq⟩ | ⟨hs, earlier, t, later, rfl, hp, hq, hlater⟩)
    · exact ⟨settings, s, [], rfl, hp, hq, by simp⟩
    · refine ⟨earlier, t, later ++ [s], by simp, hp, hq, ?_⟩
      rw [List.forall_mem_append]
      exact ⟨hlater, by simpa using hs⟩

/-- The last setting that applies is found. -/
theorem lookup_ofSettings_iff {settings : List SeveritySetting} {action : SeverityAction} :
    (ofSettings root settings).lookup code file = some action ↔
      ∃ earlier s later, settings = earlier ++ s :: later ∧ s.Applies root code file ∧
        s.action = action ∧ ∀ s ∈ later, ¬ s.Applies root code file := by
  induction settings using List.reverseRecOn with
  | nil => simp [ofSettings, lookup]
  | append_singleton settings last ih =>
    rw [ofSettings_append_singleton, exists_last_append_singleton, ← ih]
    by_cases happlies : last.Applies root code file
    · rw [lookup_set_of_applies (by rwa [ofSettings_root]), Option.some_inj]
      simp [happlies]
    · rw [lookup_set_of_not_applies (by rwa [ofSettings_root])]
      simp [happlies]

/-- A setting that is not refused adds a rule that accepts what the pattern describes. -/
theorem exists_rule (rs : SeverityRules) (h : ¬ Glob.Nests s.glob) :
    ∃ r, rs.add? s.code s.pattern s.action = some { rs with latestFirst := r :: rs.latestFirst } ∧
      ∀ text, Glob.accepts r.parts text = true ↔ Glob.Describes s.glob text := by
  cases hr : SeverityRule.ofPattern? s.code s.pattern s.action with
  | none =>
    have hnone : rs.add? s.code s.pattern s.action = none := by rw [add?, hr]; rfl
    exact absurd (add?_eq_none_iff.1 hnone) h
  | some r =>
    obtain ⟨parts, hparts, heq⟩ := ofPattern?_eq_some hr
    refine ⟨r, by rw [add?, hr]; rfl, fun text => ?_⟩
    rw [heq, Glob.accepts_parse?_iff hparts]

/-- Settings of which none is refused are all added. -/
theorem addAll?_eq_some {settings : List SeveritySetting}
    (h : ∀ s ∈ settings, ¬ Glob.Nests s.glob) (rs : SeverityRules) :
    rs.addAll? settings = some (settings.foldl set rs) := by
  induction settings generalizing rs with
  | nil => rfl
  | cons s settings ih =>
    obtain ⟨hs, hsettings⟩ := List.forall_mem_cons.1 h
    obtain ⟨r, hr, -⟩ := exists_rule rs hs
    have hset : rs.set s = { rs with latestFirst := r :: rs.latestFirst } := by rw [set, hr]; rfl
    rw [addAll?, List.foldlM_cons, hr, List.foldl_cons, hset]
    exact ih hsettings _

/-- A setting is refused, and the rules stay as they were, exactly when its pattern opens a group
inside a group. Every other setting adds a rule, which accepts the texts that the pattern
describes. The setting that is found for a code and a file is the last one with that code, in any
letter case, that describes the file: by its name if the pattern has no slash, else by its path
below the root. -/
theorem last_setting_decides :
    (∀ (rs : SeverityRules) (s : SeveritySetting),
      (rs.add? s.code s.pattern s.action = none ∧ rs.set s = rs ↔ Glob.Nests s.glob) ∧
      (Glob.Nests s.glob ∨ ∃ r,
        rs.add? s.code s.pattern s.action = some { rs with latestFirst := r :: rs.latestFirst } ∧
        ∀ text, Glob.accepts r.parts text = true ↔ Glob.Describes s.glob text)) ∧
    ∀ (root : Path) (settings : List SeveritySetting) (code : String) (file : Path)
      (action : SeverityAction),
      (ofSettings root settings).lookup code file = some action ↔
        ∃ earlier s later, settings = earlier ++ s :: later ∧ s.Applies root code file ∧
          s.action = action ∧ ∀ s ∈ later, ¬ s.Applies root code file := by
  refine ⟨fun rs s => ⟨⟨fun h => add?_eq_none_iff.1 h.1, fun h => ?_⟩, ?_⟩,
    fun _ _ _ _ _ => lookup_ofSettings_iff⟩
  · exact ⟨add?_eq_none_iff.2 h, set_of_nests h⟩
  · exact (em (Glob.Nests s.glob)).imp_right (exists_rule rs)

end SeverityRules

end Steplib
