import Steplib.Proofs.Severity.Lookup
import Steplib.Proofs.Text.Lines
import Steplib.Severity.EditorConfig

/-!
# Written configurations

Settings are written as a configuration with one section for each setting. Lines that say nothing
may stand anywhere, blanks may stand around every part of a line, and a line may end in either way.
Patterns and codes can hold the characters that tell the kinds of lines apart. No line is taken for
one of another kind, since its kind shows at its first character that is not blank, and a key ends
at the first equals sign.

## Main definitions

* `EditorConfig.Silent`, `EditorConfig.Heads`, `EditorConfig.Sets`: the kinds of lines.
* `EditorConfig.Layout`, `EditorConfig.Ended`: the lines of a configuration and their text.
* `EditorConfig.Written`: the text is a configuration with the settings.

## Main results

* `EditorConfig.entry?_of_silent`, `EditorConfig.entry?_of_heads`, `EditorConfig.entry?_of_sets`:
  what is read from a line of each kind.
* `EditorConfig.rules_eq_ofSettings`: the rules of a written configuration.
* `EditorConfig.settings_read_back`: the settings of a written configuration decide as if they had
  been added one by one.
-/

namespace Steplib.EditorConfig

/-! ### Written lines -/

/-- A text of nothing but blanks. -/
def Blanks (cs : List Char) : Prop :=
  ∀ c ∈ cs, Text.isBlank c = true

instance (cs : List Char) : Decidable (Blanks cs) :=
  List.decidableBAll _ cs

/-- The key of a setting of the severity of a code. -/
def keyFor (code : List Char) : List Char :=
  keyStart ++ code ++ keyEnd

/-- A line that says nothing about severities: a blank line, a comment, or another setting. -/
inductive Silent : (line : List Char) → Prop
  | blank {line : List Char} (h : Blanks line) : Silent line
  | comment {before rest : List Char} {c : Char} (hbefore : Blanks before)
      (hc : c = '#' ∨ c = ';') : Silent (before ++ c :: rest)
  | other {key value : List Char} (hkey : '=' ∉ key)
      (hstart : (Text.trimStart key).head? ≠ some '[')
      (hcode : ∀ code, Text.trim key ≠ keyFor code) : Silent (key ++ '=' :: value)

/-- The line begins the section of the files that a pattern describes. -/
def Heads (pattern line : List Char) : Prop :=
  ∃ before left right after, Blanks before ∧ Blanks left ∧ Blanks right ∧ Blanks after ∧
    line = before ++ '[' :: (left ++ pattern ++ right ++ ']' :: after)

/-- The line sets the severity of a code, by any spelling of the action. -/
def Sets (code : List Char) (action : SeverityAction) (line : List Char) : Prop :=
  ∃ before after value, Blanks before ∧ Blanks after ∧
    SeverityAction.ofConfig? (String.ofList value) = some action ∧
    line = before ++ (keyFor code ++ after ++ '=' :: value)

/-- The lines of a configuration with the settings, each in a section of its own. -/
inductive Layout : (settings : List SeveritySetting) → (lines : List (List Char)) → Prop
  | nil : Layout [] []
  | silent {settings lines line} (h : Silent line) (hrest : Layout settings lines) :
      Layout settings (line :: lines)
  | setting {s : SeveritySetting} {heading line : List Char} {between settings lines}
      (hheading : Heads s.pattern.toList heading) (hbetween : ∀ l ∈ between, Silent l)
      (hline : Sets s.code.toList s.action line) (hrest : Layout settings lines) :
      Layout (s :: settings) (heading :: (between ++ line :: lines))

/-- The text holds the lines one after the other, each with a line end of either kind; the last
line can go without. -/
inductive Ended : (lines : List (List Char)) → (text : List Char) → Prop
  | nil : Ended [] []
  | last {line} (hline : '\n' ∉ line) : Ended [line] line
  | lineFeed {line lines text} (hline : '\n' ∉ line) (hrest : Ended lines text) :
      Ended (line :: lines) (line ++ '\n' :: text)
  | returnLineFeed {line lines text} (hline : '\n' ∉ line) (hrest : Ended lines text) :
      Ended (line :: lines) (line ++ '\r' :: '\n' :: text)

/-- The text is a configuration with the settings. -/
def Written (settings : List SeveritySetting) (text : String) : Prop :=
  ∃ lines, Layout settings lines ∧ Ended lines text.toList

variable {settings : List SeveritySetting} {lines : List (List Char)} {line a b : List Char}
  {pattern code value : List Char} {action : SeverityAction}

/-! ### What a line says -/

/-- Blanks around a line make no difference. -/
theorem entry?_congr (h : Text.trim a = Text.trim b) : entry? a = entry? b := by
  simp only [ entry?, h]

theorem trimStart_append_cons {before rest : List Char} {c : Char} (hbefore : Blanks before)
    (hc : Text.isBlank c = false) : Text.trimStart (before ++ c :: rest) = c :: rest := by
  rw [Text.trimStart, Text.dropWhile_append_cons hc, List.dropWhile_eq_nil_iff.2 hbefore]
  rfl

theorem trim_append_cons {c : Char} (hc : Text.isBlank c = false) (a b : List Char) :
    Text.trim (a ++ c :: b) = Text.trimStart a ++ c :: Text.trimEnd b :=
  Text.strip_append_cons hc a b

theorem trim_surrounded {before after cs : List Char} (hbefore : Blanks before)
    (hafter : Blanks after) : Text.trim (before ++ cs ++ after) = Text.trim cs :=
  Text.strip_surrounded hbefore hafter cs

theorem blanks_nil : Blanks [] := by simp [Blanks]

theorem trimStart_of_blanks (h : Blanks a) : Text.trimStart a = [] :=
  List.dropWhile_eq_nil_iff.2 h

theorem Blanks.notMem {c : Char} (h : Blanks a) (hc : Text.isBlank c = false) : c ∉ a := by
  intro hmem
  rw [h c hmem] at hc
  cases hc

theorem codeOf?_eq_some_iff {key : List Char} :
    codeOf? key = some code ↔ Text.trim key = keyFor code := by
  rw [codeOf?, Option.bind_eq_some_iff]
  constructor
  · rintro ⟨rest, hstart, hend⟩
    rw [Text.dropLeading?_eq_some_iff] at hstart
    rw [Text.dropTrailing?_eq_some_iff] at hend
    rw [hstart, hend, keyFor, List.append_assoc]
  · intro h
    rw [h, keyFor, List.append_assoc]
    exact ⟨_, Text.dropLeading?_eq_some_iff.2 rfl, Text.dropTrailing?_eq_some_iff.2 rfl⟩

theorem trim_keyFor (code : List Char) : Text.trim (keyFor code) = keyFor code := by
  have hstart : keyFor code = [] ++ 'n' :: (keyStart.tail ++ code ++ keyEnd) := rfl
  have hend : keyEnd = keyEnd.dropLast ++ 'y' :: [] := by decide
  have htrim : Text.trimEnd (keyStart.tail ++ code ++ keyEnd) =
      keyStart.tail ++ code ++ keyEnd := by
    rw [hend, ← List.append_assoc]
    exact Text.rdropWhile_append_cons (by decide) _ _
  rw [hstart, trim_append_cons (by decide), htrim]
  rfl

/-- Blanks around the spelling of an action make no difference. -/
theorem ofConfig?_congr {a b : String}
    (h : Text.trim a.toList = Text.trim b.toList) :
    SeverityAction.ofConfig? a = SeverityAction.ofConfig? b := by
  have htrimmed : Text.trimmed a = Text.trimmed b := congrArg String.ofList h
  rw [SeverityAction.ofConfig?, SeverityAction.ofConfig?, Severity.ofConfig?, Severity.ofConfig?,
    htrimmed]

theorem trim_trimStart (cs : List Char) : Text.trim (Text.trimStart cs) = Text.trim cs := by
  simp only [Text.trim, Text.trimStart, List.dropWhile_idempotent]

/-- A line that begins neither as a comment nor as a section is read at its first equals sign. -/
theorem entry?_of_key {key : List Char} {c : Char} {rest : List Char}
    (hline : Text.trim line = key ++ '=' :: value)
    (hhead : key ++ '=' :: value = c :: rest) (hc : c ≠ '#' ∧ c ≠ ';' ∧ c ≠ '[')
    (hkey : '=' ∉ key) :
    entry? line = (codeOf? key).map fun code =>
      .setting (String.ofList code) (String.ofList value) := by
  have hbracket : bracketed? (c :: rest) = none := by
    rw [bracketed?, Text.dropLeading?, if_neg (Ne.symm hc.2.2)]
    rfl
  have hsplit : Text.splitFirst? '=' (c :: rest) = some (key, value) := by
    rw [← hhead, Text.splitFirst?_append hkey]
  have hcomment : ((c :: rest).isEmpty || (c :: rest).head? == some '#' ||
      (c :: rest).head? == some ';') = false := by
    simp [hc.1, hc.2.1]
  simp only [ entry?, hline, hhead, hbracket, hsplit, hcomment]
  cases h : codeOf? key <;> simp [h]

/-- A silent line is read as nothing. -/
theorem entry?_of_silent (h : Silent line) : entry? line = none := by
  cases h with
  | blank h =>
    have htrim : Text.trim line = [] := Text.strip_eq_nil h
    simp [ entry?, htrim]
  | @comment before rest c hbefore hc =>
    have hblank : Text.isBlank c = false := by rcases hc with rfl | rfl <;> decide
    have htrim : Text.trim (before ++ c :: rest) = c :: Text.trimEnd rest := by
      rw [trim_append_cons hblank, trimStart_of_blanks hbefore, List.nil_append]
    rcases hc with rfl | rfl <;> simp [ entry?, htrim]
  | @other key value hkey hstart hcode =>
    have htrim := trim_append_cons (c := '=') (by decide) key value
    have hkey' : '=' ∉ Text.trimStart key := fun hmem =>
      hkey ((List.dropWhile_suffix _).subset hmem)
    have hnone : codeOf? (Text.trimStart key) = none :=
      Option.eq_none_iff_forall_ne_some.2 fun code hsome =>
        hcode code (by rw [← trim_trimStart, codeOf?_eq_some_iff.1 hsome])
    -- a line that begins as a comment says nothing, whatever its key
    obtain ⟨c, rest, hhead⟩ :
        ∃ c rest, Text.trimStart key ++ '=' :: Text.trimEnd value = c :: rest :=
      List.exists_cons_of_ne_nil (by simp)
    by_cases hc : c = '#' ∨ c = ';'
    · rw [hhead] at htrim
      rcases hc with rfl | rfl <;> simp [ entry?, htrim]
    · have hopen : c ≠ '[' := by
        rintro rfl
        cases hs : Text.trimStart key with
        | nil => simp [hs] at hhead
        | cons d others =>
          rw [hs] at hhead hstart
          exact hstart (by rw [(List.cons.inj hhead).1]; rfl)
      rw [ entry?_of_key htrim hhead ⟨fun h => hc (.inl h), fun h => hc (.inr h), hopen⟩ hkey',
        hnone]
      rfl

/-- A heading is read as the pattern of its section. -/
theorem entry?_of_heads (hpattern : Text.trim pattern = pattern) (h : Heads pattern line) :
    entry? line = some (.heading (String.ofList pattern)) := by
  obtain ⟨before, left, right, after, hbefore, hleft, hright, hafter, rfl⟩ := h
  have htrim : Text.trim (before ++ '[' :: (left ++ pattern ++ right ++ ']' :: after)) =
      '[' :: (left ++ pattern ++ right ++ [']']) := by
    rw [trim_append_cons (by decide), trimStart_of_blanks hbefore, List.nil_append]
    congr 1
    refine (Text.rdropWhile_append_cons (by decide) _ _).trans ?_
    rw [List.rdropWhile_eq_nil_iff.2 hafter]
  have hbracket : bracketed? ('[' :: (left ++ pattern ++ right ++ [']'])) =
      some (left ++ pattern ++ right) := by
    rw [bracketed?, Text.dropLeading?, if_pos rfl, Text.dropLeading?, Option.bind_some,
      Text.dropTrailing?_eq_some_iff.2 rfl]
  simp only [ entry?, htrim, hbracket, trim_surrounded hleft hright, hpattern]
  rfl

/-- A line that sets a severity is read as its code with a spelling of the action. -/
theorem entry?_of_sets (hcode : '=' ∉ code) (h : Sets code action line) :
    ∃ value, entry? line = some (.setting (String.ofList code) value) ∧
      SeverityAction.ofConfig? value = some action := by
  obtain ⟨before, after, value, hbefore, hafter, haction, rfl⟩ := h
  refine ⟨String.ofList (Text.trimEnd value), ?_, ?_⟩
  · obtain ⟨rest, hkey⟩ : ∃ rest, keyFor code ++ after = 'n' :: rest := ⟨_, rfl⟩
    have htrim : Text.trim (before ++ (keyFor code ++ after ++ '=' :: value)) =
        keyFor code ++ after ++ '=' :: Text.trimEnd value := by
      rw [← List.append_assoc, trim_append_cons (by decide), hkey,
        trimStart_append_cons hbefore (by decide)]
    have hequals : '=' ∉ keyFor code ++ after := by
      have hfixed : '=' ∉ keyStart ∧ '=' ∉ keyEnd := by decide
      simp only [keyFor, List.mem_append, not_or]
      exact ⟨⟨⟨hfixed.1, hcode⟩, hfixed.2⟩, hafter.notMem (by decide)⟩
    have hstrip : Text.trim (keyFor code ++ after) = keyFor code := by
      rw [← List.nil_append (keyFor code), trim_surrounded blanks_nil hafter, trim_keyFor]
      rfl
    rw [ entry?_of_key htrim (by rw [hkey]; rfl) (by decide) hequals, codeOf?_eq_some_iff.2 hstrip]
    rfl
  · rw [← haction]
    exact ofConfig?_congr
      (by rw [String.toList_ofList, String.toList_ofList]; exact Text.strip_rdropWhile _ value)

/-! ### Configurations -/

/-- The rules that come from the lines of a configuration are those of its settings. -/
theorem addEntries_layout (hlayout : Layout settings lines)
    (hpattern : ∀ s ∈ settings, Text.trim s.pattern.toList = s.pattern.toList)
    (hcode : ∀ s ∈ settings, '=' ∉ s.code.toList) (section? : Option String)
    (rs : SeverityRules) :
    addEntries section? rs (lines.filterMap entry?) = settings.foldl SeverityRules.set rs := by
  induction hlayout generalizing section? rs with
  | nil => rfl
  | silent h _ ih => rw [List.filterMap_cons_none (entry?_of_silent h), ih hpattern hcode]
  | @setting s heading line between settings lines hheading hbetween hline _ ih =>
    obtain ⟨hpattern, hpatterns⟩ := List.forall_mem_cons.1 hpattern
    obtain ⟨hcode, hcodes⟩ := List.forall_mem_cons.1 hcode
    obtain ⟨value, hvalue, haction⟩ := entry?_of_sets hcode hline
    have hnone : between.filterMap entry? = [] :=
      List.filterMap_eq_nil_iff.2 fun l hl => entry?_of_silent (hbetween l hl)
    rw [List.filterMap_cons_some (entry?_of_heads hpattern hheading), List.filterMap_append, hnone,
      List.nil_append, List.filterMap_cons_some hvalue, addEntries, addEntries, ih hpatterns hcodes,
      String.ofList_toList, String.ofList_toList, haction]
    rfl

/-- Lines are read as they were written, up to blanks at their ends. -/
theorem filterMap_entry?_lines {text : List Char} (h : Ended lines text) :
    (Text.lines text).filterMap entry? = lines.filterMap entry? := by
  have hreturn (line : List Char) : Text.trim (line ++ ['\r']) = Text.trim line :=
    @trim_surrounded [] ['\r'] line blanks_nil (List.forall_mem_singleton.2 (by decide))
  have hchomp (line : List Char) : entry? (Text.chompReturn line) = entry? line := by
    refine entry?_congr ?_
    rcases Text.chompReturn_cases line with h | h
    · rw [h]
    · rw [h, Text.chompReturn_append, hreturn]
  induction h with
  | nil => rfl
  | @last line hline =>
    rw [Text.lines_of_notMem hline]
    split
    · rename_i hnil
      rw [hnil]
      rfl
    · rfl
  | @lineFeed line lines text hline _ ih =>
    rw [Text.lines_lineFeed hline, List.filterMap_cons, List.filterMap_cons, hchomp, ih]
  | @returnLineFeed line lines text hline _ ih =>
    have heq : line ++ '\r' :: '\n' :: text = (line ++ ['\r']) ++ '\n' :: text := by simp
    rw [heq, Text.lines_lineFeed (by simp [hline]), Text.chompReturn_append, List.filterMap_cons,
      List.filterMap_cons, ih]

/-- The rules of a written configuration are those of its settings, added one by one. -/
theorem rules_eq_ofSettings (root : Path) {text : String} (h : Written settings text)
    (hpattern : ∀ s ∈ settings, Text.trim s.pattern.toList = s.pattern.toList)
    (hcode : ∀ s ∈ settings, '=' ∉ s.code.toList) :
    rules root text = SeverityRules.ofSettings root settings := by
  obtain ⟨lines, hlayout, hended⟩ := h
  rw [rules, filterMap_entry?_lines hended, addEntries_layout hlayout hpattern hcode]
  rfl

/-- A spelling of an action. -/
def spelling : SeverityAction → String
  | .setTo .error => "error"
  | .setTo .warning => "warning"
  | .setTo .info => "info"
  | .setTo .hint => "hint"
  | .suppress => "none"

theorem ofConfig?_spelling (action : SeverityAction) :
    SeverityAction.ofConfig? (spelling action) = some action := by
  cases action with
  | setTo severity => cases severity <;> decide
  | suppress => decide

theorem lineFeed_notMem_spelling (action : SeverityAction) : '\n' ∉ (spelling action).toList := by
  cases action with
  | setTo severity => cases severity <;> decide
  | suppress => decide

theorem ended_lineFeeds (h : ∀ line ∈ lines, '\n' ∉ line) :
    Ended lines (lines.flatMap (· ++ ['\n'])) := by
  induction lines with
  | nil => exact .nil
  | cons line lines ih =>
    obtain ⟨hline, hlines⟩ := List.forall_mem_cons.1 h
    simpa using Ended.lineFeed hline (ih hlines)

/-- The plainest lines for a setting. -/
def plainLines (s : SeveritySetting) : List (List Char) :=
  ['[' :: (s.pattern.toList ++ [']']), keyFor s.code.toList ++ '=' :: (spelling s.action).toList]

theorem layout_plainLines (settings : List SeveritySetting) :
    Layout settings (settings.flatMap plainLines) := by
  induction settings with
  | nil => exact .nil
  | cons s settings ih =>
    have haction : SeverityAction.ofConfig? (String.ofList (spelling s.action).toList) =
        some s.action := by
      rw [String.ofList_toList, ofConfig?_spelling]
    have hheading : Heads s.pattern.toList ('[' :: (s.pattern.toList ++ [']'])) :=
      ⟨[], [], [], [], blanks_nil, blanks_nil, blanks_nil, blanks_nil, by simp⟩
    have hline : Sets s.code.toList s.action
        (keyFor s.code.toList ++ '=' :: (spelling s.action).toList) :=
      ⟨[], [], _, blanks_nil, blanks_nil, haction, by simp⟩
    exact @Layout.setting s _ _ [] _ _ hheading (by simp) hline ih

/-- Settings without line feeds can be written as a configuration. -/
theorem exists_written (hpattern : ∀ s ∈ settings, '\n' ∉ s.pattern.toList)
    (hcode : ∀ s ∈ settings, '\n' ∉ s.code.toList) : ∃ text, Written settings text := by
  refine ⟨String.ofList ((settings.flatMap plainLines).flatMap (· ++ ['\n'])), _,
    layout_plainLines settings, ?_⟩
  rw [String.toList_ofList]
  refine ended_lineFeeds fun line hline => ?_
  obtain ⟨s, hs, hline⟩ := List.mem_flatMap.1 hline
  have hkey : '\n' ∉ keyStart ∧ '\n' ∉ keyEnd := by decide
  simp only [plainLines, List.mem_cons, List.not_mem_nil, or_false] at hline
  rcases hline with rfl | rfl
  · simp [hpattern s hs]
  · simp [keyFor, hkey, hcode s hs, lineFeed_notMem_spelling]

/-- Settings whose patterns are stripped and do not nest groups, and whose codes hold no equals
sign, are all added and can be written as a configuration; and from every such configuration,
whatever else it holds and however it is spaced, the same settings decide for every code and file
as if they had been added one by one. -/
theorem settings_read_back (root : Path) (settings : List SeveritySetting)
    (hpattern : ∀ s ∈ settings, '\n' ∉ s.pattern.toList ∧ Text.trimmed s.pattern = s.pattern ∧
      ¬ Glob.Nests s.pattern.toList)
    (hcode : ∀ s ∈ settings, '=' ∉ s.code.toList ∧ '\n' ∉ s.code.toList) :
    ∃ added, SeverityRules.addAll? { root } settings = some added ∧
      (∃ text, Written settings text) ∧
      ∀ text, Written settings text → ∀ code file,
        (rules root text).lookup code file = added.lookup code file := by
  refine ⟨_, SeverityRules.addAll?_eq_some (fun s hs => ?_) _,
    exists_written (fun s hs => (hpattern s hs).1) (fun s hs => (hcode s hs).2),
    fun text hwritten code file => ?_⟩
  · exact fun hnests => (hpattern s hs).2.2 ((Glob.nests_dropWhile_iff _).1 hnests)
  · rw [rules_eq_ofSettings root hwritten (fun s hs => Text.trim_toList (hpattern s hs).2.1)
      fun s hs => (hcode s hs).1]
    rfl

/-- A pattern and a code that hold the marks of other kinds of lines are read back. -/
theorem settings_read_back_sample :
    ∃ added, SeverityRules.addAll? { root := .ofText "/p" }
        [⟨"[E#;]", "\x7ba,[*\x7d.NSC", .suppress⟩, ⟨"E0001", "/LIB/**", .setTo .warning⟩] =
          some added ∧
      ∀ code file, (rules (.ofText "/p") ("; x\r\n[ \x7ba,[*\x7d.NSC ]\nindent = 2\n" ++
        "\tnatls.[E#;].severity = NONE \r\n\n[/LIB/**]\n# [y]\nnatls.E0001.severity=warn")).lookup
          code file = added.lookup code file := by
  obtain ⟨added, hadded, -, hread⟩ := settings_read_back (.ofText "/p")
    [⟨"[E#;]", "\x7ba,[*\x7d.NSC", .suppress⟩, ⟨"E0001", "/LIB/**", .setTo .warning⟩]
    (by decide +kernel) (by decide +kernel)
  have hblank : Blanks [' '] ∧ Blanks ['\t'] := by decide
  have hother : Silent "indent = 2".toList :=
    @Silent.other "indent ".toList " 2".toList (by decide) (by decide) fun code h => by
      have hhead : (Text.trim "indent ".toList).head? = some 'n' := congrArg List.head? h
      exact absurd hhead (by decide)
  have hlayout : Layout [⟨"[E#;]", "\x7ba,[*\x7d.NSC", .suppress⟩,
      ⟨"E0001", "/LIB/**", .setTo .warning⟩]
      ["; x".toList, "[ \x7ba,[*\x7d.NSC ]".toList, "indent = 2".toList,
        "\tnatls.[E#;].severity = NONE ".toList, [], "[/LIB/**]".toList, "# [y]".toList,
        "natls.E0001.severity=warn".toList] :=
    .silent (@Silent.comment [] _ _ blanks_nil (.inr rfl)) <|
    @Layout.setting _ _ _ ["indent = 2".toList] _ _
      ⟨[], [' '], [' '], [], blanks_nil, hblank.1, hblank.1, blanks_nil, by decide⟩
      (List.forall_mem_singleton.2 hother)
      ⟨['\t'], [' '], " NONE ".toList, hblank.2, hblank.1, by decide, by decide⟩ <|
    .silent (.blank blanks_nil) <|
    @Layout.setting _ _ _ ["# [y]".toList] _ _
      ⟨[], [], [], [], blanks_nil, blanks_nil, blanks_nil, blanks_nil, by decide⟩
      (List.forall_mem_singleton.2 (@Silent.comment [] _ _ blanks_nil (.inl rfl)))
      ⟨[], [], "warn".toList, blanks_nil, blanks_nil, by decide, by decide⟩ .nil
  have hended : Ended _ _ :=
    @Ended.returnLineFeed "; x".toList _ _ (by decide) <|
    @Ended.lineFeed "[ \x7ba,[*\x7d.NSC ]".toList _ _ (by decide) <|
    @Ended.lineFeed "indent = 2".toList _ _ (by decide) <|
    @Ended.returnLineFeed "\tnatls.[E#;].severity = NONE ".toList _ _ (by decide) <|
    @Ended.lineFeed [] _ _ (by decide) <|
    @Ended.lineFeed "[/LIB/**]".toList _ _ (by decide) <|
    @Ended.lineFeed "# [y]".toList _ _ (by decide) <|
    @Ended.last "natls.E0001.severity=warn".toList (by decide)
  exact ⟨added, hadded, hread _ ⟨_, hlayout, hended⟩⟩

end Steplib.EditorConfig
