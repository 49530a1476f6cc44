import Mathlib.Combinatorics.Enumerative.DyckWord
import Steplib.Proofs.Severity.Front

/-!
# Written patterns

What a written pattern describes is said here by its characters, from left to right, without the
parts that it is read into. The reading refuses exactly the patterns that open a group inside a
group, which are those whose groups are not balanced when the pattern is written as an expression,
and the parts of every other pattern describe the same texts as its characters.

## Main definitions

* `Glob.Describes`: the text is in the language of the written pattern.
* `Glob.Nests`: the written pattern opens a group while one is open.
* `Glob.brackets`: the brackets of the groups when the pattern is written as an expression.

## Main results

* `Glob.pattern_induction`: induction over written patterns.
* `Glob.parse?_eq_none_iff`, `Glob.parse?_eq_none_iff_unbalanced`: the refused patterns are those
  that nest groups, and those whose brackets are not balanced.
* `Glob.mem_of_describes`, `Glob.describes_of_mem`: the parts of a pattern describe what its
  characters describe.
* `Glob.accepts_parse?_iff`: a text is accepted exactly when the pattern describes it.
-/

namespace Steplib.Glob

/-- The text holds no braces. -/
def Braceless (cs : List Char) : Prop :=
  '\x7b' ∉ cs ∧ '\x7d' ∉ cs

/-- The pattern describes the text. -/
inductive Describes : (pattern text : List Char) → Prop
  | nil : Describes [] []
  /-- Another character stands for its case variants. -/
  | plain {c d : Char} {g t : List Char} (hc : c ≠ '*' ∧ c ≠ '?' ∧ c ≠ '\x7b')
      (hd : Text.sameFold c d = true) (ht : Describes g t) : Describes (c :: g) (d :: t)
  | one {d : Char} {g t : List Char} (hd : d ≠ '/') (ht : Describes g t) :
      Describes ('?' :: g) (d :: t)
  | many {g s t : List Char} (hg : g.head? ≠ some '*') (hs : '/' ∉ s) (ht : Describes g t) :
      Describes ('*' :: g) (s ++ t)
  /-- Two adjacent stars are taken together. -/
  | deep {g s t : List Char} (hg : g.head? ≠ some '/') (hs : '\n' ∉ s) (ht : Describes g t) :
      Describes ('*' :: '*' :: g) (s ++ t)
  | noDirectory {g t : List Char} (ht : Describes g t) : Describes ('*' :: '*' :: '/' :: g) t
  | directories {g s t : List Char} (hs : '\n' ∉ s) (ht : Describes g t) :
      Describes ('*' :: '*' :: '/' :: g) (s ++ '/' :: t)
  /-- A group stands for any of its alternatives, each a pattern again. -/
  | group {body alternative g s t : List Char} (hbody : Braceless body)
      (hmem : alternative ∈ body.splitOn ',') (hs : Describes alternative s)
      (ht : Describes g t) : Describes ('\x7b' :: (body ++ '\x7d' :: g)) (s ++ t)
  /-- A group that is open at the end is closed there. -/
  | openGroup {body alternative s : List Char} (hbody : Braceless body)
      (hmem : alternative ∈ body.splitOn ',') (hs : Describes alternative s) :
      Describes ('\x7b' :: body) s

/-- The pattern opens a group while an earlier one is open. -/
def Nests (pattern : List Char) : Prop :=
  ∃ before body after, pattern = before ++ '\x7b' :: (body ++ '\x7b' :: after) ∧ '\x7d' ∉ body

variable {c d : Char} {a b g body text : List Char} {parts : List Part}

/-! ### Induction over written patterns -/

/-- A character that does not stand before the first `d` stands after it. -/
theorem exists_of_append_eq (h : a ++ c :: b = body ++ d :: g) (hc : c ∉ body) (hne : c ≠ d) :
    ∃ x, a = body ++ d :: x ∧ g = x ++ c :: b := by
  rcases List.append_eq_append_iff.1 h with ⟨x, rfl, hx⟩ | ⟨x, rfl, hx⟩
  · cases x with
    | nil => exact absurd (List.cons.inj hx).1 hne
    | cons e x =>
      obtain ⟨rfl, -⟩ := List.cons.inj hx
      simp at hc
  · cases x with
    | nil => exact absurd (List.cons.inj hx).1.symm hne
    | cons e x =>
      obtain ⟨rfl, rfl⟩ := List.cons.inj hx
      exact ⟨x, rfl, rfl⟩

/-- An alternative of a group is a piece of the group that holds no comma. -/
theorem infix_of_mem_splitOn {body a : List Char} (h : a ∈ body.splitOn ',') :
    a <:+: body ∧ ',' ∉ a := by
  by_cases hcomma : ',' ∈ body
  · obtain ⟨first, rest, rfl, hfirst⟩ := List.eq_append_cons_of_mem hcomma
    rw [List.splitOn_append_cons_self_of_not_mem hfirst] at h
    rcases List.mem_cons.1 h with rfl | h
    · exact ⟨(List.prefix_append ..).isInfix, hfirst⟩
    · have hrest := infix_of_mem_splitOn h
      exact ⟨hrest.1.trans ⟨first ++ [','], [], by simp⟩, hrest.2⟩
  · rw [List.splitOn_eq_singleton hcomma, List.mem_singleton] at h
    exact ⟨by rw [h], by rwa [h]⟩
termination_by body.length

theorem Braceless.of_infix (h : Braceless body) (ha : a <:+: body) : Braceless a :=
  ⟨fun hmem => h.1 (ha.subset hmem), fun hmem => h.2 (ha.subset hmem)⟩

/-- After the opening of a group there is its end, the opening of another one, or neither. -/
theorem brace_cases (cs : List Char) :
    Braceless cs ∨ ∃ body g, Braceless body ∧
      (cs = body ++ '\x7d' :: g ∨ cs = body ++ '\x7b' :: g) := by
  cases h : cs.find? fun c => c == '\x7b' || c == '\x7d' with
  | none =>
    rw [List.find?_eq_none] at h
    exact .inl ⟨fun hmem => h _ hmem rfl, fun hmem => h _ hmem rfl⟩
  | some brace =>
    obtain ⟨hbrace, body, g, rfl, hbody⟩ := List.find?_eq_some_iff_append.1 h
    refine .inr ⟨body, g, ⟨fun hmem => ?_, fun hmem => ?_⟩, ?_⟩
    · simpa using hbody _ hmem
    · simpa using hbody _ hmem
    · rcases Bool.or_eq_true_iff.1 hbrace with h | h
      · exact .inr (by rw [eq_of_beq h])
      · exact .inl (by rw [eq_of_beq h])

/-- A property holds of all written patterns if each way in which a pattern can begin hands it
down, from the rest of the pattern and from the alternatives of a group. -/
theorem pattern_induction {motive : List Char → Prop} (nil : motive [])
    (plain : ∀ c g, c ≠ '*' ∧ c ≠ '?' ∧ c ≠ '\x7b' → motive g → motive (c :: g))
    (one : ∀ g, motive g → motive ('?' :: g))
    (many : ∀ g, g.head? ≠ some '*' → motive g → motive ('*' :: g))
    (deep : ∀ g, g.head? ≠ some '/' → motive g → motive ('*' :: '*' :: g))
    (directories : ∀ g, motive g → motive ('*' :: '*' :: '/' :: g))
    (group : ∀ body g, Braceless body → (∀ a ∈ body.splitOn ',', motive a) → motive g →
      motive ('\x7b' :: (body ++ '\x7d' :: g)))
    (openGroup : ∀ body, Braceless body → (∀ a ∈ body.splitOn ',', motive a) →
      motive ('\x7b' :: body))
    (nested : ∀ body g, Braceless body → motive ('\x7b' :: (body ++ '\x7b' :: g)))
    (pattern : List Char) : motive pattern := by
  induction hn : pattern.length using Nat.strong_induction_on generalizing pattern with
  | _ n ih =>
    subst hn
    have hshorter (g : List Char) (h : g.length < pattern.length) : motive g := ih _ h g rfl
    cases pattern with
    | nil => exact nil
    | cons c rest =>
      by_cases hstar : c = '*'
      · subst hstar
        by_cases htwo : rest.head? = some '*'
        · obtain ⟨g, rfl⟩ := List.head?_eq_some_iff.1 htwo
          by_cases hslash : g.head? = some '/'
          · obtain ⟨g, rfl⟩ := List.head?_eq_some_iff.1 hslash
            exact directories g (hshorter g (by simp only [List.length_cons]; omega))
          · exact deep g hslash (hshorter g (by simp only [List.length_cons]; omega))
        · exact many rest htwo (hshorter rest (by simp))
      by_cases hone : c = '?'
      · subst hone
        exact one rest (hshorter rest (by simp))
      by_cases hopen : c = '\x7b'
      · subst hopen
        have halternatives (body : List Char) (hle : body.length ≤ rest.length) :
            ∀ a ∈ body.splitOn ',', motive a := fun a ha =>
          hshorter a (Nat.lt_succ_of_le ((infix_of_mem_splitOn ha).1.length_le.trans hle))
        rcases brace_cases rest with hrest | ⟨body, g, hbody, rfl | rfl⟩
        · exact openGroup rest hrest (halternatives rest le_rfl)
        · refine group body g hbody (halternatives body (by simp)) (hshorter g ?_)
          simp only [List.length_cons, List.length_append]
          omega
        · exact nested body g hbody
      · exact plain c rest ⟨hstar, hone, hopen⟩ (hshorter rest (by simp))

/-! ### Nested groups -/

theorem nests_cons_iff (hc : c ≠ '\x7b') : Nests (c :: g) ↔ Nests g := by
  constructor
  · rintro ⟨before, body, after, heq, hbody⟩
    cases before with
    | nil => exact absurd (List.cons.inj heq).1 hc
    | cons d before => exact ⟨before, body, after, (List.cons.inj heq).2, hbody⟩
  · rintro ⟨before, body, after, rfl, hbody⟩
    exact ⟨c :: before, body, after, rfl, hbody⟩

theorem nests_group_iff (hbody : Braceless body) :
    Nests ('\x7b' :: (body ++ '\x7d' :: g)) ↔ Nests g := by
  constructor
  · rintro ⟨before, inner, after, heq, hinner⟩
    cases before with
    | nil =>
      obtain ⟨x, rfl, -⟩ := exists_of_append_eq (List.cons.inj heq).2.symm hbody.1 (by decide)
      simp at hinner
    | cons e before =>
      obtain ⟨x, -, rfl⟩ := exists_of_append_eq (List.cons.inj heq).2.symm hbody.1 (by decide)
      exact ⟨x, inner, after, rfl, hinner⟩
  · rintro ⟨before, inner, after, rfl, hinner⟩
    exact ⟨'\x7b' :: (body ++ '\x7d' :: before), inner, after, by simp, hinner⟩

theorem not_nests_openGroup (hbody : Braceless body) : ¬ Nests ('\x7b' :: body) := by
  rintro ⟨before, inner, after, heq, -⟩
  cases before with
  | nil =>
    obtain rfl := (List.cons.inj heq).2
    simp [Braceless] at hbody
  | cons e before =>
    obtain rfl := (List.cons.inj heq).2
    simp [Braceless] at hbody

/-- Slashes at the start open no group. -/
theorem nests_dropWhile_iff (pattern : List Char) :
    Nests (pattern.dropWhile (· == '/')) ↔ Nests pattern := by
  induction pattern with
  | nil => rfl
  | cons c g ih =>
    rw [List.dropWhile_cons]
    split
    · rename_i hc
      rw [ih, eq_of_beq hc, nests_cons_iff (by decide)]
    · rfl

theorem not_nests_nil : ¬ Nests [] := by
  rintro ⟨before, inner, after, heq, -⟩
  simp at heq

/-! ### Pieces -/

theorem head?_append_cons_ne (ha : a.head? ≠ some d) (hc : c ≠ d) :
    (a ++ c :: g).head? ≠ some d := by
  cases a with
  | nil => simpa using hc
  | cons e a => exact ha

/-- No piece goes beyond a character that is neither a star nor a slash. -/
theorem pieces_append (hstar : c ≠ '*') (hslash : c ≠ '/') (a : List Char) :
    pieces (a ++ c :: g) = pieces a ++ pieces (c :: g) := by
  fun_induction pieces a with
  | case1 rest ih => rw [List.cons_append, List.cons_append, List.cons_append, pieces, ih]; rfl
  | case2 rest hrest ih =>
    have hhead : rest.head? ≠ some '/' := fun h => by
      obtain ⟨rest, rfl⟩ := List.head?_eq_some_iff.1 h
      exact hrest rest rfl
    rw [List.cons_append, List.cons_append, pieces_deep (head?_append_cons_ne hhead hslash), ih]
    rfl
  | case3 rest _ hrest ih =>
    have hhead : rest.head? ≠ some '*' := fun h => by
      obtain ⟨rest, rfl⟩ := List.head?_eq_some_iff.1 h
      exact hrest rest rfl
    rw [List.cons_append, pieces_many (head?_append_cons_ne hhead hstar), ih]
    rfl
  | case4 rest ih | case5 rest ih | case6 rest ih | case7 rest ih =>
    rw [List.cons_append, pieces, ih]
    rfl
  | case8 c rest _ _ hstar hone hopen hclose hcomma ih =>
    rw [List.cons_append, pieces_plain ⟨hstar, hone, hopen⟩ hclose hcomma, ih]
    rfl
  | case9 => rfl

/-- The symbol that a piece spells, unless it belongs to a group. -/
def Piece.symbol? : Piece → Option Symbol
  | symbol s => some s
  | _ => none

/-- The symbols of an alternative. -/
def symbolsOf (alternative : List Char) : List Symbol :=
  (pieces alternative).filterMap Piece.symbol?

/-- An alternative holds nothing but symbols. -/
theorem pieces_alternative (ha : Braceless a) (hcomma : ',' ∉ a) :
    pieces a = (symbolsOf a).map .symbol := by
  unfold symbolsOf
  fun_induction pieces a with
  | case1 rest ih | case2 rest _ ih | case3 rest _ _ ih | case4 rest ih
  | case8 c rest _ _ _ _ _ _ _ ih =>
    simp only [Braceless, List.mem_cons, not_or] at ha hcomma
    have hrest : Braceless rest := by simp only [Braceless]; tauto
    simp only [List.filterMap_cons, Piece.symbol?, List.map_cons, ← ih hrest (by tauto)]
  | case5 | case6 => simp [Braceless] at ha
  | case7 => simp at hcomma
  | case9 => rfl

/-! ### Parts -/

theorem parts?_some_symbols (open? : OpenGroup) (symbols : List Symbol) (ps : List Piece) :
    parts? (some open?) (symbols.map .symbol ++ ps) =
      parts? (some { open? with current := symbols.reverse ++ open?.current }) ps := by
  induction symbols generalizing open? with
  | nil => rfl
  | cons s symbols ih =>
    rw [List.map_cons, List.cons_append, parts?, ih]
    simp [OpenGroup.push]

/-- The part for a group of alternatives. -/
def groupOf (body : List Char) : Part :=
  .group ((body.splitOn ',').map symbolsOf)

/-- Reading the inside of a group leads to an open group with its alternatives. -/
theorem exists_openGroup {body : List Char} (hbody : Braceless body)
    (complete : List (List Symbol)) :
    ∃ read : OpenGroup,
      read.close = .group (complete.reverse ++ (body.splitOn ',').map symbolsOf) ∧
      ∀ ps, parts? (some ⟨complete, []⟩) (pieces body ++ ps) = parts? (some read) ps := by
  by_cases hcomma : ',' ∈ body
  · obtain ⟨first, rest, rfl, hfirst⟩ := List.eq_append_cons_of_mem hcomma
    simp only [Braceless, List.mem_append, List.mem_cons, not_or] at hbody
    obtain ⟨read, hclose, hread⟩ :=
      @exists_openGroup rest ⟨hbody.1.2.2, hbody.2.2.2⟩ (symbolsOf first :: complete)
    refine ⟨read, ?_, fun ps => ?_⟩
    · rw [hclose, List.splitOn_append_cons_self_of_not_mem hfirst]
      simp
    · rw [pieces_append (by decide) (by decide), pieces_alternative ⟨hbody.1.1, hbody.2.1⟩ hfirst,
        List.append_assoc, parts?_some_symbols, pieces, List.cons_append, parts?, ← hread]
      simp [OpenGroup.next]
  · refine ⟨⟨complete, (symbolsOf body).reverse⟩, ?_, fun ps => ?_⟩
    · simp [OpenGroup.close, OpenGroup.next, List.splitOn_eq_singleton hcomma]
    · rw [pieces_alternative hbody hcomma, parts?_some_symbols, List.append_nil]
termination_by body.length

theorem parse?_group (hbody : Braceless body) :
    parse? ('\x7b' :: (body ++ '\x7d' :: g)) = (parse? g).map (groupOf body :: ·) := by
  obtain ⟨read, hclose, hread⟩ := exists_openGroup hbody []
  rw [parse?, pieces, pieces_append (by decide) (by decide), parts?, pieces, hread, parts?, hclose]
  rfl

theorem parse?_openGroup (hbody : Braceless body) :
    parse? ('\x7b' :: body) = some [groupOf body] := by
  obtain ⟨read, hclose, hread⟩ := exists_openGroup hbody []
  have hnil := hread []
  rw [List.append_nil] at hnil
  rw [parse?, pieces, parts?, hnil, parts?, hclose]
  rfl

theorem parse?_nested (hbody : Braceless body) :
    parse? ('\x7b' :: (body ++ '\x7b' :: g)) = none := by
  obtain ⟨read, -, hread⟩ := exists_openGroup hbody []
  rw [parse?, pieces, pieces_append (by decide) (by decide), parts?, pieces, hread, parts?]

theorem parse?_alternative (hbody : Braceless body) (h : a ∈ body.splitOn ',') :
    parse? a = some ((symbolsOf a).map .symbol) := by
  obtain ⟨ha, hcomma⟩ := infix_of_mem_splitOn h
  rw [parse?, pieces_alternative (hbody.of_infix ha) hcomma, parts?_symbols]

/-- A character outside the groups that is none of the special ones stands for itself. -/
theorem parse?_plain (hc : c ≠ '*' ∧ c ≠ '?' ∧ c ≠ '\x7b') :
    parse? (c :: g) = (parse? g).map (.symbol (.char c) :: ·) := by
  by_cases hclose : c = '\x7d'
  · subst hclose
    rw [parse?, pieces, parts?]
    rfl
  by_cases hcomma : c = ','
  · subst hcomma
    rw [parse?, pieces, parts?]
    rfl
  rw [parse?, pieces_plain hc hclose hcomma, parts?]
  rfl

theorem parse?_one : parse? ('?' :: g) = (parse? g).map (.symbol .one :: ·) := by
  rw [parse?, pieces, parts?]
  rfl

theorem parse?_many (h : g.head? ≠ some '*') :
    parse? ('*' :: g) = (parse? g).map (.symbol .many :: ·) := by
  rw [parse?, pieces_many h, parts?]
  rfl

theorem parse?_deep (h : g.head? ≠ some '/') :
    parse? ('*' :: '*' :: g) = (parse? g).map (.symbol .deep :: ·) := by
  rw [parse?, pieces_deep h, parts?]
  rfl

theorem parse?_directories :
    parse? ('*' :: '*' :: '/' :: g) = (parse? g).map (.symbol .directories :: ·) := by
  rw [parse?, pieces, parts?]
  rfl

/-- The refused patterns are those that open a group inside a group. -/
theorem parse?_eq_none_iff (pattern : List Char) : parse? pattern = none ↔ Nests pattern := by
  induction pattern using pattern_induction with
  | nil => simp [not_nests_nil, parse?, pieces, parts?]
  | plain c g hc ih => rw [parse?_plain hc, Option.map_eq_none_iff, ih, nests_cons_iff hc.2.2]
  | one g ih => rw [parse?_one, Option.map_eq_none_iff, ih, nests_cons_iff (by decide)]
  | many g hg ih => rw [parse?_many hg, Option.map_eq_none_iff, ih, nests_cons_iff (by decide)]
  | deep g hg ih =>
    rw [parse?_deep hg, Option.map_eq_none_iff, ih, nests_cons_iff (by decide),
      nests_cons_iff (by decide)]
  | directories g ih =>
    rw [parse?_directories, Option.map_eq_none_iff, ih, nests_cons_iff (by decide),
      nests_cons_iff (by decide), nests_cons_iff (by decide)]
  | group body g hbody _ ih =>
    rw [parse?_group hbody, Option.map_eq_none_iff, ih, nests_group_iff hbody]
  | openGroup body hbody => simp [parse?_openGroup hbody, not_nests_openGroup hbody]
  | nested body g hbody =>
    exact iff_of_true (parse?_nested hbody) ⟨[], body, g, rfl, hbody.2⟩

instance : DecidablePred Nests := fun pattern =>
  decidable_of_iff (parse? pattern = none) (parse?_eq_none_iff pattern)

/-! ### Balance -/

/-- The brackets of the groups when the pieces are written as an expression, where `inGroup` says
that an opening brace has come and no closing one since then. Every opening brace opens a group; a
closing brace and the end of the pattern close one only after an opening brace. -/
def brackets : (inGroup : Bool) → List Piece → List DyckStep
  | false, [] => []
  | true, [] => [.D]
  | _, .openBrace :: rest => .U :: brackets true rest
  | true, .closeBrace :: rest => .D :: brackets false rest
  | inGroup, _ :: rest => brackets inGroup rest

/-- No group is closed that was not opened. -/
theorem count_take_brackets_le (inGroup : Bool) (ps : List Piece) (i : ℕ) :
    ((brackets inGroup ps).take i).count .D ≤
      ((brackets inGroup ps).take i).count .U + inGroup.toNat := by
  fun_induction brackets inGroup ps generalizing i with
  | case1 => simp
  | case2 => cases i <;> simp
  | case3 inGroup rest ih | case4 rest ih =>
    cases i with
    | zero => simp
    | succ i =>
      have hrest := ih i
      simp only [List.take_succ_cons, List.count_cons_self, Bool.toNat_true, Bool.toNat_false,
        ne_eq, reduceCtorEq, not_false_eq_true, List.count_cons_of_ne] at hrest ⊢
      omega
  | case5 inGroup p rest _ _ ih => exact ih i

theorem count_brackets_le (inGroup : Bool) (ps : List Piece) :
    (brackets inGroup ps).count .D ≤ (brackets inGroup ps).count .U + inGroup.toNat := by
  have hall := count_take_brackets_le inGroup ps (brackets inGroup ps).length
  rwa [List.take_length] at hall

/-- Pieces have no parts exactly if more groups are opened than closed. -/
theorem parts?_eq_none_iff (open? : Option OpenGroup) (ps : List Piece) :
    parts? open? ps = none ↔
      (brackets open?.isSome ps).count .D <
        (brackets open?.isSome ps).count .U + open?.isSome.toNat := by
  fun_induction parts? open? ps with
  | case1 => simp [brackets]
  | case2 => simp [brackets]
  | case3 rest ih => simpa [brackets] using ih
  | case4 g rest =>
    have hrest := count_brackets_le true rest
    simp only [brackets, Option.isSome_some, List.count_cons_self, Bool.toNat_true, ne_eq,
      reduceCtorEq, not_false_eq_true, List.count_cons_of_ne, true_iff] at hrest ⊢
    omega
  | case6 g rest ih => simpa [brackets] using ih
  | case5 rest ih | case7 rest ih | case8 g rest ih | case9 s rest ih | case10 g s rest ih =>
    simpa [brackets] using ih

/-- The refused patterns are those that are not balanced when they are written as expressions. -/
theorem parse?_eq_none_iff_unbalanced (pattern : List Char) :
    parse? pattern = none ↔ ¬ ∃ w : DyckWord, w.toList = brackets false (pieces pattern) := by
  rw [parse?, parts?_eq_none_iff]
  constructor
  · rintro hopen ⟨w, hw⟩
    have hsame := w.count_U_eq_count_D
    rw [hw] at hsame
    simp [hsame] at hopen
  · intro h
    by_contra hopen
    have hsame := (not_lt.1 hopen).antisymm (count_brackets_le false (pieces pattern))
    exact h ⟨⟨_, hsame, count_take_brackets_le false (pieces pattern)⟩, rfl⟩

/-! ### The language of a pattern -/

/-- A group describes what the alternatives describe that it was read from. -/
theorem mem_groupOf_iff :
    text ∈ (groupOf body).language ↔
      ∃ a ∈ body.splitOn ',', text ∈ sequenceLanguage (symbolsOf a) := by
  rw [groupOf, Part.language, List.map_map, mem_sum_iff]
  simp

/-- The parts describe what the characters describe. -/
theorem mem_of_describes (h : Describes g text) :
    ∀ parts, parse? g = some parts → text ∈ partsLanguage parts := by
  -- the first part describes the piece of the text that the derivation splits off
  have hcons {p : Part} {s t : List Char} {rest : Option (List Part)} (hs : s ∈ p.language)
      (ht : ∀ parts, rest = some parts → t ∈ partsLanguage parts) :
      ∀ parts, rest.map (p :: ·) = some parts → s ++ t ∈ partsLanguage parts := by
    rintro _ hparts
    obtain ⟨parts, hrest, rfl⟩ := Option.map_eq_some_iff.1 hparts
    rw [partsLanguage_cons]
    exact Language.append_mem_mul hs (ht parts hrest)
  have hgroup {body a s : List Char} (hbody : Braceless body) (hmem : a ∈ body.splitOn ',')
      (hs : ∀ parts, parse? a = some parts → s ∈ partsLanguage parts) :
      s ∈ (groupOf body).language := by
    refine mem_groupOf_iff.2 ⟨a, hmem, ?_⟩
    rw [← partsLanguage_symbols]
    exact hs _ (parse?_alternative hbody hmem)
  induction h with
  | nil =>
    rintro _ ⟨⟩
    exact rfl
  | plain hc hd _ ih =>
    rw [parse?_plain hc]
    exact hcons (s := [_]) ⟨_, hd, rfl⟩ ih
  | one hd _ ih =>
    rw [parse?_one]
    exact hcons (s := [_]) ⟨_, bne_iff_ne.2 hd, rfl⟩ ih
  | many hg hs _ ih =>
    rw [parse?_many hg]
    exact hcons (mem_every_bne.2 hs) ih
  | deep hg hs _ ih =>
    rw [parse?_deep hg]
    exact hcons (mem_every_bne.2 hs) ih
  | noDirectory _ ih =>
    rw [parse?_directories]
    exact hcons (s := []) (mem_directories_iff.2 (.inl rfl)) ih
  | @directories g s t hs _ ih =>
    rw [parse?_directories, ← List.singleton_append, ← List.append_assoc]
    exact hcons (mem_directories_iff.2 (.inr ⟨s, hs, rfl⟩)) ih
  | group hbody hmem _ _ ihs iht =>
    rw [parse?_group hbody]
    exact hcons (hgroup hbody hmem ihs) iht
  | openGroup hbody hmem _ ihs =>
    rw [parse?_openGroup hbody]
    rintro _ ⟨⟩
    rw [partsLanguage_cons, partsLanguage, List.map_nil, List.prod_nil, mul_one]
    exact hgroup hbody hmem ihs

/-- The characters describe what the parts describe. -/
theorem describes_of_mem (g : List Char) :
    ∀ parts text, parse? g = some parts → text ∈ partsLanguage parts → Describes g text := by
  -- a text that is described by the parts begins with a piece that the first part describes
  have hsplit {p : Part} {rest : Option (List Part)} {parts : List Part} {text : List Char}
      (hparts : rest.map (p :: ·) = some parts) (hmem : text ∈ partsLanguage parts) :
      ∃ s t others, text = s ++ t ∧ s ∈ p.language ∧ rest = some others ∧
        t ∈ partsLanguage others := by
    obtain ⟨others, hrest, rfl⟩ := Option.map_eq_some_iff.1 hparts
    rw [partsLanguage_cons] at hmem
    obtain ⟨s, hs, t, ht, rfl⟩ := hmem
    exact ⟨s, t, others, rfl, hs, hrest, ht⟩
  have hgroup {body s : List Char} (hbody : Braceless body)
      (ih : ∀ a ∈ body.splitOn ',', ∀ parts text, parse? a = some parts →
        text ∈ partsLanguage parts → Describes a text)
      (hs : s ∈ (groupOf body).language) : ∃ a ∈ body.splitOn ',', Describes a s := by
    obtain ⟨a, hmem, hs⟩ := mem_groupOf_iff.1 hs
    rw [← partsLanguage_symbols] at hs
    exact ⟨a, hmem, ih a hmem _ s (parse?_alternative hbody hmem) hs⟩
  induction g using pattern_induction with
  | nil =>
    rintro _ text ⟨⟩ hmem
    obtain rfl : text = [] := hmem
    exact .nil
  | plain c g hc ih =>
    intro parts text hparts hmem
    rw [parse?_plain hc] at hparts
    obtain ⟨_, t, others, rfl, ⟨d, hd, rfl⟩, hrest, ht⟩ := hsplit hparts hmem
    exact .plain hc hd (ih others t hrest ht)
  | one g ih =>
    intro parts text hparts hmem
    rw [parse?_one] at hparts
    obtain ⟨_, t, others, rfl, ⟨d, hd, rfl⟩, hrest, ht⟩ := hsplit hparts hmem
    exact .one (bne_iff_ne.1 hd) (ih others t hrest ht)
  | many g hg ih =>
    intro parts text hparts hmem
    rw [parse?_many hg] at hparts
    obtain ⟨s, t, others, rfl, hs, hrest, ht⟩ := hsplit hparts hmem
    exact .many hg (mem_every_bne.1 hs) (ih others t hrest ht)
  | deep g hg ih =>
    intro parts text hparts hmem
    rw [parse?_deep hg] at hparts
    obtain ⟨s, t, others, rfl, hs, hrest, ht⟩ := hsplit hparts hmem
    exact .deep hg (mem_every_bne.1 hs) (ih others t hrest ht)
  | directories g ih =>
    intro parts text hparts hmem
    rw [parse?_directories] at hparts
    obtain ⟨s, t, others, rfl, hs, hrest, ht⟩ := hsplit hparts hmem
    rcases mem_directories_iff.1 hs with rfl | ⟨names, hnames, rfl⟩
    · exact .noDirectory (ih others t hrest ht)
    · rw [List.append_assoc]
      exact .directories hnames (ih others t hrest ht)
  | group body g hbody ihbody ih =>
    intro parts text hparts hmem
    rw [parse?_group hbody] at hparts
    obtain ⟨s, t, others, rfl, hs, hrest, ht⟩ := hsplit hparts hmem
    obtain ⟨a, ha, hs⟩ := hgroup hbody ihbody hs
    exact .group hbody ha hs (ih others t hrest ht)
  | openGroup body hbody ihbody =>
    intro parts text hparts hmem
    rw [parse?_openGroup hbody] at hparts
    obtain rfl := Option.some.inj hparts
    rw [partsLanguage_cons, partsLanguage, List.map_nil, List.prod_nil, mul_one] at hmem
    obtain ⟨a, ha, hs⟩ := hgroup hbody ihbody hmem
    exact .openGroup hbody ha hs
  | nested body g hbody =>
    intro parts text hparts
    rw [parse?_nested hbody] at hparts
    cases hparts

/-- A text is accepted by a pattern exactly when the pattern describes it. -/
theorem accepts_parse?_iff (h : parse? g = some parts) (text : List Char) :
    accepts parts text = true ↔ Describes g text := by
  rw [accepts_iff]
  exact ⟨describes_of_mem g parts text h, fun hd => mem_of_describes hd parts h⟩

end Steplib.Glob
