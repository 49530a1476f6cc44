import Mathlib.Computability.Language
import Mathlib.Data.List.TakeWhile
import Steplib.Token.Lexeme

/-!
# The patterns of lexemes

Every class of lexemes is declared by a pattern, which is a language over characters. At each place
of a source the lexeme is the longest piece of the remaining text that some pattern allows. No two
patterns allow the same text, so that this piece also decides the class.

## Main definitions

* `Pattern.language`: the texts that a pattern allows.
* `Pattern.Longest`: a piece of text is the longest one that any pattern allows at its place.

## Main results

* `Pattern.Longest.unique`: at each place there is one longest piece at most, and of one class.
* `Pattern.longest_word`, `Pattern.longest_closed` and the like: the piece that is read for a word,
  for a literal and for every other lexeme is the longest one.
-/

open scoped Computability

namespace Steplib

/-- The classes of text into which a source is cut. -/
inductive Pattern
  | space
  | lineBreak
  | comment
  | word
  | integer
  | decimal
  | string
  | unterminated
  | mark (mark : Mark)
deriving DecidableEq

namespace Pattern

open Lexeme

/-! ### The languages -/

/-- The texts of one character with the property `p`. -/
def one (p : Char → Bool) : Language Char :=
  {cs | ∃ c, p c = true ∧ cs = [c]}

/-- The texts of one or more characters with the property `p`. -/
def several (p : Char → Bool) : Language Char :=
  one p * (one p)∗

/-- The texts that can stand between single quotes; a single quote in them is doubled. -/
def singleQuoted : Language Char :=
  (one (fun c => c != '\'' && c != '\n') + {['\'', '\'']})∗

/-- The texts that can stand between double quotes. -/
def doubleQuoted : Language Char :=
  (one fun c => c != '"' && c != '\n')∗

/-- The texts that the pattern allows. -/
def language : Pattern → Language Char
  | space => several isSpace
  | lineBreak => (1 + {['\r']}) * {['\n']}
  | comment => {['/', '*']} * (one (· != '\n'))∗
  | word =>
    one isWordStart * (one isWordPart)∗ +
      {['+']} * (one (fun c => c.isAlpha || c == '#') * (one isWordPart)∗)
  | integer => several Char.isDigit
  | decimal => (one Char.isDigit)∗ * ({['.']} * several Char.isDigit)
  | string => {['\'']} * (singleQuoted * {['\'']}) + {['"']} * (doubleQuoted * {['"']})
  | unterminated => {['\'']} * singleQuoted + {['"']} * doubleQuoted
  | mark m => one fun c => Mark.ofChar? c == some m

variable {p : Char → Bool} {l : Language Char} {c : Char} {cs : List Char}

theorem mem_one : cs ∈ one p ↔ ∃ c, p c = true ∧ cs = [c] :=
  Iff.rfl

theorem cons_mem_one_mul : c :: cs ∈ one p * l ↔ p c = true ∧ cs ∈ l := by
  rw [Language.mem_mul]
  constructor
  · rintro ⟨_, ⟨d, hd, rfl⟩, rest, hrest, heq⟩
    obtain ⟨rfl, rfl⟩ := List.cons.inj heq
    exact ⟨hd, hrest⟩
  · rintro ⟨hc, hcs⟩
    exact ⟨[c], ⟨c, hc, rfl⟩, cs, hcs, rfl⟩

theorem nil_notMem_one_mul : [] ∉ one p * l := by
  rw [Language.mem_mul]
  rintro ⟨_, ⟨d, -, rfl⟩, rest, -, heq⟩
  simp at heq

theorem cons_mem_singleton_mul {d : Char} {w : List Char} :
    c :: cs ∈ ({d :: w} : Language Char) * l ↔ c = d ∧ ∃ rest ∈ l, cs = w ++ rest := by
  rw [Language.mem_mul]
  constructor
  · rintro ⟨_, rfl, rest, hrest, heq⟩
    obtain ⟨rfl, rfl⟩ := List.cons.inj heq
    exact ⟨rfl, rest, hrest, rfl⟩
  · rintro ⟨rfl, rest, hrest, rfl⟩
    exact ⟨c :: w, rfl, rest, hrest, rfl⟩

theorem nil_notMem_singleton_mul {d : Char} {w : List Char} :
    [] ∉ ({d :: w} : Language Char) * l := by
  rw [Language.mem_mul]
  rintro ⟨_, rfl, rest, -, heq⟩
  simp at heq

theorem mem_mul_singleton {w : List Char} : cs ∈ l * ({w} : Language Char) ↔
    ∃ body ∈ l, cs = body ++ w := by
  rw [Language.mem_mul]
  constructor
  · rintro ⟨body, hbody, _, rfl, rfl⟩
    exact ⟨body, hbody, rfl⟩
  · rintro ⟨body, hbody, rfl⟩
    exact ⟨body, hbody, w, rfl, rfl⟩

/-- A text that is repeated is empty or starts with one repetition. -/
theorem mem_kstar_iff : cs ∈ l∗ ↔ cs = [] ∨ cs ∈ l * l∗ := by
  conv_lhs => rw [← Language.one_add_self_mul_kstar_eq_kstar, Language.mem_add, Language.mem_one]

theorem mem_kstar_one : cs ∈ (one p)∗ ↔ ∀ c ∈ cs, p c = true := by
  induction cs with
  | nil => simpa using Language.nil_mem_kstar _
  | cons c cs ih => rw [mem_kstar_iff, cons_mem_one_mul, ih]; simp

theorem cons_mem_several : c :: cs ∈ several p ↔ p c = true ∧ ∀ d ∈ cs, p d = true := by
  rw [several, cons_mem_one_mul, mem_kstar_one]

theorem mem_several : cs ∈ several p ↔ cs ≠ [] ∧ ∀ c ∈ cs, p c = true := by
  cases cs with
  | nil => simpa [several] using nil_notMem_one_mul
  | cons c cs => simp [cons_mem_several]

theorem mem_doubleQuoted : cs ∈ doubleQuoted ↔ ∀ c ∈ cs, c ≠ '"' ∧ c ≠ '\n' := by
  simp [doubleQuoted, mem_kstar_one]

theorem nil_mem_singleQuoted : [] ∈ singleQuoted :=
  Language.nil_mem_kstar _

/-- Between single quotes stand other characters and pairs of single quotes. -/
theorem cons_mem_singleQuoted : c :: cs ∈ singleQuoted ↔
    c ≠ '\'' ∧ c ≠ '\n' ∧ cs ∈ singleQuoted ∨
      c = '\'' ∧ ∃ rest ∈ singleQuoted, cs = '\'' :: rest := by
  rw [singleQuoted, mem_kstar_iff, add_mul, Language.mem_add, cons_mem_one_mul,
    cons_mem_singleton_mul, ← singleQuoted]
  simp [and_assoc]

/-! ### The texts of each pattern, by their first character -/

theorem nil_notMem_language (q : Pattern) : [] ∉ q.language := by
  cases q with
  | space | integer => exact nil_notMem_one_mul
  | comment => exact nil_notMem_singleton_mul
  | word | string | unterminated =>
    simp only [language, Language.mem_add, nil_notMem_singleton_mul, nil_notMem_one_mul, or_self,
      not_false_eq_true]
  | lineBreak =>
    rw [language, Language.mem_mul]
    rintro ⟨_, -, _, rfl, heq⟩
    simp at heq
  | decimal =>
    rw [language, Language.mem_mul]
    rintro ⟨whole, -, fraction, hfraction, heq⟩
    obtain rfl := (List.append_eq_nil_iff.1 heq).2
    exact nil_notMem_singleton_mul hfraction
  | mark m => simp [language, mem_one]

theorem cons_mem_lineBreak :
    c :: cs ∈ lineBreak.language ↔ c = '\n' ∧ cs = [] ∨ c = '\r' ∧ cs = ['\n'] := by
  rw [language, add_mul, one_mul, Language.mem_add, cons_mem_singleton_mul]
  exact or_congr ⟨List.cons.inj, fun h => by rw [h.1, h.2]; rfl⟩
    (and_congr_right fun _ => ⟨fun ⟨_, hrest, heq⟩ => by obtain rfl := hrest; exact heq,
      fun heq => ⟨_, rfl, heq⟩⟩)

theorem cons_mem_comment :
    c :: cs ∈ comment.language ↔ c = '/' ∧ ∃ body, cs = '*' :: body ∧ '\n' ∉ body := by
  simp only [language, cons_mem_singleton_mul, mem_kstar_one, bne_iff_ne]
  refine and_congr_right fun _ => exists_congr fun body => ?_
  rw [and_comm, List.singleton_append]
  exact and_congr_right fun _ => ⟨fun h hbody => h _ hbody rfl, fun h d hd heq => h (heq ▸ hd)⟩

theorem cons_mem_word :
    c :: cs ∈ word.language ↔
      isWordStart c = true ∧ (∀ d ∈ cs, isWordPart d = true) ∨
        c = '+' ∧ ∃ d body, cs = d :: body ∧ (d.isAlpha || d == '#') = true ∧
          ∀ e ∈ body, isWordPart e = true := by
  rw [language, Language.mem_add, cons_mem_one_mul, cons_mem_singleton_mul, mem_kstar_one]
  refine or_congr_right (and_congr_right fun _ => ?_)
  cases cs with
  | nil => simp [nil_notMem_one_mul]
  | cons d body => simp [cons_mem_one_mul, mem_kstar_one]

theorem cons_mem_decimal :
    c :: cs ∈ decimal.language ↔
      c = '.' ∧ cs ≠ [] ∧ (∀ d ∈ cs, d.isDigit = true) ∨
        c.isDigit = true ∧ ∃ whole fraction, cs = whole ++ '.' :: fraction ∧
          (∀ d ∈ whole, d.isDigit = true) ∧ fraction ≠ [] ∧ ∀ d ∈ fraction, d.isDigit = true := by
  rw [language, Language.mem_mul]
  constructor
  · rintro ⟨whole, hwhole, rest, hrest, heq⟩
    cases rest with
    | nil => exact absurd hrest nil_notMem_singleton_mul
    | cons dot fraction =>
      obtain ⟨rfl, _, hfraction, rfl⟩ := cons_mem_singleton_mul.1 hrest
      rw [mem_several] at hfraction
      rw [mem_kstar_one] at hwhole
      cases whole with
      | nil =>
        obtain ⟨rfl, rfl⟩ := List.cons.inj heq
        exact .inl ⟨rfl, hfraction⟩
      | cons d whole =>
        obtain ⟨rfl, rfl⟩ := List.cons.inj heq
        obtain ⟨hd, hwhole⟩ := List.forall_mem_cons.1 hwhole
        exact .inr ⟨hd, whole, _, rfl, hwhole, hfraction⟩
  · rintro (⟨rfl, hcs⟩ | ⟨hc, whole, fraction, rfl, hwhole, hfraction⟩)
    · exact ⟨[], Language.nil_mem_kstar _, _,
        cons_mem_singleton_mul.2 ⟨rfl, cs, mem_several.2 hcs, rfl⟩, rfl⟩
    · exact ⟨c :: whole, mem_kstar_one.2 (List.forall_mem_cons.2 ⟨hc, hwhole⟩), _,
        cons_mem_singleton_mul.2 ⟨rfl, fraction, mem_several.2 hfraction, rfl⟩, rfl⟩

theorem cons_mem_string :
    c :: cs ∈ string.language ↔
      c = '\'' ∧ (∃ body ∈ singleQuoted, cs = body ++ ['\'']) ∨
        c = '"' ∧ ∃ body ∈ doubleQuoted, cs = body ++ ['"'] := by
  simp only [language, Language.mem_add, cons_mem_singleton_mul, mem_mul_singleton,
    List.nil_append, exists_eq_right']

theorem cons_mem_unterminated :
    c :: cs ∈ unterminated.language ↔
      c = '\'' ∧ cs ∈ singleQuoted ∨ c = '"' ∧ cs ∈ doubleQuoted := by
  simp only [language, Language.mem_add, cons_mem_singleton_mul, List.nil_append, exists_eq_right']

theorem cons_mem_mark {m : Mark} :
    c :: cs ∈ (mark m).language ↔ Mark.ofChar? c = some m ∧ cs = [] := by
  simp [language, mem_one]

/-! ### Line feeds -/

/-- A character with a property differs from one without it. -/
theorem ne_of_property {d : Char} (hc : p c = true) (hd : p d = false) : c ≠ d := by
  rintro rfl
  simp [hc] at hd

theorem lineFeed_notMem_of_property (hp : p '\n' = false) (h : ∀ d ∈ cs, p d = true) :
    '\n' ∉ cs := by
  intro hmem
  rw [h _ hmem] at hp
  cases hp

theorem lineFeed_notMem_singleQuoted {cs : List Char} (h : cs ∈ singleQuoted) : '\n' ∉ cs := by
  match cs with
  | [] => exact List.not_mem_nil
  | c :: cs =>
    rw [List.mem_cons, not_or]
    rcases cons_mem_singleQuoted.1 h with ⟨-, hc, hcs⟩ | ⟨rfl, rest, hrest, rfl⟩
    · exact ⟨hc.symm, lineFeed_notMem_singleQuoted hcs⟩
    · rw [List.mem_cons, not_or]
      exact ⟨by decide, by decide, lineFeed_notMem_singleQuoted hrest⟩

theorem lineFeed_notMem_doubleQuoted (h : cs ∈ doubleQuoted) : '\n' ∉ cs :=
  fun hmem => (mem_doubleQuoted.1 h _ hmem).2 rfl

/-- Only a line break holds a line feed. -/
theorem lineFeed_notMem_language {q : Pattern} (hq : q ≠ lineBreak) (h : cs ∈ q.language) :
    '\n' ∉ cs := by
  cases cs with
  | nil => exact List.not_mem_nil
  | cons c cs =>
    cases q with
    | space | integer => exact lineFeed_notMem_of_property rfl (mem_several.1 h).2
    | lineBreak => exact absurd rfl hq
    | comment =>
      obtain ⟨rfl, body, rfl, hbody⟩ := cons_mem_comment.1 h
      simpa using hbody
    | word =>
      rcases cons_mem_word.1 h with ⟨hc, hcs⟩ | ⟨rfl, d, body, rfl, hd, hbody⟩
      · have hne : c ≠ '\n' := ne_of_property hc rfl
        simp [lineFeed_notMem_of_property rfl hcs, hne.symm]
      · have hne : d ≠ '\n' := by
          rintro rfl
          exact absurd hd (by decide)
        simp [lineFeed_notMem_of_property rfl hbody, hne.symm]
    | decimal =>
      rcases cons_mem_decimal.1 h with
        ⟨rfl, -, hcs⟩ | ⟨hc, whole, fraction, rfl, hwhole, -, hfraction⟩
      · simp [lineFeed_notMem_of_property rfl hcs]
      · have hne : c ≠ '\n' := ne_of_property hc rfl
        simp [lineFeed_notMem_of_property rfl hwhole, lineFeed_notMem_of_property rfl hfraction,
          hne.symm]
    | string =>
      rcases cons_mem_string.1 h with ⟨rfl, body, hbody, rfl⟩ | ⟨rfl, body, hbody, rfl⟩
      · simp [lineFeed_notMem_singleQuoted hbody]
      · simp [lineFeed_notMem_doubleQuoted hbody]
    | unterminated =>
      rcases cons_mem_unterminated.1 h with ⟨rfl, hbody⟩ | ⟨rfl, hbody⟩
      · simp [lineFeed_notMem_singleQuoted hbody]
      · simp [lineFeed_notMem_doubleQuoted hbody]
    | mark m =>
      obtain ⟨hc, rfl⟩ := cons_mem_mark.1 h
      rw [List.mem_singleton]
      rintro rfl
      cases hc

theorem lineFeed_mem_lineBreak (h : cs ∈ lineBreak.language) : '\n' ∈ cs := by
  cases cs with
  | nil => exact absurd h (nil_notMem_language _)
  | cons c cs => rcases cons_mem_lineBreak.1 h with ⟨rfl, rfl⟩ | ⟨rfl, rfl⟩ <;> simp

/-! ### The patterns that a text can belong to -/

theorem not_isSpace_of_property (hc : p c = true)
    (h : p ' ' = false ∧ p '\t' = false ∧ p '\x0c' = false ∧ p '\r' = false) :
    isSpace c = false := by
  simp only [isSpace, beq_false_of_ne (ne_of_property hc h.1), beq_false_of_ne
    (ne_of_property hc h.2.1), beq_false_of_ne (ne_of_property hc h.2.2.1),
    beq_false_of_ne (ne_of_property hc h.2.2.2), Bool.or_self]

theorem not_isAlpha_of_isDigit (h : c.isDigit = true) : c.isAlpha = false := by
  have bounds : '9'.val.toNat = 57 ∧ 'A'.val.toNat = 65 ∧ 'a'.val.toNat = 97 := ⟨rfl, rfl, rfl⟩
  unfold Char.isAlpha Char.isUpper Char.isLower
  simp only [Char.isDigit, Bool.and_eq_true, decide_eq_true_eq, Bool.or_eq_false_iff,
    Bool.and_eq_false_iff, decide_eq_false_iff_not, UInt32.le_iff_toNat_le, ge_iff_le] at *
  omega

theorem not_isWordStart_of_isDigit (h : c.isDigit = true) : isWordStart c = false := by
  have hhash : c ≠ '#' := ne_of_property h rfl
  have hand : c ≠ '&' := ne_of_property h rfl
  simp [isWordStart, not_isAlpha_of_isDigit h, hhash, hand]

/-- The patterns whose texts can start with a character. -/
def candidates (c : Char) : List Pattern :=
  if isSpace c then if c = '\r' then [space, lineBreak] else [space]
  else if c = '\n' then [lineBreak]
  else if c = '/' then [comment, mark .slash]
  else if isWordStart c then [word]
  else if c = '+' then [word, mark .plus]
  else if c.isDigit then [integer, decimal]
  else if c = '.' then [decimal, mark .dot]
  else if c = '\'' ∨ c = '"' then [string, unterminated]
  else ((Mark.ofChar? c).map mark).toList

theorem candidates_of_isDigit (hc : c.isDigit = true) : candidates c = [integer, decimal] := by
  have hspace := not_isSpace_of_property hc ⟨rfl, rfl, rfl, rfl⟩
  have hbreak : c ≠ '\n' := ne_of_property hc rfl
  have hslash : c ≠ '/' := ne_of_property hc rfl
  have hplus : c ≠ '+' := ne_of_property hc rfl
  simp [candidates, hspace, hbreak, hslash, hplus, not_isWordStart_of_isDigit hc, hc]

theorem candidates_of_isWordStart (hc : isWordStart c = true) : candidates c = [word] := by
  have hspace := not_isSpace_of_property hc ⟨rfl, rfl, rfl, rfl⟩
  have hbreak : c ≠ '\n' := ne_of_property hc rfl
  have hslash : c ≠ '/' := ne_of_property hc rfl
  simp [candidates, hspace, hbreak, hslash, hc]

theorem candidates_of_isSpace {q : Pattern} (hc : isSpace c = true) (hq : q ∈ candidates c) :
    q = space ∨ q = lineBreak := by
  unfold candidates at hq
  rw [if_pos hc] at hq
  split at hq
  · simpa using hq
  · exact .inl (by simpa using hq)

/-- A mark can be the start of a comment, a word or a number, but of nothing else. -/
theorem candidates_of_mark {q : Pattern} {m : Mark} (hc : Mark.ofChar? c = some m)
    (hq : q ∈ candidates c) :
    q = mark m ∨ q = comment ∧ c = '/' ∨ q = word ∧ c = '+' ∨ q = decimal ∧ c = '.' := by
  revert q
  unfold Mark.ofChar? at hc
  split at hc <;> cases hc <;> decide

theorem mem_candidates {q : Pattern} (h : c :: cs ∈ q.language) : q ∈ candidates c := by
  cases q with
  | space =>
    have hc := (cons_mem_several.1 h).1
    unfold candidates
    rw [if_pos hc]
    split <;> simp
  | lineBreak =>
    rcases cons_mem_lineBreak.1 h with ⟨rfl, -⟩ | ⟨rfl, -⟩ <;> decide
  | comment =>
    obtain ⟨rfl, -⟩ := cons_mem_comment.1 h
    decide
  | word =>
    rcases cons_mem_word.1 h with ⟨hc, -⟩ | ⟨rfl, -⟩
    · simp [candidates_of_isWordStart hc]
    · decide
  | integer => simp [candidates_of_isDigit (cons_mem_several.1 h).1]
  | decimal =>
    rcases cons_mem_decimal.1 h with ⟨rfl, -⟩ | ⟨hc, -⟩
    · decide
    · simp [candidates_of_isDigit hc]
  | string => rcases cons_mem_string.1 h with ⟨rfl, -⟩ | ⟨rfl, -⟩ <;> decide
  | unterminated => rcases cons_mem_unterminated.1 h with ⟨rfl, -⟩ | ⟨rfl, -⟩ <;> decide
  | mark m =>
    have hm := (cons_mem_mark.1 h).1
    unfold Mark.ofChar? at hm
    split at hm <;> cases hm <;> decide

/-! ### The longest piece -/

/-- The piece belongs to the pattern, and every other piece that some pattern allows at the start of
the text is shorter. -/
structure Longest (p : Pattern) (piece rest : List Char) : Prop where
  mem : piece ∈ p.language
  shorter (q : Pattern) (other : List Char) (hq : other ∈ q.language)
    (hstarts : other <+: piece ++ rest) : q = p ∧ other = piece ∨ other.length < piece.length

variable {q : Pattern} {piece rest : List Char}

/-- Only the patterns that fit the first character have to be compared. -/
theorem Longest.of_candidates (hmem : c :: piece ∈ q.language)
    (h : ∀ q' ∈ candidates c, ∀ other, c :: other ∈ q'.language → other <+: piece ++ rest →
      q' = q ∧ other = piece ∨ other.length < piece.length) : Longest q (c :: piece) rest where
  mem := hmem
  shorter q' other hq' hstarts := by
    cases other with
    | nil => exact absurd hq' (nil_notMem_language q')
    | cons d other =>
      rw [List.cons_append, List.cons_prefix_cons] at hstarts
      obtain ⟨rfl, hstarts⟩ := hstarts
      rcases h q' (mem_candidates hq') other hq' hstarts with ⟨rfl, rfl⟩ | hlt
      · exact .inl ⟨rfl, rfl⟩
      · exact .inr (Nat.succ_lt_succ hlt)

/-- A text starts with at most one longest piece. -/
theorem Longest.unique {q' : Pattern} {other more : List Char} (h : Longest q piece rest)
    (h' : Longest q' other more) (heq : piece ++ rest = other ++ more) :
    q' = q ∧ other = piece ∧ more = rest := by
  have hstarts : other <+: piece ++ rest := heq ▸ List.prefix_append other more
  have hstarts' : piece <+: other ++ more := heq ▸ List.prefix_append piece rest
  rcases h.shorter q' other h'.mem hstarts with ⟨rfl, rfl⟩ | hlt
  · exact ⟨rfl, rfl, (List.append_cancel_left heq).symm⟩
  · rcases h'.shorter q piece h.mem hstarts' with ⟨rfl, rfl⟩ | hgt
    · exact absurd hlt (lt_irrefl _)
    · exact absurd hlt hgt.not_gt

/-- A run of characters with a property is not longer than the longest one. -/
theorem run_eq_or_lt {other : List Char} (hother : ∀ d ∈ other, p d = true)
    (hstarts : other <+: cs) :
    other = cs.takeWhile p ∨ other.length < (cs.takeWhile p).length := by
  obtain ⟨more, rfl⟩ := hstarts
  rw [List.takeWhile_append_of_pos hother, List.length_append]
  cases more.takeWhile p with
  | nil => exact .inl (List.append_nil other).symm
  | cons d ds => exact .inr (by simp)

theorem longest_space (hc : isSpace c = true) (hreturn : ¬(c = '\r' ∧ cs.head? = some '\n')) :
    Longest space (c :: cs.takeWhile isSpace) (cs.dropWhile isSpace) := by
  refine .of_candidates (cons_mem_several.2 ⟨hc, fun d => List.mem_takeWhile_imp⟩)
    fun q' hq' other hother hstarts => ?_
  rw [List.takeWhile_append_dropWhile] at hstarts
  rcases candidates_of_isSpace hc hq' with rfl | rfl
  · exact (run_eq_or_lt (cons_mem_several.1 hother).2 hstarts).imp_left fun h => ⟨rfl, h⟩
  · rcases cons_mem_lineBreak.1 hother with ⟨rfl, -⟩ | ⟨rfl, rfl⟩
    · simp [isSpace] at hc
    · obtain ⟨more, rfl⟩ := hstarts
      exact absurd ⟨rfl, rfl⟩ hreturn

theorem longest_lineBreak (cs : List Char) : Longest lineBreak ['\n'] cs := by
  refine .of_candidates (cons_mem_lineBreak.2 (.inl ⟨rfl, rfl⟩)) fun q' hq' other hother _ => ?_
  obtain rfl := List.mem_singleton.1 hq'
  rcases cons_mem_lineBreak.1 hother with ⟨-, rfl⟩ | ⟨h, -⟩
  · exact .inl ⟨rfl, rfl⟩
  · simp at h

theorem longest_return (cs : List Char) : Longest lineBreak ['\r', '\n'] cs := by
  refine .of_candidates (cons_mem_lineBreak.2 (.inr ⟨rfl, rfl⟩))
    fun q' hq' other hother hstarts => ?_
  rcases candidates_of_isSpace rfl hq' with rfl | rfl
  · -- the blanks end before the line feed
    have hall := (cons_mem_several.1 hother).2
    cases other with
    | nil => exact .inr Nat.one_pos
    | cons d other =>
      obtain ⟨rfl, -⟩ := List.cons_prefix_cons.1 hstarts
      simp [isSpace] at hall
  · rcases cons_mem_lineBreak.1 hother with ⟨h, -⟩ | ⟨-, rfl⟩
    · simp at h
    · exact .inl ⟨rfl, rfl⟩

theorem longest_comment (cs : List Char) :
    Longest comment ('/' :: '*' :: cs.takeWhile (· != '\n')) (cs.dropWhile (· != '\n')) := by
  refine .of_candidates (cons_mem_comment.2 ⟨rfl, _, rfl, fun h => ?_⟩)
    fun q' hq' other hother hstarts => ?_
  · simpa using List.mem_takeWhile_imp h
  rw [List.cons_append, List.takeWhile_append_dropWhile] at hstarts
  have hq' : q' ∈ [comment, mark .slash] := hq'
  rcases List.mem_pair.1 hq' with rfl | rfl
  · obtain ⟨-, body, rfl, hbody⟩ := cons_mem_comment.1 hother
    have hall : ∀ d ∈ body, (d != '\n') = true := fun d hd => by
      rw [bne_iff_ne]
      exact fun h => hbody (h ▸ hd)
    rcases run_eq_or_lt hall (List.cons_prefix_cons.1 hstarts).2 with h | h
    · exact .inl ⟨rfl, by rw [h]⟩
    · exact .inr (Nat.succ_lt_succ h)
  · obtain ⟨-, rfl⟩ := cons_mem_mark.1 hother
    exact .inr (Nat.succ_pos _)

theorem longest_word (hc : isWordStart c = true) :
    Longest word (c :: cs.takeWhile isWordPart) (cs.dropWhile isWordPart) := by
  refine .of_candidates (cons_mem_word.2 (.inl ⟨hc, fun d => List.mem_takeWhile_imp⟩))
    fun q' hq' other hother hstarts => ?_
  rw [List.takeWhile_append_dropWhile] at hstarts
  rw [candidates_of_isWordStart hc, List.mem_singleton] at hq'
  subst hq'
  rcases cons_mem_word.1 hother with ⟨-, hall⟩ | ⟨rfl, -⟩
  · exact (run_eq_or_lt hall hstarts).imp_left fun h => ⟨rfl, h⟩
  · exact absurd hc (by decide)

/-- A word after a plus sign starts with a letter or a number sign. -/
theorem isWordPart_of_afterPlus (hc : (c.isAlpha || c == '#') = true) : isWordPart c = true := by
  simp only [isWordPart, Char.isAlphanum, Bool.or_eq_true] at hc ⊢
  tauto

theorem longest_plus {d : Char} (hd : (d.isAlpha || d == '#') = true) :
    Longest word ('+' :: d :: cs.takeWhile isWordPart) (cs.dropWhile isWordPart) := by
  refine .of_candidates
    (cons_mem_word.2 (.inr ⟨rfl, d, _, rfl, hd, fun e => List.mem_takeWhile_imp⟩))
    fun q' hq' other hother hstarts => ?_
  rw [List.cons_append, List.takeWhile_append_dropWhile] at hstarts
  have hq' : q' ∈ [word, mark .plus] := hq'
  rcases List.mem_pair.1 hq' with rfl | rfl
  · rcases cons_mem_word.1 hother with ⟨h, -⟩ | ⟨-, e, body, rfl, -, hall⟩
    · exact absurd h (by decide)
    · obtain ⟨rfl, hbody⟩ := List.cons_prefix_cons.1 hstarts
      rcases run_eq_or_lt hall hbody with h | h
      · exact .inl ⟨rfl, by rw [h]⟩
      · exact .inr (Nat.succ_lt_succ h)
  · obtain ⟨-, rfl⟩ := cons_mem_mark.1 hother
    exact .inr (Nat.succ_pos _)

theorem longest_mark {m : Mark} (hc : Mark.ofChar? c = some m)
    (hslash : c = '/' → cs.head? ≠ some '*')
    (hplus : c = '+' → cs.head?.any (fun d => d.isAlpha || d == '#') = false)
    (hdot : c = '.' → cs.head?.any Char.isDigit = false) : Longest (mark m) [c] cs := by
  refine .of_candidates (cons_mem_mark.2 ⟨hc, rfl⟩) fun q' hq' other hother hstarts => ?_
  rcases candidates_of_mark hc hq' with rfl | ⟨rfl, rfl⟩ | ⟨rfl, rfl⟩ | ⟨rfl, rfl⟩
  · obtain ⟨-, rfl⟩ := cons_mem_mark.1 hother
    exact .inl ⟨rfl, rfl⟩
  · obtain ⟨-, body, rfl, -⟩ := cons_mem_comment.1 hother
    obtain ⟨more, rfl⟩ := hstarts
    exact absurd rfl (hslash rfl)
  · rcases cons_mem_word.1 hother with ⟨h, -⟩ | ⟨-, d, body, rfl, hd, -⟩
    · exact absurd h (by decide)
    · obtain ⟨more, rfl⟩ := hstarts
      have h := hplus rfl
      simp [hd] at h
  · rcases cons_mem_decimal.1 hother with ⟨-, hne, hall⟩ | ⟨h, -⟩
    · obtain ⟨d, other, rfl⟩ := List.exists_cons_of_ne_nil hne
      obtain ⟨more, rfl⟩ := hstarts
      have h := hdot rfl
      simp [hall] at h
    · exact absurd h (by decide)

/-! ### The longest number -/

/-- A run of characters with a property is followed by a character without it. -/
theorem run_append {whole : List Char} (hwhole : ∀ d ∈ whole, p d = true) (hc : p c = false)
    (more : List Char) :
    (whole ++ c :: more).takeWhile p = whole ∧ (whole ++ c :: more).dropWhile p = c :: more := by
  have hc : ¬p c = true := by simp [hc]
  rw [List.takeWhile_append_of_pos hwhole, List.dropWhile_append_of_pos hwhole,
    List.takeWhile_cons_of_neg hc, List.dropWhile_cons_of_neg hc, List.append_nil]
  exact ⟨rfl, rfl⟩

theorem longest_integer (hc : c.isDigit = true)
    (hfraction : ∀ more, cs.dropWhile Char.isDigit = '.' :: more →
      more.head?.any Char.isDigit = false) :
    Longest integer (c :: cs.takeWhile Char.isDigit) (cs.dropWhile Char.isDigit) := by
  refine .of_candidates (cons_mem_several.2 ⟨hc, fun d => List.mem_takeWhile_imp⟩)
    fun q' hq' other hother hstarts => ?_
  rw [List.takeWhile_append_dropWhile] at hstarts
  rw [candidates_of_isDigit hc] at hq'
  rcases List.mem_pair.1 hq' with rfl | rfl
  · exact (run_eq_or_lt (cons_mem_several.1 hother).2 hstarts).imp_left fun h => ⟨rfl, h⟩
  · rcases cons_mem_decimal.1 hother with ⟨rfl, -⟩ | ⟨-, whole, fraction, rfl, hwhole, hne, hall⟩
    · exact absurd hc (by decide)
    · -- a fraction would follow the digits
      obtain ⟨d, fraction, rfl⟩ := List.exists_cons_of_ne_nil hne
      obtain ⟨more, rfl⟩ := hstarts
      have hdrop := (run_append (p := Char.isDigit) (c := '.') hwhole rfl
        (d :: fraction ++ more)).2
      have h := hfraction (d :: fraction ++ more) (by simpa using hdrop)
      simp [hall] at h

theorem longest_decimal {whole : List Char} (hc : c.isDigit = true)
    (hwhole : ∀ d ∈ whole, d.isDigit = true) (hfraction : cs.head?.any Char.isDigit = true) :
    Longest decimal (c :: (whole ++ '.' :: cs.takeWhile Char.isDigit))
      (cs.dropWhile Char.isDigit) := by
  have hne : cs.takeWhile Char.isDigit ≠ [] := by
    cases cs with
    | nil => simp at hfraction
    | cons d cs => simp [List.takeWhile_cons_of_pos (show d.isDigit = true from hfraction)]
  refine .of_candidates (cons_mem_decimal.2 (.inr
    ⟨hc, whole, _, rfl, hwhole, hne, fun d => List.mem_takeWhile_imp⟩))
    fun q' hq' other hother hstarts => ?_
  rw [List.append_assoc, List.cons_append, List.takeWhile_append_dropWhile] at hstarts
  have hrun := run_append (p := Char.isDigit) (c := '.') hwhole rfl cs
  rw [candidates_of_isDigit hc] at hq'
  rcases List.mem_pair.1 hq' with rfl | rfl
  · -- an integer ends before the dot
    have h := run_eq_or_lt (cons_mem_several.1 hother).2 hstarts
    rw [hrun.1] at h
    have hle : other.length ≤ whole.length := h.elim (fun h => h ▸ le_rfl) le_of_lt
    exact .inr (by simp only [List.length_append, List.length_cons]; omega)
  · rcases cons_mem_decimal.1 hother with ⟨rfl, -⟩ | ⟨-, whole', fraction, rfl, hwhole', -, hall⟩
    · exact absurd hc (by decide)
    · obtain ⟨more, hmore⟩ := hstarts
      rw [List.append_assoc, List.cons_append] at hmore
      have hrun' := run_append (p := Char.isDigit) (c := '.') hwhole' rfl (fraction ++ more)
      rw [hmore, hrun.1, hrun.2] at hrun'
      obtain ⟨rfl, htail⟩ := hrun'
      have hstarts : fraction <+: cs := ⟨more, (List.cons.inj htail).2.symm⟩
      rcases run_eq_or_lt hall hstarts with h | h
      · exact .inl ⟨rfl, by rw [h]⟩
      · exact .inr (by simpa using h)

theorem longest_fraction (hfraction : cs.head?.any Char.isDigit = true) :
    Longest decimal ('.' :: cs.takeWhile Char.isDigit) (cs.dropWhile Char.isDigit) := by
  have hne : cs.takeWhile Char.isDigit ≠ [] := by
    cases cs with
    | nil => simp at hfraction
    | cons d cs => simp [List.takeWhile_cons_of_pos (show d.isDigit = true from hfraction)]
  refine .of_candidates (cons_mem_decimal.2 (.inl ⟨rfl, hne, fun d => List.mem_takeWhile_imp⟩))
    fun q' hq' other hother hstarts => ?_
  rw [List.takeWhile_append_dropWhile] at hstarts
  have hq' : q' ∈ [decimal, mark .dot] := hq'
  rcases List.mem_pair.1 hq' with rfl | rfl
  · rcases cons_mem_decimal.1 hother with ⟨-, -, hall⟩ | ⟨h, -⟩
    · exact (run_eq_or_lt hall hstarts).imp_left fun h => ⟨rfl, h⟩
    · exact absurd h (by decide)
  · obtain ⟨-, rfl⟩ := cons_mem_mark.1 hother
    exact .inr (List.length_pos_iff.2 hne)

/-! ### The longest literal -/

/-- What stands between single quotes cannot be continued where the text or the line ends, or where
a single quote is not doubled. -/
theorem prefix_of_singleQuoted {body other after : List Char} (hbody : body ∈ singleQuoted)
    (hother : other ∈ singleQuoted) (hafter : ∀ d more, after = d :: more → d ≠ '\n' →
      d = '\'' ∧ more.head? ≠ some '\'') (hstarts : other <+: body ++ after) : other <+: body := by
  match body, other with
  | _, [] => exact List.nil_prefix
  | [], d :: other =>
    obtain ⟨more, rfl⟩ := hstarts
    rcases cons_mem_singleQuoted.1 hother with ⟨hquote, hbreak, -⟩ | ⟨rfl, rest, -, rfl⟩
    · exact absurd (hafter d (other ++ more) rfl hbreak).1 hquote
    · exact absurd rfl (hafter _ _ rfl (by decide)).2
  | c :: body, d :: other =>
    obtain ⟨rfl, htail⟩ := List.cons_prefix_cons.1 hstarts
    rw [List.cons_prefix_cons]
    refine ⟨rfl, ?_⟩
    rcases cons_mem_singleQuoted.1 hbody with ⟨hquote, -, hbody⟩ | ⟨rfl, rest, hrest, rfl⟩
    · rcases cons_mem_singleQuoted.1 hother with ⟨-, -, hother⟩ | ⟨h, -⟩
      · exact prefix_of_singleQuoted hbody hother hafter htail
      · exact absurd h hquote
    · rcases cons_mem_singleQuoted.1 hother with ⟨h, -⟩ | ⟨-, rest', hrest', rfl⟩
      · exact absurd rfl h
      · rw [List.cons_prefix_cons]
        exact ⟨rfl, prefix_of_singleQuoted hrest hrest' hafter (List.cons_prefix_cons.1 htail).2⟩
termination_by body.length

/-- A single quote at the end of what stands between single quotes is doubled. -/
theorem append_quote_notMem_singleQuoted {body : List Char} (hbody : body ∈ singleQuoted) :
    body ++ ['\''] ∉ singleQuoted := by
  intro h
  have hstarts := prefix_of_singleQuoted hbody h
    (fun d more heq _ => by obtain ⟨rfl, rfl⟩ := List.cons.inj heq; simp)
    (List.prefix_refl (body ++ ['\'']))
  have hle := hstarts.length_le
  rw [List.length_append, List.length_singleton] at hle
  omega

theorem longest_closed {body more : List Char} (hbody : body ∈ singleQuoted)
    (hmore : more.head? ≠ some '\'') : Longest string ('\'' :: (body ++ ['\''])) more := by
  refine .of_candidates (cons_mem_string.2 (.inl ⟨rfl, body, hbody, rfl⟩))
    fun q' hq' other hother hstarts => ?_
  rw [List.append_assoc] at hstarts
  have hafter : ∀ d rest, ['\''] ++ more = d :: rest → d ≠ '\n' →
      d = '\'' ∧ rest.head? ≠ some '\'' := by
    rintro d rest heq -
    obtain ⟨rfl, rfl⟩ := List.cons.inj heq
    exact ⟨rfl, hmore⟩
  have hq' : q' ∈ [string, unterminated] := hq'
  rcases List.mem_pair.1 hq' with rfl | rfl
  · rcases cons_mem_string.1 hother with ⟨-, body', hbody', rfl⟩ | ⟨h, -⟩
    · have hle := prefix_of_singleQuoted hbody hbody' hafter
        ((List.prefix_append body' _).trans hstarts)
      rcases hle.length_le.lt_or_eq with hlt | heq
      · exact .inr (by simpa using hlt)
      · exact .inl ⟨rfl, by rw [hle.eq_of_length heq]⟩
    · exact absurd h (by decide)
  · rcases cons_mem_unterminated.1 hother with ⟨-, hother⟩ | ⟨h, -⟩
    · have hle := prefix_of_singleQuoted hbody hother hafter hstarts
      exact .inr (by simpa [Nat.lt_succ_iff] using hle.length_le)
    · exact absurd h (by decide)

theorem longest_open {body after : List Char} (hbody : body ∈ singleQuoted)
    (hafter : after = [] ∨ after.head? = some '\n') :
    Longest unterminated ('\'' :: body) after := by
  refine .of_candidates (cons_mem_unterminated.2 (.inl ⟨rfl, hbody⟩))
    fun q' hq' other hother hstarts => ?_
  have hends : ∀ d more, after = d :: more → d ≠ '\n' → d = '\'' ∧ more.head? ≠ some '\'' := by
    rintro d more rfl hd
    simp [hd] at hafter
  have hq' : q' ∈ [string, unterminated] := hq'
  rcases List.mem_pair.1 hq' with rfl | rfl
  · rcases cons_mem_string.1 hother with ⟨-, body', hbody', rfl⟩ | ⟨h, -⟩
    · -- the closing quote would be the first of two quotes
      have hle := prefix_of_singleQuoted hbody hbody' hends
        ((List.prefix_append body' _).trans hstarts)
      have hne : body' ≠ body := by
        rintro rfl
        obtain ⟨more, rfl⟩ := (List.prefix_append_right_inj _).1 hstarts
        simp at hafter
      have hlt := hle.length_le.lt_of_ne fun h => hne (hle.eq_of_length h)
      refine .inr (lt_of_le_of_ne (by simpa [Nat.succ_le_iff] using hlt) fun h => ?_)
      have hsame := (List.prefix_of_prefix_length_le hstarts (List.prefix_append body after)
        h.le).eq_of_length h
      exact append_quote_notMem_singleQuoted hbody' (hsame ▸ hbody)
    · exact absurd h (by decide)
  · rcases cons_mem_unterminated.1 hother with ⟨-, hother⟩ | ⟨h, -⟩
    · have hle := prefix_of_singleQuoted hbody hother hends hstarts
      rcases hle.length_le.lt_or_eq with hlt | heq
      · exact .inr hlt
      · exact .inl ⟨rfl, hle.eq_of_length heq⟩
    · exact absurd h (by decide)

theorem longest_doubleClosed {body : List Char} (hbody : body ∈ doubleQuoted) (more : List Char) :
    Longest string ('"' :: (body ++ ['"'])) more := by
  refine .of_candidates (cons_mem_string.2 (.inr ⟨rfl, body, hbody, rfl⟩))
    fun q' hq' other hother hstarts => ?_
  rw [List.append_assoc] at hstarts
  have hrun := run_append (c := '"') (mem_kstar_one.1 hbody) rfl more
  have hq' : q' ∈ [string, unterminated] := hq'
  rcases List.mem_pair.1 hq' with rfl | rfl
  · rcases cons_mem_string.1 hother with ⟨h, -⟩ | ⟨-, body', hbody', rfl⟩
    · exact absurd h (by decide)
    · obtain ⟨rest, hrest⟩ := hstarts
      rw [List.append_assoc] at hrest
      have hrun' := run_append (c := '"') (mem_kstar_one.1 hbody') rfl rest
      rw [← List.singleton_append, hrest, List.singleton_append, hrun.1] at hrun'
      exact .inl ⟨rfl, by rw [hrun'.1]⟩
  · rcases cons_mem_unterminated.1 hother with ⟨h, -⟩ | ⟨-, hother⟩
    · exact absurd h (by decide)
    · have h := run_eq_or_lt (mem_kstar_one.1 hother) hstarts
      rw [List.singleton_append, hrun.1] at h
      have hle : other.length ≤ body.length := h.elim (fun h => h ▸ le_rfl) le_of_lt
      exact .inr (by simpa [Nat.lt_succ_iff] using hle)

theorem longest_doubleOpen {body after : List Char} (hbody : body ∈ doubleQuoted)
    (hafter : after = [] ∨ after.head? = some '\n') :
    Longest unterminated ('"' :: body) after := by
  refine .of_candidates (cons_mem_unterminated.2 (.inr ⟨rfl, hbody⟩))
    fun q' hq' other hother hstarts => ?_
  have hall := mem_kstar_one.1 hbody
  have hrun : (body ++ after).takeWhile (fun c => c != '"' && c != '\n') = body := by
    cases after with
    | nil => rw [List.append_nil, List.takeWhile_eq_self_iff.2 hall]
    | cons d after =>
      obtain rfl : d = '\n' := by simpa using hafter
      exact (run_append hall rfl after).1
  have hq' : q' ∈ [string, unterminated] := hq'
  rcases List.mem_pair.1 hq' with rfl | rfl
  · rcases cons_mem_string.1 hother with ⟨h, -⟩ | ⟨-, body', hbody', rfl⟩
    · exact absurd h (by decide)
    · -- there is no closing quote
      obtain ⟨rest, hrest⟩ := hstarts
      rw [List.append_assoc] at hrest
      have hrun' := run_append (c := '"') (mem_kstar_one.1 hbody') rfl rest
      rw [← List.singleton_append, hrest, hrun] at hrun'
      obtain rfl := hrun'.1
      obtain rfl := List.append_cancel_left hrest
      simp at hafter
  · rcases cons_mem_unterminated.1 hother with ⟨h, -⟩ | ⟨-, hother⟩
    · exact absurd h (by decide)
    · have h := run_eq_or_lt (mem_kstar_one.1 hother) hstarts
      rw [hrun] at h
      exact h.imp_left fun h => ⟨rfl, h⟩

end Pattern

end Steplib
