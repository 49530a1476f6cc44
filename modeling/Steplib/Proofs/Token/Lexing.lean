import Mathlib.Data.List.DropRight
import Mathlib.Data.String.Basic
import Steplib.Proofs.Token.Pattern
import Steplib.Token.Source

/-!
# Lexing a whole source

The tokens of a source are what is left when the text is cut from its start to its end: at each
place the longest piece that a pattern allows is taken, blanks, line breaks and comments are passed
over, and everything else is a token that stands where it was found. A line is never looked at on
its own here; that lexing line by line gives the same tokens is the result of this file.

## Main definitions

* `Lexes`: the text after what has been read has the given tokens.

## Main results

* `lexes_tokenize`: the tokens of a source are those of its text as a whole.
* `lexes_iff`: a text has no other tokens.
* `Lexes.found_of_mem`: every token is the longest piece at its place, or a character that no
  pattern allows.
-/

namespace Steplib

/-! ### Places -/

/-- The characters after the last line feed. -/
def Text.lastLine (cs : List Char) : List Char :=
  cs.rtakeWhile (· != '\n')

namespace Text

variable {before piece : List Char}

theorem byteLength_eq (cs : List Char) : byteLength cs = (String.ofList cs).utf8ByteSize := by
  rw [String.utf8ByteSize_ofList]
  induction cs with
  | nil => rfl
  | cons c cs ih => rw [byteLength_cons, ih, String.utf8Len_cons, Nat.add_comm]

theorem lastLine_append (h : '\n' ∉ piece) :
    lastLine (before ++ piece) = lastLine before ++ piece := by
  have hall : ∀ c ∈ piece.reverse, (c != '\n') = true := fun c hc => by
    rw [bne_iff_ne]
    exact fun heq => h (heq ▸ List.mem_reverse.1 hc)
  simp only [lastLine, List.rtakeWhile, List.reverse_append, List.takeWhile_append_of_pos hall,
    List.reverse_reverse]

theorem lastLine_append_lineFeed (cs : List Char) : lastLine (cs ++ ['\n']) = [] := by
  simp [lastLine, List.rtakeWhile]

theorem lineFeedCount_append (h : '\n' ∉ piece) :
    (before ++ piece).count '\n' = before.count '\n' := by
  rw [List.count_append, List.count_eq_zero.2 h, Nat.add_zero]

end Text

/-- The token with the given kind and text that stands right after `before`. -/
def Token.after (before : List Char) (kind : TokenKind) (text : List Char) : Token :=
  ⟨kind, String.ofList text, before.count '\n', (Text.lastLine before).length,
    Text.byteLength before⟩

namespace Pattern

/-- The pattern separates tokens within a line. -/
def separates (p : Pattern) : Prop :=
  p = space ∨ p = comment

/-- The kind of a token that was found by the pattern; a word is a keyword if it spells one. -/
def tokenKind? (p : Pattern) (text : List Char) : Option TokenKind :=
  match p with
  | space | lineBreak | comment => none
  | word => some (((Keyword.ofText? (String.ofList text)).map .keyword).getD .identifier)
  | integer => some .integer
  | decimal => some .decimal
  | string => some .string
  | unterminated => some .unterminated
  | mark m => some (.mark m)

/-- After a piece of the pattern no token stands before the next piece in its line, if that held
before the piece. -/
def leavesFirst (p : Pattern) (first : Bool) : Bool :=
  match p with
  | lineBreak => true
  | space | comment => first
  | _ => false

theorem leavesFirst_of_token {p : Pattern} {piece : List Char} {kind : TokenKind}
    (h : p.tokenKind? piece = some kind) (first : Bool) : p.leavesFirst first = false := by
  cases p <;> first | rfl | cases h

end Pattern

open Pattern

/-- A `*` before the text opens a comment, if it is the first token of its line. -/
def opensStarComment (rest : List Char) : Bool :=
  Lexeme.opensComment rest.head? || rest.head? == some '\n'

/-- The characters of a line, up to a carriage return. -/
def inStarComment (c : Char) : Bool :=
  c != '\r' && c != '\n'

/-- After `before`, with no token before it in its line if `first` holds, the text has the given
tokens. -/
inductive Lexes : (before : List Char) → (first : Bool) → (text : List Char) → List Token → Prop
  | nil (before : List Char) (first : Bool) : Lexes before first [] []
  | lineBreak {before piece rest : List Char} {first : Bool} {tokens : List Token}
      (h : Longest lineBreak piece rest) (hrest : Lexes (before ++ piece) true rest tokens) :
      Lexes before first (piece ++ rest) tokens
  | skip {before piece rest : List Char} {first : Bool} {tokens : List Token} {p : Pattern}
      (hp : p.separates) (h : Longest p piece rest)
      (hrest : Lexes (before ++ piece) first rest tokens) :
      Lexes before first (piece ++ rest) tokens
  | starComment {before rest : List Char} {tokens : List Token} (hopens : opensStarComment rest)
      (hrest : Lexes (before ++ '*' :: rest.takeWhile inStarComment) true
        (rest.dropWhile inStarComment) tokens) :
      Lexes before true ('*' :: rest) tokens
  | token {before piece rest : List Char} {first : Bool} {tokens : List Token} {p : Pattern}
      {kind : TokenKind} (h : Longest p piece rest) (hkind : p.tokenKind? piece = some kind)
      (hstar : ¬(p = .mark .star ∧ first = true ∧ opensStarComment rest = true))
      (hrest : Lexes (before ++ piece) false rest tokens) :
      Lexes before first (piece ++ rest) (.after before kind piece :: tokens)
  | unknown {before rest : List Char} {c : Char} {first : Bool} {tokens : List Token}
      (h : ∀ p : Pattern, ∀ piece ∈ p.language, ¬piece <+: c :: rest)
      (hrest : Lexes (before ++ [c]) false rest tokens) :
      Lexes before first (c :: rest) (.after before .unknown [c] :: tokens)

namespace Lexeme

/-! ### The longest lexeme of a line -/

variable {c : Char} {line after : List Char} {first : Bool} {p : Char → Bool}

theorem take_length_takeWhile (p : Char → Bool) (line : List Char) :
    line.take (line.takeWhile p).length = line.takeWhile p ∧
      line.drop (line.takeWhile p).length = line.dropWhile p := by
  have htake := (List.prefix_iff_eq_take.1 (List.takeWhile_prefix (l := line) p)).symm
  refine ⟨htake, List.append_cancel_left (?_ : line.takeWhile p ++ _ = line.takeWhile p ++ _)⟩
  conv_lhs => rw [← htake, List.length_take_of_le (List.takeWhile_prefix p).length_le]
  rw [List.take_append_drop, List.takeWhile_append_dropWhile]

/-- A run of characters other than line feeds ends with its line. -/
theorem run_line (hp : p '\n' = false) (hafter : after = [] ∨ after.head? = some '\n')
    (line : List Char) :
    (line ++ after).takeWhile p = line.takeWhile p ∧
      (line ++ after).dropWhile p = line.dropWhile p ++ after := by
  have htake : after.takeWhile p = [] ∧ after.dropWhile p = after := by
    cases after with
    | nil => exact ⟨rfl, rfl⟩
    | cons d after =>
      obtain rfl : d = '\n' := by simpa using hafter
      simp [hp]
  induction line with
  | nil => exact htake
  | cons c line ih =>
    by_cases hc : p c = true
    · simpa [hc] using ih
    · simp [hc]

/-- The longest lexeme of the line `c :: line`, as a kind and a length after `c`, and what the
patterns say of it. -/
inductive Cut (first : Bool) (c : Char) (line after : List Char) : TokenKind × Nat → Prop
  /-- A carriage return at the end of a line is a part of the line break. -/
  | lineEnd (hc : c = '\r') (hline : line = []) (hafter : after.head? = some '\n') :
      Cut first c line after (.blank, 0)
  | separator {p : Pattern} {kind : TokenKind} {length : Nat} (hp : p.separates)
      (hkind : kind.isTrivia = true)
      (h : Longest p (c :: line.take length) (line.drop length ++ after)) :
      Cut first c line after (kind, length)
  | starComment (hc : c = '*') (hfirst : first = true) (hopens : opensComment line.head? = true) :
      Cut first c line after (.comment, (line.takeWhile (· != '\r')).length)
  | token {p : Pattern} {kind : TokenKind} {length : Nat} (hkind : kind.isTrivia = false)
      (htext : p.tokenKind? (c :: line.take length) =
        some (ofText kind (c :: line.take length)).kind)
      (h : Longest p (c :: line.take length) (line.drop length ++ after))
      (hstar : ¬(p = .mark .star ∧ first = true ∧ opensComment line.head? = true)) :
      Cut first c line after (kind, length)
  | unknown (h : ∀ p : Pattern, ∀ piece ∈ p.language, ¬piece <+: c :: (line ++ after)) :
      Cut first c line after (.unknown, 0)

/-- The longest run of a line gives a lexeme if it does so in the whole text. -/
theorem longest_of_run {q : Pattern} (hp : p '\n' = false)
    (hafter : after = [] ∨ after.head? = some '\n')
    (h : Longest q (c :: (line ++ after).takeWhile p) ((line ++ after).dropWhile p)) :
    Longest q (c :: line.take (line.takeWhile p).length)
      (line.drop (line.takeWhile p).length ++ after) := by
  obtain ⟨htake, hdrop⟩ := run_line hp hafter line
  rw [(take_length_takeWhile p line).1, (take_length_takeWhile p line).2, ← htake, ← hdrop]
  exact h

theorem cut_comment (hline : '\n' ∉ line) (hafter : after = [] ∨ after.head? = some '\n')
    (hstar : line.head? = some '*') : Cut first '/' line after (.comment, line.length) := by
  obtain ⟨line, rfl⟩ := List.head?_eq_some_iff.1 hstar
  have hall : line.takeWhile (· != '\n') = line :=
    List.takeWhile_eq_self_iff.2 fun d hd => by
      rw [bne_iff_ne]
      exact fun h => hline (List.mem_cons_of_mem _ (h ▸ hd))
  have hrun := run_line (p := (· != '\n')) rfl hafter line
  have hdrop : line.dropWhile (· != '\n') = [] := by
    have h := List.takeWhile_append_dropWhile (p := (· != '\n')) (l := line)
    rw [hall] at h
    simpa using h
  have h := longest_comment (line ++ after)
  rw [hrun.1, hrun.2, hall, hdrop] at h
  exact .separator (.inr rfl) rfl (by simpa using h)

theorem cut_word (hafter : after = [] ∨ after.head? = some '\n')
    (hword :
      (isWordStart c || (c == '+' && line.head?.any fun d => d.isAlpha || d == '#')) = true) :
    Cut first c line after (.identifier, (line.takeWhile isWordPart).length) := by
  refine .token (p := word) rfl rfl (longest_of_run rfl hafter ?_) (by simp)
  rcases Bool.or_eq_true_iff.1 hword with hc | hplus
  · exact longest_word hc
  · obtain ⟨hc, hhead⟩ := Bool.and_eq_true_iff.1 hplus
    obtain rfl := eq_of_beq hc
    cases line with
    | nil => simp at hhead
    | cons d line =>
      have hd : (d.isAlpha || d == '#') = true := hhead
      have hpart := isWordPart_of_afterPlus hd
      rw [List.cons_append, List.takeWhile_cons_of_pos hpart, List.dropWhile_cons_of_pos hpart]
      exact longest_plus hd

/-- A fraction is a dot with at least one digit after it. -/
theorem fractionLength_eq (cs : List Char) :
    fractionLength cs = 0 ∧ (∀ more, cs = '.' :: more → more.head?.any Char.isDigit = false) ∨
      ∃ more, cs = '.' :: more ∧ more.head?.any Char.isDigit = true ∧
        fractionLength cs = (more.takeWhile Char.isDigit).length + 1 := by
  match cs with
  | [] => exact .inl ⟨rfl, by simp⟩
  | c :: more =>
    by_cases hc : c = '.'
    · subst hc
      cases more with
      | nil => exact .inl ⟨rfl, by simp⟩
      | cons d more =>
        by_cases hd : d.isDigit = true
        · exact .inr ⟨d :: more, rfl, hd, by simp [fractionLength, hd]⟩
        · exact .inl ⟨by simp [fractionLength, hd], by simp [hd]⟩
    · exact .inl ⟨by simp [fractionLength, hc], by simp [hc]⟩

/-- What the next character of the text is, the line shows, unless it is a line feed. -/
theorem any_head_append (hp : p '\n' = false) (hafter : after = [] ∨ after.head? = some '\n') :
    (line ++ after).head?.any p = line.head?.any p := by
  cases line with
  | nil => rcases hafter with rfl | hafter <;> simp_all
  | cons d line => rfl

theorem cut_integer (hafter : after = [] ∨ after.head? = some '\n') (hc : c.isDigit = true)
    (hfraction : ∀ more, line.dropWhile Char.isDigit = '.' :: more →
      more.head?.any Char.isDigit = false) :
    Cut first c line after (.integer, (line.takeWhile Char.isDigit).length) := by
  refine .token (p := integer) rfl rfl (longest_of_run rfl hafter (longest_integer hc ?_)) (by simp)
  intro more hmore
  rw [(run_line rfl hafter line).2] at hmore
  cases hrest : line.dropWhile Char.isDigit with
  | nil =>
    rw [hrest, List.nil_append] at hmore
    simp [hmore] at hafter
  | cons d rest =>
    rw [hrest, List.cons_append] at hmore
    obtain ⟨rfl, rfl⟩ := List.cons.inj hmore
    rw [any_head_append rfl hafter]
    exact hfraction rest hrest

theorem cut_decimal {more : List Char} (hafter : after = [] ∨ after.head? = some '\n')
    (hc : c.isDigit = true) (hmore : line.dropWhile Char.isDigit = '.' :: more)
    (hdigit : more.head?.any Char.isDigit = true) :
    Cut first c line after (.decimal, (line.takeWhile Char.isDigit).length +
      ((more.takeWhile Char.isDigit).length + 1)) := by
  have hline : line = line.takeWhile Char.isDigit ++ '.' :: more := by
    rw [← hmore, List.takeWhile_append_dropWhile]
  have hrun := run_line (p := Char.isDigit) rfl hafter more
  have hcut := take_length_takeWhile Char.isDigit more
  have hhead : (more ++ after).head?.any Char.isDigit = true := by
    rw [any_head_append rfl hafter]
    exact hdigit
  have h := longest_decimal hc (fun d => List.mem_takeWhile_imp (l := line)) hhead
  rw [hrun.1, hrun.2, ← hcut.1, ← hcut.2] at h
  refine .token (p := decimal) rfl rfl ?_ (by simp)
  generalize (more.takeWhile Char.isDigit).length = n at *
  generalize line.takeWhile Char.isDigit = whole at *
  subst hline
  simpa [List.take_length_add_append, List.drop_length_add_append] using h

/-- What stands between single quotes ends before a single quote that is not doubled, or with the
line. -/
theorem singleQuotedLength_spec (hline : '\n' ∉ line) :
    line.take (singleQuotedLength line) ∈ singleQuoted ∧
      (line.drop (singleQuotedLength line) = [] ∨ ∃ more,
        line.drop (singleQuotedLength line) = '\'' :: more ∧ more.head? ≠ some '\'') := by
  fun_induction singleQuotedLength line with
  | case1 rest ih =>
    obtain ⟨hmem, hrest⟩ := ih fun h => hline (List.mem_cons_of_mem _ (List.mem_cons_of_mem _ h))
    refine ⟨?_, by simpa using hrest⟩
    rw [List.take_succ_cons, List.take_succ_cons, cons_mem_singleQuoted]
    exact .inr ⟨rfl, _, hmem, rfl⟩
  | case2 rest h =>
    refine ⟨nil_mem_singleQuoted, .inr ⟨rest, rfl, fun hhead => ?_⟩⟩
    obtain ⟨more, rfl⟩ := List.head?_eq_some_iff.1 hhead
    exact h more rfl
  | case3 c rest h hc ih =>
    obtain ⟨hmem, hrest⟩ := ih fun h => hline (List.mem_cons_of_mem _ h)
    refine ⟨?_, by simpa using hrest⟩
    rw [List.take_succ_cons, cons_mem_singleQuoted]
    exact .inl ⟨hc, fun h => hline (h ▸ List.mem_cons_self), hmem⟩
  | case4 => exact ⟨nil_mem_singleQuoted, .inl rfl⟩

theorem take_succ_of_drop {n : Nat} {more : List Char} (h : line.drop n = c :: more) :
    line.take (n + 1) = line.take n ++ [c] ∧ line.drop (n + 1) = more := by
  constructor
  · rw [List.take_add_one, ← List.head?_drop, h]
    rfl
  · rw [← List.tail_drop, h]
    rfl

theorem cut_singleQuote (hline : '\n' ∉ line) (hafter : after = [] ∨ after.head? = some '\n') :
    Cut first '\'' line after (closeLiteral '\'' (singleQuotedLength line) line) := by
  obtain ⟨hbody, hend⟩ := singleQuotedLength_spec hline
  unfold closeLiteral
  rcases hend with hend | ⟨more, hend, hmore⟩
  · rw [hend, if_neg (by simp)]
    refine .token (p := unterminated) rfl rfl ?_ (by simp)
    rw [hend, List.nil_append]
    exact longest_open hbody hafter
  · obtain ⟨htake, hdrop⟩ := take_succ_of_drop hend
    rw [hend, List.head?_cons, if_pos rfl]
    refine .token (p := string) rfl rfl ?_ (by simp)
    rw [htake, hdrop]
    refine longest_closed hbody ?_
    cases more with
    | nil => rcases hafter with rfl | hafter <;> simp_all
    | cons d more => exact hmore

theorem cut_doubleQuote (hline : '\n' ∉ line) (hafter : after = [] ∨ after.head? = some '\n') :
    Cut first '"' line after (closeLiteral '"' (line.takeWhile (· != '"')).length line) := by
  have hbody : line.takeWhile (· != '"') ∈ doubleQuoted := mem_doubleQuoted.2 fun d hd =>
    ⟨by simpa using List.mem_takeWhile_imp hd,
      fun h => hline (h ▸ (List.takeWhile_prefix _).subset hd)⟩
  obtain ⟨htake, hdrop⟩ := take_length_takeWhile (· != '"') line
  unfold closeLiteral
  rw [hdrop]
  cases hend : line.dropWhile (· != '"') with
  | nil =>
    rw [if_neg (by simp)]
    refine .token (p := unterminated) rfl rfl ?_ (by simp)
    rw [htake, hdrop, hend, List.nil_append]
    exact longest_doubleOpen hbody hafter
  | cons d more =>
    obtain rfl : d = '"' := by
      have h := List.head_dropWhile_not (· != '"') (l := line) (by simp [hend])
      simpa [hend] using h
    rw [hend] at hdrop
    obtain ⟨htake', hdrop'⟩ := take_succ_of_drop hdrop
    rw [List.head?_cons, if_pos rfl]
    refine .token (p := string) rfl rfl ?_ (by simp)
    rw [htake', hdrop', htake]
    exact longest_doubleClosed hbody _

theorem cut_mark {m : Mark} (hafter : after = [] ∨ after.head? = some '\n')
    (hc : Mark.ofChar? c = some m) (hslash : ¬(c = '/' ∧ line.head? = some '*'))
    (hplus : ¬(c == '+' && line.head?.any fun d => d.isAlpha || d == '#') = true)
    (hdot : ¬(c = '.' ∧ line.head?.any Char.isDigit = true))
    (hstar : ¬(c = '*' ∧ first = true ∧ opensComment line.head? = true)) :
    Cut first c line after (.mark m, 0) := by
  refine .token (p := mark m) rfl rfl ?_ ?_
  · rw [List.drop_zero]
    refine longest_mark hc (fun h hhead => hslash ⟨h, ?_⟩) (fun h => ?_) fun h => ?_
    · have hany : (line ++ after).head?.any (· == '*') = true := by rw [hhead]; rfl
      rw [any_head_append rfl hafter, Option.any_eq_true] at hany
      obtain ⟨d, hd, heq⟩ := hany
      rw [hd, eq_of_beq heq]
    · rw [any_head_append rfl hafter, Bool.eq_false_iff]
      exact fun hany => hplus (by simpa [h] using hany)
    · rw [any_head_append rfl hafter, Bool.eq_false_iff]
      exact fun hany => hdot ⟨h, hany⟩
  · rintro ⟨hm, hrest⟩
    obtain rfl : m = .star := Pattern.mark.inj hm
    refine hstar ⟨?_, hrest⟩
    unfold Mark.ofChar? at hc
    split at hc <;> simp_all

/-- No pattern has texts that start with a character that starts no lexeme. -/
theorem candidates_of_unknown (hc : Mark.ofChar? c = none) (hspace : ¬isSpace c = true)
    (hbreak : c ≠ '\n') (hword : ¬isWordStart c = true) (hdigit : ¬c.isDigit = true)
    (hquote : c ≠ '\'') (hdouble : c ≠ '"') : candidates c = [] := by
  have hslash : c ≠ '/' := by rintro rfl; simp [Mark.ofChar?] at hc
  have hplus : c ≠ '+' := by rintro rfl; simp [Mark.ofChar?] at hc
  have hdot : c ≠ '.' := by rintro rfl; simp [Mark.ofChar?] at hc
  simp [candidates, *]

/-- The longest lexeme of a line is what the patterns give in the whole text. -/
theorem cut_longest (hc : c ≠ '\n') (hline : '\n' ∉ line)
    (hafter : after = [] ∨ after.head? = some '\n') :
    Cut first c line after (longest first c line) := by
  unfold longest
  split <;> rename_i hspace
  · by_cases hend : c = '\r' ∧ (line ++ after).head? = some '\n'
    · obtain ⟨rfl, hhead⟩ := hend
      cases line with
      | nil => exact .lineEnd rfl rfl hhead
      | cons d line => simp_all
    · exact .separator (.inl rfl) rfl (longest_of_run rfl hafter (longest_space hspace hend))
  split <;> rename_i hslash
  · obtain ⟨rfl, hstar⟩ := hslash
    exact cut_comment hline hafter hstar
  split <;> rename_i hstar
  · exact .starComment hstar.1 hstar.2.1 hstar.2.2
  split <;> rename_i hword
  · exact cut_word hafter hword
  rw [Bool.or_eq_true, not_or] at hword
  split <;> rename_i hdigit
  · dsimp only
    rw [(take_length_takeWhile Char.isDigit line).2]
    rcases fractionLength_eq (line.dropWhile Char.isDigit) with
      ⟨hlength, hnone⟩ | ⟨more, hmore, hfraction, hlength⟩
    · rw [hlength]
      exact cut_integer hafter hdigit hnone
    · rw [hlength]
      exact cut_decimal hafter hdigit hmore hfraction
  split <;> rename_i hdot
  · obtain ⟨rfl, hfraction⟩ := hdot
    refine .token (p := decimal) rfl rfl (longest_of_run rfl hafter (longest_fraction ?_)) (by simp)
    rw [any_head_append rfl hafter]
    exact hfraction
  split <;> rename_i hquote
  · subst hquote
    exact cut_singleQuote hline hafter
  split <;> rename_i hdouble
  · subst hdouble
    exact cut_doubleQuote hline hafter
  split <;> rename_i hmark
  · exact cut_mark hafter hmark hslash hword.2 hdot hstar
  · refine .unknown fun p piece hpiece hstarts => ?_
    cases piece with
    | nil => exact nil_notMem_language p hpiece
    | cons d piece =>
      obtain ⟨rfl, -⟩ := List.cons_prefix_cons.1 hstarts
      have h := mem_candidates hpiece
      rw [candidates_of_unknown hmark hspace hc hword.1 hdigit hquote hdouble] at h
      exact List.not_mem_nil h

/-- Within a line, a comment that starts with `*` ends at a carriage return. -/
theorem takeWhile_inStarComment (hline : '\n' ∉ line) :
    line.takeWhile (· != '\r') = line.takeWhile inStarComment := by
  induction line with
  | nil => rfl
  | cons d line ih =>
    have hd : d ≠ '\n' := fun h => hline (h ▸ List.mem_cons_self)
    rw [List.takeWhile_cons, List.takeWhile_cons, ih fun h => hline (List.mem_cons_of_mem _ h)]
    simp [inStarComment, hd]

/-- The end of the line counts as a blank after the `*`. -/
theorem opensStarComment_append (hline : '\n' ∉ line)
    (hafter : after = [] ∨ after.head? = some '\n') :
    opensStarComment (line ++ after) = opensComment line.head? := by
  cases line with
  | nil => rcases hafter with rfl | hafter <;> simp_all [opensStarComment, opensComment]
  | cons d line =>
    have hd : d ≠ '\n' := fun h => hline (h ▸ List.mem_cons_self)
    simp [opensStarComment, hd]

theorem isTrivia_ofText (kind : TokenKind) (text : List Char) :
    (ofText kind text).kind.isTrivia = kind.isTrivia := by
  cases kind with
  | identifier =>
    cases h : Keyword.ofText? (String.ofList text) <;> simp [ofText, h, TokenKind.isTrivia]
  | _ => rfl

end Lexeme

open Token Lexeme

variable {before cs line after : List Char} {c : Char} {first : Bool} {tokens : List Token}

/-- A comment that starts with `*` ends in its line. -/
theorem Lexes.of_cut_starComment (hline : '\n' ∉ line)
    (hafter : after = [] ∨ after.head? = some '\n') (hopens : opensComment line.head? = true)
    (hrest : Lexes (before ++ '*' :: line.take (line.takeWhile (· != '\r')).length) true
      (line.drop (line.takeWhile (· != '\r')).length ++ after) tokens) :
    Lexes before true ('*' :: (line ++ after)) tokens := by
  have hrun := run_line (p := inStarComment) rfl hafter line
  have hpart := take_length_takeWhile inStarComment line
  rw [takeWhile_inStarComment hline, hpart.1, hpart.2, ← hrun.1, ← hrun.2] at hrest
  exact .starComment ((opensStarComment_append hline hafter).trans hopens) hrest

/-- A token that is found in a line is found in the whole text. -/
theorem Lexes.of_cut_token {p : Pattern} {kind : TokenKind} {length : Nat} (hline : '\n' ∉ line)
    (hafter : after = [] ∨ after.head? = some '\n')
    (hkind : p.tokenKind? (c :: line.take length) = some kind)
    (h : Longest p (c :: line.take length) (line.drop length ++ after))
    (hstar : ¬(p = .mark .star ∧ first = true ∧ opensComment line.head? = true))
    (hrest : Lexes (before ++ c :: line.take length) false (line.drop length ++ after) tokens) :
    Lexes before first (c :: line.take length ++ (line.drop length ++ after))
      (.after before kind (c :: line.take length) :: tokens) := by
  refine .token h hkind ?_ hrest
  rintro ⟨rfl, hfirst, hopens⟩
  refine hstar ⟨rfl, hfirst, ?_⟩
  -- the star is the whole lexeme, so that the rest of the line follows it
  have hempty := (cons_mem_mark.1 h.mem).2
  have hdrop : line.drop length = line := by
    simpa [hempty] using List.take_append_drop length line
  rw [hdrop, opensStarComment_append hline hafter] at hopens
  exact hopens

/-- The tokens of a line are those of the whole text up to the end of the line. -/
theorem lexes_line (before : List Char) (first : Bool) (hcs : '\n' ∉ cs)
    (hend : after = [] ∧ tokens = [] ∨
      ∃ rest, after = '\n' :: rest ∧ Lexes (before ++ cs ++ ['\n']) true rest tokens) :
    Lexes before first (cs ++ after) (ofLexemes (before.count '\n') (Text.lastLine before).length
      (Text.byteLength before) (Lexeme.ofLine first cs) ++ tokens) := by
  fun_induction Lexeme.ofLine first cs generalizing before with
  | case1 first =>
    rcases hend with ⟨rfl, rfl⟩ | ⟨rest, rfl, hrest⟩
    · exact .nil _ _
    · have h : Lexes before first (['\n'] ++ rest) tokens :=
        .lineBreak (longest_lineBreak rest) (by simpa using hrest)
      exact h
  | case2 first c line kind length hlongest ih =>
    have hc : c ≠ '\n' := fun h => hcs (h ▸ List.mem_cons_self)
    have hline : '\n' ∉ line := fun h => hcs (List.mem_cons_of_mem _ h)
    have hafter : after = [] ∨ after.head? = some '\n' := by
      rcases hend with ⟨rfl, -⟩ | ⟨rest, rfl, -⟩
      · exact .inl rfl
      · exact .inr rfl
    have hpiece : '\n' ∉ c :: line.take length := fun h =>
      hcs ((List.cons_subset_cons c (List.take_subset length line)) h)
    have hcut : Cut first c line after (longest first c line) := cut_longest hc hline hafter
    rw [hlongest] at hcut
    have hrest := @ih (before ++ c :: line.take length)
      (fun h => hline (List.mem_of_mem_drop h))
      (by simpa only [List.append_assoc, List.cons_append, List.take_append_drop] using hend)
    rw [Text.lineFeedCount_append hpiece, Text.lastLine_append hpiece, List.length_append,
      Text.byteLength_append] at hrest
    have htext : c :: line ++ after = c :: line.take length ++ (line.drop length ++ after) := by
      rw [List.cons_append, List.cons_append, ← List.append_assoc, List.take_append_drop]
    rw [ofLexemes, ofText_text, isTrivia_ofText]
    generalize hmore : ofLexemes _ _ _ (ofLine _ (line.drop length)) = more at hrest
    cases hcut with
    | lineEnd hreturn hempty hhead =>
      subst hreturn hempty
      obtain rfl : more = [] := by simp [← hmore, ofLexemes, ofLine]
      obtain ⟨rest, rfl⟩ : ∃ rest, after = '\n' :: rest := List.head?_eq_some_iff.1 hhead
      have hnext : Lexes (before ++ ['\r', '\n']) true rest tokens := by simpa using hend
      have h : Lexes before first (['\r', '\n'] ++ rest) tokens :=
        .lineBreak (longest_return rest) hnext
      exact h
    | separator hp hkind h =>
      rw [hkind, Bool.and_true] at hrest
      rw [htext, if_pos hkind]
      exact .skip hp h hrest
    | starComment hstar hfirst hopens =>
      subst hstar hfirst
      rw [if_pos (by rfl)]
      exact .of_cut_starComment hline hafter hopens hrest
    | token hkind hkind' h hstar =>
      rw [hkind, Bool.and_false] at hrest
      rw [htext, if_neg (by simp [hkind])]
      exact .of_cut_token hline hafter hkind' h hstar hrest
    | unknown h =>
      have hnext : Lexes (before ++ [c]) false (line ++ after) (more ++ tokens) := by
        simpa [TokenKind.isTrivia] using hrest
      rw [if_neg (by simp [TokenKind.isTrivia])]
      exact .unknown h hnext

/-- The tokens of the lines of a text are those of the whole text. -/
theorem lexes_ofLines (before text : List Char) (hstart : Text.lastLine before = []) :
    Lexes before true text
      (ofLines (before.count '\n') (Text.byteLength before) (text.splitOn '\n')) := by
  by_cases h : '\n' ∈ text
  · obtain ⟨line, rest, rfl, hline⟩ := List.eq_append_cons_of_mem h
    rw [List.splitOn_append_cons_self_of_not_mem hline, ofLines]
    have hlast : Text.lastLine (before ++ line ++ ['\n']) = [] := Text.lastLine_append_lineFeed _
    have hrest := lexes_ofLines _ rest hlast
    have hcount : (before ++ line ++ ['\n']).count '\n' = before.count '\n' + 1 := by
      rw [List.count_append, Text.lineFeedCount_append hline, List.count_singleton_self]
    have hlength : Text.byteLength (before ++ line ++ ['\n']) =
        Text.byteLength before + Text.byteLength line + 1 := by
      simp [Text.byteLength_append, Char.utf8Size, Nat.add_assoc]
    rw [hcount, hlength] at hrest
    have hlexes := lexes_line before true hline (.inr ⟨rest, rfl, hrest⟩)
    rwa [hstart] at hlexes
  · rw [List.splitOn_eq_singleton h, ofLines]
    have hlexes := lexes_line before true h (.inl ⟨rfl, rfl⟩)
    rwa [hstart, List.append_nil] at hlexes
termination_by text.length

/-- The tokens of a source are those of its text as a whole. -/
theorem lexes_tokenize (source : String) : Lexes [] true source.toList (tokenize source) :=
  lexes_ofLines [] source.toList rfl

/-! ### Single tokens -/

/-- What lexing can find after `before` and in front of `rest`: the longest piece that a pattern
allows, or a character that starts no piece. -/
inductive Found (before piece rest : List Char) : Token → Prop
  | pattern {p : Pattern} {kind : TokenKind} (h : Longest p piece rest)
      (hkind : p.tokenKind? piece = some kind) : Found before piece rest (.after before kind piece)
  | unknown {c : Char} (hpiece : piece = [c])
      (h : ∀ p : Pattern, ∀ other ∈ p.language, ¬other <+: c :: rest) :
      Found before piece rest (.after before .unknown piece)

/-- Every token was found at its place. -/
theorem Lexes.found_of_mem {text : List Char} {t : Token} (h : Lexes before first text tokens)
    (ht : t ∈ tokens) :
    ∃ skipped piece rest, text = skipped ++ (piece ++ rest) ∧
      Found (before ++ skipped) piece rest t := by
  induction h with
  | nil => exact absurd ht List.not_mem_nil
  | lineBreak h hrest ih | skip hp h hrest ih =>
    obtain ⟨skipped, piece, rest, rfl, hfound⟩ := ih ht
    exact ⟨_ ++ skipped, piece, rest, (List.append_assoc ..).symm,
      by rwa [← List.append_assoc]⟩
  | @starComment before more tokens hopens hrest ih =>
    obtain ⟨skipped, piece, rest, heq, hfound⟩ := ih ht
    refine ⟨'*' :: more.takeWhile inStarComment ++ skipped, piece, rest, ?_,
      by rwa [← List.append_assoc]⟩
    rw [List.append_assoc, ← heq, List.cons_append, List.takeWhile_append_dropWhile]
  | @token before piece rest first tokens p kind h hkind hstar hrest ih =>
    rcases List.mem_cons.1 ht with rfl | ht
    · exact ⟨[], piece, rest, rfl, by rw [List.append_nil]; exact .pattern h hkind⟩
    · obtain ⟨skipped, piece', rest', rfl, hfound⟩ := ih ht
      exact ⟨piece ++ skipped, piece', rest', (List.append_assoc ..).symm,
        by rwa [← List.append_assoc]⟩
  | @unknown before rest c first tokens h hrest ih =>
    rcases List.mem_cons.1 ht with rfl | ht
    · exact ⟨[], [c], rest, rfl, by rw [List.append_nil]; exact .unknown rfl h⟩
    · obtain ⟨skipped, piece', rest', rfl, hfound⟩ := ih ht
      exact ⟨[c] ++ skipped, piece', rest', rfl, by rwa [← List.append_assoc]⟩

/-! ### A text has no other tokens -/

/-- A star is a piece of its own. -/
theorem Pattern.Longest.of_star {p : Pattern} {piece rest more : List Char}
    (h : Longest p piece more) (htext : '*' :: rest = piece ++ more) :
    p = .mark .star ∧ rest = more := by
  cases piece with
  | nil => exact absurd h.mem (nil_notMem_language p)
  | cons d piece =>
    obtain ⟨rfl, htail⟩ := List.cons.inj htext
    obtain rfl := List.mem_singleton.1 (mem_candidates h.mem)
    obtain rfl := (cons_mem_mark.1 h.mem).2
    exact ⟨rfl, htail⟩

namespace Lexes

variable {p : Pattern} {piece rest : List Char} {c : Char} {tokens' : List Token}

/-- The longest piece of a text decides how its lexing starts. -/
theorem of_longest (h : Longest p piece rest)
    (hstar : ¬(p = .mark .star ∧ first = true ∧ opensStarComment rest = true))
    (hlexes : Lexes before first (piece ++ rest) tokens) :
    ∃ more, Lexes (before ++ piece) (p.leavesFirst first) rest more ∧
      tokens = ((p.tokenKind? piece).map fun kind => .after before kind piece).toList ++ more := by
  generalize htext : piece ++ rest = text at hlexes
  cases hlexes with
  | nil =>
    rw [(List.append_eq_nil_iff.1 htext).1] at h
    exact absurd h.mem (nil_notMem_language p)
  | lineBreak h' hrest =>
    obtain ⟨rfl, rfl, rfl⟩ := h.unique h' htext
    exact ⟨_, hrest, rfl⟩
  | skip hp h' hrest =>
    obtain ⟨rfl, rfl, rfl⟩ := h.unique h' htext
    rcases hp with rfl | rfl <;> exact ⟨_, hrest, rfl⟩
  | starComment hopens hrest =>
    obtain ⟨rfl, rfl⟩ := h.of_star htext.symm
    exact absurd ⟨rfl, rfl, hopens⟩ hstar
  | token h' hkind hstar' hrest =>
    obtain ⟨rfl, rfl, rfl⟩ := h.unique h' htext
    exact ⟨_, leavesFirst_of_token hkind first ▸ hrest, by rw [hkind]; rfl⟩
  | unknown hnone hrest =>
    exact absurd (htext ▸ List.prefix_append piece rest) (hnone p piece h.mem)

theorem of_nil (hlexes : Lexes before first [] tokens) : tokens = [] := by
  generalize htext : [] = text at hlexes
  cases hlexes with
  | nil => rfl
  | lineBreak h hrest | skip hp h hrest | token h hkind hstar hrest =>
    rw [(List.append_eq_nil_iff.1 htext.symm).1] at h
    exact absurd h.mem (nil_notMem_language _)
  | starComment hopens hrest | unknown hnone hrest => cases htext

theorem of_starComment (hopens : opensStarComment rest = true)
    (hlexes : Lexes before true ('*' :: rest) tokens) :
    Lexes (before ++ '*' :: rest.takeWhile inStarComment) true (rest.dropWhile inStarComment)
      tokens := by
  generalize htext : '*' :: rest = text at hlexes
  cases hlexes with
  | nil => cases htext
  | lineBreak h hrest => cases (h.of_star htext).1
  | skip hp h hrest =>
    obtain ⟨rfl, -⟩ := h.of_star htext
    rcases hp with hp | hp <;> cases hp
  | starComment hopens' hrest =>
    obtain rfl := (List.cons.inj htext).2
    exact hrest
  | token h hkind hstar hrest =>
    obtain ⟨rfl, rfl⟩ := h.of_star htext
    exact absurd ⟨rfl, rfl, hopens⟩ hstar
  | unknown hnone hrest =>
    obtain ⟨rfl, rfl⟩ := List.cons.inj htext
    exact absurd ⟨rest, rfl⟩ (hnone (.mark .star) ['*'] (cons_mem_mark.2 ⟨rfl, rfl⟩))

theorem of_unknown (h : ∀ p : Pattern, ∀ piece ∈ p.language, ¬piece <+: c :: rest)
    (hlexes : Lexes before first (c :: rest) tokens) : ∃ more,
      Lexes (before ++ [c]) false rest more ∧ tokens = .after before .unknown [c] :: more := by
  generalize htext : c :: rest = text at hlexes h
  cases hlexes with
  | nil => cases htext
  | lineBreak h' hrest | skip hp h' hrest | token h' hkind hstar hrest =>
    exact absurd (List.prefix_append _ _) (h _ _ h'.mem)
  | starComment hopens hrest =>
    exact absurd ⟨_, rfl⟩ (h (.mark .star) ['*'] (cons_mem_mark.2 ⟨rfl, rfl⟩))
  | unknown hnone hrest =>
    obtain ⟨rfl, rfl⟩ := List.cons.inj htext
    exact ⟨_, hrest, rfl⟩

/-- A text has no other tokens than those that lexing finds in it. -/
theorem unique {text : List Char} (h : Lexes before first text tokens)
    (h' : Lexes before first text tokens') : tokens' = tokens := by
  induction h generalizing tokens' with
  | nil => exact of_nil h'
  | lineBreak h hrest ih =>
    obtain ⟨more, hmore, rfl⟩ := of_longest h (by simp) h'
    exact ih hmore
  | skip hp h hrest ih =>
    obtain ⟨more, hmore, rfl⟩ := of_longest h (by rcases hp with rfl | rfl <;> simp) h'
    rcases hp with rfl | rfl <;> exact ih hmore
  | starComment hopens hrest ih => exact ih (of_starComment hopens h')
  | token h hkind hstar hrest ih =>
    obtain ⟨more, hmore, rfl⟩ := of_longest h hstar h'
    rw [leavesFirst_of_token hkind] at hmore
    rw [ih hmore, hkind]
    rfl
  | unknown h hrest ih =>
    obtain ⟨more, hmore, rfl⟩ := of_unknown h h'
    rw [ih hmore]

end Lexes

/-- Lexing is determined by the patterns and by where a `*` opens a comment. -/
theorem lexes_iff (source : String) (tokens : List Token) :
    Lexes [] true source.toList tokens ↔ tokens = tokenize source :=
  ⟨(lexes_tokenize source).unique, fun h => h ▸ lexes_tokenize source⟩

end Steplib
