import Steplib.Proofs.Token.Lexing

/-!
# The positions of tokens

Lexing loses nothing. Every token holds the piece of the source that stands at its offset, and the
line and the column of a token say the same place as its offset. The tokens do not overlap, and what
stands between them is blank, a line break or a comment. What is wrong with single tokens is
reported once for each of them and in their order.

## Main definitions

* `Token.StandsIn`: the text and the position of a token are those of a piece of the source.
* `Skipped`: a piece of the source that is no token, and what it is instead.
* `Accounts`: the tokens of a source and what stands between them.

## Main results

* `tokenize_accounts`: the tokens of a source account for all of its text.
-/

namespace Steplib

open Pattern

/-! ### What is said about the tokens of a source -/

namespace Token

/-- The first byte after the token. -/
def stop (t : Token) : Nat :=
  t.offset + t.text.utf8ByteSize

/-- The byte is one of the token. -/
def Covers (t : Token) (n : Nat) : Prop :=
  t.offset ≤ n ∧ n < t.stop

/-- The token is a piece of the source within a line, and its position says where it stands. -/
structure StandsIn (t : Token) (source : List Char) : Prop where
  nonempty : t.text ≠ ""
  oneLine : '\n' ∉ t.text.toList
  place : ∃ before after, source = before ++ (t.text.toList ++ after) ∧
    t.offset = Text.byteLength before ∧ t.line = before.count '\n' ∧
      t.column = (Text.lastLine before).length

/-- The token is listed as an error. -/
def isError (t : Token) : Bool :=
  t.kind.label == "ERROR"

/-- The text starts with a quote. -/
def isQuoted (t : Token) : Bool :=
  t.text.toList.head? == some '\'' || t.text.toList.head? == some '"'

/-- The diagnostic for a token that is listed as an error. -/
def errorDiagnostic (file : Path) (t : Token) : Diagnostic where
  file := file
  span := t.span
  severity := .error
  code := if t.isQuoted then "L0002" else "L0001"
  message :=
    if t.isQuoted then "unterminated string literal"
    else "unrecognized character '" ++ t.text ++ "'"

end Token

/-- What the piece between `before` and `after` can be when it is not one of the tokens of the
source. -/
inductive Skipped (tokens : List Token) (before : List Char) : (piece after : List Char) → Prop
  | blanks {piece after : List Char} (h : ∀ c ∈ piece, Lexeme.isSpace c = true) :
      Skipped tokens before piece after
  | lineBreak {piece after : List Char} (h : piece = ['\n'] ∨ piece = ['\r', '\n']) :
      Skipped tokens before piece after
  /-- A comment at any place of a line runs to the end of the line. -/
  | comment {body after : List Char} (hbody : '\n' ∉ body)
      (hend : after = [] ∨ after.head? = some '\n') :
      Skipped tokens before ('/' :: '*' :: body) after
  /-- A comment without a token before it in its line runs to the next carriage return or to the
  end of the line. -/
  | starComment {body after : List Char} (hopens : opensStarComment (body ++ after) = true)
      (hbody : ∀ c ∈ body, inStarComment c = true)
      (hend : after.head?.any inStarComment = false)
      (hfirst : ∀ t ∈ tokens, t.line = before.count '\n' → Text.byteLength before < t.offset) :
      Skipped tokens before ('*' :: body) after

/-- The byte belongs to a piece of the source that is apart from all tokens. -/
def Between (source : List Char) (tokens : List Token) (n : Nat) : Prop :=
  ∃ before piece after, source = before ++ (piece ++ after) ∧
    Text.byteLength before ≤ n ∧ n < Text.byteLength (before ++ piece) ∧
      (∀ t ∈ tokens, t.stop ≤ Text.byteLength before ∨
        Text.byteLength (before ++ piece) ≤ t.offset) ∧
      Skipped tokens before piece after

/-- The tokens are pieces of the source in order, and what stands between them is no token. -/
structure Accounts (source : List Char) (tokens : List Token) : Prop where
  ordered : tokens.Pairwise fun t u => t.stop ≤ u.offset
  placed : ∀ t ∈ tokens, t.StandsIn source
  covered : ∀ n < Text.byteLength source, (∃ t ∈ tokens, t.Covers n) ∨ Between source tokens n

/-! ### Single tokens -/

variable {before piece rest text : List Char} {first : Bool} {earlier tokens : List Token}
  {t : Token}

theorem Text.byteLength_pos (h : piece ≠ []) : 0 < Text.byteLength piece := by
  obtain ⟨c, piece, rfl⟩ := List.exists_cons_of_ne_nil h
  exact Nat.add_pos_left c.utf8Size_pos _

theorem Token.stop_after (before : List Char) (kind : TokenKind) (piece : List Char) :
    (Token.after before kind piece).stop = Text.byteLength (before ++ piece) := by
  rw [Text.byteLength_append, Text.byteLength_eq piece]
  rfl

namespace Found

theorem eq_after (h : Found before piece rest t) : ∃ kind, t = .after before kind piece := by
  cases h with
  | pattern h hkind => exact ⟨_, rfl⟩
  | unknown hpiece h => exact ⟨_, rfl⟩

theorem piece_ne_nil (h : Found before piece rest t) : piece ≠ [] := by
  cases h with
  | pattern h hkind => exact fun heq => nil_notMem_language _ (heq ▸ h.mem)
  | unknown hpiece h => simp [hpiece]

theorem lineFeed_notMem (h : Found before piece rest t) : '\n' ∉ piece := by
  cases h with
  | @pattern p kind h hkind =>
    refine lineFeed_notMem_language ?_ h.mem
    rintro rfl
    cases hkind
  | @unknown c hpiece h =>
    rw [hpiece, List.mem_singleton]
    rintro rfl
    exact h .lineBreak ['\n'] (cons_mem_lineBreak.2 (.inl ⟨rfl, rfl⟩)) ⟨rest, rfl⟩

/-- What is found is a piece of the text around it. -/
theorem standsIn (h : Found before piece rest t) : t.StandsIn (before ++ (piece ++ rest)) := by
  obtain ⟨kind, rfl⟩ := h.eq_after
  have htext : (Token.after before kind piece).text.toList = piece := String.toList_ofList ..
  refine ⟨fun hempty => h.piece_ne_nil ?_, ?_, before, rest, ?_, rfl, rfl, rfl⟩
  · rw [← htext, hempty]
    rfl
  · rw [htext]
    exact h.lineFeed_notMem
  · rw [htext]

/-- No keyword is listed as an error. -/
theorem label_keyword_ne (k : Keyword) : (TokenKind.keyword k).label ≠ "ERROR" := by
  intro h
  have hlast := congrArg (fun label => label.toList.getLast?) h
  simp [TokenKind.label] at hlast

/-- A token is listed as an error if it is a literal without an end or starts nothing; the first
character tells which. -/
theorem diagnostic? (h : Found before piece rest t) (file : Path) :
    t.diagnostic? file = if t.isError then some (t.errorDiagnostic file) else none := by
  have htext : t.text.toList = piece := by
    obtain ⟨kind, rfl⟩ := h.eq_after
    exact String.toList_ofList ..
  cases h with
  | @pattern p kind h hkind =>
    cases p with
    | space | lineBreak | comment => cases hkind
    | word =>
      cases hkind
      cases Keyword.ofText? (String.ofList piece) with
      | none => rfl
      | some k =>
        simp [Token.after, Token.isError, Token.diagnostic?, Token.problem?, label_keyword_ne k]
    | integer | decimal | string =>
      cases hkind
      rfl
    | mark m =>
      cases hkind
      cases m <;> rfl
    | unterminated =>
      cases hkind
      have hquoted : (Token.after before .unterminated piece).isQuoted = true := by
        rw [Token.isQuoted, htext]
        cases piece with
        | nil => exact absurd h.mem (nil_notMem_language _)
        | cons c piece => rcases cons_mem_unterminated.1 h.mem with ⟨rfl, -⟩ | ⟨rfl, -⟩ <;> rfl
      simp [Token.errorDiagnostic, hquoted]
      rfl
  | @unknown c hpiece h =>
    have hquoted : (Token.after before .unknown piece).isQuoted = false := by
      have hc : c ≠ '\'' ∧ c ≠ '"' := by
        constructor <;> rintro rfl
        · exact h .unterminated ['\'']
            (cons_mem_unterminated.2 (.inl ⟨rfl, nil_mem_singleQuoted⟩)) ⟨rest, rfl⟩
        · exact h .unterminated ['"']
            (cons_mem_unterminated.2 (.inr ⟨rfl, Language.nil_mem_kstar _⟩)) ⟨rest, rfl⟩
      rw [Token.isQuoted, htext, hpiece]
      simp [hc.1, hc.2]
    simp [Token.errorDiagnostic, hquoted]
    rfl

end Found

/-! ### All tokens -/

/-- The tokens found before a place, and whether one of them stands in its line. -/
structure Behind (earlier : List Token) (before : List Char) (first : Bool) : Prop where
  stop : ∀ t ∈ earlier, t.stop ≤ Text.byteLength before
  line : ∀ t ∈ earlier, t.line ≤ before.count '\n'
  first : first = true → ∀ t ∈ earlier, t.line < before.count '\n'

namespace Behind

theorem start : Behind [] [] true :=
  ⟨by simp, by simp, by simp⟩

/-- Text that is passed over in a line changes nothing. -/
theorem skip (h : Behind earlier before first) (hpiece : '\n' ∉ piece) :
    Behind earlier (before ++ piece) first where
  stop t ht := by
    rw [Text.byteLength_append]
    exact (h.stop t ht).trans (Nat.le_add_right _ _)
  line := by rw [Text.lineFeedCount_append hpiece]; exact h.line
  first := by rw [Text.lineFeedCount_append hpiece]; exact h.first

theorem lineBreak (h : Behind earlier before first) (hpiece : '\n' ∈ piece) :
    Behind earlier (before ++ piece) true where
  stop t ht := by
    rw [Text.byteLength_append]
    exact (h.stop t ht).trans (Nat.le_add_right _ _)
  line t ht := by
    rw [List.count_append]
    exact (h.line t ht).trans (Nat.le_add_right _ _)
  first _ t ht := by
    rw [List.count_append]
    exact (h.line t ht).trans_lt (Nat.lt_add_of_pos_right (List.count_pos_iff.2 hpiece))

theorem token (h : Behind earlier before first) (ht : Found before piece rest t) :
    Behind (earlier ++ [t]) (before ++ piece) false := by
  obtain ⟨hstop, hline, -⟩ := h.skip ht.lineFeed_notMem
  obtain ⟨kind, rfl⟩ := ht.eq_after
  refine ⟨fun u hu => ?_, fun u hu => ?_, fun h => absurd h Bool.false_ne_true⟩
  · rcases List.mem_append.1 hu with hu | hu
    · exact hstop u hu
    · obtain rfl := List.mem_singleton.1 hu
      exact (Token.stop_after ..).le
  · rcases List.mem_append.1 hu with hu | hu
    · exact hline u hu
    · obtain rfl := List.mem_singleton.1 hu
      exact (Text.lineFeedCount_append ht.lineFeed_notMem).ge

end Behind

namespace Lexes

theorem standsIn (h : Lexes before first text tokens) (ht : t ∈ tokens) :
    t.StandsIn (before ++ text) := by
  obtain ⟨skipped, piece, rest, rfl, hfound⟩ := h.found_of_mem ht
  rw [← List.append_assoc]
  exact hfound.standsIn

theorem le_offset (h : Lexes before first text tokens) (ht : t ∈ tokens) :
    Text.byteLength before ≤ t.offset := by
  obtain ⟨skipped, piece, rest, rfl, hfound⟩ := h.found_of_mem ht
  obtain ⟨kind, rfl⟩ := hfound.eq_after
  exact (Nat.le_add_right _ _).trans (Text.byteLength_append before skipped).ge

/-- The tokens come one after the other. -/
theorem ordered (h : Lexes before first text tokens) :
    tokens.Pairwise fun t u => t.stop ≤ u.offset := by
  induction h with
  | nil => exact .nil
  | lineBreak h hrest ih | skip hp h hrest ih | starComment hopens hrest ih => exact ih
  | token h hkind hstar hrest ih | unknown h hrest ih =>
    exact .cons (fun u hu => (Token.stop_after ..).trans_le (hrest.le_offset hu)) ih

/-! ### What is passed over -/

theorem skipped_of_lineBreak (h : Longest .lineBreak piece rest) :
    Skipped tokens before piece rest := by
  have hmem := h.mem
  cases piece with
  | nil => exact absurd hmem (nil_notMem_language _)
  | cons c piece =>
    rcases cons_mem_lineBreak.1 hmem with ⟨rfl, rfl⟩ | ⟨rfl, rfl⟩
    · exact .lineBreak (.inl rfl)
    · exact .lineBreak (.inr rfl)

theorem skipped_of_separates {p : Pattern} (hp : p.separates) (h : Longest p piece rest) :
    Skipped tokens before piece rest := by
  have hmem := h.mem
  rcases hp with rfl | rfl
  · exact .blanks (mem_several.1 hmem).2
  · cases piece with
    | nil => exact absurd hmem (nil_notMem_language _)
    | cons c piece =>
      obtain ⟨rfl, body, rfl, hbody⟩ := cons_mem_comment.1 hmem
      refine .comment hbody ?_
      cases rest with
      | nil => exact .inl rfl
      | cons d rest =>
        refine .inr (congrArg some ?_)
        -- any other character would continue the comment
        by_contra hd
        have hlonger : '/' :: '*' :: (body ++ [d]) ∈ comment.language :=
          cons_mem_comment.2 ⟨rfl, body ++ [d], rfl, by simpa [eq_comm] using ⟨hbody, hd⟩⟩
        rcases h.shorter _ _ hlonger ⟨rest, by simp⟩ with ⟨-, heq⟩ | hlt
        · simp at heq
        · simp at hlt

theorem skipped_of_starComment {more : List Char} (hopens : opensStarComment more = true)
    (hbehind : Behind earlier before true)
    (hrest : Lexes (before ++ '*' :: more.takeWhile inStarComment) true
      (more.dropWhile inStarComment) tokens) :
    Skipped (earlier ++ tokens) before ('*' :: more.takeWhile inStarComment)
      (more.dropWhile inStarComment) := by
  refine .starComment (by rwa [List.takeWhile_append_dropWhile])
    (fun c => List.mem_takeWhile_imp) ?_ fun t ht hline => ?_
  · cases hrest : more.dropWhile inStarComment with
    | nil => rfl
    | cons d rest =>
      have h := List.head_dropWhile_not inStarComment (l := more) (by simp [hrest])
      simpa [hrest] using h
  · rcases List.mem_append.1 ht with ht | ht
    · exact absurd hline (hbehind.first rfl t ht).ne
    · refine lt_of_lt_of_le ?_ (hrest.le_offset ht)
      rw [Text.byteLength_append]
      exact Nat.lt_add_of_pos_right (Text.byteLength_pos (List.cons_ne_nil _ _))

variable {n : Nat}

/-- A byte of a piece that is passed over lies apart from the tokens before it and after it; for the
other bytes the rest of the text has to be looked at. -/
theorem covered_skip {first' : Bool} (hbehind : Behind earlier before first)
    (hnext : Behind earlier (before ++ piece) first')
    (hrest : Lexes (before ++ piece) first' rest tokens)
    (hskip : Skipped (earlier ++ tokens) before piece rest) (hn : Text.byteLength before ≤ n)
    (hn' : n < Text.byteLength (before ++ (piece ++ rest)))
    (ih : ∀ {earlier : List Token}, Behind earlier (before ++ piece) first' →
      Text.byteLength (before ++ piece) ≤ n → n < Text.byteLength (before ++ piece ++ rest) →
        (∃ t ∈ tokens, t.Covers n) ∨ Between (before ++ piece ++ rest) (earlier ++ tokens) n) :
    (∃ t ∈ tokens, t.Covers n) ∨ Between (before ++ (piece ++ rest)) (earlier ++ tokens) n := by
  rcases lt_or_ge n (Text.byteLength (before ++ piece)) with hlt | hge
  · refine .inr ⟨before, piece, rest, rfl, hn, hlt, fun t ht => ?_, hskip⟩
    rcases List.mem_append.1 ht with ht | ht
    · exact .inl (hbehind.stop t ht)
    · exact .inr (hrest.le_offset ht)
  · rw [← List.append_assoc] at hn' ⊢
    exact ih hnext hge hn'

/-- A byte of a token is covered by it; for the other bytes the rest of the text has to be looked
at. -/
theorem covered_token (hbehind : Behind earlier before first) (ht : Found before piece rest t)
    (hn : Text.byteLength before ≤ n) (hn' : n < Text.byteLength (before ++ (piece ++ rest)))
    (ih : ∀ {earlier : List Token}, Behind earlier (before ++ piece) false →
      Text.byteLength (before ++ piece) ≤ n → n < Text.byteLength (before ++ piece ++ rest) →
        (∃ t ∈ tokens, t.Covers n) ∨ Between (before ++ piece ++ rest) (earlier ++ tokens) n) :
    (∃ u ∈ t :: tokens, u.Covers n) ∨
      Between (before ++ (piece ++ rest)) (earlier ++ t :: tokens) n := by
  rcases lt_or_ge n (Text.byteLength (before ++ piece)) with hlt | hge
  · obtain ⟨kind, rfl⟩ := ht.eq_after
    exact .inl ⟨_, List.mem_cons_self, hn, hlt.trans_eq (Token.stop_after ..).symm⟩
  · rw [← List.append_assoc] at hn' ⊢
    rcases ih (hbehind.token ht) hge hn' with ⟨u, hu, hcovers⟩ | hbetween
    · exact .inl ⟨u, List.mem_cons_of_mem _ hu, hcovers⟩
    · exact .inr (by rwa [List.append_assoc earlier] at hbetween)

/-- Every byte of the text belongs to a token or to a piece that is passed over. -/
theorem covered (h : Lexes before first text tokens) (hbehind : Behind earlier before first)
    (hn : Text.byteLength before ≤ n) (hn' : n < Text.byteLength (before ++ text)) :
    (∃ t ∈ tokens, t.Covers n) ∨ Between (before ++ text) (earlier ++ tokens) n := by
  induction h generalizing earlier with
  | nil =>
    rw [List.append_nil] at hn'
    exact absurd hn' hn.not_gt
  | lineBreak h hrest ih =>
    exact covered_skip hbehind (hbehind.lineBreak (lineFeed_mem_lineBreak h.mem)) hrest
      (skipped_of_lineBreak h) hn hn' ih
  | @skip before piece rest first tokens p hp h hrest ih =>
    have hpiece : '\n' ∉ piece := by
      refine lineFeed_notMem_language ?_ h.mem
      rcases hp with rfl | rfl <;> simp
    exact covered_skip hbehind (hbehind.skip hpiece) hrest (skipped_of_separates hp h) hn hn' ih
  | @starComment before more tokens hopens hrest ih =>
    have hpiece : '\n' ∉ '*' :: more.takeWhile inStarComment := by
      rw [List.mem_cons, not_or]
      exact ⟨by decide, lineFeed_notMem_of_property rfl fun c => List.mem_takeWhile_imp⟩
    have h := covered_skip hbehind (hbehind.skip hpiece) hrest
      (skipped_of_starComment hopens hbehind hrest) hn
      (by rwa [List.cons_append, List.takeWhile_append_dropWhile]) ih
    rwa [List.cons_append, List.takeWhile_append_dropWhile] at h
  | token h hkind hstar hrest ih =>
    exact covered_token hbehind (.pattern h hkind) hn hn' ih
  | unknown h hrest ih => exact covered_token hbehind (.unknown rfl h) hn hn' ih

end Lexes

/-! ### The tokens of a source -/

theorem accounts_tokenize (source : String) : Accounts source.toList (tokenize source) where
  ordered := (lexes_tokenize source).ordered
  placed _ ht := (lexes_tokenize source).standsIn ht
  covered _ hn := (lexes_tokenize source).covered .start (Nat.zero_le _) hn

/-- The diagnostics of single tokens report every token that is listed as an error, in order. -/
theorem lexicalDiagnostics_tokenize (file : Path) (source : String) :
    lexicalDiagnostics file (tokenize source) =
      ((tokenize source).filter Token.isError).map (Token.errorDiagnostic file) := by
  rw [lexicalDiagnostics, ← List.filterMap_eq_map, List.filterMap_filter]
  refine List.filterMap_congr fun t ht => ?_
  obtain ⟨skipped, piece, rest, -, hfound⟩ := (lexes_tokenize source).found_of_mem ht
  exact hfound.diagnostic? file

/-- Lexing loses nothing: the tokens of a source account for all of its text, and the errors among
them are the diagnostics. -/
theorem tokenize_accounts (file : Path) (source : String) :
    Accounts source.toList (tokenize source) ∧
      lexicalDiagnostics file (tokenize source) =
        ((tokenize source).filter Token.isError).map (Token.errorDiagnostic file) :=
  ⟨accounts_tokenize source, lexicalDiagnostics_tokenize file source⟩

end Steplib
