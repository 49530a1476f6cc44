import Steplib.Proofs.Text.Lines
import Steplib.Proofs.Token.LetterCase

/-!
# Words and the blanks before them

A word that nothing continues is one piece of its text, whether it starts with a letter or with a
plus sign, and the blanks and line breaks before a piece are passed over. So a text that is put
together from words with blanks between them has one token for each word, in any letter case.

## Main results

* `Pattern.longest_of_mem_word`: a word is the longest piece at its place if nothing continues it.
* `Keyword.mem_word`: the spellings of a keyword are words.
* `Lexes.blanks`: blanks and line breaks in front of a token are passed over.
* `Lexes.word`, `Lexes.blanks_word`: a word, and a word after blanks, is one token.
-/

namespace Steplib

/-! ### Words -/

namespace Pattern

open Lexeme

variable {piece rest : List Char}

/-- A word is the longest piece at its place if nothing continues it. -/
theorem longest_of_mem_word (h : piece ∈ word.language)
    (hnext : ∀ d ∈ rest.head?, isWordPart d = false) : Longest word piece rest := by
  have hrun {body : List Char} (hbody : ∀ d ∈ body, isWordPart d = true) :
      (body ++ rest).takeWhile isWordPart = body ∧ (body ++ rest).dropWhile isWordPart = rest := by
    cases rest with
    | nil => simpa using hbody
    | cons d rest => exact run_append hbody (hnext d rfl) rest
  cases piece with
  | nil => exact absurd h (nil_notMem_language word)
  | cons c cs =>
    rcases cons_mem_word.1 h with ⟨hc, hcs⟩ | ⟨rfl, d, body, rfl, hd, hbody⟩
    · have hlongest : Longest word (c :: (cs ++ rest).takeWhile isWordPart)
          ((cs ++ rest).dropWhile isWordPart) := longest_word hc
      rwa [(hrun hcs).1, (hrun hcs).2] at hlongest
    · have hlongest : Longest word ('+' :: d :: (body ++ rest).takeWhile isWordPart)
          ((body ++ rest).dropWhile isWordPart) := longest_plus hd
      rwa [(hrun hbody).1, (hrun hbody).2] at hlongest

/-- A word starts with a character that is no blank. -/
theorem exists_cons_of_mem_word (h : piece ∈ word.language) :
    ∃ c cs, piece = c :: cs ∧ isSpace c = false ∧ c ≠ '\n' := by
  cases piece with
  | nil => exact absurd h (nil_notMem_language word)
  | cons c cs =>
    refine ⟨c, cs, rfl, ?_⟩
    rcases cons_mem_word.1 h with ⟨hc, -⟩ | ⟨rfl, -⟩
    · exact ⟨not_isSpace_of_property hc (by decide), ne_of_property hc rfl⟩
    · decide

end Pattern

namespace Keyword

variable {text : String} {k : Keyword}

theorem text_mem_word (k : Keyword) : k.text.toList ∈ Pattern.word.language := by
  have hword {c : Char} {cs : List Char} (hc : Lexeme.isWordStart c = true)
      (hcs : cs.all Lexeme.isWordPart = true) : c :: cs ∈ Pattern.word.language :=
    Pattern.cons_mem_word.2 (.inl ⟨hc, List.all_eq_true.1 hcs⟩)
  cases k with
  | scope scope => cases scope <;> exact hword (by decide) (by decide)
  | _ => exact hword (by decide) (by decide)

/-- The spellings of a keyword are words, in any letter case. -/
theorem mem_word (h : ofText? text = some k) : text.toList ∈ Pattern.word.language := by
  have hspelled : k.text = Ascii.upper text := by simpa using List.find?_some h
  have hword := k.text_mem_word
  rw [hspelled, Ascii.toList_upper] at hword
  exact (Pattern.caseFree_language .word _).1 hword

theorem tokenKind? (h : ofText? text = some k) :
    Pattern.word.tokenKind? text.toList = some (.keyword k) := by
  simp [Pattern.tokenKind?, String.ofList_toList, h]

end Keyword

/-! ### Blanks -/

theorem Lexeme.isWordPart_of_isSpace {c : Char} (h : isSpace c = true) : isWordPart c = false := by
  simp only [isSpace, Bool.or_eq_true, beq_iff_eq] at h
  rcases h with ((rfl | rfl) | rfl) | rfl <;> decide

/-- Nothing continues a word in front of blanks. -/
theorem Lexeme.head_blanks {gap more : List Char} (hgap : ∀ d ∈ gap, isSpace d = true ∨ d = '\n')
    (hmore : gap = [] → ∀ d ∈ more.head?, isWordPart d = false) :
    ∀ d ∈ (gap ++ more).head?, isWordPart d = false := by
  cases gap with
  | nil => exact hmore rfl
  | cons d gap =>
    have hd : isWordPart d = false := by
      rcases hgap d List.mem_cons_self with hd | rfl
      · exact isWordPart_of_isSpace hd
      · rfl
    simpa using hd

section Blanks

variable {before gap more : List Char} {c : Char} {first : Bool} {tokens : List Token}
  (hspace : Lexeme.isSpace c = false) (hline : c ≠ '\n')

include hspace

/-- A run of blanks ends where the blanks end. -/
theorem Lexeme.run_blanks (gap more : List Char) :
    (gap ++ c :: more).takeWhile isSpace = gap.takeWhile isSpace ∧
      (gap ++ c :: more).dropWhile isSpace = gap.dropWhile isSpace ++ c :: more := by
  have hdrop := Text.dropWhile_append_cons hspace gap more
  have hwhole : (gap ++ c :: more).takeWhile isSpace ++ (gap.dropWhile isSpace ++ c :: more) =
      gap.takeWhile isSpace ++ (gap.dropWhile isSpace ++ c :: more) := by
    rw [← hdrop, List.takeWhile_append_dropWhile, hdrop, ← List.append_assoc,
      List.takeWhile_append_dropWhile]
  exact ⟨List.append_cancel_right hwhole, hdrop⟩

include hline

/-- Blanks and line breaks start with a run of blanks or with a line break. -/
theorem Pattern.exists_longest_blank (more : List Char) (hne : gap ≠ [])
    (hgap : ∀ d ∈ gap, Lexeme.isSpace d = true ∨ d = '\n') :
    ∃ p piece rest, (p = space ∨ p = lineBreak) ∧ gap = piece ++ rest ∧
      Longest p piece (rest ++ c :: more) := by
  obtain ⟨d, gap, rfl⟩ := List.exists_cons_of_ne_nil hne
  rcases hgap d List.mem_cons_self with hd | rfl
  · by_cases hreturn : d = '\r' ∧ gap.head? = some '\n'
    · obtain ⟨rfl, hhead⟩ := hreturn
      obtain ⟨rest, rfl⟩ := List.head?_eq_some_iff.1 hhead
      exact ⟨lineBreak, ['\r', '\n'], rest, .inr rfl, rfl, longest_return _⟩
    · have hlongest : Longest space (d :: (gap ++ c :: more).takeWhile Lexeme.isSpace)
          ((gap ++ c :: more).dropWhile Lexeme.isSpace) := longest_space hd fun hboth => by
        cases gap with
        | nil => exact hline (Option.some.inj hboth.2)
        | cons e gap => exact hreturn hboth
      rw [(Lexeme.run_blanks hspace gap more).1, (Lexeme.run_blanks hspace gap more).2] at hlongest
      exact ⟨space, _, _, .inl rfl, by rw [List.cons_append, List.takeWhile_append_dropWhile],
        hlongest⟩
  · exact ⟨lineBreak, ['\n'], gap, .inr rfl, rfl, longest_lineBreak _⟩

/-- Blanks and line breaks in front of a token are passed over. -/
theorem Lexes.blanks (hgap : ∀ d ∈ gap, Lexeme.isSpace d = true ∨ d = '\n')
    (h : ∀ first, Lexes (before ++ gap) first (c :: more) tokens) :
    Lexes before first (gap ++ c :: more) tokens := by
  induction hlength : gap.length using Nat.strong_induction_on generalizing before gap first with
  | _ n ih =>
    by_cases hne : gap = []
    · subst hne
      exact List.append_nil before ▸ h first
    · obtain ⟨p, piece, rest, hp, rfl, hlongest⟩ :=
        Pattern.exists_longest_blank hspace hline more hne hgap
      have hshorter : rest.length < n := by
        have hpiece : piece ≠ [] := fun hnil =>
          Pattern.nil_notMem_language p (hnil ▸ hlongest.mem)
        have hpos := List.length_pos_iff.2 hpiece
        rw [List.length_append] at hlength
        omega
      have hrest (first : Bool) : Lexes (before ++ piece) first (rest ++ c :: more) tokens :=
        ih _ hshorter (fun d hd => hgap d (List.mem_append_right _ hd))
          (by simpa only [List.append_assoc] using h) rfl
      rw [List.append_assoc]
      rcases hp with rfl | rfl
      · exact .skip (.inl rfl) hlongest (hrest first)
      · exact .lineBreak hlongest (hrest true)

end Blanks

/-! ### Words in a text -/

section Word

variable {before gap piece rest : List Char} {first : Bool} {kind : TokenKind} {tokens : List Token}

/-- A word that nothing continues is one token. -/
theorem Lexes.word (hpiece : piece ∈ Pattern.word.language)
    (hkind : Pattern.word.tokenKind? piece = some kind)
    (hnext : ∀ d ∈ rest.head?, Lexeme.isWordPart d = false)
    (h : Lexes (before ++ piece) false rest tokens) :
    Lexes before first (piece ++ rest) (.after before kind piece :: tokens) :=
  .token (Pattern.longest_of_mem_word hpiece hnext) hkind (fun hstar => by cases hstar.1) h

/-- A word after blanks and line breaks is one token. -/
theorem Lexes.blanks_word (hgap : ∀ d ∈ gap, Lexeme.isSpace d = true ∨ d = '\n')
    (hpiece : piece ∈ Pattern.word.language)
    (hkind : Pattern.word.tokenKind? piece = some kind)
    (hnext : ∀ d ∈ rest.head?, Lexeme.isWordPart d = false)
    (h : Lexes (before ++ gap ++ piece) false rest tokens) :
    Lexes before first (gap ++ (piece ++ rest)) (.after (before ++ gap) kind piece :: tokens) := by
  obtain ⟨c, cs, rfl, hspace, hline⟩ := Pattern.exists_cons_of_mem_word hpiece
  exact .blanks hspace hline hgap fun _ => .word hpiece hkind hnext h

end Word

end Steplib
