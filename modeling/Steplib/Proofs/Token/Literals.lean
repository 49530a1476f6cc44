import Steplib.Module.Parse
import Steplib.Proofs.Token.Words

/-!
# Writing and reading string literals

A text without line feeds can be written between single quotes, with every single quote in it
doubled, and between double quotes if it holds none of them. Either way the literal is one token,
whose value is the text again: a quote that is written twice neither ends the literal nor leaves it
open, and putting pairs of quotes together finds the pairs that were written. A module that is
called by such a literal is therefore known by the upper-case form of the text.

## Main definitions

* `Literal.doubled`: a text with every single quote written twice.
* `Literal.Writes`: the literals of a text.

## Main results

* `Literal.undouble_doubled`: the value of a text with doubled quotes is the text.
* `Literal.Writes.longest`: a literal is the longest piece at its place.
* `Literal.tokenize_call`: a call of a literal is two tokens.
* `Literal.literals_read_back`: a literal is read as the text that it writes.
-/

namespace Steplib

/-! ### Literals -/

namespace Literal

open Pattern

/-- The text with every single quote written twice. -/
def doubled (cs : List Char) : List Char :=
  cs.flatMap fun c => if c = '\'' then ['\'', '\''] else [c]

/-- The literal is a way to write a text without line feeds: between single quotes, or between
double quotes if there are none in the text. -/
inductive Writes (s : String) : String → Prop
  | single (hline : '\n' ∉ s.toList) : Writes s (.ofList ('\'' :: (doubled s.toList ++ ['\''])))
  | double (hline : '\n' ∉ s.toList) (hquote : '"' ∉ s.toList) :
      Writes s (.ofList ('"' :: (s.toList ++ ['"'])))

variable {s literal : String} {cs : List Char} {c q : Char}

theorem doubled_cons (c : Char) (cs : List Char) :
    doubled (c :: cs) = (if c = '\'' then ['\'', '\''] else [c]) ++ doubled cs :=
  List.flatMap_cons ..

theorem doubled_mem_singleQuoted (h : '\n' ∉ cs) : doubled cs ∈ singleQuoted := by
  induction cs with
  | nil => exact nil_mem_singleQuoted
  | cons c cs ih =>
    rw [List.mem_cons, not_or] at h
    have hrest := ih h.2
    rw [doubled_cons]
    split
    · exact cons_mem_singleQuoted.2 (.inr ⟨rfl, _, hrest, rfl⟩)
    · exact cons_mem_singleQuoted.2 (.inl ⟨‹_›, Ne.symm h.1, hrest⟩)

theorem mem_doubleQuoted_of_notMem (hline : '\n' ∉ cs) (hquote : '"' ∉ cs) : cs ∈ doubleQuoted :=
  mem_doubleQuoted.2 fun _ hd => ⟨fun h => hquote (h ▸ hd), fun h => hline (h ▸ hd)⟩

theorem undouble_cons_of_ne (h : c ≠ q) (cs : List Char) :
    undouble q (c :: cs) = c :: undouble q cs := by
  cases cs with
  | nil => rfl
  | cons d cs => rw [undouble, if_neg fun hboth => h hboth.1]

/-- Quotes that are written twice are read once. -/
theorem undouble_doubled (cs : List Char) : undouble '\'' (doubled cs) = cs := by
  induction cs with
  | nil => rfl
  | cons c cs ih =>
    rw [doubled_cons]
    split
    · rename_i hc
      rw [hc, List.cons_append, List.cons_append, List.nil_append, undouble, if_pos ⟨rfl, rfl⟩, ih]
    · rename_i hc
      rw [List.singleton_append, undouble_cons_of_ne hc, ih]

/-- A text without quotes is read as it is. -/
theorem undouble_of_notMem (h : q ∉ cs) : undouble q cs = cs := by
  induction cs with
  | nil => rfl
  | cons c cs ih =>
    rw [List.mem_cons, not_or] at h
    rw [undouble_cons_of_ne (Ne.symm h.1), ih h.2]

/-- The value of a string token that stands between two quotes. -/
theorem stringValue?_quoted {t : Token} (hkind : t.kind = .string)
    (htext : t.text = .ofList (q :: (cs ++ [q]))) :
    t.stringValue? = some (.ofList (undouble q cs)) := by
  have hlist : t.text.toList = q :: (cs ++ [q]) := by rw [htext, String.toList_ofList]
  obtain ⟨d, more, hmore⟩ : ∃ d more, cs ++ [q] = d :: more :=
    List.exists_cons_of_ne_nil (by simp)
  simp only [Token.stringValue?, hkind, hlist, hmore]
  rw [← hmore, List.dropLast_concat]

namespace Writes

/-- A literal is one piece of its text. -/
theorem longest (h : Writes s literal) : Longest string literal.toList [] := by
  cases h with
  | single hline =>
    rw [String.toList_ofList]
    exact longest_closed (doubled_mem_singleQuoted hline) (by simp)
  | double hline hquote =>
    rw [String.toList_ofList]
    exact longest_doubleClosed (mem_doubleQuoted_of_notMem hline hquote) []

/-- A literal starts with a quote. -/
theorem head (h : Writes s literal) :
    ∃ quote rest, literal.toList = quote :: rest ∧ (quote = '\'' ∨ quote = '"') := by
  cases h with
  | single => exact ⟨_, _, String.toList_ofList .., .inl rfl⟩
  | double => exact ⟨_, _, String.toList_ofList .., .inr rfl⟩

/-- The value of a literal is the text that it writes. -/
theorem stringValue? (h : Writes s literal) {t : Token} (hkind : t.kind = .string)
    (htext : t.text = literal) : t.stringValue? = some s := by
  cases h with
  | single => rw [stringValue?_quoted hkind htext, undouble_doubled, String.ofList_toList]
  | double hline hquote =>
    rw [stringValue?_quoted hkind htext, undouble_of_notMem hquote, String.ofList_toList]

end Writes

end Literal

/-! ### Reading a literal -/

namespace Literal

open Pattern

variable {s literal word gap : String}

theorem Writes.lexes (h : Writes s literal) (before : List Char) (first : Bool) :
    Lexes before first literal.toList [.after before .string literal.toList] := by
  have hlexes : Lexes before first (literal.toList ++ []) [.after before .string literal.toList] :=
    .token h.longest rfl (fun hstar => by cases hstar.1) (.nil ..)
  rwa [List.append_nil] at hlexes

/-- A literal on its own is one token. -/
theorem tokenize_eq (h : Writes s literal) : tokenize literal = [⟨.string, literal, 0, 0, 0⟩] := by
  rw [← (lexes_iff literal _).1 (h.lexes [] true), Token.after, String.ofList_toList]
  rfl

/-- A call of a literal is the calling word and the literal. -/
theorem tokenize_call (h : Writes s literal) (hword : Ascii.upper word = "CALLNAT")
    (hgap : ∀ d ∈ gap.toList, Lexeme.isSpace d = true ∨ d = '\n') :
    ∃ call target, tokenize (word ++ gap ++ literal) = [call, target] ∧
      call.kind = .keyword .callnat ∧ target.kind = .string ∧ target.text = literal := by
  obtain ⟨quote, rest, hlist, hquote⟩ := h.head
  have hnot : Lexeme.isSpace quote = false ∧ quote ≠ '\n' ∧ Lexeme.isWordPart quote = false := by
    rcases hquote with rfl | rfl <;> decide
  have hnext : ∀ d ∈ (gap.toList ++ literal.toList).head?, Lexeme.isWordPart d = false :=
    Lexeme.head_blanks hgap fun _ => by simpa [hlist] using hnot.2.2
  have hkeyword : Keyword.ofText? word = some .callnat := by
    rw [← Keyword.ofText?_upper, hword]
    decide
  have htarget : Lexes word.toList false (gap.toList ++ quote :: rest)
      [.after (word.toList ++ gap.toList) .string literal.toList] :=
    .blanks hnot.1 hnot.2.1 hgap fun first => hlist ▸ h.lexes (word.toList ++ gap.toList) first
  rw [← hlist] at htarget
  have hlexes : Lexes [] true (word.toList ++ (gap.toList ++ literal.toList))
      [.after [] (.keyword .callnat) word.toList,
        .after (word.toList ++ gap.toList) .string literal.toList] :=
    .word (Keyword.mem_word hkeyword) (Keyword.tokenKind? hkeyword) hnext htarget
  rw [← List.append_assoc, ← String.toList_append, ← String.toList_append] at hlexes
  exact ⟨_, _, ((lexes_iff _ _).1 hlexes).symm, rfl, rfl, String.ofList_toList⟩

/-- A literal is one token without a diagnostic, and its value is the text that it writes. A call of
the literal, in any letter case and with any blanks and line breaks after the calling word, refers
to one module, whose name is the text in upper case. -/
theorem literals_read_back (h : Writes s literal) (file : Path) :
    tokenize literal = [⟨.string, literal, 0, 0, 0⟩] ∧
      Token.stringValue? ⟨.string, literal, 0, 0, 0⟩ = some s ∧
      lexicalDiagnostics file (tokenize literal) = [] ∧
      ∀ word gap : String, Ascii.upper word = "CALLNAT" →
        (∀ c ∈ gap.toList, Lexeme.isSpace c = true ∨ c = '\n') →
        (∀ type, (Scan.ofSource type (word ++ gap ++ literal)).candidates.map (·.name) =
          [Ascii.upper s]) ∧
        ∀ i find, (parseSource i (word ++ gap ++ literal) find).1.references = [Ascii.upper s] := by
  refine ⟨tokenize_eq h, h.stringValue? rfl rfl, ?_, fun word gap hword hgap => ?_⟩
  · rw [tokenize_eq h]
    rfl
  · obtain ⟨call, target, htokens, hcall, htarget, htext⟩ := tokenize_call h hword hgap
    have hvalue := h.stringValue? htarget htext
    refine ⟨fun type => ?_, fun i find => ?_⟩
    · have hseen : Sighting.ofTokens [call, target] =
          [.call ⟨Ascii.upper s, call.start⟩] := by
        simp [Sighting.ofTokens, Sighting.read, hcall, Sighting.ofLiteral, hvalue]
      simp only [Scan.ofSource, htokens, Scan.ofTokens, hseen]
      rfl
    · have hclauses : Clause.ofSource [call, target] =
          [.statement ⟨.callnat (.literal (Ascii.upper s)),
            ⟨call.span.start, target.span.stop⟩⟩] := by
        simp [Clause.ofSource, Clause.ofTokens, Clause.step, Clause.read, hcall, Clause.readCall,
          htarget, hvalue]
      simp only [parseSource, htokens, parseTokens, parse, Module.ofTokens, hclauses]
      rfl

/-- Single quotes at both ends of the text and next to each other in it are written twice, and a
line break stands between the calling word and the literal. -/
theorem literals_read_back_sample :
    Writes "'it''s' \"" "'''it''''s'' \"'" ∧
      (Scan.ofSource .program "Callnat \r\n '''it''''s'' \"'").candidates.map (·.name) =
        ["'IT''S' \""] := by
  have hwrites : Writes "'it''s' \"" "'''it''''s'' \"'" := .single (by decide)
  obtain ⟨-, -, -, hcalls⟩ := literals_read_back hwrites (.ofText "")
  exact ⟨hwrites, (hcalls "Callnat" " \r\n " (by decide) (by simp [Lexeme.isSpace])).1 .program⟩

end Literal

end Steplib
