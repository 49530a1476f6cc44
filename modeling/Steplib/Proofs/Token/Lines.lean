import Steplib.Proofs.Module.Occurrences
import Steplib.Proofs.Token.Lexing

/-!
# Lexing line by line

The tokens of a text that is put together from two texts with a line feed between them are those of
the first text and those of the second one, moved down by the lines of the first. So the tokens of a
line depend on nothing but the line, and neither an open literal nor a comment nor an unknown
character is felt in another line.

## Main definitions

* `Token.shift`, `Diagnostic.shift`: a token and a diagnostic further down in a text.

## Main results

* `lexes_append_lineFeed`, `Lexes.exists_line`: two texts, one after the other, and a line of a
  text, when a text is lexed as a whole.
* `tokenize_append_line`: the tokens and the diagnostics of two texts, one after the other.
-/

namespace Steplib

/-- The token with as many lines and bytes more before it. -/
def Token.shift (lines bytes : Nat) (t : Token) : Token :=
  { t with line := t.line + lines, offset := t.offset + bytes }

/-- The diagnostic with as many lines more before its range. -/
def Diagnostic.shift (lines : Nat) (d : Diagnostic) : Diagnostic :=
  { d with span := ⟨⟨d.span.start.line + lines, d.span.start.column⟩,
      ⟨d.span.stop.line + lines, d.span.stop.column⟩⟩ }

/-- The text of a line, without its line feed. -/
def Text.lineAt (cs : List Char) (i : Nat) : List Char :=
  (cs.splitOn '\n').getD i []

/-- The number of bytes before a line: those of the earlier lines and of their line feeds. -/
def Text.lineOffset (cs : List Char) (i : Nat) : Nat :=
  byteLength (((cs.splitOn '\n').take i).flatMap (· ++ ['\n']))

/-! ### Moving tokens -/

namespace Token

variable (lines bytes : Nat)

theorem ofLexemes_shift (line column offset : Nat) (ls : List Lexeme) :
    ofLexemes (line + lines) column (offset + bytes) ls =
      (ofLexemes line column offset ls).map (shift lines bytes) := by
  induction ls generalizing column offset with
  | nil => rfl
  | cons l ls ih =>
    have hrest := ih (column + l.text.length) (offset + Text.byteLength l.text)
    rw [Nat.add_right_comm] at hrest
    rw [ofLexemes, ofLexemes, hrest]
    split
    · rfl
    · rfl

theorem ofLines_shift (line offset : Nat) (css : List (List Char)) :
    ofLines (line + lines) (offset + bytes) css =
      (ofLines line offset css).map (shift lines bytes) := by
  induction css generalizing line offset with
  | nil => rfl
  | cons cs css ih =>
    have hrest := ih (line + 1) (offset + Text.byteLength cs + 1)
    have hline : line + 1 + lines = line + lines + 1 := by omega
    have hoffset : offset + Text.byteLength cs + 1 + bytes =
        offset + bytes + Text.byteLength cs + 1 := by omega
    rw [hline, hoffset] at hrest
    rw [ofLines, ofLines, hrest, ofLexemes_shift, List.map_append]

theorem diagnostic?_shift (file : Path) (t : Token) :
    (t.shift lines bytes).diagnostic? file = (t.diagnostic? file).map (Diagnostic.shift lines) := by
  rw [diagnostic?, diagnostic?, Option.map_map]
  rfl

end Token

theorem lexicalDiagnostics_shift (lines bytes : Nat) (file : Path) (tokens : List Token) :
    lexicalDiagnostics file (tokens.map (Token.shift lines bytes)) =
      (lexicalDiagnostics file tokens).map (Diagnostic.shift lines) := by
  rw [lexicalDiagnostics, lexicalDiagnostics, List.filterMap_map, List.map_filterMap]
  exact List.filterMap_congr fun t _ => Token.diagnostic?_shift lines bytes file t

/-! ### One text after the other -/

open Token

theorem ofLines_append_line (a b : List Char) (line offset : Nat) :
    ofLines line offset ((a ++ '\n' :: b).splitOn '\n') =
      ofLines line offset (a.splitOn '\n') ++
        ofLines (line + (a.count '\n' + 1)) (offset + (Text.byteLength a + 1))
          (b.splitOn '\n') := by
  by_cases h : '\n' ∈ a
  · obtain ⟨first, rest, rfl, hfirst⟩ := List.eq_append_cons_of_mem h
    have hrest := ofLines_append_line rest b (line + 1) (offset + Text.byteLength first + 1)
    have hline : line + 1 + (rest.count '\n' + 1) =
        line + ((first ++ '\n' :: rest).count '\n' + 1) := by
      rw [List.count_append, List.count_eq_zero.2 hfirst, List.count_cons_self]
      omega
    have hoffset : offset + Text.byteLength first + 1 + (Text.byteLength rest + 1) =
        offset + (Text.byteLength (first ++ '\n' :: rest) + 1) := by
      rw [Text.byteLength_append, Text.byteLength_cons]
      have hfeed : '\n'.utf8Size = 1 := rfl
      omega
    rw [hline, hoffset] at hrest
    rw [List.append_assoc, List.cons_append, List.splitOn_append_cons_self_of_not_mem hfirst,
      List.splitOn_append_cons_self_of_not_mem hfirst, ofLines, ofLines, hrest,
      List.append_assoc]
  · rw [List.splitOn_append_cons_self_of_not_mem h, List.splitOn_eq_singleton h, ofLines, ofLines,
      ofLines, List.append_nil, List.count_eq_zero.2 h]
    rfl
termination_by a.length

/-- The tokens of two texts, one after the other. -/
theorem tokenize_append_lineFeed (a b : String) :
    tokenize (a ++ "\n" ++ b) = tokenize a ++
      (tokenize b).map (Token.shift (a.toList.count '\n' + 1) (a.utf8ByteSize + 1)) := by
  have htext : (a ++ "\n" ++ b).toList = a.toList ++ '\n' :: b.toList := by simp
  have hsize : Text.byteLength a.toList = a.utf8ByteSize := by
    rw [Text.byteLength_eq, String.ofList_toList]
  rw [tokenize, htext, ofLines_append_line, ofLines_shift, hsize]
  rfl

/-- Lexing as a whole, which looks for the longest piece at each place and knows nothing of lines,
takes two texts, one after the other, apart at the line feed between them. -/
theorem lexes_append_lineFeed (a b : String) (tokens : List Token) :
    Lexes [] true (a ++ "\n" ++ b).toList tokens ↔
      ∃ above below, Lexes [] true a.toList above ∧ Lexes [] true b.toList below ∧
        tokens = above ++
          below.map (Token.shift (a.toList.count '\n' + 1) (a.utf8ByteSize + 1)) := by
  simp only [lexes_iff]
  constructor
  · rintro rfl
    exact ⟨_, _, rfl, rfl, tokenize_append_lineFeed a b⟩
  · rintro ⟨_, _, rfl, rfl, rfl⟩
    exact (tokenize_append_lineFeed a b).symm

/-! ### One line -/

/-- The tokens of a line are those of its lexemes. -/
theorem filter_line_ofLines (css : List (List Char)) (line offset i : Nat) :
    (ofLines line offset css).filter (·.line == line + i) =
      ofLexemes (line + i) 0
        (offset + Text.byteLength ((css.take i).flatMap (· ++ ['\n'])))
        (Lexeme.ofLine true (css.getD i [])) := by
  induction css generalizing line offset i with
  | nil => simp [ofLines, ofLexemes, Lexeme.ofLine]
  | cons cs css ih =>
    rw [ofLines, List.filter_append]
    cases i with
    | zero =>
      have hhere : ∀ t ∈ ofLexemes line 0 offset (Lexeme.ofLine true cs), (t.line == line) = true :=
        fun t ht => beq_iff_eq.2 (line_column_of_mem_ofLexemes ht).1
      have hbelow : ∀ t ∈ ofLines (line + 1) (offset + Text.byteLength cs + 1) css,
          ¬(t.line == line) = true := fun t ht => by
        have hline := line_of_mem_ofLines ht
        rw [beq_iff_eq]
        omega
      rw [Nat.add_zero, List.filter_eq_self.2 hhere, List.filter_eq_nil_iff.2 hbelow,
        List.append_nil]
      rfl
    | succ i =>
      have habove : ∀ t ∈ ofLexemes line 0 offset (Lexeme.ofLine true cs),
          ¬(t.line == line + (i + 1)) = true := fun t ht => by
        have hline := (line_column_of_mem_ofLexemes ht).1
        rw [beq_iff_eq]
        omega
      have hrest := ih (line + 1) (offset + Text.byteLength cs + 1) i
      rw [Nat.add_right_comm line 1 i] at hrest
      rw [List.filter_eq_nil_iff.2 habove, List.nil_append, ← Nat.add_assoc, hrest,
        List.take_succ_cons, List.flatMap_cons, Text.byteLength_append, Text.byteLength_append,
        List.getD_cons_succ, ← Nat.add_assoc, ← Nat.add_assoc]
      rfl

/-- A line holds no line feed. -/
theorem Text.lineFeed_notMem_of_mem_splitOn {text line : List Char}
    (h : line ∈ text.splitOn '\n') : '\n' ∉ line := by
  by_cases hfeed : '\n' ∈ text
  · obtain ⟨first, rest, rfl, hfirst⟩ := List.eq_append_cons_of_mem hfeed
    rw [List.splitOn_append_cons_self_of_not_mem hfirst] at h
    rcases List.mem_cons.1 h with rfl | h
    · exact hfirst
    · exact lineFeed_notMem_of_mem_splitOn h
  · rw [List.splitOn_eq_singleton hfeed, List.mem_singleton] at h
    rwa [h]
termination_by text.length

theorem Text.lineFeed_notMem_lineAt (cs : List Char) (i : Nat) : '\n' ∉ lineAt cs i := by
  rw [lineAt, List.getD_eq_getElem?_getD]
  cases h : (cs.splitOn '\n')[i]? with
  | none => exact List.not_mem_nil
  | some line => exact lineFeed_notMem_of_mem_splitOn (List.mem_of_getElem? h)

/-- The tokens of a line are those of its text, moved to its place. -/
theorem filter_line_tokenize (source : String) (i : Nat) :
    (tokenize source).filter (·.line == i) =
      (tokenize (String.ofList (Text.lineAt source.toList i))).map
        (Token.shift i (Text.lineOffset source.toList i)) := by
  have h := filter_line_ofLines (source.toList.splitOn '\n') 0 0 i
  have halone := List.splitOn_eq_singleton (Text.lineFeed_notMem_lineAt source.toList i)
  rw [Nat.zero_add, Nat.zero_add] at h
  rw [tokenize, tokenize, String.toList_ofList, halone, ofLines, ofLines, List.append_nil,
    ← ofLexemes_shift, Nat.zero_add, Nat.zero_add]
  exact h

/-- When a text is lexed as a whole, the tokens of a line are those of lexing the line as a whole,
moved to its place. -/
theorem Lexes.exists_line {source : String} {tokens : List Token}
    (h : Lexes [] true source.toList tokens) (i : Nat) :
    ∃ alone, Lexes [] true (Text.lineAt source.toList i) alone ∧
      tokens.filter (·.line == i) =
        alone.map (Token.shift i (Text.lineOffset source.toList i)) := by
  obtain rfl := (lexes_iff source tokens).1 h
  have halone := lexes_tokenize (String.ofList (Text.lineAt source.toList i))
  rw [String.toList_ofList] at halone
  exact ⟨_, halone, filter_line_tokenize source i⟩

/-- The diagnostics of a line are those of its tokens. -/
theorem filter_line_lexicalDiagnostics (file : Path) (tokens : List Token) (i : Nat) :
    (lexicalDiagnostics file tokens).filter (·.span.start.line == i) =
      lexicalDiagnostics file (tokens.filter (·.line == i)) := by
  rw [lexicalDiagnostics, lexicalDiagnostics, List.filter_filterMap, List.filterMap_filter]
  refine List.filterMap_congr fun t _ => ?_
  rw [diagnostic?]
  cases t.problem? with
  | none => simp
  | some problem => exact Option.filter_some ..

/-- Lexing goes line by line: the tokens and the diagnostics of two texts, one after the other, are
those of the first one and those of the second one, moved down by the first; and those of a line are
what its text gives by itself. The tokens are those of the text as a whole (`lexes_iff`). -/
theorem tokenize_append_line (file : Path) (a b : String) :
    tokenize (a ++ "\n" ++ b) =
        tokenize a ++
          (tokenize b).map (Token.shift (a.toList.count '\n' + 1) (a.utf8ByteSize + 1)) ∧
      lexicalDiagnostics file (tokenize (a ++ "\n" ++ b)) =
        lexicalDiagnostics file (tokenize a) ++
          (lexicalDiagnostics file (tokenize b)).map
            (Diagnostic.shift (a.toList.count '\n' + 1)) ∧
      ∀ (source : String) (i : Nat),
        (tokenize source).filter (·.line == i) =
            (tokenize (String.ofList (Text.lineAt source.toList i))).map
              (Token.shift i (Text.lineOffset source.toList i)) ∧
          (lexicalDiagnostics file (tokenize source)).filter (·.span.start.line == i) =
            (lexicalDiagnostics file
              (tokenize (String.ofList (Text.lineAt source.toList i)))).map
                (Diagnostic.shift i) := by
  refine ⟨tokenize_append_lineFeed a b, ?_, fun source i => ⟨filter_line_tokenize source i, ?_⟩⟩
  · rw [tokenize_append_lineFeed, ← lexicalDiagnostics_shift]
    exact List.filterMap_append
  · rw [filter_line_lexicalDiagnostics, filter_line_tokenize, lexicalDiagnostics_shift]

end Steplib
