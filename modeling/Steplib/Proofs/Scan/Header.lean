import Steplib.Proofs.Scan.Performs
import Steplib.Proofs.Token.Lines
import Steplib.Proofs.Token.Words

/-!
# A header at the end of a source

Neither reader looks over the word `DEFINE`: whatever a source leaves unfinished, it reads on at a
`DEFINE` that follows as it would have stopped there. So when a line with the header of a subroutine
is put after a source in which no data block is open, nothing that was found before changes, and
the header is found as well. The calls of this subroutine do not leave the source any more; all
other references stay.

## Main definitions

* `Token.openAfter`: a data block is open at the end of a list of tokens.
* `Token.headerName?`: the name of the subroutine whose header a list of tokens is.
* `Statement.within`: what becomes of a statement when its source gets a header.

## Main results

* `Sighting.ofTokens_append_define`, `Clause.ofTokens_append_header`: what the readers find when a
  header follows a source.
* `Scan.candidates_append_header`, `Module.ofTokens_append_header`: the scan and the module of a
  source with a header behind it.
* `headerName?_line`: the two words of a header and a name, which may start with a plus, are the
  header of its subroutine.
* `subroutine_calls_classified`: which calls of subroutines are listed and marked as external, and
  what a header at the end of the source changes.
-/

namespace Steplib

/-! ### Headers and open blocks -/

namespace Token

variable {t u define : Token} {rest more tokens : List Token} {name : String} {k : Nat}

/-- A data block is open after the tokens, where `inData` says that one is open before them. -/
def openAfter (inData : Bool) : List Token → Bool
  | [] => inData
  | t :: rest => openAfter (leavesData inData t rest) rest

/-- The name of the subroutine whose header the tokens are. -/
def headerName? : List Token → Option String
  | [define, word, name] =>
    if define.kind = .keyword .define ∧ word.kind = .keyword .subroutine ∧ name.kind = .identifier
    then some name.name else none
  | _ => none

theorem headerName?_eq_some : headerName? tokens = some name ↔
    ∃ define word x, tokens = [define, word, x] ∧ define.kind = .keyword .define ∧
      word.kind = .keyword .subroutine ∧ x.kind = .identifier ∧ x.name = name := by
  unfold headerName?
  split
  · simp only [Option.ite_none_right_eq_some, Option.some.injEq, and_assoc]
    constructor
    · rintro ⟨hdefine, hword, hx, hname⟩
      exact ⟨_, _, _, rfl, hdefine, hword, hx, hname⟩
    · rintro ⟨_, _, _, heq, h⟩
      simp only [List.cons.injEq, and_true] at heq
      obtain ⟨rfl, rfl, rfl⟩ := heq
      exact h
  · rename_i hother
    simp only [reduceCtorEq, false_iff]
    rintro ⟨define, word, x, rfl, -⟩
    exact hother define word x rfl

/-- A header that is moved stays a header of the same subroutine. -/
theorem headerName?_shift (lines bytes : Nat) (h : headerName? tokens = some name) :
    headerName? (tokens.map (shift lines bytes)) = some name := by
  obtain ⟨define, word, x, rfl, hdefine, hword, hx, hname⟩ := headerName?_eq_some.1 h
  exact headerName?_eq_some.2 ⟨_, _, _, rfl, hdefine, hword, hx, hname⟩

/-- The words that a statement uses have nothing to do with the limits of data blocks. -/
theorem openAfter_drop (inData : Bool) (hk : ∀ u ∈ rest.take k, u.IsInner) :
    openAfter inData (rest.drop k) = openAfter inData rest := by
  induction rest generalizing k with
  | nil => simp
  | cons u rest ih =>
    cases k with
    | zero => rfl
    | succ k =>
      obtain ⟨hu, hrest⟩ := List.forall_mem_cons.1 hk
      have hdefine : u.kind ≠ .keyword .define := fun h => by simp [IsInner, h] at hu
      have hend : u.kind ≠ .keyword .endDefine := fun h => by simp [IsInner, h] at hu
      rw [List.drop_succ_cons, ih hrest, openAfter, leavesData_of_ne hdefine hend]

/-! ### Words that a statement uses -/

/-- The first `k` tokens are there, and a statement can use them after its first word. -/
structure InnerPrefix (rest : List Token) (k : Nat) : Prop where
  le_length : k ≤ rest.length
  inner : ∀ u ∈ rest.take k, u.IsInner

namespace InnerPrefix

theorem zero (rest : List Token) : InnerPrefix rest 0 where
  le_length := Nat.zero_le _
  inner := by simp

theorem cons (hu : u.IsInner) (h : InnerPrefix rest k) : InnerPrefix (u :: rest) (k + 1) where
  le_length := Nat.succ_le_succ h.le_length
  inner := List.forall_mem_cons.2 ⟨hu, h.inner⟩

theorem succ (h : InnerPrefix rest k) (hhead : (rest.drop k).head? = some u) (hu : u.IsInner) :
    InnerPrefix rest (k + 1) := by
  rw [List.head?_drop] at hhead
  refine ⟨(List.getElem?_eq_some_iff.1 hhead).1, ?_⟩
  rw [List.take_add_one, hhead, Option.toList_some, List.forall_mem_append,
    List.forall_mem_singleton]
  exact ⟨h.inner, hu⟩

theorem of_leadingName? {x : Token} (h : leadingName? rest = some x) : InnerPrefix rest 1 := by
  obtain ⟨hx, more, rfl⟩ := Sighting.exists_cons_of_leadingName? h
  exact (zero more).cons (by simp [IsInner, hx])

theorem fetchModifiers (rest : List Token) : InnerPrefix rest (fetchModifiers rest) where
  le_length := by
    unfold Token.fetchModifiers
    grind
  inner u hu := (Stretch.inner_of_fetchModifiers rest u hu).1

end InnerPrefix

/-! ### Looking ahead -/

section Define

variable (hdefine : define.kind = .keyword .define)

include hdefine

theorem leadingName?_append_define :
    leadingName? (rest ++ define :: more) = leadingName? rest := by
  cases rest with
  | nil => simp [leadingName?, isIdentifier, hdefine, Option.filter]
  | cons u rest => rfl

theorem fetchModifiers_append_define :
    fetchModifiers (rest ++ define :: more) = fetchModifiers rest := by
  cases rest with
  | nil => simp [fetchModifiers, hdefine]
  | cons u rest => rfl

theorem callsFunction_append_define (t : Token) :
    t.callsFunction (rest ++ define :: more) = t.callsFunction rest := by
  match rest with
  | [] => cases more <;> simp [callsFunction, hdefine]
  | [u] => simp [callsFunction, hdefine]
  | u :: v :: rest => rfl

end Define

end Token

open Token (InnerPrefix)

/-! ### The scanner -/

namespace Sighting

variable {define : Token} {rest more tokens header : List Token} {name : String}

theorem innerPrefix_read (t : Token) (rest : List Token) : InnerPrefix rest (read t rest).2 where
  le_length := by
    have hheader : (ofHeader rest).2 ≤ rest.length := by
      unfold ofHeader
      grind
    have hliteral {skip : Nat} : (ofLiteral t rest skip).2 ≤ rest.length := by
      unfold ofLiteral
      grind [List.head?_drop]
    have hname {x : Token} (h : Token.leadingName? rest = some x) : 1 ≤ rest.length :=
      (InnerPrefix.of_leadingName? h).le_length
    unfold read
    grind
  inner := Stretch.inner_of_read t rest

theorem read_append_define (hdefine : define.kind = .keyword .define) (t : Token)
    (rest more : List Token) : read t (rest ++ define :: more) = read t rest := by
  have hheader : ofHeader (rest ++ define :: more) = ofHeader rest := by
    match rest with
    | [] => cases more <;> simp [ofHeader, hdefine]
    | [u] => simp [ofHeader, hdefine, Token.isIdentifier]
    | u :: v :: rest => rfl
  have hliteral {skip : Nat} (hskip : skip ≤ rest.length) :
      ofLiteral t (rest ++ define :: more) skip = ofLiteral t rest skip := by
    rw [ofLiteral, ofLiteral, List.drop_append_of_le_length hskip]
    cases rest.drop skip with
    | nil => simp [Token.stringValue?, hdefine]
    | cons u _ => rfl
  simp only [read, hheader, Token.leadingName?_append_define hdefine,
    Token.fetchModifiers_append_define hdefine, Token.callsFunction_append_define hdefine,
    hliteral (Nat.zero_le _), hliteral (InnerPrefix.fetchModifiers rest).le_length]

/-- The scanner does not look over the word `DEFINE`. -/
theorem ofTokens_append_define (hdefine : define.kind = .keyword .define) (tokens : List Token) :
    ofTokens (tokens ++ define :: more) = ofTokens tokens ++ ofTokens (define :: more) := by
  fun_induction ofTokens tokens with
  | case1 => rfl
  | case2 t rest found used hread ih =>
    have hused : used ≤ rest.length := by
      have h := (innerPrefix_read t rest).le_length
      rwa [hread] at h
    rw [List.cons_append, ofTokens_cons, read_append_define hdefine, hread,
      List.drop_append_of_le_length hused, ih, List.append_assoc]

/-- The scanner finds a header at the end of a source, and everything else as before. -/
theorem ofTokens_append_header (h : Token.headerName? header = some name) (tokens : List Token) :
    ofTokens (tokens ++ header) = ofTokens tokens ++ [.subroutine name] := by
  obtain ⟨define, word, x, rfl, hdefine, hword, hx, rfl⟩ := Token.headerName?_eq_some.1 h
  rw [ofTokens_append_define hdefine]
  simp [ofTokens, read, ofHeader, hdefine, hword, Token.isIdentifier, hx]

end Sighting

/-! ### The parser -/

namespace DataBlock

theorem innerPrefix_read (b : DataBlock) (startsLine : Bool) (t : Token) (rest : List Token) :
    InnerPrefix rest (b.read startsLine t rest).used := by
  unfold read
  split
  · exact .zero rest
  · exact .zero rest
  · split
    · exact .of_leadingName? ‹_›
    · exact .zero rest
  · split
    · rename_i x hname
      have hused : (b.declare t x).used = 1 := by
        unfold declare
        dsimp only
        split <;> rfl
      rw [hused]
      exact .of_leadingName? hname
    · exact .zero rest
  · exact .zero rest

end DataBlock

namespace Clause

variable {define : Token} {rest more tokens header : List Token} {name : String}

theorem innerPrefix_readDefine (t : Token) (rest : List Token) :
    InnerPrefix rest (readDefine t rest).used := by
  unfold readDefine
  split
  · exact .zero []
  · rename_i word more
    split
    · rename_i hword
      exact (InnerPrefix.zero more).cons (by simp [Token.IsInner, hword])
    · rename_i hword
      have hinner : word.IsInner := by simp [Token.IsInner, hword]
      split
      · exact (InnerPrefix.of_leadingName? ‹_›).cons hinner
      · exact (InnerPrefix.zero more).cons hinner
    · rename_i hword
      have hinner : word.IsInner := by simp [Token.IsInner, hword]
      split
      · rename_i hname
        obtain ⟨x, hname⟩ := Option.isSome_iff_exists.1 hname
        exact (InnerPrefix.of_leadingName? hname).cons hinner
      · exact (InnerPrefix.zero more).cons hinner
    · exact .zero _

theorem innerPrefix_readCall {action : CallTarget → Action} {t : Token} {skip : Nat}
    (h : InnerPrefix rest skip) : InnerPrefix rest (readCall action t rest skip).used := by
  unfold readCall
  split
  · exact h
  · rename_i target htarget
    split
    · rename_i hkind _
      exact h.succ htarget (by simp [Token.IsInner, hkind])
    · rename_i hkind
      exact h.succ htarget (by simp [Token.IsInner, hkind])
    · exact h

theorem innerPrefix_step (block : Option DataBlock) (previous : Option Nat) (t : Token)
    (rest : List Token) : InnerPrefix rest (step block previous t rest).used := by
  cases block with
  | some b => exact b.innerPrefix_read _ t rest
  | none =>
    change InnerPrefix rest (read t rest).used
    fun_cases read t rest with
    | case1 => exact innerPrefix_readDefine t rest
    | case2 _ _ hname | case6 _ _ hname => exact .of_leadingName? hname
    | case4 => exact innerPrefix_readCall (.zero rest)
    | case5 => exact innerPrefix_readCall (.fetchModifiers rest)
    | _ => exact .zero rest

/-- The parser is inside a block exactly when a block is open. -/
theorem isSome_block_step (block : Option DataBlock) (previous : Option Nat) (t : Token)
    (rest : List Token) :
    (step block previous t rest).block.isSome = Token.leavesData block.isSome t rest := by
  cases block with
  | some b =>
    simp only [step, DataBlock.read, DataBlock.declare, Token.leavesData, Option.isSome_some]
    grind
  | none =>
    simp only [step, read, readDefine, readCall, Token.leavesData, Option.isSome_none]
    grind

theorem step_append_define (hdefine : define.kind = .keyword .define) (block : Option DataBlock)
    (previous : Option Nat) (t : Token) (rest more : List Token) :
    step block previous t (rest ++ define :: more) = step block previous t rest := by
  have hheader : readDefine t (rest ++ define :: more) = readDefine t rest := by
    cases rest with
    | nil => simp [readDefine, hdefine]
    | cons u rest =>
      simp only [readDefine, List.cons_append, Token.leadingName?_append_define hdefine]
  have hcall {action : CallTarget → Action} {skip : Nat} (hskip : skip ≤ rest.length) :
      readCall action t (rest ++ define :: more) skip = readCall action t rest skip := by
    rw [readCall, readCall, List.drop_append_of_le_length hskip]
    cases rest.drop skip with
    | nil => simp [Token.stringValue?, hdefine]
    | cons u _ => rfl
  cases block with
  | some b => simp only [step, DataBlock.read, Token.leadingName?_append_define hdefine]
  | none =>
    simp only [step, read, hheader, Token.leadingName?_append_define hdefine,
      Token.fetchModifiers_append_define hdefine, Token.callsFunction_append_define hdefine,
      hcall (Nat.zero_le _), hcall (InnerPrefix.fetchModifiers rest).le_length]

/-- The parser finds a header at the end of a source without an open block, and everything else as
before. -/
theorem ofTokens_append_header (h : Token.headerName? header = some name)
    (block : Option DataBlock) (previous : Option Nat) (tokens : List Token)
    (hclosed : Token.openAfter block.isSome tokens = false) :
    ∃ span, ofTokens block previous (tokens ++ header) =
      ofTokens block previous tokens ++ [.statement ⟨.defineSubroutine name, span⟩] := by
  obtain ⟨define, word, x, rfl, hdefine, hword, hx, rfl⟩ := Token.headerName?_eq_some.1 h
  refine ⟨⟨define.span.start, x.span.stop⟩, ?_⟩
  fun_induction ofTokens block previous tokens with
  | case1 block previous =>
    obtain rfl : block = none := by simpa [Token.openAfter] using hclosed
    simp [ofTokens, step, read, readDefine, hdefine, hword, Token.leadingName?, Option.filter,
      Token.isIdentifier, hx]
  | case2 block previous t rest result last ih =>
    have hinner : InnerPrefix rest result.used := innerPrefix_step block previous t rest
    have hstep := step_append_define hdefine block previous t rest [word, x]
    have hrest : Token.openAfter result.block.isSome (rest.drop result.used) = false := by
      rw [isSome_block_step, Token.openAfter_drop _ hinner.inner]
      exact hclosed
    rw [List.cons_append, ofTokens, hstep, List.take_append_of_le_length hinner.le_length,
      List.drop_append_of_le_length hinner.le_length, ih hrest, List.append_assoc]

end Clause

/-! ### The line of a header -/

section Line

variable {define gap word gap' name : String}

/-- The words `DEFINE` and `SUBROUTINE`, in any letter case, and a name that is no keyword are a
header of its subroutine, with any blanks and line breaks between them. -/
theorem headerName?_line (hdefine : Keyword.ofText? define = some .define)
    (hword : Keyword.ofText? word = some .subroutine)
    (hname : name.toList ∈ Pattern.word.language) (hkeyword : Keyword.ofText? name = none)
    (hgap : gap ≠ "" ∧ ∀ c ∈ gap.toList, Lexeme.isSpace c = true ∨ c = '\n')
    (hgap' : gap' ≠ "" ∧ ∀ c ∈ gap'.toList, Lexeme.isSpace c = true ∨ c = '\n') :
    Token.headerName? (tokenize (define ++ gap ++ word ++ gap' ++ name)) =
      some (Ascii.upper name) := by
  have hnext {gap : String} (h : gap ≠ "" ∧ ∀ c ∈ gap.toList, Lexeme.isSpace c = true ∨ c = '\n')
      (more : List Char) : ∀ d ∈ (gap.toList ++ more).head?, Lexeme.isWordPart d = false :=
    Lexeme.head_blanks h.2 fun hnil => absurd (String.toList_eq_nil_iff.1 hnil) h.1
  have hkind : Pattern.word.tokenKind? name.toList = some .identifier := by
    simp [Pattern.tokenKind?, String.ofList_toList, hkeyword]
  have hend : ∀ d ∈ ([] : List Char).head?, Lexeme.isWordPart d = false := by simp
  have hlexes : Lexes [] true
      (define.toList ++ (gap.toList ++ (word.toList ++ (gap'.toList ++ (name.toList ++ [])))))
      [.after [] (.keyword .define) define.toList,
        .after (define.toList ++ gap.toList) (.keyword .subroutine) word.toList,
        .after (define.toList ++ gap.toList ++ word.toList ++ gap'.toList) .identifier
          name.toList] :=
    .word (Keyword.mem_word hdefine) (Keyword.tokenKind? hdefine) (hnext hgap _) <|
      .blanks_word hgap.2 (Keyword.mem_word hword) (Keyword.tokenKind? hword) (hnext hgap' _) <|
        .blanks_word hgap'.2 hname hkind hend (.nil ..)
  have htext : (define ++ gap ++ word ++ gap' ++ name).toList =
      define.toList ++ (gap.toList ++ (word.toList ++ (gap'.toList ++ (name.toList ++ [])))) := by
    simp
  rw [← htext] at hlexes
  rw [← (lexes_iff _ _).1 hlexes]
  refine Token.headerName?_eq_some.2 ⟨_, _, _, rfl, rfl, rfl, rfl, ?_⟩
  rw [Token.name, Token.after, String.ofList_toList]

example : Token.headerName? (tokenize "define subroutine +aiv") = some "+AIV" := by
  decide +kernel

end Line

/-! ### A header behind a text -/

/-- A line with a header behind a text gives a header behind the tokens of the text. -/
theorem exists_header {line name : String} (h : Token.headerName? (tokenize line) = some name)
    (source : String) :
    ∃ header, Token.headerName? header = some name ∧
      tokenize (source ++ "\n" ++ line) = tokenize source ++ header := by
  exact ⟨_, Token.headerName?_shift _ _ h, tokenize_append_lineFeed source line⟩

namespace Scan

variable {type : ObjectType} {source line name : String}

theorem candidates_ofTokens (type : ObjectType) (tokens : List Token) :
    (ofTokens type tokens).candidates =
      (Sighting.ofTokens tokens).filterMap Sighting.call? ++
        ((Sighting.ofTokens tokens).filterMap Sighting.perform?).filter fun a =>
          !((Sighting.ofTokens tokens).filterMap Sighting.subroutine?).contains a.name :=
  rfl

/-- With a header behind the source the scanner does not list the calls of its subroutine any
more. -/
theorem candidates_append_header (h : Token.headerName? (tokenize line) = some name) :
    (ofSource type (source ++ "\n" ++ line)).candidates =
      (ofSource type source).candidates.filter fun a =>
        !(a.name = name ∧
          a ∈ (Token.places false (tokenize source)).filterMap TokenPlace.perform?) := by
  obtain ⟨header, hheader, htokens⟩ := exists_header h source
  have hcalls : ∀ a ∈ (Sighting.ofTokens (tokenize source)).filterMap Sighting.call?,
      a ∉ (Token.places false (tokenize source)).filterMap TokenPlace.perform? :=
    fun a ha hperform => Sighting.call_notMem hperform (Sighting.call_mem_iff.2 ha)
  rw [ofSource, htokens, candidates_ofTokens, Sighting.ofTokens_append_header hheader, ofSource,
    candidates_ofTokens]
  rw [← Sighting.performs_ofTokens] at hcalls ⊢
  generalize Sighting.ofTokens (tokenize source) = seen at hcalls ⊢
  rw [List.filter_append, List.filter_filter]
  congr 1
  · have hkeep : ∀ a ∈ seen.filterMap Sighting.call?,
        (!decide (a.name = name ∧ a ∈ seen.filterMap Sighting.perform?)) = true := fun a ha => by
      simp only [hcalls a ha, and_false, decide_false, Bool.not_false]
    rw [List.filter_eq_self.2 hkeep]
    simp [Sighting.call?]
  · have hperforms : (seen ++ [Sighting.subroutine name]).filterMap Sighting.perform? =
        seen.filterMap Sighting.perform? := by
      simp [Sighting.perform?]
    have hdefined : (seen ++ [Sighting.subroutine name]).filterMap Sighting.subroutine? =
        seen.filterMap Sighting.subroutine? ++ [name] := by
      simp [Sighting.subroutine?]
    rw [hperforms, hdefined]
    refine List.filter_congr fun a ha => ?_
    simp [ha, Bool.and_comm]

end Scan

/-- What becomes of the statement when its source gets a header of the subroutine called `name`. -/
def Statement.within (name : String) (s : Statement) : Statement :=
  if s.action = .perform name true then { s with action := .perform name false } else s

theorem Statement.within_of_ne {s : Statement} {name : String}
    (h : s.action ≠ .perform name true) : s.within name = s :=
  if_neg h

/-- A call of the subroutine is no reference any more; every other statement is one as before. -/
theorem Statement.reference?_within (s : Statement) (name : String) :
    (s.within name).reference?.isSome =
      (decide (s.action ≠ .perform name true) && s.reference?.isSome) := by
  by_cases h : s.action = .perform name true
  · simp [within, h, reference?, Action.reference?]
  · simp [within_of_ne h, h]

theorem Clause.statements_within (tokens : List Token) (defined : List String) (name : String) :
    (Clause.ofSource tokens).filterMap (Clause.statement? (defined ++ [name])) =
      ((Clause.ofSource tokens).filterMap (Clause.statement? defined)).map
        (Statement.within name) := by
  rw [List.map_filterMap]
  refine List.filterMap_congr fun c hc => ?_
  cases c with
  | statement s => simp [statement?, Statement.within_of_ne (action_ne_perform hc name true)]
  | perform other span =>
    by_cases hname : other = name
    · subst hname
      by_cases hdefined : other ∈ defined <;> simp [statement?, Statement.within, hdefined]
    · simp [statement?, Statement.within, hname]
  | _ => rfl

namespace Module

variable {i : Identity} {tokens header : List Token} {name : String}

/-- With a header behind the source its module has the header's statement, and the calls of the
subroutine are marked as internal. -/
theorem ofTokens_append_header (i : Identity) (h : Token.headerName? header = some name)
    (hclosed : Token.openAfter false tokens = false) :
    ∃ span, ofTokens i (tokens ++ header) =
      { ofTokens i tokens with
        tree := (ofTokens i tokens).tree.map (Statement.within name) ++
          [⟨.defineSubroutine name, span⟩] } := by
  obtain ⟨span, hclauses⟩ := Clause.ofTokens_append_header h none none tokens hclosed
  refine ⟨span, ?_⟩
  change Clause.ofSource (tokens ++ header) = Clause.ofSource tokens ++ _ at hclauses
  simp only [ofTokens, ofClauses, hclauses, List.filterMap_append]
  have hdefined : [Clause.statement ⟨.defineSubroutine name, span⟩].filterMap Clause.subroutine? =
      [name] := rfl
  have hdeclared : [Clause.statement ⟨.defineSubroutine name, span⟩].filterMap Clause.declare? =
      [] := rfl
  rw [hdefined, hdeclared, Clause.statements_within, List.append_nil]
  simp [Clause.statement?, Clause.importArea?]

/-- With a header behind the source its module has the same references as before, without the calls
of the subroutine. -/
theorem references_append_header (i : Identity) (h : Token.headerName? header = some name)
    (hclosed : Token.openAfter false tokens = false) :
    (ofTokens i (tokens ++ header)).usings = (ofTokens i tokens).usings ∧
      (ofTokens i (tokens ++ header)).tree.filter (·.reference?.isSome) =
        ((ofTokens i tokens).tree.filter (·.reference?.isSome)).filter
          (·.action ≠ .perform name true) := by
  obtain ⟨span, hmodule⟩ := ofTokens_append_header i h hclosed
  rw [hmodule]
  refine ⟨rfl, ?_⟩
  have hheader : [(⟨.defineSubroutine name, span⟩ : Statement)].filter (·.reference?.isSome) = [] :=
    rfl
  have hkept : ((·.reference?.isSome) : Statement → Bool) ∘ Statement.within name =
      fun s => decide (s.action ≠ .perform name true) && s.reference?.isSome :=
    funext fun s => s.reference?_within name
  rw [List.filter_append, hheader, List.append_nil, List.filter_map, hkept, ← List.filter_filter]
  exact (List.map_congr_left fun s hs =>
    Statement.within_of_ne (of_decide_eq_true (List.mem_filter.1 hs).2)).trans (List.map_id _)

end Module

/-! ### The calls of subroutines -/

/-- Where a header stands does not count for the calls of its subroutine. The scanner lists a call
when the source has no header for it, the parser marks a call as external when the source has none
outside data blocks. A line with a header behind the source, with no block open, takes the calls of
its subroutine out of the references and leaves all others. -/
theorem subroutine_calls_classified (i : Identity) (find : String → Option Module)
    (source : String) :
    let places := Token.places false (tokenize source)
    let m := (parseSource i source find).1
    (∀ a ∈ places.filterMap TokenPlace.perform?,
      a ∈ (Scan.ofSource i.type source).candidates ↔
        ∀ q ∈ places, q.subroutine? ≠ some a.name) ∧
    (∀ a : Candidate,
      (∃ s ∈ m.tree, (∃ external, s.action = .perform a.name external) ∧
          s.span.start = a.position) ↔
        a ∈ (places.filter (!·.inData)).filterMap TokenPlace.perform?) ∧
    (∀ s ∈ m.tree, ∀ name external, s.action = .perform name external →
      (external = true ↔ ∀ q ∈ places, q.inData = false → q.subroutine? ≠ some name)) ∧
    ∀ line name, Token.headerName? (tokenize line) = some name →
      Token.openAfter false (tokenize source) = false →
        let longer := source ++ "\n" ++ line
        (Scan.ofSource i.type longer).candidates =
            (Scan.ofSource i.type source).candidates.filter
              (fun a => !(a.name = name ∧ a ∈ places.filterMap TokenPlace.perform?)) ∧
          (parseSource i longer find).1.usings = m.usings ∧
          (parseSource i longer find).1.tree.filter (·.reference?.isSome) =
            (m.tree.filter (·.reference?.isSome)).filter (·.action ≠ .perform name true) := by
  refine ⟨fun a ha => Scan.perform_mem_candidates_iff ha, fun a => Module.perform_mem_tree_iff,
    fun s hs name external haction => Module.external_iff hs haction,
    fun line name hline hclosed => ⟨Scan.candidates_append_header hline, ?_⟩⟩
  obtain ⟨header, hheader, htokens⟩ := exists_header hline source
  change (Module.ofTokens i (tokenize (source ++ "\n" ++ line))).usings = _ ∧
    (Module.ofTokens i (tokenize (source ++ "\n" ++ line))).tree.filter _ = _
  rw [htokens]
  exact Module.references_append_header i hheader hclosed

/-- A call before the header of its subroutine, one without a header, and a literal that is left
open at the end. -/
private def twoCalls : String :=
  "PERFORM OWN PERFORM OTHER\nDEFINE SUBROUTINE OWN END-SUBROUTINE\nCALLNAT 'SUB' FETCH 'PROG"

theorem subroutine_calls_classified_sample :
    Token.headerName? (tokenize "define subroutine Other") = some "OTHER" ∧
      Token.openAfter false (tokenize twoCalls) = false ∧
      (Scan.ofSource .program twoCalls).candidates =
        [⟨"SUB", ⟨2, 0⟩⟩, ⟨"OTHER", ⟨0, 12⟩⟩] ∧
      (∀ q ∈ Token.places false (tokenize twoCalls), q.subroutine? ≠ some "OTHER") ∧
      (Scan.ofSource .program (twoCalls ++ "\n" ++ "define subroutine Other")).candidates =
        [⟨"SUB", ⟨2, 0⟩⟩] := by
  have hline : Token.headerName? (tokenize "define subroutine Other") = some "OTHER" := by
    decide +kernel
  have hclosed : Token.openAfter false (tokenize twoCalls) = false := by decide +kernel
  have hall := subroutine_calls_classified ⟨.ofText "L/P.NSP", "L", "P", .program⟩ (fun _ => none)
    twoCalls
  refine ⟨hline, hclosed, by decide +kernel, ?_, ?_⟩
  · exact (hall.1 ⟨"OTHER", ⟨0, 12⟩⟩ (by decide +kernel)).1 (by decide +kernel)
  · exact (hall.2.2.2 _ _ hline hclosed).1.trans (by decide +kernel)

end Steplib
