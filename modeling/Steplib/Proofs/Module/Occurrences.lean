import Mathlib.Data.List.Nodup
import Mathlib.Data.List.Perm.Basic
import Steplib.Module.Parse

/-!
# The places where modules are referred to

A module refers to another one at places of its source: the imports of data areas and the statements
with a target. No two of these places are the same, since each starts at a token of its own. A
reference that leads nowhere is reported at its place and nowhere else, so exactly once.

## Main definitions

* `Module.occurrences`: the names that a module refers to, each with its place.
* `Diagnostic.isMissing`: the diagnostic reports a reference that leads nowhere.

## Main results

* `Token.pairwise_tokenize`: the tokens of a text stand one after the other.
* `Module.nodup_occurrences`: no two references of a module are at the same place.
* `countP_isMissing_parseTokens`: a reference is reported exactly once if it leads nowhere.
-/

namespace Steplib

/-! ### Tokens stand one after the other -/

namespace Token

/-- The token starts before another one. -/
def Before (t u : Token) : Prop :=
  t.line < u.line ∨ t.line = u.line ∧ t.column < u.column

/-- The token ends where another one starts, or before. -/
def EndsBefore (t u : Token) : Prop :=
  t.line < u.line ∨ t.line = u.line ∧ t.column + t.text.length ≤ u.column

theorem line_column_of_mem_ofLexemes {line column offset : Nat} {ls : List Lexeme} {t : Token}
    (h : t ∈ ofLexemes line column offset ls) : t.line = line ∧ column ≤ t.column := by
  induction ls generalizing column offset with
  | nil => simp [ofLexemes] at h
  | cons l ls ih =>
    have hmore (h : t ∈ ofLexemes line (column + l.text.length)
        (offset + Text.byteLength l.text) ls) : t.line = line ∧ column ≤ t.column := by
      obtain ⟨hline, hcolumn⟩ := ih h
      exact ⟨hline, by omega⟩
    simp only [ofLexemes] at h
    split at h
    · exact hmore h
    · rcases List.mem_cons.1 h with rfl | h
      · exact ⟨rfl, Nat.le_refl _⟩
      · exact hmore h

theorem pairwise_ofLexemes {ls : List Lexeme} (hls : ∀ l ∈ ls, l.text ≠ [])
    (line column offset : Nat) :
    (ofLexemes line column offset ls).Pairwise fun t u => t.Before u ∧ t.EndsBefore u := by
  induction ls generalizing column offset with
  | nil => exact .nil
  | cons l ls ih =>
    obtain ⟨hl, hls⟩ := List.forall_mem_cons.1 hls
    have hpos : 0 < l.text.length := List.length_pos_iff.2 hl
    simp only [ofLexemes]
    split
    · exact ih hls _ _
    · refine List.pairwise_cons.2 ⟨fun t ht => ?_, ih hls _ _⟩
      obtain ⟨hline, hcolumn⟩ := line_column_of_mem_ofLexemes ht
      refine ⟨.inr ⟨hline.symm, ?_⟩, .inr ⟨hline.symm, ?_⟩⟩
      · exact Nat.lt_of_lt_of_le (Nat.lt_add_of_pos_right hpos) hcolumn
      · simpa using hcolumn

theorem line_of_mem_ofLines {line offset : Nat} {css : List (List Char)} {t : Token}
    (h : t ∈ ofLines line offset css) : line ≤ t.line := by
  induction css generalizing line offset with
  | nil => simp [ofLines] at h
  | cons cs css ih =>
    rcases List.mem_append.1 h with h | h
    · exact Nat.le_of_eq (line_column_of_mem_ofLexemes h).1.symm
    · exact Nat.le_of_succ_le (ih h)

theorem pairwise_ofLines (line offset : Nat) (css : List (List Char)) :
    (ofLines line offset css).Pairwise fun t u => t.Before u ∧ t.EndsBefore u := by
  induction css generalizing line offset with
  | nil => exact .nil
  | cons cs css ih =>
    refine List.pairwise_append.2 ⟨pairwise_ofLexemes
      (fun l => Lexeme.text_ne_nil_of_mem_ofLine) line 0 offset, ih _ _, fun t ht u hu => ?_⟩
    have hline : t.line < u.line := by
      have hu := line_of_mem_ofLines hu
      rw [(line_column_of_mem_ofLexemes ht).1]
      omega
    exact ⟨.inl hline, .inl hline⟩

/-- The tokens of a text stand one after the other. -/
theorem pairwise_tokenize (source : String) : (tokenize source).Pairwise Before :=
  (pairwise_ofLines 0 0 _).imp And.left

/-- The tokens of a text do not overlap. -/
theorem pairwise_endsBefore_tokenize (source : String) : (tokenize source).Pairwise EndsBefore :=
  (pairwise_ofLines 0 0 _).imp And.right

/-- No two tokens of a text start at the same place. -/
theorem nodup_start_tokenize (source : String) : ((tokenize source).map start).Nodup := by
  refine List.pairwise_map.2 ((pairwise_tokenize source).imp fun {t u} h heq => ?_)
  have hline : t.line = u.line := congrArg Position.line heq
  have hcolumn : t.column = u.column := congrArg Position.column heq
  rcases h with h | ⟨-, h⟩ <;> omega

end Token

/-! ### The references of clauses -/

/-- The name that the statement refers to, with the range of the statement. -/
def Statement.occurrence? (s : Statement) : Option (String × Span) :=
  s.reference?.map (·, s.span)

/-- The imports and the statements of the module that refer to another one, with their ranges. -/
def Module.occurrences (m : Module) : List (String × Span) :=
  m.usings.map (fun u => (u.name, u.span)) ++ m.tree.filterMap Statement.occurrence?

/-- The names of a module are those of its references. -/
theorem Module.references_eq (m : Module) : m.references = m.occurrences.map (·.1) := by
  have htree : m.tree.filterMap Statement.reference? =
      (m.tree.filterMap Statement.occurrence?).map (·.1) := by
    rw [List.map_filterMap]
    refine List.filterMap_congr fun s _ => ?_
    cases h : s.reference? <;> simp [Statement.occurrence?, h]
  simp only [references, occurrences, List.map_append, List.map_map, htree]
  rfl

namespace Clause

/-- The reference of the clause, where `defined` are the subroutines of the source. -/
def occurrence? (defined : List String) (c : Clause) : Option (String × Span) :=
  match c with
  | importArea u => some (u.name, u.span)
  | c => (c.statement? defined).bind Statement.occurrence?

variable {defined : List String} {c : Clause} {o : String × Span} {t name : Token}
  {rest : List Token}

/-- The references of a module are those of its clauses, the imports first. -/
theorem occurrences_perm (defined : List String) (cs : List Clause) :
    ((cs.filterMap importArea?).map (fun u => (u.name, u.span)) ++
      (cs.filterMap (statement? defined)).filterMap Statement.occurrence?).Perm
        (cs.filterMap (occurrence? defined)) := by
  induction cs with
  | nil => exact .nil
  | cons c cs ih =>
    -- an import comes first on both sides; the reference of a statement moves over the imports
    have hmiddle (o : String × Span) := List.perm_middle.trans (ih.cons o)
    cases c with
    | importArea u => simpa [List.filterMap_cons, importArea?, statement?, occurrence?] using ih
    | declare v => simpa [List.filterMap_cons, importArea?, statement?, occurrence?] using ih
    | problem span p => simpa [List.filterMap_cons, importArea?, statement?, occurrence?] using ih
    | statement s =>
      simp only [List.filterMap_cons, importArea?, statement?, occurrence?, Option.bind_some]
      cases s.occurrence? with
      | none => exact ih
      | some o => exact hmiddle o
    | perform name span =>
      simp only [List.filterMap_cons, importArea?, statement?, occurrence?, Option.bind_some]
      cases Statement.occurrence? ⟨.perform name (!defined.contains name), span⟩ with
      | none => exact ih
      | some o => exact hmiddle o

theorem mem_take_of_head?_drop {skip : Nat} (h : (rest.drop skip).head? = some t) :
    t ∈ rest.take (skip + 1) := by
  rw [List.head?_drop] at h
  simp [List.take_add_one, h]

theorem mem_take_one_of_leadingName? (h : Token.leadingName? rest = some name) :
    name ∈ rest.take 1 :=
  @mem_take_of_head?_drop name rest 0 (Option.filter_eq_some_iff.1 h).1

theorem declare_cases (b : DataBlock) (number name : Token) :
    (∃ v, (b.declare number name).clause = some (.declare v)) ∨
      ∃ span, (b.declare number name).clause =
        some (.problem span (.invalidLevel number.text name.text)) := by
  unfold DataBlock.declare
  dsimp only
  split
  · exact .inl ⟨_, rfl⟩
  · exact .inr ⟨_, rfl⟩

/-- What can be read at a token inside a block. -/
theorem readBlock_cases {b : DataBlock} {startsLine : Bool}
    (hc : (b.read startsLine t rest).clause = some c) :
    c = .statement ⟨.defineData, b.define.span⟩ ∨
      (∃ name, Token.leadingName? rest = some name ∧ (b.read startsLine t rest).used = 1 ∧
        c = .importArea ⟨name.name, b.scope, name.span⟩) ∨
      (∃ v, c = .declare v) ∨
      ∃ span number name, c = .problem span (.invalidLevel number name) := by
  unfold DataBlock.read at hc ⊢
  split at hc
  · exact .inl (Option.some.inj hc).symm
  · simp at hc
  · split at hc
    · rename_i name hname
      exact .inr (.inl ⟨name, hname, by simp_all, (Option.some.inj hc).symm⟩)
    · simp at hc
  · split at hc
    · rename_i name _
      rcases declare_cases b t name with ⟨v, hv⟩ | ⟨span, hv⟩
      · exact .inr (.inr (.inl ⟨v, Option.some.inj (hc.symm.trans hv)⟩))
      · exact .inr (.inr (.inr ⟨span, _, _, Option.some.inj (hc.symm.trans hv)⟩))
    · simp at hc
  · simp at hc

theorem readCall_cases {action : CallTarget → Action} {skip : Nat}
    (hc : (readCall action t rest skip).clause = some c) :
    ∃ target, ∃ last ∈ rest.take (readCall action t rest skip).used,
      c = .statement ⟨action target, ⟨t.start, last.span.stop⟩⟩ ∧
        ∀ name, target = .literal name → Ascii.upper name = name := by
  unfold readCall at hc ⊢
  split at hc
  · simp at hc
  · rename_i last hlast
    have hmem := mem_take_of_head?_drop hlast
    dsimp only at hc
    split at hc
    · rename_i hkind hvalue
      refine ⟨_, last, by simpa only [hlast, hkind, hvalue] using hmem, (Option.some.inj hc).symm,
        fun name hname => ?_⟩
      obtain rfl := CallTarget.literal.inj hname
      exact Ascii.upper_upper _
    · rename_i hkind
      exact ⟨_, last, by simpa only [hlast, hkind] using hmem, (Option.some.inj hc).symm,
        fun name hname => by simp at hname⟩
    · simp at hc

/-- What can be read at a token outside every block. -/
theorem read_cases (hc : (read t rest).clause = some c) :
    (∃ name span, c = .statement ⟨.defineSubroutine name, span⟩) ∨
      ∃ last ∈ t :: rest.take (read t rest).used,
        (∃ name, Ascii.upper name = name ∧ c = .perform name ⟨t.start, last.span.stop⟩) ∨
        ∃ action, c = .statement ⟨action, ⟨t.start, last.span.stop⟩⟩ ∧
          ∀ name, action.reference? = some name → Ascii.upper name = name := by
  unfold read at hc ⊢
  split at hc
  · left
    unfold readDefine at hc
    grind
  · rename_i hkind
    split at hc
    · rename_i last hlast
      have hmem := List.mem_cons_of_mem t (mem_take_one_of_leadingName? hlast)
      refine .inr ⟨last, by simpa only [hkind, hlast] using hmem,
        .inl ⟨last.name, Ascii.upper_upper _, (Option.some.inj hc).symm⟩⟩
    · simp at hc
  · rename_i hkind
    obtain ⟨target, last, hmem, rfl, hupper⟩ := readCall_cases hc
    refine .inr ⟨last, List.mem_cons_of_mem t (by simpa only [hkind] using hmem),
      .inr ⟨_, rfl, fun name hname => hupper name ?_⟩⟩
    cases target <;> simp_all [Action.reference?]
  · rename_i hkind
    obtain ⟨target, last, hmem, rfl, hupper⟩ := readCall_cases hc
    refine .inr ⟨last, List.mem_cons_of_mem t (by simpa only [hkind] using hmem),
      .inr ⟨_, rfl, fun name hname => hupper name ?_⟩⟩
    cases target <;> simp_all [Action.reference?]
  · rename_i hkind
    split at hc
    · rename_i last hlast
      have hmem := List.mem_cons_of_mem t (mem_take_one_of_leadingName? hlast)
      refine .inr ⟨last, by simpa only [hkind, hlast] using hmem,
        .inr ⟨_, (Option.some.inj hc).symm, fun name hname => ?_⟩⟩
      obtain rfl := Option.some.inj hname
      exact Ascii.upper_upper _
    · simp at hc
  · split at hc
    · refine .inr ⟨t, List.mem_cons_self, .inr ⟨_, (Option.some.inj hc).symm, fun name hname => ?_⟩⟩
      obtain rfl := Option.some.inj hname
      exact Ascii.upper_upper _
    · split at hc
      · refine .inr ⟨t, List.mem_cons_self,
          .inr ⟨_, (Option.some.inj hc).symm, fun name hname => ?_⟩⟩
        simp [Action.reference?] at hname
      · simp at hc
  · simp at hc

/-- A reference that is read at a token is in upper case, and it starts and ends with tokens that
were used. -/
theorem occurrence_of_step {block : Option DataBlock} {previous : Option Nat}
    (hc : (step block previous t rest).clause = some c) (ho : c.occurrence? defined = some o) :
    Ascii.upper o.1 = o.1 ∧
      o.2.start ∈ (t :: rest.take (step block previous t rest).used).map Token.start ∧
      o.2.stop ∈ (t :: rest.take (step block previous t rest).used).map (·.span.stop) := by
  cases block with
  | some b =>
    rcases readBlock_cases hc with rfl | ⟨name, hname, hused, rfl⟩ | ⟨v, rfl⟩ | ⟨_, _, _, rfl⟩
    · simp [occurrence?, statement?, Statement.occurrence?, Statement.reference?,
        Action.reference?] at ho
    · obtain rfl := Option.some.inj ho
      have hmem := mem_take_one_of_leadingName? hname
      have hused : (step (some b) previous t rest).used = 1 := hused
      rw [hused]
      exact ⟨Ascii.upper_upper _, List.mem_cons_of_mem _ (List.mem_map_of_mem hmem),
        List.mem_cons_of_mem _ (List.mem_map.2 ⟨name, hmem, rfl⟩)⟩
    · simp [occurrence?, statement?] at ho
    · simp [occurrence?, statement?] at ho
  | none =>
    have hplace (last : Token) (hlast : last ∈ t :: rest.take (read t rest).used) :
        t.start ∈ (t :: rest.take (step none previous t rest).used).map Token.start ∧
          last.span.stop ∈
            (t :: rest.take (step none previous t rest).used).map (·.span.stop) :=
      ⟨List.mem_cons_self, List.mem_map.2 ⟨last, hlast, rfl⟩⟩
    rcases read_cases hc with ⟨_, _, rfl⟩ | ⟨last, hlast, ⟨name, hname, rfl⟩ | ⟨action, rfl, hname⟩⟩
    · simp [occurrence?, statement?, Statement.occurrence?, Statement.reference?,
        Action.reference?] at ho
    · obtain ⟨n, hn, rfl⟩ := Option.map_eq_some_iff.1 ho
      refine ⟨?_, hplace last hlast⟩
      cases hd : defined.contains name <;>
        simp_all [Statement.reference?, Action.reference?]
    · obtain ⟨n, hn, rfl⟩ := Option.map_eq_some_iff.1 ho
      exact ⟨hname n hn, hplace last hlast⟩

/-- The end of a source inside a block is no reference. -/
theorem filterMap_occurrence?_atEnd (defined : List String) (block : Option DataBlock) :
    ((block.map DataBlock.atEnd).getD []).filterMap (occurrence? defined) = [] := by
  cases block <;> rfl

/-- The references of a source start at tokens of it, one after the other. -/
theorem starts_sublist (defined : List String) (block : Option DataBlock) (previous : Option Nat)
    (tokens : List Token) :
    (((ofTokens block previous tokens).filterMap (occurrence? defined)).map (·.2.start)).Sublist
      (tokens.map Token.start) := by
  fun_induction ofTokens block previous tokens with
  | case1 block previous => simp [filterMap_occurrence?_atEnd]
  | case2 block previous t rest result last ih =>
    have hsplit : (t :: rest).map Token.start =
        (t :: rest.take result.used).map Token.start ++
          (rest.drop result.used).map Token.start := by
      rw [← List.map_append, List.cons_append, List.take_append_drop]
    rw [List.filterMap_append, List.map_append, hsplit]
    refine List.Sublist.append ?_ ih
    cases hc : result.clause with
    | none => exact List.nil_sublist _
    | some c =>
      cases ho : c.occurrence? defined with
      | none => simp [ho]
      | some o => simpa [ho] using (occurrence_of_step hc ho).2.1

/-- The names that a source refers to are in upper case. -/
theorem upper_occurrence {block : Option DataBlock} {previous : Option Nat} {tokens : List Token}
    (ho : o ∈ (ofTokens block previous tokens).filterMap (occurrence? defined)) :
    Ascii.upper o.1 = o.1 := by
  fun_induction ofTokens block previous tokens with
  | case1 block previous => simp [filterMap_occurrence?_atEnd] at ho
  | case2 block previous t rest result last ih =>
    rw [List.filterMap_append] at ho
    rcases List.mem_append.1 ho with ho | ho
    · obtain ⟨c, hc, ho⟩ := List.mem_filterMap.1 ho
      exact (occurrence_of_step (Option.mem_toList.1 hc) ho).1
    · exact ih ho

/-- What is wrong with a clause is never that a reference leads nowhere. -/
theorem code_of_problem? {block : Option DataBlock} {previous : Option Nat} {tokens : List Token}
    {span : Span} {p : Problem} (h : Clause.problem span p ∈ ofTokens block previous tokens) :
    p.code = "E0006" ∨ p.code = "E0007" := by
  fun_induction ofTokens block previous tokens with
  | case1 block previous =>
    cases block with
    | none => simp at h
    | some b =>
      left
      simp [DataBlock.atEnd] at h
      obtain ⟨-, rfl⟩ := h
      rfl
  | case2 block previous t rest result last ih =>
    rcases List.mem_append.1 h with h | h
    · have hc := Option.mem_toList.1 h
      cases block with
      | some b =>
        rcases readBlock_cases hc with h | ⟨_, -, -, h⟩ | ⟨_, h⟩ | ⟨_, _, _, h⟩
        · simp at h
        · simp at h
        · simp at h
        · obtain ⟨-, rfl⟩ := Clause.problem.inj h
          exact .inr rfl
      | none =>
        rcases read_cases hc with ⟨_, _, h⟩ | ⟨_, -, ⟨_, -, h⟩ | ⟨_, h, -⟩⟩ <;> simp at h
    · exact ih h

end Clause

namespace Module

variable (i : Identity)

/-- The references of a module are those of the clauses of its source. -/
theorem occurrences_ofTokens (tokens : List Token) :
    ∃ defined, (ofTokens i tokens).occurrences.Perm
      ((Clause.ofSource tokens).filterMap (Clause.occurrence? defined)) :=
  ⟨_, Clause.occurrences_perm _ _⟩

/-- No two references of a module are at the same place. -/
theorem nodup_occurrences (source : String) :
    ((ofTokens i (tokenize source)).occurrences.map (·.2)).Nodup := by
  obtain ⟨defined, hperm⟩ := occurrences_ofTokens i (tokenize source)
  have hstarts := (Clause.starts_sublist defined none none (tokenize source)).nodup
    (Token.nodup_start_tokenize source)
  refine List.Nodup.of_map Span.start ?_
  rw [List.map_map]
  exact (hperm.map (·.2.start)).nodup_iff.2 hstarts

/-- The names that a module refers to are in upper case. -/
theorem upper_of_mem_references {tokens : List Token} {name : String}
    (h : name ∈ (ofTokens i tokens).references) : Ascii.upper name = name := by
  rw [references_eq] at h
  obtain ⟨o, ho, rfl⟩ := List.mem_map.1 h
  obtain ⟨defined, hperm⟩ := occurrences_ofTokens i tokens
  exact Clause.upper_occurrence (hperm.mem_iff.1 ho)

end Module

/-! ### What is reported about references -/

/-- The diagnostic reports a reference that leads nowhere. -/
def Diagnostic.isMissing (d : Diagnostic) : Bool :=
  ["E0002", "E0003", "E0004", "E0005"].contains d.code

/-- Where the diagnostic is reported. -/
def Diagnostic.location (d : Diagnostic) : Location :=
  ⟨d.file, d.span⟩

@[simp]
theorem Diagnostic.location_ofProblem (file : Path) (span : Span) (p : Problem)
    (cause : Option Location) : (ofProblem file span p cause).location = ⟨file, span⟩ := rfl

section Reports

variable (i : Identity) (tokens : List Token) (m : Module) (find : String → Option Module)

theorem code_of_mem_lexical {file : Path} {d : Diagnostic}
    (hd : d ∈ lexicalDiagnostics file tokens) : d.code = "L0001" ∨ d.code = "L0002" := by
  obtain ⟨t, -, ht⟩ := List.mem_filterMap.1 hd
  obtain ⟨p, hp, rfl⟩ := Option.map_eq_some_iff.1 ht
  rw [Token.problem?] at hp
  split at hp
  · exact .inr (congrArg Problem.code (Option.some.inj hp).symm)
  · exact .inl (congrArg Problem.code (Option.some.inj hp).symm)
  · simp at hp

theorem code_of_mem_outline {file : Path} {d : Diagnostic}
    (hd : d ∈ outlineDiagnostics file tokens) : d.code = "E0006" ∨ d.code = "E0007" := by
  obtain ⟨c, hc, hd⟩ := List.mem_filterMap.1 hd
  cases c with
  | problem span p =>
    obtain rfl := Option.some.inj hd
    exact Clause.code_of_problem? hc
  | _ => simp [Clause.problem?] at hd

theorem code_of_mem_variable {d : Diagnostic} (hd : d ∈ m.variableDiagnostics find) :
    d.code = "E0001" := by
  rw [Module.variableDiagnostics] at hd
  split at hd
  · rcases List.mem_append.1 hd with hd | hd
    · obtain ⟨⟨name, span⟩, -, hd⟩ := List.mem_filterMap.1 hd
      dsimp only at hd
      split at hd
      · simp at hd
      · exact congrArg Diagnostic.code (Option.some.inj hd).symm
    · obtain ⟨⟨copycode, includeSpan⟩, -, hd⟩ := List.mem_flatMap.1 hd
      obtain ⟨⟨name, span⟩, -, hd⟩ := List.mem_filterMap.1 hd
      dsimp only at hd
      split at hd
      · simp at hd
      · exact congrArg Diagnostic.code (Option.some.inj hd).symm
  · simp at hd

theorem filter_isMissing_lexical (file : Path) :
    (lexicalDiagnostics file tokens).filter (·.isMissing) = [] := by
  refine List.filter_eq_nil_iff.2 fun d hd => ?_
  rcases code_of_mem_lexical tokens hd with h | h <;> simp [Diagnostic.isMissing, h]

theorem filter_isMissing_outline (file : Path) :
    (outlineDiagnostics file tokens).filter (·.isMissing) = [] := by
  refine List.filter_eq_nil_iff.2 fun d hd => ?_
  rcases code_of_mem_outline tokens hd with h | h <;> simp [Diagnostic.isMissing, h]

theorem filter_isMissing_variable :
    (m.variableDiagnostics find).filter (·.isMissing) = [] := by
  refine List.filter_eq_nil_iff.2 fun d hd => ?_
  simp [Diagnostic.isMissing, code_of_mem_variable m find hd]

/-- What is reported is reported where something leads nowhere, as soon as this holds of every
single item. -/
theorem locations_filterMap {α : Type} (xs : List α) {report : α → Option Diagnostic}
    {place : α → Option (String × Span)}
    (h : ∀ x, ((report x).filter (·.isMissing)).map (·.location) =
      ((place x).filter fun o => (find o.1).isNone).map fun o => ⟨m.path, o.2⟩) :
    ((xs.filterMap report).filter (·.isMissing)).map (·.location) =
      ((xs.filterMap place).filter fun o => (find o.1).isNone).map fun o => ⟨m.path, o.2⟩ := by
  rw [List.filter_filterMap, List.filter_filterMap, List.map_filterMap, List.map_filterMap]
  exact List.filterMap_congr fun x _ => h x

theorem locations_importDiagnostics :
    ((m.importDiagnostics find).filter (·.isMissing)).map (·.location) =
      ((m.usings.map fun u => (u.name, u.span)).filter fun o => (find o.1).isNone).map
        fun o => ⟨m.path, o.2⟩ := by
  have husings : m.usings.map (fun u => (u.name, u.span)) =
      m.usings.filterMap fun u => some (u.name, u.span) := by
    rw [← List.filterMap_eq_map]
    rfl
  rw [husings]
  refine locations_filterMap m find m.usings fun u => ?_
  cases h : find u.name with
  | none =>
    simp [h, Option.filter, Diagnostic.isMissing, Diagnostic.ofProblem, Diagnostic.location,
      Problem.code]
  | some area => simp [h, Option.filter]

/-- An action says what it means that its module is missing if it has a module. -/
theorem exists_missing?_of_reference? {action : Action} {name : String}
    (h : action.reference? = some name) (file : Path) (span : Span) :
    ∃ p, Module.missing? action = some p ∧ (Diagnostic.ofProblem file span p).isMissing := by
  unfold Action.reference? at h
  split at h
  · exact ⟨_, rfl, rfl⟩
  · exact ⟨_, rfl, rfl⟩
  · exact ⟨_, rfl, rfl⟩
  · exact ⟨_, rfl, rfl⟩
  · exact ⟨_, rfl, rfl⟩
  · simp at h

theorem locations_callDiagnostics :
    ((m.callDiagnostics find).filter (·.isMissing)).map (·.location) =
      ((m.tree.filterMap Statement.occurrence?).filter fun o => (find o.1).isNone).map
        fun o => ⟨m.path, o.2⟩ := by
  refine locations_filterMap m find m.tree fun s => ?_
  obtain ⟨action, span⟩ := s
  cases hr : action.reference? with
  | none => simp [Statement.occurrence?, Statement.reference?, hr]
  | some name =>
    obtain ⟨p, hp, hmissing⟩ := exists_missing?_of_reference? hr m.path span
    cases h : find name <;>
      simp [Statement.occurrence?, Statement.reference?, hr, hp, h, Option.filter, hmissing]

/-- The references that are reported are those that lead nowhere, each at its place. -/
theorem locations_parseTokens :
    ((parseTokens i tokens find).2.filter (·.isMissing)).map (·.location) =
      ((Module.ofTokens i tokens).occurrences.filter fun o => (find o.1).isNone).map
        fun o => ⟨i.path, o.2⟩ := by
  have hpath : (Module.ofTokens i tokens).path = i.path := rfl
  simp only [parseTokens, parse, Module.resolutionDiagnostics, List.filter_append,
    filter_isMissing_lexical, filter_isMissing_outline, filter_isMissing_variable,
    List.nil_append, List.append_nil, List.map_append, locations_importDiagnostics,
    locations_callDiagnostics, Module.occurrences, hpath]

/-- Only references that lead nowhere are reported, at their places. -/
theorem exists_occurrence_of_isMissing {d : Diagnostic} (hd : d ∈ (parseTokens i tokens find).2)
    (hm : d.isMissing = true) :
    d.file = i.path ∧ ∃ name, (name, d.span) ∈ (Module.ofTokens i tokens).occurrences ∧
      find name = none := by
  have hmem : d.location ∈ ((parseTokens i tokens find).2.filter (·.isMissing)).map (·.location) :=
    List.mem_map_of_mem (List.mem_filter.2 ⟨hd, hm⟩)
  rw [locations_parseTokens] at hmem
  obtain ⟨⟨name, span⟩, ho, hlocation⟩ := List.mem_map.1 hmem
  obtain ⟨hocc, hnone⟩ := List.mem_filter.1 ho
  have hfile : i.path = d.file := congrArg Location.file hlocation
  have hspan : span = d.span := congrArg Location.span hlocation
  exact ⟨hfile.symm, name, hspan ▸ hocc, by simpa using hnone⟩

end Reports

/-- A reference that leads nowhere is reported exactly once. -/
theorem countP_isMissing_parseTokens (i : Identity) (source : String)
    (find : String → Option Module) {name : String} {span : Span}
    (ho : (name, span) ∈ (Module.ofTokens i (tokenize source)).occurrences)
    (hf : find name = none) :
    (parseTokens i (tokenize source) find).2.countP (fun d => d.isMissing && d.span == span) =
      1 := by
  let missing := (Module.ofTokens i (tokenize source)).occurrences.filter
    fun o => (find o.1).isNone
  have hspans : ((parseTokens i (tokenize source) find).2.filter (·.isMissing)).map (·.span) =
      missing.map (·.2) := by
    have h := congrArg (List.map Location.span) (locations_parseTokens i (tokenize source) find)
    rwa [List.map_map, List.map_map] at h
  have hnodup : (missing.map (·.2)).Nodup :=
    (List.filter_sublist.map _).nodup (Module.nodup_occurrences i source)
  have hmem : span ∈ missing.map (·.2) :=
    List.mem_map.2 ⟨(name, span), List.mem_filter.2 ⟨ho, by simp [hf]⟩, rfl⟩
  rw [← hspans] at hnodup hmem
  have hcount := List.count_eq_one_of_mem hnodup hmem
  rw [List.count, List.countP_map, List.countP_filter] at hcount
  rw [← hcount]
  exact List.countP_congr fun d _ => by simp [and_comm]

end Steplib
