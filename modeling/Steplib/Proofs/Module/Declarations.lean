import Mathlib.Data.List.Induction
import Mathlib.Data.List.TakeWhile
import Mathlib.Data.Nat.Digits.Defs
import Steplib.Proofs.Module.Occurrences
import Steplib.Proofs.Scan.Sighting

/-!
# Declarations and their groups

A `DEFINE DATA` block consists of parts, each with a scope of its own. In a part stand declarations:
a number at the start of a line and a name after it. A declaration on an allowed level belongs to
the nearest declaration before it in its part that is on a smaller level. Reading a source keeps a
stack of groups instead, from which every declaration removes the groups it does not belong to. Both
give the same, since what has been removed lies on no smaller level than the declaration that came
later.

## Main definitions

* `DefineData.blocks`: the blocks of a source.
* `BlockPart.parts`: the parts of a block.
* `Declaration.among`, `Declaration.grouped`: the declarations of a part, and the variables that
  they declare.
* `UsingClause.among`: the imports of a part.
* `Token.overlooked`: a token that cannot be the number of a declaration any more.

## Main results

* `DataBlock.Groups.push`: the stack of groups gives the nearest declaration on a smaller level.
* `Clause.filterMap_ofTokens`: what the clauses of a source declare and import is what its blocks
  declare and import.
* `parseTokens_overlooked`: a declaration that is not accepted gives nothing but its report.
* `declarations_of_source`: the symbol table and the diagnostics of a source.
-/

namespace Steplib

/-! ### What a source declares -/

namespace Token

/-- The scope that a scope keyword opens. -/
def scope? (t : Token) : Option DataScope :=
  match t.kind with
  | .keyword (.scope scope) => some scope
  | _ => none

/-- The token ends a block. -/
def endsBlock (t : Token) : Bool :=
  t.kind == .keyword .endDefine

/-- The number that the digits of the token stand for. -/
def value (t : Token) : ℕ :=
  Nat.ofDigits 10 (t.text.toList.reverse.map fun c => c.toNat - '0'.toNat)

/-- The number is an allowed level. -/
def isLevel (t : Token) : Bool :=
  1 ≤ t.value && t.value ≤ 99

end Token

/-- A number at the start of a line inside a block and the name after it. -/
structure Declaration where
  number : Token
  name : Token

namespace Declaration

/-- The level of the declaration. -/
def level (d : Declaration) : ℕ :=
  d.number.value

/-- The number is an allowed level. -/
def isAccepted (d : Declaration) : Bool :=
  d.number.isLevel

/-- The declared variable, in the given scope and group. -/
def toVariable (d : Declaration) (scope : DataScope) (group? : Option Declaration) :
    Variable where
  name := d.name.text
  qualifiedName :=
    match group? with
    | some group => group.name.text ++ "." ++ d.name.text
    | none => d.name.text
  level := d.level
  scope := scope
  span := d.name.span

/-- The range of the declaration. -/
def span (d : Declaration) : Span :=
  ⟨d.number.span.start, d.name.span.stop⟩

/-- The declaration that starts at the token `t` after the token `previous`, if one does. -/
def at? (previous t : Token) (rest : List Token) : Option Declaration :=
  if t.kind = .integer ∧ t.line ≠ previous.line then
    (Token.leadingName? rest).map (⟨t, ·⟩)
  else none

/-- The declarations in the tokens after the token `previous`. -/
def among (previous : Token) : List Token → List Declaration
  | [] => []
  | t :: rest => (at? previous t rest).toList ++ among t rest

/-- The variables of declarations in one scope, where `earlier` are those before them, nearest
first: the group of a declaration is the nearest earlier one on a smaller level. -/
def grouped (scope : DataScope) (earlier : List Declaration) : List Declaration → List Variable
  | [] => []
  | d :: rest =>
    d.toVariable scope (earlier.find? (·.level < d.level)) :: grouped scope (d :: earlier) rest

end Declaration

namespace UsingClause

/-- The import that starts at the token `t`, if one does. -/
def at? (scope : DataScope) (t : Token) (rest : List Token) : Option UsingClause :=
  if t.kind = .keyword .usingWord then
    (Token.leadingName? rest).map fun name => ⟨name.name, scope, name.span⟩
  else none

/-- The imports in the tokens, in one scope. -/
def among (scope : DataScope) : List Token → List UsingClause
  | [] => []
  | t :: rest => (at? scope t rest).toList ++ among scope rest

end UsingClause

/-- The tokens of a block that stand in one scope, without a scope keyword. -/
structure BlockPart where
  scope : DataScope
  /-- The token before the first one. -/
  previous : Token
  tokens : List Token

namespace BlockPart

/-- The declarations of the part. -/
def declarations (p : BlockPart) : List Declaration :=
  Declaration.among p.previous p.tokens

/-- The variables that the part declares. -/
def declared (p : BlockPart) : List Variable :=
  Declaration.grouped p.scope [] (p.declarations.filter Declaration.isAccepted)

/-- The imports of the part. -/
def imports (p : BlockPart) : List UsingClause :=
  UsingClause.among p.scope p.tokens

/-- The parts of a block from the token after `previous` on: `scope` holds up to the first scope
keyword, and each scope keyword opens a part. -/
def parts (scope : DataScope) (previous : Token) (tokens : List Token) : List BlockPart :=
  ⟨scope, previous, tokens.takeWhile (·.scope?.isNone)⟩ ::
    match _h : tokens.dropWhile (·.scope?.isNone) with
    | [] => []
    | t :: rest => parts (t.scope?.getD scope) t rest
termination_by tokens.length
decreasing_by
  have hle := (List.dropWhile_suffix (·.scope?.isNone) (l := tokens)).length_le
  rw [_h, List.length_cons] at hle
  omega

theorem parts_of_nil {scope : DataScope} {previous : Token} {tokens : List Token}
    (h : tokens.dropWhile (·.scope?.isNone) = []) :
    parts scope previous tokens = [⟨scope, previous, tokens.takeWhile (·.scope?.isNone)⟩] := by
  rw [parts]
  split
  · rfl
  · simp_all

theorem parts_of_cons {scope : DataScope} {previous t : Token} {tokens rest : List Token}
    (h : tokens.dropWhile (·.scope?.isNone) = t :: rest) :
    parts scope previous tokens = ⟨scope, previous, tokens.takeWhile (·.scope?.isNone)⟩ ::
      parts (t.scope?.getD scope) t rest := by
  rw [parts]
  split
  · simp_all
  · simp_all

end BlockPart

/-- A `DEFINE DATA` block of a source. -/
structure DefineData where
  define : Token
  data : Token
  /-- The tokens up to `END-DEFINE` or to the end of the source. -/
  tokens : List Token
  /-- The block ends with `END-DEFINE`. -/
  closed : Bool

namespace DefineData

/-- The parts of the block. -/
def parts (b : DefineData) : List BlockPart :=
  BlockPart.parts .localData b.data b.tokens

/-- The variables that the block declares. -/
def declared (b : DefineData) : List Variable :=
  b.parts.flatMap BlockPart.declared

/-- The imports of the block. -/
def imports (b : DefineData) : List UsingClause :=
  b.parts.flatMap BlockPart.imports

/-- The declarations of the block whose number is no allowed level. -/
def rejected (b : DefineData) : List Declaration :=
  (b.parts.flatMap BlockPart.declarations).filter fun d => !d.isAccepted

/-- The blocks of a list of tokens. -/
def blocks : List Token → List DefineData
  | [] => []
  | define :: rest =>
    match rest with
    | [] => []
    | data :: more =>
      if define.kind = .keyword .define ∧ data.kind = .keyword .data then
        ⟨define, data, more.takeWhile (!·.endsBlock), more.any Token.endsBlock⟩ ::
          blocks (more.dropWhile (!·.endsBlock)).tail
      else blocks (data :: more)
termination_by tokens => tokens.length
decreasing_by
  · have hle := (List.dropWhile_suffix (!Token.endsBlock ·) (l := more)).length_le
    simp only [List.length_tail, List.length_cons]
    omega
  · simp

/-- A block starts at the token `t` before the tokens `rest`. -/
def Opens (t : Token) (rest : List Token) : Prop :=
  t.kind = .keyword .define ∧ rest.head?.map (·.kind) = some (.keyword .data)

theorem blocks_of_opens {define data : Token} {more : List Token}
    (h : Opens define (data :: more)) :
    blocks (define :: data :: more) =
      ⟨define, data, more.takeWhile (!·.endsBlock), more.any Token.endsBlock⟩ ::
        blocks (more.dropWhile (!·.endsBlock)).tail := by
  rw [blocks, if_pos ⟨h.1, by simpa using h.2⟩]

theorem blocks_of_not_opens {t : Token} {rest : List Token} (h : ¬Opens t rest) :
    blocks (t :: rest) = blocks rest := by
  cases rest with
  | nil => rw [blocks, blocks]
  | cons data more =>
    rw [blocks, if_neg fun hopens => h ⟨hopens.1, by simpa using hopens.2⟩]

/-- Tokens other than `DEFINE` can be left out in front of blocks. -/
theorem blocks_drop (tokens : List Token) (n : Nat)
    (h : ∀ t ∈ tokens.take n, t.kind ≠ .keyword .define) :
    blocks (tokens.drop n) = blocks tokens := by
  induction n generalizing tokens with
  | zero => rfl
  | succ n ih =>
    cases tokens with
    | nil => rfl
    | cons t rest =>
      obtain ⟨ht, hrest⟩ := List.forall_mem_cons.1 h
      rw [List.drop_succ_cons, ih rest hrest, blocks_of_not_opens fun hopens => ht hopens.1]

end DefineData

/-! ### One declaration -/

theorem foldl_digits (value : Char → ℕ) (cs : List Char) :
    cs.foldl (fun n c => 10 * n + value c) 0 = Nat.ofDigits 10 (cs.reverse.map value) := by
  induction cs using List.reverseRecOn with
  | nil => rfl
  | append_singleton cs c ih =>
    rw [List.foldl_append, List.reverse_append, List.foldl_cons, List.foldl_nil, ih]
    simp [Nat.ofDigits_cons, Nat.add_comm]

theorem Declaration.levelOf_eq (d : Declaration) : DataBlock.levelOf d.number.text = d.level :=
  foldl_digits ..

/-- Dropping first what one condition drops does not matter, if the other one drops it too. -/
theorem dropWhile_dropWhile_of_imp {α : Type} {p q : α → Bool} (h : ∀ x, p x = true → q x = true)
    (xs : List α) : (xs.dropWhile p).dropWhile q = xs.dropWhile q := by
  induction xs with
  | nil => rfl
  | cons x xs ih =>
    by_cases hp : p x = true
    · rw [List.dropWhile_cons_of_pos hp, List.dropWhile_cons_of_pos (h x hp), ih]
    · rw [List.dropWhile_cons_of_neg hp]

namespace DataBlock

variable {b : DataBlock} {earlier : List Declaration} {number name : Token}

/-- On every level the stack of groups gives the nearest of the earlier declarations on a smaller
level. -/
def Groups (b : DataBlock) (earlier : List Declaration) : Prop :=
  ∀ level, (b.groups.dropWhile fun g => decide (level ≤ g.1)).head? =
    (earlier.find? fun d => decide (d.level < level)).map fun d => (d.level, d.name.text)

theorem Groups.push (h : b.Groups earlier) (d : Declaration) :
    { b with groups := (d.level, d.name.text) ::
      b.groups.dropWhile fun g => decide (d.level ≤ g.1) }.Groups (d :: earlier) := by
  intro level
  rcases Nat.lt_or_ge d.level level with hlt | hge
  · rw [List.dropWhile_cons_of_neg (by simpa using hlt),
      List.find?_cons_of_pos (by simpa using hlt)]
    rfl
  · -- what the declaration has removed from the stack is not below the level
    rw [List.dropWhile_cons_of_pos (by simpa using hge),
      List.find?_cons_of_neg (by simpa using hge), dropWhile_dropWhile_of_imp fun g hg => ?_]
    · exact h level
    · simp only [decide_eq_true_eq] at hg ⊢
      exact hge.trans hg

/-- An accepted declaration is put into the group of the nearest earlier one on a smaller level. -/
theorem declare_accepted (h : b.Groups earlier) {d : Declaration} (hd : d.isAccepted = true) :
    ∃ b', b'.define = b.define ∧ b'.scope = b.scope ∧ b'.Groups (d :: earlier) ∧
      b.declare d.number d.name =
        { clause := some (.declare (d.toVariable b.scope (earlier.find? (·.level < d.level))))
          block := some b'
          used := 1 } := by
  refine ⟨{ b with groups := (d.level, d.name.text) ::
    b.groups.dropWhile fun g => decide (d.level ≤ g.1) }, rfl, rfl, h.push d, ?_⟩
  have hlevel : isLevel d.level = true := hd
  simp only [declare, d.levelOf_eq, hlevel, if_true, h d.level]
  cases earlier.find? (·.level < d.level) <;> rfl

/-- Any other declaration is reported and passed over. -/
theorem declare_rejected (b : DataBlock) {d : Declaration} (hd : d.isAccepted = false) :
    b.declare d.number d.name =
      { clause := some (.problem d.span (.invalidLevel d.number.text d.name.text))
        block := some b
        used := 1 } := by
  have hlevel : isLevel d.level = false := hd
  simp only [declare, d.levelOf_eq, hlevel]
  rfl

end DataBlock

/-! ### Reading a block -/

namespace DataBlock

/-- Inside a block a token uses at most the next one, a name, and stays in the block then. -/
theorem used_cases (b : DataBlock) (startsLine : Bool) (t : Token) (rest : List Token) :
    (b.read startsLine t rest).used = 0 ∨
      (b.read startsLine t rest).used = 1 ∧ (b.read startsLine t rest).block.isSome ∧
        ∃ name, Token.leadingName? rest = some name := by
  have hdeclare (number name : Token) :
      (b.declare number name).used = 1 ∧ (b.declare number name).block.isSome := by
    unfold declare
    dsimp only
    split <;> exact ⟨rfl, rfl⟩
  unfold read
  split
  · exact .inl rfl
  · exact .inl rfl
  · split
    · exact .inr ⟨rfl, rfl, _, ‹_›⟩
    · exact .inl rfl
  · split
    · rename_i name hname
      exact .inr ⟨(hdeclare t name).1, (hdeclare t name).2, name, hname⟩
    · exact .inl rfl
  · exact .inl rfl

end DataBlock

namespace Clause

/-- Inside a block the tokens can be read one by one, since a name alone is passed over. -/
theorem ofTokens_block_cons (b : DataBlock) (previous : Option Nat) (t : Token)
    (rest : List Token) :
    ofTokens (some b) previous (t :: rest) =
      (b.read (previous != some t.line) t rest).clause.toList ++
        ofTokens (b.read (previous != some t.line) t rest).block (some t.line) rest := by
  rw [ofTokens]
  dsimp only [step]
  rcases b.used_cases (previous != some t.line) t rest with hused | ⟨hused, hblock, name, hname⟩
  · rw [hused]
    rfl
  · obtain ⟨b', hb'⟩ := Option.isSome_iff_exists.1 hblock
    obtain ⟨hkind, more, rfl⟩ := Sighting.exists_cons_of_leadingName? hname
    have hpass : b'.read (some t.line != some name.line) name more = { block := some b' } := by
      simp [DataBlock.read, hkind]
    rw [hused, hb', ofTokens.eq_def (some b') (some t.line) (name :: more)]
    dsimp only [step]
    rw [hpass]
    rfl

variable {b : DataBlock} {earlier : List Declaration} {previous t : Token} {rest : List Token}

/-- The problem of a declaration that is not accepted. -/
def rejection (d : Declaration) : Span × Problem :=
  (d.span, .invalidLevel d.number.text d.name.text)

/-- The clauses are what these declarations and imports give in the given scope. -/
structure Declares (scope : DataScope) (earlier found : List Declaration)
    (imports : List UsingClause) (cs : List Clause) : Prop where
  declared : cs.filterMap declare? =
    Declaration.grouped scope earlier (found.filter Declaration.isAccepted)
  problems : cs.filterMap problem? = (found.filter fun d => !d.isAccepted).map rejection
  imported : cs.filterMap importArea? = imports

/-- The accepted ones of the declarations, nearest first, before the earlier ones. -/
def accumulate (found earlier : List Declaration) : List Declaration :=
  (found.filter Declaration.isAccepted).reverse ++ earlier

theorem grouped_append (scope : DataScope) (earlier ds ds' : List Declaration) :
    Declaration.grouped scope earlier (ds ++ ds') =
      Declaration.grouped scope earlier ds ++
        Declaration.grouped scope (ds.reverse ++ earlier) ds' := by
  induction ds generalizing earlier with
  | nil => rfl
  | cons d ds ih =>
    rw [List.cons_append, Declaration.grouped, ih, Declaration.grouped, List.reverse_cons,
      List.append_assoc]
    rfl

theorem Declares.append {scope : DataScope} {found found' : List Declaration}
    {us us' : List UsingClause} {cs cs' : List Clause} (h : Declares scope earlier found us cs)
    (h' : Declares scope (accumulate found earlier) found' us' cs') :
    Declares scope earlier (found ++ found') (us ++ us') (cs ++ cs') where
  declared := by
    rw [List.filterMap_append, List.filter_append, grouped_append, h.declared, h'.declared]
    rfl
  problems := by
    rw [List.filterMap_append, List.filter_append, List.map_append, h.problems, h'.problems]
  imported := by rw [List.filterMap_append, h.imported, h'.imported]

theorem starts_iff : (some previous.line != some t.line) = true ↔ t.line ≠ previous.line := by
  rw [bne_iff_ne, ne_eq, Option.some_inj, eq_comm]

/-- A declaration is read as such, and is no import. -/
theorem read_declaration {d : Declaration} (hd : Declaration.at? previous t rest = some d) :
    b.read (some previous.line != some t.line) t rest = b.declare d.number d.name ∧
      UsingClause.at? b.scope t rest = none := by
  unfold Declaration.at? at hd
  split at hd
  · rename_i h
    obtain ⟨name, hname, rfl⟩ := Option.map_eq_some_iff.1 hd
    refine ⟨?_, if_neg (by simp [h.1])⟩
    simp only [DataBlock.read, h.1, starts_iff.2 h.2, hname]
  · cases hd

/-- Any other token within a part of a block declares nothing and changes nothing. What it may give
is an import. -/
theorem read_other (hscope : t.scope? = none) (hend : t.endsBlock = false)
    (hnone : Declaration.at? previous t rest = none) :
    (b.read (some previous.line != some t.line) t rest).block = some b ∧
      (b.read (some previous.line != some t.line) t rest).clause.bind declare? = none ∧
      (b.read (some previous.line != some t.line) t rest).clause.bind problem? = none ∧
      (b.read (some previous.line != some t.line) t rest).clause.bind importArea? =
        UsingClause.at? b.scope t rest := by
  unfold DataBlock.read
  split
  · simp_all [Token.endsBlock]
  · simp_all [Token.scope?]
  · rename_i hkind
    rw [UsingClause.at?, if_pos hkind]
    split
    · rename_i hname
      rw [hname]
      exact ⟨rfl, rfl, rfl, rfl⟩
    · rename_i hname
      rw [hname]
      exact ⟨rfl, rfl, rfl, rfl⟩
  · rename_i hkind
    rw [UsingClause.at?, if_neg (by simp [hkind])]
    split
    · rename_i hstarts hname
      rw [Declaration.at?, if_pos ⟨hkind, starts_iff.1 hstarts⟩, hname] at hnone
      cases hnone
    · exact ⟨rfl, rfl, rfl, rfl⟩
  · rw [UsingClause.at?, if_neg (by simpa)]
    exact ⟨rfl, rfl, rfl, rfl⟩

/-- What is read at a token within a part of a block. -/
theorem read_part (previous : Token) (rest : List Token) (hgroups : b.Groups earlier)
    (hscope : t.scope? = none) (hend : t.endsBlock = false) :
    ∃ b', (b.read (some previous.line != some t.line) t rest).block = some b' ∧
      b'.define = b.define ∧ b'.scope = b.scope ∧
      b'.Groups (accumulate (Declaration.at? previous t rest).toList earlier) ∧
      Declares b.scope earlier (Declaration.at? previous t rest).toList
        (UsingClause.at? b.scope t rest).toList
        (b.read (some previous.line != some t.line) t rest).clause.toList := by
  cases hat : Declaration.at? previous t rest with
  | none =>
    obtain ⟨hblock, hdeclare, hproblem, himport⟩ := read_other (b := b) hscope hend hat
    refine ⟨b, hblock, rfl, rfl, hgroups, ?_⟩
    rw [← himport]
    cases hc : (b.read (some previous.line != some t.line) t rest).clause with
    | none => exact ⟨rfl, rfl, rfl⟩
    | some c =>
      rw [hc, Option.bind_some] at hdeclare hproblem
      exact ⟨by simp [hdeclare, Declaration.grouped], by simp [hproblem],
        by cases h : c.importArea? <;> simp [h]⟩
  | some d =>
    obtain ⟨hread, himport⟩ := read_declaration (b := b) hat
    rw [hread, himport]
    cases hd : d.isAccepted with
    | true =>
      obtain ⟨b', hdefine, hsame, hpush, hdeclare⟩ := DataBlock.declare_accepted hgroups hd
      rw [hdeclare]
      refine ⟨b', rfl, hdefine, hsame, by simpa [accumulate, hd] using hpush, ?_⟩
      exact ⟨by simp [hd, declare?, Declaration.grouped], by simp [hd, problem?], rfl⟩
    | false =>
      rw [b.declare_rejected hd]
      refine ⟨b, rfl, rfl, rfl, by simpa [accumulate, hd] using hgroups, ?_⟩
      exact ⟨by simp [hd, declare?, Declaration.grouped], by simp [hd, problem?, rejection], rfl⟩

theorem leadingName?_append {xs ys : List Token} (hys : Token.leadingName? ys = none) :
    Token.leadingName? (xs ++ ys) = Token.leadingName? xs := by
  cases xs with
  | nil => exact hys
  | cons x xs => rfl

/-- What is read in a part of a block, if no name follows it. -/
theorem run_part (previous : Token) {xs ys : List Token} (hgroups : b.Groups earlier)
    (hxs : ∀ t ∈ xs, t.scope? = none ∧ t.endsBlock = false) (hys : Token.leadingName? ys = none) :
    ∃ b' cs last, b'.define = b.define ∧
      ofTokens (some b) (some previous.line) (xs ++ ys) = cs ++ ofTokens (some b') (some last) ys ∧
      Declares b.scope earlier (Declaration.among previous xs) (UsingClause.among b.scope xs)
        cs := by
  induction xs generalizing b earlier previous with
  | nil => exact ⟨b, [], previous.line, rfl, rfl, rfl, rfl, rfl⟩
  | cons t xs ih =>
    obtain ⟨⟨hscope, hend⟩, hxs⟩ := List.forall_mem_cons.1 hxs
    obtain ⟨b₁, hblock, hdefine₁, hscope₁, hgroups₁, hdeclares⟩ :=
      read_part previous (xs ++ ys) hgroups hscope hend
    obtain ⟨b', cs, last, hdefine, hrun, hrest⟩ := ih t hgroups₁ hxs
    have hat : Declaration.at? previous t (xs ++ ys) = Declaration.at? previous t xs := by
      rw [Declaration.at?, leadingName?_append hys, Declaration.at?]
    have himport : UsingClause.at? b.scope t (xs ++ ys) = UsingClause.at? b.scope t xs := by
      rw [UsingClause.at?, leadingName?_append hys, UsingClause.at?]
    rw [hscope₁, hat] at hrest
    rw [hat, himport] at hdeclares
    refine ⟨b', _ ++ cs, last, hdefine.trans hdefine₁, ?_, hdeclares.append hrest⟩
    rw [List.cons_append, ofTokens_block_cons, hblock, hrun, List.append_assoc]

/-- The clauses are what the parts of a block give. -/
structure Yields (ps : List BlockPart) (cs : List Clause) : Prop where
  declared : cs.filterMap declare? = ps.flatMap BlockPart.declared
  problems : cs.filterMap problem? =
    ((ps.flatMap BlockPart.declarations).filter fun d => !d.isAccepted).map rejection
  imported : cs.filterMap importArea? = ps.flatMap BlockPart.imports

theorem Yields.cons {p : BlockPart} {ps : List BlockPart} {cs cs' : List Clause}
    (h' : Yields ps cs') (h : Declares p.scope [] p.declarations p.imports cs) :
    Yields (p :: ps) (cs ++ cs') where
  declared := by
    rw [List.filterMap_append, h.declared, h'.declared]
    rfl
  problems := by
    rw [List.filterMap_append, h.problems, h'.problems, List.flatMap_cons, List.filter_append,
      List.map_append]
  imported := by
    rw [List.filterMap_append, h.imported, h'.imported]
    rfl

/-- A scope keyword opens a part. -/
theorem read_scope {scope : DataScope} (ht : t.scope? = some scope) (startsLine : Bool) :
    b.read startsLine t rest = { block := some { b with scope, groups := [] } } := by
  unfold Token.scope? at ht
  split at ht
  · rename_i hkind
    obtain rfl := Option.some.inj ht
    simp only [DataBlock.read, hkind]
  · cases ht

/-- A scope keyword is no name. -/
theorem leadingName?_scope {scope : DataScope} (ht : t.scope? = some scope) (rest : List Token) :
    Token.leadingName? (t :: rest) = none := by
  unfold Token.scope? at ht
  split at ht
  · rename_i hkind
    simp [Token.leadingName?, Token.isIdentifier, hkind]
  · cases ht

/-- What is read in a block up to its end. -/
theorem run_parts (scope : DataScope) (previous : Token) (xs ys : List Token) {b : DataBlock}
    (hscope : b.scope = scope) (hgroups : b.groups = [])
    (hxs : ∀ t ∈ xs, t.endsBlock = false) (hys : Token.leadingName? ys = none) :
    ∃ b' cs last, b'.define = b.define ∧
      ofTokens (some b) (some previous.line) (xs ++ ys) = cs ++ ofTokens (some b') (some last) ys ∧
      Yields (BlockPart.parts scope previous xs) cs := by
  subst hscope
  have hempty : b.Groups [] := fun level => by rw [hgroups]; rfl
  have hpart : ∀ t ∈ xs.takeWhile (·.scope?.isNone), t.scope? = none ∧ t.endsBlock = false :=
    fun t ht => ⟨by simpa using List.mem_takeWhile_imp ht,
      hxs t ((List.takeWhile_prefix _).subset ht)⟩
  have hsplit := List.takeWhile_append_dropWhile (p := (·.scope?.isNone)) (l := xs)
  cases hrest : xs.dropWhile (·.scope?.isNone) with
  | nil =>
    rw [BlockPart.parts_of_nil hrest]
    rw [hrest, List.append_nil] at hsplit
    obtain ⟨b', cs, last, hdefine, hrun, hdeclares⟩ :=
      run_part previous hempty hpart hys
    rw [hsplit] at hrun
    have hnone : Yields [] [] := ⟨rfl, rfl, rfl⟩
    have hyields := hnone.cons (p := ⟨b.scope, previous, _⟩) hdeclares
    rw [List.append_nil] at hyields
    exact ⟨b', cs, last, hdefine, hrun, hyields⟩
  | cons t rest =>
    rw [hrest] at hsplit
    obtain ⟨s, hs⟩ : ∃ s, t.scope? = some s := by
      have h := List.head_dropWhile_not (·.scope?.isNone) (l := xs) (by simp [hrest])
      simpa [hrest, Option.isSome_iff_exists] using h
    obtain ⟨b₁, cs, last, hdefine₁, hrun₁, hdeclares⟩ :=
      run_part previous hempty hpart (leadingName?_scope hs (rest ++ ys))
    have hlt : rest.length < xs.length := by
      rw [← hsplit, List.length_append, List.length_cons]
      omega
    have hbelow : ∀ u ∈ rest, u.endsBlock = false := fun u hu =>
      hxs u (hsplit ▸ List.mem_append_right _ (List.mem_cons_of_mem _ hu))
    obtain ⟨b', cs', last', hdefine, hrun, hyields⟩ :=
      run_parts s t rest ys (b := { b₁ with scope := s, groups := [] }) rfl rfl hbelow hys
    refine ⟨b', cs ++ cs', last', hdefine.trans hdefine₁, ?_, ?_⟩
    · rw [← hsplit, List.append_assoc, List.cons_append, hrun₁, ofTokens_block_cons,
        read_scope hs, hrun, List.append_assoc]
      rfl
    · rw [BlockPart.parts_of_cons hrest, hs]
      exact hyields.cons hdeclares
termination_by xs.length

/-! ### Reading a source -/

/-- The token is not the word `DEFINE`. -/
def NotDefine (t : Token) : Prop :=
  t.kind ≠ .keyword .define

theorem notDefine_of_leadingName? {name : Token} (h : Token.leadingName? rest = some name) :
    ∀ u ∈ rest.take 1, NotDefine u := by
  obtain ⟨hkind, more, rfl⟩ := Sighting.exists_cons_of_leadingName? h
  simp [NotDefine, hkind]

theorem notDefine_of_fetchModifiers (rest : List Token) :
    ∀ u ∈ rest.take (Token.fetchModifiers rest), NotDefine u := by
  cases rest with
  | nil => simp [Token.fetchModifiers]
  | cons word rest =>
    simp only [Token.fetchModifiers]
    split <;> simp_all [NotDefine]

theorem read_call_outside {action : CallTarget → Action} {skip : Nat}
    (hskip : ∀ u ∈ rest.take skip, NotDefine u) :
    (readCall action t rest skip).block = none ∧
      ∀ u ∈ rest.take (readCall action t rest skip).used, NotDefine u := by
  have hone {target : Token} (h : (rest.drop skip).head? = some target) (ht : NotDefine target) :
      ∀ u ∈ rest.take (skip + 1), NotDefine u := by
    rw [List.head?_drop] at h
    rw [List.take_add_one, h]
    intro u hu
    rcases List.mem_append.1 hu with hu | hu
    · exact hskip u hu
    · obtain rfl := List.mem_singleton.1 hu
      exact ht
  unfold readCall
  split
  · exact ⟨rfl, hskip⟩
  · rename_i target htarget
    dsimp only
    split
    · exact ⟨rfl, hone htarget (by simp_all [NotDefine])⟩
    · exact ⟨rfl, hone htarget (by simp_all [NotDefine])⟩
    · exact ⟨rfl, hskip⟩

theorem read_define_outside (hnot : rest.head?.map (·.kind) ≠ some (.keyword .data)) :
    (readDefine t rest).block = none ∧ ∀ u ∈ rest.take (readDefine t rest).used, NotDefine u := by
  unfold readDefine
  cases rest with
  | nil => simp
  | cons word rest =>
    dsimp only
    split
    · simp_all
    · rename_i hkind
      split
      · rename_i name hname
        obtain ⟨hident, more, rfl⟩ := Sighting.exists_cons_of_leadingName? hname
        simp [NotDefine, hkind, hident]
      · simp [NotDefine, hkind]
    · rename_i hkind
      cases hname : Token.leadingName? rest with
      | none => simp [NotDefine, hkind]
      | some name =>
        obtain ⟨hident, more, rfl⟩ := Sighting.exists_cons_of_leadingName? hname
        simp [NotDefine, hkind, hident]
    · simp

/-- Outside every block a clause declares nothing. Unless it opens a block, it opens none, and it
uses no word `DEFINE`. -/
theorem read_outside (hnot : ¬DefineData.Opens t rest) :
    (read t rest).block = none ∧ ∀ u ∈ rest.take (read t rest).used, NotDefine u := by
  unfold read
  split
  · rename_i hkind
    exact read_define_outside fun h => hnot ⟨hkind, h⟩
  · split
    · exact ⟨rfl, notDefine_of_leadingName? ‹_›⟩
    · simp
  · exact read_call_outside (by simp)
  · exact read_call_outside (notDefine_of_fetchModifiers rest)
  · split
    · exact ⟨rfl, notDefine_of_leadingName? ‹_›⟩
    · simp
  · split
    · simp
    · split <;> simp
  · simp

theorem clause_outside (t : Token) (rest : List Token) :
    (read t rest).clause.bind declare? = none ∧ (read t rest).clause.bind problem? = none ∧
      (read t rest).clause.bind importArea? = none := by
  cases hc : (read t rest).clause with
  | none => exact ⟨rfl, rfl, rfl⟩
  | some c =>
    rcases read_cases hc with ⟨_, _, rfl⟩ | ⟨_, -, ⟨_, -, rfl⟩ | ⟨_, rfl, -⟩⟩ <;>
      exact ⟨rfl, rfl, rfl⟩

theorem filterMap_toList {α β : Type} {o : Option α} {f : α → Option β} (h : o.bind f = none) :
    o.toList.filterMap f = [] := by
  cases o with
  | none => rfl
  | some a =>
    rw [Option.bind_some] at h
    simp [h]

/-- What goes wrong in a block. -/
def problemsOf (b : DefineData) : List (Span × Problem) :=
  b.rejected.map rejection ++ if b.closed then [] else [(b.define.span, .missingEndDefine)]

/-- The word `END-DEFINE` ends a block. -/
theorem read_end (ht : t.endsBlock = true) (startsLine : Bool) :
    b.read startsLine t rest = { clause := some (.statement ⟨.defineData, b.define.span⟩) } := by
  have hkind : t.kind = .keyword .endDefine := eq_of_beq ht
  simp only [DataBlock.read, hkind]

theorem leadingName?_end (ht : t.endsBlock = true) : Token.leadingName? (t :: rest) = none := by
  have hkind : t.kind = .keyword .endDefine := eq_of_beq ht
  simp [Token.leadingName?, Token.isIdentifier, hkind]

/-- What is read in a block and after it. -/
theorem run_block (define data : Token) (more : List Token) :
    ∃ cs last, ofTokens (some { define }) (some data.line) more =
        cs ++ ofTokens none last (more.dropWhile (!·.endsBlock)).tail ∧
      cs.filterMap declare? = DefineData.declared
        ⟨define, data, more.takeWhile (!·.endsBlock), more.any Token.endsBlock⟩ ∧
      cs.filterMap problem? = problemsOf
        ⟨define, data, more.takeWhile (!·.endsBlock), more.any Token.endsBlock⟩ ∧
      cs.filterMap importArea? = DefineData.imports
        ⟨define, data, more.takeWhile (!·.endsBlock), more.any Token.endsBlock⟩ := by
  have hsplit := List.takeWhile_append_dropWhile (p := (!Token.endsBlock ·)) (l := more)
  have hxs : ∀ t ∈ more.takeWhile (!·.endsBlock), t.endsBlock = false := fun t ht => by
    simpa using List.mem_takeWhile_imp ht
  cases hrest : more.dropWhile (!·.endsBlock) with
  | nil =>
    rw [hrest, List.append_nil] at hsplit
    have hopen : more.any Token.endsBlock = false := by
      rw [List.any_eq_false]
      exact fun t ht => Bool.eq_false_iff.1 (hxs t (hsplit.symm ▸ ht))
    obtain ⟨b', cs, last, hdefine, hrun, hyields⟩ :=
      run_parts .localData data (more.takeWhile (!·.endsBlock)) []
        (b := { define }) rfl rfl hxs rfl
    rw [List.append_nil, hsplit] at hrun
    refine ⟨cs ++ b'.atEnd, none, ?_, ?_, ?_, ?_⟩
    · rw [hrun, List.tail_nil, ofTokens.eq_def none, ofTokens.eq_def (some b')]
      simp
    · rw [List.filterMap_append, hyields.declared]
      exact List.append_nil _
    · rw [List.filterMap_append, hyields.problems, problemsOf, hopen]
      simp only [DataBlock.atEnd, hdefine]
      rfl
    · rw [List.filterMap_append, hyields.imported]
      exact List.append_nil _
  | cons e rest =>
    rw [hrest] at hsplit
    have he : e.endsBlock = true := by
      have h := List.head_dropWhile_not (!Token.endsBlock ·) (l := more) (by simp [hrest])
      simpa [hrest] using h
    have hclosed : more.any Token.endsBlock = true :=
      List.any_eq_true.2 ⟨e, hsplit ▸ List.mem_append_right _ List.mem_cons_self, he⟩
    obtain ⟨b', cs, last, hdefine, hrun, hyields⟩ :=
      run_parts .localData data (more.takeWhile (!·.endsBlock)) (e :: rest)
        (b := { define }) rfl rfl hxs (leadingName?_end he)
    rw [hsplit] at hrun
    refine ⟨cs ++ [.statement ⟨.defineData, b'.define.span⟩], some e.line, ?_, ?_, ?_, ?_⟩
    · rw [hrun, ofTokens_block_cons, read_end he, List.append_assoc]
      rfl
    · rw [List.filterMap_append, hyields.declared]
      exact List.append_nil _
    · rw [List.filterMap_append, hyields.problems, problemsOf, hclosed]
      rfl
    · rw [List.filterMap_append, hyields.imported]
      exact List.append_nil _

/-- What the clauses of a list of tokens declare and import is what its blocks declare and
import. -/
theorem filterMap_ofTokens (previous : Option Nat) (tokens : List Token) :
    (ofTokens none previous tokens).filterMap declare? =
        (DefineData.blocks tokens).flatMap DefineData.declared ∧
      (ofTokens none previous tokens).filterMap problem? =
        (DefineData.blocks tokens).flatMap problemsOf ∧
      (ofTokens none previous tokens).filterMap importArea? =
        (DefineData.blocks tokens).flatMap DefineData.imports := by
  match tokens with
  | [] =>
    rw [ofTokens, DefineData.blocks]
    exact ⟨rfl, rfl, rfl⟩
  | t :: rest =>
    by_cases hopens : DefineData.Opens t rest
    · obtain ⟨data, more, rfl⟩ : ∃ data more, rest = data :: more := by
        cases rest with
        | nil => cases hopens.2
        | cons data more => exact ⟨data, more, rfl⟩
      have hread : read t (data :: more) = { block := some { define := t }, used := 1 } := by
        have hdata : data.kind = .keyword .data := by simpa using hopens.2
        simp only [read, hopens.1, readDefine, hdata]
      obtain ⟨cs, last, hrun, hdeclared, hproblems, himported⟩ := run_block t data more
      have hlt : (more.dropWhile (!·.endsBlock)).tail.length < (t :: data :: more).length := by
        have hle := (List.dropWhile_suffix (!Token.endsBlock ·) (l := more)).length_le
        simp only [List.length_tail, List.length_cons]
        omega
      obtain ⟨hrest, hproblems', himported'⟩ :=
        filterMap_ofTokens last (more.dropWhile (!·.endsBlock)).tail
      have hclauses : ofTokens none previous (t :: data :: more) =
          cs ++ ofTokens none last (more.dropWhile (!·.endsBlock)).tail := by
        rw [ofTokens]
        simp only [step, hread]
        exact hrun
      rw [hclauses, DefineData.blocks_of_opens hopens, List.filterMap_append,
        List.filterMap_append, List.filterMap_append, hdeclared, hproblems, himported, hrest,
        hproblems', himported']
      exact ⟨rfl, rfl, rfl⟩
    · obtain ⟨hblock, hused⟩ := read_outside hopens
      obtain ⟨hdeclare, hproblem, himport⟩ := clause_outside t rest
      rw [ofTokens]
      simp only [step]
      obtain ⟨hrest, hproblems, himported⟩ := filterMap_ofTokens
        (some ((rest.take (read t rest).used).getLast?.getD t).line)
        (rest.drop (read t rest).used)
      rw [hblock, DefineData.blocks_of_not_opens hopens, ← DefineData.blocks_drop rest _ hused,
        List.filterMap_append, List.filterMap_append, List.filterMap_append, hrest, hproblems,
        himported, filterMap_toList hdeclare, filterMap_toList hproblem, filterMap_toList himport]
      exact ⟨rfl, rfl, rfl⟩
termination_by tokens.length
decreasing_by
  · simp_all
  · simp only [List.length_drop, List.length_cons]
    omega

end Clause

/-! ### The symbol table -/

namespace SymbolTable

theorem ofList_append_singleton (vs : List Variable) (v : Variable) :
    ofList (vs ++ [v]) = (ofList vs).insert v :=
  List.foldl_append ..

theorem insert_of_contains {s : SymbolTable} {v : Variable} (h : s.contains v.name = true) :
    s.insert v = s :=
  if_pos h

theorem insert_of_not_contains {s : SymbolTable} {v : Variable} (h : s.contains v.name = false) :
    s.insert v = ⟨s.declared ++ [v]⟩ :=
  if_neg (by simp [h])

theorem find?_congr {s : SymbolTable} {name name' : String}
    (h : Ascii.upper name = Ascii.upper name') : s.find? name = s.find? name' := by
  simp only [find?, Ascii.eqIgnoreCase, h]

theorem sublist_ofList (vs : List Variable) : (ofList vs).declared.Sublist vs := by
  induction vs using List.reverseRecOn with
  | nil => exact List.nil_sublist _
  | append_singleton vs v ih =>
    rw [ofList_append_singleton]
    cases h : (ofList vs).contains v.name with
    | true => rw [insert_of_contains h]; exact ih.trans (List.sublist_append_left ..)
    | false => rw [insert_of_not_contains h]; exact ih.append (List.Sublist.refl _)

theorem nodup_ofList (vs : List Variable) :
    ((ofList vs).declared.map fun v => Ascii.upper v.name).Nodup := by
  induction vs using List.reverseRecOn with
  | nil => exact List.nodup_nil
  | append_singleton vs v ih =>
    rw [ofList_append_singleton]
    cases h : (ofList vs).contains v.name with
    | true => rwa [insert_of_contains h]
    | false =>
      rw [insert_of_not_contains h, List.map_append, List.nodup_append]
      refine ⟨ih, List.nodup_singleton _, fun name hname name' hname' => ?_⟩
      obtain ⟨u, hu, rfl⟩ := List.mem_map.1 hname
      obtain rfl := List.mem_singleton.1 hname'
      rw [contains, find?, Option.isSome_eq_false_iff, Option.isNone_iff_eq_none] at h
      exact fun heq => List.find?_eq_none.1 h u hu (Ascii.eqIgnoreCase_iff.2 heq)

/-- The table holds the first declaration of every name. -/
theorem find?_ofList (vs : List Variable) (name : String) :
    (ofList vs).find? name = vs.find? fun v => Ascii.eqIgnoreCase v.name name := by
  induction vs using List.reverseRecOn with
  | nil => rfl
  | append_singleton vs v ih =>
    rw [ofList_append_singleton, List.find?_append, ← ih]
    cases h : (ofList vs).contains v.name with
    | false =>
      rw [insert_of_not_contains h]
      exact List.find?_append
    | true =>
      rw [insert_of_contains h]
      cases hfind : (ofList vs).find? name with
      | some u => rfl
      | none =>
        -- the name that is declared again is not this one
        have hne : Ascii.eqIgnoreCase v.name name = false := by
          rw [Bool.eq_false_iff]
          intro heq
          rw [contains, find?_congr (Ascii.eqIgnoreCase_iff.1 heq), hfind] at h
          cases h
        simp [hne]

end SymbolTable

/-! ### The diagnostics -/

/-- The diagnostic for a declaration that is not accepted. -/
def Declaration.diagnostic (file : Path) (d : Declaration) : Diagnostic :=
  .ofProblem file d.span (.invalidLevel d.number.text d.name.text)

/-- The diagnostic for a block without an end. -/
def DefineData.diagnostic (file : Path) (b : DefineData) : Diagnostic :=
  .ofProblem file b.define.span .missingEndDefine

theorem outlineDiagnostics_eq (file : Path) (tokens : List Token) :
    outlineDiagnostics file tokens = (DefineData.blocks tokens).flatMap fun b =>
      b.rejected.map (Declaration.diagnostic file) ++
        if b.closed then [] else [b.diagnostic file] := by
  have hproblems := (Clause.filterMap_ofTokens none tokens).2.1
  have houtline : outlineDiagnostics file tokens =
      ((Clause.ofTokens none none tokens).filterMap Clause.problem?).map
        fun report => .ofProblem file report.1 report.2 := by
    rw [List.map_filterMap]
    rfl
  rw [houtline, hproblems, List.map_flatMap]
  refine List.flatMap_congr fun b _ => ?_
  rw [Clause.problemsOf, List.map_append, List.map_map]
  cases b.closed <;> rfl

theorem code_of_mem_call {m : Module} {find : String → Option Module} {d : Diagnostic}
    (hd : d ∈ m.callDiagnostics find) : d.code = "E0003" ∨ d.code = "E0004" ∨ d.code = "E0005" := by
  obtain ⟨s, -, hd⟩ := List.mem_filterMap.1 hd
  split at hd
  · rename_i name problem _ hmissing
    split at hd
    · obtain rfl := Option.some.inj hd
      unfold Module.missing? at hmissing
      split at hmissing <;> cases hmissing <;> simp [Diagnostic.ofProblem, Problem.code]
    · cases hd
  · cases hd

/-- What depends on other modules is not reported like what is wrong in a block. -/
theorem code_of_mem_resolution {m : Module} {find : String → Option Module} {d : Diagnostic}
    (hd : d ∈ m.resolutionDiagnostics find) : d.code ≠ "E0006" ∧ d.code ≠ "E0007" := by
  simp only [Module.resolutionDiagnostics, List.mem_append] at hd
  rcases hd with (hd | hd) | hd
  · obtain ⟨u, -, hd⟩ := List.mem_filterMap.1 hd
    split at hd
    · obtain rfl := Option.some.inj hd
      simp [Diagnostic.ofProblem, Problem.code]
    · cases hd
  · rcases code_of_mem_call hd with h | h | h <;> simp [h]
  · simp [code_of_mem_variable m find hd]

/-- Nor is what is wrong with a single token. -/
theorem code_ne_of_mem_lexical {file : Path} {tokens : List Token} {d : Diagnostic}
    (hd : d ∈ lexicalDiagnostics file tokens) : d.code ≠ "E0006" ∧ d.code ≠ "E0007" := by
  rcases code_of_mem_lexical tokens hd with h | h <;> simp [h]

/-- The diagnostics of a parse with a code that only the outline gives. -/
theorem filter_code_parseTokens (i : Identity) (tokens : List Token)
    (find : String → Option Module) {code : String} (hcode : code = "E0006" ∨ code = "E0007") :
    (parseTokens i tokens find).2.filter (·.code == code) =
      (outlineDiagnostics i.path tokens).filter (·.code == code) := by
  have hnone {ds : List Diagnostic} (h : ∀ d ∈ ds, d.code ≠ "E0006" ∧ d.code ≠ "E0007") :
      ds.filter (·.code == code) = [] :=
    List.filter_eq_nil_iff.2 fun d hd => by
      rcases hcode with rfl | rfl
      · simpa using (h d hd).1
      · simpa using (h d hd).2
  simp only [parseTokens, parse, List.filter_append, hnone fun d => code_ne_of_mem_lexical,
    hnone fun d => code_of_mem_resolution, List.nil_append, List.append_nil]

/-- The declarations that are not accepted are reported one by one. -/
theorem filter_rejected (file : Path) (tokens : List Token) :
    (outlineDiagnostics file tokens).filter (·.code == "E0007") =
      ((DefineData.blocks tokens).flatMap DefineData.rejected).map
        (Declaration.diagnostic file) := by
  rw [outlineDiagnostics_eq, List.filter_flatMap, List.map_flatMap]
  refine List.flatMap_congr fun b _ => ?_
  have hall : ∀ d ∈ b.rejected.map (Declaration.diagnostic file), (d.code == "E0007") = true := by
    rintro _ hd
    obtain ⟨d, -, rfl⟩ := List.mem_map.1 hd
    rfl
  have hnone : (if b.closed then [] else [b.diagnostic file]).filter (·.code == "E0007") = [] := by
    cases b.closed <;> rfl
  rw [List.filter_append, List.filter_eq_self.2 hall, hnone, List.append_nil]

/-- The blocks without an end are reported one by one. -/
theorem filter_unclosed (file : Path) (tokens : List Token) :
    (outlineDiagnostics file tokens).filter (·.code == "E0006") =
      ((DefineData.blocks tokens).filter (!·.closed)).map (DefineData.diagnostic file) := by
  rw [outlineDiagnostics_eq]
  induction DefineData.blocks tokens with
  | nil => rfl
  | cons b bs ih =>
    have hnone : (b.rejected.map (Declaration.diagnostic file)).filter (·.code == "E0006") = [] :=
      List.filter_eq_nil_iff.2 fun d hd => by
        obtain ⟨d, -, rfl⟩ := List.mem_map.1 hd
        simp [Declaration.diagnostic, Diagnostic.ofProblem, Problem.code]
    rw [List.flatMap_cons, List.filter_append, List.filter_append, hnone, ih]
    cases hclosed : b.closed <;>
      simp [hclosed, DefineData.diagnostic, Diagnostic.ofProblem, Problem.code]

/-! ### Without the declarations that are not accepted -/

/-- The token, where a whole number at a selected position that is no allowed level becomes a
decimal number. No clause is read from a decimal number, so that this leaves the number out and
keeps every other token in its place. -/
def Token.overlooked (selected : Position → Bool) (t : Token) : Token :=
  if t.kind = .integer ∧ t.isLevel = false ∧ selected t.start = true then
    { t with kind := .decimal }
  else t

section Overlooked

variable (selected : Position → Bool) {t : Token} {rest tokens : List Token}

theorem Token.overlooked_cases (t : Token) :
    t.overlooked selected = t ∧ ¬(t.kind = .integer ∧ t.isLevel = false ∧ selected t.start = true) ∨
      (t.kind = .integer ∧ t.isLevel = false ∧ selected t.start = true) ∧
        t.overlooked selected = { t with kind := .decimal } := by
  unfold overlooked
  split
  · exact .inr ⟨‹_›, rfl⟩
  · exact .inl ⟨rfl, ‹_›⟩

namespace Token

theorem line_overlooked (t : Token) : (t.overlooked selected).line = t.line := by
  unfold overlooked
  split <;> rfl

theorem span_overlooked (t : Token) : (t.overlooked selected).span = t.span := by
  unfold overlooked
  split <;> rfl

theorem leadingName?_overlooked (tokens : List Token) :
    leadingName? (tokens.map (overlooked selected)) = leadingName? tokens := by
  cases tokens with
  | nil => rfl
  | cons t rest =>
    rcases overlooked_cases selected t with ⟨h, -⟩ | ⟨⟨hkind, -⟩, h⟩
    · rw [List.map_cons, h]
      rfl
    · simp [leadingName?, h, isIdentifier, hkind, Option.filter]

theorem fetchModifiers_overlooked (tokens : List Token) :
    fetchModifiers (tokens.map (overlooked selected)) = fetchModifiers tokens := by
  cases tokens with
  | nil => rfl
  | cons t rest =>
    rcases overlooked_cases selected t with ⟨h, -⟩ | ⟨⟨hkind, -⟩, h⟩
    · rw [List.map_cons, h]
      rfl
    · simp [fetchModifiers, h, hkind]

theorem isMark_overlooked (t : Token) (m : Mark) :
    ((t.overlooked selected).kind == .mark m) = (t.kind == .mark m) := by
  rcases overlooked_cases selected t with ⟨h, -⟩ | ⟨⟨hkind, -⟩, h⟩
  · rw [h]
  · rw [h, hkind]
    rfl

theorem adjacentTo_overlooked (t u : Token) :
    t.adjacentTo (u.overlooked selected) = t.adjacentTo u := by
  rcases overlooked_cases selected u with ⟨h, -⟩ | ⟨-, h⟩ <;> rw [h]
  rfl

theorem overlooked_adjacentTo (t u : Token) :
    (t.overlooked selected).adjacentTo u = t.adjacentTo u := by
  rcases overlooked_cases selected t with ⟨h, -⟩ | ⟨-, h⟩ <;> rw [h]
  rfl

theorem callsFunction_overlooked (t : Token) (tokens : List Token) :
    t.callsFunction (tokens.map (overlooked selected)) = t.callsFunction tokens := by
  match tokens with
  | [] | [_] => rfl
  | paren :: angle :: rest =>
    simp only [callsFunction, List.map_cons, isMark_overlooked, adjacentTo_overlooked,
      overlooked_adjacentTo]

theorem problem?_overlooked (t : Token) : (t.overlooked selected).problem? = t.problem? := by
  rcases overlooked_cases selected t with ⟨h, -⟩ | ⟨⟨hkind, -⟩, h⟩
  · rw [h]
  · simp [problem?, h, hkind]

end Token

namespace Clause

theorem readDefine_overlooked (t : Token) (rest : List Token) :
    readDefine t (rest.map (Token.overlooked selected)) = readDefine t rest := by
  cases rest with
  | nil => rfl
  | cons word rest =>
    rw [List.map_cons]
    rcases Token.overlooked_cases selected word with ⟨h, -⟩ | ⟨⟨hkind, -⟩, h⟩
    · simp only [readDefine, h, Token.leadingName?_overlooked]
    · simp only [readDefine, h, hkind]

theorem readCall_overlooked (action : CallTarget → Action) (t : Token) (rest : List Token)
    (skip : Nat) :
    readCall action t (rest.map (Token.overlooked selected)) skip =
      readCall action t rest skip := by
  unfold readCall
  rw [← List.map_drop, List.head?_map]
  cases (rest.drop skip).head? with
  | none => rfl
  | some target =>
    rw [Option.map_some]
    rcases Token.overlooked_cases selected target with ⟨h, -⟩ | ⟨⟨hkind, -⟩, h⟩
    · rw [h]
    · simp only [h, hkind]

/-- Outside every block no number counts. -/
theorem read_overlooked (t : Token) (rest : List Token) :
    read (t.overlooked selected) (rest.map (Token.overlooked selected)) = read t rest := by
  rcases Token.overlooked_cases selected t with ⟨h, -⟩ | ⟨⟨hkind, -⟩, h⟩
  · unfold read
    simp only [h, Token.leadingName?_overlooked, Token.fetchModifiers_overlooked,
      Token.callsFunction_overlooked, readDefine_overlooked, readCall_overlooked]
  · simp only [read, h, hkind]

/-- The clause reports no declaration at a selected position. -/
def spares (selected : Position → Bool) : Clause → Bool
  | problem span (.invalidLevel ..) => !selected span.start
  | _ => true

theorem spares_of_problem? {c : Clause} (hc : c.problem? = none) : c.spares selected = true := by
  cases c with
  | problem => cases hc
  | _ => rfl

theorem filter_toList_spares {o : Option Clause} (ho : ∀ c ∈ o, c.spares selected = true) :
    o.toList.filter (spares selected) = o.toList :=
  List.filter_eq_self.2 fun c hc => ho c (Option.mem_toList.1 hc)

variable {selected} in
theorem spares_of_read {b : DataBlock} {startsLine : Bool} {c : Clause}
    (ht : ¬(t.kind = .integer ∧ t.isLevel = false ∧ selected t.start = true))
    (hc : (b.read startsLine t rest).clause = some c) : c.spares selected = true := by
  unfold DataBlock.read at hc
  split at hc
  · obtain rfl := Option.some.inj hc
    rfl
  · cases hc
  · split at hc
    · obtain rfl := Option.some.inj hc
      rfl
    · cases hc
  · rename_i hkind
    split at hc
    · rename_i name hname
      cases hlevel : t.isLevel with
      | true =>
        have haccepted : DataBlock.isLevel (DataBlock.levelOf t.text) = true :=
          (congrArg DataBlock.isLevel (Declaration.levelOf_eq ⟨t, name⟩)).trans hlevel
        simp only [DataBlock.declare, haccepted, if_true] at hc
        obtain rfl := Option.some.inj hc
        rfl
      | false =>
        rw [b.declare_rejected (d := ⟨t, name⟩) hlevel] at hc
        obtain rfl := Option.some.inj hc
        rw [spares, Bool.not_eq_true', Bool.eq_false_iff]
        exact fun hselected => ht ⟨hkind, hlevel, hselected⟩
    · cases hc
  · cases hc

/-- Inside a block a selected number that is no allowed level gives nothing. -/
theorem read_block_overlooked (b : DataBlock) (startsLine : Bool) (t : Token)
    (rest : List Token) :
    (b.read startsLine (t.overlooked selected) (rest.map (Token.overlooked selected))).block =
        (b.read startsLine t rest).block ∧
      (b.read startsLine (t.overlooked selected)
          (rest.map (Token.overlooked selected))).clause.toList =
        (b.read startsLine t rest).clause.toList.filter (spares selected) := by
  rcases Token.overlooked_cases selected t with ⟨h, hnot⟩ | ⟨⟨hkind, hlevel, hselected⟩, h⟩
  · have hsame : b.read startsLine t (rest.map (Token.overlooked selected)) =
        b.read startsLine t rest := by
      simp only [DataBlock.read, Token.leadingName?_overlooked]
    rw [h, hsame]
    exact ⟨rfl, (filter_toList_spares selected fun c hc => spares_of_read hnot hc).symm⟩
  · have hpass : b.read startsLine (t.overlooked selected)
        (rest.map (Token.overlooked selected)) = { block := some b } := by
      simp only [h, DataBlock.read]
    rw [hpass]
    by_cases hdeclares : startsLine = true ∧ (Token.leadingName? rest).isSome
    · obtain ⟨rfl, hsome⟩ := hdeclares
      obtain ⟨name, hname⟩ := Option.isSome_iff_exists.1 hsome
      have hread : b.read true t rest = b.declare t name := by
        simp only [DataBlock.read, hkind, hname]
      rw [hread, b.declare_rejected (d := ⟨t, name⟩) hlevel]
      have hspares : spares selected (.problem ⟨t.span.start, name.span.stop⟩
          (.invalidLevel t.text name.text)) = false := by
        rw [spares]
        exact congrArg not hselected
      exact ⟨rfl, by simp [Declaration.span, hspares]⟩
    · have hread : b.read startsLine t rest = { block := some b } := by
        simp only [DataBlock.read, hkind]
        split
        · exact absurd ⟨rfl, by simp [*]⟩ hdeclares
        · rfl
      rw [hread]
      exact ⟨rfl, rfl⟩

/-- Numbers that are no allowed level give nothing but the reports about them. -/
theorem ofTokens_overlooked (block : Option DataBlock) (previous : Option Nat)
    (tokens : List Token) :
    ofTokens block previous (tokens.map (Token.overlooked selected)) =
      (ofTokens block previous tokens).filter (spares selected) := by
  match block, tokens with
  | none, [] => simp [ofTokens]
  | some b, [] =>
    rw [List.map_nil, ofTokens]
    rfl
  | some b, t :: rest =>
    obtain ⟨hblock, hclause⟩ :=
      read_block_overlooked selected b (previous != some t.line) t rest
    rw [List.map_cons, ofTokens_block_cons, ofTokens_block_cons, List.filter_append,
      t.line_overlooked, hblock, hclause, ofTokens_overlooked]
  | none, t :: rest =>
    rw [List.map_cons, ofTokens, ofTokens]
    dsimp only [step]
    rw [read_overlooked, List.filter_append, ← List.map_drop, ofTokens_overlooked,
      filter_toList_spares selected fun c hc => spares_of_problem? selected ?_]
    · have hlast : ((rest.map (Token.overlooked selected)).take
            (read t rest).used).getLast?.getD (t.overlooked selected) =
          ((rest.take (read t rest).used).getLast?.getD t).overlooked selected := by
        rw [← List.map_take, List.getLast?_map]
        exact Option.getD_map ..
      rw [hlast, Token.line_overlooked]
    · have hproblem := (clause_outside t rest).2.1
      rwa [Option.mem_def.1 hc, Option.bind_some] at hproblem
termination_by tokens.length
decreasing_by
  · simp
  · simp only [List.length_drop, List.length_cons]
    omega

theorem filterMap_spares {α : Type} {f : Clause → Option α}
    (hf : ∀ span problem, f (.problem span problem) = none) (cs : List Clause) :
    (cs.filter (spares selected)).filterMap f = cs.filterMap f := by
  rw [List.filterMap_filter]
  refine List.filterMap_congr fun c _ => ?_
  cases c with
  | problem span problem => rw [hf, ite_self]
  | _ => exact if_pos rfl

end Clause

theorem Module.ofTokens_overlooked (i : Identity) (tokens : List Token) :
    ofTokens i (tokens.map (Token.overlooked selected)) = ofTokens i tokens := by
  have hclauses := Clause.ofTokens_overlooked selected none none tokens
  simp only [ofTokens, ofClauses, Clause.ofSource, hclauses]
  rw [Clause.filterMap_spares selected (fun _ _ => rfl),
    Clause.filterMap_spares selected (fun _ _ => rfl),
    Clause.filterMap_spares selected (fun _ _ => rfl),
    Clause.filterMap_spares selected (fun _ _ => rfl)]

/-- The diagnostic does not report a declaration at a selected position. -/
def Diagnostic.spares (d : Diagnostic) : Bool :=
  !(d.code == "E0007" && selected d.span.start)

theorem outlineDiagnostics_overlooked (file : Path) (tokens : List Token) :
    outlineDiagnostics file (tokens.map (Token.overlooked selected)) =
      (outlineDiagnostics file tokens).filter (Diagnostic.spares selected) := by
  have hclauses := Clause.ofTokens_overlooked selected none none tokens
  rw [outlineDiagnostics, outlineDiagnostics, Clause.ofSource, Clause.ofSource, hclauses,
    List.filterMap_filter, List.filter_filterMap]
  refine List.filterMap_congr fun c _ => ?_
  cases c with
  | problem span problem =>
    cases problem <;>
      simp [Clause.spares, Clause.problem?, Diagnostic.spares, Diagnostic.ofProblem, Problem.code,
        Option.filter]
  | _ => rfl

theorem lexicalDiagnostics_overlooked (file : Path) (tokens : List Token) :
    lexicalDiagnostics file (tokens.map (Token.overlooked selected)) =
      lexicalDiagnostics file tokens := by
  rw [lexicalDiagnostics, lexicalDiagnostics, List.filterMap_map]
  refine List.filterMap_congr fun t _ => ?_
  rw [Function.comp_apply, Token.diagnostic?, t.problem?_overlooked, t.span_overlooked,
    Token.diagnostic?]

/-- Without the selected numbers that are no allowed level, a source gives the same module and the
same diagnostics but for the reports about them. -/
theorem parseTokens_overlooked (i : Identity) (tokens : List Token)
    (find : String → Option Module) :
    parseTokens i (tokens.map (Token.overlooked selected)) find =
      ((parseTokens i tokens find).1,
        (parseTokens i tokens find).2.filter (Diagnostic.spares selected)) := by
  have hall {ds : List Diagnostic} (h : ∀ d ∈ ds, d.code ≠ "E0006" ∧ d.code ≠ "E0007") :
      ds.filter (Diagnostic.spares selected) = ds :=
    List.filter_eq_self.2 fun d hd => by simp [Diagnostic.spares, (h d hd).2]
  simp only [parseTokens, parse, Module.ofTokens_overlooked, outlineDiagnostics_overlooked,
    lexicalDiagnostics_overlooked, List.filter_append, hall fun d => code_ne_of_mem_lexical,
    hall fun d => code_of_mem_resolution]

end Overlooked

/-! ### The symbols and the diagnostics of a source -/

theorem Module.symbols_ofTokens (i : Identity) (tokens : List Token) :
    (Module.ofTokens i tokens).symbols =
      .ofList ((DefineData.blocks tokens).flatMap DefineData.declared) :=
  congrArg SymbolTable.ofList (Clause.filterMap_ofTokens none tokens).1

/-- The symbol table holds the first accepted declaration of every name, in the order in which they
are written. Every other declaration is reported once and has no other effect, whichever of them are
left out, and every block without an end is reported once. -/
theorem declarations_of_source (i : Identity) (find : String → Option Module) (source : String) :
    let blocks := DefineData.blocks (tokenize source)
    let accepted := blocks.flatMap DefineData.declared
    let symbols := (parseSource i source find).1.symbols
    let diagnostics := (parseSource i source find).2
    symbols.declared.Sublist accepted ∧
      (symbols.declared.map fun v => Ascii.upper v.name).Nodup ∧
      (∀ name, symbols.find? name =
        accepted.find? fun v => Ascii.upper v.name == Ascii.upper name) ∧
      diagnostics.filter (·.code == "E0007") =
        (blocks.flatMap DefineData.rejected).map (Declaration.diagnostic i.path) ∧
      diagnostics.filter (·.code == "E0006") =
        (blocks.filter (!·.closed)).map (DefineData.diagnostic i.path) ∧
      ∀ selected, parseTokens i ((tokenize source).map (Token.overlooked selected)) find =
        ((parseSource i source find).1, diagnostics.filter (Diagnostic.spares selected)) := by
  have hsymbols : (parseSource i source find).1.symbols =
      .ofList ((DefineData.blocks (tokenize source)).flatMap DefineData.declared) :=
    Module.symbols_ofTokens i (tokenize source)
  dsimp only
  rw [hsymbols]
  refine ⟨SymbolTable.sublist_ofList _, SymbolTable.nodup_ofList _, SymbolTable.find?_ofList _,
    ?_, ?_, fun selected => parseTokens_overlooked selected i _ find⟩
  · rw [parseSource, filter_code_parseTokens i _ find (.inr rfl), filter_rejected]
  · rw [parseSource, filter_code_parseTokens i _ find (.inl rfl), filter_unclosed]

end Steplib
