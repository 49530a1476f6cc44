import Mathlib.Tactic.MkIffOfInductiveProp
import Steplib.Proofs.Scan.Sighting

/-!
# Stretches of a source

The scanner and the parser pass over different tokens: the scanner skips the words of a header or
the literal target of a call also inside a `DEFINE DATA` block, the parser skips the variable target
of a call and the words after `DEFINE`. From a common token on they meet again at most three tokens
later, and the tokens between are names, literals and words that have no meaning of their own.

## Main definitions

* `Token.places`: the tokens of a source, each with its context.
* `TokenPlace.Tidy`: the two readers do not differ at the place.
* `Stretch`: a piece of a source after which both readers stand at the same token, with what they
  have found by then.

## Main results

* `Stretch.nonempty_stretch`: from every token that both readers stand at there is a stretch.
-/

namespace Steplib

/-! ### Places -/

/-- A token in its source: what follows it, and whether it stands inside an open `DEFINE DATA`
block. -/
structure TokenPlace where
  token : Token
  rest : List Token
  inData : Bool
deriving DecidableEq

namespace Token

/-- A data block is open after the token, which stands before `rest`. A block opens at `DEFINE DATA`
and ends at `END-DEFINE`. -/
def leavesData (inData : Bool) (t : Token) (rest : List Token) : Bool :=
  match t.kind with
  | .keyword .define => inData || rest.head?.any (·.kind == .keyword .data)
  | .keyword .endDefine => false
  | _ => inData

/-- The places of a list of tokens, where `inData` says that a data block is open before them. -/
def places (inData : Bool) : List Token → List TokenPlace
  | [] => []
  | t :: rest => ⟨t, rest, inData⟩ :: places (leavesData inData t rest) rest

end Token

namespace TokenPlace

variable (p : TokenPlace)

/-- The name in a `DEFINE SUBROUTINE` header that starts at the place. -/
def subroutine? : Option String :=
  match p.token.kind, p.rest with
  | .keyword .define, word :: name :: _ =>
    if word.kind == .keyword .subroutine && name.isIdentifier then some name.name else none
  | _, _ => none

/-- The place has the form `NAME(<` of a function call. -/
def callsFunction : Bool :=
  p.token.isIdentifier && p.token.callsFunction p.rest

/-- The place of the target of a `CALLNAT` or `FETCH`, if there is such a word at the place. -/
def target? : Option TokenPlace :=
  let after :=
    match p.token.kind with
    | .keyword .callnat => p.rest
    | .keyword .fetch => p.rest.drop (Token.fetchModifiers p.rest)
    | _ => []
  match after with
  | [] => none
  | target :: rest => some ⟨target, rest, p.inData⟩

/-- The two readers do not differ at the place. -/
@[mk_iff]
structure Tidy : Prop where
  /-- Data areas are imported inside data blocks only. -/
  imports : p.token.kind = .keyword .usingWord → (Token.leadingName? p.rest).isSome → p.inData
  /-- Inside a data block there are no statements. -/
  declares : p.inData → p.callsFunction = false ∧ p.token.kind ∉
    [.keyword .define, .keyword .perform, .keyword .callnat, .keyword .fetch,
      .keyword .includeWord]
  /-- The target of a call is no function call. -/
  targets : ∀ q ∈ p.target?, q.callsFunction = false

instance : Decidable p.Tidy :=
  decidable_of_iff' _ (tidy_iff p)

end TokenPlace

/-! ### Stretches -/

namespace Token

variable {t : Token} {inData : Bool}

/-- The token is a name, a literal or a word that can only stand after another word. -/
def IsInner (t : Token) : Prop :=
  t.kind ∈ [.identifier, .string, .keyword .data, .keyword .subroutine, .keyword .function,
    .keyword .returnWord, .keyword .repeatWord]

/-- Only `DEFINE` and `END-DEFINE` have to do with the limits of data blocks. -/
theorem leavesData_of_ne (hdefine : t.kind ≠ .keyword .define)
    (hend : t.kind ≠ .keyword .endDefine) (rest : List Token) :
    leavesData inData t rest = inData := by
  unfold leavesData
  split <;> simp_all

end Token

theorem TokenPlace.subroutine?_of_ne {t : Token} (h : t.kind ≠ .keyword .define) (rest : List Token)
    (inData : Bool) : (TokenPlace.mk t rest inData).subroutine? = none := by
  unfold subroutine?
  split <;> simp_all

/-- A piece of a source, from the token `t` on, after which the scanner and the parser stand at the
same token again, with what each of them has found by then. -/
structure Stretch (block : Option DataBlock) (t : Token) (rest : List Token) where
  used : Nat
  next : Option DataBlock
  seen : List Sighting
  found : List Sighting
  seen_eq : Sighting.ofTokens (t :: rest) = seen ++ Sighting.ofTokens (rest.drop used)
  found_eq : Sighting.parsed block none (t :: rest) =
    found ++ Sighting.parsed next none (rest.drop used)
  next_eq : Token.leavesData block.isSome t rest = next.isSome
  used_inner : ∀ u ∈ rest.take used, u.IsInner
  sublist : found.Sublist seen
  /-- The scanner finds every header of a subroutine. -/
  seen_header : seen.filterMap Sighting.subroutine? =
    (TokenPlace.mk t rest block.isSome).subroutine?.toList
  /-- The parser finds those outside data blocks. -/
  found_header : found.filterMap Sighting.subroutine? =
    if block.isSome then [] else seen.filterMap Sighting.subroutine?
  found_eq_of_tidy :
    (TokenPlace.mk t rest block.isSome).Tidy → found = seen.filter Sighting.isParsed

namespace Stretch

variable {t : Token} {rest : List Token}

theorem subroutine?_ofLiteral {s : Sighting} {skip : Nat}
    (h : (Sighting.ofLiteral t rest skip).1 = some s) : s.subroutine? = none := by
  unfold Sighting.ofLiteral at h
  split at h
  · cases h
    rfl
  · simp at h

theorem subroutine?_read (t : Token) (rest : List Token) (inData : Bool) :
    (Sighting.read t rest).1.toList.filterMap Sighting.subroutine? =
      (TokenPlace.mk t rest inData).subroutine?.toList := by
  by_cases hdefine : t.kind = .keyword .define
  · unfold Sighting.read TokenPlace.subroutine? Sighting.ofHeader
    simp only [hdefine]
    grind [Sighting.subroutine?]
  · rw [TokenPlace.subroutine?_of_ne hdefine]
    fun_cases Sighting.read t rest with
    | case6 | case7 => simpa using fun s hs => subroutine?_ofLiteral hs
    | case1 => contradiction
    | _ => rfl

theorem inner_of_leadingName? {name : Token} (h : Token.leadingName? rest = some name) :
    ∀ u ∈ rest.take 1, u.IsInner := by
  obtain ⟨hkind, more, rfl⟩ := Sighting.exists_cons_of_leadingName? h
  simp [Token.IsInner, hkind]

theorem inner_of_ofHeader (rest : List Token) :
    ∀ u ∈ rest.take (Sighting.ofHeader rest).2, u.IsInner := by
  unfold Sighting.ofHeader
  grind [Token.IsInner, Token.isIdentifier]

theorem inner_of_fetchModifiers (rest : List Token) :
    ∀ u ∈ rest.take (Token.fetchModifiers rest), u.IsInner ∧ u.kind ≠ .identifier := by
  unfold Token.fetchModifiers
  grind [Token.IsInner]

theorem kind_of_stringValue? {value : String} (h : t.stringValue? = some value) :
    t.kind = .string := by
  unfold Token.stringValue? at h
  grind

theorem inner_of_ofLiteral {skip : Nat} (hskip : ∀ u ∈ rest.take skip, u.IsInner) :
    ∀ u ∈ rest.take (Sighting.ofLiteral t rest skip).2, u.IsInner := by
  unfold Sighting.ofLiteral
  split
  · rename_i target htarget
    obtain ⟨v, hv, hstring⟩ := Option.bind_eq_some_iff.1 htarget
    have hkind := kind_of_stringValue? hstring
    have hv : rest[skip]? = some v := by rwa [List.head?_drop] at hv
    intro u hu
    rw [List.take_add_one, hv] at hu
    rcases List.mem_append.1 hu with hu | hu
    · exact hskip u hu
    · obtain rfl : u = v := by simpa using hu
      simp [Token.IsInner, hkind]
  · simp

/-- The scanner passes over words that have nothing to do with the limits of data blocks. -/
theorem inner_of_read (t : Token) (rest : List Token) :
    ∀ u ∈ rest.take (Sighting.read t rest).2, u.IsInner := by
  unfold Sighting.read
  split
  · exact inner_of_ofHeader rest
  · split
    · exact inner_of_leadingName? ‹_›
    · simp
  · split
    · exact inner_of_leadingName? ‹_›
    · simp
  · exact inner_of_ofLiteral (by simp)
  · exact inner_of_ofLiteral fun u hu => (inner_of_fetchModifiers rest u hu).1
  · split
    · exact inner_of_leadingName? ‹_›
    · simp
  · split <;> simp
  · simp

theorem parsed_block_drop (b : DataBlock) {k : Nat} (hk : ∀ u ∈ rest.take k, u.IsInner) :
    Sighting.parsed (some b) none rest = Sighting.parsed (some b) none (rest.drop k) := by
  induction rest generalizing k with
  | nil => simp
  | cons u rest ih =>
    cases k with
    | zero => rfl
    | succ k =>
      obtain ⟨hu, hrest⟩ := List.forall_mem_cons.1 hk
      rw [Sighting.parsed_block_quiet b, ih hrest, List.drop_succ_cons]
      · rintro h
        simp [Token.IsInner, h] at hu
      · rintro h
        simp [Token.IsInner, h] at hu

/-- The scanner passes over a word that can only stand after another word. -/
theorem ofTokens_word {w : Token} (hw : w.IsInner) (hname : w.kind ≠ .identifier)
    (more : List Token) : Sighting.ofTokens (w :: more) = Sighting.ofTokens more := by
  have hread : Sighting.read w more = (none, 0) := by
    unfold Sighting.read
    split <;> simp_all [Token.IsInner]
  simp [Sighting.ofTokens_cons, hread]

theorem ofTokens_drop {k : Nat} (hk : ∀ u ∈ rest.take k, u.IsInner ∧ u.kind ≠ .identifier) :
    Sighting.ofTokens rest = Sighting.ofTokens (rest.drop k) := by
  induction rest generalizing k with
  | nil => simp
  | cons u rest ih =>
    cases k with
    | zero => rfl
    | succ k =>
      obtain ⟨⟨hu, hname⟩, hrest⟩ := List.forall_mem_cons.1 hk
      rw [ofTokens_word hu hname, ih hrest, List.drop_succ_cons]

theorem ofTokens_identifier {x : Token} (hx : x.kind = .identifier) (more : List Token) :
    Sighting.ofTokens (x :: more) =
      (if x.callsFunction more then [.call ⟨x.name, x.start⟩] else []) ++
        Sighting.ofTokens more := by
  rw [Sighting.ofTokens_cons]
  cases h : x.callsFunction more <;> simp [Sighting.read, hx, h]

theorem read_identifier {x : Token} (hx : x.kind = .identifier) (more : List Token) :
    (Clause.read x more).clause.bind Clause.sighting? =
        (if x.callsFunction more then some (.call ⟨x.name, x.start⟩) else none) ∧
      (Clause.read x more).block = none ∧ (Clause.read x more).used = 0 := by
  cases h : x.callsFunction more with
  | true =>
    simp only [Clause.read, hx, h]
    exact ⟨rfl, rfl, rfl⟩
  | false =>
    simp only [Clause.read, hx, h]
    cases x.isHashName <;> exact ⟨rfl, rfl, rfl⟩

theorem parsed_identifier {x : Token} (hx : x.kind = .identifier) (more : List Token) :
    Sighting.parsed none none (x :: more) =
      (if x.callsFunction more then [.call ⟨x.name, x.start⟩] else []) ++
        Sighting.parsed none none more := by
  obtain ⟨hclause, hblock, hused⟩ := read_identifier hx more
  rw [Sighting.parsed_none_cons, hclause, hblock, hused]
  cases x.callsFunction more <;> rfl

theorem isParsed_sighting? {c : Clause} {s : Sighting} (h : c.sighting? = some s) :
    s.isParsed = true := by
  cases s with
  | function name =>
    cases c with
    | statement s =>
      obtain ⟨action, span⟩ := s
      cases action <;> simp [Clause.sighting?] at h
    | _ => simp [Clause.sighting?] at h
  | _ => rfl

/-- At a token that has no meaning for the parser inside a block. -/
def inBlock (b : DataBlock) (hend : t.kind ≠ .keyword .endDefine)
    (husing : t.kind ≠ .keyword .usingWord) : Stretch (some b) t rest where
  used := (Sighting.read t rest).2
  next := some b
  seen := (Sighting.read t rest).1.toList
  found := []
  seen_eq := Sighting.ofTokens_cons t rest
  found_eq := by
    rw [Sighting.parsed_block_quiet b hend husing]
    exact parsed_block_drop b (inner_of_read t rest)
  next_eq := by
    unfold Token.leavesData
    split <;> simp_all
  used_inner := inner_of_read t rest
  sublist := List.nil_sublist _
  seen_header := subroutine?_read t rest true
  found_header := rfl
  found_eq_of_tidy h := by
    obtain ⟨hcall, hkind⟩ := h.declares rfl
    have hread : (Sighting.read t rest).1 = none := by
      unfold Sighting.read
      split <;> simp_all [TokenPlace.callsFunction, Token.isIdentifier]
    rw [hread]
    rfl

/-- At the end of a block. -/
def atEnd (b : DataBlock) (hend : t.kind = .keyword .endDefine) : Stretch (some b) t rest where
  used := 0
  next := none
  seen := []
  found := []
  seen_eq := by simp [Sighting.ofTokens_cons, Sighting.read, hend]
  found_eq := Sighting.parsed_block_end b hend
  next_eq := by simp [Token.leavesData, hend]
  used_inner := by simp
  sublist := .refl []
  seen_header := by simp [TokenPlace.subroutine?, hend]
  found_header := rfl
  found_eq_of_tidy _ := rfl

/-- At an import inside a block. -/
def atImport (b : DataBlock) (husing : t.kind = .keyword .usingWord) :
    Stretch (some b) t rest where
  used := (Token.leadingName? rest).toList.length
  next := some b
  seen := ((Token.leadingName? rest).map fun x => .call ⟨x.name, x.start⟩).toList
  found := ((Token.leadingName? rest).map fun x => .call ⟨x.name, x.start⟩).toList
  seen_eq := by
    rw [Sighting.ofTokens_cons]
    cases h : Token.leadingName? rest <;> simp [Sighting.read, husing, h]
  found_eq := Sighting.parsed_block_using b husing
  next_eq := by simp [Token.leavesData, husing]
  used_inner := by
    cases h : Token.leadingName? rest with
    | none => simp
    | some x => exact inner_of_leadingName? h
  sublist := .refl _
  seen_header := by
    cases Token.leadingName? rest <;> simp [TokenPlace.subroutine?, husing, Sighting.subroutine?]
  found_header := by
    cases Token.leadingName? rest <;> simp [Sighting.subroutine?]
  found_eq_of_tidy _ := by cases Token.leadingName? rest <;> rfl

/-- At a token outside every block that both readers read in the same way. -/
def common (hused : (Clause.read t rest).used = (Sighting.read t rest).2)
    (hfound : (Clause.read t rest).clause.bind Clause.sighting? = (Sighting.read t rest).1)
    (hblock : (Clause.read t rest).block = none)
    (hleaves : Token.leavesData false t rest = false) : Stretch none t rest where
  used := (Sighting.read t rest).2
  next := none
  seen := (Sighting.read t rest).1.toList
  found := (Sighting.read t rest).1.toList
  seen_eq := Sighting.ofTokens_cons t rest
  found_eq := by rw [Sighting.parsed_none_cons, hused, hfound, hblock]
  next_eq := hleaves
  used_inner := inner_of_read t rest
  sublist := .refl _
  seen_header := subroutine?_read t rest false
  found_header := rfl
  found_eq_of_tidy _ := by
    cases hs : (Sighting.read t rest).1 with
    | none => rfl
    | some s =>
      obtain ⟨c, -, hc⟩ := Option.bind_eq_some_iff.1 (hfound.trans hs)
      simp [isParsed_sighting? hc]

variable {w x : Token} {more : List Token}

/-- At `DEFINE` before a word that both readers pass over. -/
def word (next : Option DataBlock) (ht : t.kind = .keyword .define) (hw : w.IsInner)
    (hname : w.kind ≠ .identifier) (hseen : Sighting.ofHeader (w :: more) = (none, 0))
    (hread : Clause.readDefine t (w :: more) = { block := next, used := 1 })
    (hnext : next.isSome = (w.kind == .keyword .data)) : Stretch none t (w :: more) where
  used := 1
  next := next
  seen := []
  found := []
  seen_eq := by simp [Sighting.ofTokens_cons t, Sighting.read, ht, hseen, ofTokens_word hw hname]
  found_eq := by simp [Sighting.parsed_none_cons t, Clause.read, ht, hread]
  next_eq := by simp [Token.leavesData, ht, hnext]
  used_inner := by simp [hw]
  sublist := .refl []
  seen_header := by simp [← subroutine?_read t (w :: more), Sighting.read, ht, hseen]
  found_header := rfl
  found_eq_of_tidy _ := rfl

/-- At a function header outside every block. -/
def functionHeader (ht : t.kind = .keyword .define) (hw : w.kind = .keyword .function)
    (hx : x.kind = .identifier) : Stretch none t (w :: x :: more) where
  used := 2
  next := none
  seen := [.function x.name]
  found := []
  seen_eq := by
    simp [Sighting.ofTokens_cons t, Sighting.read, ht, Sighting.ofHeader, hw, hx,
      Token.isIdentifier]
  found_eq := by
    simp [Sighting.parsed_none_cons t, Clause.read, ht, Clause.readDefine, hw,
      Token.leadingName?, Token.isIdentifier, hx]
  next_eq := by simp [Token.leavesData, ht, hw]
  used_inner := by simp [Token.IsInner, hw, hx]
  sublist := List.nil_sublist _
  seen_header := by simp [TokenPlace.subroutine?, ht, hw, Sighting.subroutine?]
  found_header := rfl
  found_eq_of_tidy _ := rfl

/-- Without a name after its first word there is no header. -/
theorem ofHeader_of_leadingName?_eq_none (h : Token.leadingName? more = none) :
    Sighting.ofHeader (w :: more) = (none, 0) := by
  cases more with
  | nil => rfl
  | cons x more => simp_all [Sighting.ofHeader, Token.leadingName?, Option.filter]

theorem nonempty_define (ht : t.kind = .keyword .define) : Nonempty (Stretch none t rest) := by
  cases rest with
  | nil =>
    refine ⟨common ?_ ?_ ?_ ?_⟩ <;>
      simp [Clause.read, Clause.readDefine, Sighting.read, Sighting.ofHeader, ht,
        Token.leavesData]
  | cons w more =>
    by_cases hdata : w.kind = .keyword .data
    · refine ⟨word (some { define := t }) ht (by simp [Token.IsInner, hdata]) (by simp [hdata])
        ?_ (by simp [Clause.readDefine, hdata]) (by simp [hdata])⟩
      cases more <;> simp [Sighting.ofHeader, hdata]
    by_cases hheader : w.kind = .keyword .subroutine ∨ w.kind = .keyword .function
    -- without a name the parser passes over the word, at which the scanner then finds nothing
    · cases hname : Token.leadingName? more with
      | none =>
        refine ⟨word none ht ?_ ?_ (ofHeader_of_leadingName?_eq_none hname) ?_ ?_⟩ <;>
          rcases hheader with h | h <;> simp [Token.IsInner, Clause.readDefine, h, hname]
      | some x =>
        obtain ⟨hx, more, rfl⟩ := Sighting.exists_cons_of_leadingName? hname
        rcases hheader with hw | hw
        · refine ⟨common ?_ ?_ ?_ ?_⟩ <;>
            simp [Clause.read, Clause.readDefine, Sighting.read, Sighting.ofHeader, ht, hw,
              Token.leavesData, Token.isIdentifier, hx, hname, Clause.sighting?, Token.span]
        · exact ⟨functionHeader ht hw hx⟩
    · have hread : Clause.readDefine t (w :: more) = {} := by
        unfold Clause.readDefine
        split <;> simp_all
      have hseen : Sighting.ofHeader (w :: more) = (none, 0) := by
        unfold Sighting.ofHeader
        grind
      refine ⟨common ?_ ?_ ?_ ?_⟩ <;>
        simp [Clause.read, Sighting.read, ht, hread, hseen, Token.leavesData, hdata]

/-- What both readers do at a calling word outside every block, `skip` words before its target. -/
structure IsCall (t : Token) (rest : List Token) (action : CallTarget → Action) (skip : Nat) :
    Prop where
  parsed : Clause.read t rest = Clause.readCall action t rest skip
  scanned : Sighting.read t rest = Sighting.ofLiteral t rest skip
  literal : ∀ name span,
    Clause.sighting? (.statement ⟨action (.literal name), span⟩) = some (.call ⟨name, span.start⟩)
  ofVariable : ∀ text span, Clause.sighting? (.statement ⟨action (.variable text), span⟩) = none
  modifiers : ∀ u ∈ rest.take skip, u.IsInner ∧ u.kind ≠ .identifier
  leaves : Token.leavesData false t rest = false
  header : (TokenPlace.mk t rest false).subroutine? = none
  target : (TokenPlace.mk t rest false).target? =
    (rest.drop skip).head?.map fun x => ⟨x, rest.drop (skip + 1), false⟩

theorem isCall_callnat (ht : t.kind = .keyword .callnat) : IsCall t rest .callnat 0 where
  parsed := by simp [Clause.read, ht]
  scanned := by simp [Sighting.read, ht]
  literal _ _ := rfl
  ofVariable _ _ := rfl
  modifiers := by simp
  leaves := by simp [Token.leavesData, ht]
  header := by simp [TokenPlace.subroutine?, ht]
  target := by cases rest <;> simp [TokenPlace.target?, ht]

theorem isCall_fetch (ht : t.kind = .keyword .fetch) :
    IsCall t rest .fetch (Token.fetchModifiers rest) where
  parsed := by simp [Clause.read, ht]
  scanned := by simp [Sighting.read, ht]
  literal _ _ := rfl
  ofVariable _ _ := rfl
  modifiers := inner_of_fetchModifiers rest
  leaves := by simp [Token.leavesData, ht]
  header := by simp [TokenPlace.subroutine?, ht]
  target := by
    rw [← List.tail_drop]
    cases h : rest.drop (Token.fetchModifiers rest) <;> simp [TokenPlace.target?, ht, h]

namespace IsCall

variable {action : CallTarget → Action} {skip : Nat}

/-- A call without a target. -/
def withoutTarget (h : IsCall t rest action skip)
    (hparsed : Clause.readCall action t rest skip = { used := skip })
    (hscanned : Sighting.ofLiteral t rest skip = (none, 0)) : Stretch none t rest where
  used := skip
  next := none
  seen := []
  found := []
  seen_eq := by simp [Sighting.ofTokens_cons t, h.scanned, hscanned, ofTokens_drop h.modifiers]
  found_eq := by simp [Sighting.parsed_none_cons t, h.parsed, hparsed]
  next_eq := h.leaves
  used_inner u hu := (h.modifiers u hu).1
  sublist := .refl []
  seen_header := by simp [h.header]
  found_header := rfl
  found_eq_of_tidy _ := rfl

/-- A call of a variable, which the scanner does not pass over. -/
def ofName (h : IsCall t rest action skip) (hx : rest.drop skip = x :: more)
    (hname : x.kind = .identifier) : Stretch none t rest where
  used := skip + 1
  next := none
  seen := if x.callsFunction more then [.call ⟨x.name, x.start⟩] else []
  found := []
  seen_eq := by
    have hscanned : Sighting.ofLiteral t rest skip = (none, 0) := by
      simp [Sighting.ofLiteral, hx, Token.stringValue?, hname]
    rw [Sighting.ofTokens_cons, h.scanned, hscanned, ← List.drop_drop, hx]
    simp [ofTokens_drop h.modifiers, hx, ofTokens_identifier hname]
  found_eq := by
    simp [Sighting.parsed_none_cons t, h.parsed, Clause.readCall, hx, hname, h.ofVariable]
  next_eq := h.leaves
  used_inner u hu := by
    rw [List.take_add, hx] at hu
    rcases List.mem_append.1 hu with hu | hu
    · exact (h.modifiers u hu).1
    · obtain rfl : u = x := by simpa using hu
      simp [Token.IsInner, hname]
  sublist := List.nil_sublist _
  seen_header := by split <;> simp [h.header, Sighting.subroutine?]
  found_header := by split <;> simp [Sighting.subroutine?]
  found_eq_of_tidy htidy := by
    have hmore : rest.drop (skip + 1) = more := by
      rw [← List.drop_drop, hx, List.drop_one, List.tail_cons]
    have hcall := htidy.targets ⟨x, more, false⟩ (by simp [h.target, hx, hmore])
    have hcall : x.callsFunction more = false := by
      simpa [TokenPlace.callsFunction, Token.isIdentifier, hname] using hcall
    simp [hcall]

theorem nonempty (h : IsCall t rest action skip) : Nonempty (Stretch none t rest) := by
  cases hrest : rest.drop skip with
  | nil =>
    exact ⟨h.withoutTarget (by simp [Clause.readCall, hrest])
      (by simp [Sighting.ofLiteral, hrest])⟩
  | cons x more =>
    by_cases hname : x.kind = .identifier
    · exact ⟨h.ofName hrest hname⟩
    cases hvalue : x.stringValue? with
    | none =>
      refine ⟨h.withoutTarget ?_ (by simp [Sighting.ofLiteral, hrest, hvalue])⟩
      simp only [Clause.readCall, hrest, List.head?_cons, hvalue]
      split <;> simp_all
    | some value =>
      have hkind := kind_of_stringValue? hvalue
      refine ⟨common ?_ ?_ ?_ h.leaves⟩ <;>
        simp [h.parsed, h.scanned, Clause.readCall, Sighting.ofLiteral, hrest, hkind, hvalue,
          h.literal]
      rfl

end IsCall

/-- At an import outside every block, which only the scanner takes for one. The parser can find a
call of a function instead, at the same place. -/
def strayImport (ht : t.kind = .keyword .usingWord) (hx : x.kind = .identifier) :
    Stretch none t (x :: more) where
  used := 1
  next := none
  seen := [.call ⟨x.name, x.start⟩]
  found := if x.callsFunction more then [.call ⟨x.name, x.start⟩] else []
  seen_eq := by
    simp [Sighting.ofTokens_cons t, Sighting.read, ht, Token.leadingName?, Token.isIdentifier, hx,
      Option.filter]
  found_eq := by
    have hread : Clause.read t (x :: more) = {} := by simp [Clause.read, ht]
    rw [Sighting.parsed_none_cons, hread]
    exact parsed_identifier hx more
  next_eq := by simp [Token.leavesData, ht]
  used_inner := by simp [Token.IsInner, hx]
  sublist := by split <;> simp
  seen_header := by simp [TokenPlace.subroutine?, ht, Sighting.subroutine?]
  found_header := by split <;> simp [Sighting.subroutine?]
  found_eq_of_tidy htidy := by
    have := htidy.imports ht (by simp [Token.leadingName?, Token.isIdentifier, hx, Option.filter])
    simp at this

theorem nonempty_block (b : DataBlock) : Nonempty (Stretch (some b) t rest) := by
  by_cases hend : t.kind = .keyword .endDefine
  · exact ⟨atEnd b hend⟩
  by_cases husing : t.kind = .keyword .usingWord
  · exact ⟨atImport b husing⟩
  exact ⟨inBlock b hend husing⟩

/-- Most words are read in the same way by both readers. -/
theorem read_common (hdefine : t.kind ≠ .keyword .define) (hcallnat : t.kind ≠ .keyword .callnat)
    (hfetch : t.kind ≠ .keyword .fetch) (husing : t.kind ≠ .keyword .usingWord)
    (rest : List Token) :
    (Clause.read t rest).clause.bind Clause.sighting? = (Sighting.read t rest).1 ∧
      (Clause.read t rest).block = none ∧
      (Clause.read t rest).used = (Sighting.read t rest).2 := by
  by_cases hx : t.kind = .identifier
  · obtain ⟨hclause, hblock, hused⟩ := read_identifier hx rest
    rw [hclause, hblock, hused]
    cases h : t.callsFunction rest <;> simp [Sighting.read, hx, h]
  · unfold Clause.read Sighting.read
    split
    · contradiction
    · rename_i hperform
      rw [hperform]
      cases Token.leadingName? rest <;> exact ⟨rfl, rfl, rfl⟩
    · contradiction
    · contradiction
    · rename_i hinclude
      rw [hinclude]
      cases Token.leadingName? rest <;> exact ⟨rfl, rfl, rfl⟩
    · contradiction
    · split <;> simp_all

/-- From every token that both readers stand at there is a stretch. -/
theorem nonempty_stretch (block : Option DataBlock) (t : Token) (rest : List Token) :
    Nonempty (Stretch block t rest) := by
  cases block with
  | some b => exact nonempty_block b
  | none =>
    by_cases hdefine : t.kind = .keyword .define
    · exact nonempty_define hdefine
    by_cases hcallnat : t.kind = .keyword .callnat
    · exact (isCall_callnat hcallnat).nonempty
    by_cases hfetch : t.kind = .keyword .fetch
    · exact (isCall_fetch hfetch).nonempty
    by_cases husing : t.kind = .keyword .usingWord
    · cases hname : Token.leadingName? rest with
      | none => refine ⟨common ?_ ?_ ?_ ?_⟩ <;>
          simp [Clause.read, Sighting.read, husing, hname, Token.leavesData]
      | some x =>
        obtain ⟨hx, more, rfl⟩ := Sighting.exists_cons_of_leadingName? hname
        exact ⟨strayImport husing hx⟩
    have hleaves : Token.leavesData false t rest = false := by
      unfold Token.leavesData
      split <;> simp_all
    obtain ⟨hclause, hblock, hused⟩ := read_common hdefine hcallnat hfetch husing rest
    exact ⟨common hused hclause hblock hleaves⟩

end Stretch

end Steplib
