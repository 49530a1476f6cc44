import Steplib.Module.Parse

/-!
# Sightings

What the scanner notices: the names in headers are in upper case. The references and subroutine
headers among the clauses of a source are read as sightings too, so that they can be compared with
what the scanner notices. For these the parser's state matters only through whether it is inside a
`DEFINE DATA` block.

## Main definitions

* `Sighting.header?`: the name in a header.
* `Clause.sighting?`: what a clause is for the scanner.
* `Sighting.parsed`: what the parser finds in a list of tokens.

## Main results

* `Scan.upper_header`: the header name of a scan is in upper case.
* `Sighting.parsed_congr`: what the parser finds does not depend on lines, scopes and groups.
* `Sighting.parsed_none_cons`, `Sighting.parsed_block_end`, `Sighting.parsed_block_using`,
  `Sighting.parsed_block_quiet`: one step of the parser outside and inside a block.
-/

namespace Steplib

/-! ### Names in headers -/

namespace Sighting

/-- The name in a header. -/
def header? : Sighting → Option String
  | subroutine name | function name => some name
  | _ => none

theorem upper_header?_of_read {t : Token} {rest : List Token} {s : Sighting} {name : String}
    (hs : (read t rest).1 = some s) (hn : s.header? = some name) : Ascii.upper name = name := by
  unfold read ofHeader ofLiteral at hs
  grind [header?, Token.name, Ascii.upper_upper]

/-- Headers are noticed in upper case. -/
theorem upper_header? {tokens : List Token} {s : Sighting} {name : String}
    (hs : s ∈ ofTokens tokens) (hn : s.header? = some name) : Ascii.upper name = name := by
  fun_induction ofTokens tokens with
  | case1 => simp at hs
  | case2 t rest found used hread ih =>
    rcases List.mem_append.1 hs with hs | hs
    · exact upper_header?_of_read (by rw [hread]; simpa using hs) hn
    · exact ih hs

end Sighting

/-- The header name of a scan is in upper case. -/
theorem Scan.upper_header {type : ObjectType} {source name : String}
    (h : (Scan.ofSource type source).header = some name) : Ascii.upper name = name := by
  simp only [ofSource, ofTokens] at h
  have hmem : ∃ s ∈ Sighting.ofTokens (tokenize source), s.header? = some name := by
    split at h
    · obtain ⟨s, hs, hn⟩ := List.mem_filterMap.1 (List.mem_of_head? h)
      refine ⟨s, hs, ?_⟩
      cases s <;> simp_all [Sighting.subroutine?, Sighting.header?]
    · obtain ⟨s, hs, hn⟩ := List.mem_filterMap.1 (List.mem_of_head? h)
      refine ⟨s, hs, ?_⟩
      cases s <;> simp_all [Sighting.function?, Sighting.header?]
    · simp at h
  obtain ⟨s, hs, hn⟩ := hmem
  exact Sighting.upper_header? hs hn

/-! ### The clauses of a source as sightings -/

/-- What the clause is for the scanner: a reference, a call of a subroutine or the header of one. -/
def Clause.sighting? : Clause → Option Sighting
  | statement s =>
    match s.action with
    | .defineSubroutine name => some (.subroutine name)
    | action => action.reference?.map fun name => .call ⟨name, s.span.start⟩
  | perform name span => some (.perform ⟨name, span.start⟩)
  | importArea u => some (.call ⟨u.name, u.span.start⟩)
  | declare _ | problem .. => none

/-- What the parser finds in a list of tokens, as sightings. -/
def Sighting.parsed (block : Option DataBlock) (previous : Option Nat) (tokens : List Token) :
    List Sighting :=
  (Clause.ofTokens block previous tokens).filterMap Clause.sighting?

namespace Sighting

variable {block : Option DataBlock} {previous : Option Nat} {t : Token} {rest : List Token}

/-- The sighting is no header of a function, which the parser passes over. -/
def isParsed (s : Sighting) : Bool :=
  s.function?.isNone

theorem ofTokens_cons (t : Token) (rest : List Token) :
    ofTokens (t :: rest) = (read t rest).1.toList ++ ofTokens (rest.drop (read t rest).2) := by
  rw [ofTokens]

theorem parsed_nil (block : Option DataBlock) (previous : Option Nat) :
    parsed block previous [] = [] := by
  cases block <;> simp [parsed, Clause.ofTokens, DataBlock.atEnd, Clause.sighting?,
    Action.reference?]

theorem parsed_cons (block : Option DataBlock) (previous : Option Nat) (t : Token)
    (rest : List Token) :
    parsed block previous (t :: rest) =
      ((Clause.step block previous t rest).clause.bind Clause.sighting?).toList ++
        parsed (Clause.step block previous t rest).block
          (some ((rest.take (Clause.step block previous t rest).used).getLast?.getD t).line)
          (rest.drop (Clause.step block previous t rest).used) := by
  rw [parsed, Clause.ofTokens, List.filterMap_append]
  congr 1
  cases (Clause.step block previous t rest).clause with
  | none => rfl
  | some c => cases h : c.sighting? <;> simp [h]

/-- Inside a block the parser finds something only at the word `USING`, and it only leaves the block
at its end. It passes over the name of a declaration. -/
theorem readBlock_quiet (b : DataBlock) (startsLine : Bool) (t : Token) (rest : List Token)
    (hend : t.kind ≠ .keyword .endDefine) (husing : t.kind ≠ .keyword .usingWord) :
    (b.read startsLine t rest).clause.bind Clause.sighting? = none ∧
      (b.read startsLine t rest).block.isSome ∧
      ((b.read startsLine t rest).used = 0 ∨ (b.read startsLine t rest).used = 1 ∧
        ∃ name, Token.leadingName? rest = some name) := by
  have hdeclare (number name : Token) :
      (b.declare number name).clause.bind Clause.sighting? = none ∧
        (b.declare number name).block.isSome ∧ (b.declare number name).used = 1 := by
    unfold DataBlock.declare
    dsimp only
    split <;> exact ⟨rfl, rfl, rfl⟩
  unfold DataBlock.read
  split
  · contradiction
  · exact ⟨rfl, rfl, .inl rfl⟩
  · contradiction
  · split
    · rename_i name hname
      obtain ⟨hclause, hblock, hused⟩ := hdeclare t name
      exact ⟨hclause, hblock, .inr ⟨hused, name, hname⟩⟩
    · exact ⟨rfl, rfl, .inl rfl⟩
  · exact ⟨rfl, rfl, .inl rfl⟩

theorem exists_cons_of_leadingName? {name : Token} (h : Token.leadingName? rest = some name) :
    name.kind = .identifier ∧ ∃ more, rest = name :: more := by
  cases rest with
  | nil => simp [Token.leadingName?] at h
  | cons t rest =>
    obtain ⟨ht, hname⟩ := Option.filter_eq_some_iff.1 h
    obtain rfl := Option.some.inj ht
    exact ⟨by simpa [Token.isIdentifier] using hname, rest, rfl⟩

/-- A quiet token inside a block is passed over, if the parser's state does not matter after it. -/
private theorem parsed_block_of_congr (b b' : DataBlock) (previous : Option Nat)
    (hend : t.kind ≠ .keyword .endDefine) (husing : t.kind ≠ .keyword .usingWord)
    (hcongr : ∀ (b b' : DataBlock) (previous previous' : Option Nat) (k : Nat),
      parsed (some b) previous (rest.drop k) = parsed (some b') previous' (rest.drop k)) :
    parsed (some b) previous (t :: rest) = parsed (some b') none rest := by
  rw [parsed_cons]
  simp only [Clause.step]
  obtain ⟨hclause, hblock, hused⟩ :=
    readBlock_quiet b (previous != some t.line) t rest hend husing
  obtain ⟨b₁, hb₁⟩ := Option.isSome_iff_exists.1 hblock
  rw [hclause, hb₁]
  rcases hused with hused | ⟨hused, name, hname⟩
  · rw [hused]
    exact hcongr b₁ b' _ none 0
  · obtain ⟨hkind, more, rfl⟩ := exists_cons_of_leadingName? hname
    have hpass : b'.read (none != some name.line) name more = { block := some b' } := by
      simp [DataBlock.read, hkind]
    rw [hused, parsed_cons (some b') none name more]
    simp only [Clause.step, hpass]
    exact hcongr b₁ b' _ _ 1

/-- What the parser finds depends on its state only through whether it is inside a block: lines,
scopes and groups matter for declarations alone. -/
theorem parsed_congr {block block' : Option DataBlock} (h : block.isSome = block'.isSome)
    (previous previous' : Option Nat) :
    (tokens : List Token) → parsed block previous tokens = parsed block' previous' tokens
  | [] => by rw [parsed_nil, parsed_nil]
  | t :: rest => by
    match block, block', h with
    | none, none, _ =>
      rw [parsed_cons, parsed_cons]
      exact congrArg _ (parsed_congr rfl ..)
    | some b, some b', _ =>
      have hcongr (b b' : DataBlock) (previous previous' : Option Nat) (k : Nat) :
          parsed (some b) previous (rest.drop k) = parsed (some b') previous' (rest.drop k) :=
        parsed_congr (by rfl) ..
      by_cases hend : t.kind = .keyword .endDefine
      · rw [parsed_cons, parsed_cons]
        simp [Clause.step, DataBlock.read, hend, Clause.sighting?, Action.reference?]
      by_cases husing : t.kind = .keyword .usingWord
      · rw [parsed_cons, parsed_cons]
        simp only [Clause.step, DataBlock.read, husing]
        cases Token.leadingName? rest with
        | none => exact congrArg _ (hcongr b b' _ _ 0)
        | some name => exact congrArg _ (hcongr b b' _ _ 1)
      rw [parsed_block_of_congr b b' previous hend husing hcongr,
        parsed_block_of_congr b' b' previous' hend husing hcongr]
termination_by tokens => tokens.length
decreasing_by all_goals simp only [List.length_drop, List.length_cons]; omega

/-- The parser's step outside every block. -/
theorem parsed_none_cons (t : Token) (rest : List Token) :
    parsed none none (t :: rest) =
      ((Clause.read t rest).clause.bind Clause.sighting?).toList ++
        parsed (Clause.read t rest).block none (rest.drop (Clause.read t rest).used) := by
  rw [parsed_cons]
  exact congrArg _ (parsed_congr rfl ..)

theorem parsed_block_end (b : DataBlock) (ht : t.kind = .keyword .endDefine) :
    parsed (some b) none (t :: rest) = parsed none none rest := by
  rw [parsed_cons]
  simp only [Clause.step, DataBlock.read, ht]
  exact parsed_congr rfl ..

theorem parsed_block_using (b : DataBlock) (ht : t.kind = .keyword .usingWord) :
    parsed (some b) none (t :: rest) =
      ((Token.leadingName? rest).map fun x => call ⟨x.name, x.start⟩).toList ++
        parsed (some b) none (rest.drop (Token.leadingName? rest).toList.length) := by
  rw [parsed_cons]
  simp only [Clause.step, DataBlock.read, ht]
  cases Token.leadingName? rest with
  | none => exact congrArg _ (parsed_congr rfl ..)
  | some name => exact congrArg _ (parsed_congr rfl ..)

/-- A token without a meaning inside a block is passed over. -/
theorem parsed_block_quiet (b : DataBlock) (hend : t.kind ≠ .keyword .endDefine)
    (husing : t.kind ≠ .keyword .usingWord) :
    parsed (some b) none (t :: rest) = parsed (some b) none rest :=
  parsed_block_of_congr b b none hend husing fun _ _ _ _ _ =>
    parsed_congr (by rfl) ..

end Sighting

end Steplib
