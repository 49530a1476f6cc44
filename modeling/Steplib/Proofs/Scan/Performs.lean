import Steplib.Proofs.Module.Occurrences
import Steplib.Proofs.Scan.Completeness

/-!
# Calls of subroutines

A `PERFORM` may stand before or after the header of the subroutine that it calls, or far from it.
Both readers find every call that they do not pass over inside a data block, and each of them
decides at its end whether the call leaves the source: the scanner by all headers of the source, the
parser by those outside data blocks.

## Main definitions

* `TokenPlace.perform?`: the call of a subroutine at a place of a source.

## Main results

* `Sighting.performs_ofTokens`, `Sighting.performs_parsed`: the calls that the scanner and the
  parser find.
* `Scan.perform_mem_candidates_iff`: the calls that the scanner lists.
* `Module.external_iff`: the calls that a module marks as external.
-/

namespace Steplib

/-! ### Calls at places -/

namespace TokenPlace

variable {p : TokenPlace}

/-- The call of a subroutine at the place: the word `PERFORM` before a name. -/
def perform? (p : TokenPlace) : Option Candidate :=
  match p.token.kind with
  | .keyword .perform => (Token.leadingName? p.rest).map fun x => ⟨x.name, p.token.start⟩
  | _ => none

theorem perform?_of_ne (h : p.token.kind ≠ .keyword .perform) : p.perform? = none := by
  unfold perform?
  split
  · contradiction
  · rfl

theorem perform?_of_inner (h : p.token.IsInner) : p.perform? = none :=
  perform?_of_ne fun hperform => by simp [Token.IsInner, hperform] at h

/-- A call stands at the word `PERFORM`. -/
theorem kind_start_of_perform? {a : Candidate} (h : p.perform? = some a) :
    p.token.kind = .keyword .perform ∧ p.token.start = a.position := by
  unfold perform? at h
  split at h
  · rename_i hkind
    obtain ⟨x, -, rfl⟩ := Option.map_eq_some_iff.1 h
    exact ⟨hkind, rfl⟩
  · simp at h

end TokenPlace

namespace Token

variable {t : Token} {rest : List Token}

theorem token_mem_of_mem_places {p : TokenPlace} {inData : Bool} {tokens : List Token}
    (h : p ∈ places inData tokens) : p.token ∈ tokens := by
  induction tokens generalizing inData with
  | nil => simp [places] at h
  | cons t rest ih =>
    rcases List.mem_cons.1 h with rfl | h
    · exact List.mem_cons_self
    · exact List.mem_cons_of_mem t (ih h)

/-- What is looked for at the places of a source, when it is at none of the words that a statement
uses. -/
theorem filterMap_places {α : Type} {f : TokenPlace → Option α}
    (hf : ∀ p : TokenPlace, p.token.IsInner → f p = none) (keep : TokenPlace → Bool)
    (inData : Bool) {k : Nat} (hk : ∀ u ∈ rest.take k, u.IsInner) :
    ((places inData (t :: rest)).filter keep).filterMap f =
      ([⟨t, rest, inData⟩].filter keep).filterMap f ++
        ((places (leavesData inData t rest) (rest.drop k)).filter keep).filterMap f := by
  obtain ⟨inner, heq, hinner⟩ := places_drop (leavesData inData t rest) hk
  have hnone : (inner.filter keep).filterMap f = [] :=
    List.filterMap_eq_nil_iff.2 fun p hp => hf p (hinner p (List.mem_of_mem_filter hp))
  rw [places, heq, ← List.singleton_append, List.filter_append, List.filter_append,
    List.filterMap_append, List.filterMap_append, hnone, List.nil_append]

end Token

/-! ### What the readers find -/

namespace Sighting

variable {t : Token} {rest : List Token}

theorem perform?_ofLiteral {s : Sighting} {skip : Nat}
    (h : (ofLiteral t rest skip).1 = some s) : s.perform? = none := by
  unfold ofLiteral at h
  split at h
  · cases h
    rfl
  · simp at h

theorem perform?_ofHeader {s : Sighting} (h : (ofHeader rest).1 = some s) :
    s.perform? = none := by
  unfold ofHeader at h
  grind [perform?]

theorem performs_read (t : Token) (rest : List Token) (inData : Bool) :
    (read t rest).1.toList.filterMap perform? =
      (TokenPlace.mk t rest inData).perform?.toList := by
  by_cases hperform : t.kind = .keyword .perform
  · simp only [read, TokenPlace.perform?, hperform]
    cases Token.leadingName? rest <;> rfl
  · have hnone : (TokenPlace.mk t rest inData).perform? = none := TokenPlace.perform?_of_ne hperform
    rw [hnone]
    fun_cases read t rest with
    | case1 => simpa using fun s hs => perform?_ofHeader hs
    | case6 | case7 => simpa using fun s hs => perform?_ofLiteral hs
    | case4 | case5 => contradiction
    | _ => rfl

/-- The scanner finds every call of a subroutine. -/
theorem performs_ofTokens (inData : Bool) : (tokens : List Token) →
    (ofTokens tokens).filterMap perform? =
      (Token.places inData tokens).filterMap TokenPlace.perform?
  | [] => by simp [ofTokens, Token.places]
  | t :: rest => by
    have hplaces := Token.filterMap_places (t := t) (fun _ => TokenPlace.perform?_of_inner)
      (fun _ => true) inData (Stretch.inner_of_read t rest)
    rw [List.filter_true, List.filter_true, List.filter_true] at hplaces
    rw [ofTokens_cons, List.filterMap_append, performs_read t rest inData, hplaces,
      performs_ofTokens (Token.leavesData inData t rest) (rest.drop (read t rest).2)]
    rfl
termination_by tokens => tokens.length
decreasing_by simp only [List.length_drop, List.length_cons]; omega

theorem parsed_perform (ht : t.kind = .keyword .perform) (rest : List Token) :
    parsed none none (t :: rest) =
      (TokenPlace.mk t rest false).perform?.toList.map .perform ++
        parsed none none (rest.drop (Token.leadingName? rest).toList.length) := by
  rw [parsed_none_cons]
  simp only [Clause.read, TokenPlace.perform?, ht]
  cases Token.leadingName? rest <;> rfl

/-- At another word than `PERFORM` neither reader finds a call of a subroutine. -/
theorem performs_found_eq_nil {block : Option DataBlock} (s : Stretch block t rest)
    (ht : t.kind ≠ .keyword .perform) : s.found.filterMap perform? = [] := by
  have hplaces := Token.filterMap_places (t := t) (fun _ => TokenPlace.perform?_of_inner)
    (fun _ => true) block.isSome s.used_inner
  rw [List.filter_true, List.filter_true, List.filter_true] at hplaces
  have hnone : (TokenPlace.mk t rest block.isSome).perform? = none := TokenPlace.perform?_of_ne ht
  have hseen : s.seen.filterMap perform? = [] := by
    have heq := congrArg (List.filterMap perform?) s.seen_eq
    rw [performs_ofTokens block.isSome, List.filterMap_append,
      performs_ofTokens (Token.leavesData block.isSome t rest)] at heq
    rw [hplaces, List.filterMap_cons_none hnone, List.filterMap_nil] at heq
    exact List.self_eq_append_left.1 heq
  exact List.eq_nil_of_sublist_nil (hseen ▸ s.sublist.filterMap perform?)

/-- The parser finds the calls of subroutines outside data blocks. -/
theorem performs_parsed (block : Option DataBlock) : (tokens : List Token) →
    (parsed block none tokens).filterMap perform? =
      ((Token.places block.isSome tokens).filter (!·.inData)).filterMap TokenPlace.perform?
  | [] => by simp [parsed_nil, Token.places]
  | t :: rest => by
    by_cases ht : t.kind = .keyword .perform
    · have hleaves : Token.leavesData block.isSome t rest = block.isSome :=
        Token.leavesData_of_ne (by simp [ht]) (by simp [ht]) rest
      cases block with
      | some b =>
        rw [parsed_block_quiet b (by simp [ht]) (by simp [ht]), performs_parsed (some b) rest,
          Token.places, hleaves]
        rfl
      | none =>
        have hused : ∀ u ∈ rest.take (Token.leadingName? rest).toList.length, u.IsInner := by
          cases hname : Token.leadingName? rest with
          | none => simp
          | some name => exact Stretch.inner_of_leadingName? hname
        rw [Token.filterMap_places (fun _ => TokenPlace.perform?_of_inner) _ _ hused, hleaves,
          parsed_perform ht, List.filterMap_append,
          performs_parsed none (rest.drop (Token.leadingName? rest).toList.length)]
        congr 1
        cases h : (TokenPlace.mk t rest false).perform? <;> simp [h, perform?]
    · obtain ⟨s⟩ := Stretch.nonempty_stretch block t rest
      have hnone : (TokenPlace.mk t rest block.isSome).perform? = none :=
        TokenPlace.perform?_of_ne ht
      rw [s.found_eq, List.filterMap_append, performs_found_eq_nil s ht, List.nil_append,
        performs_parsed s.next (rest.drop s.used),
        Token.filterMap_places (fun _ => TokenPlace.perform?_of_inner) _ _ s.used_inner, s.next_eq]
      have hhere : ([TokenPlace.mk t rest block.isSome].filter (!·.inData)).filterMap
          TokenPlace.perform? = [] :=
        List.filterMap_eq_nil_iff.2 fun p hp => by
          rw [List.mem_singleton.1 (List.mem_of_mem_filter hp), hnone]
      rw [hhere, List.nil_append]
termination_by tokens => tokens.length
decreasing_by all_goals simp only [List.length_drop, List.length_cons]; omega

/-! ### Which calls leave the source -/

theorem call?_eq_some {s : Sighting} {a : Candidate} : s.call? = some a ↔ s = .call a := by
  cases s <;> simp [call?]

theorem perform?_eq_some {s : Sighting} {a : Candidate} :
    s.perform? = some a ↔ s = .perform a := by
  cases s <;> simp [perform?]

theorem call_mem_iff {ss : List Sighting} {a : Candidate} :
    .call a ∈ ss ↔ a ∈ ss.filterMap call? := by
  simp only [List.mem_filterMap, call?_eq_some, exists_eq_right]

theorem perform_mem_iff {ss : List Sighting} {a : Candidate} :
    .perform a ∈ ss ↔ a ∈ ss.filterMap perform? := by
  simp only [List.mem_filterMap, perform?_eq_some, exists_eq_right]

/-- Other references than calls of subroutines stand at other words than `PERFORM`. -/
theorem position_of_call {tokens : List Token} {a : Candidate} (h : .call a ∈ ofTokens tokens) :
    ∃ t ∈ tokens, t.kind ≠ .keyword .perform ∧ t.start = a.position := by
  fun_induction ofTokens tokens with
  | case1 => simp at h
  | case2 t rest found used hread ih =>
    rcases List.mem_append.1 h with h | h
    · have hfound : (read t rest).1 = some (.call a) := by
        rw [hread]
        exact Option.mem_toList.1 h
      unfold read ofHeader ofLiteral at hfound
      grind [Sighting.exists_cons_of_leadingName?]
    · obtain ⟨u, hu, hplace⟩ := ih h
      exact ⟨u, List.mem_cons_of_mem t (List.mem_of_mem_drop hu), hplace⟩

end Sighting

/-- A token of a text is known by its place. -/
theorem Token.eq_of_start {source : String} {t u : Token} (ht : t ∈ tokenize source)
    (hu : u ∈ tokenize source) (h : t.start = u.start) : t = u :=
  List.inj_on_of_nodup_map (nodup_start_tokenize source) ht hu h

/-- No other reference stands where a subroutine is called. -/
theorem Sighting.call_notMem {source : String} {a : Candidate}
    (ha : a ∈ (Token.places false (tokenize source)).filterMap TokenPlace.perform?) :
    .call a ∉ ofTokens (tokenize source) := fun hcall => by
  obtain ⟨t, ht, hkind, hstart⟩ := position_of_call hcall
  obtain ⟨p, hp, hperform⟩ := List.mem_filterMap.1 ha
  obtain ⟨hpkind, hpstart⟩ := TokenPlace.kind_start_of_perform? hperform
  obtain rfl :=
    Token.eq_of_start ht (Token.token_mem_of_mem_places hp) (hstart.trans hpstart.symm)
  exact hkind hpkind

namespace Scan

variable {type : ObjectType} {source : String} {a : Candidate}

/-- The scanner lists a call of a subroutine exactly when the source has no header for it. -/
theorem perform_mem_candidates_iff
    (ha : a ∈ (Token.places false (tokenize source)).filterMap TokenPlace.perform?) :
    a ∈ (ofSource type source).candidates ↔
      ∀ q ∈ Token.places false (tokenize source), q.subroutine? ≠ some a.name := by
  have hcall := Sighting.call_notMem ha
  have hperform : .perform a ∈ Sighting.ofTokens (tokenize source) := by
    rwa [Sighting.perform_mem_iff, Sighting.performs_ofTokens false]
  have hheaders := (abreast_ofTokens none (tokenize source)).seen_headers
  rw [ofSource, mem_candidates, hheaders]
  simp only [hcall, hperform, true_and, false_or, List.mem_filterMap, not_exists, not_and]
  rfl

end Scan

namespace Clause

/-- A statement that is read as such is no call of a subroutine. -/
theorem action_ne_perform {block : Option DataBlock} {previous : Option Nat}
    {tokens : List Token} {s : Statement} (h : .statement s ∈ ofTokens block previous tokens)
    (name : String) (external : Bool) : s.action ≠ .perform name external := by
  fun_induction ofTokens block previous tokens with
  | case1 block previous =>
    cases block with
    | none => simp at h
    | some b =>
      simp [DataBlock.atEnd] at h
      simp [h]
  | case2 block previous t rest result last ih =>
    rcases List.mem_append.1 h with h | h
    · have hc : (step block previous t rest).clause = some (.statement s) := Option.mem_toList.1 h
      cases block with
      | some b =>
        rcases readBlock_cases hc with h | ⟨_, -, -, h⟩ | ⟨_, h⟩ | ⟨_, _, _, h⟩
        · simp [Clause.statement.inj h]
        all_goals simp at h
      | none =>
        change (read t rest).clause = _ at hc
        unfold read readDefine readCall at hc
        grind
    · exact ih h

end Clause

namespace Module

variable {i : Identity} {tokens : List Token}

theorem mem_tree_perform_iff {name : String} {external : Bool} {span : Span} :
    (⟨.perform name external, span⟩ : Statement) ∈ (ofTokens i tokens).tree ↔
      .perform name span ∈ Clause.ofSource tokens ∧
        external = !((Clause.ofSource tokens).filterMap Clause.subroutine?).contains name := by
  simp only [ofTokens, ofClauses]
  generalize (Clause.ofSource tokens).filterMap Clause.subroutine? = defined
  rw [List.mem_filterMap]
  constructor
  · rintro ⟨c, hc, hs⟩
    cases c with
    | statement s =>
      obtain rfl := Option.some.inj hs
      exact absurd rfl (Clause.action_ne_perform hc name external)
    | perform name' span' =>
      simp only [Clause.statement?, Option.some.injEq, Statement.mk.injEq,
        Action.perform.injEq] at hs
      obtain ⟨⟨rfl, rfl⟩, rfl⟩ := hs
      exact ⟨hc, rfl⟩
    | _ => simp [Clause.statement?] at hs
  · rintro ⟨hc, rfl⟩
    exact ⟨_, hc, rfl⟩

/-- A module has the calls of subroutines that stand outside data blocks. -/
theorem perform_mem_tree_iff {a : Candidate} :
    (∃ s ∈ (ofTokens i tokens).tree, (∃ external, s.action = .perform a.name external) ∧
        s.span.start = a.position) ↔
      a ∈ ((Token.places false tokens).filter (!·.inData)).filterMap TokenPlace.perform? := by
  have hperforms := Sighting.performs_parsed none tokens
  rw [Option.isSome_none] at hperforms
  rw [← hperforms, ← Sighting.perform_mem_iff, Sighting.parsed, List.mem_filterMap]
  simp only [Clause.sighting?_eq_perform]
  constructor
  · rintro ⟨⟨action, span⟩, hs, ⟨external, rfl⟩, hstart⟩
    exact ⟨_, (mem_tree_perform_iff.1 hs).1, a.name, span, rfl, by rw [hstart]⟩
  · rintro ⟨c, hc, name, span, rfl, rfl⟩
    exact ⟨_, mem_tree_perform_iff.2 ⟨hc, rfl⟩, ⟨_, rfl⟩, rfl⟩

/-- A module marks a call of a subroutine as external exactly when the source has no header for it
outside data blocks. -/
theorem external_iff {s : Statement} {name : String} {external : Bool}
    (hs : s ∈ (ofTokens i tokens).tree) (haction : s.action = .perform name external) :
    external = true ↔
      ∀ q ∈ Token.places false tokens, q.inData = false → q.subroutine? ≠ some name := by
  obtain ⟨action, span⟩ := s
  obtain rfl : action = _ := haction
  have hheaders := (abreast_ofTokens none tokens).found_headers
  rw [Option.isSome_none] at hheaders
  rw [(mem_tree_perform_iff.1 hs).2, Clause.subroutines_eq, hheaders]
  simp

end Module

end Steplib
