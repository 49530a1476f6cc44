import Mathlib.Data.List.Basic
import Steplib.Proofs.Scan.Stretch

/-!
# What the scanner finds and what the parser finds

The scanner is a quick reader that only looks for references; the parser makes a module. Since their
walks over the tokens of a source meet again after every stretch, the references of the module are
found by the scanner, and on tidy sources both find the same ones.

## Main definitions

* `Abreast`: how the findings of the two readers compare on a list of tokens.
* `Module.candidates`: the references of a module, with the positions where they start.
* `TokenPlace.OnlyInData`: a subroutine is defined inside data blocks only.

## Main results

* `abreast_ofTokens`: the comparison holds on every list of tokens.
* `Module.scan_complete`: every reference of a module is found by the scanner, but for calls of
  subroutines that are defined inside data blocks only; on tidy sources it finds nothing else.
-/

namespace Steplib

/-- How what the parser finds compares with what the scanner finds. -/
structure Abreast (block : Option DataBlock) (tokens : List Token) : Prop where
  sublist : (Sighting.parsed block none tokens).Sublist (Sighting.ofTokens tokens)
  seen_headers : (Sighting.ofTokens tokens).filterMap Sighting.subroutine? =
    (Token.places block.isSome tokens).filterMap TokenPlace.subroutine?
  found_headers : (Sighting.parsed block none tokens).filterMap Sighting.subroutine? =
    ((Token.places block.isSome tokens).filter (!·.inData)).filterMap TokenPlace.subroutine?
  eq_of_tidy : (∀ p ∈ Token.places block.isSome tokens, p.Tidy) →
    Sighting.parsed block none tokens = (Sighting.ofTokens tokens).filter Sighting.isParsed

/-- The places of words inside statements and declarations are no headers. -/
theorem TokenPlace.subroutine?_of_inner {p : TokenPlace} (h : p.token.IsInner) :
    p.subroutine? = none :=
  subroutine?_of_ne (fun hdefine => by simp [Token.IsInner, hdefine] at h) p.rest p.inData

/-- Words inside statements and declarations have nothing to do with the limits of data blocks. -/
theorem Token.places_drop {rest : List Token} {k : Nat} (inData : Bool)
    (hk : ∀ u ∈ rest.take k, u.IsInner) :
    ∃ inner, Token.places inData rest = inner ++ Token.places inData (rest.drop k) ∧
      ∀ p ∈ inner, p.token.IsInner := by
  induction rest generalizing k with
  | nil => exact ⟨[], by simp, by simp⟩
  | cons u rest ih =>
    cases k with
    | zero => exact ⟨[], rfl, by simp⟩
    | succ k =>
      obtain ⟨hu, hrest⟩ := List.forall_mem_cons.1 hk
      obtain ⟨inner, heq, hinner⟩ := ih hrest
      have hdefine : u.kind ≠ .keyword .define := fun h => by simp [IsInner, h] at hu
      have hend : u.kind ≠ .keyword .endDefine := fun h => by simp [IsInner, h] at hu
      refine ⟨⟨u, rest, inData⟩ :: inner, ?_, List.forall_mem_cons.2 ⟨hu, hinner⟩⟩
      rw [places, leavesData_of_ne hdefine hend, heq, List.drop_succ_cons, List.cons_append]

/-- The comparison extends over a stretch. -/
theorem Stretch.abreast {block : Option DataBlock} {t : Token} {rest : List Token}
    (s : Stretch block t rest) (h : Abreast s.next (rest.drop s.used)) :
    Abreast block (t :: rest) := by
  obtain ⟨inner, hinner, hwords⟩ := Token.places_drop s.next.isSome s.used_inner
  have hheader : ∀ p ∈ inner, p.subroutine? = none := fun p hp =>
    TokenPlace.subroutine?_of_inner (hwords p hp)
  have hnone (q : TokenPlace → Bool) : (inner.filter q).filterMap TokenPlace.subroutine? = [] :=
    List.filterMap_eq_nil_iff.2 fun p hp => hheader p (List.mem_of_mem_filter hp)
  have hplaces : Token.places block.isSome (t :: rest) =
      [⟨t, rest, block.isSome⟩] ++ inner ++ Token.places s.next.isSome (rest.drop s.used) := by
    rw [Token.places, s.next_eq, hinner]
    rfl
  have hfirst : [TokenPlace.mk t rest block.isSome].filterMap TokenPlace.subroutine? =
      s.seen.filterMap Sighting.subroutine? := by
    rw [s.seen_header]
    cases h : (TokenPlace.mk t rest block.isSome).subroutine? <;> simp [h]
  refine ⟨?_, ?_, ?_, fun htidy => ?_⟩
  · rw [s.seen_eq, s.found_eq]
    exact s.sublist.append h.sublist
  · rw [s.seen_eq, hplaces, List.filterMap_append, List.filterMap_append, List.filterMap_append,
      hfirst, h.seen_headers, List.filterMap_eq_nil_iff.2 hheader, List.append_nil]
  · rw [s.found_eq, hplaces, List.filter_append, List.filter_append, List.filterMap_append,
      List.filterMap_append, List.filterMap_append, hnone, List.append_nil, h.found_headers,
      s.found_header, ← hfirst]
    cases block <;> rfl
  · rw [hplaces] at htidy
    have hfound := s.found_eq_of_tidy (htidy _ (by simp))
    have hnext := h.eq_of_tidy fun p hp => htidy p (List.mem_append_right _ hp)
    rw [s.seen_eq, s.found_eq, List.filter_append, ← hfound, ← hnext]

/-- On every list of tokens what the two readers find compares in the same way. -/
theorem abreast_ofTokens (block : Option DataBlock) : (tokens : List Token) → Abreast block tokens
  | [] => by
    have hnil : Sighting.parsed block none [] = [] := Sighting.parsed_nil block none
    refine ⟨?_, ?_, ?_, fun _ => ?_⟩ <;> simp [hnil, Sighting.ofTokens, Token.places]
  | t :: rest => by
    obtain ⟨s⟩ := Stretch.nonempty_stretch block t rest
    exact s.abreast (abreast_ofTokens s.next (rest.drop s.used))
termination_by tokens => tokens.length
decreasing_by simp only [List.length_drop, List.length_cons]; omega

/-! ### Modules and scans -/

namespace Clause

variable {c : Clause} {a : Candidate}

/-- A clause that always refers to another module is an import or a statement. -/
theorem sighting?_eq_call : c.sighting? = some (.call a) ↔
    (∃ u, c = .importArea u ∧ ⟨u.name, u.span.start⟩ = a) ∨
      ∃ s name, c = .statement s ∧ s.reference? = some name ∧ ⟨name, s.span.start⟩ = a := by
  cases c with
  | statement s =>
    obtain ⟨action, span⟩ := s
    cases action <;> simp [sighting?, Statement.reference?, Action.reference?]
  | _ => simp [sighting?]

theorem sighting?_eq_perform : c.sighting? = some (.perform a) ↔
    ∃ name span, c = .perform name span ∧ ⟨name, span.start⟩ = a := by
  cases c with
  | statement s =>
    obtain ⟨action, span⟩ := s
    cases action <;> simp [sighting?]
  | _ => simp [sighting?]

theorem subroutine?_eq (c : Clause) : c.sighting?.bind Sighting.subroutine? = c.subroutine? := by
  cases c with
  | statement s =>
    obtain ⟨action, span⟩ := s
    cases action <;> simp [sighting?, subroutine?, Sighting.subroutine?, Option.bind_map]
  | _ => rfl

/-- A statement that refers to another module is a clause of its own, or the call of a subroutine
that the source does not define. -/
theorem cases_of_statement? {defined : List String} {s : Statement} {name : String}
    (hs : c.statement? defined = some s) (hname : s.reference? = some name) :
    c = .statement s ∨
      c = .perform name s.span ∧ name ∉ defined ∧ s.action = .perform name true := by
  cases c with
  | statement s' => exact .inl (congrArg _ (Option.some.inj hs))
  | perform name' span =>
    obtain rfl := Option.some.inj hs
    cases hdefined : defined.contains name' <;>
      simp only [hdefined, Statement.reference?, Action.reference?, Bool.not_true,
        Bool.not_false, reduceCtorEq, Option.some.injEq] at hname
    subst hname
    exact .inr ⟨rfl, by simpa using hdefined, rfl⟩
  | _ => simp [statement?] at hs

theorem importArea?_eq_some {u : UsingClause} : c.importArea? = some u ↔ c = .importArea u := by
  cases c <;> simp [importArea?]

end Clause

/-- The references of the module, with the positions where they start. -/
def Module.candidates (m : Module) : List Candidate :=
  m.usings.map (fun u => ⟨u.name, u.span.start⟩) ++
    m.tree.filterMap fun s => s.reference?.map (⟨·, s.span.start⟩)

theorem Scan.mem_candidates {type : ObjectType} {tokens : List Token} {a : Candidate} :
    a ∈ (Scan.ofTokens type tokens).candidates ↔ .call a ∈ Sighting.ofTokens tokens ∨
      .perform a ∈ Sighting.ofTokens tokens ∧
        a.name ∉ (Sighting.ofTokens tokens).filterMap Sighting.subroutine? := by
  have hcall (s : Sighting) : s.call? = some a ↔ s = .call a := by
    cases s <;> simp [Sighting.call?]
  have hperform (s : Sighting) : s.perform? = some a ↔ s = .perform a := by
    cases s <;> simp [Sighting.perform?]
  simp only [ofTokens, List.mem_append, List.mem_filter, List.mem_filterMap, hcall, hperform,
    exists_eq_right]
  simp

/-- The subroutines of a module are those that the parser finds. -/
theorem Clause.subroutines_eq (tokens : List Token) :
    (Clause.ofSource tokens).filterMap Clause.subroutine? =
      (Sighting.parsed none none tokens).filterMap Sighting.subroutine? := by
  rw [Sighting.parsed, List.filterMap_filterMap]
  exact List.filterMap_congr fun c _ => (Clause.subroutine?_eq c).symm

theorem Module.mem_candidates {i : Identity} {tokens : List Token} {a : Candidate} :
    a ∈ (Module.ofTokens i tokens).candidates ↔ .call a ∈ Sighting.parsed none none tokens ∨
      .perform a ∈ Sighting.parsed none none tokens ∧
        a.name ∉ (Sighting.parsed none none tokens).filterMap Sighting.subroutine? := by
  rw [← Clause.subroutines_eq]
  simp only [Sighting.parsed, candidates, ofTokens, ofClauses, Clause.ofSource]
  -- the subroutines of the source stay a list, since the statements are made from it
  generalize hdefined : (Clause.ofTokens none none tokens).filterMap Clause.subroutine? = defined
  simp only [List.mem_append, List.mem_map, List.mem_filterMap, Option.map_eq_some_iff,
    Clause.sighting?_eq_call, Clause.sighting?_eq_perform, Clause.importArea?_eq_some]
  constructor
  · rintro (⟨u, ⟨c, hc, hu⟩, rfl⟩ | ⟨s, ⟨c, hc, hs⟩, name, hname, rfl⟩)
    · exact .inl ⟨c, hc, .inl ⟨u, hu, rfl⟩⟩
    · rcases Clause.cases_of_statement? hs hname with rfl | ⟨rfl, hundefined, -⟩
      · exact .inl ⟨_, hc, .inr ⟨s, name, rfl, hname, rfl⟩⟩
      · exact .inr ⟨⟨_, hc, name, s.span, rfl, rfl⟩, hundefined⟩
  · rintro (⟨c, hc, ⟨u, rfl, rfl⟩ | ⟨s, name, rfl, hname, rfl⟩⟩ |
      ⟨⟨c, hc, name, span, rfl, rfl⟩, hundefined⟩)
    · exact .inl ⟨u, ⟨_, hc, rfl⟩, rfl⟩
    · exact .inr ⟨s, ⟨_, hc, rfl⟩, name, hname, rfl⟩
    · refine .inr ⟨⟨.perform name true, span⟩, ⟨_, hc, ?_⟩, name, rfl, rfl⟩
      simpa [Clause.statement?] using hundefined

/-- The only headers of the subroutine stand inside data blocks. -/
def TokenPlace.OnlyInData (places : List TokenPlace) (name : String) : Prop :=
  (∃ p ∈ places, p.subroutine? = some name) ∧
    ∀ p ∈ places, p.subroutine? = some name → p.inData

/-- A header that the scanner finds and the parser does not stands inside a data block. -/
theorem onlyInData_of_headers {tokens : List Token} {name : String}
    (hseen : name ∈ (Sighting.ofTokens tokens).filterMap Sighting.subroutine?)
    (hfound : name ∉ (Sighting.parsed none none tokens).filterMap Sighting.subroutine?) :
    TokenPlace.OnlyInData (Token.places false tokens) name := by
  have habreast := abreast_ofTokens none tokens
  rw [habreast.seen_headers] at hseen
  rw [habreast.found_headers] at hfound
  refine ⟨List.mem_filterMap.1 hseen, fun p hp hname => ?_⟩
  by_contra hdata
  exact hfound (List.mem_filterMap.2 ⟨p, List.mem_filter.2 ⟨hp, by simpa using hdata⟩, hname⟩)

/-- Every reference of a module is found by the scanner, at the same position, but for calls of
subroutines that are defined inside a data block only. On a tidy source the scanner finds nothing
else. -/
theorem Module.scan_complete (i : Identity) (source : String) (find : String → Option Module) :
    (∀ u ∈ (parseSource i source find).1.usings,
      ⟨u.name, u.span.start⟩ ∈ (Scan.ofSource i.type source).candidates) ∧
    (∀ s ∈ (parseSource i source find).1.tree, ∀ name, s.reference? = some name →
      ⟨name, s.span.start⟩ ∈ (Scan.ofSource i.type source).candidates ∨
        s.action = .perform name true ∧
          TokenPlace.OnlyInData (Token.places false (tokenize source)) name) ∧
    ((∀ p ∈ Token.places false (tokenize source), p.Tidy) →
      ∀ a, a ∈ (Scan.ofSource i.type source).candidates ↔
        a ∈ (parseSource i source find).1.candidates) := by
  change (∀ u ∈ (Module.ofTokens i (tokenize source)).usings, _) ∧
    (∀ s ∈ (Module.ofTokens i (tokenize source)).tree, _) ∧ (_ →
      ∀ a, _ ↔ a ∈ (Module.ofTokens i (tokenize source)).candidates)
  have habreast := abreast_ofTokens none (tokenize source)
  have hcall {a : Candidate} (h : .call a ∈ Sighting.parsed none none (tokenize source)) :
      a ∈ (Scan.ofSource i.type source).candidates :=
    Scan.mem_candidates.2 (.inl (habreast.sublist.subset h))
  refine ⟨fun u hu => ?_, fun s hs name hname => ?_, fun htidy a => ?_⟩
  · obtain ⟨c, hc, hu⟩ := List.mem_filterMap.1 hu
    exact hcall (List.mem_filterMap.2 ⟨c, hc,
      Clause.sighting?_eq_call.2 (.inl ⟨u, Clause.importArea?_eq_some.1 hu, rfl⟩)⟩)
  · obtain ⟨c, hc, hs⟩ := List.mem_filterMap.1 hs
    rcases Clause.cases_of_statement? hs hname with rfl | ⟨rfl, hundefined, haction⟩
    · exact .inl (hcall (List.mem_filterMap.2 ⟨_, hc,
        Clause.sighting?_eq_call.2 (.inr ⟨s, name, rfl, hname, rfl⟩)⟩))
    · have hperform : .perform ⟨name, s.span.start⟩ ∈ Sighting.parsed none none (tokenize source) :=
        List.mem_filterMap.2 ⟨_, hc, Clause.sighting?_eq_perform.2 ⟨name, s.span, rfl, rfl⟩⟩
      rw [Clause.subroutines_eq] at hundefined
      by_cases hseen : name ∈
          (Sighting.ofTokens (tokenize source)).filterMap Sighting.subroutine?
      · exact .inr ⟨haction, onlyInData_of_headers hseen hundefined⟩
      · exact .inl (Scan.mem_candidates.2 (.inr ⟨habreast.sublist.subset hperform, hseen⟩))
  · have hheaders : ((Sighting.ofTokens (tokenize source)).filter Sighting.isParsed).filterMap
        Sighting.subroutine? = (Sighting.ofTokens (tokenize source)).filterMap
          Sighting.subroutine? := by
      rw [List.filterMap_filter]
      exact List.filterMap_congr fun s _ => by cases s <;> rfl
    rw [Module.mem_candidates, habreast.eq_of_tidy htidy, hheaders, Scan.ofSource,
      Scan.mem_candidates]
    simp [Sighting.isParsed, Sighting.function?]

/-- A program with data, calls of each kind, a subroutine of its own and one of another source. -/
private def sample : String :=
  "DEFINE DATA LOCAL USING AREA\n1 #N (A8)\nEND-DEFINE\n" ++
    "CALLNAT 'SUB' PERFORM OWN FETCH RETURN 'PROG' PERFORM OTHER\n" ++
      "DEFINE SUBROUTINE OWN INCLUDE COPY END-SUBROUTINE FUNC(<#N>)"

theorem Module.scan_complete_sample :
    (∀ p ∈ Token.places false (tokenize sample), p.Tidy) ∧
      ∀ a, a ∈ (Scan.ofSource .program sample).candidates ↔
        a ∈ (parseSource ⟨.ofText "L/P.NSP", "L", "P", .program⟩ sample
          fun _ => none).1.candidates := by
  have htidy : ∀ p ∈ Token.places false (tokenize sample), p.Tidy := by decide +kernel
  exact ⟨htidy, (Module.scan_complete ⟨.ofText "L/P.NSP", "L", "P", .program⟩ sample _).2.2 htidy⟩

end Steplib
