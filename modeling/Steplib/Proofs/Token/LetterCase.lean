import Steplib.Proofs.Token.Lexing

/-!
# Tokens in upper case

No pattern tells a letter from the other letters, in either case, and keywords are looked up in
upper case. So a text in upper case is cut at the same places, into lexemes of the same classes, and
its tokens are those of the text, in upper case.

## Main definitions

* `Pattern.CaseFree`: a language does not change when its texts are written in upper case.
* `Token.raised`: a token in upper case.
* `Token.Spelled`: the text of a token is one that its class allows.

## Main results

* `Pattern.caseFree_language`: what a pattern allows does not depend on the letter case.
* `tokenize_upper`: the tokens of a text in upper case are those of the text, in upper case.
-/

open scoped Computability

namespace Steplib

namespace Ascii

variable {α : Type} {c : Char} {cs : List Char}

/-- Raising a character changes letters only, and gives a letter for a letter. -/
theorem toUpper_eq_or_isAlpha (c : Char) :
    c.toUpper = c ∨ c.isAlpha = true ∧ c.toUpper.isAlpha = true :=
  (toUpper_cases c).imp_right fun ⟨hlower, hupper⟩ =>
    ⟨Bool.or_eq_true_iff.2 (.inr hlower), Bool.or_eq_true_iff.2 (.inl hupper)⟩

/-- What is the same for all letters does not depend on the letter case. -/
theorem apply_toUpper {f : Char → α} {a : α} (hf : ∀ c, c.isAlpha = true → f c = a) (c : Char) :
    f c.toUpper = f c := by
  rcases toUpper_eq_or_isAlpha c with h | ⟨hc, hraised⟩
  · rw [h]
  · rw [hf _ hc, hf _ hraised]

/-- A character that is no letter is raised from itself only. -/
theorem toUpper_eq_iff {d : Char} (hd : d.isAlpha = false) : c.toUpper = d ↔ c = d := by
  rcases toUpper_eq_or_isAlpha c with h | ⟨hc, hraised⟩
  · rw [h]
  · exact iff_of_false (fun h => by simp [h, hd] at hraised) fun h => by simp [h, hd] at hc

theorem utf8Size_toUpper (c : Char) : c.toUpper.utf8Size = c.utf8Size := by
  refine apply_toUpper (a := 1) (fun c hc => ?_) c
  rw [Char.utf8Size_eq_one_iff]
  rcases Bool.or_eq_true_iff.1 hc with h | h
  · unfold Char.isUpper at h
    have hlast : c.val ≤ 'Z'.val := (of_decide_eq_true h).2
    exact UInt32.le_trans hlast (by decide)
  · unfold Char.isLower at h
    have hlast : c.val ≤ 'z'.val := of_decide_eq_true (Bool.and_eq_true_iff.1 h).2
    exact UInt32.le_trans hlast (by decide)

theorem ofList_map_toUpper (cs : List Char) :
    String.ofList (cs.map Char.toUpper) = upper (String.ofList cs) := by
  rw [upper, String.toList_ofList]

end Ascii

theorem Keyword.ofText?_upper (word : String) :
    Keyword.ofText? (Ascii.upper word) = Keyword.ofText? word := by
  rw [ofText?, ofText?, Ascii.upper_upper]

namespace Lexeme

theorem isSpace_toUpper (c : Char) : isSpace c.toUpper = isSpace c :=
  Ascii.apply_toUpper (fun _ hc => Pattern.not_isSpace_of_property hc ⟨rfl, rfl, rfl, rfl⟩) c

theorem isDigit_toUpper (c : Char) : c.toUpper.isDigit = c.isDigit :=
  Ascii.apply_toUpper (fun c hc => Bool.eq_false_iff.2 fun h => by
    rw [Pattern.not_isAlpha_of_isDigit h] at hc
    cases hc) c

theorem isWordStart_toUpper (c : Char) : isWordStart c.toUpper = isWordStart c :=
  Ascii.apply_toUpper (fun c hc => by rw [isWordStart, hc, Bool.true_or, Bool.true_or]) c

theorem isWordPart_toUpper (c : Char) : isWordPart c.toUpper = isWordPart c :=
  Ascii.apply_toUpper (a := true) (fun c hc => by simp [isWordPart, Char.isAlphanum, hc]) c

theorem ofChar?_toUpper (c : Char) : Mark.ofChar? c.toUpper = Mark.ofChar? c :=
  Ascii.apply_toUpper (fun c hc => by
    cases h : Mark.ofChar? c with
    | none => rfl
    | some m =>
      unfold Mark.ofChar? at h
      split at h <;> first | exact absurd hc (by decide) | cases h) c

theorem bne_toUpper {d : Char} (hd : d.isAlpha = false) (c : Char) :
    (c.toUpper != d) = (c != d) := by
  rw [Bool.eq_iff_iff, bne_iff_ne, bne_iff_ne, ne_eq, Ascii.toUpper_eq_iff hd]

end Lexeme

open Pattern

namespace Pattern

open Lexeme

variable {p : Char → Bool} {l m : Language Char} {cs : List Char}

/-- The language does not depend on the letter case. -/
def CaseFree (l : Language Char) : Prop :=
  ∀ cs, cs.map Char.toUpper ∈ l ↔ cs ∈ l

theorem CaseFree.one (hp : ∀ c, p c.toUpper = p c) : CaseFree (one p) := by
  intro cs
  simp only [mem_one, List.map_eq_singleton_iff]
  constructor
  · rintro ⟨_, hc, c, rfl, rfl⟩
    exact ⟨c, hp c ▸ hc, rfl⟩
  · rintro ⟨c, hc, rfl⟩
    exact ⟨_, (hp c).symm ▸ hc, c, rfl, rfl⟩

theorem CaseFree.singleton {w : List Char} (hw : w.all (!·.isAlpha) = true) : CaseFree {w} := by
  simp only [List.all_eq_true, Bool.not_eq_true'] at hw
  intro cs
  change cs.map Char.toUpper = w ↔ cs = w
  induction w generalizing cs with
  | nil => exact List.map_eq_nil_iff
  | cons d w ih =>
    obtain ⟨hd, hw⟩ := List.forall_mem_cons.1 hw
    cases cs with
    | nil => simp
    | cons c cs => rw [List.map_cons, List.cons_eq_cons, List.cons_eq_cons, ih hw,
        Ascii.toUpper_eq_iff hd]

theorem CaseFree.add (hl : CaseFree l) (hm : CaseFree m) : CaseFree (l + m) := fun cs => by
  rw [Language.mem_add, Language.mem_add, hl cs, hm cs]

theorem CaseFree.mul (hl : CaseFree l) (hm : CaseFree m) : CaseFree (l * m) := by
  intro cs
  rw [Language.mem_mul, Language.mem_mul]
  constructor
  · rintro ⟨a, ha, b, hb, heq⟩
    obtain ⟨a, b, rfl, rfl, rfl⟩ := List.map_eq_append_iff.1 heq.symm
    exact ⟨a, (hl a).1 ha, b, (hm b).1 hb, rfl⟩
  · rintro ⟨a, ha, b, hb, rfl⟩
    exact ⟨_, (hl a).2 ha, _, (hm b).2 hb, List.map_append.symm⟩

theorem CaseFree.kstar (hl : CaseFree l) : CaseFree l∗ := by
  have hpow : ∀ n : ℕ, CaseFree (l ^ n) := fun n => by
    induction n with
    | zero => exact .singleton (by simp)
    | succ n ih => rw [pow_succ]; exact ih.mul hl
  intro cs
  simp only [Language.kstar_eq_iSup_pow, Language.mem_iSup, hpow _ cs]

theorem CaseFree.several (hp : ∀ c, p c.toUpper = p c) : CaseFree (several p) :=
  (one hp).mul (one hp).kstar

theorem caseFree_singleQuoted : CaseFree singleQuoted := by
  refine .kstar (.add (.one fun c => ?_) (.singleton (by decide)))
  rw [bne_toUpper (by decide), bne_toUpper (by decide)]

theorem caseFree_doubleQuoted : CaseFree doubleQuoted := by
  refine .kstar (.one fun c => ?_)
  rw [bne_toUpper (by decide), bne_toUpper (by decide)]

/-- Every pattern allows a text in any letter case. -/
theorem caseFree_language (q : Pattern) : CaseFree q.language := by
  cases q with
  | space => exact .several isSpace_toUpper
  | lineBreak =>
    have hempty : CaseFree 1 := .singleton (w := []) rfl
    exact (hempty.add (.singleton (by decide))).mul (.singleton (by decide))
  | comment =>
    exact .mul (.singleton (by decide)) (.kstar (.one (bne_toUpper (by decide))))
  | word =>
    have hpart := (CaseFree.one isWordPart_toUpper).kstar
    refine .add (.mul (.one isWordStart_toUpper) hpart)
      (.mul (.singleton (by decide)) (.mul (.one fun c => ?_) hpart))
    exact Ascii.apply_toUpper (f := fun c => c.isAlpha || c == '#') (a := true)
      (fun c hc => by rw [hc, Bool.true_or]) c
  | integer => exact .several isDigit_toUpper
  | decimal =>
    exact .mul (.kstar (.one isDigit_toUpper))
      (.mul (.singleton (by decide)) (.several isDigit_toUpper))
  | string =>
    exact .add
      (.mul (.singleton (by decide)) (.mul caseFree_singleQuoted (.singleton (by decide))))
      (.mul (.singleton (by decide)) (.mul caseFree_doubleQuoted (.singleton (by decide))))
  | unterminated =>
    exact .add (.mul (.singleton (by decide)) caseFree_singleQuoted)
      (.mul (.singleton (by decide)) caseFree_doubleQuoted)
  | mark m => exact .one fun c => by rw [ofChar?_toUpper]

/-- The longest piece of a text in upper case is the longest piece of the text, in upper case. -/
theorem Longest.upper {q : Pattern} {piece rest : List Char} (h : Longest q piece rest) :
    Longest q (piece.map Char.toUpper) (rest.map Char.toUpper) where
  mem := (caseFree_language q piece).2 h.mem
  shorter q' other hother hstarts := by
    rw [← List.map_append] at hstarts
    obtain ⟨other, hshorter, rfl⟩ := List.prefix_map_iff.1 hstarts
    rw [List.length_map, List.length_map]
    exact (h.shorter q' other ((caseFree_language q' other).1 hother) hshorter).imp_left
      fun ⟨hq, heq⟩ => ⟨hq, by rw [heq]⟩

theorem tokenKind?_upper (q : Pattern) (piece : List Char) :
    q.tokenKind? (piece.map Char.toUpper) = q.tokenKind? piece := by
  cases q with
  | word => rw [tokenKind?, tokenKind?, Ascii.ofList_map_toUpper, Keyword.ofText?_upper]
  | _ => rfl

end Pattern

/-- The token with its text in upper case. -/
def Token.raised (t : Token) : Token :=
  { t with text := Ascii.upper t.text }

namespace Text

variable (cs : List Char)

theorem byteLength_upper : byteLength (cs.map Char.toUpper) = byteLength cs := by
  induction cs with
  | nil => rfl
  | cons c cs ih => rw [List.map_cons, byteLength_cons, byteLength_cons, ih, Ascii.utf8Size_toUpper]

theorem lineFeedCount_upper : (cs.map Char.toUpper).count '\n' = cs.count '\n' := by
  rw [List.count_eq_countP, List.countP_map, List.count_eq_countP]
  refine List.countP_congr fun c _ => ?_
  rw [Function.comp_apply, beq_iff_eq, beq_iff_eq, Ascii.toUpper_eq_iff (by decide)]

theorem lastLine_upper : lastLine (cs.map Char.toUpper) = (lastLine cs).map Char.toUpper := by
  have hp : (fun c => c != '\n') ∘ Char.toUpper = fun c => c != '\n' :=
    funext (Lexeme.bne_toUpper (by decide))
  rw [lastLine, List.rtakeWhile, ← List.map_reverse, List.takeWhile_map, hp, ← List.map_reverse]
  rfl

end Text

theorem Token.raised_after (before : List Char) (kind : TokenKind) (piece : List Char) :
    (Token.after before kind piece).raised =
      .after (before.map Char.toUpper) kind (piece.map Char.toUpper) := by
  rw [Token.after, Token.after, Text.lineFeedCount_upper, Text.lastLine_upper, List.length_map,
    Text.byteLength_upper, Ascii.ofList_map_toUpper]
  rfl

theorem opensStarComment_upper (rest : List Char) :
    opensStarComment (rest.map Char.toUpper) = opensStarComment rest := by
  cases rest with
  | nil => rfl
  | cons c rest =>
    refine Ascii.apply_toUpper (f := fun c => opensStarComment (c :: rest)) (a := false)
      (fun c hc => ?_) c
    simp [opensStarComment, Lexeme.opensComment, ne_of_property hc]

theorem inStarComment_upper (rest : List Char) :
    (rest.map Char.toUpper).takeWhile inStarComment =
        (rest.takeWhile inStarComment).map Char.toUpper ∧
      (rest.map Char.toUpper).dropWhile inStarComment =
        (rest.dropWhile inStarComment).map Char.toUpper := by
  have hp : inStarComment ∘ Char.toUpper = inStarComment := funext fun c => by
    rw [Function.comp_apply, inStarComment, Lexeme.bne_toUpper (by decide),
      Lexeme.bne_toUpper (by decide), inStarComment]
  rw [List.takeWhile_map, List.dropWhile_map, hp]
  exact ⟨rfl, rfl⟩

/-- Text in upper case has the same tokens, in upper case. -/
theorem Lexes.upper {before text : List Char} {first : Bool} {tokens : List Token}
    (h : Lexes before first text tokens) :
    Lexes (before.map Char.toUpper) first (text.map Char.toUpper) (tokens.map Token.raised) := by
  induction h with
  | nil => exact .nil _ _
  | lineBreak h hrest ih =>
    rw [List.map_append] at ih ⊢
    exact .lineBreak h.upper ih
  | skip hp h hrest ih =>
    rw [List.map_append] at ih ⊢
    exact .skip hp h.upper ih
  | @starComment before rest tokens hopens hrest ih =>
    obtain ⟨htake, hdrop⟩ := inStarComment_upper rest
    rw [List.map_append, List.map_cons, ← htake, ← hdrop] at ih
    exact .starComment (by rwa [opensStarComment_upper]) ih
  | token h hkind hstar hrest ih =>
    rw [List.map_append] at ih ⊢
    rw [List.map_cons, Token.raised_after]
    exact .token h.upper (by rwa [tokenKind?_upper]) (by rwa [opensStarComment_upper]) ih
  | unknown h hrest ih =>
    rw [List.map_append] at ih
    rw [List.map_cons, List.map_cons, Token.raised_after]
    refine .unknown (fun p piece hpiece hstarts => ?_) ih
    rw [← List.map_cons] at hstarts
    obtain ⟨piece, hshorter, rfl⟩ := List.prefix_map_iff.1 hstarts
    exact h p piece ((caseFree_language p piece).1 hpiece) hshorter

/-- The tokens of a source in upper case are those of the source, in upper case. -/
theorem tokenize_upper (source : String) :
    tokenize (Ascii.upper source) = (tokenize source).map Token.raised := by
  have h := (lexes_tokenize source).upper
  rw [← Ascii.toList_upper] at h
  exact ((lexes_iff ..).1 h).symm

/-! ### What raised tokens keep -/

theorem Ascii.length_upper (text : String) : (upper text).length = text.length := by
  rw [← String.length_toList, ← String.length_toList, toList_upper, List.length_map]

theorem Ascii.utf8ByteSize_upper (text : String) :
    (upper text).utf8ByteSize = text.utf8ByteSize := by
  have h := Text.byteLength_upper text.toList
  rwa [Text.byteLength_eq, Text.byteLength_eq, String.ofList_toList] at h

/-- Making pairs of marks one does not depend on the letter case, if the mark is no letter. -/
theorem undouble_upper {q : Char} (hq : q.isAlpha = false) (cs : List Char) :
    undouble q (cs.map Char.toUpper) = (undouble q cs).map Char.toUpper := by
  fun_induction undouble q cs with
  | case1 a b rest h ih =>
    obtain ⟨rfl, rfl⟩ := h
    have hraised : b.toUpper = b := (Ascii.toUpper_eq_iff hq).2 rfl
    rw [List.map_cons, List.map_cons, hraised, undouble, if_pos ⟨rfl, rfl⟩, ih, List.map_cons,
      hraised]
  | case2 a b rest h ih =>
    have hraised : ¬(a.toUpper = q ∧ b.toUpper = q) := by
      rwa [Ascii.toUpper_eq_iff hq, Ascii.toUpper_eq_iff hq]
    rw [List.map_cons, List.map_cons, undouble, if_neg hraised, ← List.map_cons, ih, List.map_cons]
  | case3 rest h =>
    match rest with
    | [] => rfl
    | [a] => rfl
    | a :: b :: rest => exact absurd rfl (h a b rest)

namespace Token

variable (t : Token)

/-- What the kind of a token says about its text: a string literal starts with a quote, and an
integer is a row of digits. -/
structure Spelled : Prop where
  string : t.kind = .string → ∃ quote rest, t.text.toList = quote :: rest ∧ quote.isAlpha = false
  integer : t.kind = .integer → ∀ c ∈ t.text.toList, c.isDigit = true

theorem name_raised : t.raised.name = t.name :=
  Ascii.upper_upper _

theorem span_raised : t.raised.span = t.span := by
  rw [span, span, raised, Ascii.length_upper]

theorem adjacentTo_raised (next : Token) : t.raised.adjacentTo next.raised = t.adjacentTo next := by
  simp only [adjacentTo, raised, Ascii.utf8ByteSize_upper]

theorem isHashName_raised : t.raised.isHashName = t.isHashName := by
  rw [isHashName, isHashName, raised, Ascii.toList_upper]
  cases t.text.toList with
  | nil => rfl
  | cons c cs => simp [Ascii.toUpper_eq_iff]

end Token

variable {t : Token}

theorem Token.stringValue?_of_kind_ne (h : t.kind ≠ .string) : t.stringValue? = none := by
  unfold stringValue?
  split
  · exact absurd ‹_› h
  · rfl

theorem Token.Spelled.stringValue?_raised (h : t.Spelled) :
    t.raised.stringValue? = t.stringValue?.map Ascii.upper := by
  by_cases hkind : t.kind = .string
  · obtain ⟨quote, rest, htext, hquote⟩ := h.string hkind
    have hraised : quote.toUpper = quote := (Ascii.toUpper_eq_iff hquote).2 rfl
    have hupper : t.raised.text.toList = quote :: rest.map Char.toUpper := by
      rw [raised, Ascii.toList_upper, htext, List.map_cons, hraised]
    have hsame : t.raised.kind = .string := hkind
    rw [stringValue?, stringValue?, hkind, hsame, htext, hupper]
    cases rest with
    | nil => rfl
    | cons next rest =>
      simp only [List.map_cons, Option.map_some]
      rw [← List.map_cons, ← List.map_dropLast, undouble_upper hquote, Ascii.ofList_map_toUpper]
  · have hsame : t.raised.kind ≠ .string := hkind
    rw [stringValue?_of_kind_ne hkind, stringValue?_of_kind_ne hsame]
    rfl

theorem Token.Spelled.text_raised (h : t.Spelled) (hkind : t.kind = .integer) :
    t.raised.text = t.text := by
  have hsame : t.text.toList.map Char.toUpper = t.text.toList :=
    (List.map_congr_left fun c hc => (Ascii.toUpper_eq_iff
      (not_isAlpha_of_isDigit (h.integer hkind c hc))).2 rfl).trans (List.map_id _)
  rw [raised, Ascii.upper, hsame, String.ofList_toList]

/-- A word is an identifier or a keyword. -/
theorem Pattern.kind_of_word {kind : TokenKind} {piece : List Char}
    (h : word.tokenKind? piece = some kind) : kind ≠ .string ∧ kind ≠ .integer := by
  obtain rfl := Option.some.inj h
  cases Keyword.ofText? (String.ofList piece) <;> simp

theorem Found.spelled {before piece rest : List Char} (h : Found before piece rest t) :
    t.Spelled := by
  cases h with
  | @pattern p kind h hkind =>
    have htext : (Token.after before kind piece).text.toList = piece := String.toList_ofList ..
    cases p with
    | word =>
      exact ⟨fun h => absurd h (kind_of_word hkind).1, fun h => absurd h (kind_of_word hkind).2⟩
    | integer =>
      cases hkind
      exact ⟨nofun, fun _ => by rw [htext]; exact (mem_several.1 h.mem).2⟩
    | string =>
      cases hkind
      refine ⟨fun _ => ?_, nofun⟩
      cases piece with
      | nil => exact absurd h.mem (nil_notMem_language _)
      | cons c piece =>
        refine ⟨c, piece, htext, ?_⟩
        rcases cons_mem_string.1 h.mem with ⟨rfl, -⟩ | ⟨rfl, -⟩ <;> decide
    | space | lineBreak | comment => cases hkind
    | decimal | unterminated | mark =>
      cases hkind
      exact ⟨nofun, nofun⟩
  | unknown hpiece h => exact ⟨nofun, nofun⟩

theorem spelled_of_mem_tokenize {source : String} (h : t ∈ tokenize source) : t.Spelled := by
  obtain ⟨_, _, _, _, hfound⟩ := (lexes_tokenize source).found_of_mem h
  exact hfound.spelled

end Steplib
