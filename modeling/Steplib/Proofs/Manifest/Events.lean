import Mathlib.Computability.Language
import Steplib.Manifest.Markup
import Steplib.Proofs.Text.Lines

/-!
# The events of written markup

What is written between tags, the tags of an element and a text each have a piece of markup to
which they are read, whatever follows. White space and comments give no event, the two tags of an
element give one event each, and a text gives one event without the white space around it.

## Main definitions

* `Markup.gap`: white space and comments in any number.
* `Markup.opening`, `Markup.closing`, `Markup.selfClosing`: the tags of an element.
* `Markup.instruction`: a declaration at the start of a document.

## Main results

* `Markup.eventsFrom_spaces`, `Markup.eventsFrom_comment`, `Markup.eventsFrom_instruction`,
  `Markup.eventsFrom_selfClosing`: the pieces of markup without events.
* `Markup.eventsFrom_opening`, `Markup.eventsFrom_closing`, `Markup.eventsFrom_text`: the pieces of
  markup with one event.
-/

namespace Steplib.Markup

/-! ### Pieces of markup -/

/-- White space, possibly none. -/
def spaces : Language Char :=
  {cs | ∀ c ∈ cs, isSpace c = true}

/-- Comments, which end at the first mark of their end. -/
def comment : Language Char :=
  {cs | ∃ body, ¬ "-->".toList <:+: body ++ "--".toList ∧
    cs = "<!--".toList ++ body ++ "-->".toList}

/-- What may stand between two tags. -/
def gap : Language Char :=
  KStar.kstar (spaces + comment)

/-- Instructions, such as the declaration of a document. -/
def instruction : Language Char :=
  {cs | ∃ body, ¬ "?>".toList <:+: '?' :: (body ++ "?".toList) ∧
    cs = "<?".toList ++ body ++ "?>".toList}

/-- The tag that opens an element. -/
def opening (name : String) : Language Char :=
  {cs | ∃ space ∈ spaces, cs = '<' :: (name.toList ++ space ++ ['>'])}

/-- The tag that closes an element. -/
def closing (name : String) : Language Char :=
  {cs | ∃ space ∈ spaces, cs = '<' :: '/' :: (name.toList ++ space ++ ['>'])}

/-- The tag of an element without content. -/
def selfClosing (name : String) : Language Char :=
  {cs | ∃ space ∈ spaces, cs = '<' :: (name.toList ++ space ++ ['/', '>'])}

/-- The text is of letters only and can be the name of an element. -/
def IsName (name : String) : Prop :=
  name ≠ "" ∧ name.toList.all Char.isAlpha = true

instance (name : String) : Decidable (IsName name) :=
  inferInstanceAs (Decidable (_ ∧ _))

instance (cs : List Char) : Decidable (cs ∈ spaces) :=
  List.decidableBAll _ cs

variable {c : Char} {cs chunk content rest space raw mark body : List Char} {name : String}

/-! ### White space, comments and instructions -/

theorem nil_mem_spaces : [] ∈ spaces := fun _ hc => absurd hc List.not_mem_nil

theorem isBlank_of_isSpace (hc : isSpace c = true) : Text.isBlank c = true := by
  simp only [isSpace, Bool.or_eq_true, beq_iff_eq] at hc
  rcases hc with ((rfl | rfl) | rfl) | rfl <;> decide

/-- White space is skipped wherever reading goes on. -/
theorem eventsFrom_cons_space (hc : isSpace c = true) (names : List (List Char)) (offset : Nat)
    (cs : List Char) :
    eventsFrom names offset (c :: cs) = eventsFrom names (offset + c.utf8Size) cs := by
  have hless : c ≠ '<' := by rintro rfl; cases hc
  have htrim (body : List Char) : trim (c :: body) = trim body := by
    rw [trim, trim, List.dropWhile_cons_of_pos hc]
  rw [eventsFrom, if_neg hless]
  -- before markup white space is a text of its own, which gives no event; before a text it is a
  -- part of that text, which is stripped
  cases cs with
  | nil =>
    have hnil : trim [c] = [] := htrim []
    simp [hnil]
  | cons d cs =>
    by_cases hd : d = '<'
    · have hnil : trim [c] = [] := htrim []
      simp [hd, hnil]
    · have htake : (d :: cs).takeWhile (· != '<') = d :: cs.takeWhile (· != '<') :=
        List.takeWhile_cons_of_pos (by simpa using hd)
      rw [eventsFrom.eq_def _ _ (d :: cs)]
      simp only [if_neg hd, htake, htrim, List.length_cons, List.drop_succ_cons,
        Text.byteLength_cons, Nat.add_assoc]

theorem eventsFrom_spaces (h : space ∈ spaces) (names : List (List Char)) (offset : Nat)
    (rest : List Char) :
    eventsFrom names offset (space ++ rest) =
      eventsFrom names (offset + Text.byteLength space) rest := by
  induction space generalizing offset with
  | nil => rfl
  | cons c space ih =>
    obtain ⟨hc, hspace⟩ := List.forall_mem_cons.1 h
    rw [List.cons_append, eventsFrom_cons_space hc, ih hspace, Text.byteLength_cons,
      Nat.add_assoc]

/-- Markup that gives no event is skipped. -/
theorem eventsFrom_silent (h : readMarkup (chunk ++ rest) = .ok (.silent, chunk.length))
    (names : List (List Char)) (offset : Nat) :
    eventsFrom names offset ('<' :: (chunk ++ rest)) =
      eventsFrom names (offset + 1 + Text.byteLength chunk) rest := by
  rw [eventsFrom, if_pos rfl, h]
  simp only [List.take_left, List.drop_left]

theorem eventsFrom_tag_opening
    (h : readMarkup (chunk ++ rest) = .ok (.opening content, chunk.length))
    (names : List (List Char)) (offset : Nat) :
    eventsFrom names offset ('<' :: (chunk ++ rest)) =
      (eventsFrom (openingName content :: names) (offset + 1 + Text.byteLength chunk) rest).cons
        (.opened (openingName content)) := by
  rw [eventsFrom, if_pos rfl, h]
  simp only [List.take_left, List.drop_left]

theorem eventsFrom_tag_closing
    (h : readMarkup (chunk ++ rest) = .ok (.closing content, chunk.length))
    (names : List (List Char)) (offset : Nat) :
    eventsFrom (closingName content :: names) offset ('<' :: (chunk ++ rest)) =
      (eventsFrom names (offset + 1 + Text.byteLength chunk) rest).cons
        (.closed (closingName content)) := by
  rw [eventsFrom, if_pos rfl, h]
  simp only [List.take_left, List.drop_left, close, if_true]

/-- A mark is found where it stands for the first time. -/
theorem find?_append (hmark : mark ≠ []) (h : ¬ mark <:+: body ++ mark.dropLast)
    (rest : List Char) : find? mark (body ++ mark ++ rest) = some body.length := by
  induction body with
  | nil =>
    obtain ⟨c, cs, hcs⟩ := List.exists_cons_of_ne_nil hmark
    have hhere : (Text.dropLeading? mark (mark ++ rest)).isSome = true := by
      rw [Text.dropLeading?_eq_some_iff.2 rfl]
      rfl
    rw [List.nil_append, List.length_nil]
    conv_lhs => rw [hcs, List.cons_append, find?, ← List.cons_append, ← hcs]
    rw [if_pos hhere]
  | cons c body ih =>
    -- the mark would end before the mark that comes after the body
    have hnone : (Text.dropLeading? mark (c :: (body ++ mark ++ rest))).isSome = false := by
      refine Bool.eq_false_iff.2 fun hsome => h ?_
      obtain ⟨others, hothers⟩ := Option.isSome_iff_exists.1 hsome
      have hprefix : mark <+: c :: (body ++ mark ++ rest) :=
        ⟨others, (Text.dropLeading?_eq_some_iff.1 hothers).symm⟩
      have hshort : c :: body ++ mark.dropLast <+: c :: (body ++ mark ++ rest) :=
        ⟨[mark.getLast hmark] ++ rest, by
          rw [List.append_assoc, ← List.append_assoc mark.dropLast,
            List.dropLast_append_getLast hmark, List.append_assoc, List.cons_append]⟩
      refine (List.prefix_of_prefix_length_le hprefix hshort ?_).isInfix
      simp only [List.length_append, List.length_cons, List.length_dropLast]
      omega
    have hbody : ¬ mark <:+: body ++ mark.dropLast := fun hpart =>
      h (hpart.trans (List.suffix_cons _ _).isInfix)
    rw [List.cons_append, List.cons_append, find?, hnone, ih hbody]
    rfl

/-- A comment is skipped, up to the first mark of its end. -/
theorem eventsFrom_comment (h : chunk ∈ comment) (names : List (List Char)) (offset : Nat)
    (rest : List Char) :
    ∃ after, eventsFrom names offset (chunk ++ rest) = eventsFrom names after rest := by
  obtain ⟨body, hbody, rfl⟩ := h
  have hfind := @find?_append "-->".toList _ (by decide) hbody rest
  have hread : readMarkup ("!--".toList ++ (body ++ "-->".toList) ++ rest) =
      .ok (.silent, ("!--".toList ++ (body ++ "-->".toList)).length) := by
    have hdrop : ("!--".toList ++ (body ++ "-->".toList) ++ rest).drop 3 =
        body ++ "-->".toList ++ rest := rfl
    have hlead : Text.dropLeading? "!--".toList ("!--".toList ++ (body ++ "-->".toList) ++ rest) =
        some (body ++ "-->".toList ++ rest) := rfl
    change readComment _ = _
    rw [readComment, hdrop, hfind, hlead]
    simp
  have hcons : "<!--".toList ++ body ++ "-->".toList ++ rest =
      '<' :: ("!--".toList ++ (body ++ "-->".toList) ++ rest) := rfl
  exact ⟨_, by rw [hcons, eventsFrom_silent hread]⟩

theorem eventsFrom_instruction (h : chunk ∈ instruction) (names : List (List Char)) (offset : Nat)
    (rest : List Char) :
    ∃ after, eventsFrom names offset (chunk ++ rest) = eventsFrom names after rest := by
  obtain ⟨body, hbody, rfl⟩ := h
  have hfind := @find?_append "?>".toList ('?' :: body) (by decide) hbody rest
  have hread : readMarkup ('?' :: body ++ "?>".toList ++ rest) =
      .ok (.silent, ('?' :: body ++ "?>".toList).length) := by
    change readInstruction _ = _
    rw [readInstruction, hfind]
    simp
  have hcons : "<?".toList ++ body ++ "?>".toList ++ rest =
      '<' :: ('?' :: body ++ "?>".toList ++ rest) := rfl
  exact ⟨_, by rw [hcons, eventsFrom_silent hread]⟩

/-! ### Tags -/

/-- The text holds no mark that could end a tag or keep it from ending. -/
def Markless (cs : List Char) : Prop :=
  ∀ c ∈ cs, c ≠ '>' ∧ c ≠ '\'' ∧ c ≠ '"'

theorem tagLength?_append (h : Markless content) (rest : List Char) :
    tagLength? none (content ++ ['>'] ++ rest) = some content.length := by
  induction content with
  | nil => rfl
  | cons c content ih =>
    obtain ⟨⟨hend, hsingle, hdouble⟩, hcontent⟩ := List.forall_mem_cons.1 h
    rw [List.cons_append, List.cons_append, tagLength?, if_neg hend,
      if_neg (by simp [hsingle, hdouble]), ih hcontent]
    rfl

/-- The tag with a content. -/
def tagOf : List Char → Tag
  | '/' :: name => .closing name
  | content => if content.getLast? = some '/' then .silent else .opening content

/-- A tag is read up to the first mark of its end. -/
theorem readTag_append (h : Markless content) (rest : List Char) :
    readTag (content ++ ['>'] ++ rest) = .ok (tagOf content, (content ++ ['>']).length) := by
  have htake : (content ++ ['>'] ++ rest).take content.length = content := by
    rw [List.append_assoc, List.take_left]
  rw [readTag, tagLength?_append h, List.length_append]
  simp only [htake]
  split
  · rfl
  · rename_i hslash
    rw [tagOf.eq_2 _ hslash]
    split <;> rfl

/-- A letter is no mark of markup. -/
theorem ne_of_isAlpha (hc : c.isAlpha = true) :
    c ≠ '>' ∧ c ≠ '\'' ∧ c ≠ '"' ∧ c ≠ '/' ∧ c ≠ '!' ∧ c ≠ '?' ∧ isSpace c = false := by
  refine ⟨?_, ?_, ?_, ?_, ?_, ?_, Bool.eq_false_iff.2 fun h => ?_⟩
  iterate 6 rintro rfl; exact absurd hc (by decide)
  simp only [isSpace, Bool.or_eq_true, beq_iff_eq] at h
  rcases h with ((rfl | rfl) | rfl) | rfl <;> exact absurd hc (by decide)

theorem ne_of_isSpace (hc : isSpace c = true) : c ≠ '>' ∧ c ≠ '\'' ∧ c ≠ '"' ∧ c ≠ '/' := by
  refine ⟨?_, ?_, ?_, ?_⟩ <;> rintro rfl <;> exact absurd hc (by decide)

section Names

variable (hname : IsName name)

include hname

theorem isAlpha_of_mem (hc : c ∈ name.toList) : c.isAlpha = true :=
  List.all_eq_true.1 hname.2 c hc

theorem exists_cons_of_isName : ∃ c letters, name.toList = c :: letters ∧ c.isAlpha = true := by
  obtain ⟨c, letters, hcons⟩ := List.exists_cons_of_ne_nil (mt String.toList_eq_nil_iff.1 hname.1)
  exact ⟨c, letters, hcons, isAlpha_of_mem hname (by simp [hcons])⟩

theorem markless_append (hspace : space ∈ spaces) : Markless (name.toList ++ space) := by
  refine List.forall_mem_append.2 ⟨fun c hc => ?_, fun c hc => ?_⟩
  · obtain ⟨hend, hsingle, hdouble, -⟩ := ne_of_isAlpha (isAlpha_of_mem hname hc)
    exact ⟨hend, hsingle, hdouble⟩
  · obtain ⟨hend, hsingle, hdouble, -⟩ := ne_of_isSpace (hspace c hc)
    exact ⟨hend, hsingle, hdouble⟩

theorem slash_notMem_append (hspace : space ∈ spaces) : '/' ∉ name.toList ++ space := by
  rw [List.mem_append]
  rintro (h | h)
  · exact (ne_of_isAlpha (isAlpha_of_mem hname h)).2.2.2.1 rfl
  · exact (ne_of_isSpace (hspace _ h)).2.2.2 rfl

/-- What begins with the name of an element is read as a tag up to its end. -/
theorem readMarkup_name (h : Markless (name.toList ++ cs)) (rest : List Char) :
    readMarkup (name.toList ++ cs ++ ['>'] ++ rest) =
      .ok (if (name.toList ++ cs).getLast? = some '/' then .silent
          else .opening (name.toList ++ cs),
        (name.toList ++ cs ++ ['>']).length) := by
  obtain ⟨c, letters, hcons, hc⟩ := exists_cons_of_isName hname
  obtain ⟨-, -, -, hslash, hbang, hquestion, -⟩ := ne_of_isAlpha hc
  have htag : readMarkup (name.toList ++ cs ++ ['>'] ++ rest) =
      readTag (name.toList ++ cs ++ ['>'] ++ rest) := by
    rw [hcons, List.cons_append, List.cons_append, List.cons_append, readMarkup.eq_def]
    split <;> simp_all
  have htagOf := tagOf.eq_2 (name.toList ++ cs) fun rest heq => by
    rw [hcons] at heq
    exact hslash (List.cons.inj heq).1
  rw [htag, readTag_append h, htagOf]

theorem openingName_append (hspace : space ∈ spaces) :
    openingName (name.toList ++ space) = name.toList := by
  have hletters : ∀ c ∈ name.toList, (!isSpace c) = true := fun c hc => by
    simp [(ne_of_isAlpha (isAlpha_of_mem hname hc)).2.2.2.2.2.2]
  have hnil : space.takeWhile (fun c => !isSpace c) = [] := by
    cases space with
    | nil => rfl
    | cons c space => simp [hspace c List.mem_cons_self]
  rw [openingName, List.takeWhile_append_of_pos hletters, hnil, List.append_nil]

theorem closingName_append (hspace : space ∈ spaces) :
    closingName (name.toList ++ space) = name.toList := by
  have hstays : ∀ c ∈ name.toList, isSpace c = false := fun c hc =>
    (ne_of_isAlpha (isAlpha_of_mem hname hc)).2.2.2.2.2.2
  obtain ⟨c, letters, hcons, -⟩ := exists_cons_of_isName hname
  have hall : ¬ (name.toList ++ space).all isSpace = true := by
    simp [hcons, hstays c (by simp [hcons])]
  have hend : name.toList.rdropWhile isSpace = name.toList :=
    List.rdropWhile_eq_self_iff.2 fun hne => by simp [hstays _ (List.getLast_mem hne)]
  rw [closingName, if_neg hall]
  exact (Text.rdropWhile_append_all hspace _).trans hend

/-- The tag that opens an element gives one event, and the element is open after it. -/
theorem eventsFrom_opening (h : chunk ∈ opening name) (names : List (List Char)) (offset : Nat)
    (rest : List Char) :
    ∃ after, eventsFrom names offset (chunk ++ rest) =
      (eventsFrom (name.toList :: names) after rest).cons (.opened name.toList) := by
  obtain ⟨space, hspace, rfl⟩ := h
  have hlast : (name.toList ++ space).getLast? ≠ some '/' := fun h =>
    slash_notMem_append hname hspace (List.mem_of_getLast? h)
  have hread := readMarkup_name hname (markless_append hname hspace) rest
  rw [if_neg hlast] at hread
  have h := eventsFrom_tag_opening hread names offset
  rw [openingName_append hname hspace] at h
  exact ⟨_, h⟩

/-- The tag that closes the innermost element gives one event. -/
theorem eventsFrom_closing (h : chunk ∈ closing name) (names : List (List Char)) (offset : Nat)
    (rest : List Char) :
    ∃ after, eventsFrom (name.toList :: names) offset (chunk ++ rest) =
      (eventsFrom names after rest).cons (.closed name.toList) := by
  obtain ⟨space, hspace, rfl⟩ := h
  have hmarkless : Markless ('/' :: (name.toList ++ space)) :=
    List.forall_mem_cons.2 ⟨by decide, markless_append hname hspace⟩
  have hread : readMarkup ('/' :: (name.toList ++ space) ++ ['>'] ++ rest) =
      .ok (.closing (name.toList ++ space), ('/' :: (name.toList ++ space) ++ ['>']).length) :=
    readTag_append hmarkless rest
  have h := eventsFrom_tag_closing hread names offset
  rw [closingName_append hname hspace] at h
  exact ⟨_, h⟩

/-- The tag of an element without content is skipped. -/
theorem eventsFrom_selfClosing (h : chunk ∈ selfClosing name) (names : List (List Char))
    (offset : Nat) (rest : List Char) :
    ∃ after, eventsFrom names offset (chunk ++ rest) = eventsFrom names after rest := by
  obtain ⟨space, hspace, rfl⟩ := h
  have hmarkless : Markless (name.toList ++ (space ++ ['/'])) := by
    rw [← List.append_assoc]
    exact List.forall_mem_append.2 ⟨markless_append hname hspace,
      List.forall_mem_singleton.2 (by decide)⟩
  have hread := readMarkup_name hname hmarkless rest
  rw [if_pos (by simp [List.getLast?_append])] at hread
  have hcons : '<' :: (name.toList ++ space ++ ['/', '>']) ++ rest =
      '<' :: (name.toList ++ (space ++ ['/']) ++ ['>'] ++ rest) := by simp
  exact ⟨_, by rw [hcons, eventsFrom_silent hread]⟩

end Names

/-! ### Texts -/

/-- A text gives one event without the white space around it. -/
theorem eventsFrom_text (hless : '<' ∉ raw) (hne : raw ≠ []) (htrim : trim raw = raw)
    (hspace : space ∈ spaces) (names : List (List Char)) (offset : Nat) (rest : List Char) :
    ∃ after, eventsFrom names offset (raw ++ (space ++ '<' :: rest)) =
      (eventsFrom names after ('<' :: rest)).cons (.text raw after) := by
  obtain ⟨c, cs, rfl⟩ := List.exists_cons_of_ne_nil hne
  obtain ⟨hc, hcs⟩ := not_or.1 (mt List.mem_cons.2 hless)
  have hstop : ∀ d ∈ cs ++ space, (d != '<') = true :=
    List.forall_mem_append.2 ⟨fun d hd => bne_iff_ne.2 fun h => hcs (h ▸ hd), fun d hd =>
      bne_iff_ne.2 fun h => absurd (hspace d hd) (by rw [h]; decide)⟩
  have htake : (cs ++ (space ++ '<' :: rest)).takeWhile (· != '<') = cs ++ space := by
    rw [← List.append_assoc, List.takeWhile_append_of_pos hstop,
      List.takeWhile_cons_of_neg (by decide), List.append_nil]
  have hdrop : (cs ++ (space ++ '<' :: rest)).drop (cs ++ space).length = '<' :: rest := by
    rw [← List.append_assoc, List.drop_left]
  have hraw : trim (c :: (cs ++ space)) = c :: cs :=
    (@Text.strip_surrounded _ [] space (by simp) hspace (c :: cs)).trans htrim
  refine ⟨offset + c.utf8Size + Text.byteLength (cs ++ space), ?_⟩
  rw [List.cons_append, eventsFrom, if_neg (Ne.symm hc)]
  simp only [htake, hdrop, hraw]
  rfl

end Steplib.Markup
