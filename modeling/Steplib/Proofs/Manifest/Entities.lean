import Mathlib.Computability.Language
import Mathlib.Data.Nat.Digits.Defs
import Mathlib.Tactic.Ring
import Steplib.Manifest.Entity

/-!
# Escaped texts

A character can be written as itself, unless it is a mark of markup, by its name if it has one, and
by its number in either base. Every way of writing the characters of a text one after the other is
read back as the text, since an entity ends at the first semicolon and nothing but an entity begins
with an ampersand.

## Main definitions

* `Markup.Numeral`: the digits of a number in a base.
* `Markup.Escapes`: a way of writing one character.
* `Markup.spellings`: the ways of writing a text.

## Main results

* `Markup.reference_eq_ok`: what is read from the number of a character.
* `Markup.unescape_of_mem_spellings`: every way of writing a text is read back as the text.
* `Markup.less_notMem_of_mem_spellings`, `Markup.ends_of_mem_spellings`: what shows of the text.
-/

namespace Steplib.Markup

/-! ### Ways of writing a text -/

/-- The characters that have a name. -/
def predefined : List (String × Char) :=
  [("lt", '<'), ("gt", '>'), ("amp", '&'), ("apos", '\''), ("quot", '"')]

/-- The character is the digit for a value, in either letter case. -/
def IsDigit (c : Char) (value : Nat) : Prop :=
  c = value.digitChar ∨ c = value.digitChar.toUpper

/-- The characters are the digits of a number, at least one, in a base. -/
def Numeral (radix : Nat) (cs : List Char) (n : Nat) : Prop :=
  cs ≠ [] ∧ ∃ values : List Nat, (∀ d ∈ values, d < radix) ∧ List.Forall₂ IsDigit cs values ∧
    Nat.ofDigits radix values.reverse = n

/-- A way of writing a character. -/
inductive Escapes : (c : Char) → (piece : List Char) → Prop
  | plain {c : Char} (hless : c ≠ '<') (hampersand : c ≠ '&') : Escapes c [c]
  | named {name : String} {c : Char} (h : (name, c) ∈ predefined) :
      Escapes c ('&' :: (name.toList ++ [';']))
  | decimal {digits : List Char} {c : Char} (h : Numeral 10 digits c.toNat) (hc : c ≠ '\x00') :
      Escapes c ('&' :: '#' :: (digits ++ [';']))
  | hexadecimal {digits : List Char} {c : Char} (h : Numeral 16 digits c.toNat) (hc : c ≠ '\x00') :
      Escapes c ('&' :: '#' :: 'x' :: (digits ++ [';']))

/-- The ways of writing a character. -/
def spelling (c : Char) : Language Char :=
  {piece | Escapes c piece}

/-- The ways of writing a text, each character in any way. -/
def spellings (cs : List Char) : Language Char :=
  (cs.map spelling).prod

variable {c : Char} {cs name piece raw : List Char} {n : Nat}

theorem mem_spellings_cons :
    raw ∈ spellings (c :: cs) ↔ ∃ piece rest, Escapes c piece ∧ rest ∈ spellings cs ∧
      raw = piece ++ rest := by
  rw [spellings, List.map_cons, List.prod_cons, Language.mem_mul]
  constructor
  · rintro ⟨piece, hpiece, rest, hrest, rfl⟩
    exact ⟨piece, rest, hpiece, hrest, rfl⟩
  · rintro ⟨piece, rest, hpiece, hrest, rfl⟩
    exact ⟨piece, hpiece, rest, hrest, rfl⟩

theorem mem_spellings_nil : raw ∈ spellings [] ↔ raw = [] :=
  Language.mem_one raw

/-- A text without marks of markup can be written as itself. -/
theorem self_mem_spellings (hless : '<' ∉ cs) (hampersand : '&' ∉ cs) : cs ∈ spellings cs := by
  induction cs with
  | nil => exact mem_spellings_nil.2 rfl
  | cons c cs ih =>
    obtain ⟨hc, hless⟩ := not_or.1 (mt List.mem_cons.2 hless)
    obtain ⟨hc', hampersand⟩ := not_or.1 (mt List.mem_cons.2 hampersand)
    exact mem_spellings_cons.2
      ⟨[c], cs, .plain (Ne.symm hc) (Ne.symm hc'), ih hless hampersand, rfl⟩

/-- Every character can be written. -/
theorem exists_escapes (c : Char) : ∃ piece, Escapes c piece := by
  by_cases hless : c = '<'
  · exact ⟨_, @Escapes.named "lt" c (by rw [hless]; decide)⟩
  · by_cases hampersand : c = '&'
    · exact ⟨_, @Escapes.named "amp" c (by rw [hampersand]; decide)⟩
    · exact ⟨_, .plain hless hampersand⟩

/-- Every text can be written. -/
theorem exists_mem_spellings (cs : List Char) : ∃ raw, raw ∈ spellings cs := by
  induction cs with
  | nil => exact ⟨[], mem_spellings_nil.2 rfl⟩
  | cons c cs ih =>
    obtain ⟨piece, hpiece⟩ := exists_escapes c
    obtain ⟨rest, hrest⟩ := ih
    exact ⟨_, mem_spellings_cons.2 ⟨piece, rest, hpiece, hrest, rfl⟩⟩

/-! ### Numbers -/

theorem hexDigit?_of_isDigit {d : Nat} (hd : d < 16) (h : IsDigit c d) : hexDigit? c = some d := by
  have hall : ∀ d < 16, hexDigit? d.digitChar = some d ∧
      hexDigit? d.digitChar.toUpper = some d := by decide
  rcases h with rfl | rfl
  · exact (hall d hd).1
  · exact (hall d hd).2

theorem decimalDigit?_of_isDigit {d : Nat} (hd : d < 10) (h : IsDigit c d) :
    decimalDigit? c = some d := by
  have hall : ∀ d < 10, decimalDigit? d.digitChar = some d ∧
      decimalDigit? d.digitChar.toUpper = some d := by decide
  rcases h with rfl | rfl
  · exact (hall d hd).1
  · exact (hall d hd).2

/-- A digit is read after the number before it, if the result fits. -/
theorem addDigits_cons {digit? : Char → Option Nat} {radix d : Nat} (hc : digit? c = some d)
    (hfits : n * radix + d < 2 ^ 32) (cs : List Char) :
    addDigits digit? radix n (c :: cs) = addDigits digit? radix (n * radix + d) cs := by
  conv_lhs => whnf
  rw [hc]
  exact if_pos hfits

section Numbers

variable {digit? : Char → Option Nat} {radix : Nat}
  (hdigit : ∀ c d, d < radix → IsDigit c d → digit? c = some d)

include hdigit

/-- The digits of a number that fits are read on from the number before them. -/
theorem addDigits_eq_ok {values : List Nat} (hvalues : ∀ d ∈ values, d < radix)
    (h : List.Forall₂ IsDigit cs values)
    (hfits : n * radix ^ values.length + Nat.ofDigits radix values.reverse < 2 ^ 32) :
    addDigits digit? radix n cs =
      .ok (n * radix ^ values.length + Nat.ofDigits radix values.reverse) := by
  induction h generalizing n with
  | nil => exact congrArg Except.ok (by simp)
  | @cons c d cs values hc _ ih =>
    obtain ⟨hd, hvalues⟩ := List.forall_mem_cons.1 hvalues
    have hpos : 0 < radix ^ values.length := Nat.pow_pos (Nat.zero_lt_of_lt hd)
    -- the digit counts as many times as the digits after it can tell apart
    have hshift : n * radix ^ (d :: values).length + Nat.ofDigits radix (d :: values).reverse =
        (n * radix + d) * radix ^ values.length + Nat.ofDigits radix values.reverse := by
      simp only [List.length_cons, List.reverse_cons, Nat.ofDigits_append, Nat.ofDigits_singleton,
        List.length_reverse]
      ring
    rw [hshift] at hfits ⊢
    have hle : n * radix + d ≤ (n * radix + d) * radix ^ values.length :=
      Nat.le_mul_of_pos_right _ hpos
    rw [addDigits_cons (hdigit c d hd hc) (by omega), ih hvalues hfits]

theorem number_eq_ok (h : Numeral radix cs n) (hfits : n < 2 ^ 32)
    (hsign : digit? '+' = none ∧ digit? '-' = none) : number digit? radix cs = .ok n := by
  obtain ⟨hne, values, hvalues, hforall, rfl⟩ := h
  have hread := addDigits_eq_ok hdigit (n := 0) hvalues hforall (by simpa using hfits)
  cases hforall with
  | nil => exact absurd rfl hne
  | @cons c d cs values hc _ =>
    have hc := hdigit c d (hvalues d List.mem_cons_self) hc
    have hplus : c ≠ '+' := by rintro rfl; rw [hsign.1] at hc; cases hc
    have hminus : c ≠ '-' := by rintro rfl; rw [hsign.2] at hc; cases hc
    simp only [number, beq_false_of_ne hplus, beq_false_of_ne hminus, Bool.or_self,
      Bool.false_eq_true, if_false, hread, Nat.zero_mul, Nat.zero_add]

end Numbers

theorem toNat_lt (c : Char) : c.toNat < 2 ^ 32 :=
  c.val.toNat_lt

/-- The number of a character, in either base, is read as the character. -/
theorem reference_eq_ok (hc : c ≠ '\x00')
    (h : Numeral 10 cs c.toNat ∨ ∃ digits, cs = 'x' :: digits ∧ Numeral 16 digits c.toNat) :
    reference cs = .ok c := by
  have hzero : c.toNat ≠ 0 := fun h => hc (Char.toNat_inj.1 h)
  have hvalid : c.toNat.isValidChar := c.valid
  have hcode : (if c.toNat = 0 then throw ReferenceError.zero
      else if c.toNat.isValidChar then return Char.ofNat c.toNat
      else throw (ReferenceError.notCharacter c.toNat) : Except ReferenceError Char) = .ok c := by
    rw [if_neg hzero, if_pos hvalid, Char.ofNat_toNat]
    rfl
  rcases h with h | ⟨digits, rfl, h⟩
  · have hnumber := number_eq_ok (fun _ _ => decimalDigit?_of_isDigit) h (toNat_lt c) (by decide)
    have hx : ∀ digits, cs ≠ 'x' :: digits := by
      rintro digits rfl
      obtain ⟨_, values, hvalues, hforall, _⟩ := h
      obtain ⟨d, values, hd, -, rfl⟩ := List.forall₂_cons_left_iff.1 hforall
      have hread := decimalDigit?_of_isDigit (hvalues d List.mem_cons_self) hd
      cases hread
    simp only [reference, hnumber]
    exact hcode
  · have hnumber := number_eq_ok (fun _ _ => hexDigit?_of_isDigit) h (toNat_lt c) (by decide)
    simp only [reference, hnumber]
    exact hcode

/-! ### Entities -/

/-- What holds of every digit holds of the digits of a number. -/
theorem forall_mem_of_numeral {radix : Nat} {test : Char → Bool} (hradix : radix ≤ 16)
    (hall : ∀ d < 16, test d.digitChar = true ∧ test d.digitChar.toUpper = true)
    (h : Numeral radix cs n) : ∀ c ∈ cs, test c = true := by
  obtain ⟨-, values, hvalues, hforall, -⟩ := h
  induction hforall with
  | nil => simp
  | @cons c d cs values hc _ ih =>
    obtain ⟨hd, hvalues⟩ := List.forall_mem_cons.1 hvalues
    refine List.forall_mem_cons.2 ⟨?_, ih hvalues⟩
    rcases hc with rfl | rfl
    · exact (hall d (hd.trans_le hradix)).1
    · exact (hall d (hd.trans_le hradix)).2

theorem isEntityPart_of_numeral {radix : Nat} (hradix : radix ≤ 16) (h : Numeral radix cs n) :
    ∀ d ∈ cs, isEntityPart d = true :=
  forall_mem_of_numeral hradix (by decide) h

theorem less_notMem_of_numeral {radix : Nat} (hradix : radix ≤ 16) (h : Numeral radix cs n) :
    '<' ∉ cs := fun hmem =>
  absurd (@forall_mem_of_numeral _ _ _ (· != '<') hradix (by decide) h _ hmem) (by decide)

theorem entity_number (h : reference cs = .ok c) (start : Nat) :
    entity start ('#' :: cs) = .ok c := by
  simp only [entity, h]

theorem entity_predefined {p : String × Char} (h : p ∈ predefined) (start : Nat) :
    entity start p.1.toList = .ok p.2 := by
  simp only [predefined, List.mem_cons, List.not_mem_nil, or_false] at h
  rcases h with rfl | rfl | rfl | rfl | rfl <;> rfl

/-- A character is written as itself or as an entity that is read as the character. -/
theorem Escapes.plain_or_entity (h : Escapes c piece) :
    (piece = [c] ∧ c ≠ '<' ∧ c ≠ '&') ∨
      ∃ name, piece = '&' :: (name ++ [';']) ∧ (∀ d ∈ name, isEntityPart d = true) ∧
        ∀ start, entity start name = .ok c := by
  have hnumber {number : List Char} (h : ∀ d ∈ number, isEntityPart d = true)
      (hread : reference number = .ok c) :
      (∀ d ∈ '#' :: number, isEntityPart d = true) ∧
        ∀ start, entity start ('#' :: number) = .ok c :=
    ⟨List.forall_mem_cons.2 ⟨by decide, h⟩, entity_number hread⟩
  cases h with
  | plain hless hampersand => exact .inl ⟨rfl, hless, hampersand⟩
  | @named name _ h =>
    have hall : ∀ p ∈ predefined, p.1.toList.all isEntityPart = true := by decide
    exact .inr ⟨_, rfl, List.all_eq_true.1 (hall _ h), entity_predefined h⟩
  | @decimal digits _ h hc =>
    exact .inr ⟨_, rfl, hnumber (isEntityPart_of_numeral (by decide) h)
      (reference_eq_ok hc (.inl h))⟩
  | @hexadecimal digits _ h hc =>
    have hparts := isEntityPart_of_numeral (by decide) h
    exact .inr ⟨_, rfl, hnumber (List.forall_mem_cons.2 ⟨by decide, hparts⟩)
      (reference_eq_ok hc (.inr ⟨digits, rfl, h⟩))⟩

/-- An entity is read up to its semicolon. -/
theorem unescapeFrom_entity (hname : ∀ d ∈ name, isEntityPart d = true)
    (hentity : ∀ start, entity start name = .ok c) (total offset : Nat) (rest : List Char) :
    unescapeFrom total offset ('&' :: (name ++ ';' :: rest)) = (do
      let more ← unescapeFrom total (offset + 2 + Text.byteLength name) rest
      return c :: more) := by
  have htake : (name ++ ';' :: rest).takeWhile isEntityPart = name := by
    rw [List.takeWhile_append_of_pos hname, List.takeWhile_cons_of_neg (by decide), List.append_nil]
  rw [unescapeFrom, if_pos rfl]
  simp only [htake, List.drop_left, List.drop_one, List.tail_cons, hentity]
  rfl

theorem unescapeFrom_of_mem_spellings (h : raw ∈ spellings cs) (total offset : Nat) :
    unescapeFrom total offset raw = .ok cs := by
  induction cs generalizing raw offset with
  | nil => rw [mem_spellings_nil.1 h, unescapeFrom]
  | cons c cs ih =>
    obtain ⟨piece, rest, hpiece, hrest, rfl⟩ := mem_spellings_cons.1 h
    rcases hpiece.plain_or_entity with ⟨rfl, hless, hampersand⟩ | ⟨name, rfl, hname, hentity⟩
    · rw [List.singleton_append, unescapeFrom, if_neg hampersand, ih hrest]
      rfl
    · rw [List.cons_append, List.append_assoc, List.singleton_append,
        unescapeFrom_entity hname hentity, ih hrest]
      rfl

/-- Every way of writing a text is read back as the text. -/
theorem unescape_of_mem_spellings (h : raw ∈ spellings cs) : unescape raw = .ok cs :=
  unescapeFrom_of_mem_spellings h _ _

/-! ### What shows of a text that is written -/

theorem less_notMem_of_escapes (h : Escapes c piece) : '<' ∉ piece := by
  cases h with
  | plain hless _ => simp [Ne.symm hless]
  | @named name _ h =>
    have hall : ∀ p ∈ predefined, '<' ∉ p.1.toList := by decide
    simp [hall _ h]
  | decimal h _ => simp [less_notMem_of_numeral (by decide) h]
  | hexadecimal h _ => simp [less_notMem_of_numeral (by decide) h]

/-- No way of writing a text holds the mark of a tag. -/
theorem less_notMem_of_mem_spellings (h : raw ∈ spellings cs) : '<' ∉ raw := by
  induction cs generalizing raw with
  | nil => simp [mem_spellings_nil.1 h]
  | cons c cs ih =>
    obtain ⟨piece, rest, hpiece, hrest, rfl⟩ := mem_spellings_cons.1 h
    simp [less_notMem_of_escapes hpiece, ih hrest]

/-- A way of writing a character is the character or begins and ends as an entity. -/
theorem ends_of_escapes (h : Escapes c piece) :
    (∀ d ∈ piece.head?, d = c ∨ d = '&') ∧ (∀ d ∈ piece.getLast?, d = c ∨ d = ';') ∧
      piece ≠ [] := by
  cases h <;> simp [List.getLast?_append, List.getLast?_cons]

/-- A way of writing a text begins as the text or with an entity, and ends likewise. -/
theorem ends_of_mem_spellings (h : raw ∈ spellings cs) (hcs : cs ≠ []) :
    (∀ d ∈ raw.head?, d ∈ cs.head? ∨ d = '&') ∧ (∀ d ∈ raw.getLast?, d ∈ cs.getLast? ∨ d = ';') ∧
      raw ≠ [] := by
  induction cs generalizing raw with
  | nil => exact absurd rfl hcs
  | cons c cs ih =>
    obtain ⟨piece, rest, hpiece, hrest, rfl⟩ := mem_spellings_cons.1 h
    obtain ⟨hhead, hlast, hne⟩ := ends_of_escapes hpiece
    refine ⟨fun d hd => ?_, fun d hd => ?_, by simp [hne]⟩
    · rw [List.head?_append_of_ne_nil _ hne] at hd
      exact (hhead d hd).imp_left fun h => by simp [h]
    · by_cases hcs : cs = []
      · subst hcs
        rw [mem_spellings_nil.1 hrest, List.append_nil] at hd
        exact (hlast d hd).imp_left fun h => by simp [h]
      · obtain ⟨-, hlast, hne⟩ := ih hrest hcs
        rw [List.getLast?_append_of_ne_nil _ hne] at hd
        rw [List.getLast?_cons_of_ne_nil hcs]
        exact hlast d hd

end Steplib.Markup
