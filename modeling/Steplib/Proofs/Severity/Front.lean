import Mathlib.Computability.Language
import Steplib.Severity.Glob

/-!
# Fronts and languages

The description of a text by the parts of a pattern is followed as a front, which marks the places
of the text that the description can have reached. A front stands for a language: the place after
a piece of the text is marked exactly when that piece belongs to the language. A step by a part is
then the product with the language of the part, so that no choice of how to divide the text is
missed.

## Main definitions

* `Glob.Symbol.language`, `Glob.Part.language`: the texts that a symbol and a part describe.
* `Glob.Front.Marks`: the front marks the places that the pieces in a language lead to.

## Main results

* `Glob.Symbol.marks_step`, `Glob.Part.marks_step`: a step is the product with a language.
* `Glob.accepts_iff`: a text is accepted exactly when it is in the product of the languages of the
  parts.
-/

namespace Steplib.Glob

/-! ### The languages -/

/-- The texts of one character that passes the test. -/
def single (test : Char → Bool) : Language Char :=
  {cs | ∃ c, test c = true ∧ cs = [c]}

/-- The texts whose characters all pass the test. -/
def every (test : Char → Bool) : Language Char :=
  {cs | ∀ c ∈ cs, test c = true}

/-- The texts that a symbol describes. -/
def Symbol.language : Symbol → Language Char
  | char c => single (Text.sameFold c)
  | one => single (· != '/')
  | many => every (· != '/')
  | deep => every (· != '\n')
  | directories => 1 + every (· != '\n') * single (· == '/')

/-- The texts that a sequence of symbols describes. -/
def sequenceLanguage (symbols : List Symbol) : Language Char :=
  (symbols.map Symbol.language).prod

/-- The texts that a part describes. -/
def Part.language : Part → Language Char
  | symbol s => s.language
  | group alternatives => (alternatives.map sequenceLanguage).sum

/-- The texts that the parts of a pattern describe. -/
def partsLanguage (parts : List Part) : Language Char :=
  (parts.map Part.language).prod

variable {c : Char} {test : Char → Bool} {text : List Char} {l m : Language Char}

theorem partsLanguage_cons (p : Part) (parts : List Part) :
    partsLanguage (p :: parts) = p.language * partsLanguage parts := by
  rw [partsLanguage, List.map_cons, List.prod_cons, partsLanguage]

theorem partsLanguage_symbols (symbols : List Symbol) :
    partsLanguage (symbols.map .symbol) = sequenceLanguage symbols := by
  rw [partsLanguage, sequenceLanguage, List.map_map]
  rfl

theorem mem_sum_iff {ls : List (Language Char)} : text ∈ ls.sum ↔ ∃ l ∈ ls, text ∈ l := by
  induction ls with
  | nil => simp [Language.notMem_zero]
  | cons l ls ih => simp [Language.mem_add, ih]

theorem mem_every_bne : text ∈ every (· != c) ↔ c ∉ text := by
  refine Iff.trans (forall₂_congr fun d _ => bne_iff_ne) ?_
  exact ⟨fun h hmem => h c hmem rfl, fun h d hd heq => h (heq ▸ hd)⟩

theorem mem_directories_iff :
    text ∈ Symbol.directories.language ↔ text = [] ∨ ∃ s, '\n' ∉ s ∧ text = s ++ ['/'] := by
  rw [Symbol.language, Language.mem_add, Language.mem_one]
  refine or_congr_right ⟨?_, ?_⟩
  · rintro ⟨s, hs, _, ⟨c, hc, rfl⟩, rfl⟩
    exact ⟨s, mem_every_bne.1 hs, by rw [eq_of_beq hc]⟩
  · rintro ⟨s, hs, rfl⟩
    exact ⟨s, mem_every_bne.2 hs, ['/'], ⟨'/', rfl, rfl⟩, rfl⟩

theorem append_singleton_mem_mul_single {cs : List Char} {c : Char} :
    cs ++ [c] ∈ l * single test ↔ cs ∈ l ∧ test c = true := by
  rw [Language.mem_mul]
  constructor
  · rintro ⟨before, hmem, _, ⟨d, hd, rfl⟩, heq⟩
    obtain ⟨rfl, hc⟩ := List.append_inj' heq rfl
    obtain rfl := List.singleton_inj.1 hc
    exact ⟨hmem, hd⟩
  · rintro ⟨hmem, hc⟩
    exact ⟨cs, hmem, [c], ⟨c, hc, rfl⟩, rfl⟩

theorem nil_notMem_mul_single : [] ∉ l * single test := by
  rw [Language.mem_mul]
  rintro ⟨before, -, _, ⟨d, -, rfl⟩, heq⟩
  simp at heq

/-- A text in a product with `every` is divided at one of its places. -/
theorem mem_mul_every {cs : List Char} :
    cs ∈ l * every test ↔ ∃ k ≤ cs.length, cs.take k ∈ l ∧ ∀ c ∈ cs.drop k, test c = true := by
  rw [Language.mem_mul]
  constructor
  · rintro ⟨before, hbefore, after, hafter, rfl⟩
    refine ⟨before.length, by simp, ?_, ?_⟩
    · rwa [List.take_left]
    · rwa [List.drop_left]
  · rintro ⟨k, -, hbefore, hafter⟩
    exact ⟨_, hbefore, _, hafter, List.take_append_drop k cs⟩

/-! ### The places that a front marks -/

namespace Front

variable {f g : Front}

/-- The front marks the place after every piece of the text that is in the language, and no other
place. -/
structure Marks (f : Front) (text : List Char) (l : Language Char) : Prop where
  length : f.length = text.length + 1
  marked : ∀ n (h : n < f.length), f[n] = true ↔ text.take n ∈ l

theorem marks_start (text : List Char) : (start text).Marks text 1 where
  length := by simp [start]
  marked n h := by
    rw [Language.mem_one]
    cases n with
    | zero => simp [start]
    | succ n =>
      have hn : n < text.length := by simpa [start] using h
      have hne : text ≠ [] := List.ne_nil_of_length_pos (Nat.zero_lt_of_lt hn)
      simp [start, hne]

theorem Marks.none (h : f.Marks text l) : Marks (f.map fun _ => false) text 0 where
  length := by simpa using h.length
  marked n hn := by simp [Language.notMem_zero]

theorem Marks.union (hf : f.Marks text l) (hg : g.Marks text m) :
    (f.union g).Marks text (l + m) where
  length := by simp [Front.union, hf.length, hg.length]
  marked n hn := by
    have hlength : n < f.length ∧ n < g.length := by simpa [Front.union] using hn
    simp only [Front.union, List.getElem_zipWith, Bool.or_eq_true, Language.mem_add]
    rw [hf.marked n hlength.1, hg.marked n hlength.2]

theorem Marks.advance (h : f.Marks text l) (test : Char → Bool) :
    (f.advance test text).Marks text (l * single test) where
  length := by simp [Front.advance, h.length]
  marked n hn := by
    cases n with
    | zero => simp [Front.advance, nil_notMem_mul_single]
    | succ n =>
      have hlength : n < f.length ∧ n < text.length := by simpa [Front.advance] using hn
      rw [List.take_succ_eq_append_getElem hlength.2, append_singleton_mem_mul_single,
        ← h.marked n hlength.1]
      simp only [Front.advance, List.getElem_cons_succ, List.getElem_zipWith, Bool.and_eq_true]

/-- A place is reached from a marked one before it, or from the start if that is carried over, by
characters that all pass the test. -/
theorem spreadFrom_spec (test : Char → Bool) (carried : Bool)
    (hlength : f.length = text.length + 1) :
    (spreadFrom test carried text f).length = f.length ∧
    ∀ n (h : n < (spreadFrom test carried text f).length),
      (spreadFrom test carried text f)[n] = true ↔
        carried = true ∧ (∀ c ∈ text.take n, test c = true) ∨
        ∃ k ≤ n, f[k]? = some true ∧ ∀ c ∈ (text.take n).drop k, test c = true := by
  induction text generalizing f carried with
  | nil =>
    obtain ⟨here, rfl⟩ := List.length_eq_one_iff.1 hlength
    refine ⟨rfl, fun n h => ?_⟩
    obtain rfl : n = 0 := by simpa [spreadFrom] using h
    simp [spreadFrom]
  | cons c text ih =>
    cases f with
    | nil => simp at hlength
    | cons here f =>
      obtain ⟨hlen, hspec⟩ := ih ((carried || here) && test c) (Nat.succ.inj hlength)
      refine ⟨by simp [spreadFrom, hlen], fun n h => ?_⟩
      cases n with
      | zero => simp [spreadFrom]
      | succ n =>
        have hn : n < (spreadFrom test ((carried || here) && test c) text f).length := by
          simpa [spreadFrom] using h
        simp only [spreadFrom, List.getElem_cons_succ, hspec n hn, List.take_succ_cons,
          List.forall_mem_cons, Bool.and_eq_true, Bool.or_eq_true]
        -- a marked place is the first one or lies in the rest
        constructor
        · rintro (⟨⟨hcarried | hhere, hc⟩, hall⟩ | ⟨k, hk, hmark, hall⟩)
          · exact .inl ⟨hcarried, hc, hall⟩
          · exact .inr ⟨0, by omega, by simpa using hhere, by simpa using ⟨hc, hall⟩⟩
          · exact .inr ⟨k + 1, by omega, by simpa using hmark, by simpa using hall⟩
        · rintro (⟨hcarried, hc, hall⟩ | ⟨k, hk, hmark, hall⟩)
          · exact .inl ⟨⟨.inl hcarried, hc⟩, hall⟩
          · cases k with
            | zero =>
              obtain ⟨hc, hall⟩ : test c = true ∧ ∀ d ∈ text.take n, test d = true := by
                simpa using hall
              exact .inl ⟨⟨.inr (by simpa using hmark), hc⟩, hall⟩
            | succ k => exact .inr ⟨k, by omega, by simpa using hmark, by simpa using hall⟩

theorem Marks.spread (h : f.Marks text l) (test : Char → Bool) :
    (f.spread test text).Marks text (l * every test) := by
  obtain ⟨hlength, hspec⟩ := spreadFrom_spec test false h.length
  refine ⟨hlength.trans h.length, fun n hn => (hspec n hn).trans ?_⟩
  have hle : n ≤ text.length := by
    have : n < text.length + 1 := by rw [← h.length, ← hlength]; exact hn
    omega
  rw [mem_mul_every, List.length_take_of_le hle]
  simp only [Bool.false_eq_true, false_and, false_or]
  refine exists_congr fun k => and_congr_right fun hk => and_congr_left fun _ => ?_
  have hkf : k < f.length := by rw [h.length]; omega
  rw [List.getElem?_eq_getElem hkf, Option.some_inj, h.marked k hkf, List.take_take,
    Nat.min_eq_left hk]

/-- The end of the text is marked exactly when the whole text is in the language. -/
theorem Marks.atEnd_iff (h : f.Marks text l) : f.atEnd = true ↔ text ∈ l := by
  have hlast : text.length < f.length := by rw [h.length]; omega
  have heq : f.getLast? = some f[text.length] := by
    rw [List.getLast?_eq_getElem?, h.length, Nat.add_sub_cancel, List.getElem?_eq_getElem hlast]
  rw [Front.atEnd, heq, Option.getD_some, h.marked _ hlast, List.take_length]

end Front

/-! ### Steps -/

variable {f : Front}

/-- A step by a symbol is the product with the language of the symbol. -/
theorem Symbol.marks_step (h : f.Marks text l) (s : Symbol) :
    (s.step text f).Marks text (l * s.language) := by
  cases s with
  | char c => exact h.advance _
  | one => exact h.advance _
  | many => exact h.spread _
  | deep => exact h.spread _
  | directories =>
    rw [language, mul_add, mul_one, ← mul_assoc]
    exact h.union ((h.spread _).advance _)

theorem marks_sequence (h : f.Marks text l) (symbols : List Symbol) :
    (sequence text f symbols).Marks text (l * sequenceLanguage symbols) := by
  induction symbols generalizing f l with
  | nil => simpa [sequence, sequenceLanguage] using h
  | cons s symbols ih =>
    rw [sequenceLanguage, List.map_cons, List.prod_cons, ← mul_assoc]
    exact ih (s.marks_step h)

/-- A step by a part is the product with the language of the part. -/
theorem Part.marks_step (h : f.Marks text l) (p : Part) :
    (p.step text f).Marks text (l * p.language) := by
  cases p with
  | symbol s => exact s.marks_step h
  | group alternatives =>
    -- the union is taken over the alternatives that have been followed so far
    have hunion (reached : Front) (m : Language Char) (hreached : reached.Marks text m) :
        Front.Marks
          (alternatives.foldl (fun reached a => reached.union (sequence text f a)) reached)
          text (m + l * (alternatives.map sequenceLanguage).sum) := by
      induction alternatives generalizing reached m with
      | nil => simpa using hreached
      | cons a alternatives ih =>
        rw [List.map_cons, List.sum_cons, mul_add, ← add_assoc]
        exact ih _ _ (hreached.union (marks_sequence h a))
    have hgroup := hunion _ 0 h.none
    rwa [zero_add] at hgroup

theorem marks_foldl (h : f.Marks text l) (parts : List Part) :
    Front.Marks (parts.foldl (Part.step text) f) text (l * partsLanguage parts) := by
  induction parts generalizing f l with
  | nil => simpa [partsLanguage] using h
  | cons p parts ih =>
    rw [partsLanguage, List.map_cons, List.prod_cons, ← mul_assoc]
    exact ih (p.marks_step h)

/-- A text is accepted exactly when the parts describe pieces of it, one after the other. -/
theorem accepts_iff (parts : List Part) (text : List Char) :
    accepts parts text = true ↔ text ∈ partsLanguage parts := by
  have h := marks_foldl (Front.marks_start text) parts
  rw [one_mul] at h
  exact h.atEnd_iff

end Steplib.Glob
