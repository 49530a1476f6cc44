import Mathlib.Data.List.DropRight
import Steplib.Text.Blank
import Steplib.Text.Lines

/-!
# Lines, affixes and stripped ends

Configuration lines and names are stripped of blanks at both ends, texts in markup of white space.
Both are the same operation for different characters. A character that stays keeps what stands
before it apart from what stands after it, which decides the stripped text wherever one such
character is known.

## Main definitions

* `Text.strip`: a text without the characters of some kind at both ends.

## Main results

* `Text.lines_lineFeed`: the lines of a text that begins with a line and its end.
* `Text.strip_append_cons`: stripping on both sides of a character that stays.
* `Text.strip_surrounded`: what is stripped off anyway makes no difference.
* `Text.strip_eq_self_iff`: nothing is stripped off a text whose ends stay.
-/

namespace Steplib.Text

/-! ### Affixes and lines -/

theorem dropTrailing?_eq_some_iff {affix text rest : List Char} :
    dropTrailing? affix text = some rest ↔ text = rest ++ affix := by
  rw [dropTrailing?, Option.map_eq_some_iff]
  constructor
  · rintro ⟨back, hback, rfl⟩
    rw [dropLeading?_eq_some_iff, List.reverse_eq_iff] at hback
    simpa using hback
  · rintro rfl
    exact ⟨rest.reverse, dropLeading?_eq_some_iff.2 (by simp), List.reverse_reverse rest⟩

theorem splitFirst?_append {sep : Char} {a : List Char} (h : sep ∉ a) (b : List Char) :
    splitFirst? sep (a ++ sep :: b) = some (a, b) := by
  induction a with
  | nil => simp [splitFirst?]
  | cons c a ih =>
    obtain ⟨hc, ha⟩ := not_or.1 (mt List.mem_cons.2 h)
    rw [List.cons_append, splitFirst?, if_neg (Ne.symm hc), ih ha]
    rfl

/-- Of a text that begins with a line and its end, the line comes first. -/
theorem lines_lineFeed {line : List Char} (h : '\n' ∉ line) (text : List Char) :
    lines (line ++ '\n' :: text) = chompReturn line :: lines text := by
  have hne := List.splitOn_ne_nil '\n' text
  have hlast : (line :: text.splitOn '\n').getLast? = (text.splitOn '\n').getLast? := by
    cases hs : text.splitOn '\n' with
    | nil => exact absurd hs hne
    | cons first rest => rfl
  simp only [lines, List.splitOn_append_cons_self_of_not_mem h, List.dropLast_cons_of_ne_nil hne,
    List.map_cons, hlast]
  split <;> rfl

/-- A text without line feeds is one line at most. -/
theorem lines_of_notMem {line : List Char} (h : '\n' ∉ line) :
    lines line = if line = [] then [] else [line] := by
  rw [lines, List.splitOn_eq_singleton h]
  cases line <;> rfl

theorem chompReturn_append (line : List Char) : chompReturn (line ++ ['\r']) = line := by
  rw [chompReturn, dropTrailing?_eq_some_iff.2 rfl, Option.getD_some]

theorem chompReturn_cases (line : List Char) :
    chompReturn line = line ∨ line = chompReturn line ++ ['\r'] := by
  rw [chompReturn]
  cases h : dropTrailing? ['\r'] line with
  | none => exact .inl rfl
  | some rest => exact .inr (dropTrailing?_eq_some_iff.1 h)

/-! ### Stripped ends -/

/-- The text without the characters at its ends that pass the test. -/
def strip (test : Char → Bool) (cs : List Char) : List Char :=
  (cs.dropWhile test).rdropWhile test

variable {test : Char → Bool} {a b cs before after : List Char} {c : Char}

theorem dropWhile_append_cons (hc : test c = false) (a b : List Char) :
    (a ++ c :: b).dropWhile test = a.dropWhile test ++ c :: b := by
  induction a with
  | nil => simp [hc]
  | cons d a ih =>
    cases hd : test d with
    | true => simpa [hd] using ih
    | false => simp [hd]

theorem rdropWhile_append_cons (hc : test c = false) (a b : List Char) :
    (a ++ c :: b).rdropWhile test = a ++ c :: b.rdropWhile test := by
  rw [List.rdropWhile, List.reverse_append, List.reverse_cons, List.append_assoc,
    List.singleton_append, dropWhile_append_cons hc, List.reverse_append, List.reverse_cons,
    List.reverse_reverse, List.append_assoc, List.singleton_append, List.rdropWhile]

theorem rdropWhile_append_all (h : ∀ c ∈ b, test c = true) (a : List Char) :
    (a ++ b).rdropWhile test = a.rdropWhile test := by
  rw [List.rdropWhile, List.reverse_append,
    List.dropWhile_append_of_pos (by simpa only [List.mem_reverse] using h), List.rdropWhile]

/-- A character that stays keeps what stands before it apart from what stands after it. -/
theorem strip_append_cons (hc : test c = false) (a b : List Char) :
    strip test (a ++ c :: b) = a.dropWhile test ++ c :: b.rdropWhile test := by
  rw [strip, dropWhile_append_cons hc, rdropWhile_append_cons hc]

theorem strip_eq_nil (h : ∀ c ∈ cs, test c = true) : strip test cs = [] := by
  rw [strip, List.dropWhile_eq_nil_iff.2 h, List.rdropWhile_nil]

/-- A text that is stripped off whole, or a character of it that stays. -/
theorem all_or_exists (test : Char → Bool) (cs : List Char) :
    (∀ c ∈ cs, test c = true) ∨ ∃ a c b, cs = a ++ c :: b ∧ test c = false := by
  by_cases h : ∀ c ∈ cs, test c = true
  · exact .inl h
  · simp only [not_forall, exists_prop] at h
    obtain ⟨c, hmem, hc⟩ := h
    obtain ⟨a, b, rfl⟩ := List.append_of_mem hmem
    exact .inr ⟨a, c, b, rfl, Bool.eq_false_iff.2 hc⟩

/-- What is stripped off anyway makes no difference at the ends. -/
theorem strip_surrounded (hbefore : ∀ c ∈ before, test c = true)
    (hafter : ∀ c ∈ after, test c = true) (cs : List Char) :
    strip test (before ++ cs ++ after) = strip test cs := by
  rcases all_or_exists test cs with h | ⟨a, c, b, rfl, hc⟩
  · rw [strip_eq_nil h, strip_eq_nil]
    simp only [List.forall_mem_append]
    exact ⟨⟨hbefore, h⟩, hafter⟩
  · have heq : before ++ (a ++ c :: b) ++ after = (before ++ a) ++ c :: (b ++ after) := by simp
    rw [heq, strip_append_cons hc, strip_append_cons hc, List.dropWhile_append_of_pos hbefore,
      rdropWhile_append_all hafter]

/-- The end that is stripped off makes no difference. -/
theorem strip_rdropWhile (test : Char → Bool) (cs : List Char) :
    strip test (cs.rdropWhile test) = strip test cs := by
  rcases all_or_exists test cs with h | ⟨a, c, b, rfl, hc⟩
  · rw [strip_eq_nil h,
      strip_eq_nil fun c hmem => h c ((List.rdropWhile_prefix test cs).subset hmem)]
  · rw [rdropWhile_append_cons hc, strip_append_cons hc, strip_append_cons hc,
      List.rdropWhile_idempotent]

theorem dropWhile_eq_self_iff : cs.dropWhile test = cs ↔ ∀ c ∈ cs.head?, test c = false := by
  cases cs <;> simp

theorem rdropWhile_eq_self_iff : cs.rdropWhile test = cs ↔ ∀ c ∈ cs.getLast?, test c = false := by
  rw [← List.head?_reverse, ← dropWhile_eq_self_iff, List.rdropWhile, List.reverse_eq_iff]

/-- The characters of a text that is trimmed are trimmed. -/
theorem trim_toList {s : String} (h : trimmed s = s) : trim s.toList = s.toList := by
  have htoList := congrArg String.toList h
  rwa [trimmed, String.toList_ofList] at htoList

/-- Nothing is stripped off a text exactly when both its ends stay. -/
theorem strip_eq_self_iff : strip test cs = cs ↔
    (∀ c ∈ cs.head?, test c = false) ∧ ∀ c ∈ cs.getLast?, test c = false := by
  rw [← dropWhile_eq_self_iff, ← rdropWhile_eq_self_iff]
  constructor
  · intro h
    have hshort : cs.length ≤ (cs.dropWhile test).length := by
      have hlength := (List.rdropWhile_prefix test (cs.dropWhile test)).length_le
      rwa [show (cs.dropWhile test).rdropWhile test = cs from h] at hlength
    have hstart : cs.dropWhile test = cs := (List.dropWhile_suffix test).eq_of_length_le hshort
    rw [strip, hstart] at h
    exact ⟨hstart, h⟩
  · rintro ⟨hstart, hend⟩
    rw [strip, hstart, hend]

end Steplib.Text
