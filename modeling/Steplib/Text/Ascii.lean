/-!
# ASCII letter case

Names of modules, libraries, keywords and rule codes are compared without regard to the case of
the letters `A` to `Z`; every other character stands for itself. The canonical spelling of a name
is its upper-case form.
-/

namespace Steplib.Ascii

/-- The text with the letters `a` to `z` raised to upper case. -/
def upper (s : String) : String :=
  String.ofList (s.toList.map Char.toUpper)

/-- The text with the letters `A` to `Z` lowered. -/
def lower (s : String) : String :=
  String.ofList (s.toList.map Char.toLower)

/-- Two texts agree up to the case of the letters `A` to `Z`. -/
def eqIgnoreCase (a b : String) : Bool :=
  upper a == upper b

@[simp]
theorem toList_upper (s : String) : (upper s).toList = s.toList.map Char.toUpper :=
  String.toList_ofList

/-- Raising a character changes only the letters `a` to `z`, and gives one of the letters `A` to `Z`
for them. -/
theorem toUpper_cases (c : Char) :
    c.toUpper = c ∨ c.isLower = true ∧ c.toUpper.isUpper = true := by
  -- no module of Mathlib passes on lemmas about letter case, so this starts from the definitions
  by_cases h : 'a'.val ≤ c.val ∧ c.val ≤ 'z'.val
  · have hlower : c.isLower = true :=
      Bool.and_eq_true_iff.2 ⟨decide_eq_true h.1, decide_eq_true h.2⟩
    have hraised : c.toUpper.val = c.val + ('A'.val - 'a'.val) := by
      delta Char.toUpper
      rw [dif_pos h]
    refine .inr ⟨hlower, decide_eq_true ?_⟩
    simp only [UInt32.le_iff_toNat_le] at h
    rw [hraised, ge_iff_le, UInt32.le_iff_toNat_le, UInt32.le_iff_toNat_le, UInt32.toNat_add]
    have ha : 'a'.val.toNat = 97 := rfl
    have hz : 'z'.val.toNat = 122 := rfl
    have hA : 'A'.val.toNat = 65 := rfl
    have hZ : 'Z'.val.toNat = 90 := rfl
    have hshift : ('A'.val - 'a'.val).toNat = 2 ^ 32 - 32 := by decide
    omega
  · exact .inl (dif_neg h)

/-- The upper-case form of a text is in upper case. -/
@[simp]
theorem upper_upper (s : String) : upper (upper s) = upper s := by
  rw [upper, toList_upper, List.map_map]
  refine congrArg String.ofList (List.map_congr_left fun c _ => ?_)
  rcases toUpper_cases c with h | ⟨-, h⟩
  · rw [Function.comp_apply, h, h]
  · -- `Z` stands before `a`
    have hlast : c.toUpper.val ≤ 'Z'.val := (of_decide_eq_true h).2
    exact dif_neg fun hlower => absurd (UInt32.le_trans hlower.1 hlast) (by decide)

/-- Agreement up to case is equality of the upper-case forms. -/
theorem eqIgnoreCase_iff {a b : String} : eqIgnoreCase a b = true ↔ upper a = upper b :=
  beq_iff_eq

theorem eqIgnoreCase_refl (a : String) : eqIgnoreCase a a = true :=
  eqIgnoreCase_iff.2 rfl

theorem eqIgnoreCase_comm (a b : String) : eqIgnoreCase a b = eqIgnoreCase b a := by
  simp only [eqIgnoreCase, Bool.beq_comm]

end Steplib.Ascii
