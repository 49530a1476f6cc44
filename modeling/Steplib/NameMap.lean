/-!
# Maps keyed by names

A map holds one value per name. Names are compared as they are; who looks a name up in any letter
case passes its upper-case form.
-/

namespace Steplib

/-- A map from names to values. -/
structure NameMap (α : Type) where
  entries : List (String × α) := []
deriving DecidableEq, Repr

namespace NameMap

variable {α : Type}

/-- The map without entries. -/
def empty : NameMap α := {}

instance : Inhabited (NameMap α) := ⟨empty⟩

/-- The value of a name. -/
def get? (m : NameMap α) (name : String) : Option α :=
  m.entries.lookup name

/-- The map without a name. -/
def erase (m : NameMap α) (name : String) : NameMap α :=
  ⟨m.entries.filter fun e => e.1 != name⟩

/-- The map with the value of a name set. -/
def insert (m : NameMap α) (name : String) (v : α) : NameMap α :=
  ⟨(name, v) :: (m.erase name).entries⟩

/-- The number of names. -/
def size (m : NameMap α) : Nat :=
  m.entries.length

@[simp]
theorem get?_empty (name : String) : (empty : NameMap α).get? name = none := rfl

/-- An erased name has no value, and no other value changes. -/
theorem get?_erase (m : NameMap α) (name other : String) :
    (m.erase name).get? other = if other = name then none else m.get? other := by
  simp only [get?, erase]
  induction m.entries with
  | nil => simp
  | cons e l ih =>
    obtain ⟨key, v⟩ := e
    by_cases hk : key = name
    · subst hk
      rw [List.filter_cons_of_neg (by simp), ih]
      split
      · rfl
      · rename_i h
        rw [List.lookup_cons, beq_false_of_ne h]
    · rw [List.filter_cons_of_pos (by simpa using hk), List.lookup_cons, List.lookup_cons, ih]
      by_cases ho : other = key
      · subst ho
        simp [hk]
      · simp [beq_false_of_ne ho]

/-- A value that was set is read back, and no other value changes. -/
theorem get?_insert (m : NameMap α) (name other : String) (v : α) :
    (m.insert name v).get? other = if other = name then some v else m.get? other := by
  have h : (m.insert name v).get? other =
      if other = name then some v else (m.erase name).get? other := by
    simp only [get?, insert, List.lookup_cons]
    by_cases ho : other = name
    · simp [ho]
    · simp [beq_false_of_ne ho, ho]
  rw [h, get?_erase]
  split
  · rfl
  · rfl

end NameMap

end Steplib
