import Steplib.Path.Basic

/-!
# Maps keyed by paths

A map holds one entry per path, under the spelling it was first entered with, and lists its
entries in path order.

## Main definitions

* `PathMap.insert`, `PathMap.erase`, `PathMap.modify`, `PathMap.map`: the operations on a map.

## Main results

* `PathMap.get?_insert`, `PathMap.get?_erase`, `PathMap.get?_modify`: what each operation does to
  the value of every path.
-/

namespace Steplib

/-- The path of one entry comes before that of another. -/
def entryBefore {α : Type} (a b : Path × α) : Prop :=
  a.1.before b.1 = true

/-- A map from paths to values, listed in path order. -/
structure PathMap (α : Type) where
  entries : List (Path × α)
  ordered : entries.Pairwise entryBefore

namespace PathMap

variable {α : Type}

/-- The map without entries. -/
def empty : PathMap α := ⟨[], .nil⟩

instance : Inhabited (PathMap α) := ⟨empty⟩

/-- The value of a path, in whatever spelling. -/
def get? (m : PathMap α) (p : Path) : Option α :=
  (m.entries.find? (·.1.same p)).map (·.2)

/-- The path has a value. -/
def contains (m : PathMap α) (p : Path) : Bool :=
  (m.get? p).isSome

/-- The entries with the value of `p` set, put in before the first path after it. -/
def place (p : Path) (v : α) : List (Path × α) → List (Path × α)
  | [] => [(p, v)]
  | (q, w) :: rest =>
    if q.same p then (q, v) :: rest
    else if p.before q then (p, v) :: (q, w) :: rest
    else (q, w) :: place p v rest

/-- The paths of the entries with `p` set: `p` itself, or one that was there. -/
theorem key_of_mem_place {p : Path} {v : α} {e : Path × α} {l : List (Path × α)}
    (h : e ∈ place p v l) : e.1 = p ∨ ∃ e' ∈ l, e'.1 = e.1 := by
  induction l with
  | nil => exact .inl (by simp_all [place])
  | cons r l ih =>
    obtain ⟨q, w⟩ := r
    unfold place at h
    split at h
    · rcases List.mem_cons.1 h with rfl | h
      · exact .inr ⟨(q, w), by simp, rfl⟩
      · exact .inr ⟨e, by simp [h], rfl⟩
    · split at h
      · rcases List.mem_cons.1 h with rfl | h
        · exact .inl rfl
        · exact .inr ⟨e, h, rfl⟩
      · rcases List.mem_cons.1 h with rfl | h
        · exact .inr ⟨(q, w), by simp, rfl⟩
        · rcases ih h with h | ⟨e', he', hk⟩
          · exact .inl h
          · exact .inr ⟨e', by simp [he'], hk⟩

/-- Setting a value keeps the entries in order. -/
theorem ordered_place {p : Path} {v : α} {l : List (Path × α)} (h : l.Pairwise entryBefore) :
    (place p v l).Pairwise entryBefore := by
  induction l with
  | nil => simp [place]
  | cons r l ih =>
    obtain ⟨q, w⟩ := r
    obtain ⟨hq, hl⟩ := List.pairwise_cons.1 h
    unfold place
    split
    · exact List.pairwise_cons.2 ⟨hq, hl⟩
    · rename_i hs
      split
      · rename_i hb
        refine List.pairwise_cons.2 ⟨fun e he => ?_, h⟩
        rcases List.mem_cons.1 he with rfl | he
        · exact hb
        · exact Path.before_trans hb (hq e he)
      · rename_i hb
        refine List.pairwise_cons.2 ⟨fun e he => ?_, ih hl⟩
        rcases key_of_mem_place he with hk | ⟨e', he', hk⟩
        · have hqp : q.before p = true :=
            Path.before_of_not_before (by simpa using hb)
              (by rw [Path.same_comm]; simpa using hs)
          simpa only [entryBefore, hk] using hqp
        · have hb' : q.before e'.1 = true := hq e' he'
          simpa only [entryBefore, hk] using hb'

/-- The map with the value of `p` set. -/
def insert (m : PathMap α) (p : Path) (v : α) : PathMap α :=
  ⟨place p v m.entries, ordered_place m.ordered⟩

/-- The map without the path `p`. -/
def erase (m : PathMap α) (p : Path) : PathMap α :=
  ⟨m.entries.filter fun e => !e.1.same p, m.ordered.filter _⟩

/-- The map with every value replaced by a function of its path and itself. -/
def map {β : Type} (m : PathMap α) (f : Path → α → β) : PathMap β where
  entries := m.entries.map fun e => (e.1, f e.1 e.2)
  ordered := by
    rw [List.pairwise_map]
    exact m.ordered

/-- The map with the value of `p` changed by `f`. -/
def modify (m : PathMap α) (p : Path) (f : α → α) : PathMap α :=
  m.map fun q v => if q.same p then f v else v

/-- The map with only the entries whose path and value pass the test. -/
def filter (m : PathMap α) (keep : Path → α → Bool) : PathMap α :=
  ⟨m.entries.filter fun e => keep e.1 e.2, m.ordered.filter _⟩

/-- The paths, in order. -/
def keys (m : PathMap α) : List Path :=
  m.entries.map (·.1)

/-- The values, in the order of their paths. -/
def values (m : PathMap α) : List α :=
  m.entries.map (·.2)

/-- The number of entries. -/
def size (m : PathMap α) : Nat :=
  m.entries.length

/-- The map has no entries. -/
def isEmpty (m : PathMap α) : Bool :=
  m.entries.isEmpty

@[simp]
theorem get?_empty (p : Path) : (empty : PathMap α).get? p = none := rfl

theorem get?_place (p q : Path) (v : α) (l : List (Path × α)) :
    ((place p v l).find? (·.1.same q)).map (·.2) =
      if p.same q then some v else (l.find? (·.1.same q)).map (·.2) := by
  induction l with
  | nil => cases h : p.same q <;> simp [place, h]
  | cons e l ih =>
    obtain ⟨r, w⟩ := e
    unfold place
    split
    · rename_i h
      rw [← Path.same_congr_left h q]
      cases hq : r.same q <;> simp [hq]
    · rename_i h
      have hpr : p.same q = true → r.same q = false := fun hp => by
        rw [← Path.same_congr_right hp r]
        simpa using h
      split
      · cases hp : p.same q <;> simp [hp]
      · cases hr : r.same q with
        | true =>
          have hp : p.same q = false := by
            cases hp : p.same q with
            | false => rfl
            | true => simp [hpr hp] at hr
          simp [hr, hp]
        | false => simpa [hr] using ih

/-- A value that was set is read back, and no other value changes. -/
theorem get?_insert (m : PathMap α) (p q : Path) (v : α) :
    (m.insert p v).get? q = if p.same q then some v else m.get? q :=
  get?_place p q v m.entries

/-- An erased path has no value, and no other value changes. -/
theorem get?_erase (m : PathMap α) (p q : Path) :
    (m.erase p).get? q = if p.same q then none else m.get? q := by
  simp only [get?, erase]
  induction m.entries with
  | nil => simp
  | cons e l ih =>
    cases he : e.1.same p with
    | true =>
      rw [List.filter_cons_of_neg (by simp [he]), ih]
      cases hq : p.same q with
      | true => simp
      | false =>
        have : e.1.same q = false := by rw [Path.same_congr_left he q, hq]
        simp [this]
    | false =>
      rw [List.filter_cons_of_pos (by simp [he])]
      cases hq : e.1.same q with
      | true =>
        have : p.same q = false := by
          cases hp : p.same q with
          | false => rfl
          | true => simp [Path.same_congr_right hp e.1, hq] at he
        simp [hq, this]
      | false => simpa [hq] using ih

/-- Mapping changes each value by the function, under the stored spelling of its path. -/
theorem get?_map {β : Type} (m : PathMap α) (f : Path → α → β) (q : Path) :
    (m.map f).get? q = (m.entries.find? (·.1.same q)).map fun e => f e.1 e.2 := by
  simp [get?, map, List.find?_map, Function.comp_def]

/-- Only the value of the modified path changes. -/
theorem get?_modify (m : PathMap α) (p q : Path) (f : α → α) :
    (m.modify p f).get? q = if p.same q then (m.get? q).map f else m.get? q := by
  rw [modify, get?_map, get?]
  cases h : m.entries.find? (·.1.same q) with
  | none => simp
  | some e =>
    have he : e.1.same q = true := by simpa using List.find?_some h
    have : e.1.same p = p.same q := by rw [Path.same_congr_left he p, Path.same_comm]
    cases hp : p.same q <;> simp [this, hp]

/-! ### Maps by their entries -/

@[ext]
theorem ext {m n : PathMap α} (h : m.entries = n.entries) : m = n := by
  cases m with
  | mk entries ordered => subst h; rfl

/-- The value of a path does not depend on its spelling. -/
theorem get?_congr (m : PathMap α) {p q : Path} (h : p.same q = true) : m.get? p = m.get? q := by
  simp only [get?, Path.same_congr_right h]

/-- Mapping by a function that cannot tell spellings apart changes each value by the function. -/
theorem get?_map_of_congr {β : Type} (m : PathMap α) {f : Path → α → β}
    (hf : ∀ p q v, p.same q = true → f p v = f q v) (q : Path) :
    (m.map f).get? q = (m.get? q).map (f q) := by
  rw [get?_map, get?]
  cases h : m.entries.find? (·.1.same q) with
  | none => rfl
  | some e =>
    have he : e.1.same q = true := by simpa using List.find?_some h
    simp [hf e.1 q e.2 he]

/-- Every entry is found under its path. -/
theorem get?_of_mem {m : PathMap α} {p : Path} {v : α} (h : (p, v) ∈ m.entries) :
    m.get? p = some v := by
  obtain ⟨entries, ordered⟩ := m
  rw [get?]
  dsimp only at h ⊢
  induction entries with
  | nil => simp at h
  | cons e l ih =>
    obtain ⟨he, hl⟩ := List.pairwise_cons.1 ordered
    rcases List.mem_cons.1 h with rfl | h
    · simp
    · have hs : e.1.same p = false := Path.same_of_before (he _ h)
      rw [List.find?_cons_of_neg (by simp [hs])]
      exact ih hl h

/-- A filter that tests values keeps the value of a path exactly when it passes the test. -/
theorem get?_filter (m : PathMap α) (keep : α → Bool) (q : Path) :
    (m.filter fun _ v => keep v).get? q = (m.get? q).filter keep := by
  obtain ⟨entries, ordered⟩ := m
  simp only [get?, filter]
  induction entries with
  | nil => rfl
  | cons e l ih =>
    obtain ⟨he, hl⟩ := List.pairwise_cons.1 ordered
    cases hq : e.1.same q with
    | false =>
      rw [List.find?_cons_of_neg (by simp [hq]), ← ih hl]
      cases hk : keep e.2 <;> simp [hk, hq]
    | true =>
      cases hk : keep e.2 with
      | true => simp [hk, hq, Option.filter]
      | false =>
        -- the path of the entry that was dropped is not found again
        have hnone : (l.filter fun e => keep e.2).find? (·.1.same q) = none := by
          refine List.find?_eq_none.2 fun d hd => ?_
          have hs : e.1.same d.1 = false := Path.same_of_before (he d (List.mem_filter.1 hd).1)
          rw [← Path.same_congr_right hq d.1, Path.same_comm, hs]
          simp
        simp [hk, hq, hnone, Option.filter]

/-- The values of a map are those that some path has. -/
theorem mem_values {m : PathMap α} {v : α} : v ∈ m.values ↔ ∃ p, m.get? p = some v := by
  constructor
  · intro h
    obtain ⟨e, he, rfl⟩ := List.mem_map.1 h
    exact ⟨e.1, get?_of_mem he⟩
  · rintro ⟨p, h⟩
    obtain ⟨e, he, rfl⟩ := Option.map_eq_some_iff.1 h
    exact List.mem_map.2 ⟨e, List.mem_of_find?_eq_some he, rfl⟩

/-- A view of the values that the changes keep is the same in the same order. -/
theorem map_values_map {β : Type} (m : PathMap α) {change : Path → α → α} {view : α → β}
    (h : ∀ p v, view (change p v) = view v) :
    (m.map change).values.map view = m.values.map view := by
  simp only [values, map, List.map_map]
  exact List.map_congr_left fun e _ => h e.1 e.2

/-- The listed paths are those that have a value. -/
theorem any_keys (m : PathMap α) (p : Path) : m.keys.any (·.same p) = (m.get? p).isSome := by
  rw [Bool.eq_iff_iff, get?, Option.isSome_map, List.find?_isSome, List.any_eq_true]
  simp [keys]

end PathMap

end Steplib
