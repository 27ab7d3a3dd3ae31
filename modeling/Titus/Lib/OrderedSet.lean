import Mathlib.Data.Finset.Max

/-! Finite sets read in increasing order: the first and last members, the first member from a given
value on, and the last member before one. -/

namespace OrderedSet

variable {α : Type*} [LinearOrder α]

/-- The least member of `s`. -/
def first (s : Finset α) : Option α := if h : s.Nonempty then some (s.min' h) else none

/-- The greatest member of `s`. -/
def last (s : Finset α) : Option α := if h : s.Nonempty then some (s.max' h) else none

/-- The least member of `s` that is not below `x`. -/
def lowerBound (s : Finset α) (x : α) : Option α := first (s.filter (x ≤ ·))

/-- The greatest member of `s` below `x`. -/
def before (s : Finset α) (x : α) : Option α := last (s.filter (· < x))

variable {s : Finset α} {x y : α}

theorem first_eq_some : first s = some x ↔ x ∈ s ∧ ∀ y ∈ s, x ≤ y := by
  unfold first
  split
  · rename_i h
    rw [Option.some_inj]
    constructor
    · rintro rfl
      exact ⟨s.min'_mem h, fun y hy => s.min'_le y hy⟩
    · rintro ⟨hx, hle⟩
      exact le_antisymm (s.min'_le x hx) (hle _ (s.min'_mem h))
  · rename_i h
    simp [Finset.not_nonempty_iff_eq_empty.mp h]

theorem first_eq_none : first s = none ↔ s = ∅ := by
  simp [first, Finset.not_nonempty_iff_eq_empty]

theorem last_eq_some : last s = some x ↔ x ∈ s ∧ ∀ y ∈ s, y ≤ x := by
  unfold last
  split
  · rename_i h
    rw [Option.some_inj]
    constructor
    · rintro rfl
      exact ⟨s.max'_mem h, fun y hy => s.le_max' y hy⟩
    · rintro ⟨hx, hle⟩
      exact le_antisymm (hle _ (s.max'_mem h)) (s.le_max' x hx)
  · rename_i h
    simp [Finset.not_nonempty_iff_eq_empty.mp h]

theorem exists_first (h : s.Nonempty) : ∃ x, first s = some x := ⟨s.min' h, by simp [first, h]⟩

theorem exists_last (h : s.Nonempty) : ∃ x, last s = some x := ⟨s.max' h, by simp [last, h]⟩

theorem lowerBound_eq_some :
    lowerBound s x = some y ↔ y ∈ s ∧ x ≤ y ∧ ∀ z ∈ s, x ≤ z → y ≤ z := by
  simp [lowerBound, first_eq_some, and_assoc]

theorem lowerBound_eq_none : lowerBound s x = none ↔ ∀ z ∈ s, z < x := by
  simp [lowerBound, first_eq_none, Finset.filter_eq_empty_iff]

theorem before_eq_some :
    before s x = some y ↔ y ∈ s ∧ y < x ∧ ∀ z ∈ s, z < x → z ≤ y := by
  simp [before, last_eq_some, and_assoc]

theorem exists_before (hy : y ∈ s) (h : y < x) : ∃ z, before s x = some z :=
  exists_last ⟨y, by simp [hy, h]⟩

end OrderedSet
