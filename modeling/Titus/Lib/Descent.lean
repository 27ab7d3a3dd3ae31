import Mathlib.Data.List.Chain
import Mathlib.Data.List.Nodup

/-! Walks along a partial function whose every step lowers a measure: they repeat nothing and end
within the measure's value. -/

namespace Descent

variable {α : Type*} [DecidableEq α]

/-- The nodes visited from `a` along `next`, at most `fuel` steps and no further than `goal`. -/
def walk (next : α → Option α) (goal : α) : ℕ → α → List α
  | 0, a => [a]
  | fuel + 1, a =>
    if a = goal then [a]
    else
      match next a with
      | none => [a]
      | some b => a :: walk next goal fuel b

/-- From every node of `dom` except `goal`, `next` leads to a node of `dom` of lower measure. -/
def Lowers (next : α → Option α) (goal : α) (dom : α → Prop) (measure : α → ℕ) : Prop :=
  ∀ a, dom a → a ≠ goal → ∃ b, next a = some b ∧ dom b ∧ measure b < measure a

variable {next : α → Option α} {goal a : α} {dom : α → Prop} {measure : α → ℕ}

theorem walk_ne_nil (fuel : ℕ) (a : α) : walk next goal fuel a ≠ [] := by
  cases fuel with
  | zero => simp [walk]
  | succ fuel =>
    unfold walk
    split
    · simp
    · split <;> simp

theorem length_walk_le (fuel : ℕ) (a : α) : (walk next goal fuel a).length ≤ fuel + 1 := by
  induction fuel generalizing a with
  | zero => simp [walk]
  | succ fuel ih =>
    unfold walk
    split
    · simp
    · split
      · simp
      · simpa using ih _

theorem walk_succ_of_lowers (h : Lowers next goal dom measure) (ha : dom a) (hne : a ≠ goal)
    (fuel : ℕ) : ∃ b, walk next goal (fuel + 1) a = a :: walk next goal fuel b ∧ dom b ∧
      measure b < measure a := by
  obtain ⟨b, hb, hdom, hlt⟩ := h a ha hne
  exact ⟨b, by simp [walk, hne, hb], hdom, hlt⟩

/-- Every node of a walk is its start or has a lower measure. -/
theorem measure_le_of_mem_walk (h : Lowers next goal dom measure) (ha : dom a) (fuel : ℕ) {c : α}
    (hc : c ∈ walk next goal fuel a) : measure c ≤ measure a := by
  induction fuel generalizing a with
  | zero => simp [walk] at hc; rw [hc]
  | succ fuel ih =>
    by_cases hne : a = goal
    · simp [walk, hne] at hc
      rw [hc, hne]
    · obtain ⟨b, hw, hb, hlt⟩ := walk_succ_of_lowers h ha hne fuel
      rw [hw, List.mem_cons] at hc
      rcases hc with rfl | hc
      · exact le_rfl
      · exact (ih hb hc).trans hlt.le

theorem nodup_walk (h : Lowers next goal dom measure) (ha : dom a) (fuel : ℕ) :
    (walk next goal fuel a).Nodup := by
  induction fuel generalizing a with
  | zero => simp [walk]
  | succ fuel ih =>
    by_cases hne : a = goal
    · simp [walk, hne]
    · obtain ⟨b, hw, hb, hlt⟩ := walk_succ_of_lowers h ha hne fuel
      rw [hw, List.nodup_cons]
      exact ⟨fun hmem => absurd (measure_le_of_mem_walk h hb fuel hmem) (by omega), ih hb⟩

/-- A walk with as much fuel as the measure of its start ends at the goal, when only the goal has
measure zero. -/
theorem getLast_walk (h : Lowers next goal dom measure) (h0 : ∀ b, dom b → measure b = 0 → b = goal)
    (ha : dom a) {fuel : ℕ} (hfuel : measure a ≤ fuel) :
    (walk next goal fuel a).getLast (walk_ne_nil fuel a) = goal := by
  induction fuel generalizing a with
  | zero => simpa [walk] using h0 a ha (by omega)
  | succ fuel ih =>
    by_cases hne : a = goal
    · simp [walk, hne]
    · obtain ⟨b, hw, hb, hlt⟩ := walk_succ_of_lowers h ha hne fuel
      simp only [hw, List.getLast_cons (walk_ne_nil fuel b)]
      exact ih hb (by omega)

end Descent
