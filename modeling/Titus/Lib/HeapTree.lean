import Mathlib.Data.Fin.Basic
import Mathlib.Tactic.Cases

/-! The binary tree on the first `n` numbers in which the children of `p` are `2 * p + 1` and
`2 * p + 2`. -/

namespace HeapTree

variable {n : ℕ}

/-- The parent of a number that is not the root. -/
def parent (c : Fin n) : Fin n :=
  ⟨(c - 1) / 2, lt_of_le_of_lt ((Nat.div_le_self _ _).trans (Nat.sub_le _ _)) c.isLt⟩

def left (p : Fin n) : Option (Fin n) :=
  if h : 2 * p.val + 1 < n then some ⟨2 * p + 1, h⟩ else none

def right (p : Fin n) : Option (Fin n) :=
  if h : 2 * p.val + 2 < n then some ⟨2 * p + 2, h⟩ else none

variable {p c : Fin n}

theorem left_eq_some : left p = some c ↔ c.val = 2 * p + 1 := by
  unfold left
  split
  · rw [Option.some.injEq, Fin.ext_iff]
    exact eq_comm
  · constructor
    · intro h
      cases h
    · intro h
      have := c.isLt
      omega

theorem right_eq_some : right p = some c ↔ c.val = 2 * p + 2 := by
  unfold right
  split
  · rw [Option.some.injEq, Fin.ext_iff]
    exact eq_comm
  · constructor
    · intro h
      cases h
    · intro h
      have := c.isLt
      omega

theorem parent_eq (h : c.val = 2 * p + 1 ∨ c.val = 2 * p + 2) : parent c = p := by
  apply Fin.ext
  simp only [parent]
  omega

/-- Every number but the root is the left child of its parent, or the right one. -/
theorem left_or_right (hc : 0 < c.val) :
    c.val % 2 = 1 ∧ left (parent c) = some c ∨ c.val % 2 = 0 ∧ right (parent c) = some c := by
  rw [left_eq_some, right_eq_some]
  simp only [parent]
  omega

theorem parent_lt (hc : 0 < c.val) : (parent c).val < c.val := by
  simp only [parent]
  omega

/-- What holds of the root, and of a child when it holds of the parent, holds of all. -/
theorem induction_down {P : Fin n → Prop} (root : ∀ c : Fin n, c.val = 0 → P c)
    (child : ∀ c : Fin n, 0 < c.val → P (parent c) → P c) (c : Fin n) : P c := by
  induction h : c.val using Nat.strong_induction_on generalizing c with
  | h k ih =>
    rcases Nat.eq_zero_or_pos c.val with hc | hc
    · exact root c hc
    · apply child c hc
      exact ih (parent c).val (h ▸ parent_lt hc) (parent c) rfl

/-- What goes from a child to the parent reaches the root. -/
theorem ascend {P : Fin n → Prop} (step : ∀ c : Fin n, 0 < c.val → P c → P (parent c))
    (h : P c) : ∃ root : Fin n, root.val = 0 ∧ P root := by
  revert h
  apply induction_down (P := fun c => P c → ∃ root : Fin n, root.val = 0 ∧ P root)
  · intro c hc h
    exact ⟨c, hc, h⟩
  · intro c hc ih h
    exact ih (step c hc h)

end HeapTree
