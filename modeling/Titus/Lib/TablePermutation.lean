import Mathlib.Data.Finset.Image
import Mathlib.Data.Fintype.Pigeonhole
import Mathlib.Data.Multiset.Range
import Mathlib.Dynamics.FixedPoints.Basic
import Mathlib.Logic.Equiv.Basic

/-! Tables that hold the numbers below `n` in some order: swaps of two entries, and the search for a
number along its cycle. -/

namespace TablePermutation

variable {n : ℕ} {t : ℕ → ℕ}

/-- The entries below `n` are the numbers below `n`. -/
def Permutes (n : ℕ) (t : ℕ → ℕ) : Prop := (Multiset.range n).map t = Multiset.range n

theorem Permutes.lt (h : Permutes n t) {p : ℕ} (hp : p < n) : t p < n := by
  rw [← Multiset.mem_range, ← h]
  exact Multiset.mem_map_of_mem t (Multiset.mem_range.mpr hp)

theorem Permutes.inj (h : Permutes n t) {p q : ℕ} (hp : p < n) (hq : q < n) (heq : t p = t q) :
    p = q := by
  have hnodup : ((Multiset.range n).map t).Nodup := by
    rw [h]
    exact Multiset.nodup_range n
  exact Multiset.inj_on_of_nodup_map hnodup p (Multiset.mem_range.mpr hp) q
    (Multiset.mem_range.mpr hq) heq

theorem Permutes.exists_eq (h : Permutes n t) {x : ℕ} (hx : x < n) : ∃ p < n, t p = x := by
  rw [← Multiset.mem_range, ← h, Multiset.mem_map] at hx
  obtain ⟨p, hp, heq⟩ := hx
  exact ⟨p, Multiset.mem_range.mp hp, heq⟩

/-! ### Swaps -/

/-- The table with the entries at `p` and `q` swapped. -/
def swapAt (t : ℕ → ℕ) (p q : ℕ) : ℕ → ℕ :=
  Function.update (Function.update t p (t q)) q (t p)

theorem swapAt_left (t : ℕ → ℕ) (p q : ℕ) : swapAt t p q p = t q := by
  unfold swapAt
  by_cases h : p = q
  · subst h
    rw [Function.update_self]
  · rw [Function.update_of_ne h, Function.update_self]

theorem swapAt_right (t : ℕ → ℕ) (p q : ℕ) : swapAt t p q q = t p := Function.update_self ..

theorem swapAt_of_ne {p q k : ℕ} (hp : k ≠ p) (hq : k ≠ q) : swapAt t p q k = t k := by
  rw [swapAt, Function.update_of_ne hq, Function.update_of_ne hp]

theorem swapAt_self (t : ℕ → ℕ) (p : ℕ) : swapAt t p p = t := by
  rw [swapAt, Function.update_eq_self, Function.update_eq_self]

theorem swapAt_eq_comp (t : ℕ → ℕ) (p q : ℕ) : swapAt t p q = t ∘ Equiv.swap p q := by
  funext k
  rw [Function.comp_apply]
  by_cases hp : k = p
  · rw [hp, swapAt_left, Equiv.swap_apply_left]
  · by_cases hq : k = q
    · rw [hq, swapAt_right, Equiv.swap_apply_right]
    · rw [swapAt_of_ne hp hq, Equiv.swap_apply_of_ne_of_ne hp hq]

theorem Permutes.swapAt (h : Permutes n t) {p q : ℕ} (hp : p < n) (hq : q < n) :
    Permutes n (swapAt t p q) := by
  have hswap : (Multiset.range n).map (Equiv.swap p q) = Multiset.range n := by
    have hmap := Finset.map_perm (s := Finset.range n) (σ := Equiv.swap p q) (by
      intro k hk
      rw [Finset.coe_range, Set.mem_Iio]
      by_contra hn
      refine hk (Equiv.swap_apply_of_ne_of_ne ?_ ?_)
      · rintro rfl
        exact hn hp
      · rintro rfl
        exact hn hq)
    exact congrArg Finset.val hmap
  rw [Permutes, swapAt_eq_comp, ← Multiset.map_map, hswap]
  exact h

/-! ### Search -/

/-- The position of `x`, looked for from position `p` on along the cycle of the table, in `fuel`
positions at most. -/
def indexFrom (t : ℕ → ℕ) (x : ℕ) : ℕ → ℕ → Option ℕ
  | 0, _ => none
  | fuel + 1, p => if t p = x then some p else indexFrom t x fuel (t p)

theorem indexFrom_spec (h : Permutes n t) {x fuel p q : ℕ} (hp : p < n)
    (hq : indexFrom t x fuel p = some q) : q < n ∧ t q = x := by
  induction fuel generalizing p with
  | zero => cases hq
  | succ fuel ih =>
    unfold indexFrom at hq
    split at hq
    · cases hq
      exact ⟨hp, ‹_›⟩
    · exact ih (h.lt hp) hq

theorem indexFrom_mono {x fuel fuel' p q : ℕ} (hq : indexFrom t x fuel p = some q)
    (hle : fuel ≤ fuel') : indexFrom t x fuel' p = some q := by
  induction fuel generalizing fuel' p with
  | zero => cases hq
  | succ fuel ih =>
    obtain ⟨fuel', rfl⟩ : ∃ k, fuel' = k + 1 := ⟨fuel' - 1, by omega⟩
    unfold indexFrom at hq ⊢
    split at hq
    · rename_i heq
      rw [if_pos heq]
      exact hq
    · rename_i hne
      rw [if_neg hne]
      exact ih hq (by omega)

theorem iterate_eq_of_indexFrom {x fuel p : ℕ} (hnone : indexFrom t x fuel p = none) :
    ∀ k < fuel, t^[k + 1] p ≠ x := by
  induction fuel generalizing p with
  | zero => nofun
  | succ fuel ih =>
    intro k hk
    unfold indexFrom at hnone
    split at hnone
    · cases hnone
    · cases k with
      | zero => assumption
      | succ k => exact ih hnone k (by omega)

/-- A search along the whole table finds the number that it starts from. -/
theorem exists_indexFrom (h : Permutes n t) {x : ℕ} (hx : x < n) :
    ∃ q, indexFrom t x n x = some q := by
  by_contra hno
  have hnone : indexFrom t x n x = none := by
    cases hq : indexFrom t x n x with
    | none => rfl
    | some q => exact absurd ⟨q, hq⟩ hno
  have hiter := iterate_eq_of_indexFrom hnone
  have hlt : ∀ k, t^[k] x < n := by
    intro k
    induction k with
    | zero => exact hx
    | succ k ih =>
      rw [Function.iterate_succ_apply']
      exact h.lt ih
  -- of `n + 1` steps two meet, and then one comes back to the start
  have hback : ∀ i d, t^[i + d] x = t^[i] x → t^[d] x = x := by
    intro i d heq
    induction i with
    | zero => rwa [Nat.zero_add] at heq
    | succ i ih =>
      apply ih
      rw [Nat.add_right_comm, Function.iterate_succ_apply', Function.iterate_succ_apply'] at heq
      exact h.inj (hlt _) (hlt _) heq
  obtain ⟨i, hi, j, hj, hne, heq⟩ := Finset.exists_ne_map_eq_of_card_lt_of_maps_to
    (s := Finset.range (n + 1)) (t := Finset.range n) (f := fun k => t^[k] x) (by simp)
    (fun k _ => Finset.mem_range.mpr (hlt k))
  rw [Finset.mem_range] at hi hj
  rcases Nat.lt_or_gt_of_ne hne with hlt' | hlt'
  · refine hiter (j - i - 1) (by omega) ?_
    rw [show j - i - 1 + 1 = j - i by omega]
    exact hback i (j - i) (by rw [show i + (j - i) = j by omega]; exact heq.symm)
  · refine hiter (i - j - 1) (by omega) ?_
    rw [show i - j - 1 + 1 = i - j by omega]
    exact hback j (i - j) (by rw [show j + (i - j) = i by omega]; exact heq)

/-- The search of a number needs no more steps than there are numbers. -/
theorem Permutes.search (h : Permutes n t) {x fuel : ℕ} (hx : x < n) (hfuel : n ≤ fuel) :
    ∃ q < n, indexFrom t x fuel x = some q ∧ t q = x := by
  obtain ⟨q, hq⟩ := exists_indexFrom h hx
  obtain ⟨hlt, heq⟩ := indexFrom_spec h hx hq
  exact ⟨q, hlt, indexFrom_mono hq hfuel, heq⟩

end TablePermutation
