import Mathlib.Algebra.BigOperators.Group.Finset.Basic
import Mathlib.Algebra.BigOperators.Group.Multiset.Basic
import Mathlib.Algebra.GroupWithZero.Nat
import Mathlib.Algebra.Order.BigOperators.Group.Finset
import Mathlib.Data.Multiset.Count

/-! Counting the copies of an item over the parties of a system: how a total changes when one party
changes, and what a total of one means. -/

namespace Ledger

variable {ι σ : Type*} [Fintype ι]

/-- The copies that all parties hold, where `held i x` is what party `i` holds in its state `x`. -/
def total (held : ι → σ → ℕ) (s : ι → σ) : ℕ := ∑ i, held i (s i)

variable {held : ι → σ → ℕ} {s : ι → σ} {i j : ι} {x y : σ}

theorem held_le_total (held : ι → σ → ℕ) (s : ι → σ) (i : ι) : held i (s i) ≤ total held s :=
  Finset.single_le_sum (f := fun k => held k (s k)) (fun _ _ => Nat.zero_le _) (Finset.mem_univ i)

theorem total_eq_zero : total held s = 0 ↔ ∀ i, held i (s i) = 0 := by
  simp [total]

/-! ### Weights -/

section Weights

variable {κ α : Type*} [Fintype κ]

theorem sum_map_eq (f : ι → List α) (w : α → ℕ) :
    ∑ i, ((f i).map w).sum = ((∑ i, (f i : Multiset α)).map w).sum := by
  have h := map_sum (Multiset.sumAddMonoidHom.comp (Multiset.mapAddMonoidHom w))
    (fun i => (f i : Multiset α)) Finset.univ
  simp only [AddMonoidHom.comp_apply, Multiset.coe_mapAddMonoidHom, Multiset.coe_sumAddMonoidHom,
    Multiset.map_coe, Multiset.sum_coe] at h
  exact h.symm

/-- Two families of lists with the same items have the same weight. -/
theorem sum_map_eq_of_count_eq [DecidableEq α] {f : ι → List α} {g : κ → List α}
    (h : ∀ a, ∑ i, (f i).count a = ∑ j, (g j).count a) (w : α → ℕ) :
    ∑ i, ((f i).map w).sum = ∑ j, ((g j).map w).sum := by
  have heq : ∑ i, (f i : Multiset α) = ∑ j, (g j : Multiset α) := by
    apply Multiset.ext.mpr
    intro a
    simpa [Multiset.count_sum'] using h a
  rw [sum_map_eq f, sum_map_eq g, heq]

/-- Lists that have no item twice, alone or together, have no more items than there are. -/
theorem sum_length_le_card [DecidableEq α] {f : ι → List α} {S : Finset α}
    (hcount : ∀ a, ∑ i, (f i).count a ≤ 1) (hmem : ∀ i, ∀ a ∈ f i, a ∈ S) :
    ∑ i, (f i).length ≤ S.card := by
  have hnodup : (∑ i, (f i : Multiset α)).Nodup := by
    apply Multiset.nodup_iff_count_le_one.mpr
    intro a
    simpa [Multiset.count_sum'] using hcount a
  have hsub : ∑ i, (f i : Multiset α) ⊆ S.val := by
    intro a ha
    obtain ⟨i, -, hi⟩ := Multiset.mem_sum.mp ha
    exact hmem i a (Multiset.mem_coe.mp hi)
  have hcard := Multiset.card_le_card ((Multiset.le_iff_subset hnodup).mpr hsub)
  simpa [Multiset.card_sum] using hcard

end Weights

/-! ### Updates -/

variable [DecidableEq ι]

theorem total_update (held : ι → σ → ℕ) (s : ι → σ) (i : ι) (x : σ) :
    total held (Function.update s i x) + held i (s i) = total held s + held i x := by
  unfold total
  rw [← Finset.add_sum_erase _ _ (Finset.mem_univ i), ← Finset.add_sum_erase Finset.univ
    (fun k => held k (s k)) (Finset.mem_univ i), Function.update_self]
  have h : ∑ k ∈ Finset.univ.erase i, held k (Function.update s i x k) =
      ∑ k ∈ Finset.univ.erase i, held k (s k) :=
    Finset.sum_congr rfl fun k hk => by rw [Function.update_of_ne (Finset.ne_of_mem_erase hk)]
  omega

/-- A party that keeps what it holds keeps the total. -/
theorem total_update_eq (h : held i x = held i (s i)) :
    total held (Function.update s i x) = total held s := by
  have := total_update held s i x
  omega

/-- What one party gives and another takes keeps the total. -/
theorem total_update_update (hij : i ≠ j)
    (h : held i x + held j y = held i (s i) + held j (s j)) :
    total held (Function.update (Function.update s i x) j y) = total held s := by
  have h1 := total_update held (Function.update s i x) j y
  have h2 := total_update held s i x
  rw [Function.update_of_ne hij.symm] at h1
  omega

/-- A total of one is held in exactly one place. -/
theorem sum_eq_one_iff {f : ι → ℕ} : ∑ i, f i = 1 ↔ ∃ i, f i = 1 ∧ ∀ j, j ≠ i → f j = 0 := by
  constructor
  · intro h
    have hne : ∃ i, f i ≠ 0 := by
      by_contra hc
      rw [Finset.sum_eq_zero fun i _ => by simpa using fun hi => hc ⟨i, hi⟩] at h
      omega
    obtain ⟨i, hi⟩ := hne
    rw [← Finset.add_sum_erase _ _ (Finset.mem_univ i)] at h
    have hrest : ∑ j ∈ Finset.univ.erase i, f j = 0 := by omega
    refine ⟨i, by omega, fun j hj => ?_⟩
    exact (Finset.sum_eq_zero_iff.mp hrest) j (Finset.mem_erase.mpr ⟨hj, Finset.mem_univ j⟩)
  · rintro ⟨i, hi, hrest⟩
    rw [← Finset.add_sum_erase _ _ (Finset.mem_univ i), hi,
      Finset.sum_eq_zero fun j hj => hrest j (Finset.ne_of_mem_erase hj), Nat.add_zero]

end Ledger
