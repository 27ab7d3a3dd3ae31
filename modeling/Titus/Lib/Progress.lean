import Titus.Lib.Transition
import Mathlib.Algebra.Order.BigOperators.Group.Finset
import Mathlib.Data.Prod.Lex

/-! What a system can still get to: some continuation of the run so far ends in a state with a
property.  A continuation is put together from shorter ones, by the rule of the variant. -/

namespace Transition.System

variable {σ τ α β W : Type*} {S : System σ α} {T : System τ β} {I p q : σ → Prop} {s t : σ}

/-- Some run from `s` ends in a state with the property `p`. -/
def CanReach (S : System σ α) (s : σ) (p : σ → Prop) : Prop :=
  ∃ as t, S.run s as = some t ∧ p t

namespace CanReach

theorem here (h : p s) : S.CanReach s p := ⟨[], s, rfl, h⟩

theorem mono (h : S.CanReach s p) (hpq : ∀ t, p t → q t) : S.CanReach s q := by
  obtain ⟨as, t, hrun, ht⟩ := h
  exact ⟨as, t, hrun, hpq t ht⟩

theorem step {a : α} (hs : S.next s a = some t) (h : S.CanReach t p) : S.CanReach s p := by
  obtain ⟨as, u, hrun, hu⟩ := h
  refine ⟨a :: as, u, ?_, hu⟩
  rw [run, hs]
  exact hrun

/-- One step is a run. -/
theorem of_next {a : α} (hs : S.next s a = some t) (h : p t) : S.CanReach s p := .step hs (.here h)

theorem trans (h : S.CanReach s p) (hq : ∀ t, p t → S.CanReach t q) : S.CanReach s q := by
  obtain ⟨as, t, hrun, ht⟩ := h
  obtain ⟨bs, u, hrest, hu⟩ := hq t ht
  refine ⟨as ++ bs, u, ?_, hu⟩
  rw [run_append hrun]
  exact hrest

/-- What every step keeps holds at the end as well. -/
theorem and_kept (h : S.CanReach s p) (hI : ∀ s a t, I s → S.next s a = some t → I t) (hi : I s) :
    S.CanReach s fun t => I t ∧ p t := by
  obtain ⟨as, t, hrun, ht⟩ := h
  exact ⟨as, t, hrun, run_induction hI hi hrun, ht⟩

/-- A goal is reached if every state without it leads to one with a smaller variant. -/
theorem of_variant [Preorder W] [WellFoundedLT W] (variant : σ → W)
    (h : ∀ s, I s → ¬ q s → S.CanReach s fun t => I t ∧ variant t < variant s) (hi : I s) :
    S.CanReach s fun t => I t ∧ q t := by
  induction hw : variant s using WellFoundedLT.induction generalizing s with
  | _ w ih =>
    by_cases hq : q s
    · exact .here ⟨hi, hq⟩
    · apply (h s hi hq).trans
      rintro t ⟨ht, hlt⟩
      rw [hw] at hlt
      exact ih _ hlt ht rfl

end CanReach

/-! ### Variants -/

section Variants

variable {ι : Type*} [Fintype ι] {f f' : ι → ℕ} [Preorder W] {w w' : W}

/-- A sum that no part raises, before a variant that counts where the sum stays. -/
theorem toLex_sum_lt (hle : ∀ i, f' i ≤ f i) (h : (∃ i, f' i < f i) ∨ w' < w) :
    toLex (∑ i, f' i, w') < toLex (∑ i, f i, w) := by
  rw [Prod.Lex.toLex_lt_toLex']
  refine ⟨Finset.sum_le_sum fun i _ => hle i, fun heq => ?_⟩
  rcases h with ⟨i, hi⟩ | h
  · have hlt := Finset.sum_lt_sum (fun j _ => hle j) ⟨i, Finset.mem_univ i, hi⟩
    exact absurd heq hlt.ne
  · exact h

end Variants

end Transition.System
