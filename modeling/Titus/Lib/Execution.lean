import Mathlib.Order.Filter.AtTopBot.Basic
import Titus.Lib.Transition

/-! Infinite executions of a system: at each time a step is taken, or nothing happens.  `∃ᶠ` is
infinitely often, and `∀ᶠ` from some time on. -/

namespace Transition.System

open Filter (atTop)

variable {σ α : Type*} {S : System σ α}

structure Execution (S : System σ α) where
  state : ℕ → σ
  action : ℕ → Option α
  init : S.init (state 0)
  idle : ∀ i, action i = none → state (i + 1) = state i
  step : ∀ i a, action i = some a → S.next (state i) a = some (state (i + 1))

namespace Execution

variable {x : Execution S} {p : σ → Prop} {i j : ℕ}

theorem reachable (x : Execution S) (i : ℕ) : S.Reachable (x.state i) := by
  induction i with
  | zero => exact .init x.init
  | succ i ih =>
    cases ha : x.action i with
    | none => rwa [x.idle i ha]
    | some a => exact ih.step (x.step i a ha)

/-- What all steps keep holds from then on. -/
theorem kept (hp : ∀ s a s', S.Reachable s → p s → S.next s a = some s' → p s')
    (h : p (x.state i)) (hij : i ≤ j) : p (x.state j) := by
  induction j, hij using Nat.le_induction with
  | base => exact h
  | succ j _ ih =>
    cases ha : x.action j with
    | none => rwa [x.idle j ha]
    | some a => exact hp _ _ _ (x.reachable j) ih (x.step j a ha)

theorem eventually_kept (hp : ∀ s a s', S.Reachable s → p s → S.next s a = some s' → p s')
    (h : p (x.state i)) : ∀ᶠ j in atTop, p (x.state j) :=
  Filter.eventually_atTop.mpr ⟨i, fun _ hij => kept hp h hij⟩

/-- What all steps keep holds from some time on, or it never holds. -/
theorem eventually_or (x : Execution S)
    (hp : ∀ s a s', S.Reachable s → p s → S.next s a = some s' → p s') :
    (∀ᶠ j in atTop, p (x.state j)) ∨ ∀ i, ¬ p (x.state i) := by
  by_cases h : ∃ i, p (x.state i)
  · obtain ⟨i, hi⟩ := h
    exact .inl (eventually_kept hp hi)
  · exact .inr (not_exists.mp h)

/-- The execution that ends with a run. -/
def ofRun {s t : σ} {as : List α} (hi : S.init s) (h : S.run s as = some t) : Execution S where
  state i := (S.run s (as.take i)).getD t
  action i := as[i]?
  init := hi
  idle i ha := by
    have hlen := List.getElem?_eq_none_iff.mp ha
    rw [List.take_of_length_le hlen, List.take_of_length_le (hlen.trans (Nat.le_succ i))]
  step i a ha := by
    have htake : as.take (i + 1) = as.take i ++ [a] := by
      rw [List.take_add_one, ha]
      rfl
    have hsplit : (S.run s (as.take i)).bind (S.run · (as.drop i)) = some t := by
      rw [← run_append_eq_bind, List.take_append_drop, h]
    obtain ⟨u, hu, hrest⟩ := Option.bind_eq_some_iff.mp hsplit
    obtain ⟨hlt, rfl⟩ := List.getElem?_eq_some_iff.mp ha
    rw [List.drop_eq_getElem_cons hlt] at hrest
    obtain ⟨v, hv, -⟩ := Option.bind_eq_some_iff.mp hrest
    rw [htake, run_append hu, hu]
    simp [run, hv]

section OfRun

variable {s t : σ} {as : List α} {hi : S.init s} {h : S.run s as = some t}

theorem state_ofRun (hlen : as.length ≤ i) : (ofRun hi h).state i = t := by
  simp only [ofRun, List.take_of_length_le hlen, h, Option.getD_some]

theorem action_ofRun (hlen : as.length ≤ i) : (ofRun hi h).action i = none :=
  List.getElem?_eq_none_iff.mpr hlen

/-- The run has ended. -/
theorem eventually_ofRun (hi : S.init s) (h : S.run s as = some t) :
    ∀ᶠ i in atTop, (ofRun hi h).state i = t ∧ (ofRun hi h).action i = none :=
  Filter.eventually_atTop.mpr ⟨as.length, fun _ hlen => ⟨state_ofRun hlen, action_ofRun hlen⟩⟩

end OfRun

end Execution

/-! ### Counting down -/

section Variant

variable {w : ℕ → ℕ} {moves target : ℕ → Prop}

/-- A number that nothing raises any more is not lowered infinitely often. -/
theorem not_frequently_lt (hle : ∀ᶠ i in atTop, w (i + 1) ≤ w i) :
    ¬ ∃ᶠ i in atTop, w (i + 1) < w i := by
  intro hlt
  obtain ⟨i₀, hle⟩ := Filter.eventually_atTop.mp hle
  have hanti : ∀ i j, i₀ ≤ i → i ≤ j → w j ≤ w i := by
    intro i j hi hij
    induction j, hij using Nat.le_induction with
    | base => exact le_rfl
    | succ j hij ih => exact (hle j (hi.trans hij)).trans ih
  have hno : ∀ k i, i₀ ≤ i → w i ≤ k → False := by
    intro k
    induction k with
    | zero =>
      intro i hi hk
      obtain ⟨j, hij, hlow⟩ := Filter.frequently_atTop.mp hlt i
      have hj := hanti i j hi hij
      omega
    | succ k ih =>
      intro i hi hk
      obtain ⟨j, hij, hlow⟩ := Filter.frequently_atTop.mp hlt i
      have hj := hanti i j hi hij
      exact ih (j + 1) (by omega) (by omega)
  exact hno (w i₀) i₀ le_rfl le_rfl

/-- Who moves infinitely often, and comes closer to the target with each move that is not at the
target, moves at the target infinitely often. -/
theorem frequently_at (hmoves : ∃ᶠ i in atTop, moves i)
    (hle : ∀ᶠ i in atTop, ¬ moves i → w (i + 1) ≤ w i)
    (hlt : ∀ᶠ i in atTop, moves i → ¬ target i → w (i + 1) < w i) :
    ∃ᶠ i in atTop, moves i ∧ target i := by
  by_contra hno
  rw [Filter.not_frequently] at hno
  apply not_frequently_lt (w := w)
  · filter_upwards [hle, hlt, hno] with i hle hlt hno
    by_cases hm : moves i
    · exact (hlt hm fun ht => hno ⟨hm, ht⟩).le
    · exact hle hm
  · apply (hmoves.and_eventually (hlt.and hno)).mono
    rintro i ⟨hm, hlt, hno⟩
    exact hlt hm fun ht => hno ⟨hm, ht⟩

end Variant

end Transition.System
