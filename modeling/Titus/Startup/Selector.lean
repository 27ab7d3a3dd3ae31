import Titus.Results.Distance
import Titus.Startup.Connection

/-! The victim selection of a context as the rest of the library uses it: the ranks that it may
return, and the network of its next hops, over which every hop comes closer to the owner. -/

namespace Titus.Startup

open Results (Network Routes)
open VictimSelector

variable {n : ℕ} {selection : VictimSelection n} {net : Network n} {r v : Fin n}

/-- The contexts of all ranks have this victim selection, and results travel as its
`select_next_hop_to` says. -/
structure Installed (selection : VictimSelection n) (net : Network n) : Prop where
  mode : ∃ smallWorld degree draws, selectMode n smallWorld degree draws = some selection
  ranks : n < 2 ^ 16
  nextHop : ∃ endValue : ℕ → ℕ → ℕ, (∀ rank dest, endValue rank dest ≠ dest) ∧
    ∀ rank dest : Fin n, dest ≠ rank →
      selection.selectNextHopTo endValue rank dest = some (net.selectNextHopTo rank dest).val

/-- `select_target_rank` on rank `r` may return `v`. -/
def Target (selection : VictimSelection n) (r v : Fin n) : Prop :=
  ∃ drawn, selection.selectTargetRank r drawn = some v.val

/-- How far the ranks are from each other. -/
def distance (selection : VictimSelection n) (r dest : Fin n) : ℕ :=
  match selection with
  | .random => if dest = r then 0 else 1
  | .smallWorld _ => RingMetric.dist n r dest

/-- The hops between any two ranks. -/
def hops (selection : VictimSelection n) : ℕ :=
  match selection with
  | .random => 1
  | .smallWorld _ => n / 2

theorem distance_le_hops (selection : VictimSelection n) (r dest : Fin n) :
    distance selection r dest ≤ hops selection := by
  cases selection with
  | random =>
    simp only [distance, hops]
    split <;> omega
  | smallWorld neighbors => exact RingMetric.dist_le_half n r dest

theorem Installed.selected (h : Installed selection net) : Selected selection := by
  obtain ⟨smallWorld, degree, draws, hmode⟩ := h.mode
  exact selected_of_selectMode hmode

/-- Under random selection every rank sends results to their owner. -/
theorem installed_random (hn : n < 2 ^ 16) : Installed .random (Results.direct n) where
  mode := ⟨false, 0, [], rfl⟩
  ranks := hn
  nextHop := ⟨fun _ dest => dest + 1, fun _ dest => Nat.succ_ne_self dest, fun _ _ _ => rfl⟩

/-- Every hop comes closer. -/
theorem Installed.routes (h : Installed selection net) : Routes net (distance selection) := by
  intro rank dest hne
  obtain ⟨endValue, hend, hnext⟩ := h.nextHop
  have hhop := hnext rank dest hne
  have hsel := h.selected
  cases selection with
  | random =>
    have heq : (net.selectNextHopTo rank dest) = dest := Fin.ext (Option.some.inj hhop).symm
    simp only [distance, heq, hne, if_true, if_false, Nat.zero_lt_one]
  | smallWorld neighbors =>
    obtain ⟨hop, heq, -, hlt⟩ := hsel.2.1.hop_closer hsel.1 h.ranks (hend rank dest) rank.isLt
      dest.isLt fun hc => hne (Fin.ext hc.symm)
    obtain rfl : hop = (net.selectNextHopTo rank dest).val := Option.some.inj (heq.symm.trans hhop)
    exact hlt

/-- A rank that is not alone may select another. -/
theorem Installed.exists_target (h : Installed selection net) (hv : v ≠ r) :
    ∃ w, w ≠ r ∧ Target selection r w := by
  have h2 : 2 ≤ n := by
    have hlt := v.isLt
    have hlt' := r.isLt
    have hne : v.val ≠ r.val := fun hc => hv (Fin.ext hc)
    omega
  have hsel := h.selected
  cases selection with
  | random =>
    by_cases hr : r.val = 0
    · refine ⟨⟨1, by omega⟩, fun hc => ?_, 0, ?_⟩
      · rw [← hc] at hr
        cases hr
      · simp [VictimSelection.selectTargetRank, toRank, hr]
    · refine ⟨⟨0, by omega⟩, fun hc => hr (by rw [← hc]), 0, ?_⟩
      simp [VictimSelection.selectTargetRank, toRank, hr]
  | smallWorld neighbors =>
    have hmem := hsel.2.1.forward_mem r r.isLt
    have hlt := hsel.2.1.lt r _ hmem
    obtain ⟨i, hi, heq⟩ := List.getElem_of_mem ((Finset.mem_sort (· ≤ ·)).mpr hmem)
    rw [Finset.length_sort] at hi
    refine ⟨⟨RingMetric.forward n r 1, hlt⟩, fun hc => ?_, i, ?_⟩
    · have hval : RingMetric.forward n r 1 = r.val := congrArg Fin.val hc
      rcases RingMetric.forward_cases r.isLt (show 1 < n by omega) with ⟨-, hf⟩ | ⟨hge, hf⟩
      · omega
      · omega
    · simp only [VictimSelection.selectTargetRank, Nat.mod_eq_of_lt hi]
      rw [List.getElem?_eq_getElem (by rwa [Finset.length_sort]), heq]

end Titus.Startup
