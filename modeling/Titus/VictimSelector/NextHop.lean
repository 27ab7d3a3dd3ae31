import Titus.VictimSelector.Routing

/-! `get_closest_neighbor` with every read of an iterator checked.  The first read comes before the
comparison with `end()`, so it fails for a destination above all neighbors. -/

namespace Titus.VictimSelector

open RingMetric

/-- `get_closest_neighbor`, where a read of the end position or of an empty set gives `none`. -/
def getClosestNeighborChecked (nbRank : ℕ) (neighbors : Neighbors) (src dest : ℕ) :
    Option ℕ := do
  let it := OrderedSet.lowerBound (neighbors src) dest
  -- `*it`, before `it` is compared with the end
  let upper ← it
  if upper = dest then return dest
  let lowest ← OrderedSet.first (neighbors src)
  let highest ← OrderedSet.last (neighbors src)
  let lower ← if upper = lowest then some upper else OrderedSet.before (neighbors src) upper
  return closestMatch nbRank dest upper lower lowest highest

/-- The call reads no end position, and returns a neighbor of `src` that is closest to `dest`, which
is `dest` if that is a neighbor. -/
def NextHopCorrect (nbRank : ℕ) (neighbors : Neighbors) (src dest : ℕ) : Prop :=
  ∃ hop, getClosestNeighborChecked nbRank neighbors src dest = some hop ∧ hop ∈ neighbors src ∧
    (dest ∈ neighbors src → hop = dest) ∧
    ∀ x ∈ neighbors src, getDistance nbRank dest hop ≤ getDistance nbRank dest x

variable {nbRank : ℕ} {neighbors : Neighbors} {src dest : ℕ}

/-- Below the greatest neighbor no read fails, and what the end position holds does not matter. -/
theorem getClosestNeighborChecked_eq {upper : ℕ}
    (h : OrderedSet.lowerBound (neighbors src) dest = some upper) (endValue : ℕ) :
    getClosestNeighborChecked nbRank neighbors src dest =
      getClosestNeighbor nbRank endValue neighbors src dest := by
  unfold getClosestNeighborChecked getClosestNeighbor
  simp [h]

/-- The read fails for a destination above all neighbors. -/
theorem getClosestNeighborChecked_eq_none (h : ∀ x ∈ neighbors src, x < dest) :
    getClosestNeighborChecked nbRank neighbors src dest = none := by
  unfold getClosestNeighborChecked
  simp [OrderedSet.lowerBound_eq_none.mpr h]

/-- For every set of neighbors the call is correct exactly when a neighbor is not below `dest`. -/
theorem nextHopCorrect_iff (hn : nbRank ≤ 65535) (hne : (neighbors src).Nonempty)
    (hlt : ∀ x ∈ neighbors src, x < nbRank) (hdest : dest < nbRank) :
    NextHopCorrect nbRank neighbors src dest ↔ ∃ x ∈ neighbors src, dest ≤ x := by
  have hn' : nbRank < 2 ^ 16 := by omega
  constructor
  · rintro ⟨hop, hcall, -⟩
    by_contra hno
    have hbelow : ∀ x ∈ neighbors src, x < dest := by
      intro x hx
      by_contra hge
      exact hno ⟨x, hx, not_lt.mp hge⟩
    rw [getClosestNeighborChecked_eq_none hbelow] at hcall
    cases hcall
  · rintro ⟨x, hx, hle⟩
    cases hit : OrderedSet.lowerBound (neighbors src) dest with
    | none =>
      have := OrderedSet.lowerBound_eq_none.mp hit x hx
      omega
    | some upper =>
      obtain ⟨hop, hmem, hcall, hmin⟩ := getClosestNeighbor_spec hn' hdest hlt hne
        (Nat.succ_ne_self dest)
      refine ⟨hop, (getClosestNeighborChecked_eq hit _).trans hcall, hmem, ?_, ?_⟩
      · intro hd
        have hzero := hmin dest hd
        rw [dist_self, Nat.le_zero, dist_eq_zero hdest (hlt hop hmem)] at hzero
        exact hzero.symm
      · intro y hy
        rw [getDistance_eq hn' hdest (hlt hop hmem), getDistance_eq hn' hdest (hlt y hy)]
        exact hmin y hy

/-- Rank 0 with the neighbors 1 and 2, and rank 3 with the neighbors 0 and 1. -/
def twoNeighbors : Neighbors := fun src => if src = 0 then {1, 2} else {0, 1}

theorem nextHopCorrect_iff_four :
    NextHopCorrect 4 twoNeighbors 0 2 ↔ ∃ x ∈ twoNeighbors 0, 2 ≤ x :=
  nextHopCorrect_iff (by decide) (by decide) (by decide) (by decide)

/-- From rank 0 to rank 3 the end position is read.  From rank 3 to rank 2 it is too, and where the
number of neighbors is found there, the call returns rank 2, which is no neighbor. -/
theorem next_hop_reads_end :
    (¬ ∀ (nbRank : ℕ) (neighbors : Neighbors) (src dest : ℕ), nbRank ≤ 65535 →
      (neighbors src).Nonempty → (∀ x ∈ neighbors src, x < nbRank) → dest < nbRank →
      NextHopCorrect nbRank neighbors src dest) ∧
    getClosestNeighbor 4 (twoNeighbors 3).card twoNeighbors 3 2 = some 2 ∧
      2 ∉ twoNeighbors 3 := by
  refine ⟨fun h => ?_, by decide, by decide⟩
  obtain ⟨hop, hcall, -⟩ := h 4 twoNeighbors 0 3 (by decide) (by decide) (by decide) (by decide)
  have hnone : getClosestNeighborChecked 4 twoNeighbors 0 3 = none :=
    getClosestNeighborChecked_eq_none (by decide)
  rw [hnone] at hcall
  cases hcall

end Titus.VictimSelector
