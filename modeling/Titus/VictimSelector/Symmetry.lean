import Titus.VictimSelector.Routing

/-! Every link of the small-world graph goes both ways, as each insertion is made at both ends. -/

namespace Titus.VictimSelector

/-- Every link goes both ways. -/
def Mutual (neighbors : Neighbors) : Prop := ∀ a b, b ∈ neighbors a → a ∈ neighbors b

variable {neighbors neighbors' : Neighbors}

/-- The two insertions that make a link. -/
theorem Mutual.link (h : Mutual neighbors) (a b : ℕ) :
    Mutual ((neighbors.insertAt a b).insertAt b a) := by
  intro c d hd
  simp only [mem_insertAt] at hd ⊢
  rcases hd with ⟨rfl, rfl⟩ | ⟨rfl, rfl⟩ | hd
  · exact .inr (.inl ⟨rfl, rfl⟩)
  · exact .inl ⟨rfl, rfl⟩
  · exact .inr (.inr (h c d hd))

theorem Mutual.addLocalNeighborsOf (nbRank i : ℕ) {steps j : ℕ} (h : Mutual neighbors) :
    Mutual (addLocalNeighborsOf nbRank i steps j neighbors) := by
  induction steps generalizing j neighbors with
  | zero => exact h
  | succ steps ih =>
    unfold VictimSelector.addLocalNeighborsOf
    exact ih (h.link i ((i + j) % nbRank))

theorem Mutual.addLocalNeighbors (nbRank localReach : ℕ) (h : Mutual neighbors) :
    Mutual (addLocalNeighbors nbRank localReach neighbors) := by
  unfold VictimSelector.addLocalNeighbors
  generalize List.range nbRank = is
  induction is generalizing neighbors with
  | nil => exact h
  | cons i is ih =>
    rw [List.foldl_cons]
    exact ih (h.addLocalNeighborsOf nbRank i)

theorem Mutual.addRandomNeighborsOf {nbRank degree a : ℕ} {draws rest : List Draw} {i : ℕ}
    (h : Mutual neighbors)
    (hadd : addRandomNeighborsOf nbRank degree a draws i neighbors = some (rest, neighbors')) :
    Mutual neighbors' := by
  induction draws generalizing i neighbors with
  | nil =>
    unfold VictimSelector.addRandomNeighborsOf at hadd
    split at hadd <;> cases hadd
    exact h
  | cons d draws ih =>
    unfold VictimSelector.addRandomNeighborsOf at hadd
    split at hadd
    · exact ih (h.link a (randomNeighbor nbRank a d)) hadd
    · cases hadd
      exact h

theorem Mutual.addRandomNeighborsFrom {nbRank degree : ℕ} {as : List ℕ} {draws : List Draw}
    (h : Mutual neighbors)
    (hadd : addRandomNeighborsFrom nbRank degree as draws neighbors = some neighbors') :
    Mutual neighbors' := by
  induction as generalizing draws neighbors with
  | nil =>
    cases hadd
    exact h
  | cons a as ih =>
    unfold VictimSelector.addRandomNeighborsFrom at hadd
    split at hadd
    · cases hadd
    · rename_i rest next hstep
      exact ih (h.addRandomNeighborsOf hstep) hadd

/-- Whatever was drawn, the links of the constructed graph go both ways. -/
theorem mutual_construct {nbRank degree localReach : ℕ} {draws : List Draw}
    (h : d1KleinbergNeighboringGenerator nbRank degree localReach draws = some neighbors) :
    Mutual neighbors := by
  have hempty : Mutual fun _ => ∅ := fun a b hb => absurd hb (Finset.notMem_empty b)
  exact (hempty.addLocalNeighbors nbRank localReach).addRandomNeighborsFrom h

end Titus.VictimSelector
