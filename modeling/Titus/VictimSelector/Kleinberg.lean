import Titus.Lib.RingMetric
import Titus.Lib.OrderedSet
import Mathlib.Tactic.NormNum

/-! The one-dimensional Kleinberg graph that small-world victim selection builds over the ranks:
ring links, long-range links, and the neighbor closest to a destination.  A rank is a `gaspi_rank_t`,
an unsigned 16-bit integer, and the arithmetic of a long-range link is unsigned on 64 bits. -/

namespace Titus.VictimSelector

/-- A value stored in a `DVS_RANK_TYPE`. -/
def toRank (x : ℕ) : ℕ := x % 2 ^ 16

/-- A value computed as a `uint64_t`. -/
def toUInt64 (x : ℕ) : ℕ := x % 2 ^ 64

/-- One draw of `add_random_neighbors`: the distance, and whether the second number drawn exceeds
half the range, which makes the sign positive. -/
structure Draw where
  distance : ℕ
  positive : Bool
deriving Repr, DecidableEq

/-- The `int` sign converted to `uint64_t`: 1, or -1 modulo `2^64`. -/
def Draw.sign (d : Draw) : ℕ := if d.positive then 1 else 2 ^ 64 - 1

/-- `neighbors[r]` for every rank `r`. -/
abbrev Neighbors := ℕ → Finset ℕ

/-- `neighbors[a].insert(b)`. -/
def Neighbors.insertAt (neighbors : Neighbors) (a b : ℕ) : Neighbors :=
  Function.update neighbors a (insert b (neighbors a))

def getDistance (nbRank a b : ℕ) : ℕ :=
  min (toRank (RingMetric.gap a b)) (toRank (nbRank - RingMetric.gap a b))

/-- `b = (a + (distance * sign)) % nb_rank`. -/
def randomNeighbor (nbRank a : ℕ) (d : Draw) : ℕ :=
  toRank (toUInt64 (a + toUInt64 (d.distance * d.sign)) % nbRank)

/-- The inner loop of `add_local_neighbors`, from `j` on for `steps` iterations. -/
def addLocalNeighborsOf (nbRank i : ℕ) : ℕ → ℕ → Neighbors → Neighbors
  | 0, _, neighbors => neighbors
  | steps + 1, j, neighbors =>
    addLocalNeighborsOf nbRank i steps (j + 1)
      ((neighbors.insertAt i ((i + j) % nbRank)).insertAt ((i + j) % nbRank) i)

def addLocalNeighbors (nbRank localReach : ℕ) (neighbors : Neighbors) : Neighbors :=
  (List.range nbRank).foldl
    (fun neighbors i => addLocalNeighborsOf nbRank i localReach 1 neighbors) neighbors

/-- The inner loop of `add_random_neighbors` for rank `a`, with `i` links made.  A draw whose link
was already there does not count.  `none` when the draws run out. -/
def addRandomNeighborsOf (nbRank degree a : ℕ) :
    List Draw → ℕ → Neighbors → Option (List Draw × Neighbors)
  | [], i, neighbors =>
    if i < degree ∧ (neighbors a).card < nbRank - 1 then none else some ([], neighbors)
  | d :: draws, i, neighbors =>
    if i < degree ∧ (neighbors a).card < nbRank - 1 then
      let b := randomNeighbor nbRank a d
      let linked := neighbors.insertAt a b
      let i := if a ∈ linked b then i else i + 1
      addRandomNeighborsOf nbRank degree a draws i (linked.insertAt b a)
    else some (d :: draws, neighbors)

/-- The outer loop of `add_random_neighbors` over the ranks `as`. -/
def addRandomNeighborsFrom (nbRank degree : ℕ) :
    List ℕ → List Draw → Neighbors → Option Neighbors
  | [], _, neighbors => some neighbors
  | a :: as, draws, neighbors =>
    match addRandomNeighborsOf nbRank degree a draws 0 neighbors with
    | none => none
    | some (draws, neighbors) => addRandomNeighborsFrom nbRank degree as draws neighbors

def addRandomNeighbors (nbRank degree : ℕ) (draws : List Draw) (neighbors : Neighbors) :
    Option Neighbors :=
  addRandomNeighborsFrom nbRank degree (List.range nbRank) draws neighbors

/-- The constructor `d1_kleinberg_neighboring_generator(nb_rank, degree, local_reach)`, with the
stream of draws it consumes. -/
def d1KleinbergNeighboringGenerator (nbRank degree localReach : ℕ) (draws : List Draw) :
    Option Neighbors :=
  addRandomNeighbors nbRank degree draws (addLocalNeighbors nbRank localReach fun _ => ∅)

/-- The end of `get_closest_neighbor`: the first of the four candidates at the least distance. -/
def closestMatch (nbRank dest upperMatch lowerMatch lowestNeighbor highestNeighbor : ℕ) : ℕ :=
  let dUpper := getDistance nbRank dest upperMatch
  let dLower := getDistance nbRank dest lowerMatch
  let dLow := getDistance nbRank dest lowestNeighbor
  let dHigh := getDistance nbRank dest highestNeighbor
  let minimum := min (min dUpper dLower) (min dLow dHigh)
  if minimum = dUpper then upperMatch
  else if minimum = dLower then lowerMatch
  else if minimum = dLow then lowestNeighbor
  else if minimum = dHigh then highestNeighbor
  else toRank (2 ^ 64 - 1)

/-- `get_closest_neighbor`.  `endValue` is what `*lower_bound` reads at the end position, and `none`
is the undefined read of `*begin()` on an empty set. -/
def getClosestNeighbor (nbRank endValue : ℕ) (neighbors : Neighbors) (src dest : ℕ) : Option ℕ := do
  let it := OrderedSet.lowerBound (neighbors src) dest
  if it.getD endValue = dest then return dest
  let lowest ← OrderedSet.first (neighbors src)
  let highest ← OrderedSet.last (neighbors src)
  match it with
  | some upper =>
    let lower ← if upper = lowest then some upper else OrderedSet.before (neighbors src) upper
    return closestMatch nbRank dest upper lower lowest highest
  | none => return closestMatch nbRank dest highest highest lowest highest

/-! ### Distances and long-range links -/

theorem getDistance_eq {nbRank a b : ℕ} (hn : nbRank < 2 ^ 16) (ha : a < nbRank)
    (hb : b < nbRank) : getDistance nbRank a b = RingMetric.dist nbRank a b := by
  unfold getDistance RingMetric.dist toRank
  have hgap : RingMetric.gap a b < nbRank := by
    unfold RingMetric.gap
    omega
  rw [Nat.mod_eq_of_lt (show RingMetric.gap a b < 2 ^ 16 by omega),
    Nat.mod_eq_of_lt (show nbRank - RingMetric.gap a b < 2 ^ 16 by omega)]

theorem randomNeighbor_lt {nbRank : ℕ} (hn : 0 < nbRank) (a : ℕ) (d : Draw) :
    randomNeighbor nbRank a d < nbRank :=
  (Nat.mod_le _ _).trans_lt (Nat.mod_lt _ hn)

theorem randomNeighbor_of_positive {nbRank a : ℕ} (hn : nbRank < 2 ^ 16) (ha : a < nbRank) {d : ℕ}
    (hd : d < nbRank) :
    randomNeighbor nbRank a ⟨d, true⟩ = RingMetric.forward nbRank a d := by
  have hlt : (a + d) % nbRank < nbRank := Nat.mod_lt _ (by omega)
  simp only [randomNeighbor, Draw.sign, toRank, toUInt64, if_true, mul_one, RingMetric.forward]
  rw [Nat.mod_eq_of_lt (show d < 2 ^ 64 by omega), Nat.mod_eq_of_lt (show a + d < 2 ^ 64 by omega),
    Nat.mod_eq_of_lt (by omega)]

/-- A negative sign adds `2^64 - d`, and the sum wraps only from `2^64` on. -/
theorem toUInt64_add_neg {a d : ℕ} (ha : a < 2 ^ 16) (hd : 0 < d) (hd' : d < 2 ^ 16) :
    toUInt64 (a + toUInt64 (d * (2 ^ 64 - 1))) = if d ≤ a then a - d else 2 ^ 64 + a - d := by
  have h : toUInt64 (d * (2 ^ 64 - 1)) = 2 ^ 64 - d := by
    unfold toUInt64
    omega
  rw [h]
  unfold toUInt64
  split <;> omega

theorem randomNeighbor_of_negative {nbRank a : ℕ} (hn : nbRank < 2 ^ 16) (ha : a < nbRank) {d : ℕ}
    (hd : 0 < d) (hdn : d < nbRank) :
    randomNeighbor nbRank a ⟨d, false⟩ =
      if d ≤ a then a - d else (2 ^ 64 % nbRank + (a + nbRank - d)) % nbRank := by
  simp only [randomNeighbor, Draw.sign, Bool.false_eq_true, if_false]
  rw [toUInt64_add_neg (by omega) hd (by omega)]
  split
  · rw [toRank, Nat.mod_eq_of_lt (show a - d < nbRank by omega), Nat.mod_eq_of_lt (by omega)]
  · have hmod : (2 ^ 64 % nbRank + (a + nbRank - d)) % nbRank = (2 ^ 64 + a - d) % nbRank := by
      rw [Nat.mod_add_mod, show 2 ^ 64 + (a + nbRank - d) = 2 ^ 64 + a - d + nbRank by omega,
        Nat.add_mod_right]
    have hlt : (2 ^ 64 + a - d) % nbRank < nbRank := Nat.mod_lt _ (by omega)
    rw [hmod, toRank, Nat.mod_eq_of_lt (by omega)]

end Titus.VictimSelector
