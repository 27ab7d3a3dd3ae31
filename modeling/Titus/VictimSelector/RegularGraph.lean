import Titus.Lib.Rewiring
import Titus.Lib.TablePermutation
import Titus.Lib.Transition
import Titus.VictimSelector.Kleinberg

/-! The generator of random regular graphs: `d_reg_neighboring_generator`.  Half edges are paired
at random, and then edges are swapped until no loop and no parallel edge is left. -/

namespace Titus.VictimSelector

open TablePermutation Rewiring

/-! ### State -/

/-- The point that the generator has reached. -/
inductive GeneratorPhase
  /-- Before `add_random_neighbors`. -/
  | adding
  /-- Before entry `i` of `half_edges` is swapped with another. -/
  | shuffling (i : ℕ)
  /-- At the head of the loop of `add_random_neighbor`. -/
  | pairing
  /-- Looking for self-connecting edges, at half edge `i`. -/
  | loops (i : ℕ)
  /-- Looking for parallel edges of rank `n`, at its half edges `i` and `j`. -/
  | parallels (n i j : ℕ)
  | returned
  /-- A half edge that was looked for does not exist, and an uninitialised variable is used. -/
  | undefined
deriving DecidableEq

/-- `d_reg_neighboring_generator`, where `none` stands for `(DVS_RANK_TYPE) -1`.  `added` is not in
memory: it has the edges that `add_neighboring` has added. -/
structure RegularGenerator where
  halfEdges : ℕ → ℕ
  neighbors : ℕ → Option ℕ
  availableHalfEdges : ℕ
  phase : GeneratorPhase
  added : List (ℕ × ℕ)

/-! ### Functions -/

section Functions

variable (nbRank degree : ℕ)

/-- The constructor. -/
def newGenerator : RegularGenerator where
  halfEdges i := toRank i
  neighbors _ := none
  availableHalfEdges := nbRank * degree
  phase := .adding
  added := []

/-- The owner of a half edge. -/
def ownerOf (h : ℕ) : Option ℕ := some (h / degree)

/-- `are_neighbors`. -/
def areNeighbors (neighbors : ℕ → Option ℕ) (rank0 : ℕ) (rank1 : Option ℕ) : Bool :=
  (List.range degree).any fun i => neighbors (rank0 * degree + i) = rank1

/-- `find_free_half_edge`, which fails at its assertion if there is none. -/
def findFreeHalfEdge (neighbors : ℕ → Option ℕ) (rank : ℕ) : Option ℕ :=
  (List.range' (rank * degree) degree).find? fun i => neighbors i = none

/-- `connect_half_edges`. -/
def connectHalfEdges (halfEdges : ℕ → ℕ) (available a b : ℕ) : Option (ℕ → ℕ) :=
  (indexFrom halfEdges a (nbRank * degree) a).bind fun indexOfA =>
    (indexFrom halfEdges b (nbRank * degree) b).map fun indexOfB =>
      swapAt (swapAt halfEdges (nbRank * degree - available) indexOfA)
        (nbRank * degree - (available - 1)) indexOfB

/-- `add_neighboring`. -/
def addNeighboring (s : RegularGenerator) (rankA rankB : ℕ) : Option RegularGenerator :=
  (findFreeHalfEdge degree s.neighbors rankA).bind fun a =>
    (findFreeHalfEdge degree s.neighbors rankB).bind fun b =>
      (connectHalfEdges nbRank degree s.halfEdges s.availableHalfEdges a b).map fun halfEdges =>
        { s with
          halfEdges
          neighbors := Function.update (Function.update s.neighbors a (some (b / degree))) b
            (some (a / degree))
          availableHalfEdges := s.availableHalfEdges - 2
          added := (rankA, rankB) :: s.added }

/-- The entry that entry `i` of `half_edges` is swapped with. -/
def shuffleTarget (available i drawn : ℕ) : ℕ :=
  let target := drawn % (available - 1)
  if i ≤ target then target else target + 1

/-- `add_random_neighbor`. -/
def addRandomNeighbor (s : RegularGenerator) (drawn : ℕ) : RegularGenerator :=
  let a := nbRank * degree - s.availableHalfEdges
  { s with
    halfEdges := swapAt s.halfEdges (a + 1) (a + drawn % (s.availableHalfEdges - 1) + 1)
    availableHalfEdges := s.availableHalfEdges - 2 }

/-- The first `count` pairs of `half_edges` are entered into `neighbors`. -/
def rebuildFrom (halfEdges : ℕ → ℕ) (neighbors : ℕ → Option ℕ) : ℕ → ℕ → Option ℕ
  | 0 => neighbors
  | count + 1 =>
    let a := halfEdges (2 * count)
    let b := halfEdges (2 * count + 1)
    Function.update (Function.update (rebuildFrom halfEdges neighbors count) a (some (b / degree))) b
      (some (a / degree))

/-- `rebuild_neighbors_from_half_edges`. -/
def rebuildNeighbors (s : RegularGenerator) : ℕ → Option ℕ :=
  rebuildFrom degree s.halfEdges s.neighbors ((nbRank * degree - s.availableHalfEdges) / 2)

/-- The repair of the loop at half edge `i` takes half edge `test`. -/
def loopAccepts (neighbors : ℕ → Option ℕ) (i test : ℕ) : Bool :=
  ¬ (i / degree = test / degree ∨ areNeighbors degree neighbors (i / degree) (some (test / degree)) ∨
    areNeighbors degree neighbors (i / degree) (neighbors test))

/-- The repair of the parallel edge at half edge `a` takes half edge `test`. -/
def parallelAccepts (neighbors : ℕ → Option ℕ) (a test : ℕ) : Bool :=
  ¬ (a / degree = test / degree ∨ areNeighbors degree neighbors (a / degree) (some (test / degree)) ∨
    (neighbors a).any fun rank => areNeighbors degree neighbors rank (neighbors test))

/-- The first of `count` half edges from `start` on that leads to rank `rank`, except `test`. -/
def findEnd (neighbors : ℕ → Option ℕ) (start count rank test : ℕ) : Option ℕ :=
  (List.range' start count).find? fun j => j ≠ test ∧ neighbors j = some rank

/-- The swap of the edges `a`-`b` and `c`-`d`, if the ends `b` and `d` have been found. -/
def swapEdges (s : RegularGenerator) (a c : ℕ) (b d : Option ℕ) (phase : GeneratorPhase) :
    RegularGenerator :=
  match b, d with
  | some b, some d =>
    { s with neighbors := rewire (ownerOf degree) s.neighbors a b c d, phase }
  | _, _ => { s with phase := .undefined }

/-- One round of the loop over self-connecting edges.  The end `d` is looked for without a bound.
From `2 ^ 16` half edges on `i` wraps around before it reaches their number, and the loop has no
end. -/
def loopStep (s : RegularGenerator) (i drawn : ℕ) : RegularGenerator :=
  let next := GeneratorPhase.loops (toRank (i + 1))
  if nbRank * degree ≤ i then { s with phase := .parallels 0 0 1 }
  else if s.neighbors i = some (i / degree) then
    let test := toRank (drawn % (nbRank * degree))
    if loopAccepts degree s.neighbors i test then
      swapEdges degree s i test
        (findEnd s.neighbors (i + 1) (degree - i % degree - 1) (i / degree) i)
        ((s.neighbors test).bind fun rank =>
          findEnd s.neighbors (rank * degree) (nbRank * degree - rank * degree) (test / degree) test)
        next
    else s
  else { s with phase := next }

/-- One round of the loops over parallel edges. -/
def parallelStep (s : RegularGenerator) (n i j drawn : ℕ) : RegularGenerator :=
  let a := n * degree + i
  if nbRank ≤ n then { s with phase := .returned }
  else if degree ≤ i then { s with phase := .parallels (n + 1) 0 1 }
  else if degree ≤ j then { s with phase := .parallels n (i + 1) (i + 2) }
  else if s.neighbors a = s.neighbors (n * degree + j) then
    let test := drawn % (nbRank * degree)
    if parallelAccepts degree s.neighbors a test then
      swapEdges degree s a test
        ((s.neighbors a).bind fun rank =>
          (List.range' (rank * degree) degree).find? fun k => s.neighbors k = some (a / degree))
        ((s.neighbors test).bind fun rank =>
          findEnd s.neighbors (rank * degree) degree (test / degree) test)
        (.parallels n i (j + 1))
    else s
  else { s with phase := .parallels n i (j + 1) }

/-! ### Steps -/

inductive GeneratorAction
  /-- Call `add_neighboring` for two ranks that are not neighbors yet. -/
  | addNeighboring (rankA rankB : ℕ)
  /-- Call `add_random_neighbors`. -/
  | addRandomNeighbors
  /-- Go on, where `rand()` returns `drawn`. -/
  | go (drawn : ℕ)
deriving DecidableEq

def nextGenerator (s : RegularGenerator) : GeneratorAction → Option RegularGenerator
  | .addNeighboring rankA rankB =>
    if s.phase = .adding ∧ rankA < nbRank ∧ rankB < nbRank ∧ rankA ≠ rankB ∧
        ¬ areNeighbors degree s.neighbors rankA (some rankB) then
      addNeighboring nbRank degree s rankA rankB
    else none
  | .addRandomNeighbors =>
    if s.phase = .adding then some { s with phase := .shuffling 0 } else none
  | .go drawn =>
    match s.phase with
    | .shuffling i =>
      if i < s.availableHalfEdges then
        some { s with
          halfEdges := swapAt s.halfEdges i (shuffleTarget s.availableHalfEdges i drawn)
          phase := .shuffling (i + 1) }
      else some { s with phase := .pairing }
    | .pairing =>
      if 1 < s.availableHalfEdges then some (addRandomNeighbor nbRank degree s drawn)
      else some { s with neighbors := rebuildNeighbors nbRank degree s, phase := .loops 0 }
    | .loops i => some (loopStep nbRank degree s i drawn)
    | .parallels n i j => some (parallelStep nbRank degree s n i j drawn)
    | .adding | .returned | .undefined => none

/-- The generator of regular graphs, for every random stream. -/
def regularGenerator : Transition.System RegularGenerator GeneratorAction where
  init s := s = newGenerator nbRank degree
  next := nextGenerator nbRank degree

end Functions

end Titus.VictimSelector
