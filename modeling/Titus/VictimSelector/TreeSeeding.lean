import Titus.VictimSelector.HalfEdgeTable
import Titus.VictimSelector.RegularGraphRepair
import Titus.VictimSelector.TreeEdges

/-! `add_all_neighbors_from_tree` on machine integers: the edges of the infixed tree are added to the
table of half edges. -/

namespace Titus.VictimSelector.Machine

open TablePermutation Incidence

/-! ### Functions -/

/-- `get_tree_neighbors` for a whole tree. -/
def getTreeNeighbors (rank subtreeSize : ℕ) : Option TreeNeighbors :=
  treeNeighbors subtreeSize rank subtreeSize 0

section Functions

variable (nbRank degree : ℕ)

/-- `add_neighbors_of_rank_in_tree`. -/
def addNeighborsOfRankInTree (t : HalfEdgeTable) (rank : ℕ) : Option HalfEdgeTable :=
  if degree ≥ 3 then do
    let n ← getTreeNeighbors rank (toRank nbRank)
    let t ← if n.leftChild ≠ noRank then addNeighboring nbRank degree t rank n.leftChild else some t
    -- The test is that of the left child again.
    if n.leftChild ≠ noRank then addNeighboring nbRank degree t rank n.rightChild else some t
  else none

/-- `add_all_neighbors_from_tree`. -/
def addAllNeighborsFromTree : Option HalfEdgeTable :=
  (List.range (toRank nbRank)).foldlM (addNeighborsOfRankInTree nbRank degree)
    (newTable nbRank degree)

/-- The calls of `add_neighboring` in `add_neighbors_of_rank_in_tree`. -/
def rankCalls (rank : ℕ) (n : TreeNeighbors) : List (ℕ × ℕ) :=
  if n.leftChild ≠ noRank then [(rank, n.leftChild), (rank, n.rightChild)] else []

/-- The calls of `add_neighboring` for these ranks of a tree of `size` ranks. -/
def callsOf (size : ℕ) : List ℕ → Option (List (ℕ × ℕ))
  | [] => some []
  | rank :: ranks => do
    let n ← getTreeNeighbors rank size
    let calls ← callsOf size ranks
    some (rankCalls rank n ++ calls)

/-- The calls of `add_neighboring` in `add_all_neighbors_from_tree`. -/
def treeCalls : Option (List (ℕ × ℕ)) := callsOf (toRank nbRank) (List.range (toRank nbRank))

/-- The neighbors of a rank that are set. -/
def setEntries (t : HalfEdgeTable) (rank : ℕ) : List ℕ :=
  ((List.range degree).map fun i => t.neighbors (rank * degree + i)).filter (· ≠ noRank)

/-! ### Properties -/

/-- `find_free_half_edge` finds a half edge of each of the two ranks that is not set. -/
def FindsFree (t : HalfEdgeTable) (call : ℕ × ℕ) : Prop :=
  (∃ a, findFree degree t.neighbors call.1 = some a ∧ a < nbRank * degree ∧ a / degree = call.1 ∧
      t.neighbors a = noRank) ∧
    ∃ b, findFree degree t.neighbors call.2 = some b ∧ b < nbRank * degree ∧ b / degree = call.2 ∧
      t.neighbors b = noRank

/-- `add_all_neighbors_from_tree` makes these calls, returns, and leaves the edges of the tree in the
table. -/
structure SeedsTree (calls : List (ℕ × ℕ)) (t : HalfEdgeTable) : Prop where
  made : treeCalls nbRank = some calls
  ranks : ∀ call ∈ calls, call.1 < nbRank ∧ call.2 < nbRank
  finds : (halfEdgeTable nbRank degree).Along (FindsFree nbRank degree) (newTable nbRank degree)
    calls
  returns : addAllNeighborsFromTree nbRank degree = some t
  /-- What is set for a rank are its parent and its children, -/
  entries : ∀ rank < nbRank, (setEntries degree t rank).Perm (nodeOf nbRank rank).relatives
  /-- each of them once. -/
  once : ∀ rank < nbRank, (setEntries degree t rank).Nodup

end Functions

variable {nbRank degree rank : ℕ} {t t' : HalfEdgeTable} {call : ℕ × ℕ}
  {calls done ranks : List (ℕ × ℕ)}

/-! ### The calls -/

theorem addNeighborsOfRankInTree_eq (hdegree : 3 ≤ degree) {n : TreeNeighbors}
    (hn : getTreeNeighbors rank (toRank nbRank) = some n) :
    addNeighborsOfRankInTree nbRank degree t rank =
      (halfEdgeTable nbRank degree).run t (rankCalls rank n) := by
  rw [addNeighborsOfRankInTree, if_pos hdegree, hn, rankCalls]
  by_cases hleft : n.leftChild ≠ noRank
  · simp only [if_pos hleft, Option.bind_eq_bind, Option.bind_some, Transition.System.run,
      halfEdgeTable, Option.bind_fun_some]
  · simp only [if_neg hleft, Option.bind_eq_bind, Option.bind_some, Transition.System.run]

/-- The function makes its calls one after the other. -/
theorem foldlM_addNeighborsOfRankInTree (hdegree : 3 ≤ degree) {ranks : List ℕ}
    (hcalls : callsOf (toRank nbRank) ranks = some calls) :
    ranks.foldlM (addNeighborsOfRankInTree nbRank degree) t =
      (halfEdgeTable nbRank degree).run t calls := by
  induction ranks generalizing t calls with
  | nil =>
    cases hcalls
    rfl
  | cons rank ranks ih =>
    obtain ⟨n, hn, hrest⟩ := Option.bind_eq_some_iff.mp hcalls
    obtain ⟨later, hlater, hcalls⟩ := Option.bind_eq_some_iff.mp hrest
    cases hcalls
    rw [List.foldlM_cons, addNeighborsOfRankInTree_eq hdegree hn,
      Transition.System.run_append_eq_bind]
    exact congrArg _ (funext fun t' => ih hlater)

/-- In a tree that `DVS_RANK_TYPE` has numbers for, every rank gets the answer of its node. -/
theorem getTreeNeighbors_eq {size : ℕ} (hsize : size ≤ noRank) (hrank : rank < size) :
    getTreeNeighbors rank size = some (ofNeighbors (nodeOf size rank)) := by
  have h1 : 1 ≤ size := by omega
  obtain ⟨tree, htree⟩ := exists_treeOn h1
  have hnode := (htree.found rank hrank).1
  rw [VictimSelector.getTreeNeighbors] at hnode
  rw [getTreeNeighbors, treeNeighbors_eq h1 (log2_lt_self h1) (Nat.zero_le rank) (by omega)
    (by omega), hnode, Option.map_some]

/-- The edges from a rank to its children, in the words of the code. -/
def nodeCalls (size rank : ℕ) : List (ℕ × ℕ) := rankCalls rank (ofNeighbors (nodeOf size rank))

theorem callsOf_eq {size : ℕ} (hsize : size ≤ noRank) {ranks : List ℕ}
    (hranks : ∀ rank ∈ ranks, rank < size) :
    callsOf size ranks = some (ranks.flatMap (nodeCalls size)) := by
  induction ranks with
  | nil => rfl
  | cons rank ranks ih =>
    rw [callsOf, getTreeNeighbors_eq hsize (hranks rank List.mem_cons_self),
      ih fun r hr => hranks r (List.mem_cons_of_mem _ hr)]
    rfl

theorem treeCalls_eq (hsize : nbRank ≤ noRank) :
    treeCalls nbRank = some ((List.range nbRank).flatMap (nodeCalls nbRank)) := by
  have hword : toRank nbRank = nbRank := Nat.mod_eq_of_lt (by unfold noRank at hsize; omega)
  rw [treeCalls, hword]
  exact callsOf_eq hsize fun rank hrank => List.mem_range.mp hrank

/-- The calls for a rank that has two children or none are its edges to them. -/
theorem nodeCalls_eq {tree : BinaryTree ℕ} {size : ℕ} (h : TreeOn size tree) (hsize : size ≤ noRank)
    (hrank : rank < size)
    (hboth : (nodeOf size rank).leftChild = none ↔ (nodeOf size rank).rightChild = none) :
    nodeCalls size rank = (nodeOf size rank).children.map (Prod.mk rank) := by
  have hlt : ∀ c, (nodeOf size rank).leftChild = some c → c < size := fun c hc =>
    h.child_lt hrank (mem_children.mpr (.inl hc))
  rw [nodeCalls, InfixedBTreeNeighbors.children]
  generalize nodeOf size rank = nb at hlt hboth
  obtain ⟨r, parent, left, right⟩ := nb
  cases left with
  | none =>
    obtain rfl : right = none := hboth.mp rfl
    rfl
  | some a =>
    cases right with
    | none => cases hboth.mpr rfl
    | some b =>
      have ha : a ≠ noRank := ((hlt a rfl).trans_le hsize).ne
      exact if_pos ha

/-- With a left child only, a rank gets a call without a second rank. -/
theorem noRank_mem_nodeCalls {tree : BinaryTree ℕ} {size a : ℕ} (h : TreeOn size tree)
    (hsize : size ≤ noRank) (hrank : rank < size) (hl : (nodeOf size rank).leftChild = some a)
    (hr : (nodeOf size rank).rightChild = none) : (rank, noRank) ∈ nodeCalls size rank := by
  have ha : a ≠ noRank := ((h.child_lt hrank (mem_children.mpr (.inl hl))).trans_le hsize).ne
  rw [nodeCalls, rankCalls]
  simp only [ofNeighbors, hl, hr, Option.getD_some, Option.getD_none, if_pos ha]
  exact List.mem_cons_of_mem _ List.mem_cons_self

/-! ### The rows of the table -/

/-- The table after the calls `done`: a rank's first neighbors are those that `done` has for it. -/
structure RowsOk (nbRank degree : ℕ) (done : List (ℕ × ℕ)) (t : HalfEdgeTable) : Prop where
  permutes : Permutes (min (nbRank * degree) (2 ^ 16)) t.halfEdges
  available : t.availableHalfEdges + 2 * done.length = nbRank * degree
  row : ∀ rank < nbRank, ∀ i < degree,
    t.neighbors (rank * degree + i) = (ends rank done)[i]?.getD noRank
  set : ∀ rank, ∀ x ∈ ends rank done, x < nbRank

/-- A call for which there is room in the table. -/
structure RoomForCall (nbRank degree : ℕ) (done : List (ℕ × ℕ)) (call : ℕ × ℕ) : Prop where
  ne : call.1 ≠ call.2
  lt : ∀ rank, rank = call.1 ∨ rank = call.2 → rank < nbRank
  free : ∀ rank, rank = call.1 ∨ rank = call.2 → (ends rank done).length < degree
  word : ∀ rank, rank = call.1 ∨ rank = call.2 →
    rank * degree + (ends rank done).length < 2 ^ 16
  count : 2 * done.length + 2 ≤ min (nbRank * degree) (2 ^ 16)

/-- The first half edge of a rank that is not set comes right after those that are. -/
theorem RowsOk.findFree (h : RowsOk nbRank degree done t) (hn : nbRank ≤ noRank)
    (hrank : rank < nbRank) (hfree : (ends rank done).length < degree)
    (hword : rank * degree + (ends rank done).length < 2 ^ 16) :
    findFree degree t.neighbors rank = some (rank * degree + (ends rank done).length) ∧
      t.neighbors (rank * degree + (ends rank done).length) = noRank := by
  have hnone : t.neighbors (rank * degree + (ends rank done).length) = noRank := by
    rw [h.row rank hrank _ hfree, List.getElem?_eq_none le_rfl, Option.getD_none]
  refine ⟨?_, hnone⟩
  rw [Machine.findFree, toRank, Nat.mod_eq_of_lt (by omega)]
  apply freeFrom_eq _ hnone _ hword (by omega)
  · intro j hj
    rw [h.row rank hrank j (hj.trans hfree), List.getElem?_eq_getElem hj, Option.getD_some]
    exact ((h.set rank _ (List.getElem_mem hj)).trans_le hn).ne
  · rw [Nat.succ_mul]
    omega

theorem rowsOk_new : RowsOk nbRank degree [] (newTable nbRank degree) := by
  constructor
  · unfold Permutes
    conv_rhs => rw [← Multiset.map_id (Multiset.range (min (nbRank * degree) (2 ^ 16)))]
    apply Multiset.map_congr rfl
    intro k hk
    exact Nat.mod_eq_of_lt ((Multiset.mem_range.mp hk).trans_le (Nat.min_le_right _ _))
  · rfl
  · intro rank _ i _
    rfl
  · intro rank x hx
    cases hx

theorem getD_concat {l : List ℕ} {x y i : ℕ} :
    (l ++ [x])[i]?.getD y = if i = l.length then x else l[i]?.getD y := by
  rcases Nat.lt_trichotomy i l.length with hlt | rfl | hgt
  · rw [if_neg hlt.ne, List.getElem?_append_left hlt]
  · rw [if_pos rfl, List.getElem?_concat_length, Option.getD_some]
  · rw [if_neg hgt.ne', List.getElem?_eq_none hgt.le, List.getElem?_eq_none]
    rw [List.length_append]
    exact hgt

/-- The rows of two ranks are apart. -/
theorem row_ne {rank' i j : ℕ} (hne : rank ≠ rank') (hi : i < degree) (hj : j < degree) :
    rank * degree + i ≠ rank' * degree + j := by
  intro heq
  have hdiv := congrArg (· / degree) heq
  simp only [row_div hi, row_div hj] at hdiv
  exact hne hdiv

/-- The table after a call that has found the half edges `a` and `b`. -/
theorem RowsOk.rows (h : RowsOk nbRank degree done t) (hcall : RoomForCall nbRank degree done call)
    {a b i : ℕ} (ha : a = call.1 * degree + (ends call.1 done).length)
    (hb : b = call.2 * degree + (ends call.2 done).length) (hrank : rank < nbRank)
    (hi : i < degree) :
    Function.update (Function.update t.neighbors a call.2) b call.1 (rank * degree + i) =
      (ends rank (done ++ [call]))[i]?.getD noRank := by
  have hfreeA := hcall.free call.1 (.inl rfl)
  have hfreeB := hcall.free call.2 (.inr rfl)
  obtain ⟨rankA, rankB⟩ := call
  have hne : rankA ≠ rankB := hcall.ne
  dsimp only at ha hb
  rw [ends_concat]
  by_cases hrankA : rank = rankA
  · subst hrankA
    have hb' : rank * degree + i ≠ b := hb ▸ row_ne hne hi hfreeB
    rw [otherEnd_left hne, getD_concat, Function.update_of_ne hb', ← h.row rank hrank i hi]
    by_cases hlast : i = (ends rank done).length
    · rw [if_pos hlast, hlast, ← ha, Function.update_self]
    · have ha' : rank * degree + i ≠ a := by omega
      rw [if_neg hlast, Function.update_of_ne ha']
  by_cases hrankB : rank = rankB
  · subst hrankB
    rw [otherEnd_right hne, getD_concat, ← h.row rank hrank i hi]
    by_cases hlast : i = (ends rank done).length
    · rw [if_pos hlast, hlast, ← hb, Function.update_self]
    · have ha' : rank * degree + i ≠ a := ha ▸ row_ne hne.symm hi hfreeA
      have hb' : rank * degree + i ≠ b := by omega
      rw [if_neg hlast, Function.update_of_ne hb', Function.update_of_ne ha']
  · have ha' : rank * degree + i ≠ a := ha ▸ row_ne hrankA hi hfreeA
    have hb' : rank * degree + i ≠ b := hb ▸ row_ne hrankB hi hfreeB
    rw [otherEnd_of_ne hrankA hrankB, List.append_nil, Function.update_of_ne hb',
      Function.update_of_ne ha', h.row rank hrank i hi]

/-- A call for which there is room finds its half edges and adds its edge. -/
theorem RowsOk.addNeighboring (h : RowsOk nbRank degree done t) (hn : nbRank ≤ noRank)
    (hdegree : degree ≤ nbRank) (hcall : RoomForCall nbRank degree done call) :
    FindsFree nbRank degree t call ∧
      ∃ t', addNeighboring nbRank degree t call.1 call.2 = some t' ∧
        RowsOk nbRank degree (done ++ [call]) t' := by
  have hltA := hcall.lt call.1 (.inl rfl)
  have hltB := hcall.lt call.2 (.inr rfl)
  have hfreeA := hcall.free call.1 (.inl rfl)
  have hfreeB := hcall.free call.2 (.inr rfl)
  have hwordA := hcall.word call.1 (.inl rfl)
  have hwordB := hcall.word call.2 (.inr rfl)
  obtain ⟨hfindA, hnoneA⟩ := h.findFree hn hltA hfreeA hwordA
  obtain ⟨hfindB, hnoneB⟩ := h.findFree hn hltB hfreeB hwordB
  have hinA := row_lt hltA hfreeA
  have hinB := row_lt hltB hfreeB
  have hownA : (call.1 * degree + (ends call.1 done).length) / degree = call.1 := row_div hfreeA
  have hownB : (call.2 * degree + (ends call.2 done).length) / degree = call.2 := row_div hfreeB
  have hrows : ∀ rank < nbRank, ∀ i < degree, _ := fun rank hrank i hi =>
    h.rows (i := i) hcall rfl rfl hrank hi
  generalize call.1 * degree + (ends call.1 done).length = a at *
  generalize call.2 * degree + (ends call.2 done).length = b at *
  refine ⟨⟨⟨a, hfindA, hinA, hownA, hnoneA⟩, ⟨b, hfindB, hinB, hownB, hnoneB⟩⟩, ?_⟩
  have hcount := hcall.count
  have havailable := h.available
  have hsize : nbRank * degree < 2 ^ 64 := by
    have hmul := Nat.mul_le_mul_left nbRank (hdegree.trans hn)
    unfold noRank at hn hmul
    omega
  have hrank : nbRank < 2 ^ 16 := by
    unfold noRank at hn
    omega
  obtain ⟨p, hltP, hp, -⟩ := h.permutes.search (show a < min (nbRank * degree) (2 ^ 16) by omega)
    (Nat.min_le_right _ _)
  obtain ⟨q, hltQ, hq, -⟩ := h.permutes.search (show b < min (nbRank * degree) (2 ^ 16) by omega)
    (Nat.min_le_right _ _)
  refine ⟨_, addNeighboring_eq hrank hsize (by omega) (by omega) hfindA hfindB hownA hownB hltA hltB
    hp hq, ?_⟩
  constructor
  · simp only [connected, inUse]
    exact (h.permutes.swapAt (by omega) hltP).swapAt (by omega) hltQ
  · simp only [connected, List.length_append, List.length_singleton]
    omega
  · exact hrows
  · intro rank x hx
    rw [ends_concat, List.mem_append] at hx
    rcases hx with hx | hx
    · exact h.set rank x hx
    · rcases mem_otherEnd hx with rfl | rfl
      · exact hltA
      · exact hltB

/-! ### All calls -/

/-- The conditions of all calls, and then the table. -/
theorem RowsOk.run (h : RowsOk nbRank degree done t) (hn : nbRank ≤ noRank)
    (hdegree : degree ≤ nbRank)
    (hroom : ∀ before call after, calls = before ++ call :: after →
      RoomForCall nbRank degree (done ++ before) call) :
    (halfEdgeTable nbRank degree).Along (FindsFree nbRank degree) t calls ∧
      ∃ t', (halfEdgeTable nbRank degree).run t calls = some t' ∧
        RowsOk nbRank degree (done ++ calls) t' := by
  induction calls generalizing done t with
  | nil =>
    refine ⟨trivial, t, rfl, ?_⟩
    rwa [List.append_nil]
  | cons call calls ih =>
    have hcall := hroom [] call calls rfl
    rw [List.append_nil] at hcall
    obtain ⟨hfinds, t', ht', hrows⟩ := h.addNeighboring hn hdegree hcall
    have hlater : ∀ before call' after, calls = before ++ call' :: after →
        RoomForCall nbRank degree (done ++ [call] ++ before) call' := by
      intro before call' after hcalls
      rw [List.append_assoc]
      exact hroom (call :: before) call' after (congrArg (call :: ·) hcalls)
    obtain ⟨halong, t'', ht'', hrows'⟩ := ih hrows hlater
    constructor
    · refine ⟨hfinds, fun s hs => ?_⟩
      cases ht'.symm.trans hs
      exact halong
    · refine ⟨t'', ?_, ?_⟩
      · rw [Transition.System.run]
        simp only [halfEdgeTable, ht', Option.bind_some]
        exact ht''
      · rwa [List.append_assoc] at hrows'

/-- In a tree of an odd number of ranks, the last rank is a leaf. -/
theorem children_last {tree : BinaryTree ℕ} (h : TreeOn nbRank tree) (hodd : Odd nbRank)
    (hlast : rank + 1 = nbRank) : (nodeOf nbRank rank).children = [] := by
  have hrank : rank < nbRank := by omega
  have hright : (nodeOf nbRank rank).rightChild = none := by
    cases hr : (nodeOf nbRank rank).rightChild with
    | none => rfl
    | some c =>
      have hgt := (h.children_ordered hrank).2 c hr
      have hlt := h.child_lt hrank (mem_children.mpr (.inr hr))
      omega
  have hleft := (children_of_odd hodd (log2_lt_self (by omega)) (Nat.zero_le rank) (by omega)
    (h.found rank hrank).1).mpr hright
  rw [InfixedBTreeNeighbors.children, hleft, hright]
  rfl

/-- Where no rank has a left child only, there is room for every edge. -/
theorem roomForCall_edges {tree : BinaryTree ℕ} (h : TreeOn nbRank tree) (hdegree : 3 ≤ degree)
    (hodd : Odd nbRank) (hsize : (nbRank - 1) * degree < 2 ^ 16) {before after : List (ℕ × ℕ)}
    (hcalls : childEdges (fun p => (nodeOf nbRank p).children) (List.range nbRank) =
      before ++ call :: after) : RoomForCall nbRank degree before call := by
  have hmem : call ∈ childEdges (fun p => (nodeOf nbRank p).children) (List.range nbRank) :=
    hcalls ▸ List.mem_append_right before List.mem_cons_self
  obtain ⟨p, c⟩ := call
  rw [mem_childEdges, List.mem_range] at hmem
  obtain ⟨hp, hc⟩ := hmem
  have hne : p ≠ c := by
    obtain ⟨hleft, hright⟩ := h.children_ordered hp
    rcases mem_children.mp hc with hl | hr
    · exact (hleft c hl).ne'
    · exact (hright c hr).ne
  have hlt : ∀ rank, rank = p ∨ rank = c → rank < nbRank := by
    rintro rank (rfl | rfl)
    · exact hp
    · exact h.child_lt hp hc
  have hless : ∀ rank, rank = p ∨ rank = c →
      (ends rank before).length < (nodeOf nbRank rank).relatives.length := by
    intro rank hends
    rw [← (h.ends_perm (hlt rank hends)).length_eq, hcalls]
    exact length_ends_lt hne hends
  have hthree : 3 * (nbRank - 1) < 2 ^ 16 := by
    have := Nat.mul_le_mul_left (nbRank - 1) hdegree
    omega
  constructor
  · exact hne
  · exact hlt
  · intro rank hends
    exact (hless rank hends).trans_le ((length_relatives_le _).trans hdegree)
  · intro rank hends
    have hrank := hlt rank hends
    have hends := hless rank hends
    by_cases hlast : rank + 1 = nbRank
    · rw [InfixedBTreeNeighbors.relatives, children_last h hodd hlast, List.append_nil] at hends
      have hone : (nodeOf nbRank rank).parent.toList.length ≤ 1 := Option.length_toList_le
      rw [← hlast, Nat.add_sub_cancel] at hsize
      omega
    · have hrow : (rank + 1) * degree ≤ (nbRank - 1) * degree :=
        Nat.mul_le_mul_right degree (by omega)
      have hfew := length_relatives_le (nodeOf nbRank rank)
      rw [Nat.succ_mul] at hrow
      omega
  · have hedges := h.length_edges_le
    rw [hcalls, List.length_append, List.length_cons] at hedges
    have hmul := Nat.mul_le_mul_left nbRank hdegree
    omega

/-- All that is set of a row are the ends that the calls have for the rank. -/
theorem RowsOk.setEntries (h : RowsOk nbRank degree done t) (hn : nbRank ≤ noRank)
    (hrank : rank < nbRank) (hle : (ends rank done).length ≤ degree) :
    setEntries degree t rank = ends rank done := by
  obtain ⟨d, hd⟩ := Nat.exists_eq_add_of_le hle
  have hrow : (List.range degree).map (fun i => t.neighbors (rank * degree + i)) =
      ends rank done ++ List.replicate d noRank := by
    apply List.ext_getElem
    · rw [List.length_map, List.length_range, List.length_append, List.length_replicate, hd]
    · intro i hi hi'
      rw [List.length_map, List.length_range] at hi
      rw [List.getElem_map, List.getElem_range, h.row rank hrank i hi]
      by_cases hlt : i < (ends rank done).length
      · rw [List.getElem_append_left hlt, List.getElem?_eq_getElem hlt, Option.getD_some]
      · rw [List.getElem_append_right (by omega), List.getElem_replicate,
          List.getElem?_eq_none (by omega), Option.getD_none]
  have hset : ∀ x ∈ ends rank done, decide (x ≠ noRank) = true := fun x hx =>
    decide_eq_true ((h.set rank x hx).trans_le hn).ne
  rw [Machine.setEntries, hrow, List.filter_append, List.filter_eq_self.mpr hset,
    List.filter_replicate_of_neg (by simp), List.append_nil]

theorem freeFrom_lt {neighbors : ℕ → ℕ} {last fuel i h : ℕ}
    (hfound : freeFrom neighbors last fuel i = some h) (hi : i < 2 ^ 16) : h < 2 ^ 16 := by
  induction fuel generalizing i with
  | zero => cases hfound
  | succ fuel ih =>
    rw [freeFrom] at hfound
    split_ifs at hfound
    · cases hfound
      exact hi
    · exact ih hfound (Nat.mod_lt _ (Nat.two_pow_pos 16))

/-- No call writes behind the first `2 ^ 16` half edges. -/
theorem neighbors_of_ge (hrun : (halfEdgeTable nbRank degree).run (newTable nbRank degree) calls =
    some t) : ∀ i, 2 ^ 16 ≤ i → t.neighbors i = noRank := by
  refine Transition.System.run_induction (I := fun t => ∀ i, 2 ^ 16 ≤ i → t.neighbors i = noRank)
    ?_ (fun _ _ => rfl) hrun
  intro t call t' hold hs i hi
  obtain ⟨a, ha, hs⟩ := Option.bind_eq_some_iff.mp hs
  obtain ⟨b, hb, hs⟩ := Option.bind_eq_some_iff.mp hs
  obtain ⟨s, hconnect, hs⟩ := Option.bind_eq_some_iff.mp hs
  cases hs
  have hlta : a < 2 ^ 16 := freeFrom_lt ha (Nat.mod_lt _ (Nat.two_pow_pos 16))
  have hltb : b < 2 ^ 16 := freeFrom_lt hb (Nat.mod_lt _ (Nat.two_pow_pos 16))
  have hsame : s.neighbors = t.neighbors := by
    obtain ⟨_, -, hconnect⟩ := Option.bind_eq_some_iff.mp hconnect
    obtain ⟨_, -, hconnect⟩ := Option.bind_eq_some_iff.mp hconnect
    obtain ⟨_, -, hconnect⟩ := Option.bind_eq_some_iff.mp hconnect
    obtain ⟨_, -, hconnect⟩ := Option.bind_eq_some_iff.mp hconnect
    cases hconnect
    rfl
  simp only [Nat.div_add_mod']
  rw [Function.update_of_ne (by omega), Function.update_of_ne (by omega), hsame, hold i hi]

/-- In a tree with few enough half edges, `DVS_RANK_TYPE` has a number for each rank. -/
theorem le_noRank (hdegree : 3 ≤ degree) (hsize : (nbRank - 1) * degree < 2 ^ 16) :
    nbRank ≤ noRank := by
  have := Nat.mul_le_mul_left (nbRank - 1) hdegree
  unfold noRank
  omega

/-- The row of the last rank is written to. -/
theorem SeedsTree.size_lt (h : SeedsTree nbRank degree calls t) (hdegree : 3 ≤ degree)
    (h2 : 2 ≤ nbRank) : (nbRank - 1) * degree < 2 ^ 16 := by
  obtain ⟨tree, htree⟩ := exists_treeOn (show 1 ≤ nbRank by omega)
  by_contra hsize
  have hlast : nbRank - 1 < nbRank := by omega
  have hrun : (halfEdgeTable nbRank degree).run (newTable nbRank degree) calls = some t := by
    rw [← foldlM_addNeighborsOfRankInTree hdegree h.made]
    exact h.returns
  have hempty : setEntries degree t (nbRank - 1) = [] := by
    rw [setEntries, List.filter_eq_nil_iff]
    intro x hx
    obtain ⟨i, -, rfl⟩ := List.mem_map.mp hx
    rw [neighbors_of_ge hrun _ (by omega)]
    simp
  have hperm := h.entries (nbRank - 1) hlast
  rw [hempty] at hperm
  exact htree.relatives_ne_nil h2 hlast hperm.nil_eq.symm

/-- Every call is for two ranks. -/
theorem SeedsTree.odd (h : SeedsTree nbRank degree calls t) (hn : nbRank ≤ noRank)
    (h2 : 2 ≤ nbRank) : Odd nbRank := by
  obtain ⟨tree, htree⟩ := exists_treeOn (show 1 ≤ nbRank by omega)
  by_contra hodd
  obtain ⟨rank, nb, -, hlt, hnb, hleft, hright⟩ :=
    exists_only_left (Nat.not_odd_iff_even.mp hodd) h2 (log2_lt_self (by omega)) 0
  rw [Nat.zero_add] at hlt
  cases (htree.found rank hlt).1.symm.trans hnb
  obtain ⟨a, ha⟩ := Option.ne_none_iff_exists'.mp hleft
  have hmem := noRank_mem_nodeCalls htree hn hlt ha hright
  cases (treeCalls_eq hn).symm.trans h.made
  have hvalid := h.ranks _ (List.mem_flatMap.mpr ⟨rank, List.mem_range.mpr hlt, hmem⟩)
  exact absurd hn hvalid.2.not_ge

theorem exists_seedsTree (hdegree : 3 ≤ degree) (hrank : degree < nbRank) (hodd : Odd nbRank)
    (hsize : (nbRank - 1) * degree < 2 ^ 16) : ∃ calls t, SeedsTree nbRank degree calls t := by
  obtain ⟨tree, htree⟩ := exists_treeOn (show 1 ≤ nbRank by omega)
  have hn := le_noRank hdegree hsize
  have hedges : (List.range nbRank).flatMap (nodeCalls nbRank) =
      childEdges (fun p => (nodeOf nbRank p).children) (List.range nbRank) := by
    apply List.flatMap_congr
    intro rank hmem
    have hlt := List.mem_range.mp hmem
    apply nodeCalls_eq htree hn hlt
    exact children_of_odd hodd (log2_lt_self (by omega)) (Nat.zero_le rank) (by omega)
      (htree.found rank hlt).1
  have hmade := treeCalls_eq hn
  rw [hedges] at hmade
  obtain ⟨hfinds, t, hrun, hrows⟩ := rowsOk_new.run hn hrank.le
    fun before call after hcalls => roomForCall_edges htree hdegree hodd hsize hcalls
  have hset : ∀ rank < nbRank, (setEntries degree t rank).Perm (nodeOf nbRank rank).relatives := by
    intro rank hlt
    have hperm := htree.ends_perm hlt
    have hle := hperm.length_eq.trans_le ((length_relatives_le _).trans hdegree)
    rw [hrows.setEntries hn hlt hle]
    exact hperm
  refine ⟨childEdges (fun p => (nodeOf nbRank p).children) (List.range nbRank), t, ?_⟩
  constructor
  · exact hmade
  · rintro ⟨p, c⟩ hmem
    rw [mem_childEdges, List.mem_range] at hmem
    exact ⟨hmem.1, htree.child_lt hmem.1 hmem.2⟩
  · exact hfinds
  · rw [← hrun, ← foldlM_addNeighborsOfRankInTree hdegree hmade]
    have hword : toRank nbRank = nbRank := Nat.mod_eq_of_lt (by unfold noRank at hn; omega)
    rw [addAllNeighborsFromTree, hword]
  · exact hset
  · intro rank hlt
    exact (hset rank hlt).nodup_iff.mpr (htree.nodup_relatives hlt)

theorem tree_seeded_iff (hdegree : 3 ≤ degree) (hrank : degree < nbRank) :
    (∃ calls t, SeedsTree nbRank degree calls t) ↔
      Odd nbRank ∧ (nbRank - 1) * degree < 2 ^ 16 := by
  constructor
  · rintro ⟨calls, t, h⟩
    have hsize := h.size_lt hdegree (by omega)
    exact ⟨h.odd (le_noRank hdegree hsize) (by omega), hsize⟩
  · rintro ⟨hodd, hsize⟩
    exact exists_seedsTree hdegree hrank hodd hsize

theorem tree_not_seeded : treeCalls 4 = some [(1, 0), (1, noRank), (2, 1), (2, 3)] ∧
    ¬ ∃ calls t, SeedsTree 4 3 calls t := by
  have hcalls : treeCalls 4 = some [(1, 0), (1, noRank), (2, 1), (2, 3)] := by decide +kernel
  refine ⟨hcalls, ?_⟩
  rintro ⟨calls, t, h⟩
  cases hcalls.symm.trans h.made
  have hvalid := h.ranks (1, noRank) (by decide)
  exact absurd hvalid.2 (by decide)

theorem tree_seeded_iff_five : (∃ calls t, SeedsTree 5 3 calls t) ↔
    Odd 5 ∧ (5 - 1) * 3 < 2 ^ 16 := tree_seeded_iff (by decide) (by decide)

end Titus.VictimSelector.Machine
