import Titus.Lib.Incidence
import Titus.VictimSelector.InfixedWords
import Mathlib.Algebra.Group.Nat.Even
import Mathlib.Algebra.Ring.Parity

/-! The edges of the infixed tree, and the calls of `add_neighboring` that
`add_all_neighbors_from_tree` makes for them. -/

namespace Titus.VictimSelector

open LinkedTree Incidence

/-! ### The nodes of the tree -/

/-- The children of a rank. -/
def InfixedBTreeNeighbors.children (nb : InfixedBTreeNeighbors) : List ℕ :=
  nb.leftChild.toList ++ nb.rightChild.toList

/-- The ranks that a rank has an edge to. -/
def InfixedBTreeNeighbors.relatives (nb : InfixedBTreeNeighbors) : List ℕ :=
  nb.parent.toList ++ nb.children

/-- The node of a rank in the tree on `n` ranks. -/
def nodeOf (n rank : ℕ) : InfixedBTreeNeighbors :=
  (getTreeNeighbors rank n).getD ⟨rank, none, none, none⟩

/-- The nodes of the ranks below `n` are those of one tree. -/
structure TreeOn (n : ℕ) (t : BinaryTree ℕ) : Prop where
  linked : Linked (found n n 0) none t
  mem : ∀ {rank}, rank ∈ inorder t ↔ rank < n
  sorted : (inorder t).Pairwise (· < ·)
  length : (inorder t).length = n
  found : ∀ rank < n, getTreeNeighbors rank n = some (nodeOf n rank) ∧
    VictimSelector.found n n 0 rank = some (nodeOf n rank).links

variable {n rank p q c : ℕ}

theorem log2_lt_self (h1 : 1 ≤ n) : Nat.log2 n < n :=
  (Nat.log2_lt (by omega)).mpr n.lt_two_pow_self

theorem exists_treeOn (h1 : 1 ≤ n) : ∃ t, TreeOn n t := by
  obtain ⟨t, ht⟩ := exists_spread h1 (log2_lt_self h1) 0
  have hmem : ∀ {rank}, rank ∈ inorder t ↔ rank < n := by
    intro rank
    rw [ht.mem]
    omega
  have hinorder : inorder t = List.range n := ht.inorder.trans List.range_eq_range'.symm
  refine ⟨t, ht.linked, hmem, ?_, ?_, ?_⟩
  · rw [hinorder]
    exact List.pairwise_lt_range
  · rw [hinorder, List.length_range]
  · intro rank hrank
    obtain ⟨nb, hnb, -⟩ := ht.rank_of_found ⟨Nat.zero_le rank, by omega⟩
    have hnode : nodeOf n rank = nb := by
      rw [nodeOf, getTreeNeighbors, hnb]
      rfl
    rw [hnode]
    refine ⟨hnb, ?_⟩
    rw [VictimSelector.found, hnb]
    rfl

theorem mem_children {nb : InfixedBTreeNeighbors} :
    c ∈ nb.children ↔ nb.leftChild = some c ∨ nb.rightChild = some c := by
  rw [InfixedBTreeNeighbors.children, List.mem_append, Option.mem_toList, Option.mem_toList]

theorem length_relatives_le (nb : InfixedBTreeNeighbors) : nb.relatives.length ≤ 3 := by
  rw [InfixedBTreeNeighbors.relatives, InfixedBTreeNeighbors.children]
  cases nb.parent <;> cases nb.leftChild <;> cases nb.rightChild <;> simp

namespace TreeOn

variable {t : BinaryTree ℕ} (h : TreeOn n t)

include h

theorem child_lt (hp : p < n) (hc : c ∈ (nodeOf n p).children) : c < n := by
  have hlink := h.linked.child (h.mem.mpr hp) (h.found p hp).2 (mem_children.mp hc)
  exact h.mem.mp hlink.1

theorem parent_iff (hc : c < n) :
    (nodeOf n c).parent = some p ↔ p < n ∧ c ∈ (nodeOf n p).children := by
  constructor
  · intro hparent
    obtain ⟨m, hm, -, ⟨-, hnone⟩ | ⟨q, hq, hsome, -⟩⟩ := h.linked.parent (h.mem.mpr hc)
    · cases (h.found c hc).2.symm.trans hm
      cases hnone.symm.trans hparent
    · cases (h.found c hc).2.symm.trans hm
      cases hsome.symm.trans hparent
      have hp := h.mem.mp hq
      refine ⟨hp, mem_children.mpr ?_⟩
      exact (h.linked.parent_eq_some (h.mem.mpr hc) (h.found c hc).2 hq (h.found _ hp).2).mp hsome
  · rintro ⟨hp, hchild⟩
    exact (h.linked.parent_eq_some (h.mem.mpr hc) (h.found c hc).2 (h.mem.mpr hp)
      (h.found p hp).2).mpr (mem_children.mp hchild)

theorem children_ordered (hp : p < n) : (∀ c, (nodeOf n p).leftChild = some c → c < p) ∧
    ∀ c, (nodeOf n p).rightChild = some c → p < c :=
  h.linked.ordered h.sorted (h.mem.mpr hp) (h.found p hp).2

theorem nodup_children (hp : p < n) : (nodeOf n p).children.Nodup := by
  obtain ⟨hleft, hright⟩ := h.children_ordered hp
  rw [InfixedBTreeNeighbors.children]
  cases hl : (nodeOf n p).leftChild with
  | none => cases hr : (nodeOf n p).rightChild <;> simp
  | some a =>
    cases hr : (nodeOf n p).rightChild with
    | none => simp
    | some b =>
      have hlt := (hleft a hl).trans (hright b hr)
      simp [hlt.ne]

/-- A rank has each of its edges once. -/
theorem nodup_relatives (hrank : rank < n) : (nodeOf n rank).relatives.Nodup := by
  rw [InfixedBTreeNeighbors.relatives]
  cases hparent : (nodeOf n rank).parent with
  | none => exact h.nodup_children hrank
  | some q =>
    have hne := h.linked.parent_ne_child (h.mem.mpr hrank) (h.found rank hrank).2 hparent
    rw [Option.toList_some, List.singleton_append, List.nodup_cons, mem_children]
    exact ⟨not_or.mpr hne, h.nodup_children hrank⟩

theorem relatives_ne_nil (h2 : 2 ≤ n) (hrank : rank < n) : (nodeOf n rank).relatives ≠ [] := by
  have hsome := h.linked.exists_relative (h.length ▸ h2) (h.mem.mpr hrank) (h.found rank hrank).2
  intro hnil
  rw [InfixedBTreeNeighbors.relatives, InfixedBTreeNeighbors.children, List.append_eq_nil_iff,
    List.append_eq_nil_iff, Option.toList_eq_nil_iff, Option.toList_eq_nil_iff,
    Option.toList_eq_nil_iff] at hnil
  obtain ⟨hparent, hleft, hright⟩ := hnil
  rcases hsome with hne | hne | hne
  · exact hne hparent
  · exact hne hleft
  · exact hne hright

/-- All edges, each from the parent to the child. -/
theorem ends_perm (hrank : rank < n) :
    (ends rank (childEdges (fun p => (nodeOf n p).children) (List.range n))).Perm
      (nodeOf n rank).relatives := by
  apply ends_childEdges_perm List.nodup_range
  · exact fun p hp => h.nodup_children (List.mem_range.mp hp)
  · exact List.mem_range.mpr hrank
  · intro p
    rw [List.mem_range]
    exact h.parent_iff hrank

theorem length_edges_le :
    (childEdges (fun p => (nodeOf n p).children) (List.range n)).length ≤ n := by
  suffices hle : (childEdges (fun p => (nodeOf n p).children) (List.range n)).length ≤
      (List.range n).length by
    rwa [List.length_range] at hle
  apply length_childEdges_le List.nodup_range
  · exact fun p hp => h.nodup_children (List.mem_range.mp hp)
  · exact fun p hp c hc => List.mem_range.mpr (h.child_lt (List.mem_range.mp hp) hc)
  · intro p hp q hq c hc hc'
    have hlt := h.child_lt (List.mem_range.mp hp) hc
    have hpc := (h.parent_iff hlt).mpr ⟨List.mem_range.mp hp, hc⟩
    have hqc := (h.parent_iff hlt).mpr ⟨List.mem_range.mp hq, hc'⟩
    exact Option.some.inj (hpc.symm.trans hqc)

end TreeOn

/-! ### Ranks with a left child only -/

/-- Below the root of an odd number of ranks are two odd numbers of ranks. -/
theorem odd_getRankOfRoot {size : ℕ} (h3 : 3 ≤ size) (hodd : Odd size) (rank0 : ℕ) :
    Odd (getRankOfRoot size rank0 - rank0) ∧
      Odd (size - (getRankOfRoot size rank0 - rank0) - 1) := by
  obtain ⟨e, -, hle, hlt, hcases⟩ := getRankOfRoot_cases (show 2 ≤ size by omega) rank0
  obtain ⟨k, hk⟩ := hodd
  cases e with
  | zero =>
    -- There are three ranks: one on each side of the root.
    have hroot : getRankOfRoot size rank0 = rank0 + 1 := by omega
    exact ⟨⟨0, by omega⟩, ⟨0, by omega⟩⟩
  | succ e =>
    rw [Nat.pow_succ] at hle hlt hcases
    generalize 2 ^ e = x at hle hlt hcases
    rcases hcases with ⟨hfew, hroot⟩ | ⟨hmany, hroot⟩
    · rw [hroot]
      exact ⟨⟨k - x, by omega⟩, ⟨x - 1, by omega⟩⟩
    · rw [hroot]
      exact ⟨⟨x * 2 - 1, by omega⟩, ⟨k - x * 2, by omega⟩⟩

/-- In a tree of an odd number of ranks each has two children or none. -/
theorem children_of_odd {depth : ℕ} : ∀ {size rank rank0 : ℕ} {nb : InfixedBTreeNeighbors},
    Odd size → Nat.log2 size < depth → rank0 ≤ rank → rank < rank0 + size →
    treeNeighbors depth rank size rank0 = some nb →
    (nb.leftChild = none ↔ nb.rightChild = none) := by
  induction depth with
  | zero =>
    intro size rank rank0 nb _ hdepth
    omega
  | succ depth ih =>
    intro size rank rank0 nb hodd hdepth hlo hhi hnb
    by_cases h1 : size = 1
    · subst h1
      obtain rfl : rank = rank0 := by omega
      rw [treeNeighbors_one] at hnb
      cases hnb
      exact Iff.rfl
    have h3 : 3 ≤ size := by
      obtain ⟨k, hk⟩ := hodd
      omega
    have h2 : 2 ≤ size := by omega
    have hsplit := log2_getRankOfRoot h2 rank0
    obtain ⟨hl, hr⟩ := odd_getRankOfRoot h3 hodd rank0
    obtain ⟨hroot, hroot', -⟩ := getRankOfRoot_bounds h2 rank0
    rw [treeNeighbors_eq_of_log2 rank h2 hlo hhi (Nat.lt_succ_iff.mp hdepth)] at hnb
    split_ifs at hnb with hlt heq hsize
    · obtain ⟨nb', hnb', rfl⟩ := Option.map_eq_some_iff.mp hnb
      rw [leftChild_adopt, rightChild_adopt]
      exact ih hl (by omega) hlo (by omega) hnb'
    · omega
    · cases hnb
      exact iff_of_false (Option.some_ne_none _) (Option.some_ne_none _)
    · obtain ⟨nb', hnb', rfl⟩ := Option.map_eq_some_iff.mp hnb
      rw [leftChild_adopt, rightChild_adopt]
      exact ih hr (by omega) (by omega) (by omega) hnb'

/-- In a tree of an even number of ranks one has a left child only. -/
theorem exists_only_left {depth : ℕ} : ∀ {size : ℕ}, Even size → 2 ≤ size → Nat.log2 size < depth →
    ∀ rank0, ∃ rank nb, rank0 ≤ rank ∧ rank < rank0 + size ∧
      treeNeighbors depth rank size rank0 = some nb ∧ nb.leftChild ≠ none ∧
      nb.rightChild = none := by
  induction depth with
  | zero =>
    intro size _ _ hdepth
    omega
  | succ depth ih =>
    intro size heven h2 hdepth rank0
    have hsplit := log2_getRankOfRoot h2 rank0
    obtain ⟨hroot, hroot', hright⟩ := getRankOfRoot_bounds h2 rank0
    have heq : ∀ rank, rank0 ≤ rank → rank < rank0 + size → _ := fun rank hr hr' =>
      treeNeighbors_eq_of_log2 rank h2 hr hr' (Nat.lt_succ_iff.mp hdepth)
    generalize getRankOfRoot size rank0 = root at hsplit hroot hroot' hright heq
    by_cases hsize : size = 2
    · refine ⟨root, ⟨root, none, some (getRankOfRoot (root - rank0) rank0), none⟩, hroot.le, hroot',
        ?_, Option.some_ne_none _, rfl⟩
      rw [heq root hroot.le hroot', if_neg (lt_irrefl _), if_pos rfl, if_pos hsize]
    have hroom := hright hsize
    by_cases hleft : Even (root - rank0)
    · have hleft2 : 2 ≤ root - rank0 := by
        obtain ⟨k, hk⟩ := hleft
        omega
      obtain ⟨rank, nb, hlo, hhi, hnb, hl, hr⟩ := ih hleft hleft2 (by omega) rank0
      refine ⟨rank, adopt root nb, hlo, by omega, ?_, ?_, ?_⟩
      · rw [heq rank hlo (by omega), if_pos (by omega), hnb, Option.map_some]
      · rwa [leftChild_adopt]
      · rwa [rightChild_adopt]
    · have hrest : Even (size - (root - rank0) - 1) := by
        obtain ⟨k, hk⟩ := heven
        obtain ⟨m, hm⟩ := Nat.not_even_iff_odd.mp hleft
        exact ⟨k - m - 1, by omega⟩
      have hrest2 : 2 ≤ size - (root - rank0) - 1 := by
        obtain ⟨k, hk⟩ := hrest
        omega
      obtain ⟨rank, nb, hlo, hhi, hnb, hl, hr⟩ := ih hrest hrest2 (by omega) (root + 1)
      refine ⟨rank, adopt root nb, by omega, by omega, ?_, ?_, ?_⟩
      · rw [heq rank (by omega) (by omega), if_neg (by omega), if_neg (by omega), hnb,
          Option.map_some]
      · rwa [leftChild_adopt]
      · rwa [rightChild_adopt]

end Titus.VictimSelector
