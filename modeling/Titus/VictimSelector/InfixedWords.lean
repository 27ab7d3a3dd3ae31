import Titus.Lib.LinkedTree
import Titus.VictimSelector.InfixedTree
import Mathlib.Algebra.Order.Ring.Int

/-! `get_tree_neighbors` and `get_rank_of_root` on machine integers: the answers of all ranks are
one balanced search tree. -/

namespace Titus.VictimSelector

open LinkedTree

/-! ### The tree of all answers -/

/-- The root splits a subtree into two that are not as high. -/
theorem log2_getRankOfRoot {size : ℕ} (h : 2 ≤ size) (rank0 : ℕ) :
    Nat.log2 (getRankOfRoot size rank0 - rank0) < Nat.log2 size ∧
      Nat.log2 (size - (getRankOfRoot size rank0 - rank0) - 1) < Nat.log2 size := by
  obtain ⟨e, he, hle, hlt, hcases⟩ := getRankOfRoot_cases h rank0
  have hlow : ∀ {k : ℕ}, k < 2 * 2 ^ e → Nat.log2 k < e + 1 := by
    intro k hk
    by_cases hk0 : k = 0
    · subst hk0
      exact Nat.succ_pos e
    · rw [Nat.log2_lt hk0, Nat.pow_succ']
      exact hk
  rw [he]
  rcases hcases with ⟨hfew, hroot⟩ | ⟨hmany, hroot⟩
  · rw [hroot]
    exact ⟨hlow (by omega), hlow (by omega)⟩
  · rw [hroot]
    exact ⟨hlow (by omega), hlow (by omega)⟩

/-- The neighbors of a rank, as links. -/
def InfixedBTreeNeighbors.links (nb : InfixedBTreeNeighbors) : Links ℕ :=
  ⟨nb.rank, nb.parent, nb.leftChild, nb.rightChild⟩

/-- What each rank of a subtree finds. -/
def found (depth size rank0 rank : ℕ) : Option (Links ℕ) :=
  (treeNeighbors depth rank size rank0).map InfixedBTreeNeighbors.links

theorem links_adopt (root : ℕ) (nb : InfixedBTreeNeighbors) :
    (adopt root nb).links = { nb.links with parent := some (nb.links.parent.getD root) } := by
  simp only [InfixedBTreeNeighbors.links, parent_adopt, leftChild_adopt, rightChild_adopt,
    Links.mk.injEq, and_true]
  unfold adopt
  split <;> rfl

/-- The ranks from `rank0` on are the nodes of one tree. -/
structure Spread (depth size rank0 : ℕ) (t : BinaryTree ℕ) : Prop where
  linked : Linked (found depth size rank0) none t
  inorder : inorder t = List.range' rank0 size
  root : root t = some (getRankOfRoot size rank0)
  height : t.height ≤ Nat.log2 size + 1

theorem Spread.mem {depth size rank0 rank : ℕ} {t : BinaryTree ℕ} (h : Spread depth size rank0 t) :
    rank ∈ LinkedTree.inorder t ↔ rank0 ≤ rank ∧ rank < rank0 + size := by
  rw [h.inorder, List.mem_range'_1]

theorem exists_spread {depth : ℕ} : ∀ {size : ℕ}, 1 ≤ size → Nat.log2 size < depth →
    ∀ rank0, ∃ t, Spread depth size rank0 t := by
  induction depth with
  | zero =>
    intro size _ hdepth
    omega
  | succ depth ih =>
    intro size h1 hdepth rank0
    rcases h1.eq_or_lt with rfl | h2
    · refine ⟨.node rank0 .nil .nil, ⟨?_, trivial, trivial⟩, rfl, rfl, le_rfl⟩
      rw [found, treeNeighbors_one]
      rfl
    have hsplit := log2_getRankOfRoot h2 rank0
    obtain ⟨hlo, hhi, hright⟩ := getRankOfRoot_bounds h2 rank0
    have heq : ∀ rank, rank0 ≤ rank → rank < rank0 + size → _ := fun rank hr hr' =>
      treeNeighbors_eq_of_log2 rank h2 hr hr' (Nat.lt_succ_iff.mp hdepth)
    generalize hroot : getRankOfRoot size rank0 = root at hsplit hlo hhi hright heq ⊢
    obtain ⟨tl, hl⟩ := ih (show 1 ≤ root - rank0 by omega) (by omega) rank0
    have hlinked : Linked (found (depth + 1) size rank0) (some root) tl := by
      refine hl.linked.adopted (q := root) fun rank hrank => ?_
      obtain ⟨hr, hr'⟩ := hl.mem.mp hrank
      rw [found, heq rank hr (by omega), if_pos (by omega), found, Option.map_map, Option.map_map]
      exact congrArg (Option.map · _) (funext fun nb => links_adopt root nb)
    have hself := heq root hlo.le hhi
    rw [if_neg (lt_irrefl _), if_pos rfl] at hself
    obtain ⟨tr, hrlinked, hrorder, hrroot, hrheight⟩ : ∃ tr,
        Linked (found (depth + 1) size rank0) (some root) tr ∧
          inorder tr = List.range' (root + 1) (size - (root - rank0) - 1) ∧
          LinkedTree.root tr = (if size = 2 then none else
            some (getRankOfRoot (size - (root - rank0) - 1) (root + 1))) ∧
          tr.height ≤ Nat.log2 size := by
      by_cases hsize : size = 2
      · refine ⟨.nil, trivial, ?_, (if_pos hsize).symm, Nat.zero_le _⟩
        rw [show size - (root - rank0) - 1 = 0 by omega]
        rfl
      · have hroom := hright hsize
        obtain ⟨tr, hr⟩ := ih (show 1 ≤ size - (root - rank0) - 1 by omega) (by omega) (root + 1)
        refine ⟨tr, ?_, hr.inorder, ?_, hr.height.trans (by omega)⟩
        · refine hr.linked.adopted (q := root) fun rank hrank => ?_
          obtain ⟨hlow, hhigh⟩ := hr.mem.mp hrank
          rw [found, heq rank (by omega) (by omega), if_neg (by omega), if_neg (by omega), found,
            Option.map_map, Option.map_map]
          exact congrArg (Option.map · _) (funext fun nb => links_adopt root nb)
        · rw [if_neg hsize]
          exact hr.root
    refine ⟨.node root tl tr, ⟨?_, hlinked, hrlinked⟩, ?_, hroot ▸ rfl, ?_⟩
    · rw [found, hself, hl.root, hrroot]
      rfl
    · rw [LinkedTree.inorder, hl.inorder, hrorder]
      have hcons : root :: List.range' (root + 1) (size - (root - rank0) - 1) =
          List.range' (rank0 + (root - rank0)) (size - (root - rank0)) := by
        rw [show size - (root - rank0) = size - (root - rank0) - 1 + 1 by omega,
          Nat.add_sub_cancel' hlo.le]
        rfl
      rw [hcons, List.range'_append_1, Nat.add_sub_cancel' (by omega)]
    · have := hl.height
      rw [BinaryTree.height]
      omega

theorem Spread.rank_of_found {depth size rank0 rank : ℕ} {t : BinaryTree ℕ}
    (h : Spread depth size rank0 t) (hrank : rank0 ≤ rank ∧ rank < rank0 + size) :
    ∃ nb, treeNeighbors depth rank size rank0 = some nb ∧ nb.rank = rank ∧
      ∀ p, nb.parent = some p → p < rank0 + size := by
  obtain ⟨n, hn, hkey, hparent⟩ := h.linked.parent (h.mem.mpr hrank)
  obtain ⟨nb, hnb, rfl⟩ := Option.map_eq_some_iff.mp hn
  refine ⟨nb, hnb, hkey, fun p hp => ?_⟩
  obtain ⟨-, hnone⟩ | ⟨q, hq, hsome, -⟩ := hparent
  · cases hp.symm.trans hnone
  · cases hp.symm.trans hsome
    exact (h.mem.mp hq).2

/-! ### The functions on machine integers -/

namespace Machine

/-- `(DVS_RANK_TYPE) -1`. -/
def noRank : ℕ := 2 ^ 16 - 1

/-- A conversion to `DVS_RANK_TYPE`. -/
def toRankType (x : ℤ) : ℕ := (x % 2 ^ 16).toNat

/-- A conversion to `size_t`. -/
def toSizeT (x : ℤ) : ℕ := (x % 2 ^ 64).toNat

/-- A conversion of a `size_t` to `int`. -/
def toInt (x : ℕ) : ℤ := Int.bmod x (2 ^ 32)

/-- `POW2`, which is undefined where an `int` cannot be shifted by `x`. -/
def pow2 (x : ℕ) : Option ℤ :=
  if x < 31 then some (2 ^ x) else none

/-- `infixed_b_tree_neighbors`. -/
structure TreeNeighbors where
  rank : ℕ
  parent : ℕ
  leftChild : ℕ
  rightChild : ℕ
deriving DecidableEq

/-- The root of a subtree of height `h`. -/
def rootAt (h subtreeSize rank0 : ℕ) : Option ℕ := do
  let half ← pow2 (toSizeT (h - 2))
  let full ← pow2 (toSizeT (h - 1))
  some (toRankType (rank0 + half - 1 + min half (toInt subtreeSize - (full - 1))))

/-- `get_rank_of_root`. -/
def getRankOfRoot (subtreeSize rank0 : ℕ) : Option ℕ :=
  if subtreeSize = 1 then some rank0 else rootAt (Nat.log2 subtreeSize + 1) subtreeSize rank0

def adopt (root : ℕ) (n : TreeNeighbors) : TreeNeighbors :=
  if n.parent = noRank then { n with parent := root } else n

/-- `get_tree_neighbors`, with at most `depth` nested calls. It is undefined where the assertion
fails. -/
def treeNeighbors : ℕ → ℕ → ℕ → ℕ → Option TreeNeighbors
  | 0, _, _, _ => none
  | depth + 1, rank, subtreeSize, rank0 =>
    let h := Nat.log2 subtreeSize + 1
    if subtreeSize = 0 then none
    else if h = 1 ∧ rank = rank0 then some ⟨rank, noRank, noRank, noRank⟩
    else if h = 2 ∧ rank = rank0 then some ⟨rank, toRankType (rank + 1), noRank, noRank⟩
    else if h = 2 ∧ rank = rank0 + 1 then
      some ⟨rank, noRank, rank0, if subtreeSize = 3 then toRankType (rank + 1) else noRank⟩
    else if h = 2 ∧ rank = rank0 + 2 then some ⟨rank, toRankType (rank - 1), noRank, noRank⟩
    else do
      let root ← rootAt h subtreeSize rank0
      if rank < root then
        (treeNeighbors depth rank (toSizeT (root - rank0)) rank0).map (adopt root)
      else if rank = root then do
        let leftChild ← getRankOfRoot (toSizeT (root - rank0)) rank0
        let rightChild ← getRankOfRoot (toSizeT (subtreeSize - (root - rank0) - 1))
          (toRankType (root + 1))
        some ⟨rank, noRank, leftChild, rightChild⟩
      else
        (treeNeighbors depth rank (toSizeT (subtreeSize - (root - rank0) - 1))
          (toRankType (root + 1))).map (adopt root)

/-! ### They refine the functions on natural numbers -/

theorem toRankType_natCast {x : ℕ} (h : x < 2 ^ 16) : toRankType x = x := by
  rw [toRankType]
  omega

theorem toSizeT_natCast {x : ℕ} (h : x < 2 ^ 64) : toSizeT x = x := by
  rw [toSizeT]
  omega

theorem toInt_eq {x : ℕ} (h : x < 2 ^ 31) : toInt x = x := by
  apply Int.bmod_eq_of_le_mul_two
  · rw [Int.natCast_pow]
    omega
  · rw [Int.natCast_pow]
    omega

theorem rootAt_eq {size rank0 : ℕ} (h2 : 2 ≤ size) (hroom : rank0 + size ≤ noRank) :
    rootAt (Nat.log2 size + 1) size rank0 = some (VictimSelector.getRankOfRoot size rank0) := by
  have hle := (log2_bounds (show size ≠ 0 by omega)).1
  have hbound := (getRankOfRoot_bounds h2 rank0).2.1
  have hlog : Nat.log2 size ≠ 0 := by
    obtain ⟨e, he, -⟩ := getRankOfRoot_cases h2 rank0
    omega
  have hsmall : Nat.log2 size < 16 := by
    rw [Nat.log2_lt (by omega)]
    unfold noRank at hroom
    omega
  have hhalf : pow2 (toSizeT (↑(Nat.log2 size + 1) - 2)) =
      some ((2 ^ (Nat.log2 size + 1 - 2) : ℕ) : ℤ) := by
    rw [show ((Nat.log2 size + 1 : ℕ) : ℤ) - 2 = ((Nat.log2 size + 1 - 2 : ℕ) : ℤ) by omega,
      toSizeT_natCast (by omega), pow2, if_pos (by omega), Int.natCast_pow]
    rfl
  have hfull : pow2 (toSizeT (↑(Nat.log2 size + 1) - 1)) =
      some ((2 ^ (Nat.log2 size + 1 - 1) : ℕ) : ℤ) := by
    rw [show ((Nat.log2 size + 1 : ℕ) : ℤ) - 1 = ((Nat.log2 size + 1 - 1 : ℕ) : ℤ) by omega,
      toSizeT_natCast (by omega), pow2, if_pos (by omega), Int.natCast_pow]
    rfl
  have hpos := Nat.two_pow_pos (Nat.log2 size + 1 - 2)
  rw [rootAt, hhalf, hfull, toInt_eq (by unfold noRank at hroom; omega)]
  rw [VictimSelector.getRankOfRoot, if_neg (by omega), VictimSelector.rootAt] at hbound ⊢
  simp only [Option.bind_eq_bind, Option.bind_some, Option.some.injEq]
  rw [Nat.add_sub_cancel] at hbound ⊢
  generalize 2 ^ Nat.log2 size = full at hle hbound ⊢
  generalize 2 ^ (Nat.log2 size + 1 - 2) = half at hpos hbound ⊢
  rw [← toRankType_natCast (x := rank0 + half - 1 + min half (size - (full - 1)))]
  · congr 1
    omega
  · unfold noRank at hroom
    omega

theorem getRankOfRoot_eq {size rank0 : ℕ} (h1 : 1 ≤ size) (hroom : rank0 + size ≤ noRank) :
    getRankOfRoot size rank0 = some (VictimSelector.getRankOfRoot size rank0) := by
  rcases h1.eq_or_lt with rfl | h2
  · rfl
  · rw [getRankOfRoot, if_neg (by omega), rootAt_eq h2 hroom]

/-- An answer in machine integers. -/
def ofNeighbors (nb : InfixedBTreeNeighbors) : TreeNeighbors :=
  ⟨nb.rank, nb.parent.getD noRank, nb.leftChild.getD noRank, nb.rightChild.getD noRank⟩

theorem adopt_ofNeighbors {nb : InfixedBTreeNeighbors} (root : ℕ)
    (h : ∀ p, nb.parent = some p → p < noRank) :
    adopt root (ofNeighbors nb) = ofNeighbors (VictimSelector.adopt root nb) := by
  unfold adopt VictimSelector.adopt
  cases hp : nb.parent with
  | none => simp only [ofNeighbors, hp, Option.getD_none, if_true, Option.getD_some]
  | some p =>
    have hne : p ≠ noRank := (h p hp).ne
    simp only [ofNeighbors, hp, Option.getD_some, if_neg hne, reduceCtorEq, if_false]

/-- All shifts and assertions are as they should be. -/
theorem treeNeighbors_eq {depth : ℕ} : ∀ {size rank rank0 : ℕ}, 1 ≤ size → Nat.log2 size < depth →
    rank0 ≤ rank → rank < rank0 + size → rank0 + size ≤ noRank →
    treeNeighbors depth rank size rank0 =
      (VictimSelector.treeNeighbors depth rank size rank0).map ofNeighbors := by
  induction depth with
  | zero =>
    intro size rank rank0 _ hdepth
    omega
  | succ depth ih =>
    intro size rank rank0 h1 hdepth hlo hhi hroom
    have hwords : ∀ k, k ≤ rank0 + size → toRankType k = k := by
      intro k hk
      apply toRankType_natCast
      unfold noRank at hroom
      omega
    have hsizes : ∀ k, k ≤ size → toSizeT k = k := by
      intro k hk
      apply toSizeT_natCast
      unfold noRank at hroom
      omega
    rw [treeNeighbors, VictimSelector.treeNeighbors, if_neg (by omega)]
    dsimp only
    by_cases hone : Nat.log2 size + 1 = 1 ∧ rank = rank0
    · rw [if_pos hone, if_pos hone]
      rfl
    rw [if_neg hone, if_neg hone]
    have hlog : Nat.log2 size + 1 = 1 → size = 1 := by
      intro hlog
      have := (log2_bounds (show size ≠ 0 by omega)).2
      rw [Nat.add_eq_right.mp hlog] at this
      omega
    have h2 : 2 ≤ size := by
      by_contra hsize
      obtain rfl : size = 1 := by omega
      exact hone ⟨rfl, by omega⟩
    have hsmall : Nat.log2 size + 1 = 2 ↔ size = 2 ∨ size = 3 := by
      rw [← log2_eq_one h2]
      omega
    have hnext : toRankType (rank + 1) = rank + 1 := by
      exact_mod_cast toRankType_natCast (x := rank + 1) (by unfold noRank at hroom; omega)
    by_cases hfirst : Nat.log2 size + 1 = 2 ∧ rank = rank0
    · rw [if_pos hfirst, if_pos hfirst, hnext]
      rfl
    rw [if_neg hfirst, if_neg hfirst]
    by_cases hmiddle : Nat.log2 size + 1 = 2 ∧ rank = rank0 + 1
    · rw [if_pos hmiddle, if_pos hmiddle, hnext]
      by_cases h3 : size = 3
      · rw [if_pos h3, if_pos h3]
        rfl
      · rw [if_neg h3, if_neg h3]
        rfl
    rw [if_neg hmiddle, if_neg hmiddle]
    by_cases hlast : Nat.log2 size + 1 = 2 ∧ rank = rank0 + 2
    · rw [if_pos hlast, if_pos hlast]
      have hprev : toRankType (rank - 1) = rank - 1 := by
        rw [← hwords (rank - 1) (by omega)]
        congr 1
        omega
      rw [hprev]
      rfl
    rw [if_neg hlast, if_neg hlast]
    have hbig : size ≠ 2 := by omega
    obtain ⟨hroot, hroot', hright⟩ := getRankOfRoot_bounds h2 rank0
    have hroom' := hright hbig
    have hsplit := log2_getRankOfRoot h2 rank0
    have habove : VictimSelector.rootAt (Nat.log2 size + 1) size rank0 =
      VictimSelector.getRankOfRoot size rank0 := (if_neg (by omega)).symm
    rw [rootAt_eq h2 hroom, habove]
    generalize VictimSelector.getRankOfRoot size rank0 = root at hroot hroot' hroom' hsplit
    have hleft : toSizeT (root - rank0) = root - rank0 := by
      rw [← hsizes (root - rank0) (by omega)]
      congr 1
      omega
    have hrest : toSizeT (size - (root - rank0) - 1) = size - (root - rank0) - 1 := by
      rw [← hsizes (size - (root - rank0) - 1) (by omega)]
      congr 1
      omega
    have hafter : toRankType (root + 1) = root + 1 := by
      exact_mod_cast hwords (root + 1) (by omega)
    have hadopt : ∀ {low high}, 1 ≤ high → low + high ≤ noRank → Nat.log2 high < depth →
        low ≤ rank → rank < low + high →
        (treeNeighbors depth rank high low).map (adopt root) =
          ((VictimSelector.treeNeighbors depth rank high low).map
            (VictimSelector.adopt root)).map ofNeighbors := by
      intro low high hhigh hfit hdeep hge hlt
      obtain ⟨t, ht⟩ := exists_spread hhigh hdeep low
      obtain ⟨nb, hnb, -, hparent⟩ := ht.rank_of_found ⟨hge, hlt⟩
      rw [ih hhigh hdeep hge hlt hfit, hnb]
      simp only [Option.map_some, Option.some.injEq]
      exact adopt_ofNeighbors root fun p hp => (hparent p hp).trans_le hfit
    simp only [Option.bind_eq_bind, Option.bind_some, hleft, hrest, hafter]
    rcases Nat.lt_trichotomy rank root with hlt | rfl | hgt
    · rw [if_pos hlt, if_pos hlt]
      exact hadopt (by omega) (by omega) (by omega) hlo (by omega)
    · rw [if_neg (lt_irrefl _), if_neg (lt_irrefl _), if_pos rfl, if_pos rfl,
        getRankOfRoot_eq (by omega) (by omega), getRankOfRoot_eq (by omega) (by omega)]
      rfl
    · rw [if_neg hgt.not_gt, if_neg hgt.not_gt, if_neg hgt.ne', if_neg hgt.ne']
      exact hadopt (by omega) (by omega) (by omega) (by omega) (by omega)

theorem treeNeighbors_mono {depth : ℕ} : ∀ {depth' size rank rank0 : ℕ} {nb : TreeNeighbors},
    treeNeighbors depth rank size rank0 = some nb → depth ≤ depth' →
    treeNeighbors depth' rank size rank0 = some nb := by
  induction depth with
  | zero =>
    intro depth' size rank rank0 nb h
    cases h
  | succ depth ih =>
    intro depth' size rank rank0 nb h hle
    obtain ⟨depth', rfl⟩ : ∃ d, depth' = d + 1 := ⟨depth' - 1, by omega⟩
    have hmap : ∀ {k low root}, (treeNeighbors depth rank k low).map (adopt root) = some nb →
        (treeNeighbors depth' rank k low).map (adopt root) = some nb := by
      intro k low root hk
      obtain ⟨nb', hnb', hadopt⟩ := Option.map_eq_some_iff.mp hk
      rw [ih hnb' (by omega), Option.map_some, hadopt]
    rw [treeNeighbors] at h ⊢
    split_ifs at h ⊢ with hzero hone hfirst hmiddle hlast
    · exact h
    · exact h
    · exact h
    · exact h
    · exact h
    · cases hroot : rootAt (Nat.log2 size + 1) size rank0 with
      | none =>
        rw [hroot] at h
        cases h
      | some root =>
        simp only [hroot, Option.bind_eq_bind, Option.bind_some] at h ⊢
        split_ifs at h ⊢ with hlt heq
        · exact hmap h
        · exact h
        · exact hmap h

/-! ### One balanced search tree -/

/-- The rank that a word stands for. -/
def known (word : ℕ) : Option ℕ :=
  if word = noRank then none else some word

def TreeNeighbors.links (nb : TreeNeighbors) : Links ℕ :=
  ⟨nb.rank, known nb.parent, known nb.leftChild, known nb.rightChild⟩

/-- The answers of the ranks below `n` are one balanced search tree. -/
structure BalancedTree (n : ℕ) (answer : ℕ → TreeNeighbors) (root : ℕ) : Prop where
  rank : ∀ r < n, (answer r).rank = r
  root_lt : root < n
  parent_eq_noRank : ∀ r < n, (answer r).parent = noRank ↔ r = root
  parent_lt : ∀ r < n, (answer r).parent ≠ noRank → (answer r).parent < n
  parent_iff_child : ∀ p < n, ∀ c < n,
    (answer c).parent = p ↔ (answer p).leftChild = c ∨ (answer p).rightChild = c
  left_lt : ∀ p < n, (answer p).leftChild ≠ noRank → (answer p).leftChild < p
  lt_right : ∀ p < n, (answer p).rightChild ≠ noRank →
    p < (answer p).rightChild ∧ (answer p).rightChild < n
  traverse : ∀ depth, Nat.log2 n < depth →
    traverse (fun r => some (answer r).links) depth (some root) = List.range n
  climb : ∀ r < n, ∃ steps ≤ Nat.log2 n,
    climb (fun r => some (answer r).links) steps r = some root

theorem known_of_ne {w : ℕ} (h : w ≠ noRank) : known w = some w := if_neg h

theorem known_getD {o : Option ℕ} (h : ∀ k, o = some k → k < noRank) :
    known (o.getD noRank) = o := by
  cases o with
  | none => exact if_pos rfl
  | some k => exact known_of_ne (h k rfl).ne

theorem known_eq_some {w k : ℕ} (h : k < noRank) : known w = some k ↔ w = k := by
  unfold known
  split
  · rename_i hw
    exact iff_of_false nofun (by omega)
  · rw [Option.some.injEq]

theorem known_eq_none {w : ℕ} : known w = none ↔ w = noRank := by
  unfold known
  split
  · rename_i hw
    exact iff_of_true rfl hw
  · rename_i hw
    exact iff_of_false nofun hw

/-- The answers of all ranks are linked as the abstract ones. -/
theorem linked_ofNeighbors {n depth : ℕ} {t : BinaryTree ℕ} {answer : ℕ → TreeNeighbors}
    (hn : n < noRank) (ht : Spread depth n 0 t)
    (hanswer : ∀ r < n, (VictimSelector.treeNeighbors depth r n 0).map ofNeighbors =
      some (answer r)) :
    Linked (fun r => some (answer r).links) none t := by
  apply ht.linked.congr
  intro r hr
  have hlt : r < n := by
    have := (ht.mem.mp hr).2
    omega
  obtain ⟨nb, hnb, hr'⟩ := Option.map_eq_some_iff.mp (hanswer r hlt)
  have hfound : found depth n 0 r = some nb.links := by
    rw [found, hnb, Option.map_some]
  obtain ⟨nb', hnb', -, hparent⟩ := ht.rank_of_found (ht.mem.mp hr)
  cases hnb.symm.trans hnb'
  have hchild : ∀ c, nb.leftChild = some c ∨ nb.rightChild = some c → c < noRank := by
    intro c hc
    have := (ht.mem.mp (ht.linked.child hr hfound hc).1).2
    omega
  rw [hfound, ← hr', TreeNeighbors.links, InfixedBTreeNeighbors.links]
  simp only [ofNeighbors]
  rw [known_getD, known_getD fun c hc => hchild c (.inl hc),
    known_getD fun c hc => hchild c (.inr hc)]
  intro p hp
  have := hparent p hp
  omega

theorem balancedTree_of_linked {n root : ℕ} {t : BinaryTree ℕ} {answer : ℕ → TreeNeighbors}
    (hn : n < noRank) (hlinked : Linked (fun r => some (answer r).links) none t)
    (hinorder : inorder t = List.range n) (hroot : LinkedTree.root t = some root)
    (hheight : t.height ≤ Nat.log2 n + 1) : BalancedTree n answer root := by
  have hmem : ∀ {r}, r ∈ inorder t ↔ r < n := by
    intro r
    rw [hinorder, List.mem_range]
  have hsorted : (inorder t).Pairwise (· < ·) := hinorder ▸ List.pairwise_lt_range
  have hrank : ∀ r < n, r < noRank := fun r hr => hr.trans hn
  constructor
  · intro r hr
    obtain ⟨m, hm, hkey, -⟩ := hlinked.parent (hmem.mpr hr)
    cases hm
    exact hkey
  · exact hmem.mp (mem_of_root hroot)
  · intro r hr
    rw [← known_eq_none]
    refine (hlinked.parent_eq_none (hmem.mpr hr) rfl).trans ?_
    rw [hroot, Option.some.injEq]
    exact eq_comm
  · intro r hr hparent
    obtain ⟨m, hm, -, ⟨-, hnone⟩ | ⟨q, hq, hsome, -⟩⟩ := hlinked.parent (hmem.mpr hr)
    · cases hm
      exact absurd (known_eq_none.mp hnone) hparent
    · cases hm
      rw [(known_eq_some (hrank q (hmem.mp hq))).mp hsome]
      exact hmem.mp hq
  · intro p hp c hc
    have := hlinked.parent_eq_some (hmem.mpr hc) rfl (hmem.mpr hp) rfl
    simp only [TreeNeighbors.links] at this
    rwa [known_eq_some (hrank p hp), known_eq_some (hrank c hc),
      known_eq_some (hrank c hc)] at this
  · intro p hp hchild
    exact (hlinked.ordered hsorted (hmem.mpr hp) rfl).1 _ (known_of_ne hchild)
  · intro p hp hchild
    constructor
    · exact (hlinked.ordered hsorted (hmem.mpr hp) rfl).2 _ (known_of_ne hchild)
    · exact hmem.mp (hlinked.child (hmem.mpr hp) rfl (.inr (known_of_ne hchild))).1
  · intro depth hdepth
    rw [← hinorder, ← hroot]
    exact hlinked.traverse_eq (hheight.trans hdepth)
  · intro r hr
    obtain ⟨steps, hsteps, hclimb⟩ := hlinked.climb_root (hmem.mpr hr)
    exact ⟨steps, by omega, hclimb.trans hroot⟩

theorem infixed_tree_balanced {n : ℕ} (h1 : 1 ≤ n) (hn : n < noRank) :
    ∃ root answer, getRankOfRoot n 0 = some root ∧
      (∀ depth, Nat.log2 n < depth → ∀ r < n, treeNeighbors depth r n 0 = some (answer r)) ∧
      BalancedTree n answer root := by
  obtain ⟨t, ht⟩ := exists_spread h1 (Nat.lt_succ_self _) 0
  have hroom : 0 + n ≤ noRank := by omega
  have heq : ∀ r < n, treeNeighbors (Nat.log2 n).succ r n 0 =
      (VictimSelector.treeNeighbors (Nat.log2 n).succ r n 0).map ofNeighbors := by
    intro r hr
    exact treeNeighbors_eq h1 (Nat.lt_succ_self _) (Nat.zero_le _) (by omega) hroom
  have hanswered : ∀ r < n, ∃ nb, treeNeighbors (Nat.log2 n).succ r n 0 = some nb := by
    intro r hr
    obtain ⟨nb, hnb, -⟩ := ht.rank_of_found ⟨Nat.zero_le r, by omega⟩
    rw [heq r hr, hnb]
    exact ⟨_, rfl⟩
  have : Nonempty TreeNeighbors := ⟨⟨0, 0, 0, 0⟩⟩
  choose! answer hanswer using hanswered
  refine ⟨_, answer, getRankOfRoot_eq h1 hroom, ?_, ?_⟩
  · intro depth hdepth r hr
    exact treeNeighbors_mono (hanswer r hr) hdepth
  · apply balancedTree_of_linked hn _ (ht.inorder.trans List.range_eq_range'.symm) ht.root ht.height
    apply linked_ofNeighbors hn ht
    intro r hr
    rw [← hanswer r hr, heq r hr]

theorem infixed_tree_balanced_six : ∃ root answer, getRankOfRoot 6 0 = some root ∧
    (∀ depth, Nat.log2 6 < depth → ∀ r < 6, treeNeighbors depth r 6 0 = some (answer r)) ∧
    BalancedTree 6 answer root :=
  infixed_tree_balanced (by decide) (by decide)

end Machine

end Titus.VictimSelector
