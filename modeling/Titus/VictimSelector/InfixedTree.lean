import Mathlib.Algebra.Group.Nat.Defs
import Mathlib.Data.Nat.Log
import Mathlib.Order.Fin.Basic
import Mathlib.Tactic.Cases

/-! The binary tree in which every rank lies between the ranks of its left subtree and those of its
right subtree: `infixed_b_tree_neighbors`. -/

namespace Titus.VictimSelector

/-! ### The functions -/

/-- `infixed_b_tree_neighbors`, where `none` stands for `(DVS_RANK_TYPE) -1`. -/
structure InfixedBTreeNeighbors where
  rank : ℕ
  parent : Option ℕ
  leftChild : Option ℕ
  rightChild : Option ℕ
deriving DecidableEq

/-- The root of a subtree of height `h`, from `rank0` on. -/
def rootAt (h subtreeSize rank0 : ℕ) : ℕ :=
  rank0 + 2 ^ (h - 2) - 1 + min (2 ^ (h - 2)) (subtreeSize - (2 ^ (h - 1) - 1))

/-- `get_rank_of_root`. -/
def getRankOfRoot (subtreeSize rank0 : ℕ) : ℕ :=
  if subtreeSize = 1 then rank0 else rootAt (Nat.log2 subtreeSize + 1) subtreeSize rank0

/-- The parent of the root of a subtree is filled in by the caller. -/
def adopt (root : ℕ) (n : InfixedBTreeNeighbors) : InfixedBTreeNeighbors :=
  if n.parent = none then { n with parent := some root } else n

/-- `get_tree_neighbors`, with at most `depth` nested calls. -/
def treeNeighbors : ℕ → ℕ → ℕ → ℕ → Option InfixedBTreeNeighbors
  | 0, _, _, _ => none
  | depth + 1, rank, subtreeSize, rank0 =>
    let h := Nat.log2 subtreeSize + 1
    if h = 1 ∧ rank = rank0 then some ⟨rank, none, none, none⟩
    else if h = 2 ∧ rank = rank0 then some ⟨rank, some (rank + 1), none, none⟩
    else if h = 2 ∧ rank = rank0 + 1 then
      some ⟨rank, none, some rank0, if subtreeSize = 3 then some (rank + 1) else none⟩
    else if h = 2 ∧ rank = rank0 + 2 then some ⟨rank, some (rank - 1), none, none⟩
    else
      let root := rootAt h subtreeSize rank0
      if rank < root then
        (treeNeighbors depth rank (root - rank0) rank0).map (adopt root)
      else if rank = root then
        some ⟨rank, none, some (getRankOfRoot (root - rank0) rank0),
          some (getRankOfRoot (subtreeSize - (root - rank0) - 1) (root + 1))⟩
      else
        (treeNeighbors depth rank (subtreeSize - (root - rank0) - 1) (root + 1)).map (adopt root)

/-- `get_tree_neighbors` for a whole tree. -/
def getTreeNeighbors (rank subtreeSize : ℕ) : Option InfixedBTreeNeighbors :=
  treeNeighbors subtreeSize rank subtreeSize 0

/-! ### The root -/

theorem log2_bounds {size : ℕ} (h : size ≠ 0) :
    2 ^ Nat.log2 size ≤ size ∧ size < 2 * 2 ^ Nat.log2 size := by
  refine ⟨Nat.log2_self_le h, ?_⟩
  rw [← Nat.pow_succ']
  exact Nat.lt_log2_self

/-- The last level of a tree has up to `2 * 2 ^ e` ranks. They are below the left child of the root
until the half of them are there. -/
theorem getRankOfRoot_cases {size : ℕ} (h : 2 ≤ size) (rank0 : ℕ) :
    ∃ e, Nat.log2 size = e + 1 ∧ 2 * 2 ^ e ≤ size ∧ size < 4 * 2 ^ e ∧
      (size + 1 < 3 * 2 ^ e ∧ getRankOfRoot size rank0 = rank0 + (size - 2 ^ e) ∨
        3 * 2 ^ e ≤ size + 1 ∧ getRankOfRoot size rank0 = rank0 + (2 * 2 ^ e - 1)) := by
  obtain ⟨hle, hlt⟩ := log2_bounds (show size ≠ 0 by omega)
  have hlog : Nat.log2 size ≠ 0 := by
    intro hzero
    rw [hzero] at hlt
    omega
  obtain ⟨e, he⟩ := Nat.exists_eq_succ_of_ne_zero hlog
  rw [he, Nat.succ_eq_add_one, Nat.pow_succ] at hle hlt
  refine ⟨e, he, by omega, by omega, ?_⟩
  rw [getRankOfRoot, if_neg (by omega), rootAt, he]
  rw [show e.succ + 1 - 2 = e from rfl, show e.succ + 1 - 1 = e + 1 from rfl, Nat.pow_succ]
  have hpos := Nat.two_pow_pos e
  rcases Nat.lt_or_ge (size - (2 ^ e * 2 - 1)) (2 ^ e) with hmin | hmin
  · rw [Nat.min_eq_right hmin.le]
    omega
  · rw [Nat.min_eq_left hmin]
    omega

/-- The root has a left subtree, and a right one if there are three ranks. -/
theorem getRankOfRoot_bounds {size : ℕ} (h : 2 ≤ size) (rank0 : ℕ) :
    rank0 < getRankOfRoot size rank0 ∧ getRankOfRoot size rank0 < rank0 + size ∧
      (size ≠ 2 → getRankOfRoot size rank0 + 1 < rank0 + size) := by
  obtain ⟨e, -, hle, hlt, hcases⟩ := getRankOfRoot_cases h rank0
  have hpos := Nat.two_pow_pos e
  rcases hcases with ⟨hfew, hroot⟩ | ⟨hmany, hroot⟩
  · rw [hroot]
    omega
  · rw [hroot]
    omega

theorem getRankOfRoot_mem {size : ℕ} (h : size ≠ 0) (rank0 : ℕ) :
    rank0 ≤ getRankOfRoot size rank0 ∧ getRankOfRoot size rank0 < rank0 + size := by
  by_cases h1 : size = 1
  · rw [getRankOfRoot, if_pos h1]
    omega
  · have := getRankOfRoot_bounds (show 2 ≤ size by omega) rank0
    omega

/-! ### One recursion for all heights -/

theorem treeNeighbors_one (depth rank : ℕ) :
    treeNeighbors (depth + 1) rank 1 rank = some ⟨rank, none, none, none⟩ :=
  if_pos ⟨rfl, rfl⟩

theorem log2_eq_one {size : ℕ} (h2 : 2 ≤ size) : Nat.log2 size = 1 ↔ size = 2 ∨ size = 3 := by
  obtain ⟨hle, hlt⟩ := log2_bounds (show size ≠ 0 by omega)
  constructor
  · intro h
    rw [h] at hle hlt
    omega
  · rintro (rfl | rfl) <;> rfl

/-- The cases for small subtrees are those of larger ones. -/
theorem treeNeighbors_eq_of_log2 {depth size rank0 : ℕ} (rank : ℕ) (h2 : 2 ≤ size)
    (hrank : rank0 ≤ rank) (hlt : rank < rank0 + size) (hdepth : Nat.log2 size ≤ depth) :
    treeNeighbors (depth + 1) rank size rank0 =
      if rank < getRankOfRoot size rank0 then
        (treeNeighbors depth rank (getRankOfRoot size rank0 - rank0) rank0).map
          (adopt (getRankOfRoot size rank0))
      else if rank = getRankOfRoot size rank0 then
        some ⟨rank, none, some (getRankOfRoot (rank - rank0) rank0), if size = 2 then none else
          some (getRankOfRoot (size - (rank - rank0) - 1) (rank + 1))⟩
      else
        (treeNeighbors depth rank (size - (getRankOfRoot size rank0 - rank0) - 1)
          (getRankOfRoot size rank0 + 1)).map (adopt (getRankOfRoot size rank0)) := by
  have hroot : getRankOfRoot size rank0 = rootAt (Nat.log2 size + 1) size rank0 :=
    if_neg (by omega)
  have hlog : Nat.log2 size ≠ 0 := by
    obtain ⟨-, hlt⟩ := log2_bounds (show size ≠ 0 by omega)
    intro hzero
    rw [hzero] at hlt
    omega
  by_cases hsmall : size = 2 ∨ size = 3
  · have hlog := (log2_eq_one h2).mpr hsmall
    have hpos : depth ≠ 0 := by omega
    obtain ⟨depth, rfl⟩ := Nat.exists_eq_succ_of_ne_zero hpos
    have hroot' : getRankOfRoot size rank0 = rank0 + 1 := by
      rw [hroot, hlog, rootAt]
      rcases hsmall with rfl | rfl <;> rfl
    have hone : ∀ r, getRankOfRoot 1 r = r := fun r => rfl
    rw [hroot', treeNeighbors, hlog]
    obtain rfl | rfl | rfl : rank = rank0 ∨ rank = rank0 + 1 ∨ rank = rank0 + 2 := by omega
    · simp [treeNeighbors_one, adopt]
    · rcases hsmall with rfl | rfl
      · simp [hone]
      · simp [hone]
    · obtain rfl : size = 3 := by omega
      simp [treeNeighbors_one, adopt]
  · have hbig : ∀ k, ¬ (Nat.log2 size + 1 = 2 ∧ rank = k) := by
      rintro k ⟨h, -⟩
      exact hsmall ((log2_eq_one h2).mp (by omega))
    rw [treeNeighbors, if_neg (by omega), if_neg (hbig _), if_neg (hbig _), if_neg (hbig _),
      ← hroot, if_neg (show size ≠ 2 by omega)]
    dsimp only
    by_cases heq : rank = getRankOfRoot size rank0
    · rw [if_pos heq, if_pos heq, ← heq]
    · rw [if_neg heq, if_neg heq]

theorem treeNeighbors_eq {depth size rank0 : ℕ} (rank : ℕ) (h2 : 2 ≤ size) (hrank : rank0 ≤ rank)
    (hlt : rank < rank0 + size) (hdepth : size ≤ depth + 1) :
    treeNeighbors (depth + 1) rank size rank0 =
      if rank < getRankOfRoot size rank0 then
        (treeNeighbors depth rank (getRankOfRoot size rank0 - rank0) rank0).map
          (adopt (getRankOfRoot size rank0))
      else if rank = getRankOfRoot size rank0 then
        some ⟨rank, none, some (getRankOfRoot (rank - rank0) rank0), if size = 2 then none else
          some (getRankOfRoot (size - (rank - rank0) - 1) (rank + 1))⟩
      else
        (treeNeighbors depth rank (size - (getRankOfRoot size rank0 - rank0) - 1)
          (getRankOfRoot size rank0 + 1)).map (adopt (getRankOfRoot size rank0)) := by
  apply treeNeighbors_eq_of_log2 rank h2 hrank hlt
  have := (Nat.log2_lt (show size ≠ 0 by omega)).mpr size.lt_two_pow_self
  omega

/-! ### The tree -/

/-- The neighbors `nb` of `rank` in a tree of the ranks from `lo` to `hi`, where `g` has the neighbors
of all. -/
structure NodeOk (g : ℕ → Option InfixedBTreeNeighbors) (lo hi root rank : ℕ)
    (nb : InfixedBTreeNeighbors) : Prop where
  parent_none : nb.parent = none ↔ rank = root
  parent : ∀ p, nb.parent = some p → lo ≤ p ∧ p < hi ∧ ∃ np, g p = some np ∧
    (rank < p ∧ np.leftChild = some rank ∨ p < rank ∧ np.rightChild = some rank)
  left : ∀ c, nb.leftChild = some c → lo ≤ c ∧ c < rank ∧
    ∃ nc, g c = some nc ∧ nc.parent = some rank
  right : ∀ c, nb.rightChild = some c → rank < c ∧ c < hi ∧
    ∃ nc, g c = some nc ∧ nc.parent = some rank
  left_of_right : nb.leftChild = none → nb.rightChild = none

/-- The neighbors `g` make a tree of the ranks from `lo` to `hi`. -/
structure TreeOk (g : ℕ → Option InfixedBTreeNeighbors) (lo hi root : ℕ) : Prop where
  node : ∀ rank, lo ≤ rank → rank < hi → ∃ nb, g rank = some nb ∧ NodeOk g lo hi root rank nb
  /-- What holds of the root, and of every rank whose parent it holds of, holds of all ranks. -/
  induct : ∀ P : ℕ → Prop, P root → (∀ rank nb p, lo ≤ rank → rank < hi → g rank = some nb →
    nb.parent = some p → P p → P rank) → ∀ rank, lo ≤ rank → rank < hi → P rank

variable {f g : ℕ → Option InfixedBTreeNeighbors} {lo hi root : ℕ}

theorem TreeOk.single (h : g root = some ⟨root, none, none, none⟩) :
    TreeOk g root (root + 1) root := by
  constructor
  · intro rank hlo hhi
    obtain rfl : rank = root := by omega
    exact ⟨_, h, iff_of_true rfl rfl, nofun, nofun, nofun, fun _ => rfl⟩
  · intro P hroot _ rank hlo hhi
    obtain rfl : rank = root := by omega
    exact hroot

theorem parent_adopt (n : InfixedBTreeNeighbors) :
    (adopt root n).parent = some (n.parent.getD root) := by
  unfold adopt
  cases hp : n.parent <;> simp [hp]

theorem leftChild_adopt (n : InfixedBTreeNeighbors) : (adopt root n).leftChild = n.leftChild := by
  unfold adopt
  split <;> rfl

theorem rightChild_adopt (n : InfixedBTreeNeighbors) :
    (adopt root n).rightChild = n.rightChild := by
  unfold adopt
  split <;> rfl

/-- The subtree `f` of the ranks from `a` to `b`, with the root `c`, is below `root` in `g`. -/
structure Below (g f : ℕ → Option InfixedBTreeNeighbors) (lo hi root a b c : ℕ) : Prop where
  sub : TreeOk f a b c
  lower : lo ≤ a
  upper : b ≤ hi
  mem : lo ≤ root ∧ root < hi
  outside : root < a ∨ b ≤ root
  same : ∀ rank, a ≤ rank → rank < b → g rank = (f rank).map (adopt root)
  edge : ∃ nb, g root = some nb ∧ (c < root ∧ nb.leftChild = some c ∨
    root < c ∧ nb.rightChild = some c)

variable {a b c : ℕ}

theorem Below.node (h : Below g f lo hi root a b c) {rank : ℕ} (ha : a ≤ rank) (hb : rank < b) :
    ∃ nb, g rank = some nb ∧ NodeOk g lo hi root rank nb := by
  obtain ⟨n, hn, hok⟩ := h.sub.node rank ha hb
  have hlower := h.lower
  have hupper := h.upper
  have hout := h.outside
  have hfound : ∀ {q nq}, a ≤ q → q < b → f q = some nq → g q = some (adopt root nq) := by
    intro q nq hqa hqb hq
    rw [h.same q hqa hqb, hq, Option.map_some]
  refine ⟨adopt root n, hfound ha hb hn, ?_⟩
  constructor
  · rw [parent_adopt]
    exact iff_of_false nofun (by omega)
  · intro p hp
    rw [parent_adopt, Option.some.injEq] at hp
    subst hp
    cases hparent : n.parent with
    | none =>
      obtain rfl := hok.parent_none.mp hparent
      exact ⟨h.mem.1, h.mem.2, h.edge⟩
    | some p =>
      obtain ⟨hpa, hpb, np, hnp, hedge⟩ := hok.parent p hparent
      refine ⟨by exact hlower.trans hpa, by exact hpb.trans_le hupper, _, hfound hpa hpb hnp, ?_⟩
      rwa [leftChild_adopt, rightChild_adopt]
  · intro d hd
    rw [leftChild_adopt] at hd
    obtain ⟨hda, hdr, nd, hnd, hparent⟩ := hok.left d hd
    refine ⟨by omega, hdr, _, hfound hda (by omega) hnd, ?_⟩
    rw [parent_adopt, hparent, Option.getD_some]
  · intro d hd
    rw [rightChild_adopt] at hd
    obtain ⟨hdr, hdb, nd, hnd, hparent⟩ := hok.right d hd
    refine ⟨hdr, by omega, _, hfound (by omega) hdb hnd, ?_⟩
    rw [parent_adopt, hparent, Option.getD_some]
  · rw [leftChild_adopt, rightChild_adopt]
    exact hok.left_of_right

/-- The root of a subtree has `root` as its parent. -/
theorem Below.root_child (h : Below g f lo hi root a b c) (hab : a ≤ c ∧ c < b) :
    ∃ nc, g c = some nc ∧ nc.parent = some root := by
  obtain ⟨nc, hnc, hok⟩ := h.sub.node c hab.1 hab.2
  refine ⟨adopt root nc, ?_, ?_⟩
  · rw [h.same c hab.1 hab.2, hnc, Option.map_some]
  · rw [parent_adopt, hok.parent_none.mpr rfl, Option.getD_none]

theorem Below.induct (h : Below g f lo hi root a b c) {P : ℕ → Prop} (hroot : P root)
    (hstep : ∀ rank nb p, lo ≤ rank → rank < hi → g rank = some nb → nb.parent = some p → P p →
      P rank) {rank : ℕ} (ha : a ≤ rank) (hb : rank < b) : P rank := by
  have hlower := h.lower
  have hupper := h.upper
  refine (h.sub.induct (fun q => a ≤ q → q < b → P q) ?_ ?_ rank ha hb) ha hb
  · intro hca hcb
    obtain ⟨nc, hnc, hparent⟩ := h.root_child ⟨hca, hcb⟩
    exact hstep c nc root (by omega) (by omega) hnc hparent hroot
  · intro q nq p hqa hqb hnq hp ih _ _
    obtain ⟨n, hn, hok⟩ := h.sub.node q hqa hqb
    obtain rfl : n = nq := Option.some.inj (hn.symm.trans hnq)
    obtain ⟨hpa, hpb, -⟩ := hok.parent p hp
    refine hstep q (adopt root n) p (by omega) (by omega) ?_ ?_ (ih hpa hpb)
    · rw [h.same q hqa hqb, hn, Option.map_some]
    · rw [parent_adopt, hp, Option.getD_some]

theorem treeOk_treeNeighbors {size : ℕ} (h : size ≠ 0) :
    ∀ depth rank0, size ≤ depth → TreeOk (fun rank => treeNeighbors depth rank size rank0) rank0
      (rank0 + size) (getRankOfRoot size rank0) := by
  induction size using Nat.strong_induction_on with
  | h size ih =>
    intro depth rank0 hdepth
    obtain ⟨depth, rfl⟩ : ∃ d, depth = d + 1 := ⟨depth - 1, by omega⟩
    by_cases h1 : size = 1
    · subst h1
      exact .single (treeNeighbors_one depth rank0)
    have h2 : 2 ≤ size := by omega
    obtain ⟨hlo, hhi, hright⟩ := getRankOfRoot_bounds h2 rank0
    have heq : ∀ rank, rank0 ≤ rank → rank < rank0 + size → _ := fun rank hr hr' =>
      treeNeighbors_eq rank h2 hr hr' hdepth
    generalize hroot : getRankOfRoot size rank0 = root at hlo hhi hright heq ⊢
    have hself := heq root hlo.le hhi
    rw [if_neg (lt_irrefl _), if_pos rfl] at hself
    have hleft : Below (fun rank => treeNeighbors (depth + 1) rank size rank0)
        (fun rank => treeNeighbors depth rank (root - rank0) rank0) rank0 (rank0 + size) root rank0
        root (getRankOfRoot (root - rank0) rank0) := by
      have hsub := ih (root - rank0) (by omega) (by omega) depth rank0 (by omega)
      rw [Nat.add_sub_cancel' hlo.le] at hsub
      have hmem := getRankOfRoot_mem (show root - rank0 ≠ 0 by omega) rank0
      refine ⟨hsub, le_rfl, hhi.le, ⟨hlo.le, hhi⟩, .inr le_rfl, fun rank hr hr' => ?_, _, hself,
        .inl ⟨by omega, rfl⟩⟩
      rw [heq rank hr (by omega), if_pos hr']
    have hright' : size ≠ 2 → Below (fun rank => treeNeighbors (depth + 1) rank size rank0)
        (fun rank => treeNeighbors depth rank (size - (root - rank0) - 1) (root + 1)) rank0
        (rank0 + size) root (root + 1) (rank0 + size)
        (getRankOfRoot (size - (root - rank0) - 1) (root + 1)) := by
      intro hne
      have hroom := hright hne
      have hsub := ih (size - (root - rank0) - 1) (by omega) (by omega) depth (root + 1) (by omega)
      rw [show root + 1 + (size - (root - rank0) - 1) = rank0 + size by omega] at hsub
      have hmem := getRankOfRoot_mem (show size - (root - rank0) - 1 ≠ 0 by omega) (root + 1)
      refine ⟨hsub, by omega, le_rfl, ⟨hlo.le, hhi⟩, .inl (Nat.lt_succ_self _),
        fun rank hr hr' => ?_, _, hself, .inr ⟨by omega, if_neg hne⟩⟩
      rw [heq rank (by omega) hr', if_neg (by omega), if_neg (by omega)]
    constructor
    · intro rank hr hr'
      rcases Nat.lt_trichotomy rank root with hlt | rfl | hgt
      · exact hleft.node hr hlt
      · refine ⟨_, hself, iff_of_true rfl rfl, nofun, fun c hc => ?_, fun c hc => ?_, nofun⟩
        · obtain rfl := Option.some.inj hc
          have hmem := getRankOfRoot_mem (show rank - rank0 ≠ 0 by omega) rank0
          exact ⟨hmem.1, by omega, hleft.root_child ⟨hmem.1, by omega⟩⟩
        · by_cases hne : size = 2
          · rw [if_pos hne] at hc
            cases hc
          · rw [if_neg hne] at hc
            obtain rfl := Option.some.inj hc
            have hmem := getRankOfRoot_mem (show size - (rank - rank0) - 1 ≠ 0 by omega) (rank + 1)
            exact ⟨by omega, by omega, (hright' hne).root_child ⟨hmem.1, by omega⟩⟩
      · exact (hright' (by omega)).node hgt hr'
    · intro P hP hstep rank hr hr'
      rcases Nat.lt_trichotomy rank root with hlt | rfl | hgt
      · exact hleft.induct hP hstep hr hlt
      · exact hP
      · exact (hright' (by omega)).induct hP hstep hgt hr'

end Titus.VictimSelector
