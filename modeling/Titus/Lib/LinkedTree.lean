import Mathlib.Data.List.Pairwise
import Mathlib.Data.Tree.Basic
import Mathlib.Order.Defs.PartialOrder
import Mathlib.Tactic.Cases

/-! Binary trees that are spread out: each node knows its parent and its two children only, and is
found by its key. -/

namespace LinkedTree

variable {α : Type*}

/-- What one node knows. -/
structure Links (α : Type*) where
  key : α
  parent : Option α
  left : Option α
  right : Option α

def root : BinaryTree α → Option α
  | .nil => none
  | .node k _ _ => some k

def inorder : BinaryTree α → List α
  | .nil => []
  | .node k l r => inorder l ++ k :: inorder r

/-- The nodes found by `g` are those of a tree whose root has the parent `p`. -/
def Linked (g : α → Option (Links α)) : Option α → BinaryTree α → Prop
  | _, .nil => True
  | p, .node k l r => g k = some ⟨k, p, root l, root r⟩ ∧ Linked g (some k) l ∧ Linked g (some k) r

/-- An in-order traversal, at most `depth` nodes deep. -/
def traverse (g : α → Option (Links α)) : ℕ → Option α → List α
  | depth + 1, some k =>
    match g k with
    | none => []
    | some n => traverse g depth n.left ++ k :: traverse g depth n.right
  | _, _ => []

/-- Where one gets by following `steps` parents. -/
def climb (g : α → Option (Links α)) : ℕ → α → Option α
  | 0, k => some k
  | steps + 1, k => (g k).bind fun n => n.parent.bind (climb g steps)

variable {f g : α → Option (Links α)} {t : BinaryTree α} {p : Option α} {k c q : α} {n m : Links α}

theorem mem_of_root (h : root t = some k) : k ∈ inorder t := by
  cases t with
  | nil => cases h
  | node k' l r =>
    cases h
    exact List.mem_append_right _ List.mem_cons_self

theorem mem_node {l r : BinaryTree α} :
    c ∈ inorder (.node k l r) ↔ c ∈ inorder l ∨ c = k ∨ c ∈ inorder r := by
  rw [inorder, List.mem_append, List.mem_cons]

namespace Linked

theorem root_parent (h : Linked g p t) (hk : root t = some k) :
    ∃ n, g k = some n ∧ n.parent = p := by
  cases t with
  | nil => cases hk
  | node k' l r =>
    cases hk
    exact ⟨_, h.1, rfl⟩

/-- What holds of every node whose children it holds of, holds of all nodes. -/
theorem induct_children (h : Linked g p t) {P : α → Prop}
    (hstep : ∀ k n, g k = some n → (∀ c, n.left = some c ∨ n.right = some c → P c) → P k)
    (hk : k ∈ inorder t) : P k := by
  induction t generalizing p k with
  | nil => cases hk
  | node q l r ihl ihr =>
    obtain ⟨hq, hl, hr⟩ := h
    rcases mem_node.mp hk with hk | rfl | hk
    · exact ihl hl hk
    · apply hstep _ _ hq
      rintro c (hc | hc)
      · exact ihl hl (mem_of_root hc)
      · exact ihr hr (mem_of_root hc)
    · exact ihr hr hk

/-- A node is the root, or it is the child of another one. -/
theorem parent (h : Linked g p t) (hk : k ∈ inorder t) :
    ∃ n, g k = some n ∧ n.key = k ∧ (root t = some k ∧ n.parent = p ∨
      ∃ q ∈ inorder t, n.parent = some q ∧ ∃ m, g q = some m ∧
        (m.left = some k ∨ m.right = some k)) := by
  induction t generalizing p with
  | nil => cases hk
  | node q l r ihl ihr =>
    obtain ⟨hq, hl, hr⟩ := h
    have hroot : q ∈ inorder (.node q l r) := mem_of_root rfl
    rcases mem_node.mp hk with hk | rfl | hk
    · obtain ⟨n, hn, hkey, ⟨hc, hp⟩ | ⟨q', hq', hrest⟩⟩ := ihl hl hk
      · exact ⟨n, hn, hkey, .inr ⟨q, hroot, hp, _, hq, .inl hc⟩⟩
      · exact ⟨n, hn, hkey, .inr ⟨q', mem_node.mpr (.inl hq'), hrest⟩⟩
    · exact ⟨_, hq, rfl, .inl ⟨rfl, rfl⟩⟩
    · obtain ⟨n, hn, hkey, ⟨hc, hp⟩ | ⟨q', hq', hrest⟩⟩ := ihr hr hk
      · exact ⟨n, hn, hkey, .inr ⟨q, hroot, hp, _, hq, .inr hc⟩⟩
      · exact ⟨n, hn, hkey, .inr ⟨q', mem_node.mpr (.inr (.inr hq')), hrest⟩⟩

/-- The children of a node are in the tree, and have it as their parent. -/
theorem child (h : Linked g p t) (hk : k ∈ inorder t) (hn : g k = some n)
    (hc : n.left = some c ∨ n.right = some c) :
    c ∈ inorder t ∧ ∃ m, g c = some m ∧ m.parent = some k := by
  induction t generalizing p with
  | nil => cases hk
  | node q l r ihl ihr =>
    obtain ⟨hq, hl, hr⟩ := h
    rcases mem_node.mp hk with hk | rfl | hk
    · obtain ⟨hmem, hm⟩ := ihl hl hk
      exact ⟨mem_node.mpr (.inl hmem), hm⟩
    · cases hq.symm.trans hn
      rcases hc with hc | hc
      · exact ⟨mem_node.mpr (.inl (mem_of_root hc)), hl.root_parent hc⟩
      · exact ⟨mem_node.mpr (.inr (.inr (mem_of_root hc))), hr.root_parent hc⟩
    · obtain ⟨hmem, hm⟩ := ihr hr hk
      exact ⟨mem_node.mpr (.inr (.inr hmem)), hm⟩

theorem parent_eq_none (h : Linked g none t) (hk : k ∈ inorder t) (hn : g k = some n) :
    n.parent = none ↔ root t = some k := by
  obtain ⟨n', hn', -, ⟨hroot, hp⟩ | ⟨q, -, hp, -⟩⟩ := h.parent hk
  · cases hn.symm.trans hn'
    exact iff_of_true hp hroot
  · cases hn.symm.trans hn'
    rw [hp]
    refine iff_of_false nofun ?_
    intro hroot
    obtain ⟨n', hn', hnone⟩ := h.root_parent hroot
    cases hn.symm.trans hn'
    cases hp.symm.trans hnone

theorem parent_eq_some (h : Linked g none t) (hk : k ∈ inorder t) (hn : g k = some n)
    (hq : q ∈ inorder t) (hm : g q = some m) :
    n.parent = some q ↔ m.left = some k ∨ m.right = some k := by
  constructor
  · intro hp
    obtain ⟨n', hn', -, ⟨-, hnone⟩ | ⟨q', -, hp', m', hm', hc⟩⟩ := h.parent hk
    · cases hn.symm.trans hn'
      cases hp.symm.trans hnone
    · cases hn.symm.trans hn'
      cases hp.symm.trans hp'
      cases hm.symm.trans hm'
      exact hc
  · intro hc
    obtain ⟨-, n', hn', hp⟩ := h.child hq hm hc
    cases hn.symm.trans hn'
    exact hp

/-- If the traversal is in order, each node lies between its children. -/
theorem ordered [Preorder α] (h : Linked g p t) (hsorted : (inorder t).Pairwise (· < ·))
    (hk : k ∈ inorder t) (hn : g k = some n) :
    (∀ c, n.left = some c → c < k) ∧ ∀ c, n.right = some c → k < c := by
  induction t generalizing p with
  | nil => cases hk
  | node q l r ihl ihr =>
    obtain ⟨hq, hl, hr⟩ := h
    rw [inorder, List.pairwise_append, List.pairwise_cons] at hsorted
    obtain ⟨hsl, ⟨hqr, hsr⟩, hlt⟩ := hsorted
    rcases mem_node.mp hk with hk | rfl | hk
    · exact ihl hl hsl hk
    · cases hq.symm.trans hn
      constructor
      · intro c hc
        exact hlt c (mem_of_root hc) k List.mem_cons_self
      · intro c hc
        exact hqr c (mem_of_root hc)
    · exact ihr hr hsr hk

theorem traverse_eq (h : Linked g p t) {depth : ℕ} (hdepth : t.height ≤ depth) :
    traverse g depth (root t) = inorder t := by
  induction t generalizing p depth with
  | nil => cases depth <;> rfl
  | node q l r ihl ihr =>
    obtain ⟨hq, hl, hr⟩ := h
    rw [BinaryTree.height] at hdepth
    obtain ⟨depth, rfl⟩ : ∃ d, depth = d + 1 := ⟨depth - 1, by omega⟩
    rw [show root (.node q l r) = some q from rfl, traverse, hq, inorder]
    dsimp only
    rw [ihl hl (by omega), ihr hr (by omega)]

/-- From a subtree one climbs to the parent of its root. -/
theorem climb_parent (h : Linked g (some q) t) (hk : k ∈ inorder t) :
    ∃ steps ≤ t.height, climb g steps k = some q := by
  induction t generalizing q with
  | nil => cases hk
  | node c l r ihl ihr =>
    obtain ⟨hc, hl, hr⟩ := h
    have hstep : ∀ {steps k}, climb g steps k = some c → climb g (steps + 1) k = some q := by
      intro steps
      induction steps with
      | zero =>
        rintro k ⟨⟩
        simp only [climb, hc, Option.bind_some]
      | succ steps ih =>
        intro k hk
        obtain ⟨n, hn, hk⟩ := Option.bind_eq_some_iff.mp hk
        obtain ⟨k', hk', hk⟩ := Option.bind_eq_some_iff.mp hk
        simp only [climb, hn, hk', Option.bind_some]
        exact ih hk
    rw [BinaryTree.height]
    rcases mem_node.mp hk with hk | rfl | hk
    · obtain ⟨steps, hle, hclimb⟩ := ihl hl hk
      exact ⟨steps + 1, by omega, hstep hclimb⟩
    · exact ⟨1, by omega, hstep rfl⟩
    · obtain ⟨steps, hle, hclimb⟩ := ihr hr hk
      exact ⟨steps + 1, by omega, hstep hclimb⟩

/-- From every node one climbs to the root, in fewer steps than the tree is high. -/
theorem climb_root (h : Linked g p t) (hk : k ∈ inorder t) :
    ∃ steps < t.height, climb g steps k = root t := by
  cases t with
  | nil => cases hk
  | node q l r =>
    obtain ⟨-, hl, hr⟩ := h
    rw [BinaryTree.height]
    rcases mem_node.mp hk with hk | rfl | hk
    · obtain ⟨steps, hle, hclimb⟩ := hl.climb_parent hk
      exact ⟨steps, by omega, hclimb⟩
    · exact ⟨0, by omega, rfl⟩
    · obtain ⟨steps, hle, hclimb⟩ := hr.climb_parent hk
      exact ⟨steps, by omega, hclimb⟩

/-- A node's parent is not its child. -/
theorem parent_ne_child (h : Linked g none t) (hk : k ∈ inorder t) (hn : g k = some n)
    (hp : n.parent = some q) : n.left ≠ some q ∧ n.right ≠ some q := by
  rw [← not_or]
  intro hc
  obtain ⟨-, m, hm, hpm⟩ := h.child hk hn hc
  -- From `k` one would only ever get to `k` and `q`, and not to the root.
  have hstay : ∀ steps x z, x = k ∨ x = q → climb g steps x = some z → z = k ∨ z = q := by
    intro steps
    induction steps with
    | zero =>
      rintro x z hx ⟨⟩
      exact hx
    | succ steps ih =>
      rintro x z (rfl | rfl) hz
      · simp only [climb, hn, hp, Option.bind_some] at hz
        exact ih _ z (.inr rfl) hz
      · simp only [climb, hm, hpm, Option.bind_some] at hz
        exact ih _ z (.inl rfl) hz
  obtain ⟨steps, -, hclimb⟩ := h.climb_root hk
  cases t with
  | nil => cases hk
  | node z l r =>
    obtain ⟨n', hn', hnone⟩ := h.root_parent rfl
    rcases hstay steps k z (.inl rfl) hclimb with rfl | rfl
    · cases hn.symm.trans hn'
      cases hp.symm.trans hnone
    · cases hm.symm.trans hn'
      cases hpm.symm.trans hnone

/-- In a tree with two nodes, each has a parent or a child. -/
theorem exists_relative (h : Linked g none t) (hlen : 2 ≤ (inorder t).length) (hk : k ∈ inorder t)
    (hn : g k = some n) : n.parent ≠ none ∨ n.left ≠ none ∨ n.right ≠ none := by
  by_contra hno
  simp only [not_or, ne_eq, not_not] at hno
  obtain ⟨hparent, hleft, hright⟩ := hno
  have hroot := (h.parent_eq_none hk hn).mp hparent
  cases t with
  | nil => cases hk
  | node z l r =>
    cases hroot
    cases h.1.symm.trans hn
    cases l with
    | node => cases hleft
    | nil =>
      cases r with
      | node => cases hright
      | nil => exact absurd hlen (Nat.not_succ_le_self 1)

theorem congr (h : Linked f p t) (hg : ∀ k ∈ inorder t, g k = f k) : Linked g p t := by
  induction t generalizing p with
  | nil => trivial
  | node c l r ihl ihr =>
    obtain ⟨hc, hl, hr⟩ := h
    refine ⟨?_, ?_, ?_⟩
    · rw [hg c (mem_of_root rfl), hc]
    · exact ihl hl fun k hk => hg k (mem_node.mpr (.inl hk))
    · exact ihr hr fun k hk => hg k (mem_node.mpr (.inr (.inr hk)))

/-- A tree becomes a subtree of `q` when its root is given `q` as its parent. -/
theorem adopted (h : Linked f p t) (hg : ∀ k ∈ inorder t, g k = (f k).map fun n =>
    { n with parent := some (n.parent.getD q) }) : Linked g (some (p.getD q)) t := by
  induction t generalizing p with
  | nil => trivial
  | node c l r ihl ihr =>
    obtain ⟨hc, hl, hr⟩ := h
    refine ⟨?_, ?_, ?_⟩
    · rw [hg c (mem_of_root rfl), hc, Option.map_some]
    · exact ihl hl fun k hk => hg k (mem_node.mpr (.inl hk))
    · exact ihr hr fun k hk => hg k (mem_node.mpr (.inr (.inr hk)))

end Linked

end LinkedTree
