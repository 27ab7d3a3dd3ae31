import Mathlib.Algebra.Group.Nat.Even
import Mathlib.Algebra.Order.Group.Multiset
import Mathlib.Data.Multiset.Range
import Mathlib.Data.Sym.Sym2
import Mathlib.Logic.Function.Basic
import Mathlib.Tactic.Abel

/-! Graphs given by their half edges: each half edge has an owner, and a table has the owner of the
half edge that it is joined with.  Loops and parallel edges are allowed. -/

namespace Rewiring

variable {α : Type*}

/-! ### Balanced sets of pairs -/

section Balanced

variable [DecidableEq α]

/-- Every pair occurs as often as the opposite one, and a loop has two half edges. -/
structure Balanced (m : Multiset (α × α)) : Prop where
  swap : m.map Prod.swap = m
  even : ∀ x, Even (m.count (x, x))

/-- The pairs of `e` in both directions. -/
def bothWays (e : Multiset (α × α)) : Multiset (α × α) := e + e.map Prod.swap

variable {m m' o w : Multiset (α × α)}

theorem count_map_swap (m : Multiset (α × α)) (x y : α) :
    (m.map Prod.swap).count (x, y) = m.count (y, x) :=
  Multiset.count_map_eq_count' Prod.swap m Prod.swap_injective (y, x)

theorem Balanced.count_swap (h : Balanced m) (x y : α) : m.count (x, y) = m.count (y, x) := by
  rw [← count_map_swap, h.swap]

theorem balanced_bothWays (e : Multiset (α × α)) : Balanced (bothWays e) := by
  constructor
  · rw [bothWays, Multiset.map_add, Multiset.map_map, Prod.swap_swap_eq, Multiset.map_id, add_comm]
  · intro x
    rw [bothWays, Multiset.count_add, count_map_swap]
    exact Even.add_self _

omit [DecidableEq α] in
theorem bothWays_pair (x y u v : α) :
    bothWays {(x, y), (u, v)} = bothWays {(x, y)} + bothWays {(u, v)} := by
  simp only [bothWays, Multiset.insert_eq_cons, ← Multiset.singleton_add, Multiset.map_add,
    Multiset.map_singleton, Prod.swap_prod_mk]
  abel

theorem count_bothWays {x y : α} (hxy : x ≠ y) (u v : α) :
    (bothWays {(u, v)}).count (x, y) = if s(x, y) = s(u, v) then 1 else 0 := by
  rw [bothWays, Multiset.count_add, count_map_swap, Multiset.count_singleton,
    Multiset.count_singleton]
  by_cases h : s(x, y) = s(u, v)
  · rw [if_pos h]
    rcases Sym2.eq_iff.mp h with ⟨rfl, rfl⟩ | ⟨rfl, rfl⟩
    · rw [if_pos rfl, if_neg fun heq => hxy (Prod.mk.inj heq).2]
    · rw [if_neg fun heq => hxy (Prod.mk.inj heq).1, if_pos rfl]
  · rw [if_neg h, if_neg, if_neg]
    · intro heq
      obtain ⟨hy, hx⟩ := Prod.mk.inj heq
      exact h (Sym2.eq_iff.mpr (.inr ⟨hx, hy⟩))
    · intro heq
      exact h (Sym2.eq_iff.mpr (.inl (Prod.mk.inj heq)))

theorem Balanced.mem_swap (h : Balanced m) {x y : α} (hm : (x, y) ∈ m) : (y, x) ∈ m := by
  rw [← Multiset.count_pos, h.count_swap]
  exact Multiset.count_pos.mpr hm

theorem Balanced.replace (h : Balanced m) (heq : m' + o = m + w) (ho : Balanced o)
    (hw : Balanced w) : Balanced m' := by
  constructor
  · have hswap := congrArg (Multiset.map Prod.swap) heq
    rw [Multiset.map_add, Multiset.map_add, ho.swap, h.swap, hw.swap, ← heq] at hswap
    exact Multiset.add_left_inj.mp hswap
  · intro x
    have hcount := congrArg (Multiset.count (x, x)) heq
    rw [Multiset.count_add, Multiset.count_add] at hcount
    have heven := (h.even x).add (hw.even x)
    rw [← hcount] at heven
    exact (Nat.even_add.mp heven).mpr (ho.even x)

end Balanced

/-! ### Tables -/

/-- The owner of each half edge below `n`, with the owner that the table has for it. -/
def ends (n : ℕ) (owner target : ℕ → α) : Multiset (α × α) :=
  (Multiset.range n).map fun h => (owner h, target h)

variable {n : ℕ} {owner target : ℕ → α}

theorem mem_ends {x y : α} : (x, y) ∈ ends n owner target ↔
    ∃ h < n, owner h = x ∧ target h = y := by
  simp [ends]

theorem ends_update (owner target : ℕ → α) {h : ℕ} (hn : h < n) (v : α) :
    ends n owner (Function.update target h v) + {(owner h, target h)} =
      ends n owner target + {(owner h, v)} := by
  obtain ⟨s, hs⟩ := Multiset.exists_cons_of_mem (Multiset.mem_range.mpr hn)
  have hnot : h ∉ s := by
    have hnodup := Multiset.nodup_range n
    rw [hs] at hnodup
    exact (Multiset.nodup_cons.mp hnodup).1
  have hsame : s.map (fun k => (owner k, Function.update target h v k)) =
      s.map fun k => (owner k, target k) := by
    apply Multiset.map_congr rfl
    intro k hk
    rw [Function.update_of_ne]
    rintro rfl
    exact hnot hk
  rw [ends, ends, hs, Multiset.map_cons, Multiset.map_cons, hsame, Function.update_self,
    ← Multiset.singleton_add, ← Multiset.singleton_add]
  abel

/-- The half edges `a` and `c`, and `b` and `d`, are joined in place of what they were joined
with. -/
def rewire (owner target : ℕ → α) (a b c d : ℕ) : ℕ → α :=
  Function.update (Function.update (Function.update (Function.update target a (owner c)) b (owner d))
    c (owner a)) d (owner b)

/-- The half edges `a` and `b` are joined, and so are `c` and `d`. -/
structure Joined (n : ℕ) (owner target : ℕ → α) (a b c d : ℕ) : Prop where
  lt : a < n ∧ b < n ∧ c < n ∧ d < n
  distinct : a ≠ b ∧ a ≠ c ∧ a ≠ d ∧ b ≠ c ∧ b ≠ d ∧ c ≠ d
  left : target a = owner b ∧ target b = owner a
  right : target c = owner d ∧ target d = owner c

theorem ends_rewire {a b c d : ℕ} (h : Joined n owner target a b c d) :
    ends n owner (rewire owner target a b c d) +
        bothWays {(owner a, owner b), (owner c, owner d)} =
      ends n owner target + bothWays {(owner a, owner c), (owner b, owner d)} := by
  obtain ⟨hab, hac, had, hbc, hbd, hcd⟩ := h.distinct
  have ha := ends_update owner target h.lt.1 (owner c)
  have hb := ends_update owner (Function.update target a (owner c)) h.lt.2.1 (owner d)
  have hc := ends_update owner (Function.update (Function.update target a (owner c)) b (owner d))
    h.lt.2.2.1 (owner a)
  have hd := ends_update owner (Function.update (Function.update (Function.update target a
    (owner c)) b (owner d)) c (owner a)) h.lt.2.2.2 (owner b)
  rw [Function.update_of_ne hab.symm] at hb
  rw [Function.update_of_ne hbc.symm, Function.update_of_ne hac.symm] at hc
  rw [Function.update_of_ne hcd.symm, Function.update_of_ne hbd.symm,
    Function.update_of_ne had.symm] at hd
  rw [h.left.1] at ha
  rw [h.left.2] at hb
  rw [h.right.1] at hc
  rw [h.right.2] at hd
  have hpairs : ∀ x y u v : α, bothWays {(x, y), (u, v)} =
      {(x, y)} + {(u, v)} + {(y, x)} + {(v, u)} := by
    intro x y u v
    simp only [bothWays, Multiset.insert_eq_cons, ← Multiset.singleton_add, Multiset.map_add,
      Multiset.map_singleton, Prod.swap_prod_mk]
    abel
  rw [hpairs, hpairs]
  change ends n owner (Function.update _ d (owner b)) + _ = _
  generalize Function.update (Function.update (Function.update target a (owner c)) b (owner d)) c
    (owner a) = t₃ at hc hd ⊢
  generalize Function.update (Function.update target a (owner c)) b (owner d) = t₂ at hb hc
  generalize Function.update target a (owner c) = t₁ at ha hb
  calc ends n owner (Function.update t₃ d (owner b)) +
        ({(owner a, owner b)} + {(owner c, owner d)} + {(owner b, owner a)} + {(owner d, owner c)})
      = (ends n owner (Function.update t₃ d (owner b)) + {(owner d, owner c)}) +
          {(owner c, owner d)} + {(owner b, owner a)} + {(owner a, owner b)} := by abel
    _ = (ends n owner t₃ + {(owner c, owner d)}) + {(owner d, owner b)} + {(owner b, owner a)} +
          {(owner a, owner b)} := by rw [hd]; abel
    _ = (ends n owner t₂ + {(owner b, owner a)}) + {(owner c, owner a)} + {(owner d, owner b)} +
          {(owner a, owner b)} := by rw [hc]; abel
    _ = (ends n owner t₁ + {(owner a, owner b)}) + {(owner b, owner d)} + {(owner c, owner a)} +
          {(owner d, owner b)} := by rw [hb]; abel
    _ = ends n owner target +
          ({(owner a, owner c)} + {(owner b, owner d)} + {(owner c, owner a)} +
            {(owner d, owner b)}) := by rw [ha]; abel

section Repair

variable {a b c d h k : ℕ}

theorem rewire_of_ne (ha : h ≠ a) (hb : h ≠ b) (hc : h ≠ c) (hd : h ≠ d) :
    rewire owner target a b c d h = target h := by
  rw [rewire, Function.update_of_ne hd, Function.update_of_ne hc, Function.update_of_ne hb,
    Function.update_of_ne ha]

theorem rewire_eq (hj : Joined n owner target a b c d) :
    rewire owner target a b c d a = owner c ∧ rewire owner target a b c d b = owner d ∧
      rewire owner target a b c d c = owner a ∧ rewire owner target a b c d d = owner b := by
  obtain ⟨hab, hac, had, hbc, hbd, hcd⟩ := hj.distinct
  refine ⟨?_, ?_, ?_, Function.update_self ..⟩
  · rw [rewire, Function.update_of_ne had, Function.update_of_ne hac, Function.update_of_ne hab,
      Function.update_self]
  · rw [rewire, Function.update_of_ne hbd, Function.update_of_ne hbc, Function.update_self]
  · rw [rewire, Function.update_of_ne hcd, Function.update_self]

/-- The new edges are no loops. -/
theorem rewire_ne_owner (hj : Joined n owner target a b c d) (hac : owner a ≠ owner c)
    (hbd : owner b ≠ owner d) (hold : h ≠ a → target h ≠ owner h) :
    rewire owner target a b c d h ≠ owner h := by
  obtain ⟨ha, hb, hc, hd⟩ := rewire_eq hj
  by_cases hha : h = a
  · rw [hha, ha]
    exact hac.symm
  · by_cases hhb : h = b
    · rw [hhb, hb]
      exact hbd.symm
    · by_cases hhc : h = c
      · rw [hhc, hc]
        exact hac
      · by_cases hhd : h = d
        · rw [hhd, hd]
          exact hbd
        · rw [rewire_of_ne hha hhb hhc hhd]
          exact hold hha

/-- Half edges of one owner that led to two others still do: each owner gets one new neighbor at
most. -/
theorem rewire_ne_rewire (hj : Joined n owner target a b c d)
    (howners : ([a, b, c, d].map owner).Nodup)
    (hfresh : ∀ h ∈ [a, b, c, d], (owner h, rewire owner target a b c d h) ∉ ends n owner target)
    (hh : h < n) (hk : k < n) (hhk : h ≠ k) (howner : owner h = owner k)
    (hold : h ≠ a → target h ≠ target k) :
    rewire owner target a b c d h ≠ rewire owner target a b c d k := by
  have hsame : ∀ k ∉ [a, b, c, d], rewire owner target a b c d k = target k := by
    intro k hk
    simp only [List.mem_cons, List.not_mem_nil, or_false, not_or] at hk
    exact rewire_of_ne hk.1 hk.2.1 hk.2.2.1 hk.2.2.2
  have hnew : ∀ h ∈ [a, b, c, d], ∀ k < n, h ≠ k → owner h = owner k →
      rewire owner target a b c d h ≠ rewire owner target a b c d k := by
    intro h hmem k hk hhk howner heq
    apply hfresh h hmem
    rw [heq, hsame k fun hkmem => hhk (List.inj_on_of_nodup_map howners hmem hkmem howner), howner]
    exact mem_ends.mpr ⟨k, hk, rfl, rfl⟩
  by_cases hmem : h ∈ [a, b, c, d]
  · exact hnew h hmem k hk hhk howner
  · by_cases hkmem : k ∈ [a, b, c, d]
    · exact (hnew k hkmem h hh hhk.symm howner.symm).symm
    · rw [hsame h hmem, hsame k hkmem]
      apply hold
      rintro rfl
      exact hmem List.mem_cons_self

variable [DecidableEq α]

/-- A half edge is joined with another one. -/
theorem exists_partner (hbal : Balanced (ends n owner target)) (hc : c < n) :
    ∃ d < n, d ≠ c ∧ owner d = target c ∧ target d = owner c := by
  by_cases hloop : owner c = target c
  · obtain ⟨s, hs⟩ := Multiset.exists_cons_of_mem (Multiset.mem_range.mpr hc)
    have hnot : c ∉ s := by
      have hnodup := Multiset.nodup_range n
      rw [hs] at hnodup
      exact (Multiset.nodup_cons.mp hnodup).1
    have heven := hbal.even (owner c)
    rw [ends, hs, Multiset.map_cons, ← hloop, Multiset.count_cons_self, Nat.even_add_one] at heven
    have hpos := Nat.pos_of_ne_zero fun hzero => heven ⟨0, hzero⟩
    obtain ⟨d, hd, heq⟩ := Multiset.mem_map.mp (Multiset.count_pos.mp hpos)
    refine ⟨d, ?_, ?_, hloop ▸ (Prod.mk.inj heq).1, (Prod.mk.inj heq).2⟩
    · rw [← Multiset.mem_range, hs]
      exact Multiset.mem_cons_of_mem hd
    · rintro rfl
      exact hnot hd
  · obtain ⟨d, hd, howner, htarget⟩ :=
      mem_ends.mp (hbal.mem_swap (mem_ends.mpr ⟨c, hc, rfl, rfl⟩))
    refine ⟨d, hd, ?_, howner, htarget⟩
    rintro rfl
    exact hloop howner

theorem balanced_rewire (hbal : Balanced (ends n owner target))
    (hj : Joined n owner target a b c d) :
    Balanced (ends n owner (rewire owner target a b c d)) :=
  hbal.replace (ends_rewire hj) (balanced_bothWays _) (balanced_bothWays _)

/-- An edge stays if it is not swapped away, or another one runs beside it. -/
theorem mem_ends_rewire (hj : Joined n owner target a b c d) {x y : α} (hxy : x ≠ y)
    (hmem : (x, y) ∈ ends n owner target)
    (hab : s(x, y) = s(owner a, owner b) → 2 ≤ (ends n owner target).count (x, y) ∧
      s(x, y) ≠ s(owner c, owner d))
    (hcd : s(x, y) = s(owner c, owner d) → 2 ≤ (ends n owner target).count (x, y)) :
    (x, y) ∈ ends n owner (rewire owner target a b c d) := by
  have hcount := congrArg (Multiset.count (x, y)) (ends_rewire hj)
  rw [Multiset.count_add, Multiset.count_add, bothWays_pair (owner a) (owner b), Multiset.count_add,
    count_bothWays hxy, count_bothWays hxy] at hcount
  have hpos := Multiset.count_pos.mpr hmem
  rw [← Multiset.count_pos]
  by_cases h₁ : s(x, y) = s(owner a, owner b)
  · rw [if_pos h₁, if_neg (hab h₁).2] at hcount
    have htwo := (hab h₁).1
    omega
  · rw [if_neg h₁] at hcount
    by_cases h₂ : s(x, y) = s(owner c, owner d)
    · rw [if_pos h₂] at hcount
      have htwo := hcd h₂
      omega
    · rw [if_neg h₂] at hcount
      omega

end Repair

/-! ### Pairings -/

/-- The half edges at the positions `2 * k` and `2 * k + 1` are joined. -/
structure Paired (m : ℕ) (position : ℕ → ℕ) (owner target : ℕ → α) : Prop where
  even : ∀ k < m, target (position (2 * k)) = owner (position (2 * k + 1))
  odd : ∀ k < m, target (position (2 * k + 1)) = owner (position (2 * k))

theorem map_range_two_mul {β : Type*} (f : ℕ → β) (m : ℕ) :
    (Multiset.range (2 * m)).map f =
      (Multiset.range m).map (fun k => f (2 * k)) +
        (Multiset.range m).map fun k => f (2 * k + 1) := by
  induction m with
  | zero => rfl
  | succ m ih =>
    rw [show 2 * (m + 1) = 2 * m + 1 + 1 by rfl, Multiset.range_succ, Multiset.range_succ,
      Multiset.range_succ, Multiset.map_cons, Multiset.map_cons, Multiset.map_cons,
      Multiset.map_cons, ih, ← Multiset.singleton_add, ← Multiset.singleton_add,
      ← Multiset.singleton_add, ← Multiset.singleton_add]
    abel

/-- Half edges that are joined in pairs make a graph. -/
theorem balanced_ends_of_paired [DecidableEq α] {m : ℕ} {position : ℕ → ℕ}
    (hperm : (Multiset.range (2 * m)).map position = Multiset.range (2 * m))
    (h : Paired m position owner target) : Balanced (ends (2 * m) owner target) := by
  have heq : ends (2 * m) owner target = bothWays ((Multiset.range m).map fun k =>
      (owner (position (2 * k)), owner (position (2 * k + 1)))) := by
    rw [ends, ← hperm, Multiset.map_map, map_range_two_mul, bothWays, Multiset.map_map]
    congr 1
    · apply Multiset.map_congr rfl
      intro k hk
      rw [Function.comp_apply, h.even k (Multiset.mem_range.mp hk)]
    · apply Multiset.map_congr rfl
      intro k hk
      rw [Function.comp_apply, h.odd k (Multiset.mem_range.mp hk)]
      rfl
  rw [heq]
  exact balanced_bothWays _

end Rewiring
