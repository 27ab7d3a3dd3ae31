import Titus.VictimSelector.InfixedWords
import Titus.VictimSelector.RegularGraphPairing

/-! The table of half edges of `d_reg_neighboring_generator` on machine integers, under calls of
`add_neighboring`. -/

namespace Titus.VictimSelector.Machine

open TablePermutation

/-! ### Functions -/

/-- What `add_neighboring` changes of a `d_reg_neighboring_generator`. -/
structure HalfEdgeTable where
  halfEdges : ℕ → ℕ
  neighbors : ℕ → ℕ
  availableHalfEdges : ℕ

/-- The loop of `find_free_half_edge`, for `fuel` half edges. -/
def freeFrom (neighbors : ℕ → ℕ) (last : ℕ) : ℕ → ℕ → Option ℕ
  | 0, _ => none
  | fuel + 1, i =>
    if i < last then
      if neighbors i = noRank then some i else freeFrom neighbors last fuel (toRank (i + 1))
    else none

section Functions

variable (nbRank degree : ℕ)

/-- The constructor, for `nb_rank` ranks, after its assertion. -/
def newTable : HalfEdgeTable where
  halfEdges i := toRank i
  neighbors _ := noRank
  availableHalfEdges := nbRank * degree

/-- `find_free_half_edge`. The loop has no end if all half edges that its index can name are set. -/
def findFree (neighbors : ℕ → ℕ) (rank : ℕ) : Option ℕ :=
  freeFrom neighbors ((rank + 1) * degree) (2 ^ 16) (toRank (rank * degree))

/-- `nb_rank * degree - available_half_edges`, where the member `nb_rank` is a `DVS_RANK_TYPE`.
It is undefined if it is not in the table. -/
def insertionPoint (available : ℕ) : Option ℕ :=
  let i := toSizeT (toRank nbRank * degree - available)
  if i < nbRank * degree then some i else none

/-- `connect_half_edges`. -/
def connect (t : HalfEdgeTable) (a b : ℕ) : Option HalfEdgeTable := do
  let indexOfA ← indexFrom t.halfEdges a (2 ^ 16) a
  let indexOfB ← indexFrom t.halfEdges b (2 ^ 16) b
  let first ← insertionPoint nbRank degree t.availableHalfEdges
  let second ← insertionPoint nbRank degree (toSizeT (t.availableHalfEdges - 1))
  some { t with
    halfEdges := swapAt (swapAt t.halfEdges first indexOfA) second indexOfB
    availableHalfEdges := toSizeT (toSizeT (t.availableHalfEdges - 1) - 1) }

/-- `add_neighboring`. -/
def addNeighboring (t : HalfEdgeTable) (rankA rankB : ℕ) : Option HalfEdgeTable := do
  let a ← findFree degree t.neighbors rankA
  let b ← findFree degree t.neighbors rankB
  let t' ← connect nbRank degree t a b
  some { t' with
    neighbors := Function.update
      (Function.update t'.neighbors (a / degree * degree + a % degree) (toRank (b / degree)))
      (b / degree * degree + b % degree) (toRank (a / degree)) }

/-- The calls of `add_neighboring` one after the other. -/
def halfEdgeTable : Transition.System HalfEdgeTable (ℕ × ℕ) where
  init t := t = newTable nbRank degree
  next t call := addNeighboring nbRank degree t call.1 call.2

/-! ### Properties -/

/-- Rank `rank` has a free slot. -/
def HasFree (t : HalfEdgeTable) (rank : ℕ) : Prop :=
  rank < nbRank ∧ ∃ i < degree, t.neighbors (rank * degree + i) = noRank

/-- Two different ranks that both have a free slot. -/
def Callable (t : HalfEdgeTable) (call : ℕ × ℕ) : Prop :=
  call.1 ≠ call.2 ∧ HasFree nbRank degree t call.1 ∧ HasFree nbRank degree t call.2

/-- The half edges in use. -/
def inUse (t : HalfEdgeTable) : ℕ := nbRank * degree - t.availableHalfEdges

/-- The half edges in use are at the front of the table, in pairs. -/
structure TableOk (t : HalfEdgeTable) : Prop where
  permutes : Permutes (nbRank * degree) t.halfEdges
  le : t.availableHalfEdges ≤ nbRank * degree
  even : Even (inUse nbRank degree t)
  set_iff : ∀ h < nbRank * degree,
    t.neighbors h ≠ noRank ↔ ∃ p < inUse nbRank degree t, t.halfEdges p = h
  paired : ∀ k, 2 * k + 1 < inUse nbRank degree t →
    t.neighbors (t.halfEdges (2 * k)) = t.halfEdges (2 * k + 1) / degree ∧
      t.neighbors (t.halfEdges (2 * k + 1)) = t.halfEdges (2 * k) / degree

/-- A call finds its two half edges `a` and `b` in the table, and puts them after those in use. -/
structure Connected (t t' : HalfEdgeTable) (a b : ℕ) : Prop where
  ok : TableOk nbRank degree t'
  indexOfA : ∃ p < nbRank * degree, indexFrom t.halfEdges a (2 ^ 16) a = some p ∧
    t.halfEdges p = a
  indexOfB : ∃ p < nbRank * degree, indexFrom t.halfEdges b (2 ^ 16) b = some p ∧
    t.halfEdges p = b
  grown : inUse nbRank degree t' = inUse nbRank degree t + 2
  before : ∀ p < inUse nbRank degree t, t'.halfEdges p = t.halfEdges p
  pair : (t'.halfEdges (inUse nbRank degree t) = a ∧
      t'.halfEdges (inUse nbRank degree t + 1) = b) ∨
    (t'.halfEdges (inUse nbRank degree t) = b ∧
      t'.halfEdges (inUse nbRank degree t + 1) = a)

/-- A call returns, with what is said of the table. -/
def CallOk (t : HalfEdgeTable) (call : ℕ × ℕ) : Prop :=
  ∃ t' a b, addNeighboring nbRank degree t call.1 call.2 = some t' ∧
    findFree degree t.neighbors call.1 = some a ∧ findFree degree t.neighbors call.2 = some b ∧
    Connected nbRank degree t t' a b

/-- The half edge of the second rank is not the first one that is not in use, where the swap for the
first rank takes it from its place, or that swap does no harm; and the ranks fit their type. -/
def IndexKept (t : HalfEdgeTable) (call : ℕ × ℕ) : Prop :=
  nbRank < 2 ^ 16 ∧
    (findFree degree t.neighbors call.2 ≠ some (t.halfEdges (inUse nbRank degree t)) ∨
      findFree degree t.neighbors call.1 = some (t.halfEdges (inUse nbRank degree t + 1)))

end Functions

/-! ### Half edges -/

section Calls

variable {nbRank degree : ℕ} {t t' : HalfEdgeTable} {call : ℕ × ℕ}

/-- The first half edge that is free is found. -/
theorem freeFrom_eq {neighbors : ℕ → ℕ} {last fuel i d : ℕ}
    (hset : ∀ j < d, neighbors (i + j) ≠ noRank) (hfree : neighbors (i + d) = noRank)
    (hlast : i + d < last) (hword : i + d < 2 ^ 16) (hfuel : d < fuel) :
    freeFrom neighbors last fuel i = some (i + d) := by
  induction d generalizing i fuel with
  | zero =>
    obtain ⟨fuel, rfl⟩ : ∃ k, fuel = k + 1 := ⟨fuel - 1, by omega⟩
    simp only [Nat.add_zero] at hfree hlast ⊢
    rw [freeFrom, if_pos hlast, if_pos hfree]
  | succ d ih =>
    have hfirst : neighbors i ≠ noRank := hset 0 (Nat.succ_pos d)
    obtain ⟨fuel, rfl⟩ : ∃ k, fuel = k + 1 := ⟨fuel - 1, by omega⟩
    have hnext : i + 1 + d = i + (d + 1) := by omega
    rw [freeFrom, if_pos (by omega), if_neg hfirst, toRank, Nat.mod_eq_of_lt (by omega), ← hnext]
    apply ih
    · intro j hj
      rw [Nat.add_right_comm, Nat.add_assoc]
      exact hset (j + 1) (by omega)
    · rwa [hnext]
    · omega
    · omega
    · omega

/-- Some half edge that is free is found. -/
theorem freeFrom_spec {neighbors : ℕ → ℕ} {last fuel i d : ℕ} (hlast : last ≤ 2 ^ 16)
    (hd : i + d < last) (hfuel : d < fuel) (hfree : neighbors (i + d) = noRank) :
    ∃ h, freeFrom neighbors last fuel i = some h ∧ i ≤ h ∧ h < last ∧ neighbors h = noRank := by
  have hexists : ∃ d, neighbors (i + d) = noRank := ⟨d, hfree⟩
  obtain ⟨first, hfirst, hset⟩ := Nat.findX hexists
  have hle : first ≤ d := by
    by_contra hgt
    exact hset d (not_le.mp hgt) hfree
  refine ⟨i + first, ?_, Nat.le_add_right _ _, by omega, hfirst⟩
  exact freeFrom_eq hset hfirst (by omega) (by omega) (by omega)

theorem HasFree.exists_findFree {rank : ℕ} (h : HasFree nbRank degree t rank)
    (hsize : nbRank * degree ≤ 2 ^ 16) :
    ∃ a, findFree degree t.neighbors rank = some a ∧ a / degree = rank ∧ a < nbRank * degree ∧
      t.neighbors a = noRank := by
  obtain ⟨hrank, i, hi, hfree⟩ := h
  have hlast : (rank + 1) * degree ≤ nbRank * degree := Nat.mul_le_mul_right degree hrank
  have hlt : rank * degree + i < (rank + 1) * degree := by
    rw [Nat.succ_mul]
    omega
  obtain ⟨a, ha, hlow, hhigh, hnone⟩ := freeFrom_spec (hlast.trans hsize) hlt
    (show i < 2 ^ 16 by omega) hfree
  refine ⟨a, ?_, Nat.div_eq_of_lt_le hlow hhigh, by omega, hnone⟩
  rw [findFree, toRank, Nat.mod_eq_of_lt (by omega)]
  exact ha

theorem insertionPoint_eq {available : ℕ} (hrank : nbRank < 2 ^ 16)
    (hsize : nbRank * degree < 2 ^ 64) (h1 : 1 ≤ available) (hle : available ≤ nbRank * degree) :
    insertionPoint nbRank degree available = some (nbRank * degree - available) := by
  have hword : toSizeT (toRank nbRank * degree - available) = nbRank * degree - available := by
    rw [toRank, Nat.mod_eq_of_lt hrank, ← toSizeT_natCast (x := nbRank * degree - available)]
    · congr 1
      push_cast [hle]
      rfl
    · omega
  rw [insertionPoint, hword]
  exact if_pos (by omega)

/-- The member `nb_rank` cannot hold `2 ^ 16`. -/
theorem insertionPoint_eq_none {available : ℕ} (hrank : ¬ nbRank < 2 ^ 16) (hdegree : 0 < degree)
    (hsize : nbRank * degree ≤ 2 ^ 16) (h1 : 1 ≤ available) (hle : available ≤ nbRank * degree) :
    insertionPoint nbRank degree available = none := by
  have hfull : nbRank = 2 ^ 16 := by
    have := Nat.le_mul_of_pos_right nbRank hdegree
    omega
  have hzero : toRank nbRank = 0 := by
    rw [hfull]
    rfl
  apply if_neg
  rw [hzero, toSizeT, Nat.cast_zero, zero_mul]
  omega

/-- A free half edge comes after those in use. -/
theorem TableOk.inUse_le (h : TableOk nbRank degree t) {a p : ℕ} (ha : a < nbRank * degree)
    (hfree : t.neighbors a = noRank) (hp : t.halfEdges p = a) : inUse nbRank degree t ≤ p := by
  by_contra hlt
  exact (h.set_iff a ha).mpr ⟨p, by omega, hp⟩ hfree

/-- The table after a call that has found the half edges `a` and `b` at positions `p` and `q`. -/
def connected (nbRank degree : ℕ) (t : HalfEdgeTable) (call : ℕ × ℕ) (a b p q : ℕ) :
    HalfEdgeTable where
  halfEdges := swapAt (swapAt t.halfEdges (inUse nbRank degree t) p) (inUse nbRank degree t + 1) q
  neighbors := Function.update (Function.update t.neighbors a call.2) b call.1
  availableHalfEdges := t.availableHalfEdges - 2

/-- Where a call finds its half edges, they go to the first two places that are not in use. -/
theorem addNeighboring_eq {a b p q : ℕ} (hrank : nbRank < 2 ^ 16) (hsize : nbRank * degree < 2 ^ 64)
    (htwo : 2 ≤ t.availableHalfEdges) (hle : t.availableHalfEdges ≤ nbRank * degree)
    (ha : findFree degree t.neighbors call.1 = some a)
    (hb : findFree degree t.neighbors call.2 = some b) (hownA : a / degree = call.1)
    (hownB : b / degree = call.2) (hltA : call.1 < nbRank) (hltB : call.2 < nbRank)
    (hp : indexFrom t.halfEdges a (2 ^ 16) a = some p)
    (hq : indexFrom t.halfEdges b (2 ^ 16) b = some q) :
    addNeighboring nbRank degree t call.1 call.2 =
      some (connected nbRank degree t call a b p q) := by
  have hprev : toSizeT (t.availableHalfEdges - 1) = t.availableHalfEdges - 1 := by
    rw [← toSizeT_natCast (x := t.availableHalfEdges - 1) (by omega)]
    congr 1
    omega
  have hprev' : toSizeT (((t.availableHalfEdges - 1 : ℕ) : ℤ) - 1) = t.availableHalfEdges - 2 := by
    rw [← toSizeT_natCast (x := t.availableHalfEdges - 2) (by omega)]
    congr 1
    omega
  have hrankA : toRank (a / degree) = call.1 := by
    rw [hownA, toRank, Nat.mod_eq_of_lt (hltA.trans hrank)]
  have hrankB : toRank (b / degree) = call.2 := by
    rw [hownB, toRank, Nat.mod_eq_of_lt (hltB.trans hrank)]
  simp only [addNeighboring, connect, ha, hb, hp, hq, Option.bind_eq_bind, Option.bind_some, hprev,
    hprev', hrankA, hrankB, Nat.div_add_mod']
  rw [insertionPoint_eq hrank hsize (by omega) hle,
    insertionPoint_eq hrank hsize (by omega) (by omega)]
  simp only [Option.bind_some, connected, inUse]
  rw [show nbRank * degree - (t.availableHalfEdges - 1) =
    nbRank * degree - t.availableHalfEdges + 1 by omega]

theorem neighbors_connected_left {a b p q : ℕ} (hne : a ≠ b) :
    (connected nbRank degree t call a b p q).neighbors a = call.2 :=
  (Function.update_of_ne hne ..).trans (Function.update_self ..)

theorem neighbors_connected_right {a b p q : ℕ} :
    (connected nbRank degree t call a b p q).neighbors b = call.1 := Function.update_self ..

theorem neighbors_connected_of_ne {a b p q k : ℕ} (ha : k ≠ a) (hb : k ≠ b) :
    (connected nbRank degree t call a b p q).neighbors k = t.neighbors k :=
  (Function.update_of_ne hb ..).trans (Function.update_of_ne ha ..)

/-- What a call of `add_neighboring` finds and does. -/
structure Called (nbRank degree : ℕ) (t : HalfEdgeTable) (call : ℕ × ℕ) (a b p q : ℕ) : Prop where
  findA : findFree degree t.neighbors call.1 = some a
  findB : findFree degree t.neighbors call.2 = some b
  ownerA : a / degree = call.1
  ownerB : b / degree = call.2
  ltA : a < nbRank * degree
  ltB : b < nbRank * degree
  ne : a ≠ b
  freeA : t.neighbors a = noRank
  freeB : t.neighbors b = noRank
  ltP : p < nbRank * degree
  ltQ : q < nbRank * degree
  indexP : indexFrom t.halfEdges a (2 ^ 16) a = some p
  indexQ : indexFrom t.halfEdges b (2 ^ 16) b = some q
  atP : t.halfEdges p = a
  atQ : t.halfEdges q = b
  leP : inUse nbRank degree t ≤ p
  leQ : inUse nbRank degree t ≤ q
  two_le : 2 ≤ t.availableHalfEdges
  result : nbRank < 2 ^ 16 → addNeighboring nbRank degree t call.1 call.2 =
    some (connected nbRank degree t call a b p q)

theorem TableOk.called (h : TableOk nbRank degree t) (hcall : Callable nbRank degree t call)
    (hsize : nbRank * degree ≤ 2 ^ 16) : ∃ a b p q, Called nbRank degree t call a b p q := by
  obtain ⟨hne, hA, hB⟩ := hcall
  obtain ⟨a, ha, hownA, haN, hfreeA⟩ := hA.exists_findFree hsize
  obtain ⟨b, hb, hownB, hbN, hfreeB⟩ := hB.exists_findFree hsize
  obtain ⟨p, hpN, hp, hpa⟩ := h.permutes.search haN hsize
  obtain ⟨q, hqN, hq, hqb⟩ := h.permutes.search hbN hsize
  have hab : a ≠ b := by
    rintro rfl
    exact hne (hownA.symm.trans hownB)
  have hpq : p ≠ q := by
    rintro rfl
    exact hab (hpa.symm.trans hqb)
  have hleP := h.inUse_le haN hfreeA hpa
  have hleQ := h.inUse_le hbN hfreeB hqb
  have hle := h.le
  unfold inUse at hleP hleQ
  have htwo : 2 ≤ t.availableHalfEdges := by omega
  exact ⟨a, b, p, q, ha, hb, hownA, hownB, haN, hbN, hab, hfreeA, hfreeB, hpN, hqN, hp, hq, hpa,
    hqb, hleP, hleQ, htwo, fun hrank =>
      addNeighboring_eq hrank (by omega) htwo hle ha hb hownA hownB hA.1 hB.1 hp hq⟩

namespace Called

variable {a b p q : ℕ} (h : Called nbRank degree t call a b p q)

include h

theorem inUse_connected (hok : TableOk nbRank degree t) :
    inUse nbRank degree (connected nbRank degree t call a b p q) = inUse nbRank degree t + 2 := by
  have htwo := h.two_le
  have hle := hok.le
  simp only [inUse, connected]
  omega

/-- The front of the table after the call, if the position of `b` is still right when it is used. -/
theorem front (hok : TableOk nbRank degree t)
    (hindex : t.halfEdges (inUse nbRank degree t) ≠ b ∨
      t.halfEdges (inUse nbRank degree t + 1) = a) :
    Permutes (nbRank * degree) (connected nbRank degree t call a b p q).halfEdges ∧
      (∀ k < inUse nbRank degree t,
        (connected nbRank degree t call a b p q).halfEdges k = t.halfEdges k) ∧
      (((connected nbRank degree t call a b p q).halfEdges (inUse nbRank degree t) = a ∧
          (connected nbRank degree t call a b p q).halfEdges (inUse nbRank degree t + 1) = b) ∨
        ((connected nbRank degree t call a b p q).halfEdges (inUse nbRank degree t) = b ∧
          (connected nbRank degree t call a b p q).halfEdges (inUse nbRank degree t + 1) = a)) := by
  have htwo := h.two_le
  have hle := hok.le
  apply front_connectHalfEdges hok.permutes h.ltA h.ltB h.ne htwo hle _ _ hindex
  · obtain ⟨p', hltP, hp, hatP⟩ := hok.permutes.search h.ltA le_rfl
    obtain rfl : p' = p := hok.permutes.inj hltP h.ltP (hatP.trans h.atP.symm)
    obtain ⟨q', hltQ, hq, hatQ⟩ := hok.permutes.search h.ltB le_rfl
    obtain rfl : q' = q := hok.permutes.inj hltQ h.ltQ (hatQ.trans h.atQ.symm)
    simp only [connectHalfEdges, hp, hq, Option.bind_some, Option.map_some, connected, inUse]
    rw [show nbRank * degree - (t.availableHalfEdges - 1) =
      nbRank * degree - t.availableHalfEdges + 1 by omega]
  · intro k hk hka
    exact absurd (hok.inUse_le h.ltA h.freeA hka) hk.not_ge
  · intro k hk hkb
    exact absurd (hok.inUse_le h.ltB h.freeB hkb) hk.not_ge

theorem ok_connected (hok : TableOk nbRank degree t) (hrank : nbRank < 2 ^ 16)
    (hcall : Callable nbRank degree t call)
    (hindex : t.halfEdges (inUse nbRank degree t) ≠ b ∨
      t.halfEdges (inUse nbRank degree t + 1) = a) :
    TableOk nbRank degree (connected nbRank degree t call a b p q) := by
  obtain ⟨hperm, hbefore, hfront⟩ := h.front hok hindex
  have hgrown := h.inUse_connected hok
  have hA : call.1 ≠ noRank := (hcall.2.1.1.trans_le (Nat.lt_succ_iff.mp hrank)).ne
  have hB : call.2 ≠ noRank := (hcall.2.2.1.trans_le (Nat.lt_succ_iff.mp hrank)).ne
  have hold : ∀ k < inUse nbRank degree t, t.halfEdges k ≠ a ∧ t.halfEdges k ≠ b := by
    intro k hk
    constructor
    · intro hka
      exact absurd (hok.inUse_le h.ltA h.freeA hka) hk.not_ge
    · intro hkb
      exact absurd (hok.inUse_le h.ltB h.freeB hkb) hk.not_ge
  have hends : ∀ k, k < inUse nbRank degree t + 2 → ¬ k < inUse nbRank degree t →
      (connected nbRank degree t call a b p q).halfEdges k = a ∨
        (connected nbRank degree t call a b p q).halfEdges k = b := by
    intro k hk hge
    obtain rfl | rfl : k = inUse nbRank degree t ∨ k = inUse nbRank degree t + 1 := by omega
    · exact hfront.imp And.left And.left
    · exact hfront.symm.imp And.right And.right
  constructor
  · exact hperm
  · exact (Nat.sub_le _ _).trans hok.le
  · rw [hgrown]
    exact hok.even.add even_two
  · intro k hk
    rw [hgrown]
    constructor
    · intro hset
      by_cases hka : k = a
      · rcases hfront with ⟨hfirst, -⟩ | ⟨-, hsecond⟩
        · exact ⟨_, by omega, hfirst.trans hka.symm⟩
        · exact ⟨_, by omega, hsecond.trans hka.symm⟩
      by_cases hkb : k = b
      · rcases hfront with ⟨-, hsecond⟩ | ⟨hfirst, -⟩
        · exact ⟨_, by omega, hsecond.trans hkb.symm⟩
        · exact ⟨_, by omega, hfirst.trans hkb.symm⟩
      rw [neighbors_connected_of_ne hka hkb] at hset
      obtain ⟨i, hi, heq⟩ := (hok.set_iff k hk).mp hset
      exact ⟨i, by omega, (hbefore i hi).trans heq⟩
    · rintro ⟨i, hi, rfl⟩
      by_cases hlt : i < inUse nbRank degree t
      · rw [hbefore i hlt] at hk ⊢
        rw [neighbors_connected_of_ne (hold i hlt).1 (hold i hlt).2]
        exact (hok.set_iff _ hk).mpr ⟨i, hlt, rfl⟩
      · rcases hends i hi hlt with heq | heq <;> rw [heq]
        · rwa [neighbors_connected_left h.ne]
        · rwa [neighbors_connected_right]
  · intro k hk
    rw [hgrown] at hk
    by_cases hlt : 2 * k + 1 < inUse nbRank degree t
    · have hprev : 2 * k < inUse nbRank degree t := by omega
      rw [hbefore _ hlt, hbefore _ hprev,
        neighbors_connected_of_ne (hold _ hprev).1 (hold _ hprev).2,
        neighbors_connected_of_ne (hold _ hlt).1 (hold _ hlt).2]
      exact hok.paired k hlt
    · obtain ⟨m, hm⟩ := hok.even
      obtain hk' : 2 * k = inUse nbRank degree t := by omega
      rw [hk']
      rcases hfront with ⟨hfirst, hsecond⟩ | ⟨hfirst, hsecond⟩
      · rw [hfirst, hsecond, neighbors_connected_left h.ne, neighbors_connected_right, h.ownerA,
          h.ownerB]
        exact ⟨rfl, rfl⟩
      · rw [hfirst, hsecond, neighbors_connected_left h.ne, neighbors_connected_right, h.ownerA,
          h.ownerB]
        exact ⟨rfl, rfl⟩

/-- If the position of `b` is wrong when it is used, `b` is set and not among the half edges in
use. -/
theorem not_ok_connected (hok : TableOk nbRank degree t) (hcall : Callable nbRank degree t call)
    (hrank : nbRank < 2 ^ 16) (hfirst : t.halfEdges (inUse nbRank degree t) = b)
    (hsecond : t.halfEdges (inUse nbRank degree t + 1) ≠ a) :
    ¬ TableOk nbRank degree (connected nbRank degree t call a b p q) := by
  intro hok'
  have hpf : p ≠ inUse nbRank degree t := by
    rintro rfl
    exact h.ne (h.atP.symm.trans hfirst)
  have hpf' : p ≠ inUse nbRank degree t + 1 := by
    rintro rfl
    exact hsecond h.atP
  have hlast : inUse nbRank degree t < nbRank * degree := h.leP.trans_lt h.ltP
  have hqf : q = inUse nbRank degree t := hok.permutes.inj h.ltQ hlast (h.atQ.trans hfirst.symm)
  have hplace : (connected nbRank degree t call a b p q).halfEdges p = b := by
    rw [hqf]
    exact (swapAt_of_ne hpf' hpf).trans ((swapAt_right ..).trans hfirst)
  have hset : (connected nbRank degree t call a b p q).neighbors b ≠ noRank := by
    rw [neighbors_connected_right]
    exact (hcall.2.1.1.trans_le (Nat.lt_succ_iff.mp hrank)).ne
  obtain ⟨i, hi, heq⟩ := (hok'.set_iff b h.ltB).mp hset
  have hlt : i < nbRank * degree := hi.trans_le (Nat.sub_le ..)
  have hip : i = p := hok'.permutes.inj hlt h.ltP (heq.trans hplace.symm)
  rw [h.inUse_connected hok] at hi
  have hleP := h.leP
  omega

end Called

/-- A call leaves the table as it should be if and only if it keeps the index of its second half
edge. -/
theorem TableOk.callOk_iff (hok : TableOk nbRank degree t) (hsize : nbRank * degree ≤ 2 ^ 16)
    (hcall : Callable nbRank degree t call) :
    CallOk nbRank degree t call ↔ IndexKept nbRank degree t call := by
  obtain ⟨a, b, p, q, h⟩ := hok.called hcall hsize
  rw [IndexKept, h.findA, h.findB]
  constructor
  · rintro ⟨t', a', b', ht', ha', hb', hconnected⟩
    have hrank : nbRank < 2 ^ 16 := by
      by_contra hrank
      obtain ⟨i, hi, -⟩ := hcall.2.1.2
      have htwo := h.two_le
      have hnone := insertionPoint_eq_none hrank (by omega) hsize (by omega) hok.le
      simp only [addNeighboring, connect, h.findA, h.findB, h.indexP, h.indexQ, hnone,
        Option.bind_eq_bind, Option.bind_some, Option.bind_none] at ht'
      cases ht'
    refine ⟨hrank, ?_⟩
    cases (h.result hrank).symm.trans ht'
    by_contra hno
    rw [not_or, not_not, Option.some.injEq, Option.some.injEq] at hno
    exact h.not_ok_connected hok hcall hrank hno.1.symm (Ne.symm hno.2) hconnected.ok
  · rintro ⟨hrank, hindex⟩
    have hindex' : t.halfEdges (inUse nbRank degree t) ≠ b ∨
        t.halfEdges (inUse nbRank degree t + 1) = a :=
      hindex.imp (fun hne heq => hne (congrArg some heq.symm))
        (fun heq => (Option.some.inj heq).symm)
    obtain ⟨-, hbefore, hfront⟩ := h.front hok hindex'
    refine ⟨_, a, b, h.result hrank, h.findA, h.findB, ?_⟩
    constructor
    · exact h.ok_connected hok hrank hcall hindex'
    · exact ⟨p, h.ltP, h.indexP, h.atP⟩
    · exact ⟨q, h.ltQ, h.indexQ, h.atQ⟩
    · exact h.inUse_connected hok
    · exact hbefore
    · exact hfront

theorem tableOk_new (hsize : nbRank * degree ≤ 2 ^ 16) :
    TableOk nbRank degree (newTable nbRank degree) := by
  have hnone : inUse nbRank degree (newTable nbRank degree) = 0 := Nat.sub_self _
  constructor
  · unfold Permutes
    conv_rhs => rw [← Multiset.map_id (Multiset.range (nbRank * degree))]
    apply Multiset.map_congr rfl
    intro k hk
    exact Nat.mod_eq_of_lt ((Multiset.mem_range.mp hk).trans_le hsize)
  · exact le_rfl
  · rw [hnone]
    exact Even.zero
  · intro h _
    rw [hnone]
    refine iff_of_false (fun hne => hne rfl) ?_
    rintro ⟨p, hp, -⟩
    exact absurd hp p.not_lt_zero
  · intro k hk
    rw [hnone] at hk
    exact absurd hk (Nat.not_lt_zero _)

/-- A `DVS_RANK_TYPE` has no number for more half edges. -/
theorem not_tableOk_new (hsize : ¬ nbRank * degree ≤ 2 ^ 16) :
    ¬ TableOk nbRank degree (newTable nbRank degree) := by
  intro h
  have heq : (newTable nbRank degree).halfEdges 0 =
      (newTable nbRank degree).halfEdges (2 ^ 16) := rfl
  have := h.permutes.inj (by omega) (by omega) heq
  omega

end Calls

open Transition.System in
theorem half_edges_paired_iff {nbRank degree : ℕ} {calls : List (ℕ × ℕ)}
    (hcalls : (halfEdgeTable nbRank degree).Along (Callable nbRank degree)
      (newTable nbRank degree) calls) :
    TableOk nbRank degree (newTable nbRank degree) ∧ (halfEdgeTable nbRank degree).Along
        (CallOk nbRank degree) (newTable nbRank degree) calls ↔
      nbRank * degree ≤ 2 ^ 16 ∧ (halfEdgeTable nbRank degree).Along
        (IndexKept nbRank degree) (newTable nbRank degree) calls := by
  by_cases hsize : nbRank * degree ≤ 2 ^ 16
  · have hnew := tableOk_new hsize
    have hiff := along_iff (I := TableOk nbRank degree)
      (fun t call hok hcall => hok.callOk_iff hsize hcall) ?_ hnew hcalls
    · exact and_congr (iff_of_true hnew hsize) hiff
    · rintro t call t' - - ⟨t'', a, b, ht'', -, -, hconnected⟩ ht'
      cases ht''.symm.trans ht'
      exact hconnected.ok
  · exact iff_of_false (fun h => not_tableOk_new hsize h.1) (fun h => hsize h.1)

theorem half_edges_unpaired : (halfEdgeTable 4 3).Along (Callable 4 3) (newTable 4 3) [(1, 0)] ∧
    ¬ (TableOk 4 3 (newTable 4 3) ∧
      (halfEdgeTable 4 3).Along (CallOk 4 3) (newTable 4 3) [(1, 0)]) := by
  constructor
  · refine ⟨⟨by decide, ⟨by decide, 0, by decide, rfl⟩, ⟨by decide, 0, by decide, rfl⟩⟩, ?_⟩
    intro s' _
    trivial
  · rintro ⟨-, ⟨t', a, b, ht', -, -, hconnected⟩, -⟩
    have hseen : (addNeighboring 4 3 (newTable 4 3) 1 0).map (fun t => (t.neighbors 0,
        (List.range (inUse 4 3 t)).map t.halfEdges)) = some (1, [1, 3]) := by decide +kernel
    rw [ht', Option.map_some, Option.some.injEq, Prod.mk.injEq] at hseen
    obtain ⟨hset, hfront⟩ := hseen
    obtain ⟨p, hp, hp0⟩ := (hconnected.ok.set_iff 0 (by decide)).mp (by rw [hset]; decide)
    have hmem := List.mem_map_of_mem (f := t'.halfEdges) (List.mem_range.mpr hp)
    rw [hfront, hp0] at hmem
    revert hmem
    decide

theorem half_edges_paired_iff_four :
    TableOk 4 3 (newTable 4 3) ∧
        (halfEdgeTable 4 3).Along (CallOk 4 3) (newTable 4 3) [(0, 1), (1, 2)] ↔
      4 * 3 ≤ 2 ^ 16 ∧
        (halfEdgeTable 4 3).Along (IndexKept 4 3) (newTable 4 3) [(0, 1), (1, 2)] := by
  apply half_edges_paired_iff
  refine ⟨⟨by decide, ⟨by decide, 0, by decide, rfl⟩, ⟨by decide, 0, by decide, rfl⟩⟩, ?_⟩
  intro t ht
  have ht : addNeighboring 4 3 (newTable 4 3) 0 1 = some t := ht
  have hseen : (addNeighboring 4 3 (newTable 4 3) 0 1).map
      (fun t => (t.neighbors 4, t.neighbors 6)) = some (noRank, noRank) := by decide +kernel
  rw [ht, Option.map_some, Option.some.injEq, Prod.mk.injEq] at hseen
  refine ⟨⟨by decide, ⟨by decide, 1, by decide, hseen.1⟩, ⟨by decide, 0, by decide, hseen.2⟩⟩, ?_⟩
  intro t' _
  trivial

end Titus.VictimSelector.Machine
