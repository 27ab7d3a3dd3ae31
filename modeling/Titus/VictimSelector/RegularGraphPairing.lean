import Titus.VictimSelector.RegularGraph

/-! The half edges of the generator of regular graphs stay numbered without repetition, and its
pairing makes a graph that has the edges added before. -/

namespace Titus.VictimSelector

open TablePermutation Rewiring

variable {nbRank degree : ℕ} {s s' : RegularGenerator}

/-! ### Pairs -/

/-- The entries `2 * k` and `2 * k + 1` of `half_edges` are half edges of the ranks `e.1` and
`e.2`. -/
def Joins (degree : ℕ) (halfEdges : ℕ → ℕ) (k : ℕ) (e : ℕ × ℕ) : Prop :=
  (halfEdges (2 * k) / degree = e.1 ∧ halfEdges (2 * k + 1) / degree = e.2) ∨
    (halfEdges (2 * k) / degree = e.2 ∧ halfEdges (2 * k + 1) / degree = e.1)

variable {halfEdges : ℕ → ℕ} {k p q : ℕ} {e : ℕ × ℕ}

theorem Joins.swapAt_of_ne (h : Joins degree halfEdges k e) (hp : p / 2 ≠ k) (hq : q / 2 ≠ k) :
    Joins degree (swapAt halfEdges p q) k e := by
  unfold Joins
  rw [TablePermutation.swapAt_of_ne (by omega) (by omega),
    TablePermutation.swapAt_of_ne (by omega) (by omega)]
  exact h

theorem Joins.swapAt_inside (h : Joins degree halfEdges k e) (hp : p / 2 = k) (hq : q / 2 = k) :
    Joins degree (swapAt halfEdges p q) k e := by
  rcases Nat.lt_trichotomy p q with hlt | rfl | hlt
  · have hp' : p = 2 * k := by omega
    have hq' : q = 2 * k + 1 := by omega
    unfold Joins
    rw [hp', hq', swapAt_left, swapAt_right]
    rcases h with ⟨h, h'⟩ | ⟨h, h'⟩
    · exact .inr ⟨h', h⟩
    · exact .inl ⟨h', h⟩
  · rw [swapAt_self]
    exact h
  · have hp' : p = 2 * k + 1 := by omega
    have hq' : q = 2 * k := by omega
    unfold Joins
    rw [hp', hq', swapAt_left, swapAt_right]
    rcases h with ⟨h, h'⟩ | ⟨h, h'⟩
    · exact .inr ⟨h', h⟩
    · exact .inl ⟨h', h⟩

/-! ### The invariant of the pairing -/

/-- What holds until `neighbors` is rebuilt. -/
structure PairingOk (nbRank degree : ℕ) (s : RegularGenerator) : Prop where
  permutes : Permutes (nbRank * degree) s.halfEdges
  even : Even s.availableHalfEdges
  used : Even (nbRank * degree - s.availableHalfEdges)
  le : s.availableHalfEdges ≤ nbRank * degree
  joined : ∀ e ∈ s.added, e.1 ≠ e.2 ∧
    ∃ k, 2 * k + 1 < nbRank * degree - s.availableHalfEdges ∧ Joins degree s.halfEdges k e

/-- The half edges in use, at the front of `half_edges`, are entered into `neighbors`. -/
def Taken (nbRank degree : ℕ) (s : RegularGenerator) : Prop :=
  ∀ p < nbRank * degree - s.availableHalfEdges, s.neighbors (s.halfEdges p) ≠ none

theorem pairingOk_new (heven : Even (nbRank * degree)) (hlt : nbRank * degree < 2 ^ 16) :
    PairingOk nbRank degree (newGenerator nbRank degree) := by
  constructor
  · unfold Permutes
    conv_rhs => rw [← Multiset.map_id (Multiset.range (nbRank * degree))]
    apply Multiset.map_congr rfl
    intro k hk
    exact Nat.mod_eq_of_lt ((Multiset.mem_range.mp hk).trans hlt)
  · exact heven
  · exact ⟨0, Nat.sub_self _⟩
  · exact le_rfl
  · nofun

theorem taken_new : Taken nbRank degree (newGenerator nbRank degree) := by
  intro p hp
  rw [show (newGenerator nbRank degree).availableHalfEdges = nbRank * degree from rfl,
    Nat.sub_self] at hp
  exact absurd hp p.not_lt_zero

/-! ### `add_neighboring` -/

theorem findFreeHalfEdge_spec {neighbors : ℕ → Option ℕ} {rank h : ℕ}
    (hfree : findFreeHalfEdge degree neighbors rank = some h) :
    h / degree = rank ∧ h < (rank + 1) * degree ∧ neighbors h = none := by
  have hmem := List.mem_of_find?_eq_some hfree
  have hnone := List.find?_some hfree
  rw [List.mem_range'_1] at hmem
  have hlt : h < (rank + 1) * degree := by
    rw [Nat.succ_mul]
    exact hmem.2
  exact ⟨Nat.div_eq_of_lt_le hmem.1 hlt, hlt, of_decide_eq_true hnone⟩

/-- The first free half edge of rank `rankB` is not where the swap for rank `rankA` takes it from
its place, or that swap does no harm. -/
def KeepsIndex (nbRank degree : ℕ) (s : RegularGenerator) (rankA rankB : ℕ) : Prop :=
  findFreeHalfEdge degree s.neighbors rankB ≠
      some (s.halfEdges (nbRank * degree - s.availableHalfEdges)) ∨
    findFreeHalfEdge degree s.neighbors rankA =
      some (s.halfEdges (nbRank * degree - s.availableHalfEdges + 1))

/-- The ends of the new edge come after those in use, in one order or the other. -/
theorem front_connectHalfEdges {available a b : ℕ} {halfEdges' : ℕ → ℕ}
    (hperm : Permutes (nbRank * degree) halfEdges) (ha : a < nbRank * degree)
    (hb : b < nbRank * degree) (hab : a ≠ b)
    (htwo : 2 ≤ available) (hle : available ≤ nbRank * degree)
    (hfreeA : ∀ p < nbRank * degree - available, halfEdges p ≠ a)
    (hfreeB : ∀ p < nbRank * degree - available, halfEdges p ≠ b)
    (hindex : halfEdges (nbRank * degree - available) ≠ b ∨
      halfEdges (nbRank * degree - available + 1) = a)
    (h : connectHalfEdges nbRank degree halfEdges available a b = some halfEdges') :
    Permutes (nbRank * degree) halfEdges' ∧
      (∀ p < nbRank * degree - available, halfEdges' p = halfEdges p) ∧
      ((halfEdges' (nbRank * degree - available) = a ∧
          halfEdges' (nbRank * degree - available + 1) = b) ∨
        (halfEdges' (nbRank * degree - available) = b ∧
          halfEdges' (nbRank * degree - available + 1) = a)) := by
  unfold connectHalfEdges at h
  obtain ⟨p, hp, hmap⟩ := Option.bind_eq_some_iff.mp h
  obtain ⟨q, hq, rfl⟩ := Option.map_eq_some_iff.mp hmap
  clear h hmap
  obtain ⟨hp, hpa⟩ := indexFrom_spec hperm ha hp
  obtain ⟨hq, hqb⟩ := indexFrom_spec hperm hb hq
  have hpf : nbRank * degree - available ≤ p := by
    by_contra hlt
    exact hfreeA p (by omega) hpa
  have hqf : nbRank * degree - available ≤ q := by
    by_contra hlt
    exact hfreeB q (by omega) hqb
  have hpq : p ≠ q := by
    rintro rfl
    exact hab (hpa.symm.trans hqb)
  rw [show nbRank * degree - (available - 1) = nbRank * degree - available + 1 by omega]
  generalize hf : nbRank * degree - available = f at *
  have hf1 : f + 1 < nbRank * degree := by omega
  refine ⟨(hperm.swapAt (by omega) hp).swapAt hf1 hq, ?_, ?_⟩
  · intro k hk
    rw [swapAt_of_ne (by omega) (by omega), swapAt_of_ne (by omega) (by omega)]
  · by_cases hqf' : q = f
    · -- the stale index, where the entry after it is the other end
      rw [hqf'] at hqb ⊢
      have hpf1 := hindex.resolve_left (fun hne => hne hqb)
      have hp1 : p = f + 1 := hperm.inj hp hf1 (hpa.trans hpf1.symm)
      rw [hp1]
      refine .inr ⟨?_, ?_⟩
      · rw [swapAt_right, swapAt_right]
        exact hqb
      · rw [swapAt_left, swapAt_left]
        exact hpf1
    · refine .inl ⟨?_, ?_⟩
      · rw [swapAt_of_ne (by omega) (Ne.symm hqf'), swapAt_left]
        exact hpa
      · rw [swapAt_left, swapAt_of_ne hqf' hpq.symm]
        exact hqb

theorem Joins.congr {halfEdges' : ℕ → ℕ} (h : Joins degree halfEdges k e)
    (heven : halfEdges' (2 * k) = halfEdges (2 * k))
    (hodd : halfEdges' (2 * k + 1) = halfEdges (2 * k + 1)) : Joins degree halfEdges' k e := by
  unfold Joins
  rw [heven, hodd]
  exact h

theorem PairingOk.addNeighboring (h : PairingOk nbRank degree s) (htaken : Taken nbRank degree s)
    {rankA rankB : ℕ} (hA : rankA < nbRank) (hB : rankB < nbRank) (hAB : rankA ≠ rankB)
    (hkeeps : KeepsIndex nbRank degree s rankA rankB)
    (hs : addNeighboring nbRank degree s rankA rankB = some s') :
    PairingOk nbRank degree s' ∧ Taken nbRank degree s' := by
  unfold VictimSelector.addNeighboring at hs
  obtain ⟨a, ha, hrest⟩ := Option.bind_eq_some_iff.mp hs
  obtain ⟨b, hb, hrest⟩ := Option.bind_eq_some_iff.mp hrest
  obtain ⟨halfEdges', hconnect, rfl⟩ := Option.map_eq_some_iff.mp hrest
  unfold KeepsIndex at hkeeps
  rw [ha, hb] at hkeeps
  obtain ⟨hra, hlta, hna⟩ := findFreeHalfEdge_spec ha
  obtain ⟨hrb, hltb, hnb⟩ := findFreeHalfEdge_spec hb
  have haN : a < nbRank * degree := hlta.trans_le (Nat.mul_le_mul_right degree hA)
  have hbN : b < nbRank * degree := hltb.trans_le (Nat.mul_le_mul_right degree hB)
  have hab : a ≠ b := by
    rintro rfl
    exact hAB (hra.symm.trans hrb)
  have hfreeA : ∀ p < nbRank * degree - s.availableHalfEdges, s.halfEdges p ≠ a := by
    rintro p hp rfl
    exact htaken p hp hna
  have hfreeB : ∀ p < nbRank * degree - s.availableHalfEdges, s.halfEdges p ≠ b := by
    rintro p hp rfl
    exact htaken p hp hnb
  have htwo : 2 ≤ s.availableHalfEdges := by
    obtain ⟨p, hp, hpa⟩ := h.permutes.exists_eq haN
    have hpf : nbRank * degree - s.availableHalfEdges ≤ p := by
      by_contra hlt
      exact hfreeA p (by omega) hpa
    have hle := h.le
    obtain ⟨m, hm⟩ := h.even
    omega
  obtain ⟨hperm, hbefore, hfront⟩ := front_connectHalfEdges h.permutes haN hbN hab htwo h.le
    hfreeA hfreeB (hkeeps.imp (fun hne heq => hne (congrArg some heq.symm))
      (fun heq => (Option.some.inj heq).symm)) hconnect
  have hle := h.le
  have hused : nbRank * degree - (s.availableHalfEdges - 2) =
      nbRank * degree - s.availableHalfEdges + 2 := by omega
  refine ⟨⟨hperm, h.even.tsub even_two, ?_, (Nat.sub_le _ _).trans h.le, ?_⟩, ?_⟩
  · rw [hused]
    exact h.used.add even_two
  · intro e he
    rw [hused]
    rcases List.mem_cons.mp he with rfl | he
    · obtain ⟨k, hk⟩ := h.used
      rw [← two_mul] at hk
      rw [hk] at hfront ⊢
      refine ⟨hAB, k, by omega, ?_⟩
      change Joins degree halfEdges' k (rankA, rankB)
      unfold Joins
      rcases hfront with ⟨heq, heq'⟩ | ⟨heq, heq'⟩ <;> rw [heq, heq', hra, hrb]
      · exact .inl ⟨rfl, rfl⟩
      · exact .inr ⟨rfl, rfl⟩
    · obtain ⟨hne, k, hk, hjoins⟩ := h.joined e he
      exact ⟨hne, k, by omega, hjoins.congr (hbefore _ (by omega)) (hbefore _ hk)⟩
  · intro p hp
    rw [hused] at hp
    change Function.update (Function.update s.neighbors a _) b _ (halfEdges' p) ≠ none
    by_cases hpb : halfEdges' p = b
    · rw [hpb, Function.update_self]
      nofun
    · rw [Function.update_of_ne hpb]
      by_cases hpa : halfEdges' p = a
      · rw [hpa, Function.update_self]
        nofun
      · rw [Function.update_of_ne hpa]
        have hpf : p < nbRank * degree - s.availableHalfEdges := by
          by_contra hge
          have hcases : p = nbRank * degree - s.availableHalfEdges ∨
              p = nbRank * degree - s.availableHalfEdges + 1 := by omega
          rcases hcases with rfl | rfl <;> rcases hfront with ⟨heq, heq'⟩ | ⟨heq, heq'⟩
          · exact hpa heq
          · exact hpb heq
          · exact hpb heq'
          · exact hpa heq'
        rw [hbefore p hpf]
        exact htaken p hpf

/-! ### Shuffling and pairing -/

/-- The swap of the entries `i` and `target` of `half_edges` leaves the pairs in use together. -/
def KeepsPairs (nbRank degree : ℕ) (s : RegularGenerator) (i target : ℕ) : Prop :=
  i / 2 = target / 2 ∨
    (nbRank * degree - s.availableHalfEdges ≤ i ∧ nbRank * degree - s.availableHalfEdges ≤ target)

theorem PairingOk.swapAt (h : PairingOk nbRank degree s) (hp : p < nbRank * degree)
    (hq : q < nbRank * degree) (hkeeps : KeepsPairs nbRank degree s p q)
    (hs : s'.halfEdges = swapAt s.halfEdges p q)
    (havailable : s'.availableHalfEdges = s.availableHalfEdges) (hadded : s'.added = s.added) :
    PairingOk nbRank degree s' := by
  constructor
  · rw [hs]
    exact h.permutes.swapAt hp hq
  · rw [havailable]
    exact h.even
  · rw [havailable]
    exact h.used
  · rw [havailable]
    exact h.le
  · rw [havailable, hadded, hs]
    intro e he
    obtain ⟨hne, k, hk, hjoins⟩ := h.joined e he
    refine ⟨hne, k, hk, ?_⟩
    obtain ⟨m, hm⟩ := h.used
    rcases hkeeps with heq | ⟨hp', hq'⟩
    · by_cases hpk : p / 2 = k
      · exact hjoins.swapAt_inside hpk (heq.symm.trans hpk)
      · exact hjoins.swapAt_of_ne hpk (heq ▸ hpk)
    · exact hjoins.swapAt_of_ne (by omega) (by omega)

theorem PairingOk.addRandomNeighbor (h : PairingOk nbRank degree s)
    (havailable : 1 < s.availableHalfEdges) (drawn : ℕ) :
    PairingOk nbRank degree (addRandomNeighbor nbRank degree s drawn) := by
  have hle := h.le
  have hdrawn : drawn % (s.availableHalfEdges - 1) < s.availableHalfEdges - 1 :=
    Nat.mod_lt _ (by omega)
  have hswap : PairingOk nbRank degree { s with
      halfEdges := TablePermutation.swapAt s.halfEdges (nbRank * degree - s.availableHalfEdges + 1)
        (nbRank * degree - s.availableHalfEdges + drawn % (s.availableHalfEdges - 1) + 1) } :=
    h.swapAt (by omega) (by omega) (.inr ⟨by omega, by omega⟩) rfl rfl rfl
  have hused : nbRank * degree - (s.availableHalfEdges - 2) =
      nbRank * degree - s.availableHalfEdges + 2 := by omega
  constructor
  · exact hswap.permutes
  · exact h.even.tsub even_two
  · change Even (nbRank * degree - (s.availableHalfEdges - 2))
    rw [hused]
    exact h.used.add even_two
  · exact (Nat.sub_le _ _).trans hle
  · intro e he
    obtain ⟨hne, k, hk, hjoins⟩ := hswap.joined e he
    change 2 * k + 1 < nbRank * degree - s.availableHalfEdges at hk
    refine ⟨hne, k, ?_, hjoins⟩
    change 2 * k + 1 < nbRank * degree - (s.availableHalfEdges - 2)
    omega

/-! ### Rebuilding -/

theorem paired_rebuildFrom (neighbors : ℕ → Option ℕ) {count : ℕ}
    (hperm : Permutes (nbRank * degree) halfEdges) (hcount : 2 * count ≤ nbRank * degree) :
    Paired count halfEdges (ownerOf degree) (rebuildFrom degree halfEdges neighbors count) := by
  induction count with
  | zero =>
    constructor
    · nofun
    · nofun
  | succ count ih =>
    have ih := ih (by omega)
    have hne : ∀ k < 2 * count, halfEdges k ≠ halfEdges (2 * count) ∧
        halfEdges k ≠ halfEdges (2 * count + 1) := by
      intro k hk
      constructor
      · intro heq
        exact absurd (hperm.inj (by omega) (by omega) heq) (by omega)
      · intro heq
        exact absurd (hperm.inj (by omega) (by omega) heq) (by omega)
    have hlast : halfEdges (2 * count) ≠ halfEdges (2 * count + 1) := by
      intro heq
      exact absurd (hperm.inj (by omega) (by omega) heq) (by omega)
    unfold rebuildFrom
    constructor
    · intro k hk
      rcases Nat.lt_succ_iff_lt_or_eq.mp hk with hk | rfl
      · have hold := hne (2 * k) (by omega)
        rw [Function.update_of_ne hold.2, Function.update_of_ne hold.1]
        exact ih.even k hk
      · rw [Function.update_of_ne hlast, Function.update_self]
        rfl
    · intro k hk
      rcases Nat.lt_succ_iff_lt_or_eq.mp hk with hk | rfl
      · have hold := hne (2 * k + 1) (by omega)
        rw [Function.update_of_ne hold.2, Function.update_of_ne hold.1]
        exact ih.odd k hk
      · rw [Function.update_self]
        rfl

theorem PairingOk.rebuild (h : PairingOk nbRank degree s) (hnone : s.availableHalfEdges = 0) :
    Balanced (ends (nbRank * degree) (ownerOf degree) (rebuildNeighbors nbRank degree s)) ∧
      ∀ e ∈ s.added, e.1 ≠ e.2 ∧ (some e.1, some e.2) ∈
        ends (nbRank * degree) (ownerOf degree) (rebuildNeighbors nbRank degree s) := by
  obtain ⟨m, hm⟩ := h.used
  rw [hnone, Nat.sub_zero, ← two_mul] at hm
  unfold rebuildNeighbors
  rw [hnone, Nat.sub_zero, show nbRank * degree / 2 = m by omega]
  have hperm := h.permutes
  have hpaired := paired_rebuildFrom s.neighbors hperm hm.ge
  constructor
  · rw [hm]
    rw [hm] at hperm
    exact balanced_ends_of_paired hperm hpaired
  · intro e he
    obtain ⟨hne, k, hk, hjoins⟩ := h.joined e he
    rw [hnone, Nat.sub_zero] at hk
    refine ⟨hne, mem_ends.mpr ?_⟩
    rcases hjoins with ⟨heq, heq'⟩ | ⟨heq, heq'⟩
    · refine ⟨s.halfEdges (2 * k), hperm.lt (by omega), congrArg some heq, ?_⟩
      rw [hpaired.even k (by omega)]
      exact congrArg some heq'
    · refine ⟨s.halfEdges (2 * k + 1), hperm.lt hk, congrArg some heq', ?_⟩
      rw [hpaired.odd k (by omega)]
      exact congrArg some heq

end Titus.VictimSelector
