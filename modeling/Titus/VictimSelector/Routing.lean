import Titus.Lib.Descent
import Titus.VictimSelector.Kleinberg

/-! Greedy routing over the small-world graph.  Whatever links were drawn, the ring links are in the
graph, and `get_closest_neighbor` returns a neighbor of least ring distance to the destination, so
every hop comes strictly closer. -/

namespace Titus.VictimSelector

open RingMetric

/-- `DVS_Context_impl_small_world::select_next_hop_to` on rank `rank`, where `endValue rank dest` is
what `*lower_bound` reads at the end position. -/
def selectNextHopTo (nbRank : ℕ) (endValue : ℕ → ℕ → ℕ) (neighbors : Neighbors) (rank dest : ℕ) :
    Option ℕ :=
  getClosestNeighbor nbRank (endValue rank dest) neighbors rank dest

/-- The key under which `try_flush_buffer_elts_packed` on rank `rank` files an element of `owner`,
which is the rank it pushes the element to; an element filed under `rank` itself is submitted. -/
def transitKey (selectNextHopTo : ℕ → Option ℕ) (rank owner : ℕ) : Option ℕ :=
  if owner ≠ rank then selectNextHopTo owner else some owner

/-- The ranks that an element for `dest` visits from `src` on, for at most `hops` hops. -/
def route (nbRank : ℕ) (endValue : ℕ → ℕ → ℕ) (neighbors : Neighbors) (hops src dest : ℕ) :
    List ℕ :=
  Descent.walk (fun rank => selectNextHopTo nbRank endValue neighbors rank dest) dest hops src

/-- The ring links are in the graph and every neighbor is a rank. -/
structure Ringed (nbRank : ℕ) (neighbors : Neighbors) : Prop where
  forward_mem : ∀ a < nbRank, forward nbRank a 1 ∈ neighbors a
  backward_mem : ∀ a < nbRank, backward nbRank a 1 ∈ neighbors a
  lt : ∀ a, ∀ b ∈ neighbors a, b < nbRank

/-! ### The links that construction keeps -/

section Construction

variable {nbRank : ℕ} {neighbors : Neighbors}

theorem mem_insertAt {a b c x : ℕ} :
    x ∈ neighbors.insertAt a b c ↔ c = a ∧ x = b ∨ x ∈ neighbors c := by
  unfold Neighbors.insertAt
  by_cases h : c = a
  · subst h
    simp
  · simp [h]

theorem Ringed.insertAt (h : Ringed nbRank neighbors) {a b : ℕ} (hb : b < nbRank) :
    Ringed nbRank (neighbors.insertAt a b) where
  forward_mem c hc := mem_insertAt.mpr (.inr (h.forward_mem c hc))
  backward_mem c hc := mem_insertAt.mpr (.inr (h.backward_mem c hc))
  lt c x hx := by
    rcases mem_insertAt.mp hx with ⟨_, rfl⟩ | hx
    · exact hb
    · exact h.lt c x hx

theorem Ringed.addRandomNeighborsOf {degree a : ℕ} (ha : a < nbRank) {draws rest : List Draw}
    {i : ℕ} {neighbors' : Neighbors} (h : Ringed nbRank neighbors)
    (hadd : addRandomNeighborsOf nbRank degree a draws i neighbors = some (rest, neighbors')) :
    Ringed nbRank neighbors' := by
  induction draws generalizing i neighbors with
  | nil =>
    unfold VictimSelector.addRandomNeighborsOf at hadd
    split at hadd
    · cases hadd
    · cases hadd
      exact h
  | cons d draws ih =>
    unfold VictimSelector.addRandomNeighborsOf at hadd
    split at hadd
    · have hb := randomNeighbor_lt (show 0 < nbRank by omega) a d
      exact ih ((h.insertAt hb).insertAt ha) hadd
    · cases hadd
      exact h

theorem Ringed.addRandomNeighborsFrom {degree : ℕ} {as : List ℕ} (has : ∀ a ∈ as, a < nbRank)
    {draws : List Draw} {neighbors' : Neighbors} (h : Ringed nbRank neighbors)
    (hadd : addRandomNeighborsFrom nbRank degree as draws neighbors = some neighbors') :
    Ringed nbRank neighbors' := by
  induction as generalizing draws neighbors with
  | nil =>
    cases hadd
    exact h
  | cons a as ih =>
    unfold VictimSelector.addRandomNeighborsFrom at hadd
    split at hadd
    · cases hadd
    · rename_i rest next hstep
      exact ih (fun b hb => has b (by simp [hb])) (h.addRandomNeighborsOf (has a (by simp)) hstep)
        hadd

/-- With a reach of 1, rank `i` is linked with `i + 1` on the ring, both ways. -/
theorem mem_addLocalNeighborsOf_one {i c x : ℕ} :
    x ∈ addLocalNeighborsOf nbRank i 1 1 neighbors c ↔
      c = (i + 1) % nbRank ∧ x = i ∨ c = i ∧ x = (i + 1) % nbRank ∨ x ∈ neighbors c := by
  simp [addLocalNeighborsOf, mem_insertAt]

theorem mem_foldl_addLocalNeighborsOf {is : List ℕ} {c x : ℕ} :
    x ∈ is.foldl (fun g i => addLocalNeighborsOf nbRank i 1 1 g) neighbors c ↔
      (∃ i ∈ is, c = (i + 1) % nbRank ∧ x = i ∨ c = i ∧ x = (i + 1) % nbRank) ∨
        x ∈ neighbors c := by
  induction is generalizing neighbors with
  | nil => simp
  | cons j is ih =>
    rw [List.foldl_cons, ih, mem_addLocalNeighborsOf_one]
    simp only [List.mem_cons, exists_eq_or_imp]
    constructor
    · rintro (h | h)
      · exact .inl (.inr h)
      · grind
    · grind

theorem mem_addLocalNeighbors {c x : ℕ} :
    x ∈ addLocalNeighbors nbRank 1 (fun _ => ∅) c ↔
      ∃ i < nbRank, c = (i + 1) % nbRank ∧ x = i ∨ c = i ∧ x = (i + 1) % nbRank := by
  rw [addLocalNeighbors, mem_foldl_addLocalNeighborsOf]
  simp

theorem forward_backward {a : ℕ} (hn : 2 ≤ nbRank) (ha : a < nbRank) :
    (backward nbRank a 1 + 1) % nbRank = a := by
  rcases backward_cases ha Nat.one_pos (by omega) with ⟨h, hb⟩ | ⟨h, hb⟩
  · rw [hb, show a - 1 + 1 = a by omega, Nat.mod_eq_of_lt ha]
  · rw [hb, show a + nbRank - 1 + 1 = a + nbRank by omega, Nat.add_mod_right,
      Nat.mod_eq_of_lt ha]

theorem ringed_addLocalNeighbors (hn : 2 ≤ nbRank) :
    Ringed nbRank (addLocalNeighbors nbRank 1 fun _ => ∅) where
  forward_mem a ha := mem_addLocalNeighbors.mpr ⟨a, ha, .inr ⟨rfl, rfl⟩⟩
  backward_mem a ha := mem_addLocalNeighbors.mpr
    ⟨backward nbRank a 1, backward_lt (by omega) a 1, .inl ⟨(forward_backward hn ha).symm, rfl⟩⟩
  lt a x hx := by
    obtain ⟨i, hi, ⟨_, rfl⟩ | ⟨_, rfl⟩⟩ := mem_addLocalNeighbors.mp hx
    · exact hi
    · exact Nat.mod_lt _ (by omega)

/-- Whatever was drawn, the constructed graph has the ring links. -/
theorem ringed_construct {degree : ℕ} {draws : List Draw} (hn : 2 ≤ nbRank)
    (h : d1KleinbergNeighboringGenerator nbRank degree 1 draws = some neighbors) :
    Ringed nbRank neighbors :=
  (ringed_addLocalNeighbors hn).addRandomNeighborsFrom (fun a ha => by simpa using ha) h

end Construction

/-! ### The closest neighbor -/

section Closest

variable {nbRank : ℕ} {neighbors : Neighbors} {src dest : ℕ}

/-- Of the least and greatest members and the members around `dest`, one is closest to `dest`. -/
theorem exists_candidate_le {s : Finset ℕ} {lowest highest upper lower : ℕ} (hdest : dest < nbRank)
    (hlt : ∀ x ∈ s, x < nbRank) (hlow : OrderedSet.first s = some lowest)
    (hhigh : OrderedSet.last s = some highest)
    (habove : ∀ x ∈ s, dest ≤ x → dest ≤ upper ∧ upper ≤ x)
    (hbelow : ∀ x ∈ s, x < dest → lower ≤ dest ∧ x ≤ lower) {x : ℕ} (hx : x ∈ s) :
    min (min (dist nbRank dest upper) (dist nbRank dest lower))
      (min (dist nbRank dest lowest) (dist nbRank dest highest)) ≤ dist nbRank dest x := by
  have hlowest := (OrderedSet.first_eq_some.mp hlow).2 x hx
  obtain ⟨hmem, hle⟩ := OrderedSet.last_eq_some.mp hhigh
  rcases Nat.lt_or_ge x dest with h | h
  · obtain ⟨h1, h2⟩ := hbelow x hx h
    have := min_dist_le_below h1 hdest hlowest h2
    omega
  · obtain ⟨h1, h2⟩ := habove x hx h
    have := min_dist_le_above h1 h2 (hle x hx) (hlt _ hmem)
    omega

theorem getDistance_closestMatch (upper lower lowest highest : ℕ) :
    getDistance nbRank dest (closestMatch nbRank dest upper lower lowest highest) =
      min (min (getDistance nbRank dest upper) (getDistance nbRank dest lower))
        (min (getDistance nbRank dest lowest) (getDistance nbRank dest highest)) := by
  simp only [closestMatch]
  split_ifs with h1 h2 h3 h4
  · exact h1.symm
  · exact h2.symm
  · exact h3.symm
  · exact h4.symm
  · omega

theorem closestMatch_mem {s : Finset ℕ} {upper lower lowest highest : ℕ} (h1 : upper ∈ s)
    (h2 : lower ∈ s) (h3 : lowest ∈ s) (h4 : highest ∈ s) :
    closestMatch nbRank dest upper lower lowest highest ∈ s := by
  simp only [closestMatch]
  split_ifs
  · exact h1
  · exact h2
  · exact h3
  · exact h4
  · omega

/-- `get_closest_neighbor` returns a neighbor of least distance to `dest`. -/
theorem getClosestNeighbor_spec {endValue : ℕ} (hn : nbRank < 2 ^ 16) (hdest : dest < nbRank)
    (hlt : ∀ x ∈ neighbors src, x < nbRank) (hne : (neighbors src).Nonempty)
    (hend : endValue ≠ dest) :
    ∃ hop ∈ neighbors src, getClosestNeighbor nbRank endValue neighbors src dest = some hop ∧
      ∀ x ∈ neighbors src, dist nbRank dest hop ≤ dist nbRank dest x := by
  obtain ⟨lowest, hlow⟩ := OrderedSet.exists_first hne
  obtain ⟨highest, hhigh⟩ := OrderedSet.exists_last hne
  obtain ⟨hlowMem, hlowLe⟩ := OrderedSet.first_eq_some.mp hlow
  obtain ⟨hhighMem, hhighLe⟩ := OrderedSet.last_eq_some.mp hhigh
  -- whichever two neighbors are found around `dest`, the best of the four is a closest neighbor
  have finish : ∀ upper ∈ neighbors src, ∀ lower ∈ neighbors src,
      (∀ x ∈ neighbors src, dest ≤ x → dest ≤ upper ∧ upper ≤ x) →
      (∀ x ∈ neighbors src, x < dest → lower ≤ dest ∧ x ≤ lower) →
      closestMatch nbRank dest upper lower lowest highest ∈ neighbors src ∧
      ∀ x ∈ neighbors src, dist nbRank dest (closestMatch nbRank dest upper lower lowest highest) ≤
        dist nbRank dest x := by
    intro upper hupper lower hlower habove hbelow
    have hmem : closestMatch nbRank dest upper lower lowest highest ∈ neighbors src :=
      closestMatch_mem hupper hlower hlowMem hhighMem
    have hdist : ∀ x ∈ neighbors src, getDistance nbRank dest x = dist nbRank dest x :=
      fun x hx => getDistance_eq hn hdest (hlt x hx)
    refine ⟨hmem, fun x hx => ?_⟩
    rw [← hdist _ hmem, getDistance_closestMatch, hdist upper hupper, hdist lower hlower,
      hdist lowest hlowMem, hdist highest hhighMem]
    exact exists_candidate_le hdest hlt hlow hhigh habove hbelow hx
  unfold getClosestNeighbor
  cases hit : OrderedSet.lowerBound (neighbors src) dest with
  | none =>
    have hall := OrderedSet.lowerBound_eq_none.mp hit
    obtain ⟨hmem, hmin⟩ := finish highest hhighMem highest hhighMem
      (fun x hx h => absurd (hall x hx) (by omega))
      (fun x hx _ => ⟨(hall _ hhighMem).le, hhighLe x hx⟩)
    exact ⟨_, hmem, by simp [hend, hlow, hhigh], hmin⟩
  | some upper =>
    obtain ⟨hupper, hge, hleast⟩ := OrderedSet.lowerBound_eq_some.mp hit
    by_cases heq : upper = dest
    · subst heq
      exact ⟨upper, hupper, by simp, fun x _ => by simp⟩
    by_cases hfirst : upper = lowest
    · subst hfirst
      obtain ⟨hmem, hmin⟩ := finish upper hupper upper hupper
        (fun x hx h => ⟨hge, hleast x hx h⟩)
        (fun x hx h => absurd (hlowLe x hx) (by omega))
      exact ⟨_, hmem, by simp [heq, hlow, hhigh], hmin⟩
    · obtain ⟨lower, hlower⟩ := OrderedSet.exists_before hlowMem
        (lt_of_le_of_ne (hlowLe upper hupper) (Ne.symm hfirst))
      obtain ⟨hlowerMem, hbelow, hgreatest⟩ := OrderedSet.before_eq_some.mp hlower
      have hlowerDest : lower ≤ dest := by
        by_contra hc
        have := hleast lower hlowerMem (by omega)
        omega
      obtain ⟨hmem, hmin⟩ := finish upper hupper lower hlowerMem
        (fun x hx h => ⟨hge, hleast x hx h⟩)
        (fun x hx h => ⟨hlowerDest, hgreatest x hx (by omega)⟩)
      exact ⟨_, hmem, by simp [heq, hfirst, hlow, hhigh, hlower], hmin⟩

end Closest

section Greedy

variable {nbRank : ℕ} {neighbors : Neighbors} {endValue : ℕ → ℕ → ℕ} {src dest : ℕ}

/-- One hop leads to another rank that is strictly closer to the destination. -/
theorem Ringed.hop_closer (h : Ringed nbRank neighbors) (h2 : 2 ≤ nbRank) (hn : nbRank < 2 ^ 16)
    (hend : endValue src dest ≠ dest) (hs : src < nbRank) (hd : dest < nbRank) (hne : src ≠ dest) :
    ∃ hop, selectNextHopTo nbRank endValue neighbors src dest = some hop ∧ hop < nbRank ∧
      dist nbRank hop dest < dist nbRank src dest := by
  obtain ⟨hop, hmem, heq, hmin⟩ :=
    getClosestNeighbor_spec hn hd (h.lt src) ⟨_, h.forward_mem src hs⟩ hend
  refine ⟨hop, heq, h.lt src hop hmem, ?_⟩
  -- one of the two ring links already comes closer, and the hop is at least as good
  rw [RingMetric.dist_comm nbRank hop]
  rcases exists_closer_step h2 hs hd hne with hlt | hlt <;> rw [RingMetric.dist_comm] at hlt
  · exact (hmin _ (h.forward_mem src hs)).trans_lt hlt
  · exact (hmin _ (h.backward_mem src hs)).trans_lt hlt

/-- The ring distance to the destination is a measure that every hop lowers. -/
theorem Ringed.lowers (h : Ringed nbRank neighbors) (h2 : 2 ≤ nbRank) (hn : nbRank < 2 ^ 16)
    (hend : ∀ rank, endValue rank dest ≠ dest) (hd : dest < nbRank) :
    Descent.Lowers (fun rank => selectNextHopTo nbRank endValue neighbors rank dest) dest
      (· < nbRank) fun rank => dist nbRank rank dest :=
  fun rank hr hne => h.hop_closer h2 hn (hend rank) hr hd hne

theorem Ringed.transitKey_eq_self_iff (h : Ringed nbRank neighbors) (h2 : 2 ≤ nbRank)
    (hn : nbRank < 2 ^ 16) {rank owner : ℕ} (hend : endValue rank owner ≠ owner)
    (hr : rank < nbRank) (ho : owner < nbRank) :
    transitKey (selectNextHopTo nbRank endValue neighbors rank) rank owner = some rank ↔
      owner = rank := by
  unfold transitKey
  split
  · rename_i hne
    obtain ⟨hop, heq, -, hlt⟩ := h.hop_closer h2 hn hend hr ho (Ne.symm hne)
    rw [heq, Option.some_inj]
    constructor
    · rintro rfl
      exact absurd hlt (lt_irrefl _)
    · exact fun h => absurd h hne
  · rename_i heq
    simp [not_not.mp heq]

end Greedy

/-- Greedy routing over any constructed small-world graph: the next hop is another rank strictly
closer to the destination; the ranks visited are distinct, the last one is the destination, and
`nbRank / 2` hops suffice; an element is filed as addressed to a rank exactly on its owner. -/
theorem small_world_routing_reaches_owner {nbRank degree : ℕ} {draws : List Draw}
    {neighbors : Neighbors} {endValue : ℕ → ℕ → ℕ} (h8 : 8 ≤ nbRank) (hn : nbRank < 2 ^ 16)
    (hbuild : d1KleinbergNeighboringGenerator nbRank degree 1 draws = some neighbors)
    (hend : ∀ rank dest, endValue rank dest ≠ dest) :
    (∀ src < nbRank, ∀ dest < nbRank, src ≠ dest →
      (∃ hop, selectNextHopTo nbRank endValue neighbors src dest = some hop ∧ hop < nbRank ∧
        hop ≠ src ∧ getDistance nbRank hop dest < getDistance nbRank src dest) ∧
      (route nbRank endValue neighbors (nbRank / 2) src dest).Nodup ∧
      (route nbRank endValue neighbors (nbRank / 2) src dest).getLast? = some dest ∧
      (route nbRank endValue neighbors (nbRank / 2) src dest).length ≤ nbRank / 2 + 1) ∧
    ∀ rank < nbRank, ∀ owner < nbRank,
      transitKey (selectNextHopTo nbRank endValue neighbors rank) rank owner = some rank ↔
        owner = rank := by
  have hring := ringed_construct (by omega) hbuild
  constructor
  · intro src hs dest hd hne
    have hlow := hring.lowers (by omega) hn (fun rank => hend rank dest) hd
    have hlast := Descent.getLast_walk hlow (fun rank hr h0 => (dist_eq_zero hr hd).mp h0) hs
      (dist_le_half nbRank src dest)
    obtain ⟨hop, heq, hlt, hcloser⟩ := hring.hop_closer (by omega) hn (hend src dest) hs hd hne
    refine ⟨⟨hop, heq, hlt, ?_, ?_⟩, Descent.nodup_walk hlow hs _, ?_,
      Descent.length_walk_le _ _⟩
    · rintro rfl
      exact lt_irrefl _ hcloser
    · rwa [getDistance_eq hn hlt hd, getDistance_eq hn hs hd]
    · rw [route, List.getLast?_eq_getLast_of_ne_nil (Descent.walk_ne_nil _ _), hlast]
  · exact fun rank hr owner ho => hring.transitKey_eq_self_iff (by omega) hn (hend rank owner) hr ho

/-- Eight ranks, each linked with the rank two further on, and the hop from rank 0 to rank 5. -/
theorem small_world_routing_reaches_owner_eight :
    ∃ neighbors, d1KleinbergNeighboringGenerator 8 1 1 (List.replicate 8 ⟨2, true⟩) =
        some neighbors ∧
      ∃ hop, selectNextHopTo 8 (fun _ dest => dest + 1) neighbors 0 5 = some hop ∧ hop < 8 ∧
        hop ≠ 0 ∧ getDistance 8 hop 5 < getDistance 8 0 5 := by
  have h : (d1KleinbergNeighboringGenerator 8 1 1 (List.replicate 8 ⟨2, true⟩)).isSome := by
    decide +kernel
  exact ⟨_, (Option.some_get h).symm, ((small_world_routing_reaches_owner (by decide) (by decide)
    (Option.some_get h).symm fun _ dest => Nat.succ_ne_self dest).1 0 (by decide) 5 (by decide)
    (by decide)).1⟩

end Titus.VictimSelector
