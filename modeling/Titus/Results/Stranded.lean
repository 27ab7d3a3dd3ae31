import Titus.Results.Distance
import Titus.Results.Solo

/-! The flush of a rank that has only put elements aside, while the others rest and have room on
their segments: it sends some of them. -/

namespace Titus.Results

variable {n : ℕ} {net : Network n} {r q v : Fin n} {s₀ s s' : State n} {a : Action n}
  {e : BufferElt n} {m m' : BufferedSegment n}

/-! ### Room for elements put aside -/

/-- `select_elts_to_push` selects the element for this segment when it is the first. -/
def Admits (m : BufferedSegment n) (e : BufferElt n) : Prop :=
  ∀ l, ∃ selected,
    selectEltsToPush (available m) (maxBufferElts - m.bufferEltCount) 0 0 (e :: l) =
      true :: selected

/-- All that is left on the rank are elements that it has put aside, and every segment has room for
each of them. -/
structure Stranded (r : Fin n) (s : State n) : Prop where
  reserved : ∀ v, (s.segment v).reserved = []
  entries : (s.rank r).localTransitingResults ≠ []
  aside : ∀ x ∈ (s.rank r).localTransitingResults, ∃ e, x.spot = .inMemory e ∧
    ∀ v, Admits (s.segment v) e

/-- The segment has the same elements and the same room. -/
structure SameRoom (m m' : BufferedSegment n) : Prop where
  bufferHead : m'.bufferHead = m.bufferHead
  segmentSize : m'.segmentSize = m.segmentSize
  bufferEltCount : m'.bufferEltCount = m.bufferEltCount
  reserved : m'.reserved = m.reserved

theorem SameRoom.admits (h : SameRoom m m') (he : Admits m e) : Admits m' e := by
  simp only [Admits, available, h.bufferHead, h.segmentSize, h.bufferEltCount]
  exact he

/-! ### The flush up to the first element that it sends -/

/-- The rank is on the way to send an entry of its map. -/
def Approaching (t : RankResults n) : Prop :=
  match t.pc with
  | .checking | .asserting | .locking | .waiting _ | .collecting => True
  | .grouping c => ∃ x ∈ t.localTransitingResults, c ≤ x.key.val
  | .reserving p | .reading p => p.site = .group ∧ ∃ x ∈ t.localTransitingResults, x.key = p.target
  | .addingHead p _ => p.site = .group
  | _ => False

/-- Rank `r` goes on with its flush and has not sent anything since `s₀`. -/
structure OnTheWay (r : Fin n) (s₀ s : State n) : Prop where
  others : OthersRest r (fun _ => none) s
  transit : (s.rank r).localTransitingResults = (s₀.rank r).localTransitingResults
  segment : ∀ v, SameRoom (s₀.segment v) (s.segment v)
  point : Approaching (s.rank r)

section Steps

variable (hst : Stranded r s₀) (h : OnTheWay r s₀ s)

include h

/-- A step of the rank that leaves its map as it is. -/
theorem OnTheWay.goOn (hothers : OthersRest r (fun _ => none) s') {t : RankResults n}
    (hs : s' = (s.setSegment v m).setRank r t) (hm : SameRoom (s.segment v) m)
    (htransit : t.localTransitingResults = (s.rank r).localTransitingResults)
    (hpoint : Approaching t) : OnTheWay r s₀ s' := by
  have hrank : s'.rank r = t := by
    rw [hs, State.rank_setRank, Function.update_self]
  constructor
  · exact hothers
  · rw [hrank, htransit, h.transit]
  · intro w
    have hw := h.segment w
    rw [hs, State.segment_setRank, State.segment_setSegment]
    by_cases hwv : w = v
    · subst hwv
      rw [Function.update_self]
      exact ⟨hm.bufferHead.trans hw.bufferHead, hm.segmentSize.trans hw.segmentSize,
        hm.bufferEltCount.trans hw.bufferEltCount, hm.reserved.trans hw.reserved⟩
    · rwa [Function.update_of_ne hwv]
  · rwa [hrank]

theorem OnTheWay.goOn_setRank (hothers : OthersRest r (fun _ => none) s') {t : RankResults n}
    (hs : s' = s.setRank r t)
    (htransit : t.localTransitingResults = (s.rank r).localTransitingResults)
    (hpoint : Approaching t) : OnTheWay r s₀ s' := by
  apply h.goOn (v := r) hothers (m := s.segment r) _ ⟨rfl, rfl, rfl, rfl⟩ htransit hpoint
  rw [hs, State.setSegment_self]

/-- No other rank has locked a segment. -/
theorem OnTheWay.available (hok : LocksOk s) (hlocked : (s.rank r).pc.locked = none) (hv : v ≠ r) :
    (s.segment v).state = .segmentAvailable := by
  cases hstate : (s.segment v).state with
  | segmentAvailable => rfl
  | copyInProgress =>
    have hflush := (hok.flush v).mp hstate
    rw [(h.others v hv).1] at hflush
    cases hflush
  | rank w =>
    have hw := (hok.lock v w).mp hstate
    by_cases hwr : w = r
    · rw [hwr, hlocked] at hw
      cases hw
    · rw [(h.others w hwr).1] at hw
      cases hw

include hst

/-- What the rank offers to its target has a first element, for which there is room. -/
theorem OnTheWay.offered {p : Push n} (hsite : p.site = .group)
    (hx : ∃ x ∈ (s.rank r).localTransitingResults, x.key = p.target) :
    ∃ e l, Results.offered (s.segment r).area (s.rank r) p = e :: l ∧
      ∀ v, Admits (s.segment v) e := by
  obtain ⟨x, hx, hkey⟩ := hx
  have hmem : x ∈ (s.rank r).localTransitingResults.filter (ofKey p.target) :=
    List.mem_filter.mpr ⟨hx, ofKey_iff.mpr hkey⟩
  simp only [Results.offered, hsite]
  cases hl : (s.rank r).localTransitingResults.filter (ofKey p.target) with
  | nil =>
    rw [hl] at hmem
    cases hmem
  | cons y l =>
    have hy : y ∈ (s.rank r).localTransitingResults := by
      have hy : y ∈ (s.rank r).localTransitingResults.filter (ofKey p.target) := by
        rw [hl]
        exact List.mem_cons_self
      exact List.mem_of_mem_filter hy
    rw [h.transit] at hy
    obtain ⟨e, he, hroom⟩ := hst.aside y hy
    have helt : y.elt (s.segment r).area = some e := by simp only [Transit.elt, he]
    refine ⟨e, l.filterMap (Transit.elt (s.segment r).area), ?_, ?_⟩
    · rw [List.filterMap_cons, helt]
    · exact fun v => (h.segment v).admits (hroom v)

/-- The space for the elements that a rank sends to its target is reserved in a move. -/
theorem OnTheWay.moved (hok : ResultsOk net s) (hc' : Conserved s') {p : Push n}
    {res : Reservation n} (hpc : (s.rank r).pc = .addingHead p res)
    (hs : Stepped net s r .advance s') : ¬ ∀ e p, At s e p → At s' e p := by
  intro hstay
  have hpoint := h.point
  simp only [Approaching, hpc] at hpoint
  have hr := hok.rank r
  have hne := hr.nonempty p res (.inl hpc)
  have hsel := hr.selected p res (by rw [hpc]; rfl)
  have htarget := hr.target_ne (p := p) (by rw [hpc]; rfl) (by rw [hpoint]; rintro ⟨⟩)
  obtain ⟨e, he⟩ := List.exists_mem_of_ne_nil _ hne
  -- before the step the element is in the map
  have hbefore : At s e (.transiting, r) := by
    have hmem := he
    rw [hsel] at hmem
    have hmem := (Selection.pick_sublist _ _).subset hmem
    simp only [Results.offered, hpoint, List.mem_filterMap] at hmem
    obtain ⟨x, hx, helt⟩ := hmem
    have hx := List.mem_of_mem_filter hx
    have hx₀ := hx
    rw [h.transit] at hx₀
    obtain ⟨e', hspot, -⟩ := hst.aside x hx₀
    simp only [Transit.elt, hspot, Option.some.injEq] at helt
    subst helt
    have hcarrying : (s.rank r).pc.carrying = none := by rw [hpc]; rfl
    refine List.mem_filterMap.mpr ⟨x, ?_, ?_⟩
    · rw [remaining_of_carrying hcarrying]
      exact hx
    · simp only [Transit.inMemory, hspot]
  -- and after it on the segment of the target
  have hafter : At s' e (.slot, p.target) := by
    have hidle := (h.others p.target htarget).1
    cases hs with
    | addHead p' res' hpc' =>
      rw [hpc] at hpc'
      cases hpc'
      simp only [At, elements, State.rank_setRank, State.rank_setSegment, State.segment_setRank,
        State.segment_setSegment, Function.update_of_ne htarget, Function.update_self, hidle,
        ResultPc.collected, Bool.false_eq_true, if_false, List.map_append, Tiling.map_layOut]
      exact List.mem_append_right _ he
    | _ => simp_all
  have huniq := hc'.existsUnique_at (hc'.pushed_of_at hafter)
  cases huniq.unique (hstay e _ hbefore) hafter

/-- The target's segment has room for the first element that the rank offers. -/
theorem OnTheWay.read (hfailed : (s.rank r).failed = none) (hfailed' : (s'.rank r).failed = none)
    {p : Push n} (hpc : (s.rank r).pc = .reading p) (hothers : OthersRest r (fun _ => none) s')
    (hs : next net s (r, .advance) = some s') : OnTheWay r s₀ s' := by
  have hpoint := h.point
  simp only [Approaching, hpc] at hpoint
  obtain ⟨hsite, hx⟩ := hpoint
  obtain ⟨e, l, hoffered, hroom⟩ := h.offered hst hsite hx
  obtain ⟨selected, hsel⟩ := hroom p.target l
  rw [next_push hfailed (by rw [hpc]; rfl)] at hs
  simp only [pushNext, hpc] at hs
  split at hs
  · cases hs
    simp only [State.rank_setRank, Function.update_self] at hfailed'
    cases hfailed'
  · have hne : (Selection.pick (selection p (s.segment p.target)
        (Results.offered (s.segment r).area (s.rank r) p))
        (Results.offered (s.segment r).area (s.rank r) p)).length ≠ 0 := by
      rw [hoffered]
      simp only [selection, hsite, hsel, Selection.pick, List.length_cons]
      exact Nat.succ_ne_zero _
    simp only [hne, if_false] at hs
    cases hs
    apply h.goOn_setRank hothers
    · rfl
    · rfl
    · exact hsite

theorem OnTheWay.advance (hok : ResultsOk net s) (hfailed : (s.rank r).failed = none)
    (hfailed' : (s'.rank r).failed = none) (hc' : Conserved s')
    (hs : next net s (r, .advance) = some s') (hstay : ∀ e p, At s e p → At s' e p) :
    OnTheWay r s₀ s' := by
  have hstep := hok.stepped hs
  have hpoint := h.point
  have hbusy : Ongoing s r .advance := by
    intro hpc
    simp only [Approaching, hpc] at hpoint
  have hothers := h.others.step hbusy hstep
  have htransit := h.transit
  cases hstep with
  | startTmp hpc | purge hpc | unlockOwn hpc | addCount p res hpc | releaseEmpty p res hpc
  | release p res hpc | post p res hpc => simp only [Approaching, hpc] at hpoint
  | empty hpc htail hnil =>
    rw [htransit] at hnil
    exact absurd hnil hst.entries
  | spin => exact h
  | occupied hpc | bounded hpc | waited i hpc =>
    apply h.goOn_setRank hothers
    · rfl
    · rfl
    · trivial
  | lockOwn hpc hstate =>
    apply h.goOn hothers (v := r)
    · rfl
    · exact ⟨rfl, rfl, rfl, rfl⟩
    · rfl
    · trivial
  | consume i hpc hi =>
    apply h.goOn hothers (v := r)
    · rfl
    · exact ⟨rfl, rfl, rfl, rfl⟩
    · rfl
    · trivial
  | collect hpc =>
    have hnil : (s.segment r).reserved = [] := (h.segment r).reserved.trans (hst.reserved r)
    obtain ⟨x, hx⟩ := List.exists_mem_of_ne_nil _ hst.entries
    apply h.goOn_setRank hothers
    · rfl
    · simp only [hnil, List.map_nil, List.append_nil]
    · refine ⟨x, ?_, Nat.zero_le _⟩
      simp only [hnil, List.map_nil, List.append_nil, htransit]
      exact hx
  | submit c off x e hpc hx hspot =>
    have hmem := List.mem_of_find?_eq_some hx
    rw [htransit] at hmem
    obtain ⟨e', hspot', -⟩ := hst.aside x hmem
    rw [hspot] at hspot'
    cases hspot'
  | group c k hpc hne hk =>
    apply h.goOn_setRank hothers
    · rfl
    · rfl
    · exact ⟨rfl, (nextKey_eq_some hk).2.1⟩
  | grouped c hpc hk =>
    simp only [Approaching, hpc] at hpoint
    obtain ⟨x, hx, hle⟩ := hpoint
    have hlt := nextKey_eq_none hk x hx
    omega
  | lockFailed p hpc hstate =>
    simp only [Approaching, hpc] at hpoint
    have htarget := (hok.rank r).target_ne (p := p) (by rw [hpc]; rfl)
      (by rw [hpoint.1]; rintro ⟨⟩)
    exact absurd (h.available hok.locks (by rw [hpc]; rfl) htarget) hstate
  | lockTaken p hpc hstate =>
    simp only [Approaching, hpc] at hpoint
    apply h.goOn hothers (v := p.target)
    · rfl
    · exact ⟨rfl, rfl, rfl, rfl⟩
    · rfl
    · exact hpoint
  | select p res hpc => exact h.read hst hfailed hfailed' hpc hothers hs
  | addHead p res hpc => exact absurd hstay (h.moved hst hok hc' hpc (hok.stepped hs))

end Steps

/-- While nothing moves the rank is on the way. -/
theorem OnTheWay.step (hst : Stranded r s₀) (h : OnTheWay r s₀ s) (hok : RunOk net s)
    (hok' : RunOk net s') (ha : Ongoing s q a) (hs : next net s (q, a) = some s')
    (hstay : ∀ e p, At s e p → At s' e p) : OnTheWay r s₀ s' := by
  have hstep := hok.results.stepped hs
  rcases h.others.cases ha with harr | ⟨rfl, rfl⟩
  · have hrank := rank_of_arrival hstep harr
    have hothers := h.others.step ha hstep
    cases hstep with
    | land | deliver =>
      apply h.goOn hothers (v := q)
      · rw [State.setRank, State.rank_setSegment, Function.update_eq_self]
        rfl
      · exact ⟨rfl, rfl, rfl, rfl⟩
      · rfl
      · exact h.point
    | _ => cases harr
  · exact h.advance hst hok.results (hok.running q) (hok'.running q) hok'.conserved hs hstay

/-- It does not end there. -/
theorem OnTheWay.not_quiet (h : OnTheWay r s₀ s) : ¬ Quiet s := by
  intro hq
  have hpoint := h.point
  simp only [Approaching, hq.idle] at hpoint

end Titus.Results
