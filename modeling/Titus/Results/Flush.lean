import Titus.Results.Protocol

/-! Every step keeps what holds of the ranks, so that no assertion of a push or of a flush fails in
any run. -/

namespace Titus.Results

variable {n : ℕ} {net : Network n} {r v : Fin n} {s s' : State n} {a : Action n}
  {m m' : BufferedSegment n} {t : RankResults n}

/-! ### Entries -/

section Entries

theorem elt_inMemory {x : Transit n} {e : BufferElt n} (h : x.spot = .inMemory e)
    (area : ℕ → Option (BufferElt n)) : x.elt area = some e := by
  simp only [Transit.elt, h]

/-- Without a cursor all entries are in memory of their own, so that they do not depend on the
segment. -/
theorem RankOk.elt_congr (h : RankOk net r m t) (harea : m'.area = m.area ∨ t.pc.cursor = none)
    {x : Transit n} (hx : x ∈ t.localTransitingResults) : x.elt m'.area = x.elt m.area := by
  rcases harea with harea | hcursor
  · rw [harea]
  · cases hspot : x.spot with
    | inMemory e => rw [elt_inMemory hspot, elt_inMemory hspot]
    | onSegment off =>
      obtain ⟨c, hc, -⟩ := h.onSegment x hx off hspot
      rw [hcursor] at hc
      cases hc

theorem offered_congr {area area' : ℕ → Option (BufferElt n)} {t' : RankResults n}
    (htransit : t'.localTransitingResults = t.localTransitingResults) (htmp : t'.tmp = t.tmp)
    (h : ∀ x ∈ t.localTransitingResults, x.elt area' = x.elt area) (p : Push n) :
    offered area' t' p = offered area t p := by
  unfold offered
  split
  · rw [htmp]
  · rename_i i _
    rw [htransit]
    cases hi : t.localTransitingResults[i]? with
    | none => rfl
    | some x => exact congrArg Option.toList (h x (List.mem_of_getElem? hi))
  · rw [htransit]
    exact List.filterMap_congr fun x hx => h x (List.mem_of_mem_filter hx)

theorem EntryOk.congr {x : Transit n} {e : BufferElt n} (h : EntryOk net r m x e)
    (hsize : m'.segmentSize = m.segmentSize) (helt : x.elt m'.area = x.elt m.area) :
    EntryOk net r m' x e :=
  ⟨helt.trans h.elt, h.sound, hsize ▸ h.size, h.key, h.aside⟩

/-- Changes of the segment that the rank does not depend on. -/
theorem RankOk.setSegment (h : RankOk net r m t) (hsize : m'.segmentSize = m.segmentSize)
    (harea : m'.area = m.area ∨ t.pc.cursor = none)
    (hreserved : t.pc.occupied → m.reserved ≠ [] → m'.reserved ≠ []) : RankOk net r m' t := by
  have helt : ∀ x ∈ t.localTransitingResults, x.elt m'.area = x.elt m.area :=
    fun x hx => h.elt_congr harea hx
  refine ⟨fun x hx => ?_, h.onSegment, h.tmp, h.push, fun p res hsel => ?_, h.nonempty,
    fun hocc => (h.occupied hocc).imp_left (hreserved hocc), h.failed⟩
  · obtain ⟨e, he⟩ := h.entries x hx
    exact ⟨e, he.congr hsize (helt x hx)⟩
  · rw [offered_congr rfl rfl helt]
    exact h.selected p res hsel

/-- An entry that stays where it is. -/
theorem RankOk.inMemory (h : RankOk net r m t) (hcursor : t.pc.cursor = none) {x : Transit n}
    (hx : x ∈ t.localTransitingResults) (off : ℕ) : x.spot ≠ .onSegment off := by
  intro hspot
  obtain ⟨c, hc, -⟩ := h.onSegment x hx off hspot
  rw [hcursor] at hc
  cases hc

/-- The rank goes on to the point `pc`. -/
theorem RankOk.setPc (h : RankOk net r m t) {pc : ResultPc n}
    (honSegment : ∀ x ∈ t.localTransitingResults, ∀ off, x.spot = .onSegment off →
      ∃ c, pc.cursor = some c ∧ c ≤ x.key)
    (hpush : ∀ p, pc.push = some p → PushOk r t p)
    (hselected : ∀ p res, pc.selected = some (p, res) →
      res.elts = Selection.pick res.selected (offered m.area t p))
    (hnonempty : ∀ p res, pc = .addingHead p res ∨ pc = .addingCount p res ∨
      pc = .posting p res → res.elts ≠ [])
    (hoccupied : pc.occupied → m.reserved ≠ [] ∨ t.localTransitingResults ≠ []) :
    RankOk net r m { t with pc } :=
  ⟨h.entries, honSegment, h.tmp, hpush, fun p res hsel => (hselected p res hsel).trans
    (congrArg _ (offered_congr rfl rfl (fun _ _ => rfl) p).symm), hnonempty, hoccupied, h.failed⟩

/-- The rank goes on to a point outside a push and outside the loop over the destinations. -/
theorem RankOk.setPc_plain (h : RankOk net r m t) {pc : ResultPc n}
    (hcursor : t.pc.cursor = none) (hpush : pc.push = none) (hselected : pc.selected = none)
    (hoccupied : pc.occupied → m.reserved ≠ [] ∨ t.localTransitingResults ≠ []) :
    RankOk net r m { t with pc } := by
  refine h.setPc (fun x hx off hspot => absurd hspot (h.inMemory hcursor hx off))
    (fun p hp => ?_) (fun p res hp => ?_) (fun p res hp => ?_) hoccupied
  · rw [hpush] at hp
    cases hp
  · rw [hselected] at hp
    cases hp
  · rcases hp with rfl | rfl | rfl <;> cases hpush

/-- The rank goes on to the next point of a push. -/
theorem RankOk.setPc_push (h : RankOk net r m t) {pc : ResultPc n}
    (hcursor : pc.cursor = t.pc.cursor) (hpush : pc.push = t.pc.push)
    (hselected : ∀ p res, pc.selected = some (p, res) →
      res.elts = Selection.pick res.selected (offered m.area t p))
    (hnonempty : ∀ p res, pc = .addingHead p res ∨ pc = .addingCount p res ∨
      pc = .posting p res → res.elts ≠ [])
    (hoccupied : pc.occupied = false) : RankOk net r m { t with pc } := by
  refine h.setPc (fun x hx off hspot => hcursor ▸ h.onSegment x hx off hspot)
    (fun p hp => h.push p (hpush ▸ hp)) hselected hnonempty (fun hocc => ?_)
  rw [hoccupied] at hocc
  cases hocc

end Entries

/-! ### Submissions -/

theorem failed_submitResults (h : t.failed = none ∨ t.failed = some .nbResult) (e : BufferElt n) :
    (submitResults t e).failed = none ∨ (submitResults t e).failed = some .nbResult := by
  simp only [submitResults]
  split
  · exact h
  · exact .inr rfl

/-! ### The end of a push -/

section Settle

/-- An entry that is put aside keeps its key and its element. -/
theorem EntryOk.putAside {x : Transit n} {e : BufferElt n} (h : EntryOk net r m x e)
    (howner : e.owner ≠ r) :
    EntryOk net r m (putAside m.area x) e ∧ (putAside m.area x).spot = .inMemory e ∧
      (putAside m.area x).key = x.key := by
  have helt := h.elt
  cases hspot : x.spot with
  | inMemory e' =>
    simp only [Transit.elt, hspot] at helt
    cases helt
    simp only [Results.putAside, hspot]
    exact ⟨h, trivial, trivial⟩
  | onSegment off =>
    simp only [Transit.elt, hspot] at helt
    simp only [Results.putAside, hspot, helt]
    exact ⟨⟨rfl, h.sound, h.size, h.key, fun _ => howner⟩, trivial, trivial⟩

/-- An entry for another destination is owned by another rank. -/
theorem EntryOk.owner_ne {x : Transit n} {e : BufferElt n} (h : EntryOk net r m x e)
    (hx : x.key ≠ r) : e.owner ≠ r := by
  intro howner
  have hkey := h.key
  rw [keyOf, if_neg (not_not.mpr howner)] at hkey
  exact hx (hkey.trans howner)

/-- The entries for a destination that is done are in memory of their own. -/
theorem RankOk.settled (h : RankOk net r m t) {k : Fin n} (hcursor : t.pc.cursor = some ↑k)
    (hk : k ≠ r) (selected : List Bool) : RankOk net r m (settled m t k selected) := by
  have hkept : ∀ x ∈ Selection.keep (ofKey k) selected t.localTransitingResults,
      x ∈ t.localTransitingResults := fun x hx => (Selection.keep_sublist _ _ _).subset hx
  have howner : ∀ x e, EntryOk net r m x e → x.key = k → e.owner ≠ r :=
    fun x e he hxk => he.owner_ne (hxk.trans_ne hk)
  refine ⟨fun x hx => ?_, fun x hx off hspot => ?_, h.tmp, nofun, nofun, by nofun, nofun, h.failed⟩
  · obtain ⟨y, hy, rfl⟩ := List.mem_map.mp hx
    obtain ⟨e, he⟩ := h.entries y (hkept y hy)
    split
    · exact ⟨e, (he.putAside (howner y e he (ofKey_iff.mp ‹_›))).1⟩
    · exact ⟨e, he⟩
  · obtain ⟨y, hy, rfl⟩ := List.mem_map.mp hx
    obtain ⟨e, he⟩ := h.entries y (hkept y hy)
    refine ⟨_, rfl, ?_⟩
    split at hspot
    · rw [(he.putAside (howner y e he (ofKey_iff.mp ‹_›))).2.1] at hspot
      cases hspot
    · rename_i hy'
      rw [if_neg hy']
      obtain ⟨c, hc, hle⟩ := h.onSegment y (hkept y hy) off hspot
      rw [hcursor] at hc
      cases hc
      have hne : y.key ≠ k := fun heq => hy' (ofKey_iff.mpr heq)
      have := Fin.val_ne_of_ne hne
      omega

theorem RankOk.ok_giveUp (h : RankOk net r m t) {p : Push n} (hpush : t.pc.push = some p)
    (selected : List Bool) : RankOk net r m (Results.giveUp m t p selected) := by
  have hp := h.push p hpush
  have hcursor : t.pc.cursor = if p.site = .group then some ↑p.target else none := by
    revert hpush
    cases t.pc <;> intro hpush <;> cases hpush <;> rfl
  rcases h.giveUp p selected with ⟨hsite, heq⟩ | ⟨⟨i, hsite⟩, heq⟩ | ⟨hsite, heq⟩ <;>
    rw [heq] <;> rw [hsite] at hcursor
  · exact h.setPc_plain hcursor rfl rfl nofun
  · exact h.setPc_plain hcursor rfl rfl nofun
  · simp only [PushOk, hsite] at hp
    exact h.settled hcursor hp.1 selected

theorem RankOk.ok_settle (h : RankOk net r m t) {p : Push n} {res : Reservation n}
    (hpc : t.pc = .posting p res) (hsize : m'.segmentSize = m.segmentSize)
    (harea : m'.area = m.area ∨ p.site ≠ .group) : RankOk net r m' (Results.settle m t p res) := by
  have hp := h.push p (by rw [hpc]; rfl)
  have hcursor : t.pc.cursor = if p.site = .group then some ↑p.target else none := by
    rw [hpc]
    rfl
  rcases h.settle p res with ⟨hsite, heq⟩ | ⟨i, hsite, heq⟩ | ⟨hsite, heq⟩ <;>
    rw [heq] <;> rw [hsite] at hcursor
  · have h' : RankOk net r m' { t with pc := .idle } :=
      (h.setPc_plain hcursor rfl rfl (by nofun)).setSegment hsize (.inr rfl) (by nofun)
    exact ⟨h'.entries, h'.onSegment, nofun, nofun, nofun, by nofun, nofun, h'.failed⟩
  · have h' : RankOk net r m' { t with pc := .idle } :=
      (h.setPc_plain hcursor rfl rfl (by nofun)).setSegment hsize (.inr rfl) (by nofun)
    have hsub : ∀ x ∈ t.localTransitingResults.eraseIdx i, x ∈ t.localTransitingResults :=
      fun x hx => List.mem_of_mem_eraseIdx hx
    exact ⟨fun x hx => h'.entries x (hsub x hx), fun x hx => h'.onSegment x (hsub x hx), h'.tmp,
      nofun, nofun, by nofun, nofun, h'.failed⟩
  · simp only [PushOk, hsite] at hp
    have harea' : m'.area = m.area := harea.resolve_right fun hne => hne hsite
    exact (h.settled hcursor hp.1 res.selected).setSegment hsize (.inl harea') nofun

end Settle

/-! ### The steps -/

section Stepped

/-- A step of rank `r` that changes the segment of `v`. -/
theorem ResultsOk.ranks_update (h : ResultsOk net s)
    (hr : RankOk net r (Function.update s.segment v m r) t)
    (hv : v ≠ r → m.segmentSize = (s.segment v).segmentSize ∧ m.area = (s.segment v).area ∧
      ((s.segment v).reserved ≠ [] → m.reserved ≠ [])) (q : Fin n) :
    RankOk net q (((s.setSegment v m).setRank r t).segment q)
      (((s.setSegment v m).setRank r t).rank q) := by
  simp only [State.segment_setRank, State.segment_setSegment, State.rank_setRank,
    State.rank_setSegment]
  by_cases hq : q = r
  · subst hq
    rwa [Function.update_self]
  · rw [Function.update_of_ne hq]
    by_cases hqv : q = v
    · subst hqv
      rw [Function.update_self]
      obtain ⟨h1, h2, h3⟩ := hv hq
      exact (h.rank q).setSegment h1 (.inl h2) fun _ => h3
    · rw [Function.update_of_ne hqv]
      exact h.rank q

theorem ResultsOk.ranks_setRank (h : ResultsOk net s) (hr : RankOk net r (s.segment r) t)
    (q : Fin n) : RankOk net q ((s.setRank r t).segment q) ((s.setRank r t).rank q) := by
  have := h.ranks_update (v := r) (m := s.segment r) (t := t)
    (by rwa [Function.update_eq_self]) (fun hne => absurd rfl hne) q
  rwa [State.setSegment_self] at this

/-- A step of rank `r` that changes its own segment and its point. -/
theorem ResultsOk.ranks_own (h : ResultsOk net s) (hr : RankOk net r m t) (q : Fin n) :
    RankOk net q (((s.setSegment r m).setRank r t).segment q)
      (((s.setSegment r m).setRank r t).rank q) :=
  h.ranks_update (by rwa [Function.update_self]) (fun hne => absurd rfl hne) q

/-- A step of a push of rank `r` that leaves the elements of the target's segment where they
are. -/
theorem ResultsOk.ranks_target (h : ResultsOk net s) (hr : RankOk net r (s.segment r) t)
    (hsize : m.segmentSize = (s.segment v).segmentSize) (harea : m.area = (s.segment v).area)
    (hreserved : (s.segment v).reserved ≠ [] → m.reserved ≠ []) (q : Fin n) :
    RankOk net q (((s.setSegment v m).setRank r t).segment q)
      (((s.setSegment v m).setRank r t).rank q) := by
  refine h.ranks_update ?_ (fun _ => ⟨hsize, harea, hreserved⟩) q
  by_cases hvr : r = v
  · subst hvr
    rw [Function.update_self]
    exact hr.setSegment hsize (.inl harea) fun _ => hreserved
  · rwa [Function.update_of_ne hvr]

/-- Something arrives on the segment of rank `v`. -/
theorem ResultsOk.ranks_arrival (h : ResultsOk net s)
    (hsize : m.segmentSize = (s.segment v).segmentSize)
    (harea : m.area = (s.segment v).area ∨ (s.rank v).pc.cursor = none)
    (hreserved : m.reserved = (s.segment v).reserved) (q : Fin n) :
    RankOk net q ((s.setSegment v m).segment q) ((s.setSegment v m).rank q) := by
  simp only [State.segment_setSegment, State.rank_setSegment]
  by_cases hqv : q = v
  · subst hqv
    rw [Function.update_self]
    exact (h.rank q).setSegment hsize harea fun _ => by rw [hreserved]; exact id
  · rw [Function.update_of_ne hqv]
    exact h.rank q

/-- Outside the drained points there is no cursor. -/
theorem cursor_of_not_drained {pc : ResultPc n} (h : ¬ pc.drained) : pc.cursor = none := by
  cases pc <;> simp_all [ResultPc.drained, ResultPc.cursor]

theorem RankOk.collected (h : RankOk net r m t) {lag : ℕ}
    {carried : Fin n → Option (Message n)} (hseg : SegmentOk m t.pc carried lag)
    (hpc : t.pc = .collecting) :
    RankOk net r m { t with
      localTransitingResults := t.localTransitingResults ++
        m.reserved.map fun w => ⟨keyOf net r w.2, .onSegment w.1⟩
      pc := .grouping 0 } := by
  have harrived := hseg.delivery.arrived_of_not_pending (hseg.drained (by rw [hpc]; rfl)).1
  refine ⟨fun x hx => ?_, fun x hx off hspot => ⟨0, rfl, Nat.zero_le _⟩, h.tmp, nofun, nofun,
    by nofun, nofun, h.failed⟩
  rcases List.mem_append.mp hx with hx | hx
  · exact h.entries x hx
  · obtain ⟨w, hw, rfl⟩ := List.mem_map.mp hx
    exact ⟨w.2, harrived w hw, hseg.sound w hw, hseg.size_le hw, rfl, nofun⟩

/-- Every step keeps what holds of the ranks. -/
theorem ResultsOk.ranks_stepped (h : ResultsOk net s) (hs : Stepped net s r a s') (q : Fin n) :
    RankOk net q (s'.segment q) (s'.rank q) := by
  have hr := h.rank r
  have hseg := h.segment r
  cases hs with
  | spin => exact h.rank q
  | pushOwn k id nb size owner data e he hsound hpc =>
    refine h.ranks_setRank ?_ q
    exact ⟨hr.entries, hr.onSegment, hr.tmp, hr.push, hr.selected, hr.nonempty, hr.occupied,
      failed_submitResults hr.failed e⟩
  | pushTmp k id nb size owner data e he hsound hpc htmp howner =>
    refine h.ranks_setRank ?_ q
    refine ⟨hr.entries, hr.onSegment, fun e' he' => ?_, fun p hp => ?_, fun p res hp => ?_,
      hr.nonempty, hr.occupied, hr.failed⟩
    · cases he'
      exact ⟨hsound, howner⟩
    · simp only [hpc] at hp
      cases hp
    · simp only [hpc] at hp
      cases hp
  | flush hpc =>
    refine h.ranks_setRank ?_ q
    exact hr.setPc_plain (by rw [hpc]; rfl) rfl rfl (by rintro ⟨⟩)
  | pushTransit i x hx hpc =>
    refine h.ranks_setRank ?_ q
    refine hr.setPc ?_ ?_ (by rintro _ _ ⟨⟩) (by simp) (by rintro ⟨⟩)
    · exact fun y hy off hspot => absurd hspot (hr.inMemory (by rw [hpc]; rfl) hy off)
    · intro p hp
      cases hp
      exact ⟨x, hx, rfl⟩
  | startTmp hpc htmp =>
    refine h.ranks_setRank ?_ q
    refine hr.setPc ?_ ?_ (by rintro _ _ ⟨⟩) (by simp) (by rintro ⟨⟩)
    · exact fun y hy off hspot => absurd hspot (hr.inMemory (by rw [hpc]; rfl) hy off)
    · intro p hp
      cases hp
      exact ⟨htmp, rfl⟩
  | empty hpc =>
    refine h.ranks_setRank ?_ q
    exact hr.setPc_plain (by rw [hpc]; rfl) rfl rfl (by rintro ⟨⟩)
  | occupied hpc hocc =>
    refine h.ranks_setRank ?_ q
    refine hr.setPc_plain (by rw [hpc]; rfl) rfl rfl fun _ => ?_
    refine hocc.imp_left fun hne hnil => hne ?_
    have htiles := hseg.tiles
    rw [hnil] at htiles
    exact htiles.eq_of_nil
  | bounded hpc =>
    refine h.ranks_setRank ?_ q
    exact hr.setPc_plain (by rw [hpc]; rfl) rfl rfl fun _ => hr.occupied (by rw [hpc]; rfl)
  | lockOwn hpc hst =>
    refine h.ranks_own ?_ q
    exact (hr.setPc_plain (by rw [hpc]; rfl) rfl rfl
      fun _ => hr.occupied (by rw [hpc]; rfl)).setSegment rfl (.inl rfl) fun _ => id
  | consume i hpc hi =>
    refine h.ranks_own ?_ q
    exact (hr.setPc_plain (by rw [hpc]; rfl) rfl rfl
      fun _ => hr.occupied (by rw [hpc]; rfl)).setSegment rfl (.inl rfl) fun _ => id
  | waited i hpc hi =>
    refine h.ranks_setRank ?_ q
    exact hr.setPc_plain (by rw [hpc]; rfl) rfl rfl fun _ => hr.occupied (by rw [hpc]; rfl)
  | collect hpc =>
    refine h.ranks_setRank ?_ q
    exact hr.collected hseg hpc
  | submit c off x e hpc =>
    have hsub : ∀ y ∈ (s.rank r).localTransitingResults.eraseP (ofKey r),
        y ∈ (s.rank r).localTransitingResults := fun y hy => List.mem_of_mem_eraseP hy
    refine h.ranks_setRank ?_ q
    refine ⟨fun y hy => hr.entries y (hsub y hy), fun y hy => hr.onSegment y (hsub y hy), hr.tmp,
      fun p hp => ?_, fun p res hp => ?_, hr.nonempty, fun hocc => ?_,
      failed_submitResults hr.failed e⟩
    · simp only [submitResults, hpc] at hp
      cases hp
    · simp only [submitResults, hpc] at hp
      cases hp
    · simp only [submitResults, hpc] at hocc
      cases hocc
  | group c k hpc hne hk =>
    obtain ⟨-, hmem, hle⟩ := nextKey_eq_some hk
    refine h.ranks_setRank ?_ q
    refine hr.setPc (fun x hx off hspot => ⟨_, rfl, ?_⟩) (fun p hp => ?_) (by rintro _ _ ⟨⟩)
      (by simp) (by rintro ⟨⟩)
    · obtain ⟨c', hc', hcx⟩ := hr.onSegment x hx off hspot
      rw [hpc] at hc'
      cases hc'
      exact hle x hx hcx
    · cases hp
      exact ⟨hne, hmem⟩
  | grouped c hpc hk =>
    refine h.ranks_setRank ?_ q
    refine hr.setPc (fun x hx off hspot => ?_) (by rintro _ ⟨⟩) (by rintro _ _ ⟨⟩) (by simp)
      (by rintro ⟨⟩)
    obtain ⟨c', hc', hcx⟩ := hr.onSegment x hx off hspot
    rw [hpc] at hc'
    cases hc'
    have := nextKey_eq_none hk x hx
    omega
  | purge hpc =>
    refine h.ranks_own ?_ q
    exact (hr.setPc_plain (by rw [hpc]; rfl) rfl rfl (by rintro ⟨⟩)).setSegment rfl (.inr rfl)
      (by rintro ⟨⟩)
  | unlockOwn hpc =>
    refine h.ranks_own ?_ q
    exact (hr.setPc_plain (by rw [hpc]; rfl) rfl rfl (by rintro ⟨⟩)).setSegment rfl (.inl rfl)
      (by rintro ⟨⟩)
  | lockFailed p hpc =>
    refine h.ranks_setRank ?_ q
    exact hr.ok_giveUp (by rw [hpc]; rfl) []
  | lockTaken p hpc hst =>
    refine h.ranks_target ?_ (by rfl) (by rfl) (by exact id) q
    exact hr.setPc_push (by rw [hpc]; rfl) (by rw [hpc]; rfl) (by rintro _ _ ⟨⟩) (by simp) rfl
  | select p res hpc _ _ hsel =>
    refine h.ranks_setRank ?_ q
    by_cases h0 : res.elts.length = 0
    · simp only [h0, if_true]
      refine hr.setPc_push (by rw [hpc]; rfl) (by rw [hpc]; rfl) (fun p' res' hp => ?_) (by simp)
        rfl
      cases hp
      exact hsel
    · simp only [h0, if_false]
      refine hr.setPc_push (by rw [hpc]; rfl) (by rw [hpc]; rfl) (fun p' res' hp => ?_)
        (fun p' res' hp => ?_) rfl
      · cases hp
        exact hsel
      · rcases hp with hp | hp | hp <;> cases hp
        exact fun hnil => h0 (by rw [hnil]; rfl)
  | addHead p res hpc =>
    refine h.ranks_target ?_ (by rfl) (by rfl)
      (fun hne hnil => hne (List.append_eq_nil_iff.mp (by exact hnil)).1) q
    refine hr.setPc_push (by rw [hpc]; rfl) (by rw [hpc]; rfl) (fun p' res' hp => ?_)
      (fun p' res' hp => ?_) rfl
    · cases hp
      exact hr.selected p res (by rw [hpc]; rfl)
    · rcases hp with hp | hp | hp <;> cases hp
      exact hr.nonempty p res (.inl hpc)
  | addCount p res hpc =>
    refine h.ranks_target ?_ (by rfl) (by rfl) (by exact id) q
    refine hr.setPc_push (by rw [hpc]; rfl) (by rw [hpc]; rfl) (fun p' res' hp => ?_) (by simp) rfl
    cases hp
    exact hr.selected p res (by rw [hpc]; rfl)
  | releaseEmpty p res hpc =>
    refine h.ranks_target ?_ (by rfl) (by rfl) (by exact id) q
    exact hr.ok_giveUp (by rw [hpc]; rfl) res.selected
  | release p res hpc helts =>
    refine h.ranks_target ?_ (by rfl) (by rfl) (by exact id) q
    refine hr.setPc_push (by rw [hpc]; rfl) (by rw [hpc]; rfl) (fun p' res' hp => ?_)
      (fun p' res' hp => ?_) rfl
    · cases hp
      exact hr.selected p res (by rw [hpc]; rfl)
    · rcases hp with hp | hp | hp <;> cases hp
      exact helts
  | post p res hpc =>
    have hp := hr.push p (by rw [hpc]; rfl)
    have harea : p.site ≠ .tmp → (post (s.segment p.target) (s.rank r) p res).area =
        (s.segment p.target).area := by
      intro hsite
      simp only [Results.post]
      split
      · exact absurd ‹_› hsite
      · rfl
    refine h.ranks_update ?_ ?_ q
    · by_cases hvr : r = p.target
      · rw [hvr, Function.update_self, ← hvr]
        refine hr.ok_settle hpc rfl (.inr fun hsite => ?_)
        simp only [PushOk, hsite] at hp
        exact hp.1 hvr.symm
      · rw [Function.update_of_ne hvr]
        exact hr.ok_settle hpc rfl (.inl rfl)
    · refine fun hne => ⟨rfl, harea fun hsite => ?_, id⟩
      simp only [PushOk, hsite] at hp
      exact hne hp.2
  | land i w off b e hb hw =>
    refine h.ranks_arrival (by rfl) (.inr (cursor_of_not_drained ?_)) (by rfl) q
    exact hseg.not_drained (.inl (List.mem_of_getElem? hb))
  | deliver i b hb hw => exact h.ranks_arrival (by rfl) (.inl (by rfl)) (by rfl) q

/-- A step of rank `r` that changes the segment of `v`, but not where the next reservation of
another rank goes. -/
theorem ResultsOk.reservation_update (h : ResultsOk net s)
    (hv : (m.bufferHead = (s.segment v).bufferHead ∧
        m.bufferEltCount = (s.segment v).bufferEltCount ∧
        m.segmentSize = (s.segment v).segmentSize) ∨
      ∀ q ≠ r, (s.segment v).state ≠ .rank q)
    (hr : ReservationOk (Function.update s.segment v m) t.pc) (q : Fin n) :
    ReservationOk ((s.setSegment v m).setRank r t).segment
      (((s.setSegment v m).setRank r t).rank q).pc := by
  simp only [State.segment_setRank, State.segment_setSegment, State.rank_setRank,
    State.rank_setSegment]
  by_cases hq : q = r
  · subst hq
    rwa [Function.update_self]
  · rw [Function.update_of_ne hq]
    have hres := h.reservation q
    have hother : ∀ p : Push n, (s.rank q).pc.locked = some p.target →
        (Function.update s.segment v m p.target).bufferHead = (s.segment p.target).bufferHead ∧
        (Function.update s.segment v m p.target).bufferEltCount =
          (s.segment p.target).bufferEltCount ∧
        (Function.update s.segment v m p.target).segmentSize =
          (s.segment p.target).segmentSize := by
      intro p hp
      by_cases hpv : p.target = v
      · rw [hpv, Function.update_self]
        refine hv.resolve_right fun hno => hno q hq ((h.locks.lock v q).mpr ?_)
        rw [hp, hpv]
      · rw [Function.update_of_ne hpv]
        exact ⟨rfl, rfl, rfl⟩
    unfold ReservationOk at hres ⊢
    split
    · rename_i p res hpc
      simp only [hpc] at hres
      obtain ⟨h1, h2, h3⟩ := hother p (by rw [hpc]; rfl)
      rw [h1, h2, h3]
      exact hres
    · rename_i p res hpc
      simp only [hpc] at hres
      rw [(hother p (by rw [hpc]; rfl)).2.1]
      exact hres
    · trivial

/-- A step of rank `r` that changes no segment. -/
theorem ResultsOk.reservation_setRank (h : ResultsOk net s) (hr : ReservationOk s.segment t.pc)
    (q : Fin n) : ReservationOk (s.setRank r t).segment ((s.setRank r t).rank q).pc := by
  have := h.reservation_update (v := r) (m := s.segment r) (r := r) (t := t)
    (.inl ⟨rfl, rfl, rfl⟩) (by rwa [Function.update_eq_self]) q
  rwa [State.setSegment_self] at this

/-- Something arrives on the segment of rank `v`. -/
theorem ResultsOk.reservation_arrival (h : ResultsOk net s)
    (hhead : m.bufferHead = (s.segment v).bufferHead)
    (hcount : m.bufferEltCount = (s.segment v).bufferEltCount)
    (hsize : m.segmentSize = (s.segment v).segmentSize) (q : Fin n) :
    ReservationOk (s.setSegment v m).segment ((s.setSegment v m).rank q).pc := by
  have hres := h.reservation q
  have hsame : ∀ w, ((s.setSegment v m).segment w).bufferHead = (s.segment w).bufferHead ∧
      ((s.setSegment v m).segment w).bufferEltCount = (s.segment w).bufferEltCount ∧
      ((s.setSegment v m).segment w).segmentSize = (s.segment w).segmentSize := by
    intro w
    by_cases hw : w = v
    · subst hw
      simpa using ⟨hhead, hcount, hsize⟩
    · simp [Function.update_of_ne hw]
  unfold ReservationOk at hres ⊢
  rw [State.rank_setSegment]
  split <;> rename_i hpc <;> simp only [hpc] at hres
  · rw [(hsame _).1, (hsame _).2.1, (hsame _).2.2]
    exact hres
  · rw [(hsame _).2.1]
    exact hres
  · trivial

theorem After.reservation {pc : ResultPc n} {site : PushSite} (h : After pc site)
    (segment : Fin n → BufferedSegment n) : ReservationOk segment pc := by
  have hlocked := h.locked
  unfold ReservationOk
  split
  · cases hlocked
  · cases hlocked
  · trivial

/-- Every step keeps what the pushes know. -/
theorem ResultsOk.reservation_stepped (h : ResultsOk net s) (hs : Stepped net s r a s')
    (q : Fin n) : ReservationOk s'.segment (s'.rank q).pc := by
  have hr := h.rank r
  cases hs with
  | spin => exact h.reservation q
  | pushOwn _ _ _ _ _ _ _ _ _ hpc | pushTmp _ _ _ _ _ _ _ _ _ hpc =>
    exact h.reservation_setRank (by simp only [submitResults, hpc, ReservationOk]) q
  | submit _ _ _ _ hpc =>
    exact h.reservation_setRank (by simp only [submitResults, hpc, ReservationOk]) q
  | flush | pushTransit | startTmp | empty | occupied | bounded | waited | collect | group
  | grouped => exact h.reservation_setRank (by trivial) q
  | lockOwn | consume | unlockOwn =>
    exact h.reservation_update (.inl (by exact ⟨rfl, rfl, rfl⟩)) (by trivial) q
  | purge hpc =>
    have hst := (h.locks.flush r).mpr (by rw [hpc]; rfl)
    exact h.reservation_update (.inr fun q _ => by rw [hst]; rintro ⟨⟩) (by trivial) q
  | lockFailed p hpc => exact h.reservation_setRank ((hr.after_giveUp p []).reservation _) q
  | lockTaken | release =>
    exact h.reservation_update (.inl (by exact ⟨rfl, rfl, rfl⟩)) (by trivial) q
  | select p res hpc hhead hcount hsel hroom hlimit =>
    refine h.reservation_setRank ?_ q
    by_cases h0 : res.elts.length = 0
    · simp only [h0, if_true]
      trivial
    · simp only [h0, if_false]
      exact ⟨hhead, hcount, hroom, hlimit⟩
  | addHead p res hpc =>
    have hst := (h.locks.lock p.target r).mpr (by rw [hpc]; rfl)
    have hres := h.reservation r
    simp only [ReservationOk, hpc] at hres
    refine h.reservation_update (.inr fun q hq => ?_) ?_ q
    · rw [hst]
      exact fun heq => hq (ResultLock.rank.inj heq).symm
    · simp only [ReservationOk, Function.update_self]
      exact hres.2.1
  | addCount p res hpc =>
    have hst := (h.locks.lock p.target r).mpr (by rw [hpc]; rfl)
    refine h.reservation_update (.inr fun q hq => ?_) (by trivial) q
    rw [hst]
    exact fun heq => hq (ResultLock.rank.inj heq).symm
  | releaseEmpty p res hpc =>
    exact h.reservation_update (.inl (by exact ⟨rfl, rfl, rfl⟩))
      ((hr.after_giveUp p res.selected).reservation _) q
  | post p res hpc =>
    exact h.reservation_update (.inl (by exact ⟨rfl, rfl, rfl⟩))
      ((hr.after_settle p res).reservation _) q
  | land | deliver => exact h.reservation_arrival (by rfl) (by rfl) (by rfl) q

end Stepped

/-! ### Runs -/

theorem ResultsOk.step (h : ResultsOk net s) (hs : Stepped net s r a s') : ResultsOk net s' :=
  ⟨h.locks.stepped h.rank hs, h.ranks_stepped hs, h.segments_stepped hs, h.reservation_stepped hs⟩

theorem SegmentInit.ok (h : SegmentInit m) {pc : ResultPc n} (hpc : ¬ pc.flushing)
    {carried : Fin n → Option (Message n)} (hcarried : ∀ q, carried q = none) :
    SegmentOk m pc carried 0 := by
  have hno : ∀ b, ¬ Announcement.Pending m.inbox carried b := by
    rintro b (hb | ⟨q, hq⟩)
    · rw [h.inbox] at hb
      cases hb
    · rw [hcarried] at hq
      cases hq
  suffices hidle : SegmentOk m .idle carried 0 from hidle.setPc_of_not_flushing hpc
  refine ⟨?_, ?_, ?_, ?_, ?_, ?_, nofun, nofun⟩
  · rw [h.reserved, h.head]
    rfl
  · rw [h.head]
    exact h.room
  · rw [h.reserved, h.count]
    rfl
  · rw [h.reserved]
    exact Nat.zero_le _
  · rw [h.reserved]
    nofun
  · rw [h.reserved]
    exact .empty hno h.notifications

/-- A rank that has nothing to send and is not in a push or a flush. -/
theorem rankOk_of_idle (hpc : t.pc = .idle) (htransit : t.localTransitingResults = [])
    (htmp : t.tmp = none) (hfailed : t.failed = none) : RankOk net r m t := by
  refine ⟨?_, ?_, ?_, ?_, ?_, ?_, ?_, .inl hfailed⟩
  · rw [htransit]
    nofun
  · rw [htransit]
    nofun
  · rw [htmp]
    nofun
  · rw [hpc]
    nofun
  · rw [hpc]
    nofun
  · rw [hpc]
    nofun
  · rw [hpc]
    nofun

theorem RankInit.ok (h : RankInit t) : RankOk net r m t :=
  rankOk_of_idle h.pc h.transit h.tmp h.failed

theorem ResultsOk.init (h : (system net).init s) : ResultsOk net s := by
  obtain ⟨hseg, hrank⟩ := h
  have hpc : ∀ q, (s.rank q).pc = .idle := fun q => (hrank q).pc
  refine ⟨⟨fun w q => ?_, fun w => ?_⟩, fun q => (hrank q).ok, fun w => ?_, fun q => ?_⟩
  · rw [(hseg w).state, hpc]
    exact iff_of_false nofun nofun
  · rw [(hseg w).state, hpc]
    exact iff_of_false nofun nofun
  · rw [lagAt_eq_zero (by rw [(hseg w).state]; nofun)]
    exact (hseg w).ok (by rw [hpc]; nofun) fun q => by simp only [carriedTo, hpc]; rfl
  · rw [hpc]
    trivial

theorem results_invariant (net : Network n) : (system net).Invariant (ResultsOk net) where
  init _ := ResultsOk.init
  step _ _ _ _ h hs := h.step (h.stepped hs)

end Titus.Results
