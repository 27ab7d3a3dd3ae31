import Titus.Results.Invariant

/-! Every step keeps what holds of the locks and of the segments. -/

namespace Titus.Results

variable {n : ℕ} {net : Network n} {r v : Fin n} {s s' : State n} {a : Action n}
  {m : BufferedSegment n} {t : RankResults n}

/-! ### What a push leaves behind -/

/-- What follows a push that has reserved nothing, at each place that a push is made. -/
theorem RankOk.giveUp (h : RankOk net r m t) (p : Push n) (selected : List Bool) :
    p.site = .tmp ∧ giveUp m t p selected = { t with pc := .checking } ∨
      (∃ i, p.site = .transit i) ∧ giveUp m t p selected = { t with pc := .idle } ∨
      p.site = .group ∧ giveUp m t p selected = settled m t p.target selected := by
  unfold Results.giveUp
  split
  · exact .inl ⟨‹_›, rfl⟩
  · exact .inr (.inl ⟨⟨_, ‹_›⟩, rfl⟩)
  · exact .inr (.inr ⟨‹_›, h.settleGroup p.target selected⟩)

/-- The end of a push, at each place that a push is made. -/
theorem RankOk.settle (h : RankOk net r m t) (p : Push n) (res : Reservation n) :
    p.site = .tmp ∧ settle m t p res = { t with tmp := none, pc := .idle } ∨
      (∃ i, p.site = .transit i ∧ settle m t p res = { t with
        localTransitingResults := t.localTransitingResults.eraseIdx i, pc := .idle }) ∨
      p.site = .group ∧ settle m t p res = settled m t p.target res.selected := by
  unfold Results.settle
  split
  · exact .inl ⟨‹_›, rfl⟩
  · exact .inr (.inl ⟨_, ‹_›, rfl⟩)
  · exact .inr (.inr ⟨‹_›, h.settleGroup p.target res.selected⟩)

/-- The point `pc` follows a push made at `site`. -/
structure After (pc : ResultPc n) (site : PushSite) : Prop where
  locked : pc.locked = none
  carried : ∀ v, pc.carriedTo v = none
  lag : pc.lag = 0
  flushing : pc.flushing = (site = .group)
  drained : pc.drained = (site = .group)
  waiting : ∀ i, pc ≠ .waiting i

theorem After.checking : After (.checking : ResultPc n) .tmp :=
  ⟨rfl, fun _ => rfl, rfl, by simp [ResultPc.flushing],
    by simp [ResultPc.drained], nofun⟩

theorem After.idle {site : PushSite} (h : site ≠ .group) : After (.idle : ResultPc n) site :=
  ⟨rfl, fun _ => rfl, rfl, by simp [ResultPc.flushing, h],
    by simp [ResultPc.drained, h], nofun⟩

theorem After.grouping (c : ℕ) : After (.grouping c : ResultPc n) .group :=
  ⟨rfl, fun _ => rfl, rfl, by simp [ResultPc.flushing],
    by simp [ResultPc.drained], nofun⟩

theorem RankOk.after_giveUp (h : RankOk net r m t) (p : Push n) (selected : List Bool) :
    After (Results.giveUp m t p selected).pc p.site := by
  rcases h.giveUp p selected with ⟨hp, heq⟩ | ⟨⟨i, hp⟩, heq⟩ | ⟨hp, heq⟩ <;> rw [hp, heq]
  · exact .checking
  · exact .idle nofun
  · exact .grouping _

theorem RankOk.after_settle (h : RankOk net r m t) (p : Push n) (res : Reservation n) :
    After (Results.settle m t p res).pc p.site := by
  rcases h.settle p res with ⟨hp, heq⟩ | ⟨i, hp, heq⟩ | ⟨hp, heq⟩ <;> rw [hp, heq]
  · exact .idle nofun
  · exact .idle nofun
  · exact .grouping _

/-! ### Locks -/

/-- A step of rank `r` that may change the lock of the segment of rank `v`. -/
theorem LocksOk.update (h : LocksOk s)
    (hother : ∀ q ≠ r, m.state = .rank q ↔ (s.segment v).state = .rank q)
    (hlock : m.state = .rank r ↔ t.pc.locked = some v)
    (hlocked : ∀ w ≠ v, t.pc.locked = some w ↔ (s.rank r).pc.locked = some w)
    (hflush : m.state = .copyInProgress ↔ if v = r then t.pc.flushing else (s.rank v).pc.flushing)
    (hflushing : v ≠ r → t.pc.flushing = (s.rank r).pc.flushing) :
    LocksOk ((s.setSegment v m).setRank r t) := by
  refine ⟨fun w q => ?_, fun w => ?_⟩ <;>
    simp only [State.segment_setRank, State.segment_setSegment, State.rank_setRank,
      State.rank_setSegment]
  · by_cases hw : w = v
    · subst hw
      rw [Function.update_self]
      by_cases hq : q = r
      · subst hq
        rwa [Function.update_self]
      · rw [Function.update_of_ne hq, hother q hq]
        exact h.lock w q
    · rw [Function.update_of_ne hw]
      by_cases hq : q = r
      · subst hq
        rw [Function.update_self, hlocked w hw]
        exact h.lock w q
      · rw [Function.update_of_ne hq]
        exact h.lock w q
  · by_cases hw : w = v
    · subst hw
      rw [Function.update_self, hflush]
      by_cases hwr : w = r
      · subst hwr
        rw [if_pos rfl, Function.update_self]
      · rw [if_neg hwr, Function.update_of_ne hwr]
    · rw [Function.update_of_ne hw]
      by_cases hwr : w = r
      · subst hwr
        rw [Function.update_self, hflushing (Ne.symm hw)]
        exact h.flush w
      · rw [Function.update_of_ne hwr]
        exact h.flush w

/-- A step that keeps the locks. -/
theorem LocksOk.keep (h : LocksOk s) (hst : m.state = (s.segment v).state)
    (hlocked : t.pc.locked = (s.rank r).pc.locked)
    (hflushing : t.pc.flushing = (s.rank r).pc.flushing) :
    LocksOk ((s.setSegment v m).setRank r t) := by
  refine h.update (fun q _ => by rw [hst]) ?_ (fun w _ => by rw [hlocked]) ?_ fun _ => hflushing
  · rw [hst, hlocked]
    exact h.lock v r
  · rw [hst, h.flush v]
    split
    · rename_i hvr
      rw [hflushing, hvr]
    · exact Iff.rfl

theorem LocksOk.setRank (h : LocksOk s) (hlocked : t.pc.locked = (s.rank r).pc.locked)
    (hflushing : t.pc.flushing = (s.rank r).pc.flushing) : LocksOk (s.setRank r t) := by
  have := h.keep (v := r) (m := s.segment r) rfl hlocked hflushing
  rwa [State.setSegment_self] at this

/-- Rank `r` releases the lock of the segment of `v`. -/
theorem LocksOk.release (h : LocksOk s) (hpc : (s.rank r).pc.locked = some v)
    (hst : m.state = .segmentAvailable) (hlocked : t.pc.locked = none)
    (hflushing : t.pc.flushing = (s.rank r).pc.flushing) :
    LocksOk ((s.setSegment v m).setRank r t) := by
  have hold := (h.lock v r).mpr hpc
  refine h.update (fun q hq => ?_) (by rw [hst, hlocked]; exact iff_of_false nofun nofun)
    (fun w hw => ?_) ?_ fun _ => hflushing
  · rw [hst, hold]
    exact iff_of_false nofun fun heq => hq (ResultLock.rank.inj heq).symm
  · rw [hlocked, hpc]
    exact iff_of_false nofun fun heq => hw (Option.some.inj heq).symm
  · have hnot : ¬ (s.rank v).pc.flushing := by
      rw [← h.flush v, hold]
      nofun
    rw [hst]
    refine iff_of_false nofun ?_
    split
    · rename_i hvr
      rwa [hflushing, ← hvr]
    · exact hnot

theorem LocksOk.stepped (h : LocksOk s) (hrank : ∀ q, RankOk net q (s.segment q) (s.rank q))
    (hs : Stepped net s r a s') : LocksOk s' := by
  have hr := hrank r
  cases hs with
  | pushOwn => exact h.setRank rfl rfl
  | pushTmp => exact h.setRank rfl rfl
  | flush hpc | startTmp hpc | empty hpc | occupied hpc | bounded hpc =>
    exact h.setRank (by rw [hpc]; rfl) (by rw [hpc]; rfl)
  | pushTransit i x hx hpc => exact h.setRank (by rw [hpc]; rfl) (by rw [hpc]; rfl)
  | spin => exact h
  | waited i hpc => exact h.setRank (by rw [hpc]; rfl) (by rw [hpc]; rfl)
  | collect hpc => exact h.setRank (by rw [hpc]; rfl) (by rw [hpc]; rfl)
  | submit => exact h.setRank rfl rfl
  | group c k hpc => exact h.setRank (by rw [hpc]; rfl) (by rw [hpc]; rfl)
  | grouped c hpc => exact h.setRank (by rw [hpc]; rfl) (by rw [hpc]; rfl)
  | purge hpc => exact h.keep rfl (by rw [hpc]; rfl) (by rw [hpc]; rfl)
  | consume i hpc => exact h.keep rfl (by rw [hpc]; rfl) (by rw [hpc]; rfl)
  | lockOwn hpc hst =>
    refine h.update (fun q _ => ?_) (iff_of_false nofun nofun) (fun w _ => ?_)
      (by rw [if_pos rfl]; exact iff_of_true rfl rfl) fun hne => absurd rfl hne
    · rw [hst]
      exact iff_of_false nofun nofun
    · rw [hpc]
      exact iff_of_false nofun nofun
  | unlockOwn hpc =>
    have hst := (h.flush r).mpr (by rw [hpc]; rfl)
    refine h.update (fun q _ => ?_) (iff_of_false nofun nofun) (fun w _ => ?_)
      (by rw [if_pos rfl]; exact iff_of_false nofun nofun) fun hne => absurd rfl hne
    · rw [hst]
      exact iff_of_false nofun nofun
    · rw [hpc]
      exact iff_of_false nofun nofun
  | lockFailed p hpc hst =>
    have hafter := hr.after_giveUp p []
    exact h.setRank (hafter.locked.trans (by rw [hpc]; rfl))
      (Bool.eq_iff_iff.mpr (by rw [hafter.flushing, hpc]; simp [ResultPc.flushing]))
  | lockTaken p hpc hst =>
    refine h.update (fun q hq => ?_) (iff_of_true rfl rfl) (fun w hw => ?_) ?_
      fun _ => by rw [hpc]; rfl
    · rw [hst]
      exact iff_of_false (fun heq => hq (ResultLock.rank.inj heq).symm) nofun
    · rw [hpc]
      exact iff_of_false (fun heq => hw (Option.some.inj heq).symm) nofun
    · have hnot : ¬ (s.rank p.target).pc.flushing := by
        rw [← h.flush, hst]
        nofun
      refine iff_of_false nofun ?_
      split
      · rename_i hvr
        rw [hvr, hpc] at hnot
        exact hnot
      · exact hnot
  | select p res hpc =>
    refine h.setRank ?_ ?_ <;> rw [hpc] <;> split <;> rfl
  | addHead p res hpc => exact h.keep rfl (by rw [hpc]; rfl) (by rw [hpc]; rfl)
  | addCount p res hpc => exact h.keep rfl (by rw [hpc]; rfl) (by rw [hpc]; rfl)
  | releaseEmpty p res hpc =>
    have hafter := hr.after_giveUp p res.selected
    exact h.release (by rw [hpc]; rfl) rfl hafter.locked
      (Bool.eq_iff_iff.mpr (by rw [hafter.flushing, hpc]; simp [ResultPc.flushing]))
  | release p res hpc => exact h.release (by rw [hpc]; rfl) rfl rfl (by rw [hpc]; rfl)
  | post p res hpc =>
    have hafter := hr.after_settle p res
    exact h.keep rfl (hafter.locked.trans (by rw [hpc]; rfl))
      (Bool.eq_iff_iff.mpr (by rw [hafter.flushing, hpc]; simp [ResultPc.flushing]))
  | land i w off b e hb hw =>
    have := h.keep (r := r) (v := r) (t := s.rank r) (m := { s.segment r with
      area := Tiling.put BufferElt.bufferEntrySize (s.segment r).area off e
      inbox := (s.segment r).inbox.set i { b with writes := b.writes.eraseIdx w } }) rfl rfl rfl
    rwa [← State.rank_setSegment s r, State.setRank_self] at this
  | deliver i b hb hw =>
    have := h.keep (r := r) (v := r) (t := s.rank r) (m := { s.segment r with
      notifications := Function.update (s.segment r).notifications b.first b.length
      inbox := (s.segment r).inbox.eraseIdx i }) rfl rfl rfl
    rwa [← State.rank_setSegment s r, State.setRank_self] at this

/-! ### Segments -/

section Segments

variable {pc pc' : ResultPc n} {carried : Fin n → Option (Message n)} {lag : ℕ}

theorem flushing_of_drained (h : pc.drained) : pc.flushing := by
  cases pc <;> simp_all [ResultPc.drained, ResultPc.flushing]

theorem SegmentOk.setPc (h : SegmentOk m pc carried lag) (hwait : ∀ i, pc' ≠ .waiting i)
    (hdrained : pc'.drained → pc.drained) : SegmentOk m pc' carried lag :=
  { h with
    waiting := fun i hi => absurd hi (hwait i)
    drained := fun hd => h.drained (hdrained hd) }

/-- A rank that is not in a flush may be at any other such point. -/
theorem SegmentOk.setPc_of_not_flushing (h : SegmentOk m pc carried lag) (hpc : ¬ pc'.flushing) :
    SegmentOk m pc' carried lag :=
  h.setPc (fun i hi => hpc (by rw [hi]; rfl)) fun hd => absurd (flushing_of_drained hd) hpc

theorem SegmentOk.not_drained (h : SegmentOk m pc carried lag) {b : Message n}
    (hb : Announcement.Pending m.inbox carried b) : ¬ pc.drained :=
  fun hd => (h.drained hd).1 b hb

theorem carriedTo_setRank (s : State n) (r : Fin n) (t : RankResults n) (v : Fin n) :
    carriedTo (s.setRank r t) v = Function.update (carriedTo s v) r (t.pc.carriedTo v) := by
  funext q
  by_cases hq : q = r
  · subst hq
    simp [carriedTo]
  · simp [carriedTo, Function.update_of_ne hq]

theorem carriedTo_eq (h : t.pc.carriedTo v = (s.rank r).pc.carriedTo v) :
    Function.update (carriedTo s v) r (t.pc.carriedTo v) = carriedTo s v := by
  rw [h]
  exact Function.update_eq_self r (carriedTo s v)

theorem lagAt_setRank (hlag : t.pc.lag = (s.rank r).pc.lag) (v : Fin n) :
    lagAt (s.setRank r t) v = lagAt s v := by
  unfold lagAt
  simp only [State.segment_setRank, State.rank_setRank]
  split
  · rename_i q hq
    by_cases hqr : q = r
    · subst hqr
      rw [Function.update_self, hlag]
    · rw [Function.update_of_ne hqr]
  · rfl

/-- A step of rank `r` that changes the segment of `v` and has no other segment locked. -/
theorem ResultsOk.segments_update (h : ResultsOk net s)
    (hv : SegmentOk m (if v = r then t.pc else (s.rank v).pc)
      (Function.update (carriedTo s v) r (t.pc.carriedTo v))
      (lagAt ((s.setSegment v m).setRank r t) v))
    (hcarried : ∀ w ≠ v, t.pc.carriedTo w = (s.rank r).pc.carriedTo w)
    (hlocked : ∀ w ≠ v, (s.rank r).pc.locked ≠ some w)
    (hwait : v ≠ r → ∀ i, t.pc ≠ .waiting i)
    (hdrained : v ≠ r → t.pc.drained → (s.rank r).pc.drained) (w : Fin n) :
    SegmentOk (((s.setSegment v m).setRank r t).segment w)
      (((s.setSegment v m).setRank r t).rank w).pc
      (carriedTo ((s.setSegment v m).setRank r t) w)
      (lagAt ((s.setSegment v m).setRank r t) w) := by
  rw [carriedTo_setRank]
  by_cases hw : w = v
  · subst hw
    simp only [State.segment_setRank, State.segment_setSegment, State.rank_setRank,
      State.rank_setSegment, Function.update_self]
    by_cases hwr : w = r
    · subst hwr
      rw [if_pos rfl] at hv
      rwa [Function.update_self]
    · rw [if_neg hwr] at hv
      rwa [Function.update_of_ne hwr]
  · have hseg := h.segment w
    have hlag : lagAt ((s.setSegment v m).setRank r t) w = lagAt s w := by
      unfold lagAt
      simp only [State.segment_setRank, State.segment_setSegment, State.rank_setRank,
        State.rank_setSegment, Function.update_of_ne hw]
      split
      · rename_i q hq
        have hqr : q ≠ r := by
          rintro rfl
          exact hlocked w hw ((h.locks.lock w q).mp hq)
        rw [Function.update_of_ne hqr]
      · rfl
    rw [hlag]
    have hcw : carriedTo (s.setSegment v m) w = carriedTo s w := rfl
    simp only [State.segment_setRank, State.segment_setSegment, State.rank_setRank,
      State.rank_setSegment, Function.update_of_ne hw]
    rw [hcw, carriedTo_eq (hcarried w hw)]
    by_cases hwr : w = r
    · subst hwr
      rw [Function.update_self]
      exact hseg.setPc (hwait (Ne.symm hw)) (hdrained (Ne.symm hw))
    · rw [Function.update_of_ne hwr]
      exact hseg

end Segments

/-! ### Steps that change a segment -/

section Steps

variable {pc : ResultPc n} {carried : Fin n → Option (Message n)} {lag : ℕ}

/-- The state word says nothing about the elements. -/
theorem SegmentOk.setState (h : SegmentOk m pc carried lag) (state : ResultLock n) :
    SegmentOk { m with state } pc carried lag :=
  ⟨h.tiles, h.head_lt, h.count, h.length_le, h.sound, h.delivery, h.waiting, h.drained⟩

theorem SegmentOk.startWait (h : SegmentOk m pc carried lag) :
    SegmentOk m (.waiting 0) carried lag :=
  { h with
    waiting := fun i hi => by
      cases hi
      exact Announcement.Passed.zero
    drained := nofun }

theorem SegmentOk.consume {i : ℕ} (h : SegmentOk m (.waiting i) carried lag)
    (hi : m.notifications i ≠ 0) :
    SegmentOk { m with notifications := Function.update m.notifications i 0 }
      (.waiting (i + m.notifications i)) carried lag where
  tiles := h.tiles
  head_lt := h.head_lt
  count := h.count
  length_le := h.length_le
  sound := h.sound
  delivery := h.delivery.consume i
  waiting := fun j hj => by
    cases hj
    exact (h.waiting i rfl).consume h.delivery hi
  drained := nofun

/-- Past the last element nothing is on its way any more. -/
theorem SegmentOk.waited {i : ℕ} (h : SegmentOk m (.waiting i) carried lag)
    (hi : m.reserved.length ≤ i) : SegmentOk m .collecting carried lag :=
  { h with
    waiting := nofun
    drained := fun _ => ⟨(h.waiting i rfl).not_pending h.delivery hi,
      (h.waiting i rfl).announced_eq_zero h.delivery hi⟩ }

theorem SegmentOk.purge (h : SegmentOk m .purging carried lag) :
    SegmentOk (Results.purge m) .unlocking carried 0 := by
  obtain ⟨hno, hzero⟩ := h.drained rfl
  have hle := h.tiles.le
  have hlt := h.head_lt
  refine ⟨rfl, ?_, rfl, Nat.zero_le _, nofun, .empty hno hzero, nofun, fun _ => ⟨hno, hzero⟩⟩
  simp only [Results.purge]
  omega

/-- Space is reserved for `elts`. -/
theorem SegmentOk.addHead (h : SegmentOk m pc carried 0) {elts : List (BufferElt n)}
    (hne : elts ≠ []) (hsound : ∀ e ∈ elts, e.Sound)
    (hroom : m.bufferHead + toReserve elts < m.segmentSize)
    (hlimit : m.bufferEltCount + elts.length ≤ maxBufferElts) (hpc : ¬ pc.flushing)
    (hr : carried r = none) :
    SegmentOk { m with
        bufferHead := m.bufferHead + toReserve elts
        reserved := m.reserved ++ Tiling.layOut BufferElt.bufferEntrySize m.bufferHead elts }
      pc (Function.update carried r (some ⟨m.bufferEltCount, elts.length,
        Tiling.layOut BufferElt.bufferEntrySize m.bufferHead elts⟩)) elts.length := by
  have hcount := h.count
  have hlen : (Tiling.layOut BufferElt.bufferEntrySize m.bufferHead elts).length = elts.length :=
    Tiling.length_layOut _ _
  have hnew : Tiling.layOut BufferElt.bufferEntrySize m.bufferHead elts ≠ [] :=
    Tiling.layOut_ne_nil _ hne
  refine ⟨h.tiles.append (Tiling.tiles_layOut _ _), hroom, ?_, ?_, ?_, ?_,
    fun i hi => absurd (by rw [hi]; rfl) hpc, fun hd => absurd (flushing_of_drained hd) hpc⟩
  · simp only [List.length_append, hlen]
    omega
  · simp only [List.length_append, hlen]
    omega
  · intro w hw
    rcases List.mem_append.mp hw with hw | hw
    · exact h.sound w hw
    · have hmem := List.mem_map_of_mem (f := Prod.snd) hw
      rw [Tiling.map_layOut] at hmem
      exact hsound w.2 hmem
  · have := h.delivery.reserve hnew hr
    rwa [hlen, show m.reserved.length = m.bufferEltCount by omega] at this

theorem SegmentOk.addCount {c : ℕ} (h : SegmentOk m pc carried c) :
    SegmentOk { m with bufferEltCount := m.bufferEltCount + c } pc carried 0 :=
  ⟨h.tiles, h.head_lt, h.count, h.length_le, h.sound, h.delivery, h.waiting, h.drained⟩

/-- Writing an element at its place keeps the elements that are already there. -/
theorem SegmentOk.put (h : SegmentOk m pc carried lag) {w w' : ℕ × BufferElt n}
    (hw : w ∈ m.reserved) (hw' : w' ∈ m.reserved) (harea : m.area w'.1 = some w'.2) :
    Tiling.put BufferElt.bufferEntrySize m.area w.1 w.2 w'.1 = some w'.2 := by
  obtain ⟨i, hi, rfl⟩ := List.getElem_of_mem hw
  obtain ⟨j, hj, rfl⟩ := List.getElem_of_mem hw'
  by_cases hij : i = j
  · subst hij
    exact Tiling.put_self _ _ _
  · refine Tiling.put_of_disjoint harea ?_ (bufferEntrySize_pos _) (bufferEntrySize_pos _)
    exact h.tiles.disjoint (List.getElem?_eq_getElem hi) (List.getElem?_eq_getElem hj) hij

/-- The message of a push is posted. -/
theorem SegmentOk.post (h : SegmentOk m pc carried lag) {p : Push n} {res : Reservation n}
    (hr : carried r = some ⟨res.count, res.elts.length,
      Tiling.layOut BufferElt.bufferEntrySize res.head res.elts⟩)
    (htmp : p.site = .tmp → t.tmp.toList = res.elts) :
    SegmentOk (Results.post m t p res) pc (Function.update carried r none) lag := by
  have hpending : Announcement.Pending m.inbox carried _ := .inr ⟨r, hr⟩
  have hwrites : (message p res).writes ⊆
      Tiling.layOut BufferElt.bufferEntrySize res.head res.elts := by
    simp only [message]
    split
    · exact List.nil_subset _
    · exact List.Subset.refl _
  have hmessage : Results.post m t p res = { m with
      area := (Results.post m t p res).area
      inbox := m.inbox ++ [⟨res.count, res.elts.length, (message p res).writes⟩] } := rfl
  have hreserved : ∀ w ∈ Tiling.layOut BufferElt.bufferEntrySize res.head res.elts,
      w ∈ m.reserved := by
    intro w hw
    obtain ⟨j, -, hj⟩ := h.delivery.writes _ hpending w hw
    exact List.mem_of_getElem? hj
  -- the elements that the push copies itself are there, and the others stay
  have harea : (∀ w ∈ m.reserved, m.area w.1 = some w.2 →
        (Results.post m t p res).area w.1 = some w.2) ∧
      ∀ w ∈ Tiling.layOut BufferElt.bufferEntrySize res.head res.elts,
        (Results.post m t p res).area w.1 = some w.2 ∨ w ∈ (message p res).writes := by
    by_cases hp : p.site = .tmp
    · cases ht : t.tmp with
      | none =>
        have helts : res.elts = [] := by rw [← htmp hp, ht]; rfl
        simp only [Results.post, hp, ht, helts]
        exact ⟨fun _ _ hw => hw, nofun⟩
      | some e =>
        have helts : res.elts = [e] := by rw [← htmp hp, ht]; rfl
        have he : (res.head, e) ∈ m.reserved :=
          hreserved _ (by rw [helts]; exact List.mem_cons_self ..)
        simp only [Results.post, hp, ht, helts]
        refine ⟨fun w hw => h.put he hw, fun w hw => .inl ?_⟩
        rw [List.mem_singleton.mp hw]
        exact Tiling.put_self _ _ _
    · have hsame : (Results.post m t p res).area = m.area := by
        simp only [Results.post]
        split
        · exact absurd ‹_› hp
        · rfl
      have hall : (message p res).writes =
          Tiling.layOut BufferElt.bufferEntrySize res.head res.elts := by
        simp only [message]
      rw [hsame, hall]
      exact ⟨fun _ _ hw => hw, fun _ hw => .inr hw⟩
  rw [hmessage]
  refine ⟨h.tiles, h.head_lt, h.count, h.length_le, h.sound, ?_, fun i hi => ?_,
    fun hd => absurd hd (h.not_drained hpending)⟩
  · exact h.delivery.post hr hwrites harea.1 harea.2
  · exact (h.waiting i hi).shrink (Announcement.pending_post hr hwrites)

theorem SegmentOk.land (h : SegmentOk m pc carried lag) {i w off : ℕ} {b : Message n}
    {e : BufferElt n} (hb : m.inbox[i]? = some b) (hw : b.writes[w]? = some (off, e)) :
    SegmentOk { m with
        area := Tiling.put BufferElt.bufferEntrySize m.area off e
        inbox := m.inbox.set i { b with writes := b.writes.eraseIdx w } }
      pc carried lag := by
  have hpending : Announcement.Pending m.inbox carried b := .inl (List.mem_of_getElem? hb)
  obtain ⟨j, -, hj⟩ := h.delivery.writes b hpending _ (List.mem_of_getElem? hw)
  refine ⟨h.tiles, h.head_lt, h.count, h.length_le, h.sound, ?_, fun i hi => ?_,
    fun hd => absurd hd (h.not_drained hpending)⟩
  · exact h.delivery.arrive hb hw (fun w' hw' => h.put (List.mem_of_getElem? hj) hw')
      (Tiling.put_self _ _ _)
  · exact (h.waiting i hi).shrink (Announcement.pending_arrive hb)

theorem SegmentOk.deliver (h : SegmentOk m pc carried lag) {i : ℕ} {b : Message n}
    (hb : m.inbox[i]? = some b) (hw : b.writes = []) :
    SegmentOk { m with
        notifications := Function.update m.notifications b.first b.length
        inbox := m.inbox.eraseIdx i }
      pc carried lag := by
  have hpending : Announcement.Pending m.inbox carried b := .inl (List.mem_of_getElem? hb)
  exact ⟨h.tiles, h.head_lt, h.count, h.length_le, h.sound, h.delivery.announce hb hw,
    fun j hj => (h.waiting j hj).announce hb, fun hd => absurd hd (h.not_drained hpending)⟩

/-- The elements that a push offers are sound. -/
theorem RankOk.sound_offered (h : RankOk net r m t) (p : Push n) :
    ∀ e ∈ offered m.area t p, e.Sound := by
  have hentry : ∀ x ∈ t.localTransitingResults, ∀ e, x.elt m.area = some e → e.Sound := by
    intro x hx e he
    obtain ⟨e', he'⟩ := h.entries x hx
    rw [he'.elt] at he
    cases he
    exact he'.sound
  intro e he
  unfold offered at he
  split at he
  · exact (h.tmp e (Option.mem_toList.mp he)).1
  · obtain ⟨x, hx, hxe⟩ := Option.bind_eq_some_iff.mp (Option.mem_toList.mp he)
    exact hentry x (List.mem_of_getElem? hx) e hxe
  · obtain ⟨x, hx, hxe⟩ := List.mem_filterMap.mp he
    exact hentry x (List.mem_of_mem_filter hx) e hxe

/-- A push of the tmp segment's content has selected that, once it has selected something. -/
theorem RankOk.tmp_selected (h : RankOk net r m t) {p : Push n} {res : Reservation n}
    (hpc : t.pc.selected = some (p, res)) (hne : res.elts ≠ []) (hp : p.site = .tmp) :
    t.tmp.toList = res.elts := by
  have hsel := h.selected p res hpc
  simp only [offered, hp] at hsel
  have hsub := hsel ▸ Selection.pick_sublist res.selected t.tmp.toList
  cases ht : t.tmp with
  | none =>
    rw [ht] at hsub
    exact absurd (List.sublist_nil.mp hsub) hne
  | some e =>
    rw [ht] at hsub
    exact (hsub.eq_of_length_le (List.length_pos_iff.mpr hne)).symm

end Steps

/-! ### All segments -/

section AllSegments

/-- From the point `pc` to `pc'` a rank does nothing that concerns a segment. -/
structure Continues (pc pc' : ResultPc n) : Prop where
  carried : ∀ v, pc'.carriedTo v = pc.carriedTo v
  lag : pc'.lag = pc.lag
  waiting : ∀ i, pc' ≠ .waiting i
  drained : pc'.drained → pc.drained

theorem Continues.of_after {pc : ResultPc n} {p : Push n} (h : After pc p.site)
    (hcarried : ∀ v, (s.rank r).pc.carriedTo v = none) (hlag : (s.rank r).pc.lag = 0)
    (hdrained : p.site = .group → (s.rank r).pc.drained) : Continues (s.rank r).pc pc :=
  ⟨fun v => (h.carried v).trans (hcarried v).symm, h.lag.trans hlag.symm, h.waiting,
    fun hd => hdrained (by rwa [h.drained] at hd)⟩

/-- A step of rank `r` that changes no segment. -/
theorem ResultsOk.segments_setRank (h : ResultsOk net s) (hpc : Continues (s.rank r).pc t.pc)
    (w : Fin n) :
    SegmentOk ((s.setRank r t).segment w) ((s.setRank r t).rank w).pc
      (carriedTo (s.setRank r t) w) (lagAt (s.setRank r t) w) := by
  rw [carriedTo_setRank, carriedTo_eq (hpc.carried w), lagAt_setRank hpc.lag]
  simp only [State.segment_setRank, State.rank_setRank]
  by_cases hwr : w = r
  · subst hwr
    rw [Function.update_self]
    exact (h.segment w).setPc hpc.waiting hpc.drained
  · rw [Function.update_of_ne hwr]
    exact h.segment w

/-- A step of rank `r` that changes its own segment and is not part of a push. -/
theorem ResultsOk.segments_own (h : ResultsOk net s) (hlocked : (s.rank r).pc.locked = none)
    (hcarried : ∀ w, t.pc.carriedTo w = (s.rank r).pc.carriedTo w)
    (hstate : ∀ q, m.state ≠ .rank q) (hr : SegmentOk m t.pc (carriedTo s r) 0) (w : Fin n) :
    SegmentOk (((s.setSegment r m).setRank r t).segment w)
      (((s.setSegment r m).setRank r t).rank w).pc
      (carriedTo ((s.setSegment r m).setRank r t) w)
      (lagAt ((s.setSegment r m).setRank r t) w) := by
  refine h.segments_update ?_ (fun w _ => hcarried w) (fun w _ => ?_) (fun hne => absurd rfl hne)
    (fun hne => absurd rfl hne) w
  · rw [if_pos rfl, carriedTo_eq (hcarried r), lagAt_eq_zero (by simpa using hstate)]
    exact hr
  · rw [hlocked]
    nofun

/-- A step of a push on rank `r` while it has the target's segment locked, or that locks it. -/
theorem ResultsOk.segments_target (h : ResultsOk net s)
    (hlocked : ∀ w ≠ v, (s.rank r).pc.locked ≠ some w)
    (hnot : (s.segment v).state ≠ .copyInProgress)
    (hflushing : t.pc.flushing = (s.rank r).pc.flushing)
    (hcarried : ∀ w ≠ v, t.pc.carriedTo w = (s.rank r).pc.carriedTo w)
    (hwait : ∀ i, t.pc ≠ .waiting i) (hdrained : t.pc.drained → (s.rank r).pc.drained)
    (hlag : (m.state = .rank r ∧ lag = t.pc.lag) ∨ (m.state = .segmentAvailable ∧ lag = 0))
    (hv : SegmentOk m (s.rank v).pc (Function.update (carriedTo s v) r (t.pc.carriedTo v)) lag)
    (w : Fin n) :
    SegmentOk (((s.setSegment v m).setRank r t).segment w)
      (((s.setSegment v m).setRank r t).rank w).pc
      (carriedTo ((s.setSegment v m).setRank r t) w)
      (lagAt ((s.setSegment v m).setRank r t) w) := by
  refine h.segments_update ?_ hcarried hlocked (fun _ => hwait) (fun _ => hdrained) w
  have hpc : ¬ (s.rank v).pc.flushing := by rwa [← h.locks.flush]
  have heq : lagAt ((s.setSegment v m).setRank r t) v = lag := by
    unfold lagAt
    rcases hlag with ⟨hst, rfl⟩ | ⟨hst, rfl⟩ <;> simp [hst]
  rw [heq]
  refine hv.setPc_of_not_flushing ?_
  split
  · rename_i hvr
    rwa [hflushing, ← hvr]
  · exact hpc

/-- Something arrives on the segment of rank `v`. -/
theorem ResultsOk.segments_arrival (h : ResultsOk net s) (hstate : m.state = (s.segment v).state)
    (hv : SegmentOk m (s.rank v).pc (carriedTo s v) (lagAt s v)) (w : Fin n) :
    SegmentOk ((s.setSegment v m).segment w) ((s.setSegment v m).rank w).pc
      (carriedTo (s.setSegment v m) w) (lagAt (s.setSegment v m) w) := by
  have hlag : lagAt (s.setSegment v m) w = lagAt s w := by
    unfold lagAt
    simp only [State.segment_setSegment, State.rank_setSegment]
    by_cases hw : w = v
    · subst hw
      rw [Function.update_self, hstate]
    · rw [Function.update_of_ne hw]
  rw [hlag]
  simp only [State.segment_setSegment, State.rank_setSegment]
  by_cases hw : w = v
  · subst hw
    rw [Function.update_self]
    exact hv
  · rw [Function.update_of_ne hw]
    exact h.segment w

end AllSegments

/-! ### The steps -/

section Stepped

theorem ResultsOk.segments_addHead (h : ResultsOk net s) {p : Push n} {res : Reservation n}
    (hpc : (s.rank r).pc = .addingHead p res) (w : Fin n) :
    let s' := (s.setSegment p.target { s.segment p.target with
      bufferHead := (s.segment p.target).bufferHead + toReserve res.elts
      reserved := (s.segment p.target).reserved ++ Tiling.layOut BufferElt.bufferEntrySize
        (s.segment p.target).bufferHead res.elts }).setRank r
      { s.rank r with pc := .addingCount p res }
    SegmentOk (s'.segment w) (s'.rank w).pc (carriedTo s' w) (lagAt s' w) := by
  have hr := h.rank r
  have hst := (h.locks.lock p.target r).mpr (by rw [hpc]; rfl)
  have hlag : lagAt s p.target = 0 := by simp only [lagAt, hst, hpc, ResultPc.lag]
  have hres := h.reservation r
  simp only [ReservationOk, hpc] at hres
  obtain ⟨hhead, hcount, hroom, hlimit⟩ := hres
  have hne := hr.nonempty p res (.inl hpc)
  have hsound : ∀ e ∈ res.elts, e.Sound := by
    intro e he
    rw [hr.selected p res (by rw [hpc]; rfl)] at he
    exact hr.sound_offered p e ((Selection.pick_sublist _ _).subset he)
  have htarget := h.segment p.target
  rw [hlag] at htarget
  have hnot : (s.segment p.target).state ≠ .copyInProgress := by rw [hst]; rintro ⟨⟩
  have hcarried : (ResultPc.addingCount p res).carriedTo p.target =
      some ⟨(s.segment p.target).bufferEltCount, res.elts.length,
        Tiling.layOut BufferElt.bufferEntrySize (s.segment p.target).bufferHead res.elts⟩ := by
    simp [ResultPc.carriedTo, hne, hhead, hcount]
  have hnone : carriedTo s p.target r = none := by
    simp only [carriedTo, hpc, ResultPc.carriedTo]
  refine h.segments_target (fun v hv => ?_) hnot (by rw [hpc]; rfl) (fun v hv => ?_)
    (by rintro _ ⟨⟩) (by rw [hpc]; exact id) (.inl (by exact ⟨hst, rfl⟩)) ?_ w
  · rw [hpc]
    exact fun heq => hv (Option.some.inj heq).symm
  · rw [hpc]
    simp [ResultPc.carriedTo, Ne.symm hv]
  · rw [hcarried]
    exact htarget.addHead hne hsound hroom hlimit (by rwa [← h.locks.flush]) hnone

theorem ResultsOk.segments_post (h : ResultsOk net s) {p : Push n} {res : Reservation n}
    (hpc : (s.rank r).pc = .posting p res) (w : Fin n) :
    let s' := (s.setSegment p.target (post (s.segment p.target) (s.rank r) p res)).setRank r
      (settle (s.segment r) (s.rank r) p res)
    SegmentOk (s'.segment w) (s'.rank w).pc (carriedTo s' w) (lagAt s' w) := by
  have hr := h.rank r
  have hne := hr.nonempty p res (.inr (.inr hpc))
  have hafter := hr.after_settle p res
  have hdrained : (settle (s.segment r) (s.rank r) p res).pc.drained → (s.rank r).pc.drained := by
    intro hd
    rw [hafter.drained] at hd
    simp [hpc, ResultPc.drained, hd]
  have hcarried : (s.rank r).pc.carriedTo p.target = some ⟨res.count, res.elts.length,
      Tiling.layOut BufferElt.bufferEntrySize res.head res.elts⟩ := by
    rw [hpc]
    simp [ResultPc.carriedTo, hne]
  refine h.segments_update ?_ (fun v hv => ?_) (fun v _ => by rw [hpc]; nofun)
    (fun _ => hafter.waiting) (fun _ => hdrained) w
  · have hlag : lagAt ((s.setSegment p.target (post (s.segment p.target) (s.rank r) p
        res)).setRank r (settle (s.segment r) (s.rank r) p res)) p.target = lagAt s p.target := by
      rw [lagAt_setRank (by rw [hafter.lag, State.rank_setSegment, hpc]; rfl)]
      simp only [lagAt, State.segment_setSegment, Function.update_self, Results.post,
        State.rank_setSegment]
    rw [hlag, hafter.carried]
    have hpost := (h.segment p.target).post (t := s.rank r) hcarried
      (hr.tmp_selected (by rw [hpc]; rfl) hne)
    split
    · rename_i hvr
      exact hpost.setPc hafter.waiting fun hd => hvr ▸ hdrained hd
    · exact hpost
  · rw [hafter.carried, hpc]
    simp [ResultPc.carriedTo, Ne.symm hv]

/-- Every step keeps what holds of the segments. -/
theorem ResultsOk.segments_stepped (h : ResultsOk net s) (hs : Stepped net s r a s') (w : Fin n) :
    SegmentOk (s'.segment w) (s'.rank w).pc (carriedTo s' w) (lagAt s' w) := by
  have hr := h.rank r
  have hseg := h.segment r
  -- in a flush the state word has no rank, so that the head is not ahead of the count
  have hflush : (s.rank r).pc.flushing → (s.segment r).state = .copyInProgress ∧ lagAt s r = 0 := by
    intro hf
    have hst := (h.locks.flush r).mpr hf
    exact ⟨hst, lagAt_eq_zero (by rw [hst]; rintro _ ⟨⟩)⟩
  cases hs with
  | spin => exact h.segment w
  | pushOwn _ _ _ _ _ _ _ _ _ hpc | pushTmp _ _ _ _ _ _ _ _ _ hpc =>
    refine h.segments_setRank ?_ w
    exact ⟨fun _ => rfl, rfl, by simp [submitResults, hpc], id⟩
  | submit _ _ _ _ hpc =>
    refine h.segments_setRank ?_ w
    exact ⟨fun _ => rfl, rfl, by simp [submitResults, hpc], id⟩
  | flush hpc | startTmp hpc | empty hpc | occupied hpc | bounded hpc =>
    refine h.segments_setRank ?_ w
    rw [hpc]
    exact ⟨fun _ => rfl, rfl, by rintro _ ⟨⟩, by rintro ⟨⟩⟩
  | pushTransit i x hx hpc =>
    refine h.segments_setRank ?_ w
    rw [hpc]
    exact ⟨fun _ => rfl, rfl, by rintro _ ⟨⟩, by rintro ⟨⟩⟩
  | collect hpc =>
    refine h.segments_setRank ?_ w
    rw [hpc]
    exact ⟨fun _ => rfl, rfl, by rintro _ ⟨⟩, fun _ => rfl⟩
  | group c k hpc | grouped c hpc =>
    refine h.segments_setRank ?_ w
    rw [hpc]
    exact ⟨fun _ => rfl, rfl, by rintro _ ⟨⟩, fun _ => rfl⟩
  | select p res hpc =>
    refine h.segments_setRank ?_ w
    rw [hpc]
    by_cases h0 : res.elts.length = 0
    · simp only [h0, if_true]
      exact ⟨fun _ => by simp [ResultPc.carriedTo, List.length_eq_zero_iff.mp h0], rfl,
        by rintro _ ⟨⟩, id⟩
    · simp only [h0, if_false]
      exact ⟨fun _ => rfl, rfl, by rintro _ ⟨⟩, id⟩
  | lockFailed p hpc =>
    refine h.segments_setRank (Continues.of_after (hr.after_giveUp p []) (fun v => ?_) ?_ ?_) w <;>
      rw [hpc]
    · rfl
    · rfl
    · exact fun hp => by simp [ResultPc.drained, hp]
  | waited i hpc hi =>
    obtain ⟨hst, hlag⟩ := hflush (by rw [hpc]; rfl)
    rw [hpc, hlag] at hseg
    have := h.segments_own (m := s.segment r) (t := { s.rank r with pc := .collecting })
      (by rw [hpc]; rfl) (fun v => by rw [hpc]; rfl) (by rw [hst]; rintro _ ⟨⟩) (hseg.waited hi) w
    rwa [State.setSegment_self] at this
  | lockOwn hpc hst =>
    have hlag : lagAt s r = 0 := lagAt_eq_zero (by rw [hst]; rintro _ ⟨⟩)
    rw [hlag] at hseg
    exact h.segments_own (by rw [hpc]; rfl) (fun v => by rw [hpc]; rfl) (by rintro _ ⟨⟩)
      (hseg.setState _).startWait w
  | consume i hpc hi =>
    obtain ⟨hst, hlag⟩ := hflush (by rw [hpc]; rfl)
    rw [hpc, hlag] at hseg
    exact h.segments_own (by rw [hpc]; rfl) (fun v => by rw [hpc]; rfl) (by simp [hst])
      (hseg.consume hi) w
  | purge hpc =>
    obtain ⟨hst, hlag⟩ := hflush (by rw [hpc]; rfl)
    rw [hpc] at hseg
    exact h.segments_own (by rw [hpc]; rfl) (fun v => by rw [hpc]; rfl)
      (by simp [Results.purge, hst]) hseg.purge w
  | unlockOwn hpc =>
    obtain ⟨hst, hlag⟩ := hflush (by rw [hpc]; rfl)
    rw [hlag] at hseg
    exact h.segments_own (by rw [hpc]; rfl) (fun v => by rw [hpc]; rfl) (by rintro _ ⟨⟩)
      ((hseg.setState _).setPc (by rintro _ ⟨⟩) (by rintro ⟨⟩)) w
  | lockTaken p hpc hst =>
    have htarget := h.segment p.target
    rw [lagAt_eq_zero (by rw [hst]; rintro _ ⟨⟩)] at htarget
    refine h.segments_target (fun v _ => by rw [hpc]; rintro ⟨⟩) (by rw [hst]; rintro ⟨⟩)
      (by rw [hpc]; rfl) (fun v _ => by rw [hpc]; rfl) (by rintro _ ⟨⟩) (by rw [hpc]; exact id)
      (.inl (by exact ⟨rfl, rfl⟩)) ?_ w
    rw [carriedTo_eq (by rw [hpc]; rfl)]
    exact htarget.setState _
  | addHead p res hpc => exact h.segments_addHead hpc w
  | addCount p res hpc =>
    have hst := (h.locks.lock p.target r).mpr (by rw [hpc]; rfl)
    have htarget := h.segment p.target
    rw [show lagAt s p.target = res.elts.length by simp only [lagAt, hst, hpc, ResultPc.lag]]
      at htarget
    refine h.segments_target (fun v hv => ?_) (by rw [hst]; rintro ⟨⟩) (by rw [hpc]; rfl)
      (fun v _ => by rw [hpc]; rfl) (by rintro _ ⟨⟩) (by rw [hpc]; exact id)
      (.inl (by exact ⟨hst, rfl⟩)) ?_ w
    · rw [hpc]
      exact fun heq => hv (Option.some.inj heq).symm
    · rw [carriedTo_eq (by rw [hpc]; rfl)]
      exact htarget.addCount
  | releaseEmpty p res hpc helts =>
    have hst := (h.locks.lock p.target r).mpr (by rw [hpc]; rfl)
    have htarget := h.segment p.target
    rw [show lagAt s p.target = 0 by simp only [lagAt, hst, hpc, ResultPc.lag]] at htarget
    have hafter := hr.after_giveUp p res.selected
    have hcont : Continues (s.rank r).pc (giveUp (s.segment r) (s.rank r) p res.selected).pc := by
      refine .of_after hafter (fun v => ?_) ?_ ?_ <;> rw [hpc]
      · simp [ResultPc.carriedTo, helts]
      · rfl
      · exact fun hp => by simp [ResultPc.drained, hp]
    refine h.segments_target (fun v hv => ?_) (by rw [hst]; rintro ⟨⟩) ?_
      (fun v _ => hcont.carried v) hcont.waiting hcont.drained (.inr (by exact ⟨rfl, rfl⟩)) ?_ w
    · rw [hpc]
      exact fun heq => hv (Option.some.inj heq).symm
    · exact Bool.eq_iff_iff.mpr (by rw [hafter.flushing, hpc]; simp [ResultPc.flushing])
    · rw [carriedTo_eq (hcont.carried p.target)]
      exact htarget.setState _
  | release p res hpc helts =>
    have hst := (h.locks.lock p.target r).mpr (by rw [hpc]; rfl)
    have htarget := h.segment p.target
    rw [show lagAt s p.target = 0 by simp only [lagAt, hst, hpc, ResultPc.lag]] at htarget
    refine h.segments_target (fun v hv => ?_) (by rw [hst]; rintro ⟨⟩) (by rw [hpc]; rfl)
      (fun v _ => by rw [hpc]; rfl) (by rintro _ ⟨⟩) (by rw [hpc]; exact id)
      (.inr (by exact ⟨rfl, rfl⟩)) ?_ w
    · rw [hpc]
      exact fun heq => hv (Option.some.inj heq).symm
    · rw [carriedTo_eq (by rw [hpc]; rfl)]
      exact htarget.setState _
  | post p res hpc => exact h.segments_post hpc w
  | land i j off b e hb hw => exact h.segments_arrival (by rfl) (hseg.land hb hw) w
  | deliver i b hb hw => exact h.segments_arrival (by rfl) (hseg.deliver hb hw) w

end Stepped

end Titus.Results
