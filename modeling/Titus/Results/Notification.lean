import Titus.Lib.BlockChain
import Titus.Results.SegmentInvariant

/-! The notifications of a result segment.  The reservations and the waits since the last purge are
recorded beside the run, and the waits are compared with the reservations. -/

namespace Titus.Results

open Announcement

variable {n : ℕ} {net : Network n} {r v : Fin n} {s s' : State n} {a : Action n}
  {m : BufferedSegment n} {t : RankResults n}

/-! ### Reservations and waits -/

/-- What has happened on a segment since its last purge: the blocks reserved there, each with its
first index and its number of elements, and the waits of the owner, each with its index and the
value of the notification. -/
structure Record where
  blocks : List (ℕ × ℕ)
  waits : List (ℕ × ℕ)
deriving DecidableEq

/-- The segment has just been purged. -/
def Record.empty : Record := ⟨[], []⟩

/-- A push reserves `length` elements from index `first` on. -/
def Record.reserve (R : Record) (first length : ℕ) : Record :=
  { R with blocks := R.blocks ++ [(first, length)] }

/-- The owner gets the notification of index `i`, with this value. -/
def Record.wait (R : Record) (i value : ℕ) : Record :=
  { R with waits := R.waits ++ [(i, value)] }

/-- The records after rank `r` goes on from the point that it has reached. -/
def advanceRecords (s : State n) (r : Fin n) (R : Fin n → Record) : Fin n → Record :=
  match (s.rank r).pc with
  -- the block begins at the count, which the next step of the push moves
  | .addingHead p res => Function.update R p.target
      ((R p.target).reserve (s.segment p.target).bufferEltCount res.elts.length)
  | .waiting i =>
    if i < (s.segment r).bufferEltCount then
      Function.update R r ((R r).wait i ((s.segment r).notifications i))
    else R
  | .purging => Function.update R r .empty
  | _ => R

/-- The records after a step of rank `r`. -/
def nextRecords (s : State n) (r : Fin n) (R : Fin n → Record) : Action n → Fin n → Record
  | .advance => advanceRecords s r R
  | _ => R

/-- The ranks with the records of their segments. -/
abbrev Recorded (n : ℕ) := State n × (Fin n → Record)

/-- The result side of the library, with records of what happens on the segments. -/
def recorded (net : Network n) : Transition.System (Recorded n) (Fin n × Action n) where
  init x := (system net).init x.1 ∧ ∀ v, x.2 v = .empty
  next x a := (Results.next net x.1 a).map fun s => (s, nextRecords x.1 a.1 x.2 a.2)

theorem recorded_projects (net : Network n) : (recorded net).Projects (system net) Prod.fst :=
  .of_record (fun _ hx => hx.1) fun _ _ => rfl

/-! ### The chain of notifications -/

/-- The index up to which the owner of a segment with `total` elements has waited. -/
def ResultPc.position (total : ℕ) : ResultPc n → ℕ
  | .waiting i => i
  | .unlocking => 0
  | pc => if pc.drained then total else 0

/-- The blocks of the record are those waited for, followed by those whose notifications are there
or still to come. -/
def RecordOk (m : BufferedSegment n) (pc : ResultPc n) (carried : Fin n → Option (Message n))
    (R : Record) : Prop :=
  ∃ rest, R.blocks = R.waits ++ rest ∧ Chain R.waits rest (pc.position m.reserved.length)
    m.reserved.length m.inbox carried m.notifications

theorem RankOk.position_giveUp (h : RankOk net r m t) (p : Push n) (selected : List Bool)
    (total : ℕ) :
    (Results.giveUp m t p selected).pc.position total = if p.site = .group then total else 0 := by
  rcases h.giveUp p selected with ⟨hp, heq⟩ | ⟨⟨i, hp⟩, heq⟩ | ⟨hp, heq⟩
  · rw [hp, heq]
    rfl
  · rw [hp, heq]
    rfl
  · rw [hp, heq]
    rfl

theorem RankOk.position_settle (h : RankOk net r m t) (p : Push n) (res : Reservation n)
    (total : ℕ) :
    (Results.settle m t p res).pc.position total = if p.site = .group then total else 0 := by
  rcases h.settle p res with ⟨hp, heq⟩ | ⟨i, hp, heq⟩ | ⟨hp, heq⟩
  · rw [hp, heq]
    rfl
  · rw [hp, heq]
    rfl
  · rw [hp, heq]
    rfl

/-! ### One segment -/

section Segment

variable {pc pc' : ResultPc n} {carried : Fin n → Option (Message n)} {lag : ℕ} {R : Record}

theorem RecordOk.setPc (h : RecordOk m pc carried R)
    (hpos : pc'.position m.reserved.length = pc.position m.reserved.length) :
    RecordOk m pc' carried R := by
  obtain ⟨rest, hblocks, hchain⟩ := h
  refine ⟨rest, hblocks, ?_⟩
  rwa [hpos]

theorem RecordOk.setState (h : RecordOk m pc carried R) (state : ResultLock n) :
    RecordOk { m with state } pc carried R := h

theorem RecordOk.addCount (h : RecordOk m pc carried R) (c : ℕ) :
    RecordOk { m with bufferEltCount := c } pc carried R := h

/-- The owner gets the notification that it waits for. -/
theorem RecordOk.consume {i : ℕ} (h : RecordOk m (.waiting i) carried R)
    (hseg : SegmentOk m (.waiting i) carried lag) (hi : m.notifications i ≠ 0) :
    RecordOk { m with notifications := Function.update m.notifications i 0 }
      (.waiting (i + m.notifications i)) carried (R.wait i (m.notifications i)) := by
  obtain ⟨rest, hblocks, hchain⟩ := h
  simp only [ResultPc.position] at hchain
  obtain ⟨rest', hrest, hchain'⟩ := hchain.consume hseg.delivery hi
  refine ⟨rest', ?_, hchain'⟩
  simp only [Record.wait, hblocks, hrest, List.append_assoc, List.singleton_append]

/-- Once a flush has waited, every block is waited for. -/
theorem RecordOk.waits_eq (h : RecordOk m pc carried R) (hseg : SegmentOk m pc carried lag)
    (hd : pc.drained) : R.waits = R.blocks := by
  obtain ⟨rest, hblocks, hchain⟩ := h
  obtain ⟨hno, hzero⟩ := hseg.drained hd
  have hnil : rest = [] := by
    rw [List.eq_nil_iff_forall_not_mem]
    intro b hb
    rcases hchain.kept b hb with hann | ⟨c, hc, -⟩
    · have hpos := hchain.rest_pos b hb
      have hb0 := hzero b.1
      omega
    · exact hno c hc
  rw [hblocks, hnil, List.append_nil]

/-- Everything is waited for when the segment is purged. -/
theorem RecordOk.purge (hseg : SegmentOk m .purging carried lag) :
    RecordOk (Results.purge m) .unlocking carried .empty := by
  obtain ⟨hno, hzero⟩ := hseg.drained rfl
  exact ⟨[], rfl, .empty hno hzero⟩

/-- Rank `r` reserves space for `elts`. -/
theorem RecordOk.addHead (h : RecordOk m pc carried R) (hseg : SegmentOk m pc carried 0)
    {elts : List (BufferElt n)} (hne : elts ≠ []) (hpc : ¬ pc.flushing) (hr : carried r = none) :
    RecordOk { m with
        bufferHead := m.bufferHead + toReserve elts
        reserved := m.reserved ++ Tiling.layOut BufferElt.bufferEntrySize m.bufferHead elts }
      pc (Function.update carried r (some ⟨m.bufferEltCount, elts.length,
        Tiling.layOut BufferElt.bufferEntrySize m.bufferHead elts⟩))
      (R.reserve m.bufferEltCount elts.length) := by
  obtain ⟨rest, hblocks, hchain⟩ := h
  have hlen : (Tiling.layOut BufferElt.bufferEntrySize m.bufferHead elts).length = elts.length :=
    Tiling.length_layOut _ _
  have hnew : Tiling.layOut BufferElt.bufferEntrySize m.bufferHead elts ≠ [] :=
    Tiling.layOut_ne_nil _ hne
  have hcount : m.reserved.length = m.bufferEltCount := hseg.count
  have hpos : ∀ total, pc.position total = 0 := by
    intro total
    cases pc <;> simp_all [ResultPc.position, ResultPc.drained, ResultPc.flushing]
  have hreserve := hchain.reserve hnew hr
  rw [hlen, hpos, hcount] at hreserve
  refine ⟨rest ++ [(m.bufferEltCount, elts.length)], ?_, ?_⟩
  · simp only [Record.reserve, hblocks, List.append_assoc]
  · simp only [Record.reserve, hpos, List.length_append, hlen, hcount]
    exact hreserve

theorem RecordOk.post (h : RecordOk m pc carried R) {p : Push n} {res : Reservation n}
    {writes : List (ℕ × BufferElt n)} (hr : carried r = some ⟨res.count, res.elts.length, writes⟩) :
    RecordOk (Results.post m t p res) pc (Function.update carried r none) R := by
  obtain ⟨rest, hblocks, hchain⟩ := h
  exact ⟨rest, hblocks, hchain.post hr (message p res).writes⟩

theorem RecordOk.land (h : RecordOk m pc carried R) {i : ℕ} {b : Message n}
    (hb : m.inbox[i]? = some b) (area : ℕ → Option (BufferElt n))
    (writes : List (ℕ × BufferElt n)) :
    RecordOk { m with area, inbox := m.inbox.set i { b with writes } } pc carried R := by
  obtain ⟨rest, hblocks, hchain⟩ := h
  exact ⟨rest, hblocks, hchain.arrive hb writes⟩

theorem RecordOk.deliver (h : RecordOk m pc carried R) {i : ℕ} {b : Message n}
    (hb : m.inbox[i]? = some b) :
    RecordOk { m with
        notifications := Function.update m.notifications b.first b.length
        inbox := m.inbox.eraseIdx i }
      pc carried R := by
  obtain ⟨rest, hblocks, hchain⟩ := h
  exact ⟨rest, hblocks, hchain.announce hb⟩

/-- At the end of the wait nothing is left to wait for. -/
theorem RecordOk.waited {i : ℕ} (h : RecordOk m (.waiting i) carried R)
    (hi : m.reserved.length ≤ i) : RecordOk m .collecting carried R := by
  obtain ⟨rest, hblocks, hchain⟩ := h
  have heq : i = m.reserved.length := le_antisymm hchain.rest_tiles.le hi
  refine ⟨rest, hblocks, ?_⟩
  simp only [ResultPc.position] at hchain
  rw [heq] at hchain
  exact hchain

end Segment

/-! ### All segments -/

/-- Every segment is as its record says. -/
def RecordsOk (s : State n) (R : Fin n → Record) : Prop :=
  ∀ v, RecordOk (s.segment v) (s.rank v).pc (carriedTo s v) (R v)

section AllSegments

variable {R R' : Fin n → Record}

/-- A step of rank `r` that may change the segment of rank `v` and its record. -/
theorem RecordsOk.update (h : RecordsOk s R)
    (hv : RecordOk m (if v = r then t.pc else (s.rank v).pc)
      (Function.update (carriedTo s v) r (t.pc.carriedTo v)) (R' v))
    (hother : ∀ w ≠ v, R' w = R w)
    (hcarried : ∀ w ≠ v, t.pc.carriedTo w = (s.rank r).pc.carriedTo w)
    (hpos : v ≠ r → ∀ total, t.pc.position total = (s.rank r).pc.position total) :
    RecordsOk ((s.setSegment v m).setRank r t) R' := by
  intro w
  rw [carriedTo_setRank]
  have hcw : carriedTo (s.setSegment v m) w = carriedTo s w := rfl
  simp only [State.segment_setRank, State.segment_setSegment, State.rank_setRank,
    State.rank_setSegment, hcw]
  by_cases hw : w = v
  · subst hw
    rw [Function.update_self]
    by_cases hwr : w = r
    · subst hwr
      rw [if_pos rfl] at hv
      rwa [Function.update_self]
    · rw [if_neg hwr] at hv
      rwa [Function.update_of_ne hwr]
  · rw [Function.update_of_ne hw, carriedTo_eq (hcarried w hw), hother w hw]
    by_cases hwr : w = r
    · subst hwr
      rw [Function.update_self]
      exact (h w).setPc (hpos (Ne.symm hw) _)
    · rw [Function.update_of_ne hwr]
      exact h w

/-- A step of rank `r` that changes no segment. -/
theorem RecordsOk.setRank (h : RecordsOk s R)
    (hcarried : ∀ w, t.pc.carriedTo w = (s.rank r).pc.carriedTo w)
    (hr : RecordOk (s.segment r) t.pc (carriedTo s r) (R r)) :
    RecordsOk (s.setRank r t) R := by
  have hstep : RecordsOk ((s.setSegment r (s.segment r)).setRank r t) R := by
    apply h.update
    · rwa [if_pos rfl, carriedTo_eq (hcarried r)]
    · intro w _
      rfl
    · intro w _
      exact hcarried w
    · intro hne
      exact absurd rfl hne
  rwa [State.setSegment_self] at hstep

/-- A step of rank `r` that changes its own segment and is not part of a push. -/
theorem RecordsOk.own (h : RecordsOk s R)
    (hcarried : ∀ w, t.pc.carriedTo w = (s.rank r).pc.carriedTo w)
    (hother : ∀ w ≠ r, R' w = R w) (hr : RecordOk m t.pc (carriedTo s r) (R' r)) :
    RecordsOk ((s.setSegment r m).setRank r t) R' := by
  apply h.update
  · rwa [if_pos rfl, carriedTo_eq (hcarried r)]
  · exact hother
  · exact fun w _ => hcarried w
  · exact fun hne => absurd rfl hne

/-- A step of a push on rank `r` to the segment of rank `v`. -/
theorem RecordsOk.target (h : RecordsOk s R)
    (hcarried : ∀ w ≠ v, t.pc.carriedTo w = (s.rank r).pc.carriedTo w)
    (hother : ∀ w ≠ v, R' w = R w)
    (hpos : ∀ total, t.pc.position total = (s.rank r).pc.position total)
    (hv : RecordOk m (s.rank v).pc (Function.update (carriedTo s v) r (t.pc.carriedTo v)) (R' v)) :
    RecordsOk ((s.setSegment v m).setRank r t) R' := by
  apply h.update
  · split
    · rename_i hvr
      apply hv.setPc
      rw [hpos, hvr]
    · exact hv
  · exact hother
  · exact hcarried
  · exact fun _ => hpos

/-- Something arrives on the segment of rank `v`. -/
theorem RecordsOk.arrival (h : RecordsOk s R)
    (hv : RecordOk m (s.rank v).pc (carriedTo s v) (R v)) : RecordsOk (s.setSegment v m) R := by
  intro w
  have hcw : carriedTo (s.setSegment v m) w = carriedTo s w := rfl
  simp only [State.segment_setSegment, State.rank_setSegment, hcw]
  by_cases hw : w = v
  · subst hw
    rwa [Function.update_self]
  · rw [Function.update_of_ne hw]
    exact h w

end AllSegments

/-! ### The steps -/

section Steps

variable {R : Fin n → Record}

theorem nextRecords_advance (hpc : ∀ p res, (s.rank r).pc ≠ .addingHead p res)
    (hwait : ∀ i, (s.rank r).pc ≠ .waiting i) (hpurge : (s.rank r).pc ≠ .purging) :
    nextRecords s r R .advance = R := by
  simp only [nextRecords, advanceRecords]

theorem RecordsOk.addHead (h : RecordsOk s R) (hok : ResultsOk net s) {p : Push n}
    {res : Reservation n} (hpc : (s.rank r).pc = .addingHead p res) :
    RecordsOk ((s.setSegment p.target { s.segment p.target with
        bufferHead := (s.segment p.target).bufferHead + toReserve res.elts
        reserved := (s.segment p.target).reserved ++ Tiling.layOut BufferElt.bufferEntrySize
          (s.segment p.target).bufferHead res.elts }).setRank r
      { s.rank r with pc := .addingCount p res }) (nextRecords s r R .advance) := by
  have hst := (hok.locks.lock p.target r).mpr (by rw [hpc]; rfl)
  have hlag : lagAt s p.target = 0 := by simp only [lagAt, hst, hpc, ResultPc.lag]
  have hres := hok.reservation r
  simp only [ReservationOk, hpc] at hres
  obtain ⟨hhead, hcount, -, -⟩ := hres
  have hne := (hok.rank r).nonempty p res (.inl hpc)
  have hseg := hok.segment p.target
  rw [hlag] at hseg
  have hnot : ¬ (s.rank p.target).pc.flushing := by
    rw [← hok.locks.flush, hst]
    rintro ⟨⟩
  have hnone : carriedTo s p.target r = none := by
    simp only [carriedTo, hpc, ResultPc.carriedTo]
  have hcarried : (ResultPc.addingCount p res).carriedTo p.target =
      some ⟨(s.segment p.target).bufferEltCount, res.elts.length,
        Tiling.layOut BufferElt.bufferEntrySize (s.segment p.target).bufferHead res.elts⟩ := by
    simp [ResultPc.carriedTo, hne, hhead, hcount]
  have hrecords : nextRecords s r R .advance = Function.update R p.target
      ((R p.target).reserve (s.segment p.target).bufferEltCount res.elts.length) := by
    simp only [nextRecords, advanceRecords, hpc]
  rw [hrecords]
  apply h.target
  · intro w hw
    rw [hpc]
    simp [ResultPc.carriedTo, Ne.symm hw]
  · exact fun w hw => Function.update_of_ne hw _ _
  · intro total
    rw [hpc]
    rfl
  · rw [Function.update_self, hcarried]
    exact (h p.target).addHead hseg hne hnot hnone

/-- Every step keeps the segments as their records say. -/
theorem RecordsOk.stepped (h : RecordsOk s R) (hok : ResultsOk net s)
    (hs : Stepped net s r a s') : RecordsOk s' (nextRecords s r R a) := by
  have hr := hok.rank r
  have hrec := h r
  cases hs with
  | pushOwn | pushTmp | flush hpc | pushTransit i x hx hpc =>
    refine h.setRank (fun w => ?_) (hrec.setPc ?_)
    all_goals first | rfl | (rw [hpc]; rfl)
  | startTmp hpc | empty hpc | occupied hpc | bounded hpc =>
    rw [nextRecords_advance (by simp [hpc]) (by simp [hpc]) (by simp [hpc])]
    exact h.setRank (fun w => by rw [hpc]; rfl) (hrec.setPc (by rw [hpc]; rfl))
  | spin hpc =>
    rw [nextRecords_advance (by simp [hpc]) (by simp [hpc]) (by simp [hpc])]
    exact h
  | collect hpc =>
    rw [nextRecords_advance (by simp [hpc]) (by simp [hpc]) (by simp [hpc])]
    exact h.setRank (fun w => by rw [hpc]; rfl) (hrec.setPc (by rw [hpc]; rfl))
  | submit c off x e hpc | group c k hpc | grouped c hpc =>
    rw [nextRecords_advance (by simp [hpc]) (by simp [hpc]) (by simp [hpc])]
    refine h.setRank (fun w => ?_) (hrec.setPc ?_)
    all_goals first | rfl | (rw [hpc]; rfl)
  | lockOwn hpc hst =>
    rw [nextRecords_advance (by simp [hpc]) (by simp [hpc]) (by simp [hpc])]
    apply h.own
    · exact fun w => by rw [hpc]; rfl
    · exact fun w _ => rfl
    · rw [hpc] at hrec
      exact (hrec.setState _).setPc rfl
  | consume i hpc hi =>
    have hst := (hok.locks.flush r).mpr (by rw [hpc]; rfl)
    have hlag : lagAt s r = 0 := lagAt_eq_zero (by rw [hst]; rintro _ ⟨⟩)
    have hseg := hok.segment r
    rw [hpc] at hrec hseg
    obtain ⟨-, -, hchain⟩ := hrec
    have hlt : i < (s.segment r).bufferEltCount := by
      have hinside := hseg.delivery.announced_inside i hi
      have hcount := hseg.count
      omega
    have hrecords : nextRecords s r R .advance =
        Function.update R r ((R r).wait i ((s.segment r).notifications i)) := by
      simp only [nextRecords, advanceRecords, hpc, if_pos hlt]
    rw [hrecords]
    apply h.own
    · exact fun w => by rw [hpc]; rfl
    · exact fun w hw => Function.update_of_ne hw _ _
    · rw [Function.update_self]
      have hrec := h r
      rw [hpc] at hrec
      exact hrec.consume hseg hi
  | waited i hpc hi =>
    have hst := (hok.locks.flush r).mpr (by rw [hpc]; rfl)
    have hcount := (hok.segment r).count
    have hrecords : nextRecords s r R .advance = R := by
      simp only [nextRecords, advanceRecords, hpc]
      rw [if_neg (by omega)]
    rw [hrecords]
    rw [hpc] at hrec
    exact h.setRank (fun w => by rw [hpc]; rfl) (hrec.waited hi)
  | purge hpc =>
    have hseg := hok.segment r
    rw [hpc] at hseg
    have hrecords : nextRecords s r R .advance = Function.update R r .empty := by
      simp only [nextRecords, advanceRecords, hpc]
    rw [hrecords]
    apply h.own
    · exact fun w => by rw [hpc]; rfl
    · exact fun w hw => Function.update_of_ne hw _ _
    · rw [Function.update_self]
      exact .purge hseg
  | unlockOwn hpc =>
    rw [nextRecords_advance (by simp [hpc]) (by simp [hpc]) (by simp [hpc])]
    apply h.own
    · exact fun w => by rw [hpc]; rfl
    · exact fun w _ => rfl
    · rw [hpc] at hrec
      exact (hrec.setState _).setPc rfl
  | lockFailed p hpc hst =>
    rw [nextRecords_advance (by simp [hpc]) (by simp [hpc]) (by simp [hpc])]
    refine h.setRank (fun w => ?_) (hrec.setPc ?_)
    · rw [(hr.after_giveUp p []).carried, hpc]
      rfl
    · rw [hr.position_giveUp, hpc]
      simp [ResultPc.position, ResultPc.drained]
  | lockTaken p hpc hst =>
    rw [nextRecords_advance (by simp [hpc]) (by simp [hpc]) (by simp [hpc])]
    apply h.target
    · exact fun w _ => by rw [hpc]; rfl
    · exact fun w _ => rfl
    · exact fun total => by rw [hpc]; rfl
    · rw [carriedTo_eq (by rw [hpc]; rfl)]
      exact (h p.target).setState _
  | select p res hpc =>
    rw [nextRecords_advance (by simp [hpc]) (by simp [hpc]) (by simp [hpc])]
    by_cases h0 : res.elts.length = 0
    · simp only [h0, if_true]
      refine h.setRank (fun w => ?_) (hrec.setPc (by rw [hpc]; rfl))
      rw [hpc]
      simp [ResultPc.carriedTo, List.length_eq_zero_iff.mp h0]
    · simp only [h0, if_false]
      exact h.setRank (fun w => by rw [hpc]; rfl) (hrec.setPc (by rw [hpc]; rfl))
  | addHead p res hpc => exact h.addHead hok hpc
  | addCount p res hpc =>
    rw [nextRecords_advance (by simp [hpc]) (by simp [hpc]) (by simp [hpc])]
    apply h.target
    · exact fun w _ => by rw [hpc]; rfl
    · exact fun w _ => rfl
    · exact fun total => by rw [hpc]; rfl
    · rw [carriedTo_eq (by rw [hpc]; rfl)]
      exact (h p.target).addCount _
  | releaseEmpty p res hpc helts =>
    rw [nextRecords_advance (by simp [hpc]) (by simp [hpc]) (by simp [hpc])]
    have hcarried : ∀ w, (giveUp (s.segment r) (s.rank r) p res.selected).pc.carriedTo w =
        (s.rank r).pc.carriedTo w := by
      intro w
      rw [(hr.after_giveUp p res.selected).carried, hpc]
      simp [ResultPc.carriedTo, helts]
    apply h.target
    · exact fun w _ => hcarried w
    · exact fun w _ => rfl
    · intro total
      rw [hr.position_giveUp, hpc]
      simp [ResultPc.position, ResultPc.drained]
    · rw [carriedTo_eq (hcarried p.target)]
      exact (h p.target).setState _
  | release p res hpc helts =>
    rw [nextRecords_advance (by simp [hpc]) (by simp [hpc]) (by simp [hpc])]
    apply h.target
    · exact fun w _ => by rw [hpc]; rfl
    · exact fun w _ => rfl
    · exact fun total => by rw [hpc]; rfl
    · rw [carriedTo_eq (by rw [hpc]; rfl)]
      exact (h p.target).setState _
  | post p res hpc =>
    rw [nextRecords_advance (by simp [hpc]) (by simp [hpc]) (by simp [hpc])]
    have hne := hr.nonempty p res (.inr (.inr hpc))
    have hcarried : carriedTo s p.target r = some ⟨res.count, res.elts.length,
        Tiling.layOut BufferElt.bufferEntrySize res.head res.elts⟩ := by
      simp [carriedTo, hpc, ResultPc.carriedTo, hne]
    have hafter := hr.after_settle p res
    apply h.target
    · intro w hw
      rw [hafter.carried, hpc]
      simp [ResultPc.carriedTo, Ne.symm hw]
    · exact fun w _ => rfl
    · intro total
      rw [hr.position_settle, hpc]
      simp [ResultPc.position, ResultPc.drained]
    · rw [hafter.carried]
      exact (h p.target).post hcarried
  | land i w off b e hb hw => exact h.arrival (hrec.land hb _ _)
  | deliver i b hb hw => exact h.arrival (hrec.deliver hb)

end Steps

theorem RecordsOk.init {x : Recorded n} (h : (recorded net).init x) : RecordsOk x.1 x.2 := by
  obtain ⟨⟨hseg, hrank⟩, hrecords⟩ := h
  intro v
  have hcarried : carriedTo x.1 v = fun _ => none := by
    funext q
    simp only [carriedTo, (hrank q).pc]
    rfl
  rw [hrecords, (hrank v).pc, hcarried]
  refine ⟨[], rfl, ?_⟩
  simp only [(hseg v).reserved, (hseg v).inbox]
  apply Chain.empty
  · rintro c (hc | ⟨q, hq⟩)
    · cases hc
    · cases hq
  · exact (hseg v).notifications

theorem records_invariant (net : Network n) :
    (recorded net).Invariant fun x => RecordsOk x.1 x.2 := by
  constructor
  · intro x hx
    exact .init hx
  · rintro x ⟨q, a⟩ x' hr hrec hs
    have hok := (results_invariant net).holds ((recorded_projects net).reachable hr)
    obtain ⟨s', hs, heq⟩ := Option.map_eq_some_iff.mp hs
    rw [← heq]
    exact hrec.stepped hok (hok.stepped hs)

/-! ### The notifications of a segment -/

/-- What holds of the segment of rank `v` with the record `R` while `v` holds it for a flush. -/
structure Held (s : State n) (v : Fin n) (R : Record) : Prop where
  /-- The blocks reserved since the last purge are consecutive and fill the indices below the
  count. -/
  blocks : Tiling.Tiles id 0 (s.segment v).bufferEltCount R.blocks
  length_pos : ∀ b ∈ R.blocks, 0 < b.2
  limit : (s.segment v).bufferEltCount ≤ maxBufferElts
  /-- One notification for each block at its first index is waited for, there, or to come, and there
  is no other. -/
  once : ∀ j, R.waits.countP (fun b => b.1 = j) +
      notices (s.segment v).inbox (carriedTo s v) (s.segment v).notifications j =
    if ∃ b ∈ R.blocks, b.1 = j then 1 else 0
  /-- One that is not posted is the next step of a push. -/
  ahead : ∀ q b, carriedTo s v q = some b → ∃ p res, (s.rank q).pc = .posting p res
  /-- The waits are for the blocks in order. -/
  waits : R.waits <+: R.blocks
  /-- The wait is at the first index of a block, until it ends at the count. -/
  waiting : ∀ i, (s.rank v).pc = .waiting i → Tiling.Tiles id 0 i R.waits ∧
    (i < (s.segment v).bufferEltCount ∧ (∃ l, (i, l) ∈ R.blocks) ∨
      i = (s.segment v).bufferEltCount ∧ R.waits = R.blocks)
  /-- Afterwards each block is waited for, and each element is there, until the purge. -/
  complete : (s.rank v).pc.drained → R.waits = R.blocks ∧
    (s.segment v).reserved.length = (s.segment v).bufferEltCount ∧
    ∀ w ∈ (s.segment v).reserved, (s.segment v).area w.1 = some w.2

/-- What holds of the notifications of the segment of rank `v` with the record `R`. -/
structure NotificationChain (s : State n) (v : Fin n) (R : Record) : Prop where
  held : (s.segment v).state = .copyInProgress → Held s v R
  /-- A notification is for a block reserved since the last purge, and has its length, -/
  announced : ∀ j, (s.segment v).notifications j ≠ 0 →
    (j, (s.segment v).notifications j) ∈ R.blocks
  /-- so has one that is to come. -/
  pending : ∀ b, Pending (s.segment v).inbox (carriedTo s v) b → (b.first, b.length) ∈ R.blocks
  /-- After a purge there is none. -/
  purged : (s.rank v).pc = .unlocking → R.blocks = [] ∧
    (∀ j, (s.segment v).notifications j = 0) ∧
    ∀ b, ¬ Pending (s.segment v).inbox (carriedTo s v) b

theorem RecordsOk.held {R : Fin n → Record} (h : RecordsOk s R) (hok : ResultsOk net s)
    (hst : (s.segment v).state = .copyInProgress) : Held s v (R v) := by
  obtain ⟨rest, hblocks, hchain⟩ := h v
  have hseg := hok.segment v
  have hlag : lagAt s v = 0 := lagAt_eq_zero (by rw [hst]; rintro _ ⟨⟩)
  have hcount : (s.segment v).reserved.length = (s.segment v).bufferEltCount := by
    have := hseg.count
    omega
  have htiles := hchain.taken_tiles.append hchain.rest_tiles
  rw [← hblocks, hcount] at htiles
  constructor
  · exact htiles
  · intro b hb
    rw [hblocks] at hb
    exact (List.mem_append.mp hb).elim (hchain.taken_pos b) (hchain.rest_pos b)
  · rw [← hcount]
    exact hseg.length_le
  · intro j
    rw [hblocks]
    exact hchain.notices_total hseg.delivery j
  · intro q b hq
    -- a push that has not released the lock would hold it
    have hunlocked : (s.rank q).pc.locked ≠ some v := by
      intro hlocked
      rw [(hok.locks.lock v q).mpr hlocked] at hst
      cases hst
    simp only [carriedTo] at hq
    cases hpc : (s.rank q).pc with
    | posting p res => exact ⟨p, res, rfl⟩
    | addingCount p res | releasing p res =>
      rw [hpc] at hq hunlocked
      simp only [ResultPc.carriedTo] at hq
      split at hq
      · rename_i hv
        exact absurd (congrArg some hv.1) hunlocked
      · cases hq
    | _ =>
      rw [hpc] at hq
      cases hq
  · rw [hblocks]
    exact List.prefix_append _ _
  · intro i hi
    rw [hi] at hchain
    simp only [ResultPc.position, hcount] at hchain
    refine ⟨hchain.taken_tiles, ?_⟩
    rcases Nat.lt_or_ge i (s.segment v).bufferEltCount with hlt | hge
    · obtain ⟨l, hl⟩ := hchain.next_block hlt
      refine .inl ⟨hlt, l, ?_⟩
      rw [hblocks]
      exact List.mem_append_right _ hl
    · have hle := hchain.rest_tiles.le
      have heq : i = (s.segment v).bufferEltCount := le_antisymm hle hge
      rw [heq] at hchain
      refine .inr ⟨heq, ?_⟩
      rw [hblocks, hchain.rest_eq_nil, List.append_nil]
  · intro hd
    refine ⟨?_, hcount, hseg.delivery.arrived_of_not_pending (hseg.drained hd).1⟩
    exact (h v).waits_eq hseg hd

/-- In every reachable state of any number of ranks the notifications of every result segment are
those of the blocks reserved since its last purge. -/
theorem notification_chain_holds {x : Recorded n} (hr : (recorded net).Reachable x) (v : Fin n) :
    NotificationChain x.1 v (x.2 v) := by
  have hok := (results_invariant net).holds ((recorded_projects net).reachable hr)
  have hrec := (records_invariant net).holds hr
  obtain ⟨rest, hblocks, hchain⟩ := hrec v
  have hrest : ∀ b ∈ rest, b ∈ (x.2 v).blocks := by
    intro b hb
    rw [hblocks]
    exact List.mem_append_right _ hb
  constructor
  · exact hrec.held hok
  · exact fun j hj => hrest _ (hchain.announced_mem j hj)
  · exact fun b hb => hrest _ (hchain.pending b hb)
  · intro hpc
    have hdrained : (x.1.rank v).pc.drained := by
      rw [hpc]
      rfl
    obtain ⟨hno, hzero⟩ := (hok.segment v).drained hdrained
    refine ⟨?_, hzero, hno⟩
    have hwaits := (hrec v).waits_eq (hok.segment v) hdrained
    rw [hpc] at hchain
    rw [← hwaits]
    exact eq_nil_of_tiles hchain.taken_tiles hchain.taken_pos

/-- Rank 0 puts two batches of results of rank 1 on its own segment and sends both with one push to
rank 1, which waits for them in a flush. -/
def sendPacked : List (Fin 2 × Action 2) :=
  [(0, .push 0 4 3 1 1 [7, 8, 9])] ++ List.replicate 7 (0, .advance) ++ [(0, .deliver 0)] ++
    [(0, .push 0 7 1 1 1 [6])] ++ List.replicate 7 (0, .advance) ++
    [(0, .deliver 0), (0, .flush)] ++ List.replicate 14 (0, .advance) ++
    [(1, .land 0 0), (1, .land 0 0), (1, .deliver 0), (1, .flush)] ++
    List.replicate 5 (1, .advance)

theorem notification_chain_holds_after_wait :
    ∃ x, (recorded (direct 2)).Reachable x ∧ (x.1.segment 1).state = .copyInProgress ∧
      x.2 1 = ⟨[(0, 2)], [(0, 2)]⟩ ∧ NotificationChain x.1 1 (x.2 1) := by
  obtain ⟨x, hr, hst, hrecord⟩ := Transition.System.exists_reachable
    (S := recorded (direct 2)) (s := (constructed, fun _ => .empty))
    ⟨constructed_init, fun _ => rfl⟩ sendPacked
    (fun x => (x.1.segment 1).state = .copyInProgress ∧ x.2 1 = ⟨[(0, 2)], [(0, 2)]⟩)
    (by decide +kernel)
  exact ⟨x, hr, hst, hrecord, notification_chain_holds hr 1⟩

end Titus.Results
