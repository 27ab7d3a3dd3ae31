import Titus.Results.Step

/-! What holds of the result segments and of the ranks in every reachable state, and the steps that
remain possible where it holds: none in which an assertion fails. -/

namespace Titus.Results

variable {n : ℕ} {net : Network n} {r : Fin n}

/-! ### The points of a push and of a flush -/

namespace ResultPc

/-- The push that a rank at this point makes. -/
def push : ResultPc n → Option (Push n)
  | .reserving p | .reading p | .addingHead p _ | .addingCount p _ | .releasing p _ |
    .posting p _ => some p
  | _ => none

/-- The rank whose segment a push at this point has locked. -/
def locked : ResultPc n → Option (Fin n)
  | .reading p | .addingHead p _ | .addingCount p _ | .releasing p _ => some p.target
  | _ => none

/-- What a push has selected. -/
def selected : ResultPc n → Option (Push n × Reservation n)
  | .addingHead p res | .addingCount p res | .releasing p res | .posting p res => some (p, res)
  | _ => none

/-- What a push has reserved on the segment of rank `v` and has not posted yet. -/
def carriedTo (v : Fin n) : ResultPc n → Option (Message n)
  | .addingCount p res | .releasing p res | .posting p res =>
    if p.target = v ∧ res.elts ≠ [] then
      some ⟨res.count, res.elts.length, Tiling.layOut BufferElt.bufferEntrySize res.head res.elts⟩
    else none
  | _ => none

/-- The elements by which the head of the target's segment is ahead of its count. -/
def lag : ResultPc n → ℕ
  | .addingCount _ res => res.elts.length
  | _ => 0

/-- The rank has locked its own segment for a flush. -/
def flushing : ResultPc n → Bool
  | .waiting _ | .collecting | .grouping _ | .purging | .unlocking => true
  | .reserving p | .reading p | .addingHead p _ | .addingCount p _ | .releasing p _ |
    .posting p _ => p.site = .group
  | _ => false

/-- In the loop of a flush over the destinations, those below this one are done. -/
def cursor : ResultPc n → Option ℕ
  | .grouping c => some c
  | .reserving p | .reading p | .addingHead p _ | .addingCount p _ | .releasing p _ |
    .posting p _ => if p.site = .group then some p.target else none
  | _ => none

/-- A flush has waited for all elements. -/
def drained : ResultPc n → Bool
  | .collecting | .grouping _ | .purging | .unlocking => true
  | .reserving p | .reading p | .addingHead p _ | .addingCount p _ | .releasing p _ |
    .posting p _ => p.site = .group
  | _ => false

/-- A flush has found the segment or the map occupied and has not looked at the elements yet. -/
def occupied : ResultPc n → Bool
  | .asserting | .locking | .waiting _ | .collecting => true
  | _ => false

end ResultPc

/-! ### The invariant -/

/-- An element as `push_tmp_results` builds it from results. -/
structure BufferElt.Sound (e : BufferElt n) : Prop where
  nbResult : 0 < e.nbResult
  dataSize : 0 < e.dataSize
  length : e.data.length = e.dataSize

/-- What holds of the entry `x` of `local_transiting_results` with the element `e`. -/
structure EntryOk (net : Network n) (r : Fin n) (m : BufferedSegment n) (x : Transit n)
    (e : BufferElt n) : Prop where
  elt : x.elt m.area = some e
  sound : e.Sound
  size : e.bufferEntrySize ≤ m.segmentSize
  key : x.key = keyOf net r e
  aside : x.spot = .inMemory e → e.owner ≠ r

/-- The push `p` of rank `r` is about something. -/
def PushOk (r : Fin n) (t : RankResults n) (p : Push n) : Prop :=
  match p.site with
  | .tmp => t.tmp.isSome ∧ p.target = r
  | .transit i => ∃ x, t.localTransitingResults[i]? = some x ∧ x.key = p.target
  | .group => p.target ≠ r ∧ ∃ x ∈ t.localTransitingResults, x.key = p.target

/-- What holds of rank `r` with the segment `m`. -/
structure RankOk (net : Network n) (r : Fin n) (m : BufferedSegment n) (t : RankResults n) :
    Prop where
  entries : ∀ x ∈ t.localTransitingResults, ∃ e, EntryOk net r m x e
  onSegment : ∀ x ∈ t.localTransitingResults, ∀ off, x.spot = .onSegment off →
    ∃ c, t.pc.cursor = some c ∧ c ≤ x.key
  tmp : ∀ e, t.tmp = some e → e.Sound ∧ e.owner ≠ r
  push : ∀ p, t.pc.push = some p → PushOk r t p
  selected : ∀ p res, t.pc.selected = some (p, res) →
    res.elts = Selection.pick res.selected (offered m.area t p)
  nonempty : ∀ p res, t.pc = .addingHead p res ∨ t.pc = .addingCount p res ∨
    t.pc = .posting p res → res.elts ≠ []
  occupied : t.pc.occupied → m.reserved ≠ [] ∨ t.localTransitingResults ≠ []
  failed : t.failed = none ∨ t.failed = some .nbResult

/-- What holds of the segment of a rank at the point `pc`, when the ranks carry the messages
`carried` to it and the head is ahead of the count by `lag` elements. -/
structure SegmentOk (m : BufferedSegment n) (pc : ResultPc n) (carried : Fin n → Option (Message n))
    (lag : ℕ) : Prop where
  tiles : Tiling.Tiles BufferElt.bufferEntrySize m.bufferTail m.bufferHead m.reserved
  head_lt : m.bufferHead < m.segmentSize
  count : m.reserved.length = m.bufferEltCount + lag
  length_le : m.reserved.length ≤ maxBufferElts
  sound : ∀ w ∈ m.reserved, w.2.Sound
  delivery : Announcement.Ok m.reserved (fun w => m.area w.1 = some w.2) m.inbox carried
    m.notifications
  waiting : ∀ i, pc = .waiting i → Announcement.Passed m.inbox carried m.notifications i
  drained : pc.drained → (∀ b, ¬ Announcement.Pending m.inbox carried b) ∧
    ∀ i, m.notifications i = 0

/-- What the ranks carry to the segment of rank `v`. -/
def carriedTo (s : State n) (v : Fin n) : Fin n → Option (Message n) :=
  fun q => (s.rank q).pc.carriedTo v

/-- The elements by which the head of the segment of rank `v` is ahead of its count. -/
def lagAt (s : State n) (v : Fin n) : ℕ :=
  match (s.segment v).state with
  | .rank q => (s.rank q).pc.lag
  | _ => 0

/-- What a push at the point `pc` knows of the target's segment. -/
def ReservationOk (segment : Fin n → BufferedSegment n) (pc : ResultPc n) : Prop :=
  match pc with
  | .addingHead p res =>
    res.head = (segment p.target).bufferHead ∧ res.count = (segment p.target).bufferEltCount ∧
      (segment p.target).bufferHead + toReserve res.elts < (segment p.target).segmentSize ∧
      (segment p.target).bufferEltCount + res.elts.length ≤ maxBufferElts
  | .addingCount p res => res.count = (segment p.target).bufferEltCount
  | _ => True

/-- What holds of the locks. -/
structure LocksOk (s : State n) : Prop where
  lock : ∀ v q, (s.segment v).state = .rank q ↔ (s.rank q).pc.locked = some v
  flush : ∀ v, (s.segment v).state = .copyInProgress ↔ (s.rank v).pc.flushing

/-- What holds of all segments and ranks together. -/
structure ResultsOk (net : Network n) (s : State n) : Prop where
  locks : LocksOk s
  rank : ∀ r, RankOk net r (s.segment r) (s.rank r)
  segment : ∀ v, SegmentOk (s.segment v) (s.rank v).pc (carriedTo s v) (lagAt s v)
  reservation : ∀ q, ReservationOk s.segment (s.rank q).pc

/-! ### Elements and selections -/

theorem BufferElt.Sound.isValid {e : BufferElt n} (h : e.Sound) {size : ℕ}
    (hsize : e.bufferEntrySize ≤ size) : e.isValid size := by
  have h1 := h.nbResult
  have h2 := h.dataSize
  have h3 : e.dataSize ≤ e.bufferEntrySize := Nat.le_add_right _ _
  simp only [BufferElt.isValid, decide_eq_true_eq]
  exact ⟨by omega, hsize, h3.trans hsize, by omega⟩

theorem bufferEntrySize_pos (e : BufferElt n) : 0 < e.bufferEntrySize := by
  rw [BufferElt.bufferEntrySize, sizeofBufferElt_eq]
  exact Nat.succ_pos _

/-- An element on a segment is no larger than the segment. -/
theorem SegmentOk.size_le {m : BufferedSegment n} {pc : ResultPc n}
    {carried : Fin n → Option (Message n)} {lag : ℕ} (h : SegmentOk m pc carried lag)
    {w : ℕ × BufferElt n} (hw : w ∈ m.reserved) : w.2.bufferEntrySize ≤ m.segmentSize := by
  have h1 := (h.tiles.mem_range hw).2
  have h2 := h.head_lt
  omega

/-- What `select_elts_to_push` selects fits into the free space, and below the limit of the number
of elements. -/
theorem selectEltsToPush_fits {availableSize maxEltsCount : ℕ} (l : List (BufferElt n)) {b c : ℕ}
    (hb : b < availableSize) (hc : c ≤ maxEltsCount) :
    b + toReserve (Selection.pick (selectEltsToPush availableSize maxEltsCount b c l) l) <
        availableSize ∧
      c + (Selection.pick (selectEltsToPush availableSize maxEltsCount b c l) l).length ≤
        maxEltsCount := by
  induction l generalizing b c with
  | nil => exact ⟨hb, hc⟩
  | cons e l ih =>
    unfold selectEltsToPush
    split
    · rename_i h
      obtain ⟨h1, h2⟩ := ih (b := b + e.bufferEntrySize) (c := c + 1) (by omega) (by omega)
      simp only [Selection.pick, toReserve, Tiling.extent, List.map_cons, List.sum_cons,
        List.length_cons] at h1 h2 ⊢
      omega
    · exact ih hb hc

/-- What is selected for a segment fits there. -/
theorem selection_fits {m : BufferedSegment n} (hhead : m.bufferHead < m.segmentSize)
    (hcount : m.bufferEltCount ≤ maxBufferElts) (p : Push n) (elts : List (BufferElt n))
    (helts : p.site ≠ .group → elts.length ≤ 1) :
    m.bufferHead + toReserve (Selection.pick (selection p m elts) elts) < m.segmentSize ∧
      m.bufferEltCount + (Selection.pick (selection p m elts) elts).length ≤ maxBufferElts := by
  by_cases hp : p.site = .group
  · have h := selectEltsToPush_fits elts
      (show 0 < available m by unfold available; split <;> omega)
      (Nat.zero_le (maxBufferElts - m.bufferEltCount))
    simp only [selection, hp]
    unfold available at h ⊢
    rw [if_pos hhead] at h ⊢
    omega
  · have hmap : selection p m elts = elts.map (fits m) := by
      unfold selection
      split
      · exact absurd ‹_› hp
      · rfl
    rw [hmap]
    match elts, helts hp with
    | [], _ => exact ⟨hhead, hcount⟩
    | [e], _ =>
      cases hfits : fits m e with
      | false => simpa [hfits, Selection.pick] using ⟨hhead, hcount⟩
      | true =>
        have hroom : m.bufferHead + e.bufferEntrySize < m.segmentSize ∧
            m.bufferEltCount + 1 ≤ maxBufferElts := by
          simpa [fits, Nat.succ_le_iff] using hfits
        simpa [hfits, Selection.pick, toReserve, Tiling.extent] using hroom

theorem length_offered_le (area : ℕ → Option (BufferElt n)) (t : RankResults n) {p : Push n}
    (hp : p.site ≠ .group) : (offered area t p).length ≤ 1 := by
  unfold offered
  split
  · exact Option.length_toList_le
  · exact Option.length_toList_le
  · exact absurd ‹_› hp

/-! ### The steps where the invariant holds -/

/-- The steps of rank `r` from `s`, and the arrivals on its segment, each with what made it possible
and the state after it.  No assertion fails, but for the one of `submit_results`. -/
inductive Stepped (net : Network n) (s : State n) (r : Fin n) : Action n → State n → Prop
  | pushOwn (k id nb size : ℕ) (owner : Fin n) (data : List UInt8) (e : BufferElt n)
      (he : e = newElt (s.rank r) r k id nb size owner data) (hsound : e.Sound)
      (hpc : (s.rank r).pc = .idle) (htmp : (s.rank r).tmp = none) (howner : e.owner = r) :
    Stepped net s r (.push k id nb size owner data)
      (s.setRank r { submitResults (s.rank r) e with pushed := e :: (s.rank r).pushed })
  | pushTmp (k id nb size : ℕ) (owner : Fin n) (data : List UInt8) (e : BufferElt n)
      (he : e = newElt (s.rank r) r k id nb size owner data) (hsound : e.Sound)
      (hpc : (s.rank r).pc = .idle) (htmp : (s.rank r).tmp = none) (howner : e.owner ≠ r) :
    Stepped net s r (.push k id nb size owner data)
      (s.setRank r { s.rank r with tmp := some e, pushed := e :: (s.rank r).pushed })
  | flush (hpc : (s.rank r).pc = .idle) (htmp : (s.rank r).tmp = none) :
    Stepped net s r .flush (s.setRank r { s.rank r with pc := .checking })
  | pushTransit (i : ℕ) (x : Transit n) (hx : (s.rank r).localTransitingResults[i]? = some x)
      (hpc : (s.rank r).pc = .idle) (htmp : (s.rank r).tmp = none) :
    Stepped net s r (.pushTransit i)
      (s.setRank r { s.rank r with pc := .reserving ⟨.transit i, x.key⟩ })
  | startTmp (hpc : (s.rank r).pc = .idle) (htmp : (s.rank r).tmp.isSome) :
    Stepped net s r .advance (s.setRank r { s.rank r with pc := .reserving ⟨.tmp, r⟩ })
  | empty (hpc : (s.rank r).pc = .checking)
      (htail : (s.segment r).bufferTail = (s.segment r).bufferHead)
      (htransit : (s.rank r).localTransitingResults = []) :
    Stepped net s r .advance (s.setRank r { s.rank r with pc := .idle })
  | occupied (hpc : (s.rank r).pc = .checking)
      (hocc : (s.segment r).bufferTail ≠ (s.segment r).bufferHead ∨
        (s.rank r).localTransitingResults ≠ []) :
    Stepped net s r .advance (s.setRank r { s.rank r with pc := .asserting })
  | bounded (hpc : (s.rank r).pc = .asserting) :
    Stepped net s r .advance (s.setRank r { s.rank r with pc := .locking })
  | spin (hpc : (s.rank r).pc = .locking) : Stepped net s r .advance s
  | lockOwn (hpc : (s.rank r).pc = .locking)
      (hst : (s.segment r).state = .segmentAvailable) :
    Stepped net s r .advance ((s.setSegment r { s.segment r with state := .copyInProgress }).setRank
      r { s.rank r with pc := .waiting 0 })
  | consume (i : ℕ) (hpc : (s.rank r).pc = .waiting i)
      (hi : (s.segment r).notifications i ≠ 0) :
    Stepped net s r .advance ((s.setSegment r { s.segment r with
        notifications := Function.update (s.segment r).notifications i 0 }).setRank r
      { s.rank r with pc := .waiting (i + (s.segment r).notifications i) })
  | waited (i : ℕ) (hpc : (s.rank r).pc = .waiting i) (hi : (s.segment r).reserved.length ≤ i) :
    Stepped net s r .advance (s.setRank r { s.rank r with pc := .collecting })
  | collect (hpc : (s.rank r).pc = .collecting) :
    Stepped net s r .advance (s.setRank r { s.rank r with
      localTransitingResults := (s.rank r).localTransitingResults ++
        (s.segment r).reserved.map fun w => ⟨keyOf net r w.2, .onSegment w.1⟩
      pc := .grouping 0 })
  | submit (c off : ℕ) (x : Transit n) (e : BufferElt n) (hpc : (s.rank r).pc = .grouping c)
      (hx : (s.rank r).localTransitingResults.find? (ofKey r) = some x)
      (hspot : x.spot = .onSegment off) (he : EntryOk net r (s.segment r) x e)
      (howner : e.owner = r) :
    Stepped net s r .advance (s.setRank r { submitResults (s.rank r) e with
      localTransitingResults := (s.rank r).localTransitingResults.eraseP (ofKey r) })
  | group (c : ℕ) (k : Fin n) (hpc : (s.rank r).pc = .grouping c) (hne : k ≠ r)
      (hk : nextKey c (s.rank r).localTransitingResults = some k) :
    Stepped net s r .advance (s.setRank r { s.rank r with pc := .reserving ⟨.group, k⟩ })
  | grouped (c : ℕ) (hpc : (s.rank r).pc = .grouping c)
      (hk : nextKey c (s.rank r).localTransitingResults = none) :
    Stepped net s r .advance (s.setRank r { s.rank r with pc := .purging })
  | purge (hpc : (s.rank r).pc = .purging) :
    Stepped net s r .advance ((s.setSegment r (purge (s.segment r))).setRank r
      { s.rank r with pc := .unlocking })
  | unlockOwn (hpc : (s.rank r).pc = .unlocking) :
    Stepped net s r .advance ((s.setSegment r { s.segment r with
      state := .segmentAvailable }).setRank r { s.rank r with pc := .idle })
  | lockFailed (p : Push n) (hpc : (s.rank r).pc = .reserving p)
      (hst : (s.segment p.target).state ≠ .segmentAvailable) :
    Stepped net s r .advance (s.setRank r (giveUp (s.segment r) (s.rank r) p []))
  | lockTaken (p : Push n) (hpc : (s.rank r).pc = .reserving p)
      (hst : (s.segment p.target).state = .segmentAvailable) :
    Stepped net s r .advance ((s.setSegment p.target { s.segment p.target with
      state := .rank r }).setRank r { s.rank r with pc := .reading p })
  | select (p : Push n) (res : Reservation n) (hpc : (s.rank r).pc = .reading p)
      (hhead : res.head = (s.segment p.target).bufferHead)
      (hcount : res.count = (s.segment p.target).bufferEltCount)
      (hsel : res.elts = Selection.pick res.selected
        (offered (s.segment r).area (s.rank r) p))
      (hroom : (s.segment p.target).bufferHead + toReserve res.elts <
        (s.segment p.target).segmentSize)
      (hlimit : (s.segment p.target).bufferEltCount + res.elts.length ≤ maxBufferElts) :
    Stepped net s r .advance (s.setRank r { s.rank r with
      pc := if res.elts.length = 0 then .releasing p res else .addingHead p res })
  | addHead (p : Push n) (res : Reservation n) (hpc : (s.rank r).pc = .addingHead p res) :
    Stepped net s r .advance ((s.setSegment p.target { s.segment p.target with
      bufferHead := (s.segment p.target).bufferHead + toReserve res.elts
      reserved := (s.segment p.target).reserved ++ Tiling.layOut BufferElt.bufferEntrySize
        (s.segment p.target).bufferHead res.elts }).setRank r
      { s.rank r with pc := .addingCount p res })
  | addCount (p : Push n) (res : Reservation n) (hpc : (s.rank r).pc = .addingCount p res) :
    Stepped net s r .advance ((s.setSegment p.target { s.segment p.target with
      bufferEltCount := (s.segment p.target).bufferEltCount + res.elts.length }).setRank r
      { s.rank r with pc := .releasing p res })
  | releaseEmpty (p : Push n) (res : Reservation n) (hpc : (s.rank r).pc = .releasing p res)
      (helts : res.elts = []) :
    Stepped net s r .advance ((s.setSegment p.target { s.segment p.target with
      state := .segmentAvailable }).setRank r
      (giveUp (s.segment r) (s.rank r) p res.selected))
  | release (p : Push n) (res : Reservation n) (hpc : (s.rank r).pc = .releasing p res)
      (helts : res.elts ≠ []) :
    Stepped net s r .advance ((s.setSegment p.target { s.segment p.target with
      state := .segmentAvailable }).setRank r { s.rank r with pc := .posting p res })
  | post (p : Push n) (res : Reservation n) (hpc : (s.rank r).pc = .posting p res) :
    Stepped net s r .advance ((s.setSegment p.target
      (post (s.segment p.target) (s.rank r) p res)).setRank r
        (settle (s.segment r) (s.rank r) p res))
  | land (i w off : ℕ) (b : Message n) (e : BufferElt n) (hb : (s.segment r).inbox[i]? = some b)
      (hw : b.writes[w]? = some (off, e)) :
    Stepped net s r (.land i w) (s.setSegment r { s.segment r with
      area := Tiling.put BufferElt.bufferEntrySize (s.segment r).area off e
      inbox := (s.segment r).inbox.set i { b with writes := b.writes.eraseIdx w } })
  | deliver (i : ℕ) (b : Message n) (hb : (s.segment r).inbox[i]? = some b)
      (hw : b.writes = []) :
    Stepped net s r (.deliver i) (s.setSegment r { s.segment r with
      notifications := Function.update (s.segment r).notifications b.first b.length
      inbox := (s.segment r).inbox.eraseIdx i })

/-! ### Why no assertion fails -/

theorem ofKey_iff {k : Fin n} {x : Transit n} : ofKey k x ↔ x.key = k := by
  simp only [ofKey, decide_eq_true_eq]

theorem nextKey_eq_some {c : ℕ} {l : List (Transit n)} {k : Fin n} (h : nextKey c l = some k) :
    c ≤ k ∧ (∃ x ∈ l, x.key = k) ∧ ∀ x ∈ l, c ≤ x.key → k ≤ x.key := by
  obtain ⟨hmem, hmin⟩ := List.min?_eq_some_iff.mp h
  simp only [List.mem_filter, List.mem_map, decide_eq_true_eq] at hmem hmin
  exact ⟨hmem.2, hmem.1, fun x hx hc => hmin _ ⟨⟨x, hx, rfl⟩, hc⟩⟩

theorem nextKey_eq_none {c : ℕ} {l : List (Transit n)} (h : nextKey c l = none) :
    ∀ x ∈ l, ↑x.key < c := by
  intro x hx
  have hnil := List.min?_eq_none_iff.mp h
  have := List.filter_eq_nil_iff.mp hnil x.key (List.mem_map_of_mem hx)
  simpa using this

theorem keyOf_ne {e : BufferElt n} (h : e.owner ≠ r) : keyOf net r e ≠ r := by
  rw [keyOf, if_pos h]
  exact net.hop_ne r e.owner h

theorem lagAt_eq_zero {s : State n} {v : Fin n} (h : ∀ q, (s.segment v).state ≠ .rank q) :
    lagAt s v = 0 := by
  unfold lagAt
  split
  · exact absurd ‹_› (h _)
  · rfl

/-- After the wait of a flush the iterator meets the reserved elements. -/
theorem SegmentOk.visitArea {m : BufferedSegment n} {pc : ResultPc n}
    {carried : Fin n → Option (Message n)} {lag : ℕ} (h : SegmentOk m pc carried lag)
    (hd : pc.drained) : visitArea m = some m.reserved :=
  Tiling.visit_of_tiles h.tiles (h.delivery.arrived_of_not_pending (h.drained hd).1)
    (fun w _ => bufferEntrySize_pos w.2) le_rfl

section Rank

variable {m : BufferedSegment n} {t : RankResults n}

theorem EntryOk.isValid {x : Transit n} {e : BufferElt n} (h : EntryOk net r m x e) :
    (x.elt m.area).any (·.isValid m.segmentSize) := by
  rw [h.elt]
  exact h.sound.isValid h.size

theorem allValid_of_entries {l : List (Transit n)} (h : ∀ x ∈ l, ∃ e, EntryOk net r m x e)
    (k : Fin n) : allValid m k l := by
  refine List.all_eq_true.mpr fun x hx => ?_
  obtain ⟨e, he⟩ := h x (List.mem_of_mem_filter hx)
  exact he.isValid

theorem RankOk.settleGroup (h : RankOk net r m t) (k : Fin n) (selected : List Bool) :
    settleGroup m t k selected = settled m t k selected :=
  if_pos (allValid_of_entries
    (fun x hx => h.entries x ((Selection.keep_sublist _ _ _).subset hx)) k)

/-- An entry with the rank itself as its destination is on the segment, and its owner is this
rank. -/
theorem RankOk.own_entry (h : RankOk net r m t) {x : Transit n}
    (hx : x ∈ t.localTransitingResults) (hkey : x.key = r) :
    ∃ off e, x.spot = .onSegment off ∧ EntryOk net r m x e ∧ e.owner = r := by
  obtain ⟨e, he⟩ := h.entries x hx
  have howner : e.owner = r := by
    by_contra hne
    exact keyOf_ne hne (he.key.symm.trans hkey)
  cases hspot : x.spot with
  | onSegment off => exact ⟨off, e, rfl, he, howner⟩
  | inMemory e' =>
    have helt := he.elt
    simp only [Transit.elt, hspot] at helt
    cases helt
    exact absurd howner (he.aside hspot)

theorem RankOk.selectAssertion (h : RankOk net r m t) {p : Push n} {m' : BufferedSegment n}
    (hhead : m'.bufferHead < m'.segmentSize) (hcount : m'.bufferEltCount ≤ maxBufferElts) :
    selectAssertion m t p m' = none := by
  unfold Results.selectAssertion
  split
  · rename_i hp
    have hfits := selection_fits hhead hcount p (offered m.area t p) fun hne => absurd hp hne
    have hroom : toReserve (Selection.pick (selection p m' (offered m.area t p))
        (offered m.area t p)) < available m' := by
      unfold available
      rw [if_pos hhead]
      omega
    simp only [allValid_of_entries h.entries, not_true, if_false, hroom]
  · rfl

end Rank

/-- Where the invariant holds, a rank makes only the steps of `Stepped`. -/
theorem ResultsOk.stepped {s s' : State n} (h : ResultsOk net s) {a : Action n}
    (hs : next net s (r, a) = some s') : Stepped net s r a s' := by
  have hr := h.rank r
  cases a with
  | push k id nb size owner data =>
    simp only [next] at hs
    split at hs <;> cases hs
    rename_i hc
    obtain ⟨-, hpc, htmp, hnb, hsize, hlen⟩ := hc
    have hsound : (newElt (s.rank r) r k id nb size owner data).Sound :=
      ⟨hnb, Nat.mul_pos hsize hnb, hlen⟩
    unfold startPush
    split
    · exact .pushOwn k id nb size owner data _ rfl hsound hpc htmp ‹_›
    · exact .pushTmp k id nb size owner data _ rfl hsound hpc htmp ‹_›
  | flush =>
    simp only [next] at hs
    split at hs <;> cases hs
    rename_i hc
    exact .flush hc.2.1 hc.2.2
  | pushTransit i =>
    simp only [next] at hs
    split at hs
    · cases hs
    · split at hs <;> cases hs
      rename_i x hx hc
      exact .pushTransit i x hx hc.2.1 hc.2.2
  | land i w =>
    simp only [next] at hs
    split at hs
    · cases hs
    · rename_i b hb
      split at hs
      · cases hs
      · rename_i off e hw
        cases hs
        exact .land i w off b e hb hw
  | deliver i =>
    simp only [next] at hs
    split at hs
    · cases hs
    · rename_i b hb
      split at hs <;> cases hs
      rename_i hw
      exact .deliver i b hb (List.length_eq_zero_iff.mp hw)
  | advance =>
    simp only [next] at hs
    split at hs
    swap
    · cases hs
    cases hpc : (s.rank r).pc with
    | reserving p =>
      simp only [hpc, pushNext, compareAndSwapStatus] at hs
      cases hs
      by_cases hst : (s.segment p.target).state = .segmentAvailable
      · simp only [hst, if_true]
        exact .lockTaken p hpc hst
      · simp only [hst, if_false, State.setSegment_self]
        exact .lockFailed p hpc hst
    | reading p =>
      have hst := (h.locks.lock p.target r).mpr (by rw [hpc]; rfl)
      have hseg := h.segment p.target
      have hlag : lagAt s p.target = 0 := by simp only [lagAt, hst, hpc, ResultPc.lag]
      have hcount : (s.segment p.target).bufferEltCount ≤ maxBufferElts := by
        have h1 := hseg.count
        have h2 := hseg.length_le
        omega
      simp only [hpc, pushNext, hr.selectAssertion hseg.head_lt hcount] at hs
      cases hs
      obtain ⟨h1, h2⟩ := selection_fits hseg.head_lt hcount p
        (offered (s.segment r).area (s.rank r) p) (length_offered_le _ _)
      exact .select p ⟨_, _, _, _⟩ hpc rfl rfl rfl h1 h2
    | addingHead p res =>
      have hres := h.reservation r
      simp only [ReservationOk, hpc] at hres
      obtain ⟨head, count, selected, elts⟩ := res
      obtain ⟨rfl, -, -, -⟩ := hres
      simp only [hpc, pushNext, ne_eq, not_true, and_false, if_false] at hs
      cases hs
      exact .addHead p _ hpc
    | addingCount p res =>
      have hres := h.reservation r
      simp only [ReservationOk, hpc] at hres
      obtain ⟨head, count, selected, elts⟩ := res
      subst hres
      simp only [hpc, pushNext, ne_eq, not_true, and_false, if_false] at hs
      cases hs
      exact .addCount p _ hpc
    | releasing p res =>
      have hst := (h.locks.lock p.target r).mpr (by rw [hpc]; rfl)
      simp only [hpc, pushNext, compareAndSwapStatus, hst, if_true, ne_eq, not_true,
        if_false] at hs
      cases hs
      split
      · exact .releaseEmpty p res hpc (List.length_eq_zero_iff.mp ‹_›)
      · exact .release p res hpc fun h0 => ‹¬ _› (List.length_eq_zero_iff.mpr h0)
    | posting p res =>
      simp only [hpc, pushNext] at hs
      cases hs
      exact .post p res hpc
    | idle =>
      simp only [hpc, localNext] at hs
      split at hs <;> cases hs
      simp only [State.setSegment_self]
      exact .startTmp hpc ‹_›
    | checking =>
      simp only [hpc, localNext] at hs
      cases hs
      simp only [State.setSegment_self]
      cases hempty : isEmpty (s.segment r) (s.rank r) with
      | true =>
        simp only [isEmpty, decide_eq_true_eq, List.length_eq_zero_iff] at hempty
        exact .empty hpc hempty.1 hempty.2
      | false =>
        simp only [isEmpty, decide_eq_false_iff_not, List.length_eq_zero_iff, not_and_or] at hempty
        exact .occupied hpc hempty
    | asserting =>
      simp only [hpc, localNext, (h.segment r).head_lt, if_true] at hs
      cases hs
      simp only [State.setSegment_self]
      exact .bounded hpc
    | locking =>
      simp only [hpc, localNext, compareAndSwapStatus] at hs
      cases hs
      by_cases hst : (s.segment r).state = .segmentAvailable
      · simp only [hst, if_true]
        exact .lockOwn hpc hst
      · simp only [hst, if_false, State.setSegment_self, State.setRank_self]
        exact .spin hpc
    | waiting i =>
      have hst := (h.locks.flush r).mpr (by rw [hpc]; rfl)
      have hlag : lagAt s r = 0 := lagAt_eq_zero (by rw [hst]; nofun)
      have hcount := (h.segment r).count
      simp only [hpc, localNext] at hs
      split at hs
      · split at hs <;> cases hs
        exact .consume i hpc ‹_›
      · cases hs
        simp only [State.setSegment_self]
        exact .waited i hpc (by omega)
    | collecting =>
      have hseg := h.segment r
      have hvisit := hseg.visitArea (by rw [hpc]; rfl)
      have hvalid : (s.segment r).reserved.all
          fun w => w.2.isValid (s.segment r).segmentSize :=
        List.all_eq_true.mpr fun w hw => (hseg.sound w hw).isValid (hseg.size_le hw)
      have hocc := hr.occupied (by rw [hpc]; rfl)
      have hne : ¬ ((s.rank r).localTransitingResults ++ (s.segment r).reserved.map
          fun w => (⟨keyOf net r w.2, .onSegment w.1⟩ : Transit n)).length = 0 := by
        rw [List.length_eq_zero_iff, List.append_eq_nil_iff, List.map_eq_nil_iff]
        exact fun hnil => hocc.elim (· hnil.2) (· hnil.1)
      simp only [hpc, localNext, collect, hvisit, hvalid, if_true, hne, if_false] at hs
      cases hs
      simp only [State.setSegment_self]
      exact .collect hpc
    | grouping c =>
      simp only [hpc, localNext] at hs
      split at hs
      · cases hs
        simp only [State.setSegment_self]
        exact .grouped c hpc ‹_›
      · rename_i k hk
        split at hs <;> cases hs <;> simp only [State.setSegment_self]
        · rename_i hkr
          subst hkr
          obtain ⟨-, ⟨y, hy, hykey⟩, -⟩ := nextKey_eq_some hk
          obtain ⟨x, hx⟩ := Option.isSome_iff_exists.mp
            (List.find?_isSome.mpr ⟨y, hy, ofKey_iff.mpr hykey⟩)
          obtain ⟨off, e, hspot, he, howner⟩ := hr.own_entry (List.mem_of_find?_eq_some hx)
            (ofKey_iff.mp (List.find?_some hx))
          have harea : (s.segment k).area off = some e := by
            simpa only [Transit.elt, hspot] using he.elt
          simp only [submitNext, hx, hspot, harea, he.sound.isValid he.size, if_true]
          exact .submit c off x e hpc hx hspot he howner
        · exact .group c k hpc ‹_› hk
    | purging =>
      simp only [hpc, localNext] at hs
      cases hs
      exact .purge hpc
    | unlocking =>
      have hst := (h.locks.flush r).mpr (by rw [hpc]; rfl)
      simp only [hpc, localNext, compareAndSwapStatus, hst, if_true] at hs
      cases hs
      exact .unlockOwn hpc

end Titus.Results
