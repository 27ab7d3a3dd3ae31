import Titus.Lib.Transition
import Titus.Results.State
import Mathlib.Order.Fin.Basic

/-! The steps of `push_tmp_results`, `try_remote_buffer_alloc`, `try_push_vector_elt_to` and
`try_flush_buffer_elts_packed`, and the arrival of what they write. -/

namespace Titus.Results

open Memory

variable {n : ℕ}

/-! ### The functions -/

/-- `compare_and_swap_status` on a result segment: the old value, and the segment after it. -/
def compareAndSwapStatus (m : BufferedSegment n) (comp newVal : ResultLock n) :
    ResultLock n × BufferedSegment n :=
  (m.state, if m.state = comp then { m with state := newVal } else m)

/-- `is_empty`. -/
def isEmpty (m : BufferedSegment n) (t : RankResults n) : Bool :=
  m.bufferTail = m.bufferHead ∧ t.localTransitingResults.length = 0

/-- The key under which rank `r` puts an element into `local_transiting_results`. -/
def keyOf (net : Network n) (r : Fin n) (e : BufferElt n) : Fin n :=
  if e.owner ≠ r then net.selectNextHopTo r e.owner else e.owner

/-- The element of an entry of `local_transiting_results`, on a segment with the elements
`area`. -/
def Transit.elt (area : ℕ → Option (BufferElt n)) (x : Transit n) : Option (BufferElt n) :=
  match x.spot with
  | .inMemory e => some e
  | .onSegment off => area off

/-- The entry is for destination `k`. -/
def ofKey (k : Fin n) (x : Transit n) : Bool := x.key = k

/-- The first destination from `c` on that has entries. -/
def nextKey (c : ℕ) (l : List (Transit n)) : Option (Fin n) :=
  ((l.map Transit.key).filter fun k : Fin n => c ≤ k.val).min?

/-- `submit_results`. -/
def submitResults (t : RankResults n) (e : BufferElt n) : RankResults n :=
  { t with
    usrResults := copy t.usrResults (t.resultSize * e.firstTaskId) (fun i => e.data.getD i 0) 0
      (e.nbResult * t.resultSize)
    nbResult := t.nbResult + e.nbResult
    submitted := e :: t.submitted
    failed := if t.nbResult + e.nbResult ≤ t.nbUsrResults then t.failed else some .nbResult }

/-- The space that elements take on a segment. -/
def toReserve (elts : List (BufferElt n)) : ℕ := Tiling.extent BufferElt.bufferEntrySize elts

/-- `select_elts_to_push`, with `toReserve` bytes and `eltCount` elements selected so far: whether
each element is selected. -/
def selectEltsToPush (availableSize maxEltsCount : ℕ) :
    ℕ → ℕ → List (BufferElt n) → List Bool
  | _, _, [] => []
  | toReserve, eltCount, e :: l =>
    if e.bufferEntrySize < availableSize - toReserve ∧ eltCount < maxEltsCount then
      true :: selectEltsToPush availableSize maxEltsCount (toReserve + e.bufferEntrySize)
        (eltCount + 1) l
    else false :: selectEltsToPush availableSize maxEltsCount toReserve eltCount l

/-- The free space of the target's segment, as `try_push_vector_elt_to` computes it. -/
def available (m : BufferedSegment n) : ℕ :=
  if m.bufferHead < m.segmentSize then m.segmentSize - m.bufferHead else 0

/-- The test of `try_remote_buffer_alloc`. -/
def fits (m : BufferedSegment n) (e : BufferElt n) : Bool :=
  m.bufferHead + e.bufferEntrySize < m.segmentSize ∧ m.bufferEltCount < maxBufferElts

/-- The elements that a push is about, on a rank with the elements `area` on its segment. -/
def offered (area : ℕ → Option (BufferElt n)) (t : RankResults n) (p : Push n) :
    List (BufferElt n) :=
  match p.site with
  | .tmp => t.tmp.toList
  | .transit i => (t.localTransitingResults[i]?.bind (Transit.elt area)).toList
  | .group => (t.localTransitingResults.filter (ofKey p.target)).filterMap (Transit.elt area)

/-- Which of the elements offered are selected for the target's segment `m`. -/
def selection (p : Push n) (m : BufferedSegment n) (elts : List (BufferElt n)) : List Bool :=
  match p.site with
  | .group => selectEltsToPush (available m) (maxBufferElts - m.bufferEltCount) 0 0 elts
  | _ => elts.map (fits m)

/-- The entries `l` for destination `k` hold valid elements. -/
def allValid (own : BufferedSegment n) (k : Fin n) (l : List (Transit n)) : Bool :=
  (l.filter (ofKey k)).all fun x => (x.elt own.area).any (·.isValid own.segmentSize)

/-- What `select_elts_to_push` asserts, on a rank with the segment `own`, for the target's segment
`m`. -/
def selectAssertion (own : BufferedSegment n) (t : RankResults n) (p : Push n)
    (m : BufferedSegment n) : Option Assertion :=
  if p.site = .group then
    let elts := offered own.area t p
    if ¬ allValid own p.target t.localTransitingResults then some .eltValid
    else if ¬ toReserve (Selection.pick (selection p m elts) elts) < available m then
      some .toReserve
    else none
  else none

/-- An entry that was not sent is copied to memory of its own. -/
def putAside (area : ℕ → Option (BufferElt n)) (x : Transit n) : Transit n :=
  match x.spot with
  | .inMemory _ => x
  | .onSegment off =>
    match area off with
    | some e => ⟨x.key, .inMemory e⟩
    | none => x

/-- The entries for destination `k` that were sent leave the map, and the others are put aside. -/
def settled (own : BufferedSegment n) (t : RankResults n) (k : Fin n) (selected : List Bool) :
    RankResults n :=
  { t with
    localTransitingResults := (Selection.keep (ofKey k) selected t.localTransitingResults).map
      fun x => if ofKey k x then putAside own.area x else x
    pc := .grouping (k + 1) }

/-- The end of the loop body of `try_flush_buffer_elts_packed` for destination `k`. -/
def settleGroup (own : BufferedSegment n) (t : RankResults n) (k : Fin n) (selected : List Bool) :
    RankResults n :=
  if allValid own k (Selection.keep (ofKey k) selected t.localTransitingResults) then
    settled own t k selected
  else { t with failed := some .eltValid }

/-- What follows a push that has reserved nothing. -/
def giveUp (own : BufferedSegment n) (t : RankResults n) (p : Push n) (selected : List Bool) :
    RankResults n :=
  match p.site with
  | .tmp => { t with pc := .checking }
  | .transit _ => { t with pc := .idle }
  | .group => settleGroup own t p.target selected

/-- The elements on the segment, each with its offset, as the iterator meets them. -/
def visitArea (m : BufferedSegment n) : Option (List (ℕ × BufferElt n)) :=
  Tiling.visit BufferElt.bufferEntrySize m.area m.bufferHead (m.bufferHead - m.bufferTail)
    m.bufferTail

/-- All elements on the segment of rank `r` go into `local_transiting_results`. -/
def collect (net : Network n) (r : Fin n) (m : BufferedSegment n) (t : RankResults n) :
    RankResults n :=
  match visitArea m with
  | none => { t with failed := some .eltValid }
  | some l =>
    if l.all fun w => w.2.isValid m.segmentSize then
      let transit := t.localTransitingResults ++ l.map fun w => ⟨keyOf net r w.2, .onSegment w.1⟩
      if transit.length = 0 then { t with failed := some .firstKey }
      else { t with localTransitingResults := transit, pc := .grouping 0 }
    else { t with failed := some .eltValid }

/-- The first entry with rank `r` itself as its destination is submitted. -/
def submitNext (r : Fin n) (m : BufferedSegment n) (t : RankResults n) : RankResults n :=
  match t.localTransitingResults.find? (ofKey r) with
  | none => t
  | some x =>
    match x.spot with
    | .inMemory _ => { t with failed := some .onSegment }
    | .onSegment off =>
      match m.area off with
      | none => { t with failed := some .eltValid }
      | some e =>
        if e.isValid m.segmentSize then
          { submitResults t e with
            localTransitingResults := t.localTransitingResults.eraseP (ofKey r) }
        else { t with failed := some .eltValid }

/-- `purge`. -/
def purge (m : BufferedSegment n) : BufferedSegment n :=
  { m with
    area := fun i => if m.bufferTail ≤ i ∧ i < m.bufferHead then none else m.area i
    bufferHead := m.bufferTail
    bufferEltCount := 0
    reserved := [] }

/-! ### The steps of one rank on its own state -/

/-- The segment and the state of rank `r` after the point `t.pc`, where that concerns no other
rank. -/
def localNext (net : Network n) (r : Fin n) (m : BufferedSegment n) (t : RankResults n) :
    Option (BufferedSegment n × RankResults n) :=
  match t.pc with
  | .idle => if t.tmp.isSome then some (m, { t with pc := .reserving ⟨.tmp, r⟩ }) else none
  | .checking => some (m, { t with pc := if isEmpty m t then .idle else .asserting })
  | .asserting =>
    if m.bufferHead < m.segmentSize then some (m, { t with pc := .locking })
    else some (m, { t with failed := some .headBound })
  | .locking =>
    let (old, m) := compareAndSwapStatus m .segmentAvailable .copyInProgress
    some (m, if old = .segmentAvailable then { t with pc := .waiting 0 } else t)
  | .waiting i =>
    if i < m.bufferEltCount then
      if m.notifications i = 0 then none
      else some ({ m with notifications := Function.update m.notifications i 0 },
        { t with pc := .waiting (i + m.notifications i) })
    else some (m, { t with pc := .collecting })
  | .collecting => some (m, collect net r m t)
  | .grouping c =>
    match nextKey c t.localTransitingResults with
    | none => some (m, { t with pc := .purging })
    | some k =>
      if k = r then some (m, submitNext r m t)
      else some (m, { t with pc := .reserving ⟨.group, k⟩ })
  | .purging => some (purge m, { t with pc := .unlocking })
  | .unlocking =>
    let (old, m) := compareAndSwapStatus m .copyInProgress .segmentAvailable
    some (m, if old = .copyInProgress then { t with pc := .idle }
      else { t with failed := some .unlockFlush })
  | _ => none

/-! ### The steps of all ranks -/

/-- What a rank does next, or what becomes visible on its segment. -/
inductive Action (n : ℕ)
  /-- Call `push_tmp_results` with these results. -/
  | push (session firstTaskId nbResult resultSize : ℕ) (owner : Fin n) (data : List UInt8)
  /-- Call `try_flush_buffer_elts_packed`. -/
  | flush
  /-- Try to send the entry at position `i`, as `try_push_local_transiting_results` does. -/
  | pushTransit (i : ℕ)
  /-- Go on from the point reached. -/
  | advance
  /-- Write `w` of message `m` arrives. -/
  | land (m w : ℕ)
  /-- All writes of message `m` have arrived, and its notification does. -/
  | deliver (m : ℕ)
deriving DecidableEq

/-- The state with rank `r` at `t`. -/
def State.setRank (s : State n) (r : Fin n) (t : RankResults n) : State n :=
  { s with rank := Function.update s.rank r t }

/-- The state with the segment of rank `v` at `m`. -/
def State.setSegment (s : State n) (v : Fin n) (m : BufferedSegment n) : State n :=
  { s with segment := Function.update s.segment v m }

@[simp] theorem State.segment_setRank (s : State n) (r : Fin n) (t : RankResults n) :
    (s.setRank r t).segment = s.segment := rfl

@[simp] theorem State.rank_setRank (s : State n) (r : Fin n) (t : RankResults n) :
    (s.setRank r t).rank = Function.update s.rank r t := rfl

@[simp] theorem State.segment_setSegment (s : State n) (v : Fin n) (m : BufferedSegment n) :
    (s.setSegment v m).segment = Function.update s.segment v m := rfl

@[simp] theorem State.rank_setSegment (s : State n) (v : Fin n) (m : BufferedSegment n) :
    (s.setSegment v m).rank = s.rank := rfl

@[simp] theorem State.setSegment_self (s : State n) (v : Fin n) :
    s.setSegment v (s.segment v) = s := by
  rw [setSegment, Function.update_eq_self]

@[simp] theorem State.setRank_self (s : State n) (r : Fin n) : s.setRank r (s.rank r) = s := by
  rw [setRank, Function.update_eq_self]

/-- The element that `push_tmp_results` builds on rank `r`. -/
def newElt (t : RankResults n) (r : Fin n) (session firstTaskId nbResult resultSize : ℕ)
    (owner : Fin n) (data : List UInt8) : BufferElt n :=
  ⟨firstTaskId, nbResult, resultSize * nbResult, owner, data, ⟨r, session, t.pushed.length⟩⟩

/-- The start of `push_tmp_results` on rank `r`: its own results are submitted at once. -/
def startPush (t : RankResults n) (r : Fin n) (e : BufferElt n) : RankResults n :=
  if e.owner = r then { submitResults t e with pushed := e :: t.pushed }
  else { t with tmp := some e, pushed := e :: t.pushed }

/-- What a push posts to the target's segment. -/
def message (p : Push n) (res : Reservation n) : Message n where
  first := res.count
  length := res.elts.length
  writes :=
    match p.site with
    | .tmp => []
    | _ => Tiling.layOut BufferElt.bufferEntrySize res.head res.elts

/-- The target's segment when a push has posted its message.  `push_tmp_results` copies its element
there itself. -/
def post (m : BufferedSegment n) (t : RankResults n) (p : Push n) (res : Reservation n) :
    BufferedSegment n :=
  { m with
    area := match p.site, t.tmp with
      | .tmp, some e => Tiling.put BufferElt.bufferEntrySize m.area res.head e
      | _, _ => m.area
    inbox := m.inbox ++ [message p res] }

/-- The end of a push. -/
def settle (own : BufferedSegment n) (t : RankResults n) (p : Push n) (res : Reservation n) :
    RankResults n :=
  match p.site with
  | .tmp => { t with tmp := none, pc := .idle }
  | .transit i =>
    { t with localTransitingResults := t.localTransitingResults.eraseIdx i, pc := .idle }
  | .group => settleGroup own t p.target res.selected

/-- The steps of a push on rank `r`, which concern the segment of the target. -/
def pushNext (s : State n) (r : Fin n) : Option (State n) :=
  let t := s.rank r
  match t.pc with
  | .reserving p =>
    let (old, m) := compareAndSwapStatus (s.segment p.target) .segmentAvailable (.rank r)
    some ((s.setSegment p.target m).setRank r
      (if old = .segmentAvailable then { t with pc := .reading p }
      else giveUp (s.segment r) t p []))
  | .reading p =>
    let m := s.segment p.target
    let elts := offered (s.segment r).area t p
    let selected := selection p m elts
    let res : Reservation n :=
      ⟨m.bufferHead, m.bufferEltCount, selected, Selection.pick selected elts⟩
    match selectAssertion (s.segment r) t p m with
    | some a => some (s.setRank r { t with failed := some a })
    | none => some (s.setRank r { t with
        pc := if res.elts.length = 0 then .releasing p res else .addingHead p res })
  | .addingHead p res =>
    let m := s.segment p.target
    some ((s.setSegment p.target { m with
        bufferHead := m.bufferHead + toReserve res.elts
        reserved := m.reserved ++
          Tiling.layOut BufferElt.bufferEntrySize m.bufferHead res.elts }).setRank r
      (if p.site = .group ∧ m.bufferHead ≠ res.head then { t with failed := some .headMoved }
      else { t with pc := .addingCount p { res with head := m.bufferHead } }))
  | .addingCount p res =>
    let m := s.segment p.target
    some ((s.setSegment p.target { m with
        bufferEltCount := m.bufferEltCount + res.elts.length }).setRank r
      (if p.site = .group ∧ m.bufferEltCount ≠ res.count then { t with failed := some .countMoved }
      else { t with pc := .releasing p { res with count := m.bufferEltCount } }))
  | .releasing p res =>
    let (old, m) := compareAndSwapStatus (s.segment p.target) (.rank r) .segmentAvailable
    some ((s.setSegment p.target m).setRank r
      (if old ≠ .rank r then { t with failed := some .unlockPush }
      else if res.elts.length = 0 then giveUp (s.segment r) t p res.selected
      else { t with pc := .posting p res }))
  | .posting p res =>
    some ((s.setSegment p.target (post (s.segment p.target) t p res)).setRank r
      (settle (s.segment r) t p res))
  | _ => none

/-- One step of rank `r`. -/
def next (net : Network n) (s : State n) : Fin n × Action n → Option (State n)
  | (r, .push session firstTaskId nbResult resultSize owner data) =>
    if (s.rank r).failed = none ∧ (s.rank r).pc = .idle ∧ (s.rank r).tmp = none ∧
        0 < nbResult ∧ 0 < resultSize ∧ data.length = resultSize * nbResult then
      some (s.setRank r (startPush (s.rank r) r
        (newElt (s.rank r) r session firstTaskId nbResult resultSize owner data)))
    else none
  | (r, .flush) =>
    if (s.rank r).failed = none ∧ (s.rank r).pc = .idle ∧ (s.rank r).tmp = none then
      some (s.setRank r { s.rank r with pc := .checking })
    else none
  | (r, .pushTransit i) =>
    match (s.rank r).localTransitingResults[i]? with
    | none => none
    | some x =>
      if (s.rank r).failed = none ∧ (s.rank r).pc = .idle ∧ (s.rank r).tmp = none then
        some (s.setRank r { s.rank r with pc := .reserving ⟨.transit i, x.key⟩ })
      else none
  | (r, .advance) =>
    if (s.rank r).failed = none then
      match (s.rank r).pc with
      | .reserving _ | .reading _ | .addingHead _ _ | .addingCount _ _ | .releasing _ _ |
        .posting _ _ => pushNext s r
      | _ => (localNext net r (s.segment r) (s.rank r)).map fun q =>
          (s.setSegment r q.1).setRank r q.2
    else none
  | (r, .land i w) =>
    match (s.segment r).inbox[i]? with
    | none => none
    | some msg =>
      match msg.writes[w]? with
      | none => none
      | some (off, e) =>
        some (s.setSegment r { s.segment r with
          area := Tiling.put BufferElt.bufferEntrySize (s.segment r).area off e
          inbox := (s.segment r).inbox.set i { msg with writes := msg.writes.eraseIdx w } })
  | (r, .deliver i) =>
    match (s.segment r).inbox[i]? with
    | none => none
    | some msg =>
      if msg.writes.length = 0 then
        some (s.setSegment r { s.segment r with
          notifications := Function.update (s.segment r).notifications msg.first msg.length
          inbox := (s.segment r).inbox.eraseIdx i })
      else none

/-- A segment that has just been constructed. -/
structure SegmentInit (m : BufferedSegment n) : Prop where
  state : m.state = .segmentAvailable
  head : m.bufferHead = m.bufferTail
  room : m.bufferTail < m.segmentSize
  count : m.bufferEltCount = 0
  notifications : ∀ i, m.notifications i = 0
  inbox : m.inbox = []
  reserved : m.reserved = []

/-- A rank that has not pushed anything yet. -/
structure RankInit (t : RankResults n) : Prop where
  pc : t.pc = .idle
  nbResult : t.nbResult = 0
  transit : t.localTransitingResults = []
  tmp : t.tmp = none
  failed : t.failed = none
  pushed : t.pushed = []
  submitted : t.submitted = []

/-- The result side of the library on `n` ranks. -/
def system (net : Network n) : Transition.System (State n) (Fin n × Action n) where
  init s := (∀ r, SegmentInit (s.segment r)) ∧ ∀ r, RankInit (s.rank r)
  next := next net

end Titus.Results
