import Titus.Config
import Titus.Lib.Announcement
import Titus.Lib.Tiling
import Titus.Lib.Selection

/-! The state of the ranks about results: the result segments, and for each rank the elements it has
put aside, the results it has submitted, and the point that it has reached in a push or a flush. -/

namespace Titus.Results

open Memory

variable {n : ℕ}

/-! ### Elements -/

/-- One call of `push_tmp_results`: its rank and session, and how many came before it there. -/
structure BatchId (n : ℕ) where
  producer : Fin n
  session : ℕ
  seq : ℕ
deriving DecidableEq

/-- `BufferElt`, with the data that follows it.  `batch` is not in memory: it tells the calls of
`push_tmp_results` apart that built the elements. -/
structure BufferElt (n : ℕ) where
  firstTaskId : ℕ
  nbResult : ℕ
  dataSize : ℕ
  owner : Fin n
  data : List UInt8
  batch : BatchId n
deriving DecidableEq

namespace BufferElt

/-- `buffer_entry_size`. -/
def bufferEntrySize (e : BufferElt n) : ℕ := e.dataSize + sizeofBufferElt

/-- `is_valid` on a rank with a result segment of `segmentSize` bytes.  The owner is a rank by its
type. -/
def isValid (e : BufferElt n) (segmentSize : ℕ) : Bool :=
  e.nbResult ≠ 0 ∧ e.bufferEntrySize ≤ segmentSize ∧ e.dataSize ≤ segmentSize ∧ e.dataSize ≠ 0

end BufferElt

/-- Where the element of an entry of `local_transiting_results` is: on the result segment, or in
memory of its own. -/
inductive Spot (n : ℕ)
  | onSegment (off : ℕ)
  | inMemory (e : BufferElt n)
deriving DecidableEq

/-- An entry of the multimap `local_transiting_results`. -/
structure Transit (n : ℕ) where
  key : Fin n
  spot : Spot n
deriving DecidableEq

/-! ### Communication -/

/-- The values of the state word of a result segment. -/
inductive ResultLock (n : ℕ)
  | segmentAvailable
  | copyInProgress
  | rank (r : Fin n)
deriving DecidableEq

/-- Writes to a result segment that are not complete, and the notification that follows them: its
identifier `first` and its value `length`. -/
abbrev Message (n : ℕ) := Announcement.Block (ℕ × BufferElt n)

/-- Who reserves space on a segment: `push_tmp_results` on that of its own rank,
`try_push_local_transiting_results` for one entry, or `try_flush_buffer_elts_packed` for all entries
of a destination. -/
inductive PushSite
  | tmp
  | transit (i : ℕ)
  | group
deriving DecidableEq

/-- A push to the result segment of `target`. -/
structure Push (n : ℕ) where
  site : PushSite
  target : Fin n
deriving DecidableEq

/-- What a push knows of the target's segment, and the elements that it has selected. -/
structure Reservation (n : ℕ) where
  head : ℕ
  count : ℕ
  selected : List Bool
  elts : List (BufferElt n)
deriving DecidableEq

/-! ### Segments -/

/-- The part of `MetadataResult` that other ranks access, with the elements behind it: `area` has
them by their offset, and `inbox` has what other ranks have posted to the segment.  `reserved` is
not in memory: it has the elements that space was reserved for since the last purge. -/
structure BufferedSegment (n : ℕ) where
  state : ResultLock n
  segmentSize : ℕ
  bufferTail : ℕ
  bufferHead : ℕ
  bufferEltCount : ℕ
  area : ℕ → Option (BufferElt n)
  notifications : ℕ → ℕ
  inbox : List (Message n)
  reserved : List (ℕ × BufferElt n)

/-! ### Ranks -/

/-- The assertions of the modelled functions. -/
inductive Assertion
  /-- `buffer_head < segment_size` at the start of a flush. -/
  | headBound
  /-- `is_valid()` of an element. -/
  | eltValid
  /-- `local_transiting_results` is not empty when its first key is read. -/
  | firstKey
  /-- An element with this rank as its destination is on the segment. -/
  | onSegment
  /-- `nb_result <= nb_usr_results` in `submit_results`. -/
  | nbResult
  /-- `to_reserve < available_size` in `select_elts_to_push`. -/
  | toReserve
  /-- `value_old == remote_bsm->buffer_head`. -/
  | headMoved
  /-- `value_old == remote_bsm->buffer_elt_count`. -/
  | countMoved
  /-- The unlock of the target's segment found the rank's own value. -/
  | unlockPush
  /-- The unlock after a flush found `COPY_IN_PROGRESS`. -/
  | unlockFlush
deriving DecidableEq

/-- The point that a rank has reached in a push or a flush.  Between two points a rank makes at
most one access to what other ranks access. -/
inductive ResultPc (n : ℕ)
  /-- Not in a flush or in a push, or at the head of the loop of `push_tmp_results`. -/
  | idle
  /-- Before `is_empty()`. -/
  | checking
  /-- Before the assertion on `buffer_head`. -/
  | asserting
  | locking
  /-- Waiting for the notification of the element with this index. -/
  | waiting (i : ℕ)
  /-- Before the elements on the segment are put into `local_transiting_results`. -/
  | collecting
  /-- The destinations below `c` are done. -/
  | grouping (c : ℕ)
  | purging
  | unlocking
  /-- Before the lock of the target's segment. -/
  | reserving (p : Push n)
  /-- The target's segment is locked. -/
  | reading (p : Push n)
  /-- Before the `gaspi_atomic_fetch_add` on `buffer_head`. -/
  | addingHead (p : Push n) (res : Reservation n)
  /-- Before the `gaspi_atomic_fetch_add` on `buffer_elt_count`. -/
  | addingCount (p : Push n) (res : Reservation n)
  /-- Before the unlock of the target's segment. -/
  | releasing (p : Push n) (res : Reservation n)
  /-- Before the elements are written. -/
  | posting (p : Push n) (res : Reservation n)
deriving DecidableEq

/-- What a rank keeps for itself.  `tmp` is the content of the tmp segment while `push_tmp_results`
runs, and `failed` is the assertion that has stopped the rank.  The last two fields are not in
memory: `pushed` has the batches given to `push_tmp_results`, and `submitted` those given to
`submit_results`. -/
structure RankResults (n : ℕ) where
  pc : ResultPc n
  nbResult : ℕ
  nbUsrResults : ℕ
  resultSize : ℕ
  usrResults : Mem
  localTransitingResults : List (Transit n)
  tmp : Option (BufferElt n)
  failed : Option Assertion
  pushed : List (BufferElt n)
  submitted : List (BufferElt n)

/-- The segments and the ranks. -/
structure State (n : ℕ) where
  segment : Fin n → BufferedSegment n
  rank : Fin n → RankResults n

/-- How results travel: `select_next_hop_to` on every rank.  A rank sends nothing that is owned by
another to itself. -/
structure Network (n : ℕ) where
  selectNextHopTo : Fin n → Fin n → Fin n
  hop_ne : ∀ r owner, owner ≠ r → selectNextHopTo r owner ≠ r

end Titus.Results
