import Titus.Results.PackedPush
import Titus.Results.SegmentInvariant

/-! The piecewise pushes that a packed push replaces: `try_push_buffer_elt_to` reserves space for
one element and writes it with a notification of its own.  A packed push enqueues the same writes.
-/

namespace Titus.Results

open Memory

variable {n : ℕ} {net : Network n}

/-! ### Piecewise pushes -/

/-- `try_remote_buffer_alloc` once it has the lock and the copy of the target's metadata: the offset
and the index reserved, where `none` is the offset -1, and the metadata after it. -/
def tryRemoteBufferAlloc (remote : RemoteBsm) (bytes : ℕ) : Option (ℕ × ℕ) × RemoteBsm :=
  if remote.bufferHead + bytes < remote.segmentSize ∧ remote.bufferEltCount < maxBufferElts then
    (some (remote.bufferHead, remote.bufferEltCount),
      { remote with
        bufferHead := remote.bufferHead + bytes
        bufferEltCount := remote.bufferEltCount + 1 })
  else (none, remote)

/-- What piecewise pushes to one target have done: the target's metadata, what each call returned,
the writes and the notifications, and `results_pushed_count`. -/
structure PiecewisePush where
  remote : RemoteBsm
  returned : List Bool
  args : List WriteArg
  notified : List (ℕ × ℕ)
  resultsPushedCount : ℕ

/-- `try_push_buffer_elt_to`, for the element at offset `off` of the result segment `own`. -/
def tryPushBufferEltTo (own : Mem) (p : PiecewisePush) (off : ℕ) : PiecewisePush :=
  let e : EltPtr := ⟨own, off⟩
  match tryRemoteBufferAlloc p.remote e.bufferEntrySize with
  | (some (dstOff, index), remote) =>
    { remote
      returned := p.returned ++ [true]
      args := p.args ++ [⟨.result, off, dstOff, e.bufferEntrySize⟩]
      notified := p.notified ++ [(index, 1)]
      resultsPushedCount := p.resultsPushedCount + e.nbResult }
  | (none, remote) => { p with remote, returned := p.returned ++ [false] }

/-- The loop of `try_flush_buffer_elts` over the elements that go to one target. -/
def pushPiecewise (own : Mem) (remote : RemoteBsm) (offs : List ℕ) : PiecewisePush :=
  offs.foldl (tryPushBufferEltTo own) ⟨remote, [], [], [], 0⟩

/-! ### Notifications -/

/-- The notifications of a segment after those of `l`, each an index and a value. -/
def notifyAll (notifications : ℕ → ℕ) (l : List (ℕ × ℕ)) : ℕ → ℕ :=
  l.foldl (fun f w => Function.update f w.1 w.2) notifications

/-- The loop of `wait_notifications_for_all_elts` from index `i` on: the indices that it waits at.
`none` if one of the notifications is not there. -/
def waitNotifications (notifications : ℕ → ℕ) (bufferEltCount : ℕ) : ℕ → ℕ → Option (List ℕ)
  | 0, i => if bufferEltCount ≤ i then some [] else none
  | fuel + 1, i =>
    if bufferEltCount ≤ i then some []
    else if notifications i = 0 then none
    else (waitNotifications notifications bufferEltCount fuel (i + notifications i)).map (i :: ·)

/-- The notification of a packed push. -/
def packedNotification (remote : RemoteBsm) (r : SelectedElts) : List (ℕ × ℕ) :=
  if r.eltCount = 0 then [] else [(remote.bufferEltCount, r.eltCount)]

/-! ### The same push -/

/-- The metadata that a push reads from a segment. -/
def BufferedSegment.remoteBsm (m : BufferedSegment n) : RemoteBsm :=
  ⟨m.segmentSize, m.bufferHead, m.bufferEltCount⟩

/-- The metadata of the target after a packed push. -/
def RemoteBsm.reserved (remote : RemoteBsm) (r : SelectedElts) : RemoteBsm :=
  { remote with
    bufferHead := remote.bufferHead + r.toReserve
    bufferEltCount := remote.bufferEltCount + r.eltCount }

/-- A packed push that selects `r` and builds `b` does what the piecewise pushes `p` do. -/
structure SamePush (scratch : Mem) (remote : RemoteBsm) (notifications : ℕ → ℕ) (r : SelectedElts)
    (b : WriteList) (p : PiecewisePush) : Prop where
  selected : r.selected = p.returned
  metadata : remote.reserved r = p.remote
  args : b.args = p.args
  scratch : b.scratch = scratch
  resultsPushedCount : b.resultsPushedCount = p.resultsPushedCount
  /-- The target waits once for the elements of the packed push, -/
  packedWait : waitNotifications (notifyAll notifications (packedNotification remote r))
    (remote.bufferEltCount + r.eltCount) r.eltCount remote.bufferEltCount =
      some ((packedNotification remote r).map Prod.fst)
  /-- and for each element of the piecewise pushes. -/
  piecewiseWait : waitNotifications (notifyAll notifications p.notified)
    (remote.bufferEltCount + r.eltCount) r.eltCount remote.bufferEltCount =
      some (List.range' remote.bufferEltCount r.eltCount)

variable {own scratch : Mem} {remote : RemoteBsm} {notifications : ℕ → ℕ} {r : SelectedElts}
  {b : WriteList} {p : PiecewisePush} {offs : List ℕ}

/-! ### Waiting -/

theorem notifyAll_ones (notifications : ℕ → ℕ) (first k i : ℕ) :
    notifyAll notifications ((List.range' first k).map fun j => (j, 1)) i =
      if first ≤ i ∧ i < first + k then 1 else notifications i := by
  induction k generalizing first notifications with
  | zero =>
    have hno : ¬ (first ≤ i ∧ i < first + 0) := by omega
    rw [if_neg hno]
    rfl
  | succ k ih =>
    have hstep : notifyAll notifications ((List.range' first (k + 1)).map fun j => (j, 1)) =
        notifyAll (Function.update notifications first 1)
          ((List.range' (first + 1) k).map fun j => (j, 1)) := rfl
    rw [hstep, ih]
    by_cases hi : i = first
    · subst hi
      rw [if_neg (by omega), if_pos (by omega), Function.update_self]
    · rw [Function.update_of_ne hi]
      congr 1
      rw [eq_iff_iff]
      omega

theorem waitNotifications_ones {f : ℕ → ℕ} {first k : ℕ}
    (h : ∀ i, first ≤ i → i < first + k → f i = 1) :
    waitNotifications f (first + k) k first = some (List.range' first k) := by
  induction k generalizing first with
  | zero => simp [waitNotifications]
  | succ k ih =>
    have hrest : waitNotifications f (first + 1 + k) k (first + 1) =
        some (List.range' (first + 1) k) := ih fun i hi hlt => h i (by omega) (by omega)
    have hcount : first + 1 + k = first + (k + 1) := by omega
    rw [hcount] at hrest
    have hlt : ¬ first + (k + 1) ≤ first := by omega
    have hone : f first = 1 := h first le_rfl (by omega)
    have hne : ¬ f first = 0 := by omega
    rw [waitNotifications, if_neg hlt, if_neg hne, hone, hrest]
    rfl

theorem waitNotifications_packed (notifications : ℕ → ℕ) (remote : RemoteBsm) (r : SelectedElts) :
    waitNotifications (notifyAll notifications (packedNotification remote r))
      (remote.bufferEltCount + r.eltCount) r.eltCount remote.bufferEltCount =
        some ((packedNotification remote r).map Prod.fst) := by
  unfold packedNotification
  cases hcount : r.eltCount with
  | zero => simp [waitNotifications]
  | succ k =>
    have hlast : waitNotifications (Function.update notifications remote.bufferEltCount (k + 1))
        (remote.bufferEltCount + (k + 1)) k (remote.bufferEltCount + (k + 1)) = some [] := by
      cases k <;> simp [waitNotifications]
    have hlt : ¬ remote.bufferEltCount + (k + 1) ≤ remote.bufferEltCount := by omega
    simp only [Nat.succ_ne_zero, if_false, notifyAll, List.foldl_cons, List.foldl_nil,
      waitNotifications, if_neg hlt, Function.update_self, hlast]
    rfl

/-! ### The selection and the writes -/

/-- The piecewise pushes `p` have done what the packed push does for the elements it has met. -/
structure Follows (scratch : Mem) (remote : RemoteBsm) (r : SelectedElts) (b : WriteList)
    (p : PiecewisePush) : Prop where
  selected : r.selected = p.returned
  metadata : remote.reserved r = p.remote
  args : b.args = p.args
  scratch : b.scratch = scratch
  offsetRemote : b.offsetRemote = remote.bufferHead + r.toReserve
  resultsPushedCount : b.resultsPushedCount = p.resultsPushedCount
  notified : p.notified = (List.range' remote.bufferEltCount r.eltCount).map fun j => (j, 1)

/-- The packed push has room for an element when the piecewise pushes have. -/
theorem fits_iff (hroom : remote.bufferHead < remote.segmentSize)
    (hcount : remote.bufferEltCount ≤ maxBufferElts) (r : SelectedElts) (size : ℕ) :
    (remote.available - r.toReserve > size ∧ r.eltCount < remote.maxEltsCount) ↔
      (remote.reserved r).bufferHead + size < (remote.reserved r).segmentSize ∧
        (remote.reserved r).bufferEltCount < maxBufferElts := by
  have havailable : remote.available = remote.segmentSize - remote.bufferHead := if_pos hroom
  have hmax : remote.maxEltsCount = maxBufferElts - remote.bufferEltCount := by
    unfold RemoteBsm.maxEltsCount
    simp only [maxBufferElts] at hcount ⊢
    omega
  simp only [RemoteBsm.reserved, havailable, hmax]
  omega

/-- Both pushes take an element. -/
theorem Follows.take (h : Follows scratch remote r b p) {off : ℕ}
    (hspace : (remote.reserved r).bufferHead + (⟨own, off⟩ : EltPtr).bufferEntrySize <
      (remote.reserved r).segmentSize ∧ (remote.reserved r).bufferEltCount < maxBufferElts) :
    Follows scratch remote
      ⟨r.eltCount + 1, r.toReserve + (⟨own, off⟩ : EltPtr).bufferEntrySize, r.selected ++ [true]⟩
      (addElt own b (.onSegment off)) (tryPushBufferEltTo own p off) := by
  rw [h.metadata] at hspace
  simp only [tryPushBufferEltTo, tryRemoteBufferAlloc, if_pos hspace]
  constructor
  · simp only [h.selected]
  · simp only [← h.metadata, RemoteBsm.reserved, Nat.add_assoc]
  · simp only [addElt, h.args, h.offsetRemote, ← h.metadata, RemoteBsm.reserved, EltLoc.ptr]
  · exact h.scratch
  · simp only [addElt, h.offsetRemote, Nat.add_assoc, EltLoc.ptr]
  · simp only [addElt, h.resultsPushedCount, EltLoc.ptr]
  · simp only [h.notified, ← h.metadata, RemoteBsm.reserved, List.range'_1_concat, List.map_append,
      List.map_cons, List.map_nil]

/-- Both pushes leave an element. -/
theorem Follows.leave (h : Follows scratch remote r b p) {off : ℕ}
    (hspace : ¬ ((remote.reserved r).bufferHead + (⟨own, off⟩ : EltPtr).bufferEntrySize <
      (remote.reserved r).segmentSize ∧ (remote.reserved r).bufferEltCount < maxBufferElts)) :
    Follows scratch remote { r with selected := r.selected ++ [false] } b
      (tryPushBufferEltTo own p off) := by
  rw [h.metadata] at hspace
  simp only [tryPushBufferEltTo, tryRemoteBufferAlloc, if_neg hspace]
  refine ⟨?_, h.metadata, h.args, h.scratch, h.offsetRemote, h.resultsPushedCount, h.notified⟩
  simp only [h.selected]

/-- The two pushes meet the elements of a range. -/
theorem Follows.elts (h : Follows scratch remote r b p)
    (hroom : remote.bufferHead < remote.segmentSize)
    (hcount : remote.bufferEltCount ≤ maxBufferElts) (offs : List ℕ) :
    ∃ flags, (selectElts own remote.available remote.maxEltsCount r
        (offs.map .onSegment)).selected = r.selected ++ flags ∧
      Follows scratch remote
        (selectElts own remote.available remote.maxEltsCount r (offs.map .onSegment))
        (buildArgs own b flags (offs.map .onSegment)) (offs.foldl (tryPushBufferEltTo own) p) := by
  induction offs generalizing r b p with
  | nil => exact ⟨[], (List.append_nil _).symm, h⟩
  | cons off offs ih =>
    have hfits := fits_iff hroom hcount r ((EltLoc.onSegment off).ptr own).bufferEntrySize
    simp only [List.map_cons, List.foldl_cons, selectElts]
    by_cases hsel : remote.available - r.toReserve >
        ((EltLoc.onSegment off).ptr own).bufferEntrySize ∧ r.eltCount < remote.maxEltsCount
    · obtain ⟨flags, hflags, hrest⟩ := ih (h.take (hfits.mp hsel))
      rw [if_pos hsel]
      refine ⟨true :: flags, ?_, hrest⟩
      exact hflags.trans (List.append_assoc ..)
    · obtain ⟨flags, hflags, hrest⟩ := ih (h.leave (mt hfits.mpr hsel))
      rw [if_neg hsel]
      refine ⟨false :: flags, ?_, hrest⟩
      exact hflags.trans (List.append_assoc ..)

/-- Before the first element. -/
theorem Follows.start (scratch : Mem) (remote : RemoteBsm) :
    Follows scratch remote ⟨0, 0, []⟩
      ⟨scratch, sizeofBufferedSegmentMetadata, remote.bufferHead, [], 0⟩
      ⟨remote, [], [], [], 0⟩ :=
  ⟨rfl, rfl, rfl, rfl, rfl, rfl, rfl⟩

theorem Follows.samePush (h : Follows scratch remote r b p) (notifications : ℕ → ℕ) :
    SamePush scratch remote notifications r b p := by
  refine ⟨h.selected, h.metadata, h.args, h.scratch, h.resultsPushedCount,
    waitNotifications_packed notifications remote r, ?_⟩
  apply waitNotifications_ones
  intro i hle hlt
  rw [h.notified, notifyAll_ones, if_pos ⟨hle, hlt⟩]

/-! ### Packed and piecewise pushes -/

theorem buildArgs_of_pick_eq_nil {flags : List Bool} {l : List EltLoc}
    (h : Selection.pick flags l = []) (b : WriteList) : buildArgs own b flags l = b := by
  induction l generalizing flags with
  | nil =>
    cases flags with
    | nil => rfl
    | cons c flags => cases c <;> rfl
  | cons x l ih =>
    cases flags with
    | nil => rfl
    | cons c flags =>
      cases c with
      | true => cases h
      | false => exact ih h

/-- A packed push of valid elements to a segment with room passes its assertions, and does what the
piecewise pushes of these elements do. -/
theorem samePush_tryPushVectorEltTo {nbRanks segmentSize : ℕ}
    (hvalid : ∀ off ∈ offs, (⟨own, off⟩ : EltPtr).isValid nbRanks segmentSize)
    (hroom : remote.bufferHead < remote.segmentSize)
    (hcount : remote.bufferEltCount ≤ maxBufferElts) (scratch : Mem) (notifications : ℕ → ℕ) :
    ∃ r b, tryPushVectorEltTo nbRanks segmentSize own scratch remote (offs.map .onSegment) =
        some (r, b) ∧
      SamePush scratch remote notifications r b (pushPiecewise own remote offs) := by
  have hsome : (tryPushVectorEltTo nbRanks segmentSize own scratch remote
      (offs.map .onSegment)).isSome :=
    isSome_tryPushVectorEltTo (by simpa [EltLoc.ptr] using hvalid) hroom
  obtain ⟨⟨r, b⟩, hpush⟩ := Option.isSome_iff_exists.mp hsome
  obtain ⟨flags, hflags, hfollows⟩ : ∃ flags, (selectElts own remote.available remote.maxEltsCount
      ⟨0, 0, []⟩ (offs.map .onSegment)).selected = [] ++ flags ∧ _ :=
    (Follows.start scratch remote).elts hroom hcount offs
  refine ⟨r, b, hpush, Follows.samePush ?_ notifications⟩
  rw [List.nil_append] at hflags
  subst hflags
  unfold tryPushVectorEltTo at hpush
  simp only at hpush
  split at hpush
  · split at hpush
    · split at hpush
      · rename_i hzero
        cases hpush
        rwa [buildArgs_of_pick_eq_nil] at hfollows
        rw [(selected_of_range own _ _ _).eltCount] at hzero
        exact List.length_eq_zero_iff.mp hzero
      · split at hpush
        · cases hpush
          exact hfollows
        · cases hpush
    · cases hpush
  · cases hpush

/-- In every reachable state, a packed push of valid elements of the local segment to a segment that
is available does what piecewise pushes of these elements would do. -/
theorem packed_push_as_piecewise {s : State n} (hr : (system net).Reachable s) {v : Fin n}
    (hfree : (s.segment v).state = .segmentAvailable) (own scratch : Mem) (offs : List ℕ)
    (nbRanks segmentSize : ℕ)
    (hvalid : ∀ off ∈ offs, (⟨own, off⟩ : EltPtr).isValid nbRanks segmentSize) :
    ∃ r b, tryPushVectorEltTo nbRanks segmentSize own scratch (s.segment v).remoteBsm
        (offs.map .onSegment) = some (r, b) ∧
      SamePush scratch (s.segment v).remoteBsm (s.segment v).notifications r b
        (pushPiecewise own (s.segment v).remoteBsm offs) := by
  have hsettled := (result_segments_hold hr).settled v fun q hq => by
    rw [hfree] at hq
    cases hq
  exact samePush_tryPushVectorEltTo hvalid hsettled.head_lt hsettled.count_le scratch _

/-! ### A push of two elements -/

/-- Elements of rank 1 end to end, each with one result of eight bytes. -/
def oneResultEach (i : ℕ) : UInt8 :=
  if i % 48 = 8 ∨ i % 48 = 24 then 1 else if i % 48 = 16 then 8 else 0

theorem packed_push_as_piecewise_two :
    ∃ r b, tryPushVectorEltTo 2 1024 oneResultEach (fun _ => 0) (constructed.segment 1).remoteBsm
        [.onSegment 0, .onSegment 48] = some (r, b) ∧ b.args.length = 2 ∧
      SamePush (fun _ => 0) (constructed.segment 1).remoteBsm (fun _ => 0) r b
        (pushPiecewise oneResultEach (constructed.segment 1).remoteBsm [0, 48]) := by
  have hlength : (tryPushVectorEltTo 2 1024 oneResultEach (fun _ => 0)
      (constructed.segment 1).remoteBsm [.onSegment 0, .onSegment 48]).map
        (fun q => q.2.args.length) = some 2 := by
    decide +kernel
  obtain ⟨r, b, hpush, hsame⟩ := packed_push_as_piecewise (.init constructed_init) (v := 1) rfl
    oneResultEach (fun _ => 0) [0, 48] 2 1024 (by decide +kernel)
  refine ⟨r, b, hpush, ?_, hsame⟩
  rw [List.map_cons, List.map_cons, List.map_nil] at hpush
  rw [hpush] at hlength
  exact Option.some.inj hlength

end Titus.Results
