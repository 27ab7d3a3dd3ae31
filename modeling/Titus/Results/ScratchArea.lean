import Titus.Results.PackedPush

/-! The scratch segment of a rank through the pushes of a flush.  The copies that a push makes there
are read when its writes complete, and the push to the next target begins after that. -/

namespace Titus.Results

open Memory Gather StructLayout

variable {n : ℕ}

/-! ### The pushes of a flush -/

/-- A write of `queue_result` that is not complete.  `bytes` is not in memory: it has what the write
was enqueued to transfer. -/
structure Enqueued (n : ℕ) where
  target : Fin n
  write : WriteArg
  bytes : List UInt8

/-- The point that a rank has reached in `try_push_vector_elt_to`. -/
inductive VectorPushPc (n : ℕ)
  /-- Before the push to the next target, or after a failed lock. -/
  | outside
  /-- The target's segment is locked, and `remote` was read from it. -/
  | selecting (target : Fin n) (remote : RemoteBsm)
  /-- In `gaspi_wait`. -/
  | waiting
deriving DecidableEq

/-- The memory of a rank in a flush: its result segment `own`, its scratch segment, and the result
segments of the targets. -/
structure PushState (n : ℕ) where
  own : Mem
  scratch : Mem
  remote : Fin n → Mem
  queue : List (Enqueued n)
  pc : VectorPushPc n

/-- What a rank does next in its pushes, or what happens to the segments of the targets. -/
inductive PushAction (n : ℕ)
  /-- Read the metadata of a target whose segment was locked. -/
  | readToScratch (target : Fin n)
  /-- Push the elements of the range. -/
  | push (range : List EltLoc)
  /-- Write `i` of the queue completes. -/
  | complete (i : ℕ)
  /-- `gaspi_wait` returns. -/
  | wait
  /-- Another rank, or the target itself, writes to the target's segment. -/
  | other (target : Fin n) (m : Mem)

/-- The copy of the metadata at the offset `off` of a memory. -/
def RemoteBsm.ofMem (m : Mem) (off : ℕ) : RemoteBsm where
  segmentSize := natAt m (off + offsetOf bufferedSegmentMetadataFields 2) 8
  bufferHead := natAt m (off + offsetOf bufferedSegmentMetadataFields 6) 8
  bufferEltCount := natAt m (off + offsetOf bufferedSegmentMetadataFields 8) 8

/-- `read_to_scratch`, with `offset_in_scratch` 0. -/
def readToScratch (scratch target : Mem) : Mem :=
  copy scratch 0 target 0 sizeofBufferedSegmentMetadata

/-- One step of a flush on a rank with a result segment of `segmentSize` bytes. -/
def nextPush (segmentSize : ℕ) (s : PushState n) : PushAction n → Option (PushState n)
  | .readToScratch target =>
    match s.pc with
    | .outside =>
      let scratch := readToScratch s.scratch (s.remote target)
      some { s with scratch, pc := .selecting target (RemoteBsm.ofMem scratch 0) }
    | _ => none
  | .push range =>
    match s.pc with
    | .selecting target remote =>
      (tryPushVectorEltTo n segmentSize s.own s.scratch remote range).map fun (r, b) =>
        if r.eltCount = 0 then { s with pc := .outside }
        else
          { s with
            scratch := b.scratch
            queue := s.queue ++ (writeLists b.args).flatten.map fun w =>
              ⟨target, w, w.bytes (localMem s.own b.scratch)⟩
            pc := .waiting }
    | _ => none
  | .complete i =>
    s.queue[i]?.map fun q =>
      { s with
        remote := Function.update s.remote q.target
          (arrive (localMem s.own s.scratch) (s.remote q.target) q.write)
        queue := s.queue.eraseIdx i }
  | .wait =>
    match s.pc with
    | .waiting => if s.queue.length = 0 then some { s with pc := .outside } else none
    | _ => none
  | .other target m => some { s with remote := Function.update s.remote target m }

/-- The pushes of a flush among `n` ranks with result segments of `segmentSize` bytes, from any
memory. -/
def pushes (n segmentSize : ℕ) : Transition.System (PushState n) (PushAction n) where
  init s := s.queue = [] ∧ s.pc = .outside
  next := nextPush segmentSize

/-! ### Writes that are not complete -/

/-- Writes are in the queue only while the rank waits for them, and they read what they were enqueued
to transfer. -/
structure QueueOk (s : PushState n) : Prop where
  waiting : s.pc ≠ .waiting → s.queue = []
  bytes : ∀ q ∈ s.queue, q.write.bytes (localMem s.own s.scratch) = q.bytes

theorem QueueOk.next {segmentSize : ℕ} {s s' : PushState n} {a : PushAction n} (h : QueueOk s)
    (hs : nextPush segmentSize s a = some s') : QueueOk s' := by
  cases a with
  | readToScratch target =>
    simp only [nextPush] at hs
    split at hs
    · rename_i hpc
      cases hs
      have hnil := h.waiting (by rw [hpc]; rintro ⟨⟩)
      constructor
      · exact fun _ => hnil
      · simp [hnil]
    · cases hs
  | push range =>
    simp only [nextPush] at hs
    split at hs
    · rename_i target remote hpc
      have hnil := h.waiting (by rw [hpc]; rintro ⟨⟩)
      obtain ⟨⟨r, b⟩, -, heq⟩ := Option.map_eq_some_iff.mp hs
      rw [← heq]
      simp only
      split
      · constructor
        · exact fun _ => hnil
        · simp [hnil]
      · constructor
        · exact fun hpc => absurd rfl hpc
        · intro q hq
          simp only [hnil, List.nil_append, List.mem_map] at hq
          obtain ⟨w, -, rfl⟩ := hq
          rfl
    · cases hs
  | complete i =>
    obtain ⟨q, hq, heq⟩ := Option.map_eq_some_iff.mp hs
    rw [← heq]
    constructor
    · intro hpc
      simp [h.waiting hpc]
    · intro q' hq'
      exact h.bytes q' (List.mem_of_mem_eraseIdx hq')
  | wait =>
    simp only [nextPush] at hs
    split at hs
    · split at hs
      · rename_i hzero
        cases hs
        exact ⟨fun _ => List.length_eq_zero_iff.mp hzero, h.bytes⟩
      · cases hs
    · cases hs
  | other target m =>
    simp only [nextPush] at hs
    cases hs
    exact ⟨h.waiting, h.bytes⟩

theorem queue_invariant (n segmentSize : ℕ) : (pushes n segmentSize).Invariant QueueOk := by
  constructor
  · rintro s ⟨hqueue, -⟩
    exact ⟨fun _ => hqueue, by simp [hqueue]⟩
  · intro s a s' _ h hs
    exact h.next hs

/-- What holds of the scratch segment between two steps. -/
structure ScratchSafe (segmentSize : ℕ) (s : PushState n) : Prop where
  /-- A write that is not complete reads what it was enqueued to transfer, -/
  unchanged : ∀ q ∈ s.queue, q.write.bytes (localMem s.own s.scratch) = q.bytes
  /-- and the scratch segment changes only when there is none. -/
  complete : ∀ a s', nextPush segmentSize s a = some s' → s'.scratch ≠ s.scratch → s.queue = []

theorem QueueOk.scratchSafe {segmentSize : ℕ} {s : PushState n} (h : QueueOk s) :
    ScratchSafe segmentSize s := by
  refine ⟨h.bytes, fun a s' hs hne => h.waiting fun hpc => hne ?_⟩
  cases a with
  | readToScratch target =>
    simp only [nextPush, hpc] at hs
    cases hs
  | push range =>
    simp only [nextPush, hpc] at hs
    cases hs
  | complete i =>
    obtain ⟨q, -, heq⟩ := Option.map_eq_some_iff.mp hs
    rw [← heq]
  | wait =>
    simp only [nextPush, hpc] at hs
    split at hs <;> cases hs
    rfl
  | other target m =>
    simp only [nextPush] at hs
    cases hs
    rfl

/-- A packed push of valid elements has the layout of `PackedLayout`, on segments as `set_problem`
sizes them, and in every run of pushes the scratch segment is safe. -/
theorem packed_push_holds (cfg : Config n) (own scratch : Mem) (remote : RemoteBsm)
    (range : List EltLoc) (hsize : remote.segmentSize = cfg.sharedResultSegmentSize)
    (hhead : sizeofMetadataResult ≤ remote.bufferHead)
    (hvalid : ∀ x ∈ range, (x.ptr own).isValid n cfg.sharedResultSegmentSize) :
    (remote.bufferHead < remote.segmentSize →
      (tryPushVectorEltTo n cfg.sharedResultSegmentSize own scratch remote range).isSome) ∧
    (∀ r b,
      tryPushVectorEltTo n cfg.sharedResultSegmentSize own scratch remote range = some (r, b) →
      PackedLayout own scratch cfg.sharedScratchSegmentSize remote range r b) ∧
    ∀ s, (pushes n cfg.sharedResultSegmentSize).Reachable s →
      ScratchSafe cfg.sharedResultSegmentSize s := by
  refine ⟨isSome_tryPushVectorEltTo hvalid, fun r b hpush => ?_, fun s hr => ?_⟩
  · apply layout_of_tryPushVectorEltTo hpush hhead
    rw [hsize]
    exact le_max_left _ _
  · exact ((queue_invariant n _).holds hr).scratchSafe

/-! ### A push of two elements -/

/-- Two ranks with tasks and results of eight bytes. -/
def eightBytes : Config 2 where
  sharedTaskSegmentSize := 4096
  taskSize _ := 8
  resultSize _ := 8
  nbTask _ _ := 1
  problem _ _ _ := 0
  result _ _ _ := 0
  ptrTaskFunction _ _ := 0
  call _ _ _ := 0
  size_lt _ _ := by decide

/-- An element of rank 1 at address 0, with `nbResult` results of eight bytes. -/
def eltOfRankOne (nbResult : UInt8) (i : ℕ) : UInt8 :=
  if i = 8 then nbResult
  else if i = 16 then 8 * nbResult
  else if i = 24 then 1
  else if i < 40 then 0
  else UInt8.ofNat i

/-- A result segment with one element behind the metadata. -/
def segmentWithElt : Mem := copy (fun _ => 0) sizeofMetadataResult (eltOfRankOne 1) 0 48

/-- One element on the segment, and one in memory of its own. -/
def bothPlaces : List EltLoc := [.onSegment sizeofMetadataResult, .inMemory (eltOfRankOne 2)]

/-- The metadata of an empty segment. -/
def emptyRemote : RemoteBsm := ⟨eightBytes.sharedResultSegmentSize, sizeofMetadataResult, 0⟩

theorem packed_push_holds_both :
    ∃ r b, tryPushVectorEltTo 2 eightBytes.sharedResultSegmentSize segmentWithElt (fun _ => 0)
        emptyRemote bothPlaces = some (r, b) ∧ b.args.length = 2 ∧
      PackedLayout segmentWithElt (fun _ => 0) eightBytes.sharedScratchSegmentSize emptyRemote
        bothPlaces r b := by
  have hlength : (tryPushVectorEltTo 2 eightBytes.sharedResultSegmentSize segmentWithElt
      (fun _ => 0) emptyRemote bothPlaces).map (fun q => q.2.args.length) = some 2 := by
    decide +kernel
  have h := packed_push_holds eightBytes segmentWithElt (fun _ => 0) emptyRemote bothPlaces rfl
    le_rfl (by decide +kernel)
  obtain ⟨⟨r, b⟩, hpush, htwo⟩ := Option.map_eq_some_iff.mp hlength
  exact ⟨r, b, hpush, htwo, h.2.1 r b hpush⟩

end Titus.Results
