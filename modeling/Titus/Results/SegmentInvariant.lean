import Titus.Results.Flush

/-! The representation invariant of the result segments, and what it gives to a flush. -/

namespace Titus.Results

variable {n : ℕ} {net : Network n}

/-- What holds of a segment that no push has locked. -/
structure SegmentSettled (m : BufferedSegment n) : Prop where
  tail_le : m.bufferTail ≤ m.bufferHead
  head_lt : m.bufferHead < m.segmentSize
  count_le : m.bufferEltCount ≤ maxBufferElts
  /-- The reserved ranges fill the buffer in the order of their reservation, -/
  tiles : Tiling.Tiles BufferElt.bufferEntrySize m.bufferTail m.bufferHead m.reserved
  /-- each before the later ones, -/
  disjoint : m.reserved.Pairwise fun w w' => w.1 + w.2.bufferEntrySize ≤ w'.1
  /-- and the counter counts them. -/
  count : m.bufferEltCount = m.reserved.length

/-- What the representation invariant says of state `s`. -/
structure SegmentInvariant (s : State n) : Prop where
  settled : ∀ v, (∀ q, (s.segment v).state ≠ .rank q) → SegmentSettled (s.segment v)
  /-- After the wait of a flush the iterator meets as many elements as are counted, all of them
  valid, and ends at the head. -/
  visits : ∀ v, (s.rank v).pc = .collecting →
    ∃ l, visitArea (s.segment v) = some l ∧ l = (s.segment v).reserved ∧
      l.length = (s.segment v).bufferEltCount ∧
      ∀ w ∈ l, w.2.isValid (s.segment v).segmentSize
  /-- No assertion fails but that of `submit_results`. -/
  assertions : ∀ r b, (s.rank r).failed = some b → b = .nbResult

/-- In every reachable state of any number of ranks the representation invariant holds of every
result segment. -/
theorem result_segments_hold {s : State n} (hr : (system net).Reachable s) :
    SegmentInvariant s := by
  have h := (results_invariant net).holds hr
  have hcount : ∀ v, (∀ q, (s.segment v).state ≠ .rank q) →
      (s.segment v).bufferEltCount = (s.segment v).reserved.length := by
    intro v hv
    rw [(h.segment v).count, lagAt_eq_zero hv, Nat.add_zero]
  refine ⟨fun v hv => ?_, fun v hpc => ?_, fun r b hb => ?_⟩
  · have hseg := h.segment v
    exact ⟨hseg.tiles.le, hseg.head_lt, (hcount v hv).trans_le hseg.length_le, hseg.tiles,
      hseg.tiles.pairwise, hcount v hv⟩
  · have hseg := h.segment v
    have hst := (h.locks.flush v).mpr (by rw [hpc]; rfl)
    refine ⟨_, hseg.visitArea (by rw [hpc]; rfl), rfl, ?_, fun w hw => ?_⟩
    · exact (hcount v (by rw [hst]; nofun)).symm
    · exact (hseg.sound w hw).isValid (hseg.size_le hw)
  · rcases (h.rank r).failed with hf | hf <;> rw [hf] at hb <;> cases hb
    rfl

/-! ### A run of two ranks -/

/-- Every rank sends results to their owner. -/
def direct (n : ℕ) : Network n where
  selectNextHopTo _ owner := owner
  hop_ne _ _ h := h

/-- Two ranks whose segments have just been constructed. -/
def constructed : State 2 where
  segment _ := ⟨.segmentAvailable, 1024, sizeofMetadataResult, sizeofMetadataResult, 0,
    fun _ => none, fun _ => 0, [], []⟩
  rank _ := ⟨.idle, 0, 8, 1, fun _ => 0, [], none, none, [], []⟩

theorem constructed_init : (system (direct 2)).init constructed :=
  ⟨fun _ => ⟨rfl, rfl, show sizeofMetadataResult < 1024 by decide, rfl, fun _ => rfl, rfl, rfl⟩,
    fun _ => ⟨rfl, rfl, rfl, rfl, rfl, rfl, rfl⟩⟩

/-- Rank 0 puts three results of rank 1 on its own segment, and waits for them in a flush. -/
def reserveAndWait : List (Fin 2 × Action 2) :=
  [(0, .push 0 4 3 1 1 [7, 8, 9])] ++ List.replicate 7 (0, .advance) ++
    [(0, .deliver 0), (0, .flush)] ++ List.replicate 5 (0, .advance)

theorem result_segments_hold_in_flush :
    ∃ s, (system (direct 2)).Reachable s ∧ (s.rank 0).pc = .collecting ∧
      (s.segment 0).bufferEltCount = 1 ∧ SegmentInvariant s := by
  obtain ⟨s, hr, hpc, hcount⟩ := Transition.System.exists_reachable constructed_init
    reserveAndWait (fun s => (s.rank 0).pc = .collecting ∧ (s.segment 0).bufferEltCount = 1)
    (by decide +kernel)
  exact ⟨s, hr, hpc, hcount, result_segments_hold hr⟩

end Titus.Results
