import Titus.System.Step
import Titus.Tasks.Alignment

/-! The results in the tmp segment: they are those of consecutive tasks, so that the one header that
`push_tmp_results` builds describes them all. -/

namespace Titus.System

open Tasks

variable {n : ℕ} {cfg : Config n} {k : ℕ}

/-- The header of an element names the tasks whose results follow it. -/
structure Describes (cfg : Config n) (e : Results.BufferElt n) : Prop where
  last_le : e.firstTaskId + e.nbResult ≤ cfg.nbTask e.batch.session e.owner
  dataSize : e.dataSize = cfg.resultSize e.batch.session * e.nbResult
  length : e.data.length = e.dataSize
  results : ∀ i < e.nbResult, ∀ b < cfg.resultSize e.batch.session,
    e.data.getD (i * cfg.resultSize e.batch.session + b) 0 =
      cfg.resultByte e.batch.session e.owner (e.firstTaskId + i) b

theorem length_tmpData (t : MetadataTmp n) :
    (tmpData t).length = t.resultSize * t.nbResult := by
  simp [tmpData]

theorem getD_tmpData (t : MetadataTmp n) {i : ℕ} (hi : i < t.resultSize * t.nbResult) :
    (tmpData t).getD i 0 = t.bytes (t.ptrNextResultToStore + t.resultSize + i) := by
  simp [tmpData, hi]

/-- Byte `b` of result `i` is inside the results. -/
theorem byte_lt {size count i b : ℕ} (hi : i < count) (hb : b < size) :
    i * size + b < size * count := by
  have hmul : (i + 1) * size ≤ count * size := Nat.mul_le_mul_right _ hi
  rw [Nat.succ_mul] at hmul
  rw [Nat.mul_comm size count]
  omega

theorem TmpOk.first {dq : Dequeue n} {t : MetadataTmp n} (h : TmpOk cfg k dq t) :
    t.lastResultId - t.nbResult = dq.endTaskId := by
  rw [h.last, Nat.add_sub_cancel]

/-- What `push_tmp_results` builds from the tmp segment. -/
theorem TmpOk.describes {dq : Dequeue n} {t : MetadataTmp n} (h : TmpOk cfg k dq t)
    (u : Results.RankResults n) (r owner : Fin n) (howner : t.ownerResultRank = some owner) :
    Describes cfg (Results.newElt u r k (t.lastResultId - t.nbResult) t.nbResult t.resultSize owner
      (tmpData t)) := by
  have hdq : dq.ownerTaskRank = owner := by
    have hsome := h.owner
    rw [howner] at hsome
    exact (Option.some.inj hsome).symm
  have hlast := h.last
  constructor
  · have hle := h.last_le
    rw [hdq] at hle
    simp only [Results.newElt]
    omega
  · simp only [Results.newElt, h.resultSize]
  · exact length_tmpData t
  · intro i hi b hb
    simp only [Results.newElt] at hi hb ⊢
    have hlt := byte_lt hi hb
    rw [getD_tmpData t (by rwa [h.resultSize]), TmpOk.first h, ← hdq, ← h.results i hi b hb,
      h.resultSize]
    congr 1
    push_cast
    omega

/-- What contiguity says of state `s`. -/
structure ResultsContiguous (cfg : Config n) (s : Tasks.State n) : Prop where
  /-- At the head of the work loop the results in the tmp segment end where the dequeue's tasks end,
  and have the same owner. -/
  loopHead : ∀ r, (s r).pc = .loopHead →
    (s r).tmp.nbResult ≤ (s r).tmp.lastResultId ∧
      (s r).tmp.lastResultId - (s r).tmp.nbResult = (s r).dq.endTaskId ∧
      (s r).tmp.ownerResultRank = some (s r).dq.ownerTaskRank
  /-- Above `ptr_next_result_to_store` there are the results of consecutive tasks, in the order of
  their identifiers. -/
  results : ∀ r, (s r).pc = .loopHead → ∀ i < (s r).tmp.nbResult, ∀ b < (s r).tmp.resultSize,
    (s r).tmp.bytes ((s r).tmp.ptrNextResultToStore + (i + 1) * (s r).tmp.resultSize + b) =
      cfg.resultByte (s r).current (s r).dq.ownerTaskRank
        ((s r).tmp.lastResultId - (s r).tmp.nbResult + i) b
  /-- An available segment has the tasks before those of the dequeue. -/
  available : ∀ r, (s r).seg.state = .taskAvailable →
    (s r).seg.ownerTaskRank = (s r).dq.ownerTaskRank ∧
      (s r).seg.endTaskId = (s r).dq.endTaskId - ((s r).dq.tail - (s r).dq.head)
  /-- The header that `push_tmp_results` builds describes the results that follow it, whenever there
  are any. -/
  header : ∀ r owner (u : Results.RankResults n), (s r).tmp.nbResult ≠ 0 →
    (s r).tmp.ownerResultRank = some owner →
    Describes cfg (Results.newElt u r (s r).current
      ((s r).tmp.lastResultId - (s r).tmp.nbResult) (s r).tmp.nbResult (s r).tmp.resultSize owner
      (tmpData (s r).tmp))

/-- In every reachable state of any number of ranks the results in a tmp segment are contiguous. -/
theorem results_contiguous {s : Tasks.State n} (hr : (Tasks.system cfg).Reachable s) :
    ResultsContiguous cfg s := by
  have h := (protocol_invariant cfg).holds hr
  have htmp : ∀ r, (s r).pc = .loopHead → TmpOk cfg (s r).current (s r).dq (s r).tmp := by
    intro r hpc
    have hok := (h.rank r).pc
    simp only [PcOk, hpc] at hok
    exact hok.2.1
  constructor
  · intro r hpc
    have hok := htmp r hpc
    refine ⟨?_, TmpOk.first hok, hok.owner⟩
    rw [hok.last]
    exact Nat.le_add_left _ _
  · intro r hpc i hi b hb
    have hok := htmp r hpc
    rw [hok.resultSize] at hb ⊢
    rw [TmpOk.first hok, ← hok.results i hi b hb]
    congr 1
    ring
  · intro r hst
    have hshared := (h.rank r).pc.shared ((h.rank r).open_of_available hst)
    simp only [SegmentShared, hst] at hshared
    refine ⟨hshared.2.owner, ?_⟩
    have hend := hshared.2.endTaskId
    unfold Dequeue.nbTask at hend
    omega
  · intro r owner u hnb howner
    exact TmpOk.describes ((h.rank r).tmpOk hnb) u r owner howner

/-- Rank 0 executes a task and shares others. -/
def shareAfterTask : List (Fin 2 × Tasks.Action 2) :=
  [(0, .setProblem), (1, .setProblem), (0, .leaveBarrier)] ++
    List.replicate 12 (0, .advance false)

theorem results_contiguous_after_sharing :
    ∃ s, (Tasks.system twoRanks).Reachable s ∧ (s 0).pc = .loopHead ∧ (s 0).tmp.nbResult = 1 ∧
      (s 0).seg.state = .taskAvailable ∧ ResultsContiguous twoRanks s := by
  obtain ⟨s, hr, hpc, hnb, hst⟩ := Transition.System.exists_reachable twoRanks_init shareAfterTask
    (fun s => (s 0).pc = .loopHead ∧ (s 0).tmp.nbResult = 1 ∧ (s 0).seg.state = .taskAvailable)
    (by decide +kernel)
  exact ⟨s, hr, hpc, hnb, hst, results_contiguous hr⟩

end Titus.System
