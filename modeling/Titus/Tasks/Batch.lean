import Titus.Tasks.Step
import Mathlib.Tactic.Ring
import Mathlib.Tactic.Positivity

/-! What the dequeue, the task segment and the tmp segment of a rank describe, and how the moves
between them and the execution of a task keep it. -/

namespace Titus.Tasks

open Memory

variable {n : ℕ} {cfg : Config n} {k : ℕ} {r : Fin n}

/-- The dequeue describes tasks of session `k`: identifiers and bytes agree. -/
structure DequeueOk (cfg : Config n) (k : ℕ) (dq : Dequeue n) : Prop where
  head_le : dq.head ≤ dq.tail
  nbTask_le : dq.nbTask ≤ dq.endTaskId
  end_le : dq.endTaskId ≤ cfg.nbTask k dq.ownerTaskRank
  taskSize : dq.taskSize = cfg.taskSize k
  resultSize : dq.resultSize = cfg.resultSize k
  ptrTaskFunction : dq.ptrTaskFunction = cfg.ptrTaskFunction k dq.ownerTaskRank
  tasks : Agrees dq.baseTask (dq.head * cfg.taskSize k) (cfg.problem k dq.ownerTaskRank)
    ((dq.endTaskId - dq.nbTask) * cfg.taskSize k) (dq.nbTask * cfg.taskSize k)

/-- The task segment describes tasks of session `k`. -/
structure BatchOk (cfg : Config n) (k : ℕ) (m : MetadataTask n) : Prop where
  segmentSize : m.segmentSize = sizeofMetadataTask + cfg.taskSize k * m.nbTask
  segmentSize_le : m.segmentSize ≤ cfg.sharedTaskSegmentSize
  nbTask_le : m.nbTask ≤ m.endTaskId
  end_le : m.endTaskId ≤ cfg.nbTask k m.ownerTaskRank
  taskSize : m.taskSize = cfg.taskSize k
  resultSize : m.resultSize = cfg.resultSize k
  ptrTaskFunction : m.ptrTaskFunction = cfg.ptrTaskFunction k m.ownerTaskRank
  tasks : Agrees m.tasks 0 (cfg.problem k m.ownerTaskRank)
    ((m.endTaskId - m.nbTask) * cfg.taskSize k) (m.nbTask * cfg.taskSize k)

/-- The task segment describes a batch that is not empty. -/
structure LiveBatch (cfg : Config n) (k : ℕ) (m : MetadataTask n) : Prop where
  ok : BatchOk cfg k m
  pos : 1 ≤ m.nbTask

/-- The metadata of two segments describe the same batch, and the first `len` bytes of their tasks
agree. -/
structure SameBatch (m m' : MetadataTask n) (len : ℕ) : Prop where
  segmentSize : m'.segmentSize = m.segmentSize
  ownerTaskRank : m'.ownerTaskRank = m.ownerTaskRank
  nbTask : m'.nbTask = m.nbTask
  endTaskId : m'.endTaskId = m.endTaskId
  taskSize : m'.taskSize = m.taskSize
  resultSize : m'.resultSize = m.resultSize
  ptrTaskFunction : m'.ptrTaskFunction = m.ptrTaskFunction
  tasks : Agrees m'.tasks 0 m.tasks 0 len

/-- The batch of the segment ends where the tasks of the dequeue begin. -/
structure Precedes (m : MetadataTask n) (dq : Dequeue n) : Prop where
  owner : m.ownerTaskRank = dq.ownerTaskRank
  endTaskId : m.endTaskId + dq.nbTask = dq.endTaskId

/-- The tmp segment holds the results of the tasks that follow those of the dequeue. -/
structure TmpOk (cfg : Config n) (k : ℕ) (dq : Dequeue n) (t : MetadataTmp n) : Prop where
  owner : t.ownerResultRank = some dq.ownerTaskRank
  last : t.lastResultId = dq.endTaskId + t.nbResult
  last_le : t.lastResultId ≤ cfg.nbTask k dq.ownerTaskRank
  resultSize : t.resultSize = cfg.resultSize k
  results : ∀ i < t.nbResult, ∀ b < cfg.resultSize k,
    t.bytes (t.ptrNextResultToStore + cfg.resultSize k + i * cfg.resultSize k + b) =
      cfg.resultByte k dq.ownerTaskRank (dq.endTaskId + i) b

theorem LiveBatch.of_same {m m' : MetadataTask n} (h : LiveBatch cfg k m)
    (hs : SameBatch m m' (m.nbTask * cfg.taskSize k)) : LiveBatch cfg k m' where
  pos := hs.nbTask ▸ h.pos
  ok :=
    { segmentSize := by rw [hs.segmentSize, hs.nbTask, h.ok.segmentSize]
      segmentSize_le := hs.segmentSize ▸ h.ok.segmentSize_le
      nbTask_le := by rw [hs.nbTask, hs.endTaskId]; exact h.ok.nbTask_le
      end_le := by rw [hs.endTaskId, hs.ownerTaskRank]; exact h.ok.end_le
      taskSize := hs.taskSize.trans h.ok.taskSize
      resultSize := hs.resultSize.trans h.ok.resultSize
      ptrTaskFunction := by
        rw [hs.ptrTaskFunction, hs.ownerTaskRank]
        exact h.ok.ptrTaskFunction
      tasks := by
        rw [hs.nbTask, hs.endTaskId, hs.ownerTaskRank]
        exact hs.tasks.trans h.ok.tasks }

/-! ### Moves between the dequeue and the segment -/

/-- Filling the segment with `k'` tasks cuts the dequeue's tasks in two. -/
theorem DequeueOk.putOnSegment {dq : Dequeue n} (h : DequeueOk cfg k dq) {m : MetadataTask n}
    {c : ℕ} (hc : c < dq.nbTask) (hpos : 1 ≤ c)
    (hsize : sizeofMetadataTask + cfg.taskSize k * c ≤ cfg.sharedTaskSegmentSize) :
    DequeueOk cfg k (Tasks.putOnSegment dq m c).1 ∧
      LiveBatch cfg k (Tasks.putOnSegment dq m c).2 ∧
      Precedes (Tasks.putOnSegment dq m c).2 (Tasks.putOnSegment dq m c).1 := by
  have hle := h.nbTask_le
  have hend := h.end_le
  have hnb : ({ dq with head := dq.head + c } : Dequeue n).nbTask = dq.nbTask - c := by
    simp only [Dequeue.nbTask]
    omega
  have hsplit : dq.nbTask * cfg.taskSize k =
      c * cfg.taskSize k + (dq.nbTask - c) * cfg.taskSize k := by
    rw [← Nat.add_mul, Nat.add_sub_cancel' hc.le]
  refine ⟨⟨?_, ?_, hend, h.taskSize, h.resultSize, h.ptrTaskFunction, ?_⟩,
    ⟨⟨?_, ?_, ?_, ?_, h.taskSize, h.resultSize, h.ptrTaskFunction, ?_⟩, hpos⟩, rfl, ?_⟩
  · simp only [Tasks.putOnSegment, Dequeue.nbTask] at hc ⊢
    omega
  · simp only [Tasks.putOnSegment, hnb]
    omega
  · simp only [Tasks.putOnSegment, hnb]
    have := h.tasks.sub
      (show c * cfg.taskSize k + (dq.nbTask - c) * cfg.taskSize k ≤ _ by omega)
    rw [← Nat.add_mul, ← Nat.add_mul] at this
    rwa [show dq.endTaskId - (dq.nbTask - c) = dq.endTaskId - dq.nbTask + c by omega]
  · simp only [Tasks.putOnSegment, h.taskSize]
  · simpa only [Tasks.putOnSegment, h.taskSize] using hsize
  · simp only [Tasks.putOnSegment]
    omega
  · simp only [Tasks.putOnSegment]
    omega
  · simp only [Tasks.putOnSegment, h.taskSize]
    rw [show dq.endTaskId - (dq.nbTask - c) - c = dq.endTaskId - dq.nbTask by omega]
    exact (agrees_copy _ _ _ _ _).trans (h.tasks.mono (by omega))
  · simp only [Tasks.putOnSegment, hnb]
    omega

/-- Taking the last `c` tasks of the segment cuts its batch in two. -/
theorem BatchOk.takeFromSegment {m : MetadataTask n} (h : BatchOk cfg k m) (dq : Dequeue n)
    {c e : ℕ} (hc : c ≤ m.nbTask) (he : m.nbTask - c = 0 ∧ e = 0 ∨ e = m.endTaskId - c) :
    DequeueOk cfg k (Tasks.takeFromSegment dq m c e).1 ∧
      BatchOk cfg k (Tasks.takeFromSegment dq m c e).2 ∧
      (1 ≤ m.nbTask - c →
        Precedes (Tasks.takeFromSegment dq m c e).2 (Tasks.takeFromSegment dq m c e).1) := by
  have hle := h.nbTask_le
  have hend := h.end_le
  have hsplit : m.nbTask * cfg.taskSize k =
      (m.nbTask - c) * cfg.taskSize k + c * cfg.taskSize k := by
    rw [← Nat.add_mul, Nat.sub_add_cancel hc]
  have hsize := h.segmentSize
  have hsize_le := h.segmentSize_le
  have hmul : cfg.taskSize k * (m.nbTask - c) ≤ cfg.taskSize k * m.nbTask :=
    Nat.mul_le_mul_left _ (Nat.sub_le _ _)
  refine ⟨⟨Nat.zero_le _, ?_, hend, h.taskSize, h.resultSize, h.ptrTaskFunction, ?_⟩,
    ⟨?_, ?_, ?_, ?_, h.taskSize, h.resultSize, h.ptrTaskFunction, ?_⟩, fun hpos => ⟨rfl, ?_⟩⟩
  · simp only [Tasks.takeFromSegment, Dequeue.nbTask]
    omega
  · simp only [Tasks.takeFromSegment, Dequeue.nbTask, h.taskSize, Nat.sub_zero, Nat.zero_mul]
    refine (agrees_copy _ _ _ _ _).trans ?_
    have := h.tasks.sub
      (show (m.nbTask - c) * cfg.taskSize k + c * cfg.taskSize k ≤ _ by omega)
    rw [← Nat.add_mul, Nat.zero_add] at this
    rwa [show m.endTaskId - c = m.endTaskId - m.nbTask + (m.nbTask - c) by omega]
  · simp only [Tasks.takeFromSegment, h.taskSize]
  · simp only [Tasks.takeFromSegment, h.taskSize]
    omega
  · simp only [Tasks.takeFromSegment]
    omega
  · simp only [Tasks.takeFromSegment]
    omega
  · simp only [Tasks.takeFromSegment]
    rcases he with ⟨h0, -⟩ | rfl
    · rw [h0, Nat.zero_mul]
      exact fun i hi => absurd hi (Nat.not_lt_zero i)
    · rw [show m.endTaskId - c - (m.nbTask - c) = m.endTaskId - m.nbTask by omega]
      exact h.tasks.mono (by omega)
  · simp only [Tasks.takeFromSegment, Dequeue.nbTask]
    omega

/-- What `move_task_from_my_dequeue_to_my_segment` leaves on the segment. -/
theorem DequeueOk.moveToSegment {dq : Dequeue n} (h : DequeueOk cfg k dq) (hacc : cfg.Accepts k)
    (m : MetadataTask n) :
    DequeueOk cfg k (moveTaskFromMyDequeueToMySegment cfg r dq m).1 ∧
      ((moveTaskFromMyDequeueToMySegment cfg r dq m).2.nbTask = 0 ∧
          (moveTaskFromMyDequeueToMySegment cfg r dq m).1 = dq ∨
        LiveBatch cfg k (moveTaskFromMyDequeueToMySegment cfg r dq m).2 ∧
          Precedes (moveTaskFromMyDequeueToMySegment cfg r dq m).2
            (moveTaskFromMyDequeueToMySegment cfg r dq m).1 ∧
          0 < (moveTaskFromMyDequeueToMySegment cfg r dq m).1.nbTask) := by
  have hts := hacc.taskSize_pos
  have hroom := hacc.taskSegment
  have hmax : 1 ≤ (cfg.sharedTaskSegmentSize - sizeofMetadataTask) / cfg.taskSize k :=
    (Nat.one_le_div_iff hts).mpr (by omega)
  have hfits : ∀ c ≤ (cfg.sharedTaskSegmentSize - sizeofMetadataTask) / cfg.taskSize k,
      sizeofMetadataTask + cfg.taskSize k * c ≤ cfg.sharedTaskSegmentSize := by
    intro c hc
    have := (Nat.mul_le_mul_left (cfg.taskSize k) hc).trans (Nat.mul_div_le _ _)
    omega
  simp only [moveTaskFromMyDequeueToMySegment, nbTaskMin, h.taskSize]
  split
  · exact ⟨h, .inl ⟨rfl, rfl⟩⟩
  · have hcount : ∀ c < dq.nbTask, 0 < (Tasks.putOnSegment dq m c).1.nbTask := by
      intro c hc
      simp only [Tasks.putOnSegment, Dequeue.nbTask] at hc ⊢
      omega
    split
    · obtain ⟨h1, h2, h3⟩ := h.putOnSegment (m := m) (show _ < dq.nbTask by omega) hmax
        (hfits _ le_rfl)
      exact ⟨h1, .inr ⟨h2, h3, hcount _ (by omega)⟩⟩
    · obtain ⟨h1, h2, h3⟩ := h.putOnSegment (m := m) (show dq.nbTask / 2 < dq.nbTask by omega)
        (by omega) (hfits _ (by omega))
      exact ⟨h1, .inr ⟨h2, h3, hcount _ (by omega)⟩⟩

/-- What `move_task_from_my_segment_to_my_dequeue` takes from a batch that is not empty. -/
theorem LiveBatch.moveToDequeue {m : MetadataTask n} (h : LiveBatch cfg k m) (dq : Dequeue n) :
    DequeueOk cfg k (moveTaskFromMySegmentToMyDequeue dq m).1 ∧
      BatchOk cfg k (moveTaskFromMySegmentToMyDequeue dq m).2 ∧
      0 < (moveTaskFromMySegmentToMyDequeue dq m).1.nbTask ∧
      (1 ≤ (moveTaskFromMySegmentToMyDequeue dq m).2.nbTask →
        Precedes (moveTaskFromMySegmentToMyDequeue dq m).2
          (moveTaskFromMySegmentToMyDequeue dq m).1) ∧
      (moveTaskFromMySegmentToMyDequeue dq m).1.endTaskId = m.endTaskId ∧
      (moveTaskFromMySegmentToMyDequeue dq m).1.ownerTaskRank = m.ownerTaskRank := by
  have hpos := h.pos
  by_cases hlt : m.nbTask < nbTaskMin <;> simp only [moveTaskFromMySegmentToMyDequeue, hlt,
    if_true, if_false]
  · unfold nbTaskMin at hlt
    obtain ⟨h1, h2, h3⟩ := h.ok.takeFromSegment dq le_rfl (e := 0) (.inl ⟨by omega, rfl⟩)
    exact ⟨h1, h2, by simp only [Tasks.takeFromSegment, Dequeue.nbTask]; omega,
      h3, rfl, rfl⟩
  · unfold nbTaskMin at hlt
    obtain ⟨h1, h2, h3⟩ := h.ok.takeFromSegment dq (show m.nbTask / 2 ≤ m.nbTask by omega)
      (.inr rfl)
    exact ⟨h1, h2, by simp only [Tasks.takeFromSegment, Dequeue.nbTask]; omega,
      h3, rfl, rfl⟩

theorem state_moveToDequeue (dq : Dequeue n) (m : MetadataTask n) :
    (moveTaskFromMySegmentToMyDequeue dq m).2.state = m.state := by
  unfold moveTaskFromMySegmentToMyDequeue
  split <;> rfl

theorem state_moveToSegment (cfg : Config n) (r : Fin n) (dq : Dequeue n) (m : MetadataTask n) :
    (moveTaskFromMyDequeueToMySegment cfg r dq m).2.state = m.state := by
  simp only [moveTaskFromMyDequeueToMySegment]
  split
  · rfl
  · split <;> rfl

/-- Sharing tasks leaves the end of the dequeue where it was. -/
theorem owner_moveToSegment (cfg : Config n) (r : Fin n) (dq : Dequeue n) (m : MetadataTask n) :
    (moveTaskFromMyDequeueToMySegment cfg r dq m).1.ownerTaskRank = dq.ownerTaskRank ∧
      (moveTaskFromMyDequeueToMySegment cfg r dq m).1.endTaskId = dq.endTaskId := by
  simp only [moveTaskFromMyDequeueToMySegment]
  split
  · exact ⟨rfl, rfl⟩
  · split <;> exact ⟨rfl, rfl⟩

/-- The tmp segment fits every dequeue with the same owner and end. -/
theorem TmpOk.of_same {dq dq' : Dequeue n} {t : MetadataTmp n} (h : TmpOk cfg k dq t)
    (howner : dq'.ownerTaskRank = dq.ownerTaskRank) (hend : dq'.endTaskId = dq.endTaskId) :
    TmpOk cfg k dq' t :=
  ⟨howner ▸ h.owner, hend ▸ h.last, howner ▸ h.last_le, h.resultSize, by
    rw [howner, hend]
    exact h.results⟩

/-! ### Execution of a task -/

theorem nbTask_dropTask (dq : Dequeue n) : (dropTask dq).nbTask = dq.nbTask - 1 := by
  simp only [dropTask, Dequeue.nbTask]
  omega

theorem DequeueOk.dropTask {dq : Dequeue n} (h : DequeueOk cfg k dq) (hpos : 0 < dq.nbTask) :
    DequeueOk cfg k (Tasks.dropTask dq) := by
  have hle := h.nbTask_le
  have hend := h.end_le
  refine ⟨?_, ?_, ?_, h.taskSize, h.resultSize, h.ptrTaskFunction, ?_⟩
  · simp only [Tasks.dropTask, Dequeue.nbTask] at hpos ⊢
    omega
  · rw [nbTask_dropTask]
    simp only [Tasks.dropTask]
    omega
  · simp only [Tasks.dropTask]
    omega
  · rw [nbTask_dropTask]
    simp only [Tasks.dropTask]
    rw [show dq.endTaskId - 1 - (dq.nbTask - 1) = dq.endTaskId - dq.nbTask by omega]
    exact h.tasks.mono (Nat.mul_le_mul_right _ (Nat.sub_le _ _))

/-- The task that `do_next_task` executes is the last one of the dequeue. -/
theorem DequeueOk.nextTaskBytes {dq : Dequeue n} (h : DequeueOk cfg k dq) (hpos : 0 < dq.nbTask) :
    Tasks.nextTaskBytes dq = cfg.taskBytes k dq.ownerTaskRank (dq.endTaskId - 1) := by
  have hle := h.nbTask_le
  have hlast : dq.head + (dq.nbTask - 1) = dq.tail - 1 := by
    simp only [Dequeue.nbTask] at hpos ⊢
    omega
  have hsplit : dq.nbTask * cfg.taskSize k =
      (dq.nbTask - 1) * cfg.taskSize k + cfg.taskSize k := by
    rw [← Nat.succ_mul, Nat.succ_eq_add_one, Nat.sub_add_cancel hpos]
  have := h.tasks.sub (show (dq.nbTask - 1) * cfg.taskSize k + cfg.taskSize k ≤ _ by omega)
  rw [← Nat.add_mul, ← Nat.add_mul, hlast,
    show dq.endTaskId - dq.nbTask + (dq.nbTask - 1) = dq.endTaskId - 1 by omega] at this
  rw [Tasks.nextTaskBytes, Config.taskBytes, h.taskSize]
  exact read_congr this

theorem TmpOk.initTmp {dq : Dequeue n} (h : DequeueOk cfg k dq) (t : MetadataTmp n) :
    TmpOk cfg k dq (Tasks.initTmp cfg dq t) :=
  ⟨rfl, rfl, h.end_le, h.resultSize, fun _ hi => absurd hi (Nat.not_lt_zero _)⟩

/-- `do_next_task` puts its result below those already there. -/
theorem TmpOk.storeResult {dq : Dequeue n} {t : MetadataTmp n} (h : TmpOk cfg k dq t)
    (hdq : DequeueOk cfg k dq) (hpos : 0 < dq.nbTask) :
    TmpOk cfg k (Tasks.dropTask dq) (Tasks.storeResult cfg dq t) := by
  have hle := hdq.nbTask_le
  have hlast := h.last
  refine ⟨h.owner, ?_, h.last_le, h.resultSize, ?_⟩
  · simp only [Tasks.storeResult, Tasks.dropTask]
    omega
  · intro i hi b hb
    simp only [Tasks.storeResult, Tasks.dropTask, h.resultSize] at hi ⊢
    rcases Nat.eq_zero_or_pos i with rfl | hipos
    · -- the result just stored
      rw [if_pos (by push_cast; omega), hdq.ptrTaskFunction, hdq.nextTaskBytes hpos,
        Config.resultByte, Nat.add_zero]
      congr 1
      push_cast
      omega
    · -- an earlier result, one place further up
      have hi' : i - 1 + 1 = i := Nat.sub_add_cancel hipos
      have hmul : ((i : ℤ)) * cfg.resultSize k =
          ((i - 1 : ℕ) : ℤ) * cfg.resultSize k + cfg.resultSize k := by
        rw [← hi']
        push_cast
        ring
      have hnonneg : 0 ≤ ((i - 1 : ℕ) : ℤ) * cfg.resultSize k := by positivity
      have hold := h.results (i - 1) (by omega) b hb
      rw [if_neg (by omega), show dq.endTaskId - 1 + i = dq.endTaskId + (i - 1) by omega, ← hold]
      congr 1
      omega

end Titus.Tasks
