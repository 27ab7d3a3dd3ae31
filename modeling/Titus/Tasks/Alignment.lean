import Titus.Tasks.Conservation

/-! Identifiers and payloads: the bytes of every task in a dequeue or live on a segment are those of
the task that its identifier names, through all moves and thefts. -/

namespace Titus.Tasks

open Memory

variable {n : ℕ} {cfg : Config n} {k : ℕ} {r : Fin n}

/-! ### The bytes of one task -/

/-- Task `i` of a range that agrees with the problem from task `first` on. -/
theorem read_of_agrees {m : Mem} {off first count i : ℕ} {owner : Fin n}
    (h : Agrees m (off * cfg.taskSize k) (cfg.problem k owner) (first * cfg.taskSize k)
      (count * cfg.taskSize k)) (hi : i < count) :
    read m ((off + i) * cfg.taskSize k) (cfg.taskSize k) = cfg.taskBytes k owner (first + i) := by
  have hlast : i * cfg.taskSize k + cfg.taskSize k ≤ count * cfg.taskSize k := by
    rw [← Nat.succ_mul]
    exact Nat.mul_le_mul_right _ hi
  have hsub := h.sub hlast
  rw [← Nat.add_mul, ← Nat.add_mul] at hsub
  exact read_congr hsub

theorem DequeueOk.taskBytes {dq : Dequeue n} (h : DequeueOk cfg k dq) {i : ℕ} (hi : dq.head ≤ i)
    (hlt : i < dq.tail) :
    read dq.baseTask (i * dq.taskSize) dq.taskSize =
      cfg.taskBytes k dq.ownerTaskRank (dq.endTaskId - (dq.tail - i)) := by
  have hle := h.nbTask_le
  have hread := read_of_agrees h.tasks (show i - dq.head < dq.nbTask by
    unfold Dequeue.nbTask
    omega)
  rw [h.taskSize]
  rwa [show dq.head + (i - dq.head) = i by omega,
    show dq.endTaskId - dq.nbTask + (i - dq.head) = dq.endTaskId - (dq.tail - i) by
      unfold Dequeue.nbTask at hle ⊢
      omega] at hread

theorem BatchOk.taskBytes {m : MetadataTask n} (h : BatchOk cfg k m) {j : ℕ} (hj : j < m.nbTask) :
    read m.tasks (j * m.taskSize) m.taskSize =
      cfg.taskBytes k m.ownerTaskRank (m.endTaskId - (m.nbTask - j)) := by
  have hle := h.nbTask_le
  have htasks : Agrees m.tasks (0 * cfg.taskSize k) (cfg.problem k m.ownerTaskRank)
      ((m.endTaskId - m.nbTask) * cfg.taskSize k) (m.nbTask * cfg.taskSize k) := by
    rw [Nat.zero_mul]
    exact h.tasks
  have hread := read_of_agrees htasks hj
  rw [h.taskSize]
  rwa [Nat.zero_add,
    show m.endTaskId - m.nbTask + j = m.endTaskId - (m.nbTask - j) by omega] at hread

/-! ### Live segments -/

/-- A live segment that is not empty holds a batch. -/
theorem RankOk.batchOk {t : RankTasks n} (h : RankOk cfg r t) (hlive : segmentLive t)
    (hnb : 0 < t.seg.nbTask) : LiveBatch cfg t.current t.seg := by
  have hopen : Open t → t.seg.state.holdsBatch → LiveBatch cfg t.current t.seg := by
    intro ho hbatch
    have hshared := h.pc.shared ho
    unfold SegmentShared at hshared
    split at hshared
    · exact hshared.1
    · exact hshared.1
    all_goals
      rename_i hst
      rw [hst] at hbatch
      cases hbatch
  have hstart : StartOk cfg t.current t.dq t.seg → LiveBatch cfg t.current t.seg := by
    rintro (⟨-, -, h0⟩ | ⟨-, -, hbatch⟩)
    · omega
    · exact hbatch
  have hpc := h.pc
  cases hp : t.pc <;> simp only [segmentLive, hp, PcOk, Bool.false_eq_true] at hlive hpc
  case unlockingSelf => exact hpc.2.2.2.2
  case working => exact hstart hpc.2.2
  case opening => omega
  case starting => exact hstart hpc.2.2
  case refilling site =>
    cases site with
    | start => exact hpc.2.2.2
    | selfTheft => exact hpc.2.2.2.1
  case refilled site comp =>
    cases site with
    | start => exact ⟨hpc.2.2.2.batch, hnb⟩
    | selfTheft => exact ⟨hpc.2.2.2.batch, hnb⟩
  case shared =>
    rcases hpc.2.2.2 with h0 | hbatch
    · omega
    · exact hbatch.1
  case unlockingWait =>
    rw [hpc.1] at hlive
    cases hlive
  case returning site =>
    cases site with
    | full | last => exact hopen (by simp only [Open, hp]) hlive
    | thief =>
      simp only [Bool.false_eq_true] at hlive
  all_goals exact hopen (by simp only [Open, hp]) hlive

/-! ### The bounds of the dequeue -/

theorem head_le_moveToDequeue (dq : Dequeue n) (m : MetadataTask n) :
    (moveTaskFromMySegmentToMyDequeue dq m).1.head ≤
      (moveTaskFromMySegmentToMyDequeue dq m).1.tail := by
  unfold moveTaskFromMySegmentToMyDequeue
  split <;> exact Nat.zero_le _

/-- A move to the segment leaves at least half of the tasks in the dequeue. -/
theorem half_le_moveToSegment (cfg : Config n) (r : Fin n) (dq : Dequeue n) (m : MetadataTask n) :
    dq.nbTask ≤ 2 * (moveTaskFromMyDequeueToMySegment cfg r dq m).1.nbTask := by
  have hput : ∀ c, 2 * c ≤ dq.nbTask → dq.nbTask ≤ 2 * (putOnSegment dq m c).1.nbTask := by
    intro c hc
    simp only [putOnSegment, Dequeue.nbTask] at hc ⊢
    omega
  simp only [moveTaskFromMyDequeueToMySegment]
  split
  · exact Nat.le_mul_of_pos_left _ Nat.two_pos
  · split
    · exact hput _ ‹_›
    · exact hput _ (Nat.mul_div_le _ _)

theorem head_le_moveToSegment {dq : Dequeue n} (h : dq.head ≤ dq.tail) (cfg : Config n) (r : Fin n)
    (m : MetadataTask n) :
    (moveTaskFromMyDequeueToMySegment cfg r dq m).1.head ≤
      (moveTaskFromMyDequeueToMySegment cfg r dq m).1.tail := by
  have hput : ∀ c, 2 * c ≤ dq.nbTask →
      (putOnSegment dq m c).1.head ≤ (putOnSegment dq m c).1.tail := by
    intro c hc
    simp only [putOnSegment, Dequeue.nbTask] at hc ⊢
    omega
  simp only [moveTaskFromMyDequeueToMySegment]
  split
  · exact h
  · split
    · exact hput _ ‹_›
    · exact hput _ (Nat.mul_div_le _ _)

theorem head_le_localNext {t t' : RankTasks n} (h : RankOk cfg r t) {b : Bool}
    (hle : t.dq.head ≤ t.dq.tail) (hs : localNext cfg r t b = some t') :
    t'.dq.head ≤ t'.dq.tail := by
  cases localStepped_of_localNext hs with
  | refilling => exact head_le_moveToDequeue t.dq t.seg
  | sharing => exact head_le_moveToSegment hle cfg r t.seg
  | solving hpc =>
    have hok := h.pc
    simp only [PcOk, hpc, Dequeue.nbTask] at hok
    simp only [doNextTask, dropTask]
    omega
  | _ => exact hle

/-- Every dequeue has its head before its tail. -/
theorem head_le_invariant (cfg : Config n) :
    (system cfg).Invariant fun s => ∀ r, (s r).dq.head ≤ (s r).dq.tail := by
  apply (protocol_invariant cfg).of_step
  · intro s hs r
    exact (hs r).dq.le
  · rintro s ⟨r, a⟩ s' hok h hs q
    have hstep := stepped_of_next hs
    by_cases hq : q = r
    · subst hq
      cases hstep with
      | setProblem =>
        rw [Function.update_self]
        exact Nat.zero_le _
      | own b t ht =>
        rw [Function.update_self]
        exact head_le_localNext (hok.rank q) (h q) ht
      | unlock b v state hpc =>
        rw [Function.update_self]
        by_cases hv : q = v
        · subst hv
          rw [Function.update_self]
          exact h q
        · rw [Function.update_of_ne hv]
          exact h q
      | _ =>
        rw [Function.update_self]
        exact h q
    · obtain ⟨state, hstate⟩ := hstep.other hq
      rw [hstate]
      exact h q

/-! ### All reachable states -/

/-- What alignment says of state `s`. -/
structure TasksAligned (cfg : Config n) (s : State n) : Prop where
  head_le : ∀ r, (s r).dq.head ≤ (s r).dq.tail
  /-- The bytes at index `i` of a dequeue are those of the task that the identifier names, -/
  dequeue : ∀ r i, (s r).dq.head ≤ i → i < (s r).dq.tail →
    read (s r).dq.baseTask (i * (s r).dq.taskSize) (s r).dq.taskSize =
      cfg.taskBytes (s r).current (s r).dq.ownerTaskRank
        ((s r).dq.endTaskId - ((s r).dq.tail - i))
  /-- and so are those at index `j` of a live segment. -/
  segment : ∀ r, segmentLive (s r) → ∀ j < (s r).seg.nbTask,
    read (s r).seg.tasks (j * (s r).seg.taskSize) (s r).seg.taskSize =
      cfg.taskBytes (s r).current (s r).seg.ownerTaskRank
        ((s r).seg.endTaskId - ((s r).seg.nbTask - j))
  /-- The identifiers are those of tasks of the owner's problem. -/
  dequeueIds : ∀ r, 0 < (s r).dq.nbTask → (s r).dq.nbTask ≤ (s r).dq.endTaskId ∧
    (s r).dq.endTaskId ≤ cfg.nbTask (s r).current (s r).dq.ownerTaskRank
  segmentIds : ∀ r, segmentLive (s r) → 0 < (s r).seg.nbTask →
    (s r).seg.nbTask ≤ (s r).seg.endTaskId ∧
      (s r).seg.endTaskId ≤ cfg.nbTask (s r).current (s r).seg.ownerTaskRank
  segmentSize : ∀ r, segmentLive (s r) → 0 < (s r).seg.nbTask →
    (s r).seg.segmentSize = sizeofMetadataTask + (s r).seg.nbTask * (s r).seg.taskSize ∧
      (s r).seg.segmentSize ≤ cfg.sharedTaskSegmentSize
  /-- A move from a dequeue to a segment leaves at least half of the tasks in place. -/
  kept : ∀ r b s', (s r).pc = .sharing → next cfg s (r, .advance b) = some s' →
    (s r).dq.nbTask ≤ 2 * (s' r).dq.nbTask

/-- In every reachable state of any number of ranks identifiers and payloads agree. -/
theorem tasks_aligned {s : State n} (hr : (system cfg).Reachable s) : TasksAligned cfg s := by
  have h := (protocol_invariant cfg).holds hr
  have hle := (head_le_invariant cfg).holds hr
  have hlive : ∀ r, segmentLive (s r) → 0 < (s r).seg.nbTask →
      LiveBatch cfg (s r).current (s r).seg := fun r => (h.rank r).batchOk
  constructor
  · exact hle
  · intro r i hi hlt
    have hdq := (h.rank r).dequeueOk (by
      unfold Dequeue.nbTask
      omega)
    exact hdq.taskBytes hi hlt
  · intro r hl j hj
    exact (hlive r hl (by omega)).ok.taskBytes hj
  · intro r hpos
    have hdq := (h.rank r).dequeueOk hpos
    exact ⟨hdq.nbTask_le, hdq.end_le⟩
  · intro r hl hpos
    have hbatch := (hlive r hl hpos).ok
    exact ⟨hbatch.nbTask_le, hbatch.end_le⟩
  · intro r hl hpos
    have hbatch := (hlive r hl hpos).ok
    refine ⟨?_, hbatch.segmentSize_le⟩
    rw [hbatch.segmentSize, hbatch.taskSize, Nat.mul_comm]
  · intro r b s' hpc hs
    simp only [next, hpc, localNext, Option.map_some, Option.some.injEq] at hs
    subst hs
    rw [Function.update_self]
    exact half_le_moveToSegment cfg r (s r).dq (s r).seg

/-- Rank 1 completes its theft of one task. -/
def theftDone : List (Fin 2 × Action 2) := theft ++ List.replicate 3 (1, .advance false)

theorem tasks_aligned_after_theft :
    ∃ s, (system twoRanks).Reachable s ∧ (s 1).pc = .working ∧ (s 1).seg.nbTask = 1 ∧
      TasksAligned twoRanks s := by
  obtain ⟨s, hr, hpc, hnb⟩ := Transition.System.exists_reachable twoRanks_init theftDone
    (fun s => (s 1).pc = .working ∧ (s 1).seg.nbTask = 1) (by decide +kernel)
  exact ⟨s, hr, hpc, hnb, tasks_aligned hr⟩

end Titus.Tasks
