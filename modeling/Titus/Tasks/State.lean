import Titus.Config

/-! The state that a rank keeps about tasks: its dequeue, its task segment, its tmp segment, and the
point of `parallel_work` that it has reached. -/

namespace Titus.Tasks

open Memory

variable {n : ℕ}

/-- The values of the state word of a task segment.  Any value that is not a special one is the rank
that holds the lock. -/
inductive TaskLock (n : ℕ)
  | taskAvailable
  | freeForCopy
  | noTask
  | copyInProgress
  | rank (r : Fin n)
deriving DecidableEq

/-- The state word. -/
def TaskLock.toWord : TaskLock n → ℕ
  | .taskAvailable => 2 ^ 64 - 1
  | .freeForCopy => 2 ^ 64 - 2
  | .noTask => 2 ^ 64 - 3
  | .copyInProgress => 2 ^ 64 - 4
  | .rank r => r

/-- The local dequeue: the tasks `[head, tail)` of the array at `base_task`, the last of which has
the identifier `end_task_id - 1`. -/
structure Dequeue (n : ℕ) where
  head : ℕ
  tail : ℕ
  baseTask : Mem
  ownerTaskRank : Fin n
  endTaskId : ℕ
  taskSize : ℕ
  resultSize : ℕ
  problemSizeAllocated : ℕ
  ptrTaskFunction : ℕ

/-- The task segment: its metadata, and the tasks behind it. -/
structure MetadataTask (n : ℕ) where
  state : TaskLock n
  segmentSize : ℕ
  ownerTaskRank : Fin n
  nbTask : ℕ
  endTaskId : ℕ
  taskSize : ℕ
  resultSize : ℕ
  privateTasksCount : ℕ
  ptrTaskFunction : ℕ
  tasks : Mem

/-- The tmp segment: its metadata, and its bytes by their offset.  The owner is `none` for the value
-1 that `reset` stores. -/
structure MetadataTmp (n : ℕ) where
  ownerResultRank : Option (Fin n)
  lastResultId : ℕ
  nbResult : ℕ
  nbResultMax : ℕ
  resultSize : ℕ
  ptrNextResultToStore : ℤ
  bytes : ℤ → UInt8

/-- The counters of the logger that count tasks and thefts. -/
structure Counters where
  spawnedTasksCount : UInt32
  solvedTasksCount : UInt32
  tasksMovedFromSegmentCount : UInt32
  tasksMovedFromDequeueCount : UInt32
  tryTheftCount : UInt32
  hitCount : UInt32
  stolenTasksCount : UInt32
  missNotaskCount : UInt32
  missTargetLockedCount : UInt32
  missFreeForCopy : UInt32
deriving DecidableEq

/-- Where `move_task_from_my_segment_to_my_dequeue` was called: at the start of
`work_on_my_dequeue`, or by `detection_request` ("self-theft"). -/
inductive RefillSite
  | start
  | selfTheft
deriving DecidableEq

/-- Where `return_result` was called: in the work loop on a full tmp segment, after the work loop,
or before a theft. -/
inductive ReturnSite
  | full
  | last
  | thief
deriving DecidableEq

/-- The assertions of the modelled functions. -/
inductive Assertion
  /-- `m->state == NO_TASK` on entry of `work_on_my_dequeue`. -/
  | entryNoTask
  /-- `old_value == NO_TASK` when sharing starts. -/
  | openNoTask
  /-- `t->nb_result <= t->nb_result_max` in the work loop. -/
  | nbResultMax
  /-- `old_value == FREE_FOR_COPY` when the segment has been filled. -/
  | fillFreeForCopy
  /-- `unlock_distant_old_value == rank` after a theft. -/
  | unlockDistant
  /-- `unlock_local_old_value == rank` after a theft. -/
  | unlockLocal
  /-- `m->state != TASK_AVAILABLE` after the work loop. -/
  | loopEnd
  /-- `old_value == FREE_FOR_COPY` in `active_wait_state`. -/
  | waitFreeForCopy
deriving DecidableEq

/-- The point that a rank has reached in `set_problem`, `parallel_work` and the functions they
call.  Between two points a rank makes at most one access to a word that other ranks access. -/
inductive WorkPc (n : ℕ)
  /-- Not in a session. -/
  | idle
  /-- In the barrier that ends `set_problem`. -/
  | barrier
  /-- Before `parallel_work`. -/
  | ready
  /-- In `return_result`. -/
  | returning (site : ReturnSite)
  /-- In `load_balancing`. -/
  | balancing
  /-- `work_stealing` has locked the segment of `victim`. -/
  | reading (victim : Fin n)
  /-- The first read is complete and there is more to read. -/
  | readingRest (victim : Fin n)
  | unlockingVictim (victim : Fin n)
  /-- The unlock of the victim's segment returned `distantOld`. -/
  | unlockingSelf (distantOld : TaskLock n)
  /-- At the start of `work_on_my_dequeue`. -/
  | working
  /-- There is work to share. -/
  | opening
  | starting
  /-- In `move_task_from_my_segment_to_my_dequeue`. -/
  | refilling (site : RefillSite)
  /-- The tasks have been moved, and `m->state` was read as `comp`. -/
  | refilled (site : RefillSite) (comp : TaskLock n)
  /-- Before the initialization of the tmp segment. -/
  | preparing
  | loopHead
  | loopBody
  /-- In `push_results_buffer`. -/
  | flushing
  /-- Before `do_next_task`. -/
  | solving
  | solved
  /-- Before `switch(m->state)`. -/
  | switching
  /-- In `detection_request`. -/
  | detecting
  /-- In `move_task_from_my_dequeue_to_my_segment`. -/
  | sharing
  /-- The tasks have been moved and the segment is still `FREE_FOR_COPY`. -/
  | shared
  /-- At the start of `active_wait_state`. -/
  | waiting
  | spinning
  | unlockingWait
  /-- The process has stopped at an assertion. -/
  | aborted (a : Assertion)
deriving DecidableEq

/-- The state of one rank. `session` counts the calls of `set_problem`, `finished` the returns of
`parallel_work`, and `executed` records the tasks executed. -/
structure RankTasks (n : ℕ) where
  pc : WorkPc n
  dq : Dequeue n
  seg : MetadataTask n
  tmp : MetadataTmp n
  session : ℕ
  finished : ℕ
  executed : List (TaskId n)
  log : Counters

/-- The sessions are numbered from 0, so this is the number of the current one. -/
def RankTasks.current (t : RankTasks n) : ℕ := t.session - 1

theorem RankTasks.current_eq {t : RankTasks n} {k : ℕ} (h : t.session = k + 1) : t.current = k := by
  rw [current, h, Nat.add_sub_cancel]

theorem RankTasks.current_congr {t t' : RankTasks n} (h : t'.session = t.session) :
    t'.current = t.current := by
  rw [current, h, current]

namespace Dequeue

/-- `tail - head`. -/
def nbTask (dq : Dequeue n) : ℕ := dq.tail - dq.head

/-- The task `(session, owner, id)` is in `[head, tail)`. -/
def Contains (dq : Dequeue n) (session : ℕ) (x : TaskId n) : Prop :=
  x.session = session ∧ x.owner = dq.ownerTaskRank ∧ dq.endTaskId - dq.nbTask ≤ x.id ∧
    x.id < dq.endTaskId

instance (dq : Dequeue n) (session : ℕ) (x : TaskId n) : Decidable (dq.Contains session x) :=
  inferInstanceAs (Decidable (_ ∧ _ ∧ _ ∧ _))

end Dequeue

namespace MetadataTask

/-- The task `(session, owner, id)` is in the segment's batch. -/
def Contains (m : MetadataTask n) (session : ℕ) (x : TaskId n) : Prop :=
  x.session = session ∧ x.owner = m.ownerTaskRank ∧ m.endTaskId - m.nbTask ≤ x.id ∧
    x.id < m.endTaskId

instance (m : MetadataTask n) (session : ℕ) (x : TaskId n) : Decidable (m.Contains session x) :=
  inferInstanceAs (Decidable (_ ∧ _ ∧ _ ∧ _))

/-- `MetadataTask::reset`. -/
def reset (m : MetadataTask n) : MetadataTask n :=
  { m with privateTasksCount := 0, state := .noTask, nbTask := 0 }

end MetadataTask

namespace MetadataTmp

/-- `MetadataTmp::reset`, on a segment of `segmentSize` bytes. -/
def reset (t : MetadataTmp n) (segmentSize : ℕ) : MetadataTmp n :=
  { t with
    ownerResultRank := none, nbResult := 0, lastResultId := 0, resultSize := 0
    ptrNextResultToStore := segmentSize }

end MetadataTmp

end Titus.Tasks
