import Titus.Lib.Transition
import Titus.Tasks.State
import Mathlib.Logic.Function.Basic

/-! The steps of `parallel_work` in `WORK_STEALING` mode, as far as they concern tasks.  What
`return_result` and `push_results_buffer` do to the results is left open here: the first empties the
tmp segment, the second changes nothing, and both take any number of steps of other ranks. -/

namespace Titus.Tasks

open Memory

variable {n : ℕ}

/-! ### The functions -/

/-- `compare_and_swap_status`: the old value, and the segment after it. -/
def compareAndSwapStatus (m : MetadataTask n) (comp newVal : TaskLock n) :
    TaskLock n × MetadataTask n :=
  (m.state, if m.state = comp then { m with state := newVal } else m)

/-- The tmp segment before the first task of a batch from `dq`, as `work_on_my_dequeue` sets it. -/
def initTmp (cfg : Config n) (dq : Dequeue n) (t : MetadataTmp n) : MetadataTmp n :=
  { t with
    ownerResultRank := some dq.ownerTaskRank
    lastResultId := dq.endTaskId
    nbResult := 0
    resultSize := dq.resultSize
    ptrNextResultToStore := cfg.sharedTmpResultSegmentSize - (dq.resultSize : ℤ) }

/-- The first `k` tasks of the dequeue go to the segment. -/
def putOnSegment (dq : Dequeue n) (m : MetadataTask n) (k : ℕ) : Dequeue n × MetadataTask n :=
  ({ dq with head := dq.head + k },
    { m with
      segmentSize := sizeofMetadataTask + dq.taskSize * k
      ownerTaskRank := dq.ownerTaskRank
      nbTask := k
      endTaskId := dq.endTaskId - (dq.nbTask - k)
      taskSize := dq.taskSize
      resultSize := dq.resultSize
      ptrTaskFunction := dq.ptrTaskFunction
      tasks := copy m.tasks 0 dq.baseTask (dq.head * dq.taskSize) (k * dq.taskSize) })

/-- `move_task_from_my_dequeue_to_my_segment` on rank `r`, up to its unlock. -/
def moveTaskFromMyDequeueToMySegment (cfg : Config n) (r : Fin n) (dq : Dequeue n)
    (m : MetadataTask n) : Dequeue n × MetadataTask n :=
  let nbTask := dq.nbTask
  let nbTaskMax := (cfg.sharedTaskSegmentSize - sizeofMetadataTask) / dq.taskSize
  if nbTask < nbTaskMin then
    (dq, { m with
      segmentSize := sizeofMetadataTask, ownerTaskRank := r, nbTask := 0, endTaskId := 0
      taskSize := 0, resultSize := 0, ptrTaskFunction := 0 })
  else if 2 * nbTaskMax ≤ nbTask then putOnSegment dq m nbTaskMax
  else putOnSegment dq m (nbTask / 2)

/-- The last `k` tasks of the segment go to the dequeue, and `endTaskId` is that of the others. -/
def takeFromSegment (dq : Dequeue n) (m : MetadataTask n) (k endTaskId : ℕ) :
    Dequeue n × MetadataTask n :=
  ({ dq with
      head := 0
      tail := k
      ownerTaskRank := m.ownerTaskRank
      taskSize := m.taskSize
      endTaskId := m.endTaskId
      resultSize := m.resultSize
      ptrTaskFunction := m.ptrTaskFunction
      baseTask := copy dq.baseTask 0 m.tasks ((m.nbTask - k) * m.taskSize) (k * m.taskSize) },
    { m with
      nbTask := m.nbTask - k
      segmentSize := sizeofMetadataTask + m.taskSize * (m.nbTask - k)
      endTaskId := endTaskId })

/-- `move_task_from_my_segment_to_my_dequeue`, up to its unlock. -/
def moveTaskFromMySegmentToMyDequeue (dq : Dequeue n) (m : MetadataTask n) :
    Dequeue n × MetadataTask n :=
  if m.nbTask < nbTaskMin then takeFromSegment dq m m.nbTask 0
  else takeFromSegment dq m (m.nbTask / 2) (m.endTaskId - m.nbTask / 2)

/-- The bytes of `do_next_task`'s task, the last one of the dequeue. -/
def nextTaskBytes (dq : Dequeue n) : List UInt8 :=
  read dq.baseTask ((dq.tail - 1) * dq.taskSize) dq.taskSize

/-- The tmp segment after `do_next_task`. -/
def storeResult (cfg : Config n) (dq : Dequeue n) (t : MetadataTmp n) : MetadataTmp n :=
  { t with
    bytes := fun x =>
      if t.ptrNextResultToStore ≤ x ∧ x < t.ptrNextResultToStore + t.resultSize then
        cfg.call dq.ptrTaskFunction (nextTaskBytes dq) (x - t.ptrNextResultToStore).toNat
      else t.bytes x
    ptrNextResultToStore := t.ptrNextResultToStore - t.resultSize
    nbResult := t.nbResult + 1 }

/-- The dequeue after `do_next_task`. -/
def dropTask (dq : Dequeue n) : Dequeue n :=
  { dq with endTaskId := dq.endTaskId - 1, tail := dq.tail - 1 }

/-- `do_next_task`. -/
def doNextTask (cfg : Config n) (t : RankTasks n) : RankTasks n :=
  { t with
    tmp := storeResult cfg t.dq t.tmp
    dq := dropTask t.dq
    seg := { t.seg with privateTasksCount := (dropTask t.dq).nbTask }
    executed := ⟨t.current, t.dq.ownerTaskRank, t.dq.endTaskId - 1⟩ :: t.executed
    log := { t.log with solvedTasksCount := t.log.solvedTasksCount + 1 } }

/-- What `set_problem` does before its barrier. -/
def setProblem (cfg : Config n) (r : Fin n) (t : RankTasks n) : RankTasks n :=
  let k := t.session
  let bytes := cfg.taskSize k * cfg.nbTask k r
  { t with
    dq :=
      { head := 0
        tail := cfg.nbTask k r
        baseTask := copy t.dq.baseTask 0 (cfg.problem k r) 0 bytes
        ownerTaskRank := r
        endTaskId := cfg.nbTask k r
        taskSize := cfg.taskSize k
        resultSize := cfg.resultSize k
        problemSizeAllocated :=
          if t.dq.problemSizeAllocated < bytes then bytes else t.dq.problemSizeAllocated
        ptrTaskFunction := cfg.ptrTaskFunction k r }
    tmp :=
      { t.tmp with
        ownerResultRank := some r
        lastResultId := 0
        nbResult := 0
        nbResultMax :=
          (cfg.sharedTmpResultSegmentSize - sizeofMetadataTmp) / cfg.resultSize k - 1
        resultSize := cfg.resultSize k
        ptrNextResultToStore := cfg.sharedTmpResultSegmentSize - (cfg.resultSize k : ℤ) }
    log := { t.log with
      spawnedTasksCount := t.log.spawnedTasksCount + UInt32.ofNat (cfg.nbTask k r) }
    session := k + 1
    pc := .barrier }

/-- The first read of a theft, of `len` bytes in all: the metadata and the first tasks of the
victim's segment. -/
def readFirst (own victim : MetadataTask n) (len : ℕ) : MetadataTask n :=
  { victim with tasks := copy own.tasks 0 victim.tasks 0 (len - sizeofMetadataTask) }

/-- The second read of a theft, up to the size that the first one brought. -/
def readRest (own victim : MetadataTask n) : MetadataTask n :=
  { own with
    tasks := copy own.tasks (sizeFirstRead - sizeofMetadataTask) victim.tasks
      (sizeFirstRead - sizeofMetadataTask) (own.segmentSize - sizeFirstRead) }

/-- The counters after a theft that found the victim's segment in `victimState`. -/
def countTheft (log : Counters) (victimState : TaskLock n) (nbTask : ℕ) : Counters :=
  let log := { log with stolenTasksCount := log.stolenTasksCount + UInt32.ofNat nbTask }
  match victimState with
  | .freeForCopy => { log with missFreeForCopy := log.missFreeForCopy + 1 }
  | .noTask => { log with missNotaskCount := log.missNotaskCount + 1 }
  | _ => { log with missTargetLockedCount := log.missTargetLockedCount + 1 }

/-! ### The steps of one rank on its own state -/

/-- The state after the point `t.pc`, where that concerns no other rank.  `b` is the outcome of the
test of the occupancy of the result segment. -/
def localNext (cfg : Config n) (r : Fin n) (t : RankTasks n) (b : Bool) : Option (RankTasks n) :=
  match t.pc with
  | .ready => some { t with pc := if 0 < t.dq.nbTask then .working else .returning .thief }
  | .working =>
    if t.seg.state ≠ .noTask then some { t with pc := .aborted .entryNoTask }
    else some { t with pc := if nbTaskMin < t.dq.nbTask then .opening else .starting }
  | .opening =>
    let (old, seg) := compareAndSwapStatus t.seg .noTask .freeForCopy
    some { t with seg, pc := if old = .noTask then .starting else .aborted .openNoTask }
  | .starting =>
    some { t with pc := if 0 < t.seg.nbTask then .refilling .start else .preparing }
  | .refilling site =>
    let (dq, seg) := moveTaskFromMySegmentToMyDequeue t.dq t.seg
    some { t with dq, seg, pc := .refilled site seg.state }
  | .refilled site comp =>
    let (_, seg) := compareAndSwapStatus t.seg comp
      (if t.seg.nbTask = 0 then .noTask else .taskAvailable)
    some { t with
      seg
      log := { t.log with
        tasksMovedFromSegmentCount :=
          t.log.tasksMovedFromSegmentCount + UInt32.ofNat t.seg.nbTask }
      pc := match site with | .start => .preparing | .selfTheft => .loopHead }
  | .preparing => some { t with tmp := initTmp cfg t.dq t.tmp, pc := .loopHead }
  | .loopHead =>
    if t.dq.tail = t.dq.head then
      some { t with
        pc := if t.seg.state = .taskAvailable then .aborted .loopEnd else .returning .last }
    else if ¬ t.tmp.nbResult ≤ t.tmp.nbResultMax then some { t with pc := .aborted .nbResultMax }
    else some { t with
      pc := if t.tmp.nbResult = t.tmp.nbResultMax then .returning .full else .loopBody }
  | .returning site =>
    -- `return_result` comes back with an empty tmp segment
    if t.tmp.nbResult = 0 then
      match site with
      | .full => some { t with tmp := initTmp cfg t.dq t.tmp, pc := .loopBody }
      | .last => some { t with pc := .waiting }
      | .thief => some { t with pc := .balancing }
    else none
  | .loopBody => some { t with pc := if b then .flushing else .solving }
  | .flushing => some { t with pc := .solving }
  | .solving => some { doNextTask cfg t with pc := .solved }
  | .solved =>
    let seg := if t.dq.nbTask = 0 then (compareAndSwapStatus t.seg .taskAvailable (.rank r)).2
      else t.seg
    some { t with seg, pc := .switching }
  | .switching =>
    match t.seg.state with
    | .taskAvailable | .noTask | .copyInProgress => some { t with pc := .loopHead }
    | .freeForCopy => some { t with pc := .sharing }
    | .rank _ => some { t with pc := .detecting }
  | .detecting =>
    some { t with pc := if t.seg.state = .rank r then .refilling .selfTheft else .loopHead }
  | .sharing =>
    let (dq, seg) := moveTaskFromMyDequeueToMySegment cfg r t.dq t.seg
    some { t with dq, seg, pc := .shared }
  | .shared =>
    let (old, seg) := compareAndSwapStatus t.seg .freeForCopy
      (if t.seg.nbTask = 0 then .noTask else .taskAvailable)
    some { t with
      seg
      log := { t.log with
        tasksMovedFromDequeueCount :=
          t.log.tasksMovedFromDequeueCount + UInt32.ofNat t.seg.nbTask }
      pc := if old = .freeForCopy then .loopHead else .aborted .fillFreeForCopy }
  | .waiting =>
    some { t with pc := if t.seg.state ≠ .noTask then .spinning else .returning .thief }
  | .spinning =>
    some { t with pc := if t.seg.state = .freeForCopy then .unlockingWait else .spinning }
  | .unlockingWait =>
    let (old, seg) := compareAndSwapStatus t.seg .freeForCopy .noTask
    some { t with
      seg, pc := if old = .freeForCopy then .returning .thief else .aborted .waitFreeForCopy }
  | .unlockingSelf distantOld =>
    let (localOld, seg) := compareAndSwapStatus t.seg t.seg.state .noTask
    some { t with
      seg
      log := countTheft t.log (.taskAvailable : TaskLock n) t.seg.nbTask
      pc :=
        if distantOld ≠ .rank r then .aborted .unlockDistant
        else if localOld ≠ .rank r then .aborted .unlockLocal
        else .working }
  | .idle | .barrier | .balancing | .reading _ | .readingRest _ | .unlockingVictim _ |
    .aborted _ => none

/-! ### The steps of all ranks -/

/-- What a rank does next. -/
inductive Action (n : ℕ)
  /-- Call `set_problem`, up to its barrier. -/
  | setProblem
  /-- Leave the barrier of `set_problem`. -/
  | leaveBarrier
  /-- Return from `parallel_work`, as termination has been detected. -/
  | finish
  /-- Lock the segment of `victim` for a theft. -/
  | steal (victim : Fin n)
  /-- `push_tmp_results` has taken the content of the tmp segment. -/
  | pushed
  /-- Go on from the point reached. -/
  | advance (occupied : Bool)
deriving DecidableEq

/-- The ranks. -/
abbrev State (n : ℕ) := Fin n → RankTasks n

/-- The first step of `work_stealing` on rank `r`: lock the segment of `victim`. -/
def lockVictim (s : State n) (r victim : Fin n) : State n :=
  let (old, seg) := compareAndSwapStatus (s victim).seg .taskAvailable (.rank r)
  let s := Function.update s victim { s victim with seg }
  if old = .taskAvailable then Function.update s r { s r with pc := .reading victim }
  else Function.update s r
    { s r with log := countTheft (s r).log old (s r).seg.nbTask, pc := .returning .thief }

/-- The remaining steps of `work_stealing` on the victim's segment. -/
def stealNext (cfg : Config n) (s : State n) (r : Fin n) : Option (State n) :=
  match (s r).pc with
  | .reading victim =>
    if cfg.sharedTaskSegmentSize < sizeFirstRead then
      some (Function.update s r { s r with
        seg := readFirst (s r).seg (s victim).seg cfg.sharedTaskSegmentSize
        pc := .unlockingVictim victim })
    else
      let seg := readFirst (s r).seg (s victim).seg sizeFirstRead
      some (Function.update s r { s r with
        seg
        pc := if sizeFirstRead < seg.segmentSize then .readingRest victim
          else .unlockingVictim victim })
  | .readingRest victim =>
    some (Function.update s r { s r with
      seg := readRest (s r).seg (s victim).seg, pc := .unlockingVictim victim })
  | .unlockingVictim victim =>
    let (old, seg) := compareAndSwapStatus (s victim).seg (.rank r) .freeForCopy
    let s := Function.update s victim { s victim with seg }
    some (Function.update s r { s r with pc := .unlockingSelf old })
  | _ => none

/-- One step of rank `r`. -/
def next (cfg : Config n) (s : State n) : Fin n × Action n → Option (State n)
  | (r, .setProblem) =>
    if (s r).pc = .idle ∧ cfg.Accepts (s r).session then
      some (Function.update s r (setProblem cfg r (s r)))
    else none
  | (r, .leaveBarrier) =>
    if (s r).pc = .barrier ∧ ∀ q, (s r).session ≤ (s q).session then
      some (Function.update s r { s r with pc := .ready })
    else none
  | (r, .finish) =>
    if (s r).pc = .balancing then
      some (Function.update s r { s r with
        seg := (s r).seg.reset, finished := (s r).finished + 1, pc := .idle })
    else none
  | (r, .steal victim) =>
    if (s r).pc = .balancing ∧ victim ≠ r then some (lockVictim s r victim) else none
  | (r, .pushed) =>
    match (s r).pc with
    | .returning _ =>
      if (s r).tmp.nbResult = 0 then none
      else some (Function.update s r { s r with
        tmp := (s r).tmp.reset cfg.sharedTmpResultSegmentSize })
    | _ => none
  | (r, .advance b) =>
    match (s r).pc with
    | .reading _ | .readingRest _ | .unlockingVictim _ => stealNext cfg s r
    | _ => (localNext cfg r (s r) b).map (Function.update s r)

/-! ### What a step does -/

/-- Rank `r` after a thief has changed the state word of its segment. -/
def withState (t : RankTasks n) (state : TaskLock n) : RankTasks n :=
  { t with seg := { t.seg with state } }

/-- The steps of rank `r` from `s`, each with what made it possible and the state after it. -/
inductive Stepped (cfg : Config n) (s : State n) (r : Fin n) : Action n → State n → Prop
  | setProblem (hpc : (s r).pc = .idle) (hacc : cfg.Accepts (s r).session) :
    Stepped cfg s r .setProblem (Function.update s r (setProblem cfg r (s r)))
  | leaveBarrier (hpc : (s r).pc = .barrier) (hall : ∀ q, (s r).session ≤ (s q).session) :
    Stepped cfg s r .leaveBarrier (Function.update s r { s r with pc := .ready })
  | finish (hpc : (s r).pc = .balancing) :
    Stepped cfg s r .finish (Function.update s r { s r with
      seg := (s r).seg.reset, finished := (s r).finished + 1, pc := .idle })
  | missed (v : Fin n) (hpc : (s r).pc = .balancing) (hne : v ≠ r)
      (hst : (s v).seg.state ≠ .taskAvailable) :
    Stepped cfg s r (.steal v) (Function.update s r { s r with
      log := countTheft (s r).log (s v).seg.state (s r).seg.nbTask, pc := .returning .thief })
  | locked (v : Fin n) (hpc : (s r).pc = .balancing) (hne : v ≠ r)
      (hst : (s v).seg.state = .taskAvailable) :
    Stepped cfg s r (.steal v) (Function.update (Function.update s v (withState (s v) (.rank r)))
      r { s r with pc := .reading v })
  | pushed (site : ReturnSite) (hpc : (s r).pc = .returning site) :
    Stepped cfg s r .pushed (Function.update s r { s r with
      tmp := (s r).tmp.reset cfg.sharedTmpResultSegmentSize })
  | readFirst (b : Bool) (v : Fin n) (len : ℕ) (pc : WorkPc n) (hpc : (s r).pc = .reading v)
      (hrest : pc = .readingRest v ∧ len = sizeFirstRead ∨
        pc = .unlockingVictim v ∧
          (len = cfg.sharedTaskSegmentSize ∨ (s v).seg.segmentSize ≤ len)) :
    Stepped cfg s r (.advance b) (Function.update s r { s r with
      seg := readFirst (s r).seg (s v).seg len, pc })
  | readRest (b : Bool) (v : Fin n) (hpc : (s r).pc = .readingRest v) :
    Stepped cfg s r (.advance b) (Function.update s r { s r with
      seg := readRest (s r).seg (s v).seg, pc := .unlockingVictim v })
  | unlock (b : Bool) (v : Fin n) (state : TaskLock n) (hpc : (s r).pc = .unlockingVictim v)
      (hstate : state = if (s v).seg.state = .rank r then .freeForCopy else (s v).seg.state) :
    Stepped cfg s r (.advance b) (Function.update (Function.update s v (withState (s v) state)) r
      { Function.update s v (withState (s v) state) r with
        pc := .unlockingSelf (s v).seg.state })
  | own (b : Bool) (t : RankTasks n) (h : localNext cfg r (s r) b = some t) :
    Stepped cfg s r (.advance b) (Function.update s r t)

theorem compareAndSwapStatus_withState (t : RankTasks n) (comp newVal : TaskLock n) :
    { t with seg := (compareAndSwapStatus t.seg comp newVal).2 } =
      withState t (if t.seg.state = comp then newVal else t.seg.state) := by
  unfold compareAndSwapStatus withState
  split <;> rfl

theorem stepped_of_next {cfg : Config n} {s s' : State n} {r : Fin n} {a : Action n}
    (hs : next cfg s (r, a) = some s') : Stepped cfg s r a s' := by
  cases a with
  | setProblem =>
    simp only [next] at hs
    split at hs <;> cases hs
    rename_i hc
    exact .setProblem hc.1 hc.2
  | leaveBarrier =>
    simp only [next] at hs
    split at hs <;> cases hs
    rename_i hc
    exact .leaveBarrier hc.1 hc.2
  | finish =>
    simp only [next] at hs
    split at hs <;> cases hs
    rename_i hc
    exact .finish hc
  | steal v =>
    simp only [next] at hs
    split at hs <;> cases hs
    rename_i hc
    simp only [lockVictim, compareAndSwapStatus_withState]
    simp only [compareAndSwapStatus]
    by_cases hst : (s v).seg.state = .taskAvailable
    · simp only [hst, if_true]
      rw [Function.update_of_ne hc.2.symm]
      exact .locked v hc.1 hc.2 hst
    · simp only [hst, if_false]
      have heta : withState (s v) (s v).seg.state = s v := rfl
      rw [heta, Function.update_eq_self]
      exact .missed v hc.1 hc.2 hst
  | pushed =>
    simp only [next] at hs
    split at hs
    · split at hs <;> cases hs
      exact .pushed _ ‹_›
    · cases hs
  | advance b =>
    simp only [next] at hs
    split at hs
    · rename_i v hpc
      simp only [stealNext, hpc] at hs
      split at hs <;> cases hs
      · exact .readFirst b v _ _ hpc (.inr ⟨rfl, .inl rfl⟩)
      · refine .readFirst b v _ _ hpc ?_
        split
        · exact .inl ⟨rfl, rfl⟩
        · rename_i hle
          exact .inr ⟨rfl, .inr (Nat.le_of_not_lt hle)⟩
    · rename_i v hpc
      simp only [stealNext, hpc] at hs
      cases hs
      exact .readRest b v hpc
    · rename_i v hpc
      simp only [stealNext, hpc, compareAndSwapStatus_withState] at hs
      cases hs
      exact .unlock b v _ hpc rfl
    · obtain ⟨t, ht, rfl⟩ := Option.map_eq_some_iff.mp hs
      exact .own b t ht

/-- A step of rank `r` changes at most the state word of the segment of another rank. -/
theorem Stepped.other {cfg : Config n} {s s' : State n} {r v : Fin n} {a : Action n}
    (h : Stepped cfg s r a s') (hv : v ≠ r) : ∃ state, s' v = withState (s v) state := by
  have hswap : ∀ w state t, ∃ state', Function.update (Function.update s w
      (withState (s w) state)) r t v = withState (s v) state' := by
    intro w state t
    rw [Function.update_of_ne hv]
    by_cases hw : v = w
    · subst hw
      exact ⟨state, Function.update_self _ _ _⟩
    · exact ⟨(s v).seg.state, Function.update_of_ne hw _ _⟩
  cases h with
  | locked w => exact hswap _ _ _
  | unlock b w state => exact hswap _ _ _
  | _ => exact ⟨(s v).seg.state, Function.update_of_ne hv _ _⟩

/-! ### The steps of one rank, point by point -/

/-- The points that rank `r` goes to from `t.pc`, with what leads to each, when it changes nothing
else. -/
inductive Moved (r : Fin n) (t : RankTasks n) : WorkPc n → Prop
  | readyWorking (hpc : t.pc = .ready) (hnb : 0 < t.dq.nbTask) : Moved r t .working
  | readyReturning (hpc : t.pc = .ready) (hnb : t.dq.nbTask = 0) : Moved r t (.returning .thief)
  | workingOpening (hpc : t.pc = .working) (hst : t.seg.state = .noTask)
      (hmin : nbTaskMin < t.dq.nbTask) : Moved r t .opening
  | workingStarting (hpc : t.pc = .working) (hst : t.seg.state = .noTask)
      (hmin : t.dq.nbTask ≤ nbTaskMin) : Moved r t .starting
  | startingRefilling (hpc : t.pc = .starting) (hnb : 0 < t.seg.nbTask) :
    Moved r t (.refilling .start)
  | startingPreparing (hpc : t.pc = .starting) (hnb : t.seg.nbTask = 0) : Moved r t .preparing
  | headLast (hpc : t.pc = .loopHead) (hempty : t.dq.tail = t.dq.head)
      (hst : t.seg.state ≠ .taskAvailable) : Moved r t (.returning .last)
  | headFull (hpc : t.pc = .loopHead) (hne : t.dq.tail ≠ t.dq.head)
      (hmax : t.tmp.nbResult = t.tmp.nbResultMax) : Moved r t (.returning .full)
  | headBody (hpc : t.pc = .loopHead) (hne : t.dq.tail ≠ t.dq.head)
      (hmax : t.tmp.nbResult < t.tmp.nbResultMax) : Moved r t .loopBody
  | headAborted (hpc : t.pc = .loopHead) (hne : t.dq.tail ≠ t.dq.head)
      (hmax : ¬ t.tmp.nbResult ≤ t.tmp.nbResultMax) : Moved r t (.aborted .nbResultMax)
  | returningLast (hpc : t.pc = .returning .last) (hnb : t.tmp.nbResult = 0) : Moved r t .waiting
  | returningThief (hpc : t.pc = .returning .thief) (hnb : t.tmp.nbResult = 0) :
    Moved r t .balancing
  | bodyFlushing (hpc : t.pc = .loopBody) : Moved r t .flushing
  | bodySolving (hpc : t.pc = .loopBody) : Moved r t .solving
  | flushing (hpc : t.pc = .flushing) : Moved r t .solving
  | solved (hpc : t.pc = .solved) (hst : t.dq.nbTask = 0 → t.seg.state ≠ .taskAvailable) :
    Moved r t .switching
  | switchingHead (hpc : t.pc = .switching)
      (hst : t.seg.state ≠ .freeForCopy ∧ ∀ q, t.seg.state ≠ .rank q) : Moved r t .loopHead
  | switchingSharing (hpc : t.pc = .switching) (hst : t.seg.state = .freeForCopy) :
    Moved r t .sharing
  | switchingDetecting (q : Fin n) (hpc : t.pc = .switching) (hst : t.seg.state = .rank q) :
    Moved r t .detecting
  | detectingRefilling (hpc : t.pc = .detecting) (hst : t.seg.state = .rank r) :
    Moved r t (.refilling .selfTheft)
  | detectingHead (hpc : t.pc = .detecting) (hst : t.seg.state ≠ .rank r) : Moved r t .loopHead
  | waitingSpinning (hpc : t.pc = .waiting) (hst : t.seg.state ≠ .noTask) : Moved r t .spinning
  | waitingReturning (hpc : t.pc = .waiting) (hst : t.seg.state = .noTask) :
    Moved r t (.returning .thief)
  | spinningUnlocking (hpc : t.pc = .spinning) (hst : t.seg.state = .freeForCopy) :
    Moved r t .unlockingWait
  | spinning (hpc : t.pc = .spinning) (hst : t.seg.state ≠ .freeForCopy) : Moved r t .spinning

/-- The assertions on the state word that do not hold at `t.pc`. -/
inductive Fails (t : RankTasks n) : Assertion → Prop
  | working (hpc : t.pc = .working) (hst : t.seg.state ≠ .noTask) : Fails t .entryNoTask
  | opening (hpc : t.pc = .opening) (hst : t.seg.state ≠ .noTask) : Fails t .openNoTask
  | loopHead (hpc : t.pc = .loopHead) (hempty : t.dq.tail = t.dq.head)
      (hst : t.seg.state = .taskAvailable) : Fails t .loopEnd
  | unlockingWait (hpc : t.pc = .unlockingWait) (hst : t.seg.state ≠ .freeForCopy) :
    Fails t .waitFreeForCopy

/-- The point after the refill. -/
def RefillSite.resume : RefillSite → WorkPc n
  | .start => .preparing
  | .selfTheft => .loopHead

/-- The counters after a refill from the segment, on which `nbTask` tasks remain. -/
def countRefill (log : Counters) (nbTask : ℕ) : Counters :=
  { log with
    tasksMovedFromSegmentCount := log.tasksMovedFromSegmentCount + UInt32.ofNat nbTask }

/-- The counters after `nbTask` tasks were put on the segment. -/
def countShare (log : Counters) (nbTask : ℕ) : Counters :=
  { log with
    tasksMovedFromDequeueCount := log.tasksMovedFromDequeueCount + UInt32.ofNat nbTask }

/-- The steps of `localNext`, each with what made it possible and the state after it. -/
inductive LocalStepped (cfg : Config n) (r : Fin n) (t : RankTasks n) : RankTasks n → Prop
  | move (pc : WorkPc n) (hm : Moved r t pc) : LocalStepped cfg r t { t with pc }
  | failed (a : Assertion) (hf : Fails t a) : LocalStepped cfg r t { t with pc := .aborted a }
  | opening (hpc : t.pc = .opening) (hst : t.seg.state = .noTask) :
    LocalStepped cfg r t { withState t .freeForCopy with pc := .starting }
  | refilling (site : RefillSite) (hpc : t.pc = .refilling site) :
    LocalStepped cfg r t { t with
      dq := (moveTaskFromMySegmentToMyDequeue t.dq t.seg).1
      seg := (moveTaskFromMySegmentToMyDequeue t.dq t.seg).2
      pc := .refilled site (moveTaskFromMySegmentToMyDequeue t.dq t.seg).2.state }
  | refilled (site : RefillSite) (comp state : TaskLock n) (hpc : t.pc = .refilled site comp)
      (hst : state = if t.seg.state = comp then
        (if t.seg.nbTask = 0 then .noTask else .taskAvailable) else t.seg.state) :
    LocalStepped cfg r t { withState t state with
      log := countRefill t.log t.seg.nbTask
      pc := site.resume }
  | preparing (hpc : t.pc = .preparing) :
    LocalStepped cfg r t { t with tmp := initTmp cfg t.dq t.tmp, pc := .loopHead }
  | returningFull (hpc : t.pc = .returning .full) (hnb : t.tmp.nbResult = 0) :
    LocalStepped cfg r t { t with tmp := initTmp cfg t.dq t.tmp, pc := .loopBody }
  | solving (hpc : t.pc = .solving) :
    LocalStepped cfg r t { doNextTask cfg t with pc := .solved }
  | lockingSelf (hpc : t.pc = .solved) (hnb : t.dq.nbTask = 0)
      (hst : t.seg.state = .taskAvailable) :
    LocalStepped cfg r t { withState t (.rank r) with pc := .switching }
  | sharing (hpc : t.pc = .sharing) :
    LocalStepped cfg r t { t with
      dq := (moveTaskFromMyDequeueToMySegment cfg r t.dq t.seg).1
      seg := (moveTaskFromMyDequeueToMySegment cfg r t.dq t.seg).2
      pc := .shared }
  | shared (hpc : t.pc = .shared) (hst : t.seg.state = .freeForCopy) :
    LocalStepped cfg r t { withState t (if t.seg.nbTask = 0 then .noTask else .taskAvailable) with
      log := countShare t.log t.seg.nbTask
      pc := .loopHead }
  | sharedFailed (hpc : t.pc = .shared) (hst : t.seg.state ≠ .freeForCopy) :
    LocalStepped cfg r t { t with
      log := countShare t.log t.seg.nbTask
      pc := .aborted .fillFreeForCopy }
  | unlockingWait (hpc : t.pc = .unlockingWait) (hst : t.seg.state = .freeForCopy) :
    LocalStepped cfg r t { withState t .noTask with pc := .returning .thief }
  | unlockingSelf (old : TaskLock n) (pc : WorkPc n) (hpc : t.pc = .unlockingSelf old)
      (hnext : pc = .working ∨
        (∃ a, pc = .aborted a) ∧ (old ≠ .rank r ∨ t.seg.state ≠ .rank r)) :
    LocalStepped cfg r t { withState t .noTask with
      log := countTheft t.log (.taskAvailable : TaskLock n) t.seg.nbTask
      pc }

theorem localStepped_of_localNext {cfg : Config n} {r : Fin n} {t t' : RankTasks n} {b : Bool}
    (hs : localNext cfg r t b = some t') : LocalStepped cfg r t t' := by
  cases hpc : t.pc with
  | ready =>
    simp only [localNext, hpc] at hs
    cases hs
    split
    · exact .move _ (.readyWorking hpc ‹_›)
    · exact .move _ (.readyReturning hpc (Nat.eq_zero_of_not_pos ‹_›))
  | working =>
    simp only [localNext, hpc] at hs
    split at hs
    · cases hs
      exact .failed _ (.working hpc ‹_›)
    · rename_i hst
      cases hs
      split
      · exact .move _ (.workingOpening hpc (not_not.mp hst) ‹_›)
      · exact .move _ (.workingStarting hpc (not_not.mp hst) (Nat.le_of_not_lt ‹_›))
  | opening =>
    simp only [localNext, hpc, compareAndSwapStatus] at hs
    cases hs
    by_cases hst : t.seg.state = .noTask
    · simp only [hst, if_true]
      exact .opening hpc hst
    · simp only [hst, if_false]
      exact .failed _ (.opening hpc hst)
  | starting =>
    simp only [localNext, hpc] at hs
    cases hs
    split
    · exact .move _ (.startingRefilling hpc ‹_›)
    · exact .move _ (.startingPreparing hpc (Nat.eq_zero_of_not_pos ‹_›))
  | refilling site =>
    simp only [localNext, hpc] at hs
    cases hs
    exact .refilling site hpc
  | refilled site comp =>
    simp only [localNext, hpc, compareAndSwapStatus] at hs
    cases hs
    by_cases hst : t.seg.state = comp
    · rw [if_pos hst]
      cases site <;> exact .refilled _ comp _ hpc (if_pos hst).symm
    · rw [if_neg hst]
      cases site <;> exact .refilled _ comp t.seg.state hpc (if_neg hst).symm
  | preparing =>
    simp only [localNext, hpc] at hs
    cases hs
    exact .preparing hpc
  | loopHead =>
    simp only [localNext, hpc] at hs
    split at hs
    · rename_i hempty
      cases hs
      split
      · exact .failed _ (.loopHead hpc hempty ‹_›)
      · exact .move _ (.headLast hpc hempty ‹_›)
    · rename_i hne
      split at hs
      · cases hs
        exact .move _ (.headAborted hpc hne ‹_›)
      · rename_i hmax
        cases hs
        split
        · exact .move _ (.headFull hpc hne ‹_›)
        · exact .move _ (.headBody hpc hne (lt_of_le_of_ne (not_not.mp hmax) ‹_›))
  | returning site =>
    simp only [localNext, hpc] at hs
    split at hs
    · rename_i hnb
      cases site with
      | full =>
        cases hs
        exact .returningFull hpc hnb
      | last =>
        cases hs
        exact .move _ (.returningLast hpc hnb)
      | thief =>
        cases hs
        exact .move _ (.returningThief hpc hnb)
    · cases hs
  | loopBody =>
    simp only [localNext, hpc] at hs
    cases hs
    split
    · exact .move _ (.bodyFlushing hpc)
    · exact .move _ (.bodySolving hpc)
  | flushing =>
    simp only [localNext, hpc] at hs
    cases hs
    exact .move _ (.flushing hpc)
  | solving =>
    simp only [localNext, hpc] at hs
    cases hs
    exact .solving hpc
  | solved =>
    simp only [localNext, hpc] at hs
    cases hs
    by_cases hlock : t.dq.nbTask = 0 ∧ t.seg.state = .taskAvailable
    · rw [if_pos hlock.1, compareAndSwapStatus, if_pos hlock.2]
      exact .lockingSelf hpc hlock.1 hlock.2
    · have hsame : (if t.dq.nbTask = 0 then
          (compareAndSwapStatus t.seg .taskAvailable (.rank r)).2 else t.seg) = t.seg := by
        split
        · rename_i hnb
          exact if_neg fun hst => hlock ⟨hnb, hst⟩
        · rfl
      rw [hsame]
      exact .move _ (.solved hpc fun hnb hst => hlock ⟨hnb, hst⟩)
  | switching =>
    simp only [localNext, hpc] at hs
    split at hs <;> rename_i hst <;> cases hs
    · exact .move _ (.switchingHead hpc (by simp [hst]))
    · exact .move _ (.switchingHead hpc (by simp [hst]))
    · exact .move _ (.switchingHead hpc (by simp [hst]))
    · exact .move _ (.switchingSharing hpc hst)
    · exact .move _ (.switchingDetecting _ hpc hst)
  | detecting =>
    simp only [localNext, hpc] at hs
    cases hs
    split
    · exact .move _ (.detectingRefilling hpc ‹_›)
    · exact .move _ (.detectingHead hpc ‹_›)
  | sharing =>
    simp only [localNext, hpc] at hs
    cases hs
    exact .sharing hpc
  | shared =>
    simp only [localNext, hpc, compareAndSwapStatus] at hs
    cases hs
    by_cases hst : t.seg.state = .freeForCopy
    · simp only [hst, if_true]
      exact .shared hpc hst
    · simp only [hst, if_false]
      exact .sharedFailed hpc hst
  | waiting =>
    simp only [localNext, hpc] at hs
    cases hs
    split
    · exact .move _ (.waitingSpinning hpc ‹_›)
    · exact .move _ (.waitingReturning hpc (not_not.mp ‹_›))
  | spinning =>
    simp only [localNext, hpc] at hs
    cases hs
    split
    · exact .move _ (.spinningUnlocking hpc ‹_›)
    · exact .move _ (.spinning hpc ‹_›)
  | unlockingWait =>
    simp only [localNext, hpc, compareAndSwapStatus] at hs
    cases hs
    by_cases hst : t.seg.state = .freeForCopy
    · simp only [hst, if_true]
      exact .unlockingWait hpc hst
    · simp only [hst, if_false]
      exact .failed _ (.unlockingWait hpc hst)
  | unlockingSelf old =>
    simp only [localNext, hpc, compareAndSwapStatus, if_true] at hs
    cases hs
    refine .unlockingSelf old _ hpc ?_
    split
    · exact .inr ⟨⟨_, rfl⟩, .inl ‹_›⟩
    · split
      · exact .inr ⟨⟨_, rfl⟩, .inr ‹_›⟩
      · exact .inl rfl
  | idle | barrier | balancing | reading | readingRest | unlockingVictim | aborted =>
    simp only [localNext, hpc] at hs
    cases hs

/-- A rank before its first `set_problem`. -/
structure RankInit (t : RankTasks n) : Prop where
  pc : t.pc = .idle
  dq : t.dq.head = t.dq.tail
  state : t.seg.state = .noTask
  nbTask : t.seg.nbTask = 0
  nbResult : t.tmp.nbResult = 0
  session : t.session = 0
  finished : t.finished = 0
  executed : t.executed = []

/-- The task side of the library on `n` ranks. -/
def system (cfg : Config n) : Transition.System (State n) (Fin n × Action n) where
  init s := ∀ r, RankInit (s r)
  next := next cfg

end Titus.Tasks
