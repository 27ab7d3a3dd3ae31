import Titus.Tasks.SegmentLock

/-! The work loop of `work_on_my_dequeue` alone, under thieves that lock and unlock the segment at
any time: it ends, and it leaves no task behind. -/

namespace Titus.Tasks

variable {n : ℕ} {cfg : Config n} {r : Fin n} {t t' : RankTasks n}

/-! ### The loop -/

/-- The points of the loop, each with the number of steps up to the next task at most. -/
def loopPoint : WorkPc n → Option ℕ
  | .loopHead => some 5
  | .returning .full => some 4
  | .loopBody => some 3
  | .flushing => some 2
  | .solving => some 1
  | .solved => some 10
  | .switching => some 9
  | .detecting => some 8
  | .refilling .selfTheft | .sharing => some 7
  | .refilled .selfTheft _ | .shared => some 6
  | _ => none

/-- What happens while rank `r` is in the loop. -/
inductive LoopAction (n : ℕ)
  /-- The rank goes on. -/
  | advance (occupied : Bool)
  /-- In `return_result`, `push_tmp_results` has taken the content of the tmp segment. -/
  | pushed
  /-- A thief turns `TASK_AVAILABLE` into its rank. -/
  | lock (thief : Fin n)
  /-- A thief turns its rank into `FREE_FOR_COPY`. -/
  | unlock
deriving DecidableEq

def nextInLoop (cfg : Config n) (r : Fin n) (t : RankTasks n) : LoopAction n → Option (RankTasks n)
  | .advance b => if (loopPoint t.pc).isSome then localNext cfg r t b else none
  | .pushed =>
    if t.pc = .returning .full ∧ t.tmp.nbResult ≠ 0 then
      some { t with tmp := t.tmp.reset cfg.sharedTmpResultSegmentSize }
    else none
  | .lock thief =>
    if thief ≠ r ∧ t.seg.state = .taskAvailable then some (withState t (.rank thief)) else none
  | .unlock =>
    match t.seg.state with
    | .rank thief => if thief ≠ r then some (withState t .freeForCopy) else none
    | _ => none

/-- The tasks that rank `r` still has on its segment: the others are stolen, or there are none.
While `move_task_from_my_dequeue_to_my_segment` runs the state word does not tell of them yet. -/
def liveOnSegment (r : Fin n) (t : RankTasks n) : ℕ :=
  if t.seg.state = .taskAvailable ∨ t.seg.state = .rank r ∨ t.pc = .shared then t.seg.nbTask else 0

/-- A dequeue and a segment at the start of the loop. -/
structure LoopStart (r : Fin n) (t : RankTasks n) : Prop where
  pc : t.pc = .loopHead
  head_le : t.dq.head ≤ t.dq.tail
  nbTask_le : t.dq.nbTask ≤ t.dq.endTaskId
  available : t.seg.state = .taskAvailable → 0 < t.dq.nbTask ∧ t.seg.nbTask ≤ t.seg.endTaskId
  notSelf : t.seg.state ≠ .rank r
  nbResult : t.tmp.nbResult = 0

/-- The loop of rank `r`. -/
def workLoop (cfg : Config n) (r : Fin n) : Transition.System (RankTasks n) (LoopAction n) where
  init := LoopStart r
  next := nextInLoop cfg r

/-- 1 for a step into the body of the loop. -/
def bodyRuns (t : RankTasks n) : LoopAction n → ℕ
  | .advance _ => if t.pc = .loopHead ∧ t.dq.tail ≠ t.dq.head then 1 else 0
  | _ => 0

/-- 1 for a step of the rank itself. -/
def ownSteps (_ : RankTasks n) : LoopAction n → ℕ
  | .advance _ => 1
  | _ => 0

/-! ### The invariant -/

/-- What holds at the point `t.pc`. -/
def PointOk (r : Fin n) (t : RankTasks n) : Prop :=
  match t.pc with
  | .loopHead => t.seg.state ≠ .rank r ∧ (t.dq.nbTask = 0 → t.seg.state ≠ .taskAvailable)
  | .returning .full | .loopBody | .flushing | .solving => t.seg.state ≠ .rank r ∧ 0 < t.dq.nbTask
  | .solved => t.seg.state ≠ .rank r
  | .switching | .detecting => t.dq.nbTask = 0 → t.seg.state ≠ .taskAvailable
  | .refilling .selfTheft => t.seg.state = .rank r
  | .refilled .selfTheft comp =>
    comp = .rank r ∧ t.seg.state = .rank r ∧ (t.dq.nbTask = 0 → t.seg.nbTask = 0)
  | .sharing => t.seg.state = .freeForCopy
  | .shared => t.seg.state = .freeForCopy ∧ (t.dq.nbTask = 0 → t.seg.nbTask = 0)
  | .returning .last =>
    t.dq.nbTask = 0 ∧ t.seg.state ≠ .taskAvailable ∧ t.seg.state ≠ .rank r
  | .aborted a => a = .nbResultMax ∧ 0 < t.dq.nbTask ∧ t.tmp.nbResultMax = 0
  | _ => False

/-- What the tmp segment has room for at the point `t.pc`. -/
def LoopRoom (t : RankTasks n) : Prop :=
  match t.pc with
  | .loopBody | .flushing | .solving => t.tmp.nbResult < t.tmp.nbResultMax ∨ t.tmp.nbResultMax = 0
  | _ => t.tmp.nbResult ≤ t.tmp.nbResultMax ∨ t.tmp.nbResultMax = 0

structure LoopOk (r : Fin n) (t : RankTasks n) : Prop where
  head_le : t.dq.head ≤ t.dq.tail
  nbTask_le : t.dq.nbTask ≤ t.dq.endTaskId
  live_le : liveOnSegment r t ≤ t.seg.endTaskId
  point : PointOk r t
  room : LoopRoom t

theorem LoopStart.ok (h : LoopStart r t) : LoopOk r t := by
  obtain ⟨hpc, hhead, hnb, havailable, hself, hresult⟩ := h
  constructor
  · exact hhead
  · exact hnb
  · unfold liveOnSegment
    split
    · rename_i hlive
      rcases hlive with hlive | hlive | hlive
      · exact (havailable hlive).2
      · exact absurd hlive hself
      · rw [hpc] at hlive
        cases hlive
    · exact Nat.zero_le _
  · simp only [PointOk, hpc]
    refine ⟨hself, fun hempty hlive => ?_⟩
    have := (havailable hlive).1
    omega
  · simp only [LoopRoom, hpc, hresult]
    exact .inl (Nat.zero_le _)

/-! ### Moves of tasks -/

/-- Tasks change places between the dequeue and the segment, and none is lost. -/
structure Rearranged (dq' : Dequeue n) (seg' : MetadataTask n) (k : ℕ) : Prop where
  head_le : dq'.head ≤ dq'.tail
  nbTask_le : dq'.nbTask ≤ dq'.endTaskId
  live_le : seg'.nbTask ≤ seg'.endTaskId
  sum : dq'.nbTask + seg'.nbTask = k
  empty : dq'.nbTask = 0 → seg'.nbTask = 0

theorem rearranged_moveToSegment {dq : Dequeue n} (hhead : dq.head ≤ dq.tail)
    (hle : dq.nbTask ≤ dq.endTaskId) (m : MetadataTask n) :
    Rearranged (moveTaskFromMyDequeueToMySegment cfg r dq m).1
      (moveTaskFromMyDequeueToMySegment cfg r dq m).2 dq.nbTask := by
  have hput : ∀ k, 2 * k ≤ dq.nbTask →
      Rearranged (putOnSegment dq m k).1 (putOnSegment dq m k).2 dq.nbTask := by
    intro k hk
    constructor <;> simp only [putOnSegment, Dequeue.nbTask] at hk hle ⊢ <;> omega
  simp only [moveTaskFromMyDequeueToMySegment]
  split
  · exact ⟨hhead, hle, le_rfl, rfl, fun _ => rfl⟩
  · split
    · exact hput _ (by assumption)
    · exact hput _ (by omega)

theorem rearranged_moveToDequeue {m : MetadataTask n} (hle : m.nbTask ≤ m.endTaskId)
    (dq : Dequeue n) : Rearranged (moveTaskFromMySegmentToMyDequeue dq m).1
      (moveTaskFromMySegmentToMyDequeue dq m).2 m.nbTask := by
  unfold moveTaskFromMySegmentToMyDequeue nbTaskMin
  split <;> constructor <;> simp only [takeFromSegment, Dequeue.nbTask] <;> omega

/-! ### What a step of the rank does -/

/-- The tasks that are left. -/
def tasksLeft (r : Fin n) (t : RankTasks n) : ℕ := t.dq.nbTask + liveOnSegment r t

/-- The body of the loop has begun and its task is not executed yet. -/
def begun : WorkPc n → ℕ
  | .returning .full | .loopBody | .flushing | .solving | .aborted _ => 1
  | _ => 0

/-- The runs of the body that are left. -/
def bodiesLeft (r : Fin n) (t : RankTasks n) : ℕ := tasksLeft r t - begun t.pc

/-- The steps of its own that are left to the rank. -/
def stepsLeft (r : Fin n) (t : RankTasks n) : ℕ := 10 * tasksLeft r t + (loopPoint t.pc).getD 0

/-- A step keeps the invariant and is paid for. -/
structure Advanced (r : Fin n) (t t' : RankTasks n) (entered : ℕ) : Prop where
  ok : LoopOk r t'
  bodies : entered + bodiesLeft r t' ≤ bodiesLeft r t
  steps : 1 + stepsLeft r t' ≤ stepsLeft r t

/-- A step that changes nothing but the point. -/
theorem LoopOk.goOn (h : LoopOk r t) {pc pc' : WorkPc n} {entered : ℕ} (hpc : t.pc = pc)
    (hpoint : PointOk r { t with pc := pc' }) (hroom : LoopRoom { t with pc := pc' })
    (hshared : pc ≠ .shared ∧ pc' ≠ .shared) (hbodies : entered + begun pc ≤ begun pc')
    (hpos : begun pc' ≤ t.dq.nbTask)
    (hsteps : (loopPoint pc').getD 0 < (loopPoint pc).getD 0) :
    Advanced r t { t with pc := pc' } entered := by
  have hlive : liveOnSegment r { t with pc := pc' } = liveOnSegment r t := by
    simp only [liveOnSegment, hpc, hshared, or_false]
  have hleft : tasksLeft r { t with pc := pc' } = tasksLeft r t := by
    simp only [tasksLeft, hlive]
  constructor
  · exact ⟨h.head_le, h.nbTask_le, hlive ▸ h.live_le, hpoint, hroom⟩
  · have hle : t.dq.nbTask ≤ tasksLeft r t := Nat.le_add_right ..
    simp only [bodiesLeft, hleft, hpc]
    omega
  · simp only [stepsLeft, hleft, hpc]
    omega

theorem bodyRuns_of_ne (h : t.pc ≠ .loopHead) (b : Bool) : bodyRuns t (.advance b) = 0 :=
  if_neg fun hc => h hc.1

/-- The steps to another point keep the invariant, and are paid for by the distance to the next
task.  Those from the head into the body pay for a run of it. -/
theorem LoopOk.move (h : LoopOk r t) (hin : (loopPoint t.pc).isSome) {pc : WorkPc n}
    (hm : Moved r t pc) (b : Bool) : Advanced r t { t with pc } (bodyRuns t (.advance b)) := by
  have hpoint := h.point
  have hroom := h.room
  have hhead := h.head_le
  have hpos : t.dq.tail ≠ t.dq.head → 0 < t.dq.nbTask := by
    unfold Dequeue.nbTask
    omega
  cases hm with
  | headLast hpc hempty hst =>
    have hzero : t.dq.nbTask = 0 := by
      rw [Dequeue.nbTask, hempty, Nat.sub_self]
    simp only [PointOk, LoopRoom, hpc] at hpoint hroom
    rw [bodyRuns, if_neg fun hc => hc.2 hempty]
    exact h.goOn hpc ⟨hzero, hst, hpoint.1⟩ hroom (by simp) le_rfl (Nat.zero_le _)
      (by simp [loopPoint])
  | headAborted hpc hne hmax =>
    simp only [LoopRoom, hpc] at hroom
    rw [bodyRuns, if_pos ⟨hpc, hne⟩]
    exact h.goOn hpc ⟨rfl, hpos hne, hroom.resolve_left hmax⟩ hroom (by simp) le_rfl (hpos hne)
      (by simp [loopPoint])
  | headFull hpc hne hmax =>
    simp only [PointOk, LoopRoom, hpc] at hpoint hroom
    rw [bodyRuns, if_pos ⟨hpc, hne⟩]
    exact h.goOn hpc ⟨hpoint.1, hpos hne⟩ hroom (by simp) le_rfl (hpos hne) (by simp [loopPoint])
  | headBody hpc hne hmax =>
    simp only [PointOk, hpc] at hpoint
    rw [bodyRuns, if_pos ⟨hpc, hne⟩]
    exact h.goOn hpc ⟨hpoint.1, hpos hne⟩ (.inl hmax) (by simp) le_rfl (hpos hne)
      (by simp [loopPoint])
  | bodyFlushing hpc | bodySolving hpc | flushing hpc =>
    simp only [PointOk, LoopRoom, hpc] at hpoint hroom
    rw [bodyRuns_of_ne (by rw [hpc]; rintro ⟨⟩)]
    exact h.goOn hpc hpoint hroom (by simp) le_rfl hpoint.2 (by simp [loopPoint])
  | solved hpc hst =>
    simp only [LoopRoom, hpc] at hroom
    rw [bodyRuns_of_ne (by rw [hpc]; rintro ⟨⟩)]
    exact h.goOn hpc hst hroom (by simp) le_rfl (Nat.zero_le _) (by simp [loopPoint])
  | switchingHead hpc hst =>
    simp only [PointOk, LoopRoom, hpc] at hpoint hroom
    rw [bodyRuns_of_ne (by rw [hpc]; rintro ⟨⟩)]
    exact h.goOn hpc ⟨hst.2 r, hpoint⟩ hroom (by simp) le_rfl (Nat.zero_le _)
      (by simp [loopPoint])
  | switchingSharing hpc hst | detectingRefilling hpc hst =>
    simp only [LoopRoom, hpc] at hroom
    rw [bodyRuns_of_ne (by rw [hpc]; rintro ⟨⟩)]
    exact h.goOn hpc hst hroom (by simp) le_rfl (Nat.zero_le _) (by simp [loopPoint])
  | switchingDetecting q hpc =>
    simp only [PointOk, LoopRoom, hpc] at hpoint hroom
    rw [bodyRuns_of_ne (by rw [hpc]; rintro ⟨⟩)]
    exact h.goOn hpc hpoint hroom (by simp) le_rfl (Nat.zero_le _) (by simp [loopPoint])
  | detectingHead hpc hst =>
    simp only [PointOk, LoopRoom, hpc] at hpoint hroom
    rw [bodyRuns_of_ne (by rw [hpc]; rintro ⟨⟩)]
    exact h.goOn hpc ⟨hst, hpoint⟩ hroom (by simp) le_rfl (Nat.zero_le _) (by simp [loopPoint])
  | readyWorking hpc | readyReturning hpc | workingOpening hpc | workingStarting hpc
  | startingRefilling hpc | startingPreparing hpc | returningLast hpc | returningThief hpc
  | waitingSpinning hpc | waitingReturning hpc | spinningUnlocking hpc | spinning hpc =>
    rw [hpc] at hin
    cases hin

theorem Advanced.of_left (hok : LoopOk r t') {k m : ℕ} (hpc : loopPoint t.pc = some k)
    (hpc' : loopPoint t'.pc = some m) (hbegun : begun t'.pc = 0)
    (hbodies : tasksLeft r t' + begun t.pc ≤ tasksLeft r t)
    (hsteps : 10 * tasksLeft r t' + m < 10 * tasksLeft r t + k) : Advanced r t t' 0 := by
  constructor
  · exact hok
  · simp only [bodiesLeft, hbegun]
    omega
  · simp only [stepsLeft, hpc, hpc', Option.getD_some]
    omega

theorem LoopOk.solving (h : LoopOk r t) (hpc : t.pc = .solving) (hpc' : t'.pc = .solved)
    (hdq : t'.dq = dropTask t.dq) (hstate : t'.seg.state = t.seg.state)
    (hnb : t'.seg.nbTask = t.seg.nbTask) (hend : t'.seg.endTaskId = t.seg.endTaskId)
    (htmp : t'.tmp = storeResult cfg t.dq t.tmp) : Advanced r t t' 0 := by
  have hpoint := h.point
  have hroom := h.room
  have hle := h.nbTask_le
  have hdrop : t'.dq.nbTask = t.dq.nbTask - 1 := by
    rw [hdq, nbTask_dropTask]
  simp only [PointOk, LoopRoom, hpc] at hpoint hroom
  have hlive : liveOnSegment r t' = liveOnSegment r t := by
    simp only [liveOnSegment, hpc, hpc', hstate, hnb, reduceCtorEq]
  have hleft : tasksLeft r t' + 1 = tasksLeft r t := by
    simp only [tasksLeft, hlive, hdrop]
    omega
  refine .of_left ?_ (by rw [hpc]; rfl) (by rw [hpc']; rfl) (by rw [hpc']; rfl) ?_ ?_
  · constructor
    · have hpos := hpoint.2
      rw [hdq]
      simp only [dropTask, Dequeue.nbTask] at hpos ⊢
      omega
    · rw [hdrop, hdq]
      simp only [dropTask]
      omega
    · rw [hlive, hend]
      exact h.live_le
    · simp only [PointOk, hpc', hstate]
      exact hpoint.1
    · simp only [LoopRoom, hpc', htmp, storeResult]
      omega
  · rw [hpc]
    exact hleft.le
  · omega

/-- The segment goes back to `NO_TASK` or to `TASK_AVAILABLE`, with all tasks that are on it. -/
theorem LoopOk.release (h : LoopOk r t) {k : ℕ} (hpc : loopPoint t.pc = some k) (hk : 5 < k)
    (hbegun : begun t.pc = 0) (hlive : liveOnSegment r t = t.seg.nbTask)
    (hempty : t.dq.nbTask = 0 → t.seg.nbTask = 0)
    (hroom : t.tmp.nbResult ≤ t.tmp.nbResultMax ∨ t.tmp.nbResultMax = 0) (hpc' : t'.pc = .loopHead)
    (hdq : t'.dq = t.dq) (htmp : t'.tmp = t.tmp)
    (hseg : t'.seg =
      { t.seg with state := if t.seg.nbTask = 0 then .noTask else .taskAvailable }) :
    Advanced r t t' 0 := by
  have hlive' : liveOnSegment r t' = t.seg.nbTask := by
    simp only [liveOnSegment, hseg]
    by_cases hzero : t.seg.nbTask = 0
    · rw [hzero, ite_self]
    · exact if_pos (.inl (if_neg hzero))
  have hleft : tasksLeft r t' = tasksLeft r t := by
    simp only [tasksLeft, hlive', hlive, hdq]
  have hle := h.live_le
  refine .of_left ?_ hpc (by rw [hpc']; rfl) (by rw [hpc']; rfl) (by omega) (by omega)
  constructor
  · exact hdq ▸ h.head_le
  · exact hdq ▸ h.nbTask_le
  · rw [hlive', hseg]
    rwa [hlive] at hle
  · simp only [PointOk, hpc', hseg, hdq]
    by_cases hzero : t.seg.nbTask = 0
    · rw [if_pos hzero]
      exact ⟨nofun, nofun⟩
    · rw [if_neg hzero]
      exact ⟨nofun, fun hnone => absurd (hempty hnone) hzero⟩
  · simpa only [LoopRoom, hpc', htmp] using hroom

/-- Tasks change places between the dequeue and the segment. -/
theorem LoopOk.rearrange {k m total : ℕ} (hpc : loopPoint t.pc = some k) (hbegun : begun t.pc = 0)
    (hpc' : loopPoint t'.pc = some m) (hbegun' : begun t'.pc = 0) (hlt : m < k)
    (hmoved : Rearranged t'.dq t'.seg total) (htotal : total ≤ tasksLeft r t)
    (hlive : liveOnSegment r t' = t'.seg.nbTask) (hpoint : PointOk r t') (hroom : LoopRoom t') :
    Advanced r t t' 0 := by
  have hleft : tasksLeft r t' = total := by
    rw [tasksLeft, hlive, hmoved.sum]
  refine .of_left ?_ hpc hpc' hbegun' (by omega) (by omega)
  exact ⟨hmoved.head_le, hmoved.nbTask_le, hlive ▸ hmoved.live_le, hpoint, hroom⟩

/-- After a task, a rank without others locks its own segment if there are tasks on it. -/
theorem LoopOk.lockSelf (h : LoopOk r t) (hpc : t.pc = .solved)
    (hst : t.seg.state = .taskAvailable) :
    Advanced r t { Tasks.withState t (.rank r) with pc := .switching } 0 := by
  have hroom := h.room
  have hlive := h.live_le
  simp only [LoopRoom, hpc] at hroom
  have hbefore : liveOnSegment r t = t.seg.nbTask := if_pos (.inl hst)
  have hafter : liveOnSegment r { Tasks.withState t (.rank r) with pc := .switching } =
      t.seg.nbTask := if_pos (.inr (.inl rfl))
  refine .of_left ?_ (by rw [hpc]; rfl) rfl rfl ?_ ?_
  · refine ⟨h.head_le, h.nbTask_le, ?_, by rintro - ⟨⟩, hroom⟩
    rw [hafter]
    rwa [hbefore] at hlive
  · simp only [tasksLeft, hafter, hbefore, hpc]
    exact le_rfl
  · rw [tasksLeft, tasksLeft, hafter, hbefore]
    exact Nat.add_lt_add_left (by decide) _

/-- `return_result` has found the tmp segment empty. -/
theorem LoopOk.initTmp (h : LoopOk r t) (hpc : t.pc = .returning .full) :
    Advanced r t { t with tmp := Tasks.initTmp cfg t.dq t.tmp, pc := .loopBody } 0 := by
  have hpoint := h.point
  simp only [PointOk, hpc] at hpoint
  have hinit : LoopOk r { t with tmp := Tasks.initTmp cfg t.dq t.tmp } := by
    refine ⟨h.head_le, h.nbTask_le, h.live_le, h.point, ?_⟩
    simp only [LoopRoom, hpc, Tasks.initTmp]
    exact .inl (Nat.zero_le _)
  have hstep : Advanced r { t with tmp := Tasks.initTmp cfg t.dq t.tmp }
      { t with tmp := Tasks.initTmp cfg t.dq t.tmp, pc := .loopBody } 0 := by
    refine hinit.goOn hpc hpoint ?_ (by simp) le_rfl hpoint.2 (by simp [loopPoint])
    simp only [LoopRoom, Tasks.initTmp]
    omega
  exact ⟨hstep.ok, hstep.bodies, hstep.steps⟩

/-- The rank takes tasks back from its segment. -/
theorem LoopOk.refill (h : LoopOk r t) (hpc : t.pc = .refilling .selfTheft) :
    Advanced r t { t with
      dq := (moveTaskFromMySegmentToMyDequeue t.dq t.seg).1
      seg := (moveTaskFromMySegmentToMyDequeue t.dq t.seg).2
      pc := .refilled .selfTheft (moveTaskFromMySegmentToMyDequeue t.dq t.seg).2.state } 0 := by
  have hpoint := h.point
  have hroom := h.room
  have hlive := h.live_le
  simp only [PointOk, LoopRoom, hpc] at hpoint hroom
  have hself : liveOnSegment r t = t.seg.nbTask := if_pos (.inr (.inl hpoint))
  rw [hself] at hlive
  have hmoved := rearranged_moveToDequeue hlive t.dq
  have hstate := state_moveToDequeue t.dq t.seg
  generalize moveTaskFromMySegmentToMyDequeue t.dq t.seg = moved at hmoved hstate
  obtain ⟨dq, seg⟩ := moved
  have hlive' : liveOnSegment r { t with dq, seg, pc := .refilled .selfTheft seg.state } =
      seg.nbTask := if_pos (.inr (.inl (hstate.trans hpoint)))
  have htotal : t.seg.nbTask ≤ tasksLeft r t := by
    rw [tasksLeft, hself]
    exact Nat.le_add_left _ _
  exact LoopOk.rearrange (by rw [hpc]; rfl) (by rw [hpc]; rfl) rfl rfl (by decide) hmoved
    htotal hlive' ⟨hstate.trans hpoint, hstate.trans hpoint, hmoved.empty⟩ hroom

/-- The rank puts tasks on its segment. -/
theorem LoopOk.share (h : LoopOk r t) (hpc : t.pc = .sharing) :
    Advanced r t { t with
      dq := (moveTaskFromMyDequeueToMySegment cfg r t.dq t.seg).1
      seg := (moveTaskFromMyDequeueToMySegment cfg r t.dq t.seg).2
      pc := .shared } 0 := by
  have hpoint := h.point
  have hroom := h.room
  simp only [PointOk, LoopRoom, hpc] at hpoint hroom
  have hmoved : Rearranged (moveTaskFromMyDequeueToMySegment cfg r t.dq t.seg).1
      (moveTaskFromMyDequeueToMySegment cfg r t.dq t.seg).2 t.dq.nbTask :=
    rearranged_moveToSegment h.head_le h.nbTask_le t.seg
  have hstate := state_moveToSegment cfg r t.dq t.seg
  generalize moveTaskFromMyDequeueToMySegment cfg r t.dq t.seg = moved at hmoved hstate
  obtain ⟨dq, seg⟩ := moved
  have hlive' : liveOnSegment r { t with dq, seg, pc := .shared } = seg.nbTask :=
    if_pos (.inr (.inr rfl))
  exact LoopOk.rearrange (by rw [hpc]; rfl) (by rw [hpc]; rfl) rfl rfl (by decide) hmoved
    (Nat.le_add_right _ _) hlive' ⟨hstate.trans hpoint, hmoved.empty⟩ hroom

theorem LoopOk.not_fails (h : LoopOk r t) (hin : (loopPoint t.pc).isSome) {a : Assertion} :
    ¬ Fails t a := by
  have hpoint := h.point
  rintro (⟨hpc, -⟩ | ⟨hpc, -⟩ | ⟨hpc, hempty, hst⟩ | ⟨hpc, -⟩)
  · rw [hpc] at hin
    cases hin
  · rw [hpc] at hin
    cases hin
  · simp only [PointOk, hpc] at hpoint
    refine hpoint.2 ?_ hst
    rw [Dequeue.nbTask, hempty, Nat.sub_self]
  · rw [hpc] at hin
    cases hin

theorem LoopOk.advance (h : LoopOk r t) {b : Bool}
    (hs : nextInLoop cfg r t (.advance b) = some t') :
    Advanced r t t' (bodyRuns t (.advance b)) := by
  have hpoint := h.point
  have hroom := h.room
  simp only [nextInLoop] at hs
  split at hs
  swap
  · cases hs
  rename_i hin
  cases localStepped_of_localNext hs with
  | move pc hm => exact h.move hin hm b
  | failed a hf => exact absurd hf (h.not_fails hin)
  | returningFull hpc =>
    rw [bodyRuns_of_ne (by rw [hpc]; rintro ⟨⟩)]
    exact h.initTmp hpc
  | solving hpc =>
    rw [bodyRuns_of_ne (by rw [hpc]; rintro ⟨⟩)]
    exact h.solving hpc rfl rfl rfl rfl rfl rfl
  | lockingSelf hpc hnb hst =>
    rw [bodyRuns_of_ne (by rw [hpc]; rintro ⟨⟩)]
    exact h.lockSelf hpc hst
  | refilling site hpc =>
    rw [bodyRuns_of_ne (by rw [hpc]; rintro ⟨⟩)]
    cases site with
    | selfTheft => exact h.refill hpc
    | start =>
      rw [hpc] at hin
      cases hin
  | refilled site comp state hpc hst =>
    rw [bodyRuns_of_ne (by rw [hpc]; rintro ⟨⟩)]
    cases site with
    | selfTheft =>
      simp only [PointOk, LoopRoom, hpc] at hpoint hroom
      obtain ⟨rfl, hstate, hempty⟩ := hpoint
      rw [if_pos hstate] at hst
      subst hst
      exact h.release (by rw [hpc]; rfl) (by decide) (by rw [hpc]; rfl)
        (if_pos (.inr (.inl hstate))) hempty hroom rfl rfl rfl rfl
    | start =>
      rw [hpc] at hin
      cases hin
  | sharing hpc =>
    rw [bodyRuns_of_ne (by rw [hpc]; rintro ⟨⟩)]
    exact h.share hpc
  | shared hpc =>
    simp only [PointOk, LoopRoom, hpc] at hpoint hroom
    rw [bodyRuns_of_ne (by rw [hpc]; rintro ⟨⟩)]
    exact h.release (by rw [hpc]; rfl) (by decide) (by rw [hpc]; rfl)
      (if_pos (.inr (.inr hpc))) hpoint.2 hroom rfl rfl rfl rfl
  | sharedFailed hpc hst =>
    simp only [PointOk, hpc] at hpoint
    exact absurd hpoint.1 hst
  | opening hpc | preparing hpc | unlockingWait hpc | unlockingSelf _ _ hpc =>
    rw [hpc] at hin
    cases hin

/-! ### What thieves do -/

/-- A thief takes what is on the segment away, or has taken it. -/
theorem LoopOk.withState (h : LoopOk r t) {state : TaskLock n} (hnot : t.seg.state ≠ .rank r)
    (hfree : t.seg.state ≠ .freeForCopy) (hself : state ≠ .rank r)
    (havailable : state ≠ .taskAvailable) :
    LoopOk r (Tasks.withState t state) ∧ tasksLeft r (Tasks.withState t state) ≤ tasksLeft r t := by
  have hshared : t.pc ≠ .shared := by
    intro hpc
    have hpoint := h.point
    simp only [PointOk, hpc] at hpoint
    exact hfree hpoint.1
  have hlive : liveOnSegment r (Tasks.withState t state) = 0 := by
    simp only [liveOnSegment, Tasks.withState, hself, havailable, hshared, or_self, if_false]
  constructor
  · refine ⟨h.head_le, h.nbTask_le, ?_, ?_, h.room⟩
    · rw [hlive]
      exact Nat.zero_le _
    · have hpoint := h.point
      obtain ⟨pc, dq, seg, tmp, session, finished, executed, log⟩ := t
      cases pc with
      | loopHead => exact ⟨hself, fun _ => havailable⟩
      | loopBody | flushing | solving => exact ⟨hself, hpoint.2⟩
      | solved => exact hself
      | switching | detecting => exact fun _ => havailable
      | sharing => exact absurd hpoint hfree
      | shared => exact absurd rfl hshared
      | aborted => exact hpoint
      | returning site =>
        cases site with
        | full => exact ⟨hself, hpoint.2⟩
        | last => exact ⟨hpoint.1, havailable, hself⟩
        | thief => exact hpoint
      | refilling site =>
        cases site with
        | selfTheft => exact absurd hpoint hnot
        | start => exact hpoint
      | refilled site comp =>
        cases site with
        | selfTheft => exact absurd hpoint.2.1 hnot
        | start => exact hpoint
      | _ => exact hpoint
  · simp only [tasksLeft, hlive]
    exact Nat.add_le_add_left (Nat.zero_le _) _

/-- Work that is left is not made more by a thief that locks or unlocks the segment. -/
theorem bounds_withState {lock : TaskLock n}
    (hle : tasksLeft r (Tasks.withState t lock) ≤ tasksLeft r t) :
    0 + bodiesLeft r (Tasks.withState t lock) ≤ bodiesLeft r t ∧
      0 + stepsLeft r (Tasks.withState t lock) ≤ stepsLeft r t := by
  constructor
  · simp only [bodiesLeft, Tasks.withState] at hle ⊢
    omega
  · simp only [stepsLeft, Tasks.withState] at hle ⊢
    omega

/-- Every action keeps the invariant and is paid for. -/
theorem LoopOk.next (h : LoopOk r t) {a : LoopAction n}
    (hs : nextInLoop cfg r t a = some t') :
    LoopOk r t' ∧ bodyRuns t a + bodiesLeft r t' ≤ bodiesLeft r t ∧
      ownSteps t a + stepsLeft r t' ≤ stepsLeft r t := by
  cases a with
  | advance b =>
    obtain ⟨hok, hbodies, hsteps⟩ := h.advance hs
    exact ⟨hok, hbodies, hsteps⟩
  | pushed =>
    simp only [nextInLoop] at hs
    split at hs
    · cases hs
      refine ⟨⟨h.head_le, h.nbTask_le, h.live_le, h.point, ?_⟩, (Nat.zero_add _).le,
        (Nat.zero_add _).le⟩
      rename_i hc
      simp only [LoopRoom, hc.1, MetadataTmp.reset]
      exact .inl (Nat.zero_le _)
    · cases hs
  | lock thief =>
    simp only [nextInLoop] at hs
    split at hs
    · rename_i hc
      cases hs
      obtain ⟨hok, hle⟩ : LoopOk r (Tasks.withState t (.rank thief)) ∧
          tasksLeft r (Tasks.withState t (.rank thief)) ≤ tasksLeft r t := by
        apply h.withState
        · rw [hc.2]
          nofun
        · rw [hc.2]
          nofun
        · intro heq
          exact hc.1 (TaskLock.rank.inj heq)
        · nofun
      exact ⟨hok, bounds_withState hle⟩
    · cases hs
  | unlock =>
    simp only [nextInLoop] at hs
    split at hs
    · rename_i thief hstate
      split at hs
      · rename_i hne
        cases hs
        obtain ⟨hok, hle⟩ : LoopOk r (Tasks.withState t .freeForCopy) ∧
            tasksLeft r (Tasks.withState t .freeForCopy) ≤ tasksLeft r t := by
          apply h.withState
          · rw [hstate]
            intro heq
            exact hne (TaskLock.rank.inj heq)
          · rw [hstate]
            nofun
          · nofun
          · nofun
        exact ⟨hok, bounds_withState hle⟩
      · cases hs
    · cases hs

/-! ### The loop in the system -/

section System

variable {s s' : State n} {q : Fin n}

theorem loopStart_of_reachable (hr : (system cfg).Reachable s) (hpc : (s r).pc = .preparing)
    {b : Bool} (hs : next cfg s (r, .advance b) = some s') : LoopStart r (s' r) := by
  have hok := ((protocol_invariant cfg).holds hr).rank r
  have hpoint := hok.pc
  simp only [PcOk, hpc] at hpoint
  obtain ⟨hworking, hpos, hresult⟩ := hpoint
  simp only [next, hpc, localNext, Option.map_some] at hs
  cases hs
  rw [Function.update_self]
  constructor
  · rfl
  · exact hworking.dequeue.head_le
  · exact hworking.dequeue.nbTask_le
  · intro hstate
    have hshared := hworking.segment
    rw [SegmentShared, show (s r).seg.state = .taskAvailable from hstate] at hshared
    exact ⟨hpos, hshared.1.ok.nbTask_le⟩
  · exact hworking.notSelf
  · rfl

/-- What happens in the system to a rank in its loop is one of the loop's actions. -/
theorem loop_step (hin : (loopPoint (s r).pc).isSome) {a : Action n}
    (hs : next cfg s (q, a) = some s') :
    s' r = s r ∨ ∃ l, nextInLoop cfg r (s r) l = some (s' r) := by
  have hpc : ∀ {pc : WorkPc n}, (s r).pc = pc → (loopPoint pc).isSome := by
    rintro pc rfl
    exact hin
  by_cases hq : q = r
  · subst hq
    have hstep := stepped_of_next hs
    cases hstep with
    | own b t h =>
      refine .inr ⟨.advance b, ?_⟩
      rw [Function.update_self, nextInLoop, if_pos hin]
      exact h
    | pushed site h =>
      cases site with
      | full =>
        by_cases hzero : (s q).tmp.nbResult = 0
        · simp only [next, h, hzero, if_true, reduceCtorEq] at hs
        · refine .inr ⟨.pushed, ?_⟩
          rw [Function.update_self, nextInLoop, if_pos ⟨h, hzero⟩]
      | last | thief => cases hpc h
    | setProblem h | leaveBarrier h | finish h | missed _ h | locked _ h | readFirst _ _ _ _ h
    | readRest _ _ h | unlock _ _ _ h => cases hpc h
  · have hstep := stepped_of_next hs
    cases hstep with
    | locked v h hne hst =>
      by_cases hv : r = v
      · subst hv
        refine .inr ⟨.lock q, ?_⟩
        rw [Function.update_of_ne (Ne.symm hq), Function.update_self, nextInLoop,
          if_pos ⟨hq, hst⟩]
      · left
        rw [Function.update_of_ne (Ne.symm hq), Function.update_of_ne hv]
    | unlock b v state h hstate =>
      rw [Function.update_of_ne (Ne.symm hq)]
      by_cases hv : r = v
      · subst hv
        rw [Function.update_self]
        by_cases hst : (s r).seg.state = .rank q
        · refine .inr ⟨.unlock, ?_⟩
          rw [if_pos hst] at hstate
          simp only [nextInLoop, hst, hq, ne_eq, not_false_eq_true, if_true, hstate]
        · left
          rw [if_neg hst] at hstate
          rw [hstate]
          rfl
      · exact .inl (Function.update_of_ne hv _ _)
    | _ => exact .inl (Function.update_of_ne (Ne.symm hq) _ _)

end System

/-- What is said of a run of the loop from `t` to `t'`. -/
structure LoopRun (cfg : Config n) (r : Fin n) (t : RankTasks n) (as : List (LoopAction n))
    (t' : RankTasks n) : Prop where
  bodies_le : (workLoop cfg r).cost bodyRuns t as ≤ t.dq.nbTask + liveOnSegment r t
  steps_le : (workLoop cfg r).cost ownSteps t as ≤ 10 * (t.dq.nbTask + liveOnSegment r t) + 5
  /-- The rank can always go on, in `return_result` as soon as the results are taken. -/
  goes_on : (loopPoint t'.pc).isSome →
    (∀ b, (nextInLoop cfg r t' (.advance b)).isSome) ∨ (nextInLoop cfg r t' .pushed).isSome
  nonempty : t'.pc = .solving → t'.dq.head < t'.dq.tail ∧ 1 ≤ t'.dq.endTaskId
  stopped : loopPoint t'.pc = none →
    t'.pc = .returning .last ∨ t'.pc = .aborted .nbResultMax ∧ t'.tmp.nbResultMax = 0
  exit : t'.pc = .returning .last → t'.dq.head = t'.dq.tail ∧ liveOnSegment r t' = 0 ∧
    t'.seg.state ≠ .taskAvailable ∧ t'.seg.state ≠ .rank r

theorem advance_or_pushed (hin : (loopPoint t.pc).isSome) :
    (∀ b, (nextInLoop cfg r t (.advance b)).isSome) ∨ (nextInLoop cfg r t .pushed).isSome := by
  have hpc : ∀ {pc : WorkPc n}, t.pc = pc → (loopPoint pc).isSome := by
    rintro pc rfl
    exact hin
  have hadvance : ∀ b, nextInLoop cfg r t (.advance b) = localNext cfg r t b := fun b => if_pos hin
  cases h : t.pc with
  | returning site =>
    cases site with
    | full =>
      by_cases hzero : t.tmp.nbResult = 0
      · left
        intro b
        rw [hadvance]
        simp only [localNext, h, hzero, if_true, Option.isSome_some]
      · right
        rw [nextInLoop, if_pos ⟨h, hzero⟩]
        rfl
    | last | thief => cases hpc h
  | loopHead =>
    left
    intro b
    rw [hadvance]
    simp only [localNext, h]
    split
    · rfl
    · split <;> rfl
  | switching =>
    left
    intro b
    rw [hadvance]
    simp only [localNext, h]
    split <;> rfl
  | loopBody | flushing | solving | solved | detecting | refilling | refilled | sharing | shared =>
    left
    intro b
    rw [hadvance]
    simp only [localNext, h]
    rfl
  | _ => cases hpc h

theorem LoopStart.run (h : LoopStart r t) {as : List (LoopAction n)}
    (hrun : (workLoop cfg r).run t as = some t') : LoopRun cfg r t as t' := by
  have hnext : ∀ t a t', LoopOk r t → (workLoop cfg r).next t a = some t' → LoopOk r t' :=
    fun t a t' hok hs => (hok.next hs).1
  have hbodies := Transition.System.cost_le hnext (fun t a t' hok hs => (hok.next hs).2.1) h.ok hrun
  have hsteps := Transition.System.cost_le hnext (fun t a t' hok hs => (hok.next hs).2.2) h.ok hrun
  have hok := Transition.System.run_induction hnext h.ok hrun
  have hpoint := hok.point
  constructor
  · refine (Nat.le_add_right _ _).trans (hbodies.trans ?_)
    simp only [bodiesLeft, h.pc, begun]
    exact le_rfl
  · refine (Nat.le_add_right _ _).trans (hsteps.trans ?_)
    simp only [stepsLeft, h.pc, loopPoint, Option.getD_some]
    exact le_rfl
  · exact advance_or_pushed
  · intro hpc
    have hle := hok.nbTask_le
    simp only [PointOk, hpc] at hpoint
    have hpos := hpoint.2
    simp only [Dequeue.nbTask] at hpos hle
    omega
  · intro hout
    cases hpc : t'.pc with
    | aborted a =>
      simp only [PointOk, hpc] at hpoint
      obtain ⟨rfl, -, hmax⟩ := hpoint
      exact .inr ⟨rfl, hmax⟩
    | returning site =>
      cases site with
      | last => exact .inl rfl
      | full =>
        rw [hpc] at hout
        cases hout
      | thief =>
        simp only [PointOk, hpc] at hpoint
    | refilling site | refilled site =>
      cases site with
      | selfTheft =>
        rw [hpc] at hout
        cases hout
      | start =>
        simp only [PointOk, hpc] at hpoint
    | loopHead | loopBody | flushing | solving | solved | switching | detecting | sharing
    | shared =>
      rw [hpc] at hout
      cases hout
    | _ => simp only [PointOk, hpc] at hpoint
  · intro hpc
    have hhead := hok.head_le
    simp only [PointOk, hpc] at hpoint
    obtain ⟨hempty, havailable, hself⟩ := hpoint
    simp only [Dequeue.nbTask] at hempty
    refine ⟨by omega, ?_, havailable, hself⟩
    simp only [liveOnSegment, havailable, hself, hpc, reduceCtorEq, or_self, if_false]

theorem work_loop_terminates (cfg : Config n) (r : Fin n) :
    (∀ t as t', LoopStart r t → (workLoop cfg r).run t as = some t' → LoopRun cfg r t as t') ∧
      (∀ s b s', (system cfg).Reachable s → (s r).pc = .preparing →
        next cfg s (r, .advance b) = some s' → LoopStart r (s' r)) ∧
      (∀ s q a s', (loopPoint (s r).pc).isSome → next cfg s (q, a) = some s' →
        s' r = s r ∨ ∃ l, nextInLoop cfg r (s r) l = some (s' r)) :=
  ⟨fun _ _ _ h hrun => h.run hrun, fun _ _ _ hr hpc hs => loopStart_of_reachable hr hpc hs,
    fun _ _ _ _ hin hs => loop_step hin hs⟩

/-- Rank 0 at the start of the loop, with four tasks. -/
def fourTasks : RankTasks 2 :=
  { created 0 with
    pc := .loopHead
    dq := ⟨0, 4, twoRanks.problem 0 0, 0, 4, 8, 8, 4096, 0⟩
    seg := { (created 0).seg with state := .freeForCopy }
    tmp := ⟨some 0, 4, 0, 10, 8, 4000, fun _ => 0⟩
    session := 1 }

/-- The rank shares a task after its first one, and a thief takes it away. -/
def robbedInLoop : List (LoopAction 2) :=
  List.replicate 7 (.advance false) ++ [.lock 1] ++ List.replicate 6 (.advance false) ++
    [.unlock] ++ List.replicate 8 (.advance false)

theorem work_loop_terminates_in_theft :
    ∃ t', t'.pc = .returning .last ∧ t'.executed.length = 3 ∧
      LoopRun twoRanks 0 fourTasks robbedInLoop t' := by
  have hstart : LoopStart 0 fourTasks := by
    constructor
    · rfl
    · decide
    · decide
    · rintro ⟨⟩
    · rintro ⟨⟩
    · rfl
  have hrun : ((workLoop twoRanks 0).run fourTasks robbedInLoop).any
      (fun t => t.pc = .returning .last ∧ t.executed.length = 3) = true := by
    decide +kernel
  obtain ⟨t', ht', hp⟩ := (Option.any_eq_true _ _).mp hrun
  obtain ⟨hpc, hexec⟩ := of_decide_eq_true hp
  exact ⟨t', hpc, hexec, (work_loop_terminates twoRanks 0).1 _ _ _ hstart ht'⟩

end Titus.Tasks
