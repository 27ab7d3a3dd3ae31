import Titus.Tasks.SegmentLock

/-! What the logger's counters of thefts and of moved tasks count.  Each rank's thefts and moves are
tallied beside the run, and the counters are compared with the tallies. -/

namespace Titus.Tasks

variable {n : ℕ} {cfg : Config n} {r : Fin n} {t t' : RankTasks n}

/-- The thefts and the moves of one rank so far. -/
structure Tally where
  tryTheft : ℕ
  hit : ℕ
  missNotask : ℕ
  missTargetLocked : ℕ
  missFreeForCopy : ℕ
  /-- The sum of the batch sizes of the successful thefts. -/
  stolenTasks : ℕ
  /-- The sum of the thief's own `nb_task` over its failed thefts. -/
  staleTasks : ℕ
  movedFromSegment : ℕ
  /-- The sum of the tasks that the moves from the segment left on it. -/
  leftOnSegment : ℕ
  movedFromDequeue : ℕ
deriving DecidableEq

/-- The rank has done nothing yet. -/
def Tally.zero : Tally := ⟨0, 0, 0, 0, 0, 0, 0, 0, 0, 0⟩

/-- A theft has failed, as the victim's segment was in `victimState`. -/
def Tally.miss (T : Tally) (victimState : TaskLock n) (nbTask : ℕ) : Tally :=
  let T := { T with tryTheft := T.tryTheft + 1, staleTasks := T.staleTasks + nbTask }
  match victimState with
  | .freeForCopy => { T with missFreeForCopy := T.missFreeForCopy + 1 }
  | .noTask => { T with missNotask := T.missNotask + 1 }
  | _ => { T with missTargetLocked := T.missTargetLocked + 1 }

/-- A theft has brought `nbTask` tasks. -/
def Tally.success (T : Tally) (nbTask : ℕ) : Tally :=
  { T with
    tryTheft := T.tryTheft + 1, hit := T.hit + 1, stolenTasks := T.stolenTasks + nbTask }

/-- The tasks that `move_task_from_my_segment_to_my_dequeue` moves, and those it leaves. -/
def refill (t : RankTasks n) : ℕ × ℕ :=
  let (dq, seg) := moveTaskFromMySegmentToMyDequeue t.dq t.seg
  (dq.nbTask, seg.nbTask)

/-- The tasks that leave the dequeue in `move_task_from_my_dequeue_to_my_segment`. -/
def shared (cfg : Config n) (r : Fin n) (t : RankTasks n) : ℕ :=
  t.dq.nbTask - (moveTaskFromMyDequeueToMySegment cfg r t.dq t.seg).1.nbTask

/-- The tally of rank `r` after it goes on from the point `t.pc`. -/
def Tally.advance (T : Tally) (cfg : Config n) (r : Fin n) (t : RankTasks n) : Tally :=
  match t.pc with
  | .unlockingSelf _ => T.success t.seg.nbTask
  | .refilling _ =>
    { T with
      movedFromSegment := T.movedFromSegment + (refill t).1
      leftOnSegment := T.leftOnSegment + (refill t).2 }
  | .sharing => { T with movedFromDequeue := T.movedFromDequeue + shared cfg r t }
  | _ => T

/-- The tally of rank `r` after a step of it. -/
def Tally.next (T : Tally) (cfg : Config n) (s : State n) (r : Fin n) : Action n → Tally
  | .steal victim =>
    if (s victim).seg.state = .taskAvailable then T
    else T.miss (s victim).seg.state (s r).seg.nbTask
  | .advance _ => T.advance cfg r (s r)
  | _ => T

/-- The ranks and their tallies. -/
abbrev Tallied (n : ℕ) := State n × (Fin n → Tally)

/-- The counters of a logger before its first session. -/
def Counters.zero : Counters := ⟨0, 0, 0, 0, 0, 0, 0, 0, 0, 0⟩

/-- The ranks from their creation on, with tallies of what they do. -/
def tallied (cfg : Config n) : Transition.System (Tallied n) (Fin n × Action n) where
  init x := (system cfg).init x.1 ∧ ∀ r, (x.1 r).log = .zero ∧ x.2 r = .zero
  next x a := (Tasks.next cfg x.1 a).map fun s =>
    (s, Function.update x.2 a.1 ((x.2 a.1).next cfg x.1 a.1 a.2))

theorem tallied_projects (cfg : Config n) : (tallied cfg).Projects (system cfg) Prod.fst :=
  .of_record (fun _ hx => hx.1) fun _ _ => rfl

/-! ### What the counters count -/

/-- Tasks left by a move from the segment that the logger has not been told of. -/
def unlogged (t : RankTasks n) : ℕ :=
  match t.pc with
  | .refilled _ _ => t.seg.nbTask
  | _ => 0

/-- Tasks moved from the dequeue that the logger has not been told of. -/
def unloggedShare (t : RankTasks n) : ℕ :=
  match t.pc with
  | .shared => t.seg.nbTask
  | _ => 0

/-- The counters of a rank in terms of its tally.  A hit counts as a miss on a locked target, each
miss counts the tasks that an earlier batch has left in the metadata, a move from the segment counts
the tasks that stay there, and attempts and hits are not counted. -/
structure Counted (t : RankTasks n) (T : Tally) : Prop where
  attempts : T.tryTheft = T.hit + T.missNotask + T.missTargetLocked + T.missFreeForCopy
  tryTheft : t.log.tryTheftCount = 0
  hit : t.log.hitCount = 0
  stolen : t.log.stolenTasksCount = UInt32.ofNat (T.stolenTasks + T.staleTasks)
  missNotask : t.log.missNotaskCount = UInt32.ofNat T.missNotask
  missTargetLocked : t.log.missTargetLockedCount = UInt32.ofNat (T.missTargetLocked + T.hit)
  missFreeForCopy : t.log.missFreeForCopy = UInt32.ofNat T.missFreeForCopy
  segment : t.log.tasksMovedFromSegmentCount + UInt32.ofNat (unlogged t) =
    UInt32.ofNat T.leftOnSegment
  dequeue : t.log.tasksMovedFromDequeueCount + UInt32.ofNat (unloggedShare t) =
    UInt32.ofNat T.movedFromDequeue

theorem nbTask_moveToDequeue (dq : Dequeue n) (m : MetadataTask n) :
    (moveTaskFromMySegmentToMyDequeue dq m).1.nbTask =
        (if m.nbTask < nbTaskMin then m.nbTask else m.nbTask / 2) ∧
      (moveTaskFromMySegmentToMyDequeue dq m).2.nbTask =
        (if m.nbTask < nbTaskMin then 0 else m.nbTask - m.nbTask / 2) := by
  unfold moveTaskFromMySegmentToMyDequeue
  split <;> simp [takeFromSegment, Dequeue.nbTask]

theorem shared_eq (cfg : Config n) (r : Fin n) (t : RankTasks n) :
    shared cfg r t = (moveTaskFromMyDequeueToMySegment cfg r t.dq t.seg).2.nbTask := by
  have hput : ∀ k, k ≤ t.dq.nbTask → t.dq.nbTask - (putOnSegment t.dq t.seg k).1.nbTask = k := by
    intro k hk
    simp only [putOnSegment, Dequeue.nbTask] at hk ⊢
    omega
  simp only [shared, moveTaskFromMyDequeueToMySegment]
  split
  · exact Nat.sub_self _
  · split
    · rename_i hmax
      exact hput _ (by omega)
    · exact hput _ (Nat.div_le_self _ _)

theorem add_ofNat_zero (x : UInt32) : x + UInt32.ofNat 0 = x := UInt32.add_zero x

/-- A step that does not concern the counters of thefts and moves. -/
theorem Counted.of_log {T : Tally} (h : Counted t T) (hlog : t'.log = t.log)
    (hpc : unlogged t' = unlogged t) (hpc' : unloggedShare t' = unloggedShare t) :
    Counted t' T := by
  constructor
  · exact h.attempts
  all_goals rw [hlog]
  · exact h.tryTheft
  · exact h.hit
  · exact h.stolen
  · exact h.missNotask
  · exact h.missTargetLocked
  · exact h.missFreeForCopy
  · rw [hpc]
    exact h.segment
  · rw [hpc']
    exact h.dequeue

theorem Counted.miss {T : Tally} (h : Counted t T) (hpc : t.pc = .balancing)
    {victimState : TaskLock n} (hst : victimState ≠ .taskAvailable) :
    Counted { t with log := countTheft t.log victimState t.seg.nbTask, pc := .returning .thief }
      (T.miss victimState t.seg.nbTask) := by
  have hseg := h.segment
  have hdq := h.dequeue
  simp only [unlogged, unloggedShare, hpc] at hseg hdq
  have hattempts := h.attempts
  have hstolen : t.log.stolenTasksCount + UInt32.ofNat t.seg.nbTask =
      UInt32.ofNat (T.stolenTasks + (T.staleTasks + t.seg.nbTask)) := by
    rw [h.stolen, ← UInt32.ofNat_add, Nat.add_assoc]
  cases victimState with
  | taskAvailable => exact absurd rfl hst
  | freeForCopy =>
    refine ⟨?_, h.tryTheft, h.hit, hstolen, h.missNotask, h.missTargetLocked, ?_, hseg, hdq⟩
    · simp only [Tally.miss]
      omega
    · simp only [countTheft, Tally.miss, h.missFreeForCopy, UInt32.ofNat_add]
      rfl
  | noTask =>
    refine ⟨?_, h.tryTheft, h.hit, hstolen, ?_, h.missTargetLocked, h.missFreeForCopy, hseg, hdq⟩
    · simp only [Tally.miss]
      omega
    · simp only [countTheft, Tally.miss, h.missNotask, UInt32.ofNat_add]
      rfl
  | copyInProgress | rank q =>
    refine ⟨?_, h.tryTheft, h.hit, hstolen, h.missNotask, ?_, h.missFreeForCopy, hseg, hdq⟩
    · simp only [Tally.miss]
      omega
    · simp only [countTheft, Tally.miss, h.missTargetLocked]
      rw [Nat.add_right_comm, UInt32.ofNat_add _ 1]
      rfl

/-- A hit counts as a miss on a locked target. -/
theorem Counted.success {T : Tally} {old : TaskLock n} (h : Counted t T)
    (hpc : t.pc = .unlockingSelf old) (seg : MetadataTask n) {pc : WorkPc n}
    (hpc' : pc = .working ∨ ∃ a, pc = .aborted a) :
    Counted { t with log := countTheft t.log (.taskAvailable : TaskLock n) t.seg.nbTask, seg, pc }
      (T.success t.seg.nbTask) := by
  have hseg := h.segment
  have hdq := h.dequeue
  simp only [unlogged, unloggedShare, hpc] at hseg hdq
  have hattempts := h.attempts
  refine ⟨?_, h.tryTheft, h.hit, ?_, h.missNotask, ?_, h.missFreeForCopy, ?_, ?_⟩
  · simp only [Tally.success]
    omega
  · simp only [countTheft, Tally.success, h.stolen]
    rw [Nat.add_right_comm, ← UInt32.ofNat_add]
  · simp only [countTheft, Tally.success, h.missTargetLocked]
    rw [← Nat.add_assoc, UInt32.ofNat_add _ 1]
    rfl
  · rcases hpc' with rfl | ⟨a, rfl⟩
    · exact hseg
    · exact hseg
  · rcases hpc' with rfl | ⟨a, rfl⟩
    · exact hdq
    · exact hdq

/-- A step to another point moves no tasks and ends no theft. -/
theorem Moved.advance_eq {pc : WorkPc n} {T : Tally} (hm : Moved r t pc) :
    T.advance cfg r t = T := by
  cases hm <;> simp only [Tally.advance, *]

theorem Moved.unlogged {pc : WorkPc n} (hm : Moved r t pc) :
    Tasks.unlogged { t with pc } = Tasks.unlogged t := by
  cases hm <;> simp only [Tasks.unlogged, *]

theorem Moved.unloggedShare {pc : WorkPc n} (hm : Moved r t pc) :
    Tasks.unloggedShare { t with pc } = Tasks.unloggedShare t := by
  cases hm <;> simp only [Tasks.unloggedShare, *]

theorem Counted.localNext {T : Tally} (h : Counted t T) {b : Bool}
    (hs : localNext cfg r t b = some t') : Counted t' (T.advance cfg r t) := by
  have hseg := h.segment
  have hdq := h.dequeue
  cases localStepped_of_localNext hs with
  | move pc hm =>
    rw [hm.advance_eq]
    exact h.of_log rfl hm.unlogged hm.unloggedShare
  | failed a hf =>
    cases hf with
    | working hpc | opening hpc | loopHead hpc | unlockingWait hpc =>
      simp only [Tally.advance, hpc]
      exact h.of_log rfl (by simp [unlogged, hpc]) (by simp [unloggedShare, hpc])
  | refilling site hpc =>
    simp only [unlogged, unloggedShare, hpc] at hseg hdq
    simp only [Tally.advance, hpc]
    refine ⟨h.attempts, h.tryTheft, h.hit, h.stolen, h.missNotask, h.missTargetLocked,
      h.missFreeForCopy, ?_, hdq⟩
    rw [UInt32.ofNat_add, ← hseg, add_ofNat_zero]
    rfl
  | refilled site comp state hpc =>
    simp only [unlogged, unloggedShare, hpc] at hseg hdq
    simp only [Tally.advance, hpc]
    refine ⟨h.attempts, h.tryTheft, h.hit, h.stolen, h.missNotask, h.missTargetLocked,
      h.missFreeForCopy, ?_, ?_⟩
    · rw [← hseg]
      cases site <;> exact add_ofNat_zero _
    · rw [← hdq]
      cases site <;> rfl
  | sharing hpc =>
    simp only [unlogged, unloggedShare, hpc] at hseg hdq
    simp only [Tally.advance, hpc]
    refine ⟨h.attempts, h.tryTheft, h.hit, h.stolen, h.missNotask, h.missTargetLocked,
      h.missFreeForCopy, hseg, ?_⟩
    rw [UInt32.ofNat_add, ← hdq, shared_eq, add_ofNat_zero]
    rfl
  | shared hpc | sharedFailed hpc =>
    simp only [unlogged, unloggedShare, hpc] at hseg hdq
    simp only [Tally.advance, hpc]
    refine ⟨h.attempts, h.tryTheft, h.hit, h.stolen, h.missNotask, h.missTargetLocked,
      h.missFreeForCopy, hseg, ?_⟩
    rw [← hdq]
    exact add_ofNat_zero _
  | unlockingSelf old pc hpc hnext =>
    simp only [Tally.advance, hpc]
    exact h.success hpc _ (hnext.imp_right And.left)
  | opening hpc | preparing hpc | returningFull hpc | lockingSelf hpc | unlockingWait hpc
  | solving hpc =>
    simp only [unlogged, unloggedShare, hpc] at hseg hdq
    simp only [Tally.advance, hpc]
    exact ⟨h.attempts, h.tryTheft, h.hit, h.stolen, h.missNotask, h.missTargetLocked,
      h.missFreeForCopy, hseg, hdq⟩

theorem Counted.setProblem {T : Tally} (h : Counted t T) (hpc : t.pc = .idle) (cfg : Config n)
    (r : Fin n) : Counted (setProblem cfg r t) T := by
  have hseg := h.segment
  have hdq := h.dequeue
  simp only [unlogged, unloggedShare, hpc] at hseg hdq
  exact ⟨h.attempts, h.tryTheft, h.hit, h.stolen, h.missNotask, h.missTargetLocked,
    h.missFreeForCopy, hseg, hdq⟩

/-- A step of rank `r` changes its counters as its tally says. -/
theorem Counted.stepped {s s' : State n} {a : Action n} {T : Tally} (h : Counted (s r) T)
    (hs : Stepped cfg s r a s') : Counted (s' r) (T.next cfg s r a) := by
  cases hs with
  | setProblem hpc =>
    rw [Function.update_self]
    exact h.setProblem hpc cfg r
  | leaveBarrier hpc =>
    rw [Function.update_self]
    exact h.of_log rfl (by simp [unlogged, hpc]) (by simp [unloggedShare, hpc])
  | finish hpc =>
    rw [Function.update_self]
    exact h.of_log rfl (by simp [unlogged, hpc]) (by simp [unloggedShare, hpc])
  | missed v hpc hne hst =>
    rw [Function.update_self]
    simp only [Tally.next, if_neg hst]
    exact h.miss hpc hst
  | locked v hpc hne hst =>
    rw [Function.update_self]
    simp only [Tally.next, if_pos hst]
    exact h.of_log rfl (by simp [unlogged, hpc]) (by simp [unloggedShare, hpc])
  | pushed site hpc =>
    rw [Function.update_self]
    exact h.of_log rfl (by simp [unlogged, hpc]) (by simp [unloggedShare, hpc])
  | readFirst b v len pc hpc hrest =>
    rw [Function.update_self]
    simp only [Tally.next, Tally.advance, hpc]
    refine h.of_log rfl ?_ ?_
    · rcases hrest with ⟨rfl, -⟩ | ⟨rfl, -⟩ <;> simp [unlogged, hpc]
    · rcases hrest with ⟨rfl, -⟩ | ⟨rfl, -⟩ <;> simp [unloggedShare, hpc]
  | readRest b v hpc =>
    rw [Function.update_self]
    simp only [Tally.next, Tally.advance, hpc]
    exact h.of_log rfl (by simp [unlogged, hpc]) (by simp [unloggedShare, hpc])
  | unlock b v state hpc =>
    rw [Function.update_self]
    simp only [Tally.next, Tally.advance, hpc]
    by_cases hv : r = v
    · subst hv
      rw [Function.update_self]
      exact h.of_log rfl (by simp [unlogged, hpc]) (by simp [unloggedShare, hpc])
    · rw [Function.update_of_ne hv]
      exact h.of_log rfl (by simp [unlogged, hpc]) (by simp [unloggedShare, hpc])
  | own b t ht =>
    rw [Function.update_self]
    exact h.localNext ht

/-- What every counter counts, in every run. -/
theorem counted_invariant (cfg : Config n) :
    (tallied cfg).Invariant fun x => ∀ r, Counted (x.1 r) (x.2 r) := by
  constructor
  · intro x hx r
    obtain ⟨hlog, htally⟩ := hx.2 r
    have hpc := (hx.1 r).pc
    rw [htally]
    constructor
    all_goals first | rw [hlog] | skip
    all_goals simp [unlogged, unloggedShare, hpc, Counters.zero, Tally.zero]
  · rintro x ⟨r, a⟩ x' _ h hs q
    obtain ⟨s, hs, heq⟩ := Option.map_eq_some_iff.mp hs
    rw [← heq]
    have hstep := stepped_of_next hs
    by_cases hq : q = r
    · subst hq
      simp only [Function.update_self]
      exact (h q).stepped hstep
    · obtain ⟨state, hstate⟩ := hstep.other hq
      simp only [Function.update_of_ne hq, hstate]
      exact (h q).of_log rfl rfl rfl

/-! ### Runs without thefts -/

/-- The counters count what they are named after. -/
structure Accounted (t : RankTasks n) (T : Tally) : Prop where
  attempts : T.tryTheft = T.hit + T.missNotask + T.missTargetLocked + T.missFreeForCopy
  tryTheft : t.log.tryTheftCount.toNat = T.tryTheft
  hit : t.log.hitCount.toNat = T.hit
  stolen : t.log.stolenTasksCount.toNat = T.stolenTasks
  missNotask : t.log.missNotaskCount.toNat = T.missNotask
  missTargetLocked : t.log.missTargetLockedCount.toNat = T.missTargetLocked
  missFreeForCopy : t.log.missFreeForCopy.toNat = T.missFreeForCopy
  /-- Except between the move and the update of its counter. -/
  segment : (∀ site comp, t.pc ≠ .refilled site comp) →
    t.log.tasksMovedFromSegmentCount.toNat = T.movedFromSegment
  dequeue : t.pc ≠ .shared → t.log.tasksMovedFromDequeueCount.toNat = T.movedFromDequeue

/-- The rank is about to move tasks from its segment. -/
def WorkPc.refills : WorkPc n → Bool
  | .refilling _ => true
  | _ => false

/-- A step that is no theft. -/
def Action.noTheft : Action n → Bool
  | .steal _ => false
  | _ => true

/-- If this is a step of rank `r`, it is no theft, a move from the segment finds an even number of
tasks, and the numbers of tasks moved so far fit their counters. -/
def KeepsCount (cfg : Config n) (r : Fin n) (x : Tallied n) (a : Fin n × Action n) : Prop :=
  a.1 = r → a.2.noTheft = true ∧ ((x.1 r).pc.refills = true → (x.1 r).seg.nbTask % 2 = 0) ∧
    ((x.2 r).next cfg x.1 r a.2).movedFromSegment < 2 ^ 32 ∧
    ((x.2 r).next cfg x.1 r a.2).movedFromDequeue < 2 ^ 32

instance (cfg : Config n) (r : Fin n) (x : Tallied n) (a : Fin n × Action n) :
    Decidable (KeepsCount cfg r x a) :=
  inferInstanceAs (Decidable (_ → _))

/-- The rank is in `work_stealing`. -/
def WorkPc.stealing : WorkPc n → Bool
  | .reading _ | .readingRest _ | .unlockingVictim _ | .unlockingSelf _ => true
  | _ => false

/-- A rank that has attempted no theft, and each of whose moves took half of its segment. -/
structure Homely (t : RankTasks n) (T : Tally) : Prop where
  pc : t.pc.stealing = false
  tryTheft : T.tryTheft = 0
  stolen : T.stolenTasks = 0
  stale : T.staleTasks = 0
  half : T.leftOnSegment = T.movedFromSegment
  segment : T.movedFromSegment < 2 ^ 32
  dequeue : T.movedFromDequeue < 2 ^ 32

theorem localNext_stealing {b : Bool} (h : t.pc.stealing = false)
    (hs : localNext cfg r t b = some t') : t'.pc.stealing = false := by
  cases localStepped_of_localNext hs with
  | move pc hm => cases hm <;> rfl
  | refilled site => cases site <;> rfl
  | unlockingSelf old pc hpc =>
    rw [hpc] at h
    cases h
  | _ => rfl

/-- A move that finds an even number of tasks takes half of them. -/
theorem refill_even (h : t.seg.nbTask % 2 = 0) : (refill t).2 = (refill t).1 := by
  obtain ⟨hdq, hseg⟩ := nbTask_moveToDequeue t.dq t.seg
  have hmin : nbTaskMin = 2 := rfl
  simp only [refill]
  rw [hdq, hseg]
  split <;> omega

theorem Homely.advance {T : Tally} (h : Homely t T) {b : Bool}
    (hs : localNext cfg r t b = some t')
    (heven : t.pc.refills = true → t.seg.nbTask % 2 = 0)
    (hseg : (T.advance cfg r t).movedFromSegment < 2 ^ 32)
    (hdq : (T.advance cfg r t).movedFromDequeue < 2 ^ 32) : Homely t' (T.advance cfg r t) := by
  have hpc := localNext_stealing h.pc hs
  cases hp : t.pc <;> simp only [Tally.advance, hp] at hseg hdq ⊢
  case unlockingSelf =>
    have := h.pc
    rw [hp] at this
    cases this
  case refilling =>
    have hhalf := refill_even (heven (by rw [hp]; rfl))
    refine ⟨hpc, h.tryTheft, h.stolen, h.stale, ?_, hseg, hdq⟩
    rw [h.half, hhalf]
  all_goals exact ⟨hpc, h.tryTheft, h.stolen, h.stale, h.half, hseg, hdq⟩

theorem Homely.stepped {s s' : State n} {a : Action n} {T : Tally} (h : Homely (s r) T)
    (hs : Stepped cfg s r a s') (hsteal : a.noTheft = true)
    (heven : (s r).pc.refills = true → (s r).seg.nbTask % 2 = 0)
    (hseg : (T.next cfg s r a).movedFromSegment < 2 ^ 32)
    (hdq : (T.next cfg s r a).movedFromDequeue < 2 ^ 32) : Homely (s' r) (T.next cfg s r a) := by
  have hstealing := h.pc
  cases hs with
  | missed | locked => cases hsteal
  | readFirst b v len pc hpc | readRest b v hpc | unlock b v state hpc =>
    rw [hpc] at hstealing
    cases hstealing
  | own b t ht =>
    rw [Function.update_self]
    exact h.advance ht heven hseg hdq
  | pushed site hpc =>
    rw [Function.update_self]
    exact { h with }
  | _ =>
    rw [Function.update_self]
    exact { h with pc := rfl }

theorem homely_invariant (cfg : Config n) (r : Fin n) :
    ((tallied cfg).restrict (KeepsCount cfg r)).Invariant fun x => Homely (x.1 r) (x.2 r) := by
  apply (counted_invariant cfg).restrict
  · intro x hx
    have hpc := (hx.1 r).pc
    rw [(hx.2 r).2]
    exact ⟨by rw [hpc]; rfl, rfl, rfl, rfl, rfl, by decide, by decide⟩
  · rintro x ⟨p, a⟩ x' _ h hok hs
    obtain ⟨s, hs, heq⟩ := Option.map_eq_some_iff.mp hs
    rw [← heq]
    have hstep := stepped_of_next hs
    by_cases hp : r = p
    · subst hp
      obtain ⟨hsteal, heven, hseg, hdq⟩ := hok rfl
      simp only [Function.update_self]
      exact h.stepped hstep hsteal heven hseg hdq
    · obtain ⟨state, hstate⟩ := hstep.other hp
      simp only [Function.update_of_ne hp, hstate]
      exact { h with }

/-- A rank that attempts no theft and finds an even number of tasks on its segment in each move has
true counters in every state of every run, whatever the other ranks do. -/
theorem theft_accounting_conserved {x : Tallied n}
    (hr : ((tallied cfg).restrict (KeepsCount cfg r)).Reachable x) :
    Accounted (x.1 r) (x.2 r) := by
  have hc := (counted_invariant cfg).holds (Transition.System.reachable_of_restrict hr) r
  have hh := (homely_invariant cfg r).holds hr
  have hattempts := hc.attempts
  rw [hh.tryTheft] at hattempts
  have hhit : (x.2 r).hit = 0 := by omega
  have hnotask : (x.2 r).missNotask = 0 := by omega
  have hlocked : (x.2 r).missTargetLocked = 0 := by omega
  have hcopy : (x.2 r).missFreeForCopy = 0 := by omega
  constructor
  · exact hc.attempts
  · rw [hc.tryTheft, hh.tryTheft]
    rfl
  · rw [hc.hit, hhit]
    rfl
  · rw [hc.stolen, hh.stolen, hh.stale]
    rfl
  · rw [hc.missNotask, hnotask]
    rfl
  · rw [hc.missTargetLocked, hlocked, hhit]
    rfl
  · rw [hc.missFreeForCopy, hcopy]
    rfl
  · intro hpc
    have hseg := hc.segment
    have hlogged : unlogged (x.1 r) = 0 := by
      unfold unlogged
      split
      · exact absurd ‹_› (hpc _ _)
      · rfl
    rw [hlogged, add_ofNat_zero, hh.half] at hseg
    rw [hseg, UInt32.toNat_ofNat_of_lt' hh.segment]
  · intro hpc
    have hdq := hc.dequeue
    have hlogged : unloggedShare (x.1 r) = 0 := by
      unfold unloggedShare
      split
      · exact absurd ‹_› hpc
      · rfl
    rw [hlogged, add_ofNat_zero] at hdq
    rw [hdq, UInt32.toNat_ofNat_of_lt' hh.dequeue]

/-! ### Runs of two ranks -/

theorem tallied_init : (tallied twoRanks).init (created, fun _ => .zero) := by
  constructor
  · exact twoRanks_init
  · intro r
    exact ⟨rfl, rfl⟩

/-- Rank 0 has shared a task, and rank 1 has locked its segment. -/
theorem theft_accounting_conserved_after_sharing :
    ∃ x, ((tallied twoRanks).restrict (KeepsCount twoRanks 0)).Reachable x ∧
      (x.1 0).log.tasksMovedFromDequeueCount = 1 ∧ (x.1 0).seg.state = .rank 1 ∧
      Accounted (x.1 0) (x.2 0) := by
  obtain ⟨x, hr, hmoved, hstate⟩ := Transition.System.exists_reachable
    (S := (tallied twoRanks).restrict (KeepsCount twoRanks 0)) tallied_init theft
    (fun x => (x.1 0).log.tasksMovedFromDequeueCount = 1 ∧ (x.1 0).seg.state = .rank 1)
    (by decide +kernel)
  exact ⟨x, hr, hmoved, hstate, theft_accounting_conserved hr⟩

/-- After its first theft, a hit, the counters of rank 1 say that it met a locked target in no
attempt. -/
theorem hit_counted_as_miss :
    ∃ x, (tallied twoRanks).Reachable x ∧ (x.1 1).pc = .working ∧ (x.2 1).hit = 1 ∧
      (x.2 1).missTargetLocked = 0 ∧ (x.1 1).log.tryTheftCount = 0 ∧ (x.1 1).log.hitCount = 0 ∧
      (x.1 1).log.missTargetLockedCount = 1 ∧ ¬ Accounted (x.1 1) (x.2 1) := by
  obtain ⟨x, hr, hpc, hhit, hmiss, htry, hcount, hlocked⟩ := Transition.System.exists_reachable
    tallied_init (theft ++ List.replicate 3 (1, .advance false))
    (fun x => (x.1 1).pc = .working ∧ (x.2 1).hit = 1 ∧
      (x.2 1).missTargetLocked = 0 ∧ (x.1 1).log.tryTheftCount = 0 ∧ (x.1 1).log.hitCount = 0 ∧
      (x.1 1).log.missTargetLockedCount = 1) (by decide +kernel)
  refine ⟨x, hr, hpc, hhit, hmiss, htry, hcount, hlocked, fun h => ?_⟩
  have := h.missTargetLocked
  rw [hlocked, hmiss] at this
  cases this

end Titus.Tasks
