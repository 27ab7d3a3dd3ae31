import Titus.Tasks.Conservation
import Mathlib.Data.Nat.Log

/-! How often a task is stolen.  A rank that steals a batch moves half of it to its dequeue before
anyone can steal from it, and half of its dequeue at most goes to its segment.  So the batch that a
task is stolen with is at most half as large each time. -/

namespace Titus.Tasks

variable {n : ℕ} {cfg : Config n} {s s' : State n} {r : Fin n} {t t' : RankTasks n} {x : TaskId n}

/-- The rank unlocks its victim's segment: the batch that it has read is its own from now on. -/
def WorkPc.endsTheft : WorkPc n → Bool
  | .unlockingVictim _ => true
  | _ => false

/-- The step ends a theft of a batch with task `x`. -/
def Steals (s : State n) (a : Fin n × Action n) (x : TaskId n) : Prop :=
  (s a.1).pc.endsTheft ∧ (s a.1).seg.Contains (s a.1).current x

instance (s : State n) (a : Fin n × Action n) (x : TaskId n) : Decidable (Steals s a x) :=
  inferInstanceAs (Decidable (_ ∧ _))

/-- The thefts of task `x` in a run. -/
def thefts (cfg : Config n) (x : TaskId n) : State n → List (Fin n × Action n) → ℕ :=
  (system cfg).cost fun s a => if Steals s a x then 1 else 0

/-! ### The thefts that a task has before it -/

/-- The rank has a stolen batch on its segment that it has not split yet. -/
def WorkPc.unsplit : WorkPc n → Bool
  | .unlockingSelf _ | .working | .opening | .starting | .refilling .start => true
  | _ => false

/-- The copies of task `x` on the rank's segment. -/
def onSegment (x : TaskId n) (t : RankTasks n) : ℕ :=
  if segmentLive t then t.seg.copies t.current x else 0

/-- How often the tasks of the rank's segment can be stolen: once and then as often as the batch
can be halved. -/
def segmentThefts (t : RankTasks n) : ℕ :=
  Nat.clog 2 t.seg.nbTask + if t.pc.unsplit then 0 else 1

/-- How often task `x` can be stolen as long as it is on the rank, and after that. -/
def theftsLeft (x : TaskId n) (t : RankTasks n) : ℕ :=
  t.dq.copies t.current x * Nat.clog 2 t.dq.nbTask + onSegment x t * segmentThefts t

/-- How often task `x` can be stolen. -/
def theftsAhead (cfg : Config n) (x : TaskId n) (s : State n) : ℕ :=
  (if x.session < (s x.owner).session then 0 else Nat.clog 2 (cfg.nbTask x.session x.owner)) +
    Ledger.total (fun _ => theftsLeft x) s

/-! ### Halves -/

theorem clog_upper_half {m : ℕ} (h : nbTaskMin ≤ m) :
    Nat.clog 2 (m - m / 2) + 1 = Nat.clog 2 m := by
  rw [Nat.clog_of_two_le Nat.one_lt_two h]
  congr 2
  omega

theorem clog_lower_half {m k : ℕ} (h : nbTaskMin ≤ m) (hk : k ≤ m / 2) :
    Nat.clog 2 k + 1 ≤ Nat.clog 2 m := by
  rw [← clog_upper_half h]
  apply Nat.succ_le_succ
  apply Nat.clog_mono_right
  omega

/-- A task that goes to one of two places, neither of which costs more. -/
theorem split_le {a b c A B C : ℕ} (h : a + b = c) (hA : A ≤ C) (hB : B ≤ C) :
    a * A + b * B ≤ c * C := by
  rw [← h, Nat.add_mul]
  exact Nat.add_le_add (Nat.mul_le_mul_left a hA) (Nat.mul_le_mul_left b hB)

/-- In `move_task_from_my_dequeue_to_my_segment` half of the dequeue at most goes to the segment. -/
theorem share_le (cfg : Config n) (r : Fin n) (dq : Dequeue n) (m : MetadataTask n) (k : ℕ) :
    (moveTaskFromMyDequeueToMySegment cfg r dq m).1.copies k x *
          Nat.clog 2 (moveTaskFromMyDequeueToMySegment cfg r dq m).1.nbTask +
        (moveTaskFromMyDequeueToMySegment cfg r dq m).2.copies k x *
          (Nat.clog 2 (moveTaskFromMyDequeueToMySegment cfg r dq m).2.nbTask + 1) ≤
      dq.copies k x * Nat.clog 2 dq.nbTask := by
  have hput : ∀ c, nbTaskMin ≤ dq.nbTask → c ≤ dq.nbTask / 2 →
      (putOnSegment dq m c).1.copies k x * Nat.clog 2 (putOnSegment dq m c).1.nbTask +
        (putOnSegment dq m c).2.copies k x * (Nat.clog 2 (putOnSegment dq m c).2.nbTask + 1) ≤
      dq.copies k x * Nat.clog 2 dq.nbTask := by
    intro c hmin hc
    apply split_le (copies_putOnSegment (by omega) k)
    · apply Nat.clog_mono_right
      simp only [putOnSegment, Dequeue.nbTask]
      omega
    · exact clog_lower_half hmin hc
  simp only [moveTaskFromMyDequeueToMySegment]
  split
  · rw [MetadataTask.copies_eq_zero rfl, Nat.zero_mul, Nat.add_zero]
  · split
    · exact hput _ (by omega) (by omega)
    · exact hput _ (by omega) le_rfl

/-- In `move_task_from_my_segment_to_my_dequeue` a batch is halved. -/
theorem refill_le (dq : Dequeue n) (m : MetadataTask n) (k : ℕ) :
    (moveTaskFromMySegmentToMyDequeue dq m).1.copies k x *
          Nat.clog 2 (moveTaskFromMySegmentToMyDequeue dq m).1.nbTask +
        (moveTaskFromMySegmentToMyDequeue dq m).2.copies k x *
          (Nat.clog 2 (moveTaskFromMySegmentToMyDequeue dq m).2.nbTask + 1) ≤
      m.copies k x * Nat.clog 2 m.nbTask := by
  have hcopies := copies_moveToDequeue (m := m) dq x k
  unfold moveTaskFromMySegmentToMyDequeue at hcopies ⊢
  split
  · rename_i hmin
    rw [if_pos hmin] at hcopies
    have hempty : (takeFromSegment dq m m.nbTask 0).2.copies k x = 0 :=
      MetadataTask.copies_eq_zero (Nat.sub_self _) k
    rw [hempty, Nat.add_zero] at hcopies
    rw [hempty, Nat.zero_mul, Nat.add_zero, hcopies]
    exact le_rfl
  · rename_i hmin
    rw [if_neg hmin] at hcopies
    apply split_le hcopies
    · apply Nat.clog_mono_right
      exact Nat.div_le_self _ _
    · exact (clog_upper_half (Nat.le_of_not_lt hmin)).le

/-! ### Steps of one rank -/

/-- A step that keeps the dequeue and the batch on the segment. -/
theorem theftsLeft_congr (hdq : t'.dq = t.dq) (hsess : t'.session = t.session)
    (hseg : onSegment x t' = onSegment x t) (hthefts : segmentThefts t' = segmentThefts t) :
    theftsLeft x t' = theftsLeft x t := by
  rw [theftsLeft, theftsLeft, hdq, RankTasks.current_congr hsess, hseg, hthefts]

theorem onSegment_congr (hsess : t'.session = t.session) (hseg : t'.seg = t.seg)
    (hlive : segmentLive t' = segmentLive t) : onSegment x t' = onSegment x t := by
  rw [onSegment, onSegment, hseg, hlive, RankTasks.current_congr hsess]

theorem segmentThefts_congr (hnb : t'.seg.nbTask = t.seg.nbTask)
    (hpc : t'.pc.unsplit = t.pc.unsplit) : segmentThefts t' = segmentThefts t := by
  rw [segmentThefts, segmentThefts, hnb, hpc]

/-- A step that keeps the segment too, and whether it is live and split. -/
theorem theftsLeft_frame (hdq : t'.dq = t.dq) (hsess : t'.session = t.session)
    (hseg : t'.seg = t.seg) (hlive : segmentLive t' = segmentLive t)
    (hpc : t'.pc.unsplit = t.pc.unsplit) : theftsLeft x t' = theftsLeft x t := by
  apply theftsLeft_congr hdq hsess (onSegment_congr hsess hseg hlive)
  exact segmentThefts_congr (congrArg MetadataTask.nbTask hseg) hpc

theorem onSegment_eq_zero (h : t.seg.nbTask = 0) : onSegment x t = 0 := by
  rw [onSegment, MetadataTask.copies_eq_zero h, ite_self]

/-- Without tasks on the segment only the dequeue counts. -/
theorem theftsLeft_of_empty (h : t.seg.nbTask = 0) :
    theftsLeft x t = t.dq.copies t.current x * Nat.clog 2 t.dq.nbTask := by
  rw [theftsLeft, onSegment_eq_zero h, Nat.zero_mul, Nat.add_zero]

theorem theftsLeft_congr_empty (hdq : t'.dq = t.dq) (hsess : t'.session = t.session)
    (h : t.seg.nbTask = 0) (h' : t'.seg.nbTask = 0) : theftsLeft x t' = theftsLeft x t := by
  rw [theftsLeft_of_empty h, theftsLeft_of_empty h', hdq, RankTasks.current_congr hsess]

theorem Moved.unsplit {pc : WorkPc n} (hm : Moved r t pc) (h : PcOk cfg r t) :
    t.seg.nbTask = 0 ∨ pc.unsplit = t.pc.unsplit := by
  cases hm with
  | readyWorking hpc | readyReturning hpc =>
    simp only [PcOk, hpc] at h
    exact .inl h.2.1
  | startingPreparing hpc hnb => exact .inl hnb
  | _ => exact .inr (by simp only [WorkPc.unsplit, *])

theorem theftsLeft_move {pc : WorkPc n} (hm : Moved r t pc) (h : PcOk cfg r t) :
    theftsLeft x { t with pc } = theftsLeft x t := by
  by_cases h0 : t.seg.nbTask = 0
  · exact theftsLeft_congr_empty rfl rfl h0 h0
  · exact theftsLeft_frame rfl rfl rfl ((hm.live h).resolve_left h0) ((hm.unsplit h).resolve_left h0)

theorem theftsLeft_refilling {site : RefillSite} (h : PcOk cfg r t)
    (hpc : t.pc = .refilling site) :
    theftsLeft x { t with
      dq := (moveTaskFromMySegmentToMyDequeue t.dq t.seg).1
      seg := (moveTaskFromMySegmentToMyDequeue t.dq t.seg).2
      pc := .refilled site (moveTaskFromMySegmentToMyDequeue t.dq t.seg).2.state } ≤
      theftsLeft x t := by
  have hmove := refill_le (x := x) t.dq t.seg t.current
  simp only [theftsLeft, onSegment, segmentThefts, segmentLive, hpc, WorkPc.unsplit, if_true]
  rw [Dequeue.copies_eq_zero (h.refill hpc).1, Nat.zero_mul, Nat.zero_add]
  apply hmove.trans
  apply Nat.mul_le_mul_left
  omega

theorem theftsLeft_sharing (cfg : Config n) (r : Fin n) (hpc : t.pc = .sharing) :
    theftsLeft x { t with
      dq := (moveTaskFromMyDequeueToMySegment cfg r t.dq t.seg).1
      seg := (moveTaskFromMyDequeueToMySegment cfg r t.dq t.seg).2
      pc := .shared } ≤ theftsLeft x t := by
  have hmove := share_le (x := x) cfg r t.dq t.seg t.current
  simp only [theftsLeft, onSegment, segmentThefts, segmentLive, hpc, WorkPc.unsplit, if_true,
    Bool.false_eq_true, if_false, Nat.zero_mul, Nat.add_zero]
  exact hmove

theorem theftsLeft_solving (h : PcOk cfg r t) (hpc : t.pc = .solving) :
    theftsLeft x { doNextTask cfg t with pc := .solved } ≤ theftsLeft x t := by
  simp only [PcOk, hpc] at h
  have hdrop := copies_dropTask (x := x) h.1.dequeue h.2.1 []
  have hle : (dropTask t.dq).copies t.current x ≤ t.dq.copies t.current x := by
    have hnil : ([] : List (TaskId n)).count x = 0 := rfl
    omega
  have hlog : Nat.clog 2 (dropTask t.dq).nbTask ≤ Nat.clog 2 t.dq.nbTask := by
    apply Nat.clog_mono_right
    rw [nbTask_dropTask]
    exact Nat.sub_le _ _
  simp only [theftsLeft, onSegment, segmentThefts, segmentLive, hpc, WorkPc.unsplit]
  exact Nat.add_le_add_right (Nat.mul_le_mul hle hlog) _

/-- No step of a rank on its own state gives a task more thefts. -/
theorem theftsLeft_localNext (h : RankOk cfg r t) {b : Bool} (hs : localNext cfg r t b = some t') :
    theftsLeft x t' ≤ theftsLeft x t := by
  have hok := h.pc
  cases localStepped_of_localNext hs with
  | move pc hm => exact (theftsLeft_move hm hok).le
  | failed a hf => exact absurd hf (hok.not_fails a)
  | refilling site hpc => exact theftsLeft_refilling hok hpc
  | sharing hpc => exact theftsLeft_sharing cfg r hpc
  | solving hpc => exact theftsLeft_solving hok hpc
  | opening hpc =>
    simp only [PcOk, hpc] at hok
    apply le_of_eq
    exact theftsLeft_congr_empty rfl rfl hok.2.2.2.2 hok.2.2.2.2
  | refilled site comp state hpc hst =>
    rw [if_pos (hok.state_eq_comp hpc)] at hst
    subst hst
    apply le_of_eq
    cases site <;> refine theftsLeft_congr rfl rfl ?_ (segmentThefts_congr rfl ?_) <;>
      simp only [onSegment, segmentLive, hpc, WorkPc.unsplit, RefillSite.resume, if_true] <;>
      exact live_release t.seg t.current
  | preparing hpc | returningFull hpc =>
    apply le_of_eq
    refine theftsLeft_frame rfl rfl rfl ?_ ?_ <;> simp only [segmentLive, WorkPc.unsplit, hpc]
  | lockingSelf hpc hnb hst =>
    apply le_of_eq
    refine theftsLeft_congr rfl rfl ?_ (segmentThefts_congr rfl ?_) <;>
      simp only [onSegment, segmentLive, hpc, hst, WorkPc.unsplit, withState]
    rfl
  | shared hpc =>
    apply le_of_eq
    refine theftsLeft_congr rfl rfl ?_ (segmentThefts_congr rfl ?_) <;>
      simp only [onSegment, segmentLive, hpc, WorkPc.unsplit, if_true]
    exact live_release t.seg t.current
  | sharedFailed hpc hst =>
    simp only [PcOk, hpc] at hok
    exact absurd hok.1 hst
  | unlockingWait hpc hst =>
    apply le_of_eq
    refine theftsLeft_congr rfl rfl ?_ (segmentThefts_congr rfl ?_) <;>
      simp only [onSegment, segmentLive, hpc, hst, WorkPc.unsplit, TaskLock.holdsBatch,
        Bool.false_eq_true, if_false]
  | unlockingSelf old pc hpc hnext =>
    obtain rfl := hok.pc_eq_working hpc hnext
    apply le_of_eq
    refine theftsLeft_congr rfl rfl ?_ (segmentThefts_congr rfl ?_) <;>
      simp only [onSegment, segmentLive, hpc, WorkPc.unsplit, if_true]
    rfl

/-! ### Steps of all ranks -/

theorem theftsAhead_update (cfg : Config n) (hsess : t.session = (s r).session) :
    theftsAhead cfg x (Function.update s r t) + theftsLeft x (s r) =
      theftsAhead cfg x s + theftsLeft x t := by
  have htotal := Ledger.total_update (fun _ => theftsLeft x) s r t
  have howner : (Function.update s r t x.owner).session = (s x.owner).session := by
    by_cases hr : x.owner = r
    · rw [hr, Function.update_self, hsess]
    · rw [Function.update_of_ne hr]
  simp only [theftsAhead, howner]
  omega

/-- Two ranks change, in the same sessions as before. -/
theorem theftsAhead_update_update (cfg : Config n) {v : Fin n} {u : RankTasks n} (hne : v ≠ r)
    (hu : u.session = (s v).session) (ht : t.session = (s r).session) :
    theftsAhead cfg x (Function.update (Function.update s v u) r t) +
        (theftsLeft x (s v) + theftsLeft x (s r)) =
      theftsAhead cfg x s + (theftsLeft x u + theftsLeft x t) := by
  have hother : Function.update s v u r = s r := Function.update_of_ne hne.symm _ _
  have hfirst := theftsAhead_update cfg (x := x) hu
  have hsecond := theftsAhead_update cfg (x := x) (s := Function.update s v u) (r := r) (t := t)
    (by rw [hother, ht])
  rw [hother] at hsecond
  omega

/-- A rank without a live batch on its segment. -/
theorem theftsLeft_of_not_live (h : segmentLive t = false) :
    theftsLeft x t = t.dq.copies t.current x * Nat.clog 2 t.dq.nbTask := by
  simp only [theftsLeft, onSegment, h, Bool.false_eq_true, if_false, Nat.zero_mul, Nat.add_zero]

/-- The tasks of a new problem can be stolen as often as their dequeue can be halved. -/
theorem theftsAhead_setProblem (hpc : (s r).pc = .idle) :
    theftsAhead cfg x (Function.update s r (setProblem cfg r (s r))) ≤ theftsAhead cfg x s := by
  have htotal := Ledger.total_update (fun _ => theftsLeft x) s r (setProblem cfg r (s r))
  have hnew : theftsLeft x (setProblem cfg r (s r)) =
      (setProblem cfg r (s r)).dq.copies (s r).session x *
        Nat.clog 2 (cfg.nbTask (s r).session r) :=
    theftsLeft_of_not_live (by rfl)
  by_cases hx : x.session = (s r).session ∧ x.owner = r
  · obtain ⟨hsession, rfl⟩ := hx
    have hcopies : (setProblem cfg x.owner (s x.owner)).dq.copies (s x.owner).session x ≤ 1 := by
      rw [Dequeue.copies]
      split <;> omega
    have hmul := Nat.mul_le_mul_right (Nat.clog 2 (cfg.nbTask x.session x.owner)) hcopies
    rw [← hsession] at hnew hmul
    have hnow : x.session < (Function.update s x.owner (setProblem cfg x.owner (s x.owner))
        x.owner).session := by
      rw [Function.update_self, hsession]
      exact Nat.lt_succ_self _
    have hbefore : ¬ x.session < (s x.owner).session := by omega
    simp only [theftsAhead, hnow, hbefore, if_true, if_false]
    omega
  · have hcopies : (setProblem cfg r (s r)).dq.copies (s r).session x = 0 :=
      if_neg fun hc => hx ⟨hc.1, hc.2.1⟩
    rw [hcopies, Nat.zero_mul] at hnew
    have hsession : x.session < (s x.owner).session →
        x.session < (Function.update s r (setProblem cfg r (s r)) x.owner).session := by
      intro hlt
      by_cases hr : x.owner = r
      · rw [hr] at hlt ⊢
        rw [Function.update_self]
        exact hlt.trans (Nat.lt_succ_self _)
      · rwa [Function.update_of_ne hr]
    simp only [theftsAhead]
    split
    · omega
    · rename_i hno
      rw [if_neg fun hlt => hno (hsession hlt)]
      omega

/-- A rank in its work loop, after a thief has changed the state word of its segment. -/
theorem theftsLeft_withState (h : Open t) (state : TaskLock n) :
    theftsLeft x (withState t state) = t.dq.copies t.current x * Nat.clog 2 t.dq.nbTask +
      (if state.holdsBatch then t.seg.copies t.current x else 0) *
        (Nat.clog 2 t.seg.nbTask + 1) := by
  have hlive : segmentLive (withState t state) = state.holdsBatch ∧ t.pc.unsplit = false := by
    unfold Open at h
    unfold segmentLive WorkPc.unsplit
    split at h <;> rename_i hpc
    case h_14 => exact h.elim
    all_goals simp only [withState, hpc, and_self]
  rw [theftsLeft, onSegment, segmentThefts, hlive.1]
  change _ + _ * (_ + if t.pc.unsplit = true then 0 else 1) = _
  rw [hlive.2]
  rfl

theorem theftsLeft_of_open (h : Open t) :
    theftsLeft x t = t.dq.copies t.current x * Nat.clog 2 t.dq.nbTask +
      (if t.seg.state.holdsBatch then t.seg.copies t.current x else 0) *
        (Nat.clog 2 t.seg.nbTask + 1) :=
  theftsLeft_withState h t.seg.state

/-- The start of a theft. -/
theorem theftsAhead_locked (h : ProtocolOk cfg s) (hpc : (s r).pc = .balancing) {v : Fin n}
    (hne : v ≠ r) (hst : (s v).seg.state = .taskAvailable) :
    theftsAhead cfg x (Function.update (Function.update s v (withState (s v) (.rank r))) r
      { s r with pc := .reading v }) ≤ theftsAhead cfg x s := by
  have hopen := (h.rank v).open_of_available hst
  have hv := theftsLeft_withState (x := x) hopen (.rank r)
  have hv' := theftsLeft_of_open (x := x) hopen
  rw [hst] at hv'
  have hr : theftsLeft x { s r with pc := .reading v } = theftsLeft x (s r) :=
    theftsLeft_frame rfl rfl rfl (by simp only [segmentLive, hpc])
      (by simp only [WorkPc.unsplit, hpc])
  have hboth := theftsAhead_update_update cfg (x := x) (s := s)
    (u := withState (s v) (.rank r)) (t := { s r with pc := .reading v }) hne rfl rfl
  rw [hr, hv, hv'] at hboth
  exact (Nat.add_right_cancel hboth).le

/-- The end of a theft costs each task of the batch one theft. -/
theorem theftsAhead_unlock (h : ProtocolOk cfg s) {v : Fin n} (hpc : (s r).pc = .unlockingVictim v)
    {state : TaskLock n}
    (hstate : state = if (s v).seg.state = .rank r then .freeForCopy else (s v).seg.state) :
    (s r).seg.copies (s r).current x +
      theftsAhead cfg x (Function.update (Function.update s v (withState (s v) state)) r
        { Function.update s v (withState (s v) state) r with
          pc := .unlockingSelf (s v).seg.state }) ≤ theftsAhead cfg x s := by
  obtain ⟨hne, hst, -⟩ := h.victim_locked (v := v) (by rw [hpc]; rfl)
  have hcur : (s v).current = (s r).current := h.current_eq (by rw [hpc]; rfl)
  have hsame := h.readAll r v hpc
  rw [if_pos hst] at hstate
  subst hstate
  have hopen := (h.rank v).open_of_rank hst hne.symm
  have hv := theftsLeft_withState (x := x) hopen .freeForCopy
  have hv' := theftsLeft_of_open (x := x) hopen
  rw [hst] at hv'
  have hbatch : (s r).seg.copies (s r).current x = (s v).seg.copies (s v).current x := by
    refine if_congr ?_ rfl rfl
    simp only [MetadataTask.Contains, hcur, hsame.ownerTaskRank, hsame.nbTask, hsame.endTaskId]
  have hr : theftsLeft x { s r with pc := .unlockingSelf (s v).seg.state } =
      theftsLeft x (s r) + (s v).seg.copies (s v).current x * Nat.clog 2 (s v).seg.nbTask := by
    rw [← hbatch, ← hsame.nbTask]
    simp only [theftsLeft, onSegment, segmentThefts, segmentLive, hpc, WorkPc.unsplit,
      Bool.false_eq_true, if_true, if_false, Nat.zero_mul, Nat.add_zero]
    rfl
  have hboth := theftsAhead_update_update cfg (x := x) (s := s)
    (u := withState (s v) .freeForCopy) (t := { s r with pc := .unlockingSelf (s v).seg.state })
    hne rfl rfl
  simp only [TaskLock.holdsBatch, Bool.false_eq_true, if_true, if_false, Nat.zero_mul,
    Nat.add_zero, Nat.mul_add, Nat.mul_one] at hv hv'
  rw [Function.update_of_ne hne.symm, hbatch]
  omega

theorem localNext_endsTheft {b : Bool} (hs : localNext cfg r t b = some t') :
    t.pc.endsTheft = false := by
  have hvictim := (localNext_frame hs).2.2.2.2.2.2.1
  cases hpc : t.pc with
  | unlockingVictim v =>
    rw [hpc] at hvictim
    cases hvictim
  | _ => rfl

/-- No step gives a task more thefts, and each theft of it uses up one. -/
theorem theftsAhead_stepped (h : ProtocolOk cfg s) {a : Action n} (hs : Stepped cfg s r a s') :
    (if Steals s (r, a) x then 1 else 0) + theftsAhead cfg x s' ≤ theftsAhead cfg x s := by
  have hnone : (s r).pc.endsTheft = false → (if Steals s (r, a) x then 1 else 0) = 0 := by
    intro hpc
    apply if_neg
    rintro ⟨hends, -⟩
    rw [hpc] at hends
    cases hends
  have hkeep : ∀ t, (s r).pc.endsTheft = false → t.session = (s r).session →
      theftsLeft x t ≤ theftsLeft x (s r) →
      (if Steals s (r, a) x then 1 else 0) + theftsAhead cfg x (Function.update s r t) ≤
        theftsAhead cfg x s := by
    intro t hpc hsess hle
    have hupdate := theftsAhead_update cfg (x := x) hsess
    have hno := hnone hpc
    omega
  cases hs with
  | setProblem hpc hacc =>
    rw [hnone (by rw [hpc]; rfl), Nat.zero_add]
    exact theftsAhead_setProblem hpc
  | locked v hpc hne hst =>
    rw [hnone (by rw [hpc]; rfl), Nat.zero_add]
    exact theftsAhead_locked h hpc hne hst
  | unlock b v state hpc hstate =>
    have hsteals : (if Steals s (r, .advance b) x then 1 else 0) =
        (s r).seg.copies (s r).current x := by
      simp only [Steals, hpc, WorkPc.endsTheft, true_and, MetadataTask.copies]
    rw [hsteals]
    exact theftsAhead_unlock h hpc hstate
  | own b t ht =>
    apply hkeep t (localNext_endsTheft ht) (localNext_frame ht).1
    exact theftsLeft_localNext (h.rank r) ht
  | leaveBarrier hpc =>
    refine hkeep _ (by rw [hpc]; rfl) rfl ?_
    apply le_of_eq
    refine theftsLeft_frame rfl rfl rfl ?_ ?_ <;> simp only [segmentLive, WorkPc.unsplit, hpc]
  | missed v hpc =>
    refine hkeep _ (by rw [hpc]; rfl) rfl ?_
    apply le_of_eq
    refine theftsLeft_frame rfl rfl rfl ?_ ?_ <;> simp only [segmentLive, WorkPc.unsplit, hpc]
  | pushed site hpc =>
    refine hkeep _ (by rw [hpc]; rfl) rfl ?_
    exact le_rfl
  | finish hpc =>
    refine hkeep _ (by rw [hpc]; rfl) rfl ?_
    rw [theftsLeft_of_not_live (t := s r) (by simp only [segmentLive, hpc]),
      theftsLeft_of_not_live rfl]
    exact le_rfl
  | readFirst b v len pc hpc hrest =>
    refine hkeep _ (by rw [hpc]; rfl) rfl ?_
    rw [theftsLeft_of_not_live (t := s r) (by simp only [segmentLive, hpc])]
    rcases hrest with ⟨rfl, -⟩ | ⟨rfl, -⟩
    · rw [theftsLeft_of_not_live rfl]
      exact le_rfl
    · rw [theftsLeft_of_not_live rfl]
      exact le_rfl
  | readRest b v hpc =>
    refine hkeep _ (by rw [hpc]; rfl) rfl ?_
    rw [theftsLeft_of_not_live (t := s r) (by simp only [segmentLive, hpc]),
      theftsLeft_of_not_live rfl]
    exact le_rfl

/-- In every run, a task is stolen at most as often as the number of tasks of its problem can be
halved, rounded up: `⌈log₂ nb_task⌉` times. -/
theorem thefts_le_clog {as : List (Fin n × Action n)} (hi : (system cfg).init s)
    (hrun : (system cfg).run s as = some s') :
    thefts cfg x s as ≤ Nat.clog 2 (cfg.nbTask x.session x.owner) := by
  have hstep : ∀ u a u', ProtocolOk cfg u → (system cfg).next u a = some u' →
      ProtocolOk cfg u' := fun u a u' hok hs => hok.next hs
  have hpay : ∀ u a u', ProtocolOk cfg u → (system cfg).next u a = some u' →
      (if Steals u a x then 1 else 0) + theftsAhead cfg x u' ≤ theftsAhead cfg x u := by
    rintro u ⟨r, a⟩ u' hok hs
    exact theftsAhead_stepped hok (stepped_of_next hs)
  have hle := Transition.System.cost_le hstep hpay (ProtocolOk.init hi) hrun
  have hstart : theftsAhead cfg x s = Nat.clog 2 (cfg.nbTask x.session x.owner) := by
    have hzero : Ledger.total (fun _ => theftsLeft x) s = 0 := by
      apply Ledger.total_eq_zero.mpr
      intro q
      have hq := hi q
      rw [theftsLeft_of_empty hq.nbTask, Dequeue.copies_eq_zero, Nat.zero_mul]
      rw [Dequeue.nbTask, hq.dq, Nat.sub_self]
    rw [theftsAhead, hzero, (hi x.owner).session]
    rfl
  rw [hstart] at hle
  exact (Nat.le_add_right _ _).trans hle

/-- Rank 1 steals the first of the four tasks of rank 0, once. -/
theorem thefts_le_clog_after_theft :
    ∃ s, (system twoRanks).run created (theft ++ List.replicate 2 (1, .advance false)) = some s ∧
      thefts twoRanks ⟨0, 0, 0⟩ created (theft ++ List.replicate 2 (1, .advance false)) = 1 ∧
      thefts twoRanks ⟨0, 0, 0⟩ created (theft ++ List.replicate 2 (1, .advance false)) ≤
        Nat.clog 2 4 := by
  have hsome : ((system twoRanks).run created
      (theft ++ List.replicate 2 (1, .advance false))).isSome = true := by decide +kernel
  obtain ⟨s, hrun⟩ := Option.isSome_iff_exists.mp hsome
  exact ⟨s, hrun, by decide +kernel, thefts_le_clog twoRanks_init hrun⟩

end Titus.Tasks
