import Titus.Lib.Ledger
import Titus.Tasks.SegmentLock

/-! Conservation of tasks: every task of a session is executed, in a dequeue or live on a segment,
and in one of these places only.  The invariant counts the copies of a task over all ranks. -/

namespace Titus.Tasks

open Memory

variable {n : ℕ} {cfg : Config n}

/-- With this state word the segment of a rank in its work loop holds a batch.  What is left on a
segment that was robbed counts for nothing. -/
def TaskLock.holdsBatch : TaskLock n → Bool
  | .taskAvailable | .rank _ => true
  | .freeForCopy | .noTask | .copyInProgress => false

/-- The batch on the rank's segment is live.  While the rank reads a batch from a victim that batch
is still the victim's; it is the thief's once the victim's segment is unlocked. -/
def segmentLive (t : RankTasks n) : Bool :=
  match t.pc with
  | .idle | .barrier | .ready | .returning .thief | .balancing | .reading _ | .readingRest _ |
    .unlockingVictim _ | .sharing => false
  | .unlockingSelf _ | .working | .opening | .starting | .refilling _ | .refilled _ _ |
    .shared => true
  | .returning .full | .returning .last | .preparing | .loopHead | .loopBody | .flushing |
    .solving | .solved | .switching | .detecting | .waiting | .spinning | .unlockingWait |
    .aborted _ => t.seg.state.holdsBatch

/-- Where a task can be. -/
inductive Place (n : ℕ)
  | executed (r : Fin n)
  | dequeue (r : Fin n)
  | segment (r : Fin n)
deriving DecidableEq

/-- Task `x` is in the place. -/
def At (s : State n) (x : TaskId n) : Place n → Prop
  | .executed r => x ∈ (s r).executed
  | .dequeue r => (s r).dq.Contains (s r).current x
  | .segment r => segmentLive (s r) ∧ (s r).seg.Contains (s r).current x

/-- Task `x` is one of a problem that was passed to `set_problem`. -/
def Issued (cfg : Config n) (s : State n) (x : TaskId n) : Prop :=
  x.session < (s x.owner).session ∧ x.id < cfg.nbTask x.session x.owner

/-- The copies of task `x` in the dequeue: none or one. -/
def Dequeue.copies (dq : Dequeue n) (k : ℕ) (x : TaskId n) : ℕ := if dq.Contains k x then 1 else 0

/-- The copies of task `x` in the segment's batch: none or one. -/
def MetadataTask.copies (m : MetadataTask n) (k : ℕ) (x : TaskId n) : ℕ :=
  if m.Contains k x then 1 else 0

/-- The copies of task `x` on a rank. -/
def held (x : TaskId n) (t : RankTasks n) : ℕ :=
  t.executed.count x + t.dq.copies t.current x +
    if segmentLive t then t.seg.copies t.current x else 0

/-! ### Moves of tasks on one rank -/

section Moves

variable {dq : Dequeue n} {m : MetadataTask n} {k : ℕ} {x : TaskId n}

/-- One of two exclusive cases. -/
theorem ite_add_ite {p q c : Prop} [Decidable p] [Decidable q] [Decidable c] (h : c ↔ p ∨ q)
    (hpq : ¬ (p ∧ q)) :
    ((if p then 1 else 0) + if q then 1 else 0) = if c then 1 else 0 := by
  by_cases hp : p
  · rw [if_pos hp, if_neg fun hq => hpq ⟨hp, hq⟩, if_pos (h.mpr (.inl hp))]
  · rw [if_neg hp, Nat.zero_add]
    by_cases hq : q
    · rw [if_pos hq, if_pos (h.mpr (.inr hq))]
    · rw [if_neg hq, if_neg fun hc => (h.mp hc).elim hp hq]

theorem MetadataTask.copies_eq_zero (h : m.nbTask = 0) (j : ℕ) : m.copies j x = 0 := by
  refine if_neg ?_
  simp only [MetadataTask.Contains, h]
  omega

theorem Dequeue.copies_eq_zero (h : dq.nbTask = 0) (j : ℕ) : dq.copies j x = 0 := by
  refine if_neg ?_
  simp only [Dequeue.Contains, h]
  omega

theorem copies_putOnSegment {c : ℕ} (hc : c ≤ dq.nbTask) (j : ℕ) :
    (putOnSegment dq m c).1.copies j x + (putOnSegment dq m c).2.copies j x = dq.copies j x := by
  have hnb : ({ dq with head := dq.head + c } : Dequeue n).nbTask = dq.nbTask - c := by
    simp only [Dequeue.nbTask]
    omega
  refine ite_add_ite ?_ ?_ <;>
    simp only [putOnSegment, Dequeue.Contains, MetadataTask.Contains, hnb] <;> omega

theorem copies_moveToSegment (cfg : Config n) (r : Fin n) (dq : Dequeue n) (j : ℕ) :
    (moveTaskFromMyDequeueToMySegment cfg r dq m).1.copies j x +
      (moveTaskFromMyDequeueToMySegment cfg r dq m).2.copies j x = dq.copies j x := by
  simp only [moveTaskFromMyDequeueToMySegment]
  split
  · rw [MetadataTask.copies_eq_zero rfl, Nat.add_zero]
  · split
    · exact copies_putOnSegment (by omega) j
    · exact copies_putOnSegment (by omega) j

theorem copies_takeFromSegment {c e : ℕ} (hc : c ≤ m.nbTask)
    (he : m.nbTask - c = 0 ∧ e = 0 ∨ e = m.endTaskId - c) (j : ℕ) :
    (takeFromSegment dq m c e).1.copies j x + (takeFromSegment dq m c e).2.copies j x =
      m.copies j x := by
  refine ite_add_ite ?_ ?_ <;>
    simp only [takeFromSegment, Dequeue.Contains, MetadataTask.Contains, Dequeue.nbTask] <;> omega

theorem copies_moveToDequeue (dq : Dequeue n) (x : TaskId n) (j : ℕ) :
    (moveTaskFromMySegmentToMyDequeue dq m).1.copies j x +
      (moveTaskFromMySegmentToMyDequeue dq m).2.copies j x = m.copies j x := by
  unfold moveTaskFromMySegmentToMyDequeue
  split
  · exact copies_takeFromSegment le_rfl (.inl ⟨by omega, rfl⟩) j
  · exact copies_takeFromSegment (by omega) (.inr rfl) j

/-- `do_next_task` takes its task from the dequeue to those executed. -/
theorem copies_dropTask (h : DequeueOk cfg k dq) (hpos : 0 < dq.nbTask) (l : List (TaskId n)) :
    ((⟨k, dq.ownerTaskRank, dq.endTaskId - 1⟩ : TaskId n) :: l).count x +
      (dropTask dq).copies k x = l.count x + dq.copies k x := by
  have hle := h.nbTask_le
  have hcount := ite_add_ite (p := (⟨k, dq.ownerTaskRank, dq.endTaskId - 1⟩ : TaskId n) = x)
    (q := (dropTask dq).Contains k x) (c := dq.Contains k x) ?_ ?_
  · rw [List.count_cons]
    simp only [beq_iff_eq, Dequeue.copies]
    omega
  · simp only [Dequeue.Contains, nbTask_dropTask, TaskId.ext_iff]
    simp only [dropTask]
    omega
  · rintro ⟨rfl, hx⟩
    exact absurd hx.2.2.2 (lt_irrefl _)

end Moves

/-! ### Steps of one rank -/

section Steps

variable {r : Fin n} {t t' : RankTasks n} {x : TaskId n}

/-- A step that executes nothing, keeps the dequeue and keeps what is live on the segment. -/
theorem held_congr (hexec : t'.executed = t.executed) (hdq : t'.dq = t.dq)
    (hsess : t'.session = t.session)
    (hseg : (if segmentLive t' then t'.seg.copies t.current x else 0) =
      if segmentLive t then t.seg.copies t.current x else 0) : held x t' = held x t := by
  have hcur := RankTasks.current_congr hsess
  rw [held, held, hexec, hdq, hcur, hseg]

/-- A step that keeps the segment and whether it is live. -/
theorem held_congr_live (hexec : t'.executed = t.executed) (hdq : t'.dq = t.dq)
    (hsess : t'.session = t.session) (hseg : t'.seg = t.seg)
    (hlive : segmentLive t' = segmentLive t) : held x t' = held x t :=
  held_congr hexec hdq hsess (by rw [hseg, hlive])

/-- A segment without tasks may be live or not. -/
theorem live_of_nbTask_eq_zero {m m' : MetadataTask n} (h : m.nbTask = 0) (h' : m'.nbTask = 0)
    (b b' : Bool) (k : ℕ) :
    (if b' then m'.copies k x else 0) = if b then m.copies k x else 0 := by
  rw [MetadataTask.copies_eq_zero h, MetadataTask.copies_eq_zero h', ite_self, ite_self]

/-- The lock of a segment is released: it is available again if it still has tasks. -/
theorem live_release (m : MetadataTask n) (k : ℕ) :
    (if (if m.nbTask = 0 then TaskLock.noTask else TaskLock.taskAvailable (n := n)).holdsBatch
      then m.copies k x else 0) = m.copies k x := by
  by_cases h0 : m.nbTask = 0
  · rw [MetadataTask.copies_eq_zero h0, ite_self]
  · rw [if_neg h0]
    rfl

/-- A step to another point keeps what is live on the segment, unless there is nothing there. -/
theorem Moved.live {pc : WorkPc n} (hm : Moved r t pc) (h : PcOk cfg r t) :
    t.seg.nbTask = 0 ∨ segmentLive { t with pc } = segmentLive t := by
  cases hm with
  | readyWorking hpc | readyReturning hpc =>
    simp only [PcOk, hpc] at h
    exact .inl h.2.1
  | startingPreparing hpc hnb => exact .inl hnb
  | switchingSharing hpc hst | detectingRefilling hpc hst | waitingReturning hpc hst =>
    exact .inr (by simp only [segmentLive, hpc, hst, TaskLock.holdsBatch])
  | _ => exact .inr (by simp only [segmentLive, *])

theorem held_move {pc : WorkPc n} (hm : Moved r t pc) (h : PcOk cfg r t) :
    held x { t with pc } = held x t := by
  refine held_congr rfl rfl rfl ?_
  rcases hm.live h with h0 | hlive
  · exact live_of_nbTask_eq_zero h0 h0 _ _ _
  · rw [hlive]

/-- A refill shares the batch on the segment between the dequeue, which is empty before, and the
segment. -/
theorem held_refilling {site : RefillSite} (h : PcOk cfg r t) (hpc : t.pc = .refilling site) :
    held x { t with
      dq := (moveTaskFromMySegmentToMyDequeue t.dq t.seg).1
      seg := (moveTaskFromMySegmentToMyDequeue t.dq t.seg).2
      pc := .refilled site (moveTaskFromMySegmentToMyDequeue t.dq t.seg).2.state } = held x t := by
  have hmove := copies_moveToDequeue (m := t.seg) t.dq x t.current
  have hempty := Dequeue.copies_eq_zero (x := x) (h.refill hpc).1 t.current
  simp only [held, segmentLive, hpc, if_true]
  change _ + _ + _ = _ at ⊢
  rw [hempty, ← hmove]
  exact Nat.add_assoc _ _ _

theorem held_sharing (cfg : Config n) (r : Fin n) (hpc : t.pc = .sharing) :
    held x { t with
      dq := (moveTaskFromMyDequeueToMySegment cfg r t.dq t.seg).1
      seg := (moveTaskFromMyDequeueToMySegment cfg r t.dq t.seg).2
      pc := .shared } = held x t := by
  have hmove := copies_moveToSegment (x := x) (m := t.seg) cfg r t.dq t.current
  simp only [held, segmentLive, hpc, if_true, Bool.false_eq_true, if_false, Nat.add_zero]
  rw [← hmove]
  exact Nat.add_assoc _ _ _

/-- The steps of a rank on its own state conserve tasks. -/
theorem held_localNext (h : RankOk cfg r t) {b : Bool} (hs : localNext cfg r t b = some t') :
    held x t' = held x t := by
  have hok := h.pc
  cases localStepped_of_localNext hs with
  | move pc hm => exact held_move hm hok
  | failed a hf => exact absurd hf (hok.not_fails a)
  | opening hpc =>
    simp only [PcOk, hpc] at hok
    exact held_congr rfl rfl rfl (live_of_nbTask_eq_zero hok.2.2.2.2 hok.2.2.2.2 _ _ _)
  | refilling site hpc => exact held_refilling hok hpc
  | refilled site comp state hpc hst =>
    rw [if_pos (hok.state_eq_comp hpc)] at hst
    subst hst
    refine held_congr rfl rfl rfl ?_
    cases site <;> simp only [segmentLive, hpc, if_true] <;> exact live_release t.seg t.current
  | preparing hpc | returningFull hpc =>
    exact held_congr_live rfl rfl rfl rfl (by simp only [segmentLive, hpc])
  | solving hpc =>
    simp only [PcOk, hpc] at hok
    have hsolve := copies_dropTask (x := x) hok.1.dequeue hok.2.1 t.executed
    simp only [held, segmentLive, hpc]
    exact congrArg (· + _) hsolve
  | lockingSelf hpc hnb hst =>
    refine held_congr rfl rfl rfl ?_
    simp only [segmentLive, hpc, hst, withState]
    rfl
  | sharing hpc => exact held_sharing cfg r hpc
  | shared hpc =>
    refine held_congr rfl rfl rfl ?_
    simp only [segmentLive, hpc, if_true]
    exact live_release t.seg t.current
  | sharedFailed hpc hst =>
    simp only [PcOk, hpc] at hok
    exact absurd hok.1 hst
  | unlockingWait hpc hst =>
    refine held_congr rfl rfl rfl ?_
    simp only [segmentLive, hpc, hst, TaskLock.holdsBatch, Bool.false_eq_true, if_false]
  | unlockingSelf old pc hpc hnext =>
    obtain rfl := hok.pc_eq_working hpc hnext
    refine held_congr rfl rfl rfl ?_
    simp only [segmentLive, hpc]
    rfl

/-- `set_problem` adds the tasks of the new problem. -/
theorem held_setProblem (h : RankOk cfg r t) (hpc : t.pc = .idle) :
    held x (setProblem cfg r t) = held x t +
      if x.session = t.session ∧ x.owner = r ∧ x.id < cfg.nbTask x.session x.owner then 1 else 0 := by
  have hok := h.pc
  simp only [PcOk, hpc] at hok
  have hold : t.dq.copies t.current x = 0 := Dequeue.copies_eq_zero hok.1.nbTask _
  have hnew : (setProblem cfg r t).dq.copies t.session x =
      if x.session = t.session ∧ x.owner = r ∧ x.id < cfg.nbTask x.session x.owner then 1
      else 0 := by
    refine if_congr ?_ rfl rfl
    simp only [setProblem, Dequeue.Contains, Dequeue.nbTask, Nat.sub_zero, Nat.sub_self,
      Nat.zero_le, true_and]
    refine and_congr_right fun h1 => and_congr_right fun h2 => ?_
    rw [h1, h2]
  have hlive : segmentLive t = false := by simp only [segmentLive, hpc]
  rw [held, held, hlive, hold]
  change _ + (setProblem cfg r t).dq.copies t.session x + 0 = _
  rw [hnew]
  rfl

/-- A thief's lock and its unlock at a rank in its work loop: only the state word decides what is
live there. -/
theorem held_withState (h : Open t) (state : TaskLock n) : held x (withState t state) =
    t.executed.count x + t.dq.copies t.current x +
      if state.holdsBatch then t.seg.copies t.current x else 0 := by
  have hlive : segmentLive (withState t state) = state.holdsBatch := by
    unfold Open at h
    unfold segmentLive
    split at h <;> rename_i hpc
    case h_14 => exact h.elim
    all_goals simp only [withState, hpc]
  rw [held, hlive]
  rfl

theorem held_of_open (h : Open t) : held x t =
    t.executed.count x + t.dq.copies t.current x +
      if t.seg.state.holdsBatch then t.seg.copies t.current x else 0 :=
  held_withState h t.seg.state

end Steps

/-! ### Steps of all ranks -/

section Total

variable {s s' : State n} {r : Fin n} {x : TaskId n}

/-- The copies of task `x` on all ranks. -/
def copies (s : State n) (x : TaskId n) : ℕ := Ledger.total (fun _ => held x) s

/-- The start of a theft moves no task. -/
theorem copies_locked (h : ProtocolOk cfg s) (hpc : (s r).pc = .balancing) {v : Fin n}
    (hne : v ≠ r) (hst : (s v).seg.state = .taskAvailable) :
    copies (Function.update (Function.update s v (withState (s v) (.rank r))) r
      { s r with pc := .reading v }) x = copies s x := by
  refine Ledger.total_update_update hne ?_
  have hopen := (h.rank v).open_of_available hst
  have hv := held_withState (x := x) hopen (.rank r)
  have hv' := held_of_open (x := x) hopen
  rw [hst] at hv'
  have hr : held x { s r with pc := .reading v } = held x (s r) :=
    held_congr_live rfl rfl rfl rfl (by simp only [segmentLive, hpc])
  rw [hr, hv, hv']
  rfl

/-- The unlock of the victim's segment moves the batch to the thief. -/
theorem copies_unlock (h : ProtocolOk cfg s) {v : Fin n} (hpc : (s r).pc = .unlockingVictim v)
    {state : TaskLock n}
    (hstate : state = if (s v).seg.state = .rank r then .freeForCopy else (s v).seg.state) :
    copies (Function.update (Function.update s v (withState (s v) state)) r
      { Function.update s v (withState (s v) state) r with
        pc := .unlockingSelf (s v).seg.state }) x = copies s x := by
  obtain ⟨hne, hst, -⟩ := h.victim_locked (v := v) (by rw [hpc]; rfl)
  have hcur : (s v).current = (s r).current := h.current_eq (by rw [hpc]; rfl)
  have hsame := h.readAll r v hpc
  rw [if_pos hst] at hstate
  subst hstate
  refine Ledger.total_update_update hne ?_
  have hopen := (h.rank v).open_of_rank hst hne.symm
  have hv := held_withState (x := x) hopen .freeForCopy
  have hv' := held_of_open (x := x) hopen
  rw [hst] at hv'
  have hbatch : (s r).seg.copies (s r).current x = (s v).seg.copies (s v).current x := by
    refine if_congr ?_ rfl rfl
    simp only [MetadataTask.Contains, hcur, hsame.ownerTaskRank, hsame.nbTask, hsame.endTaskId]
  have hr : held x { s r with pc := .unlockingSelf (s v).seg.state } =
      held x (s r) + (s r).seg.copies (s r).current x := by
    simp only [held, segmentLive, hpc, Bool.false_eq_true, if_true, if_false]
    rfl
  simp only [TaskLock.holdsBatch, Bool.false_eq_true, if_true, if_false] at hv hv'
  rw [Function.update_of_ne hne.symm, hr, hv, hv', hbatch]
  omega

/-- Only `set_problem` adds copies, one of each task of the new problem. -/
theorem copies_stepped (h : ProtocolOk cfg s) {a : Action n} (hs : Stepped cfg s r a s') :
    copies s' x = copies s x + if a = .setProblem ∧ x.session = (s r).session ∧ x.owner = r ∧
      x.id < cfg.nbTask x.session x.owner then 1 else 0 := by
  have hkeep : ∀ t, held x t = held x (s r) → copies (Function.update s r t) x = copies s x :=
    fun t ht => Ledger.total_update_eq ht
  cases hs with
  | setProblem hpc hacc =>
    have hadd := held_setProblem (x := x) (h.rank r) hpc
    have htotal := Ledger.total_update (fun _ => held x) s r (setProblem cfg r (s r))
    simp only [true_and]
    rw [hadd] at htotal
    unfold copies
    omega
  | leaveBarrier hpc =>
    exact hkeep _ (held_congr_live rfl rfl rfl rfl (by simp only [segmentLive, hpc]))
  | finish hpc =>
    refine hkeep _ (held_congr rfl rfl rfl ?_)
    simp only [segmentLive, hpc, Bool.false_eq_true, if_false]
  | missed v hpc =>
    exact hkeep _ (held_congr_live rfl rfl rfl rfl (by simp only [segmentLive, hpc]))
  | locked v hpc hne hst => exact copies_locked h hpc hne hst
  | pushed site hpc => exact hkeep _ rfl
  | readFirst b v len pc hpc hrest =>
    refine hkeep _ (held_congr rfl rfl rfl ?_)
    rcases hrest with ⟨rfl, -⟩ | ⟨rfl, -⟩ <;>
      simp only [segmentLive, hpc, Bool.false_eq_true, if_false]
  | readRest b v hpc =>
    refine hkeep _ (held_congr rfl rfl rfl ?_)
    simp only [segmentLive, hpc, Bool.false_eq_true, if_false]
  | unlock b v state hpc hstate => exact copies_unlock h hpc hstate
  | own b t ht => exact hkeep _ (held_localNext (h.rank r) ht)

/-- Only `set_problem` starts a session, and only that of the rank that calls it. -/
theorem Stepped.session {a : Action n} (hs : Stepped cfg s r a s') (q : Fin n) :
    (s' q).session = (s q).session + if a = .setProblem ∧ q = r then 1 else 0 := by
  by_cases hq : q = r
  · subst hq
    cases hs with
    | setProblem hpc hacc =>
      rw [Function.update_self, if_pos ⟨rfl, rfl⟩]
      rfl
    | unlock b v state hpc =>
      rw [Function.update_self]
      by_cases hv : q = v
      · subst hv
        rw [Function.update_self]
        rfl
      · rw [Function.update_of_ne hv]
        rfl
    | own b t ht =>
      rw [Function.update_self, (localNext_frame ht).1]
      rfl
    | _ =>
      rw [Function.update_self]
      rfl
  · obtain ⟨state, hstate⟩ := hs.other hq
    rw [hstate, if_neg fun hc => hq hc.2]
    rfl

/-- A state has one copy of every task that was issued, and nothing else. -/
structure Conserved (cfg : Config n) (s : State n) : Prop where
  issued : ∀ x, Issued cfg s x → copies s x = 1
  rest : ∀ x, ¬ Issued cfg s x → copies s x = 0

theorem Conserved.next (hc : Conserved cfg s) (h : ProtocolOk cfg s) {a : Action n}
    (hs : next cfg s (r, a) = some s') : Conserved cfg s' := by
  have hstep := stepped_of_next hs
  have hcopies := fun x => copies_stepped (x := x) h hstep
  -- `Issued` after the step: as before, or a task of the problem passed to `set_problem`
  have hissued : ∀ x, Issued cfg s' x ↔ Issued cfg s x ∨
      a = .setProblem ∧ x.session = (s r).session ∧ x.owner = r ∧
        x.id < cfg.nbTask x.session x.owner := by
    intro x
    have hsess := hstep.session x.owner
    unfold Issued
    by_cases ha : a = .setProblem ∧ x.owner = r
    · obtain ⟨rfl, rfl⟩ := ha
      rw [if_pos ⟨rfl, rfl⟩] at hsess
      simp only [true_and]
      omega
    · rw [if_neg ha] at hsess
      rw [hsess]
      exact ⟨.inl, fun hx => hx.elim id fun hx => absurd ⟨hx.1, hx.2.2.1⟩ ha⟩
  refine ⟨fun x hx => ?_, fun x hx => ?_⟩
  · rcases (hissued x).mp hx with hold | hnew
    · rw [hcopies, hc.issued x hold, if_neg]
      rintro ⟨-, hsess, howner, -⟩
      have := hold.1
      rw [hsess, howner] at this
      exact lt_irrefl _ this
    · have hold : ¬ Issued cfg s x := by
        intro hold
        have := hold.1
        rw [hnew.2.1, hnew.2.2.1] at this
        exact lt_irrefl _ this
      rw [hcopies, hc.rest x hold, if_pos hnew]
  · have hno := fun h => hx ((hissued x).mpr h)
    rw [hcopies, hc.rest x fun h => hno (.inl h), if_neg fun h => hno (.inr h)]

theorem Conserved.init (h : (system cfg).init s) : Conserved cfg s := by
  have hzero : ∀ x, copies s x = 0 := by
    intro x
    refine Ledger.total_eq_zero.mpr fun r => ?_
    have hr := h r
    have hdq : (s r).dq.nbTask = 0 := by rw [Dequeue.nbTask, hr.dq, Nat.sub_self]
    have hlive : segmentLive (s r) = false := by simp only [segmentLive, hr.pc]
    rw [held, hr.executed, Dequeue.copies_eq_zero hdq, hlive]
    rfl
  refine ⟨fun x hx => ?_, fun x _ => hzero x⟩
  have := hx.1
  rw [(h x.owner).session] at this
  exact absurd this (Nat.not_lt_zero _)

theorem conserved_invariant (cfg : Config n) : (system cfg).Invariant (Conserved cfg) :=
  (protocol_invariant cfg).of_step (fun _ => Conserved.init)
    fun _ _ _ h hc hs => hc.next h hs

end Total

/-! ### The one place of a task -/

section Places

variable {s : State n} {x : TaskId n}

/-- The copies of task `x` in a place. -/
def copiesAt (s : State n) (x : TaskId n) : Place n → ℕ
  | .executed r => (s r).executed.count x
  | .dequeue r => (s r).dq.copies (s r).current x
  | .segment r => if segmentLive (s r) then (s r).seg.copies (s r).current x else 0

theorem at_iff_copiesAt_pos (p : Place n) : At s x p ↔ 0 < copiesAt s x p := by
  cases p with
  | executed r => exact (List.count_pos_iff).symm
  | dequeue r =>
    simp only [At, copiesAt, Dequeue.copies]
    split <;> simp_all
  | segment r =>
    simp only [At, copiesAt, MetadataTask.copies]
    by_cases hlive : segmentLive (s r) <;> simp only [hlive, true_and, false_and, if_true,
      Bool.false_eq_true, if_false, lt_irrefl]
    split <;> simp_all

/-- The places of the copies of a task that has one copy in all. -/
theorem unique_place (h : copies s x = 1) :
    ∃ p, copiesAt s x p = 1 ∧ ∀ q, q ≠ p → copiesAt s x q = 0 := by
  obtain ⟨r, hr, hrest⟩ := (Ledger.sum_eq_one_iff (f := fun r => held x (s r))).mp h
  have hothers : ∀ q, q ≠ r → copiesAt s x (.executed q) = 0 ∧ copiesAt s x (.dequeue q) = 0 ∧
      copiesAt s x (.segment q) = 0 := by
    intro q hq
    have := hrest q hq
    simp only [held] at this
    simp only [copiesAt]
    omega
  simp only [held] at hr
  have hcase : copiesAt s x (.executed r) + copiesAt s x (.dequeue r) +
    copiesAt s x (.segment r) = 1 := hr
  have huniq : ∀ p : Place n, copiesAt s x p = 1 →
      (∀ q, q = .executed r ∨ q = .dequeue r ∨ q = .segment r → q ≠ p → copiesAt s x q = 0) →
      ∃ p, copiesAt s x p = 1 ∧ ∀ q, q ≠ p → copiesAt s x q = 0 := by
    intro p hp hq
    refine ⟨p, hp, fun q hne => ?_⟩
    cases q with
    | executed q =>
      by_cases hqr : q = r
      · exact hq _ (.inl (by rw [hqr])) hne
      · exact (hothers q hqr).1
    | dequeue q =>
      by_cases hqr : q = r
      · exact hq _ (.inr (.inl (by rw [hqr]))) hne
      · exact (hothers q hqr).2.1
    | segment q =>
      by_cases hqr : q = r
      · exact hq _ (.inr (.inr (by rw [hqr]))) hne
      · exact (hothers q hqr).2.2
  rcases Nat.eq_zero_or_pos (copiesAt s x (.executed r)) with h1 | h1
  · rcases Nat.eq_zero_or_pos (copiesAt s x (.dequeue r)) with h2 | h2
    · refine huniq (.segment r) (by omega) ?_
      rintro q (rfl | rfl | rfl) hne
      · exact h1
      · exact h2
      · exact absurd rfl hne
    · refine huniq (.dequeue r) (by omega) ?_
      rintro q (rfl | rfl | rfl) hne
      · exact h1
      · exact absurd rfl hne
      · omega
  · refine huniq (.executed r) (by omega) ?_
    rintro q (rfl | rfl | rfl) hne
    · exact absurd rfl hne
    · omega
    · omega

end Places

/-- What conservation says of state `s`. -/
structure TasksConserved (cfg : Config n) (s : State n) : Prop where
  /-- A task of a session is in exactly one place, -/
  place : ∀ x, Issued cfg s x → ∃! p, At s x p
  /-- is executed at most once on that rank, -/
  once : ∀ x r, (s r).executed.count x ≤ 1
  /-- and nothing else is anywhere. -/
  only : ∀ x p, At s x p → Issued cfg s x
  /-- Tasks are moved from the segment to the dequeue only when the dequeue is empty and the
  segment's batch is live. -/
  refill : ∀ r site, (s r).pc = .refilling site →
    (s r).dq.nbTask = 0 ∧ segmentLive (s r) ∧ 1 ≤ (s r).seg.nbTask

/-- In every reachable state of any number of ranks tasks are conserved. -/
theorem tasks_conserved {s : State n} (hr : (system cfg).Reachable s) : TasksConserved cfg s := by
  have h := (protocol_invariant cfg).holds hr
  have hc := (conserved_invariant cfg).holds hr
  have hle : ∀ x p, copiesAt s x p ≤ copies s x := by
    intro x p
    have hheld : ∀ r, held x (s r) ≤ copies s x :=
      fun r => Ledger.held_le_total (fun _ => held x) s r
    cases p with
    | executed r | dequeue r | segment r =>
      have := hheld r
      simp only [held] at this
      simp only [copiesAt]
      omega
  refine ⟨fun x hx => ?_, fun x r => ?_, fun x p hp => ?_, fun r site hpc => ?_⟩
  · obtain ⟨p, hp, hrest⟩ := unique_place (hc.issued x hx)
    refine ⟨p, (at_iff_copiesAt_pos p).mpr (by omega), fun q hq => ?_⟩
    by_contra hne
    have := (at_iff_copiesAt_pos q).mp hq
    rw [hrest q hne] at this
    omega
  · have hat := hle x (.executed r)
    simp only [copiesAt] at hat
    by_cases hx : Issued cfg s x
    · have := hc.issued x hx
      omega
    · have := hc.rest x hx
      omega
  · by_contra hx
    have hzero := hc.rest x hx
    have hat := hle x p
    have := (at_iff_copiesAt_pos p).mp hp
    omega
  · have hok := (h.rank r).pc
    simp only [PcOk, hpc] at hok
    refine ⟨?_, by simp only [segmentLive, hpc], ?_⟩
    · cases site with
      | start => exact hok.2.2.1
      | selfTheft => exact hok.2.1
    · cases site with
      | start => exact hok.2.2.2.pos
      | selfTheft => exact hok.2.2.2.1.pos

/-- While rank 1 holds the lock of rank 0, of the four tasks one is executed, two are in the
dequeue of rank 0 and the one that rank 1 reads is on its segment. -/
theorem tasks_conserved_in_theft :
    ∃ s, (system twoRanks).Reachable s ∧ At s ⟨0, 0, 0⟩ (.segment 0) ∧ At s ⟨0, 0, 3⟩ (.executed 0) ∧
      TasksConserved twoRanks s := by
  obtain ⟨s, hr, hstate⟩ := Transition.System.exists_reachable twoRanks_init theft
    (fun s => copiesAt s ⟨0, 0, 0⟩ (.segment 0) = 1 ∧ copiesAt s ⟨0, 0, 3⟩ (.executed 0) = 1)
    (by decide +kernel)
  exact ⟨s, hr, (at_iff_copiesAt_pos _).mpr (by omega), (at_iff_copiesAt_pos _).mpr (by omega),
    tasks_conserved hr⟩

end Titus.Tasks
