import Titus.Tasks.Accounting
import Titus.Tasks.Conservation

/-! What thefts yield.  A rank that has stolen a batch executes a task before it tries to steal
again, so there are no more successful thefts than tasks. -/

namespace Titus.Tasks

variable {n : ℕ} {cfg : Config n} {s s' : State n} {r : Fin n} {t t' : RankTasks n} {T : Tally}

/-- The rank has tasks of which it has executed none since it began to work on them. -/
def untouched (t : RankTasks n) : Bool :=
  match t.pc with
  | .working | .opening | .starting | .refilling .start => true
  | .refilled .start _ | .preparing | .loopHead | .returning .full | .loopBody | .flushing |
    .solving | .aborted _ => 0 < t.dq.nbTask
  | _ => false

/-- Every successful theft has led to the execution of a task, or the rank is about to execute
one. -/
def Yielded (t : RankTasks n) (T : Tally) : Prop :=
  T.hit ≤ t.executed.length + if untouched t then 1 else 0

/-- A step without a theft that succeeds. -/
theorem Yielded.of_le (h : Yielded t T) {T' : Tally} (hhit : T'.hit = T.hit)
    (hexec : t.executed.length ≤ t'.executed.length)
    (hpc : untouched t = true → untouched t' = true) : Yielded t' T' := by
  unfold Yielded at h ⊢
  by_cases ht : untouched t = true
  · rw [if_pos ht] at h
    rw [if_pos (hpc ht), hhit]
    omega
  · rw [if_neg ht] at h
    omega

theorem untouched_of_false (h : untouched t = false) {p : Prop} : untouched t = true → p := by
  rw [h]
  rintro ⟨⟩

theorem hit_advance (h : t.pc.stealing = false) : (T.advance cfg r t).hit = T.hit := by
  cases hpc : t.pc <;> simp only [Tally.advance, hpc]
  rw [hpc] at h
  cases h

/-- A rank with an empty dequeue before its loop has its tasks on the segment. -/
theorem Moved.untouched {pc : WorkPc n} (hm : Moved r t pc) (hok : PcOk cfg r t)
    (ht : Tasks.untouched t = true) : Tasks.untouched { t with pc } = true := by
  cases hm with
  | workingOpening | workingStarting | startingRefilling => rfl
  | startingPreparing hpc hnb =>
    simp only [PcOk, hpc] at hok
    cases hok.2.2 with
    | own hdq hpos hzero => exact decide_eq_true hpos
    | stolen hstate hzero hlive => exact absurd hnb (Nat.ne_of_gt hlive.pos)
  | headLast hpc hempty hst =>
    simp only [Tasks.untouched, hpc, Dequeue.nbTask, hempty, Nat.sub_self] at ht
    cases ht
  | headFull hpc | headBody hpc | headAborted hpc | bodyFlushing hpc | bodySolving hpc
  | flushing hpc =>
    simp only [Tasks.untouched, hpc] at ht
    exact ht
  | _ => exact untouched_of_false (by simp only [Tasks.untouched, *]) ht

/-- The steps of a rank on its own state. -/
theorem Yielded.localNext (h : Yielded t T) (hok : RankOk cfg r t) {b : Bool}
    (hs : localNext cfg r t b = some t') : Yielded t' (T.advance cfg r t) := by
  have hpcok := hok.pc
  cases localStepped_of_localNext hs with
  | move pc hm => exact h.of_le (by rw [hm.advance_eq]) le_rfl (hm.untouched hpcok)
  | failed a hf => exact absurd hf (hpcok.not_fails a)
  | unlockingSelf old pc hpc hnext =>
    obtain rfl := hpcok.pc_eq_working hpc hnext
    simp only [Yielded, untouched, hpc, Bool.false_eq_true, if_false] at h
    simp only [Yielded, untouched, Tally.advance, hpc, Tally.success, withState, if_true]
    omega
  | solving hpc =>
    simp only [Yielded, untouched, hpc] at h
    simp only [Yielded, untouched, Tally.advance, hpc, doNextTask, List.length_cons,
      Bool.false_eq_true, if_false]
    split at h <;> omega
  | opening hpc => exact h.of_le (hit_advance (by rw [hpc]; rfl)) le_rfl fun _ => rfl
  | refilling site hpc =>
    simp only [PcOk, hpc] at hpcok
    refine h.of_le (hit_advance (by rw [hpc]; rfl)) le_rfl fun ht => ?_
    cases site with
    | start =>
      have hpos := hpcok.2.2.2.pos
      have hmoved := (nbTask_moveToDequeue t.dq t.seg).1
      apply decide_eq_true
      rw [hmoved]
      have hmin : nbTaskMin = 2 := rfl
      split <;> omega
    | selfTheft =>
      simp only [untouched, hpc] at ht
      cases ht
  | refilled site comp state hpc =>
    refine h.of_le (hit_advance (by rw [hpc]; rfl)) le_rfl fun ht => ?_
    cases site with
    | start =>
      simp only [untouched, hpc] at ht
      exact ht
    | selfTheft =>
      simp only [untouched, hpc] at ht
      cases ht
  | preparing hpc | returningFull hpc =>
    refine h.of_le (hit_advance (by rw [hpc]; rfl)) le_rfl fun ht => ?_
    simp only [untouched, hpc] at ht
    exact ht
  | lockingSelf hpc | sharing hpc | shared hpc | sharedFailed hpc | unlockingWait hpc =>
    refine h.of_le (hit_advance (by rw [hpc]; rfl)) le_rfl ?_
    exact untouched_of_false (by simp only [untouched, hpc])

theorem hit_miss {victimState : TaskLock n} {nbTask : ℕ} :
    (T.miss victimState nbTask).hit = T.hit := by
  cases victimState <;> rfl

/-- A step of rank `r` by its tally. -/
theorem Yielded.stepped {a : Action n} (h : Yielded (s r) T) (hok : RankOk cfg r (s r))
    (hs : Stepped cfg s r a s') : Yielded (s' r) (T.next cfg s r a) := by
  cases hs with
  | own b t ht =>
    rw [Function.update_self]
    exact h.localNext hok ht
  | missed v hpc hne hst =>
    rw [Function.update_self]
    simp only [Tally.next, if_neg hst]
    refine h.of_le hit_miss le_rfl ?_
    exact untouched_of_false (by simp only [untouched, hpc])
  | locked v hpc hne hst =>
    rw [Function.update_self]
    simp only [Tally.next, if_pos hst]
    refine h.of_le rfl le_rfl ?_
    exact untouched_of_false (by simp only [untouched, hpc])
  | pushed site hpc =>
    rw [Function.update_self]
    exact h.of_le rfl le_rfl id
  | unlock b v state hpc hstate =>
    rw [Function.update_self]
    refine h.of_le (by simp only [Tally.next, Tally.advance, hpc]) ?_ ?_
    · by_cases hv : r = v
      · subst hv
        rw [Function.update_self]
        exact le_rfl
      · rw [Function.update_of_ne hv]
    · exact untouched_of_false (by simp only [untouched, hpc])
  | readFirst b v len pc hpc hrest =>
    rw [Function.update_self]
    refine h.of_le (by simp only [Tally.next, Tally.advance, hpc]) le_rfl ?_
    exact untouched_of_false (by simp only [untouched, hpc])
  | readRest b v hpc =>
    rw [Function.update_self]
    refine h.of_le (by simp only [Tally.next, Tally.advance, hpc]) le_rfl ?_
    exact untouched_of_false (by simp only [untouched, hpc])
  | setProblem hpc | leaveBarrier hpc | finish hpc =>
    rw [Function.update_self]
    refine h.of_le rfl le_rfl ?_
    exact untouched_of_false (by simp only [untouched, hpc])

theorem yielded_invariant (cfg : Config n) :
    (tallied cfg).Invariant fun x => ∀ r, Yielded (x.1 r) (x.2 r) := by
  constructor
  · intro x hx r
    rw [(hx.2 r).2]
    exact Nat.zero_le _
  · rintro x ⟨r, a⟩ x' hr h hs q
    have hok := (protocol_invariant cfg).holds ((tallied_projects cfg).reachable hr)
    obtain ⟨s, hs, heq⟩ := Option.map_eq_some_iff.mp hs
    rw [← heq]
    have hstep := stepped_of_next hs
    by_cases hq : q = r
    · subst hq
      simp only [Function.update_self]
      exact (h q).stepped (hok.rank q) hstep
    · obtain ⟨state, hstate⟩ := hstep.other hq
      simp only [Function.update_of_ne hq, hstate]
      exact h q

/-! ### All ranks -/

/-- The tasks of all problems that have been passed to `set_problem`. -/
def issuedTasks (cfg : Config n) (s : State n) : Finset (TaskId n) :=
  Finset.univ.biUnion fun r => (Finset.range (s r).session).biUnion fun k =>
    (Finset.range (cfg.nbTask k r)).image fun i => ⟨k, r, i⟩

theorem mem_issuedTasks {x : TaskId n} (h : Issued cfg s x) : x ∈ issuedTasks cfg s := by
  simp only [issuedTasks, Finset.mem_biUnion, Finset.mem_univ, true_and, Finset.mem_range,
    Finset.mem_image]
  exact ⟨x.owner, x.session, h.1, x.id, h.2, rfl⟩

theorem card_issuedTasks_le (cfg : Config n) (s : State n) :
    (issuedTasks cfg s).card ≤ ∑ r, ∑ k ∈ Finset.range (s r).session, cfg.nbTask k r := by
  apply Finset.card_biUnion_le.trans
  apply Finset.sum_le_sum
  intro r _
  apply Finset.card_biUnion_le.trans
  apply Finset.sum_le_sum
  intro k _
  apply Finset.card_image_le.trans
  rw [Finset.card_range]

/-- No more tasks are executed than there are. -/
theorem sum_executed_le (hr : (system cfg).Reachable s) :
    ∑ r, (s r).executed.length ≤ ∑ r, ∑ k ∈ Finset.range (s r).session, cfg.nbTask k r := by
  have hc := tasks_conserved hr
  have hcopies := (conserved_invariant cfg).holds hr
  apply (Ledger.sum_length_le_card (S := issuedTasks cfg s) ?_ ?_).trans
    (card_issuedTasks_le cfg s)
  · intro x
    have hle : ∑ r, (s r).executed.count x ≤ copies s x := by
      apply Finset.sum_le_sum
      intro r _
      simp only [held]
      omega
    apply hle.trans
    by_cases hx : Issued cfg s x
    · exact (hcopies.issued x hx).le
    · exact (hcopies.rest x hx).le.trans (Nat.zero_le 1)
  · intro r x hx
    exact mem_issuedTasks (hc.only x (.executed r) hx)

/-- In every reachable state, a rank has executed as many tasks as it has made successful thefts, or
one less while it has not begun the batch of the last one.  So the successful thefts of all ranks
are at most as many as the tasks of all problems, and one more a rank. -/
theorem hits_le_tasks {x : Tallied n} (hr : (tallied cfg).Reachable x) :
    (∀ r, (x.2 r).hit ≤ (x.1 r).executed.length + 1) ∧
      (∀ r, (x.1 r).pc = .balancing → (x.2 r).hit ≤ (x.1 r).executed.length) ∧
      ∑ r, (x.2 r).hit ≤ (∑ r, ∑ k ∈ Finset.range (x.1 r).session, cfg.nbTask k r) + n := by
  have hyield := (yielded_invariant cfg).holds hr
  have hrank : ∀ r, (x.2 r).hit ≤ (x.1 r).executed.length + 1 := by
    intro r
    apply (hyield r).trans
    split <;> omega
  refine ⟨hrank, fun r hpc => ?_, ?_⟩
  · have hr := hyield r
    simp only [Yielded, untouched, hpc, Bool.false_eq_true, if_false] at hr
    exact hr
  · calc
      ∑ r, (x.2 r).hit ≤ ∑ r, ((x.1 r).executed.length + 1) := Finset.sum_le_sum fun r _ => hrank r
      _ = ∑ r, (x.1 r).executed.length + n := by simp [Finset.sum_add_distrib]
      _ ≤ _ := Nat.add_le_add_right (sum_executed_le ((tallied_projects cfg).reachable hr)) n

/-- Rank 1 has stolen a task and has not executed it yet. -/
theorem hits_le_tasks_after_theft :
    ∃ x, (tallied twoRanks).Reachable x ∧ (x.2 1).hit = 1 ∧ (x.1 1).executed = [] ∧
      ∑ r, (x.2 r).hit ≤
        (∑ r, ∑ k ∈ Finset.range (x.1 r).session, twoRanks.nbTask k r) + 2 := by
  obtain ⟨x, hr, hhit, hexec⟩ := Transition.System.exists_reachable
    tallied_init (theft ++ List.replicate 3 (1, .advance false))
    (fun x => (x.2 1).hit = 1 ∧ (x.1 1).executed = []) (by decide +kernel)
  exact ⟨x, hr, hhit, hexec, (hits_le_tasks hr).2.2⟩

end Titus.Tasks
