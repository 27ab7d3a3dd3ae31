import Mathlib
import Titus.Tasks.Session
import Titus.Tasks.TmpSegment

/-! How a rank gets on with its tasks: until it executes the next one or has none left, each of its
steps takes it further along `parallel_work`, and only a thief at its segment makes it wait. -/

namespace Titus.Tasks

variable {n : ℕ} {cfg : Config n} {r q v : Fin n} {s s' : State n} {t t' : RankTasks n}
  {a : Action n} {b : Bool}

/-! ### The points of `parallel_work` in their order -/

/-- The steps to the end of the thefts at most, up to the next task. -/
def WorkPc.workLeft : WorkPc n → ℕ
  | .idle | .barrier | .aborted _ => 0
  | .balancing => 1
  | .returning .thief => 2
  | .unlockingWait => 3
  | .spinning => 4
  | .waiting => 5
  | .returning .last => 6
  | .solving => 7
  | .flushing => 8
  | .loopBody => 9
  | .returning .full => 10
  | .loopHead => 11
  | .shared | .refilled .selfTheft _ | .preparing => 12
  | .sharing | .refilling .selfTheft | .refilled .start _ => 13
  | .detecting | .refilling .start => 14
  | .switching | .starting => 15
  | .solved | .opening => 16
  | .working => 17
  | .ready | .unlockingSelf _ => 18
  | .unlockingVictim _ => 19
  | .readingRest _ => 20
  | .reading _ => 21

theorem Moved.workLeft {pc : WorkPc n} (hm : Moved r t pc)
    (hspin : t.pc = .spinning → t.seg.state = .freeForCopy) :
    pc.workLeft < t.pc.workLeft := by
  cases hm with
  | spinning hpc hst => exact absurd (hspin hpc) hst
  | _ => simp [*, WorkPc.workLeft]

/-- A step of a rank executes a task or takes it to a later point. -/
theorem localNext_workLeft (hs : localNext cfg r t b = some t')
    (hspin : t.pc = .spinning → t.seg.state = .freeForCopy) :
    t'.pc.workLeft < t.pc.workLeft ∨ t.pc = .solving := by
  cases localStepped_of_localNext hs with
  | move pc hm => exact .inl (hm.workLeft hspin)
  | solving hpc => exact .inr hpc
  | failed a hf => cases hf <;> simp [*, WorkPc.workLeft]
  | refilling site hpc => cases site <;> simp [hpc, WorkPc.workLeft]
  | refilled site comp state hpc => cases site <;> simp [hpc, WorkPc.workLeft, RefillSite.resume]
  | unlockingSelf old pc hpc hnext =>
    rcases hnext with rfl | ⟨⟨a, rfl⟩, -⟩ <;> simp [hpc, WorkPc.workLeft]
  | opening hpc | preparing hpc | returningFull hpc | lockingSelf hpc | sharing hpc | shared hpc
  | sharedFailed hpc | unlockingWait hpc =>
    simp [hpc, WorkPc.workLeft]

/-- A step other than the execution of a task neither records one nor adds a result. -/
theorem localNext_executed (hs : localNext cfg r t b = some t') (hpc : t.pc ≠ .solving) :
    t'.executed = t.executed ∧ (t'.tmp.nbResult = t.tmp.nbResult ∨ t'.tmp.nbResult = 0) := by
  cases localStepped_of_localNext hs with
  | solving hp => exact absurd hp hpc
  | preparing | returningFull => exact ⟨rfl, .inr rfl⟩
  | _ => exact ⟨rfl, .inl rfl⟩

/-- The task that a rank executes next. -/
def RankTasks.nextTask (t : RankTasks n) : TaskId n :=
  ⟨t.current, t.dq.ownerTaskRank, t.dq.endTaskId - 1⟩

theorem localNext_solving (hs : localNext cfg r t b = some t') (hpc : t.pc = .solving) :
    t'.executed = t.nextTask :: t.executed := by
  simp only [localNext, hpc] at hs
  cases hs
  rfl

/-- So does a step of a theft. -/
theorem Stepped.workLeft (hs : Stepped cfg s r (.advance b) s')
    (hspin : (s r).pc = .spinning → (s r).seg.state = .freeForCopy) :
    (s' r).pc.workLeft < (s r).pc.workLeft ∨ (s r).pc = .solving := by
  cases hs with
  | own b t ht =>
    rw [Function.update_self]
    exact localNext_workLeft ht hspin
  | readFirst b v len pc hpc hrest =>
    left
    rw [Function.update_self, hpc]
    rcases hrest with ⟨rfl, -⟩ | ⟨rfl, -⟩
    · exact Nat.lt_succ_self 20
    · simp [WorkPc.workLeft]
  | readRest b v hpc =>
    left
    rw [Function.update_self, hpc]
    exact Nat.lt_succ_self 19
  | unlock b v state hpc =>
    left
    rw [Function.update_self, hpc]
    exact Nat.lt_succ_self 18

/-- The points at which a rank does not go on by itself. -/
def WorkPc.blocked : WorkPc n → Bool
  | .idle | .barrier | .balancing | .aborted _ => true
  | _ => false

theorem exists_advance (cfg : Config n) (b : Bool) (hpc : ¬ (s r).pc.blocked)
    (hreturning : ∀ site, (s r).pc = .returning site → (s r).tmp.nbResult = 0) :
    ∃ s', next cfg s (r, .advance b) = some s' := by
  cases hp : (s r).pc with
  | idle | barrier | balancing | aborted =>
    rw [hp] at hpc
    exact absurd rfl hpc
  | reading v =>
    simp only [next, hp, stealNext]
    split
    · exact ⟨_, rfl⟩
    · exact ⟨_, rfl⟩
  | readingRest v | unlockingVictim v =>
    simp only [next, hp, stealNext]
    exact ⟨_, rfl⟩
  | returning site =>
    have hnb := hreturning site hp
    simp only [next, hp, localNext, hnb, if_true]
    cases site with
    | full | last | thief => exact ⟨_, rfl⟩
  | working | loopHead =>
    simp only [next, hp, localNext]
    split
    · exact ⟨_, rfl⟩
    · split
      · exact ⟨_, rfl⟩
      · exact ⟨_, rfl⟩
  | switching =>
    simp only [next, hp, localNext]
    split
    all_goals exact ⟨_, rfl⟩
  | refilled site comp =>
    simp only [next, hp, localNext]
    cases site with
    | start | selfTheft => exact ⟨_, rfl⟩
  | _ =>
    simp only [next, hp, localNext]
    exact ⟨_, rfl⟩

/-! ### Waiting for a thief -/

theorem localNext_spinning (hs : localNext cfg r t b = some t') (hpc : t'.pc = .spinning) :
    t'.seg = t.seg ∧ (t.pc = .spinning ∨ t.seg.state ≠ .noTask) := by
  cases localStepped_of_localNext hs with
  | move pc hm =>
    cases hm with
    | waitingSpinning _ hst => exact ⟨rfl, .inr hst⟩
    | spinning hp => exact ⟨rfl, .inl hp⟩
    | _ => cases hpc
  | refilled site => cases site <;> cases hpc
  | unlockingSelf old pc hp hnext =>
    rcases hnext with rfl | ⟨⟨a, rfl⟩, -⟩ <;> cases hpc
  | _ => cases hpc

/-- A thief does not take the state word of another rank back to `NO_TASK`. -/
theorem Stepped.other_state (hs : Stepped cfg s r a s') (hv : v ≠ r) :
    (s' v).pc = (s v).pc ∧
      ((s v).seg.state ≠ .noTask → (s' v).seg.state ≠ .noTask) := by
  have hswap : ∀ w state t, (state ≠ .noTask ∨ state = (s w).seg.state) →
      (Function.update (Function.update s w (withState (s w) state)) r t v).pc = (s v).pc ∧
        ((s v).seg.state ≠ .noTask → (Function.update (Function.update s w
          (withState (s w) state)) r t v).seg.state ≠ .noTask) := by
    intro w state t hstate
    rw [Function.update_of_ne hv]
    by_cases hw : v = w
    · subst hw
      rw [Function.update_self]
      refine ⟨rfl, fun hne => ?_⟩
      rcases hstate with h | h
      · exact h
      · rwa [h]
    · rw [Function.update_of_ne hw]
      exact ⟨rfl, id⟩
  cases hs with
  | locked w => exact hswap w _ _ (.inl (by simp))
  | unlock b w state hpc hstate =>
    apply hswap
    rw [hstate]
    split
    · exact .inl (by simp)
    · exact .inr rfl
  | _ =>
    rw [Function.update_of_ne hv]
    exact ⟨rfl, id⟩

/-- A rank that spins has seen that its segment is not free, and it becomes so only when a thief
unlocks it. -/
theorem spinning_invariant (cfg : Config n) :
    (system cfg).Invariant fun s => ∀ r, (s r).pc = .spinning → (s r).seg.state ≠ .noTask := by
  constructor
  · intro s h r hpc
    rw [(h r).pc] at hpc
    cases hpc
  · rintro s ⟨r, a⟩ s' - h hs q hpc
    have hstep := stepped_of_next hs
    by_cases hq : q = r
    · subst hq
      cases hstep with
      | own b t ht =>
        rw [Function.update_self] at hpc ⊢
        obtain ⟨hseg, hor⟩ := localNext_spinning ht hpc
        rw [hseg]
        exact hor.elim (h q) id
      | readFirst b v len pc hp hrest =>
        rw [Function.update_self] at hpc
        rcases hrest with ⟨rfl, -⟩ | ⟨rfl, -⟩
        · cases hpc
        · cases hpc
      | pushed site hp =>
        rw [Function.update_self] at hpc
        rw [hp] at hpc
        cases hpc
      | _ =>
        rw [Function.update_self] at hpc
        cases hpc
    · obtain ⟨hpc', hst⟩ := hstep.other_state hq
      rw [hpc'] at hpc
      exact hst (h q hpc)

/-- So a rank that cannot go on from there is robbed. -/
theorem ProtocolOk.robbed_of_spinning (h : ProtocolOk cfg s) (hpc : (s r).pc = .spinning)
    (hst : (s r).seg.state ≠ .noTask) :
    (s r).seg.state = .freeForCopy ∨ ∃ q, (s q).pc.victim = some r := by
  have hok := (h.rank r).pc
  simp only [PcOk, hpc] at hok
  obtain ⟨⟨-, hsegment, hself, havail⟩, -⟩ := hok
  cases hstate : (s r).seg.state with
  | taskAvailable => exact absurd hstate havail
  | freeForCopy => exact .inl rfl
  | noTask => exact absurd hstate hst
  | copyInProgress =>
    simp only [SegmentShared, hstate] at hsegment
  | rank q =>
    have hq : q ≠ r := by
      rintro rfl
      exact hself hstate
    exact .inr ⟨q, (h.lock r q hq).mp hstate⟩

/-! ### Room for two results -/

/-- Where every tmp segment has room for two results, no rank stops at an assertion. -/
theorem running_invariant (hroom : ∀ k, cfg.Accepts k → 2 ≤ resultRoom cfg k) :
    (system cfg).Invariant fun s => ∀ r, WithinMax (s r) := by
  apply ((protocol_invariant cfg).and (tmpRoom_invariant cfg)).of_step
  · intro s hs r
    simp only [WithinMax, (hs r).pc]
  · rintro s ⟨r, a⟩ s' ⟨hok, htmp⟩ h hs q
    have hstep := stepped_of_next hs
    by_cases hq : q = r
    · subst hq
      apply (h q).stepped (hok.rank q) (htmp q) _ hstep
      intro hmax
      -- the room is only known of a rank in a session, and `do_next_task` is called in one
      have hidle : (s q).pc ≠ .idle → False := by
        intro hpc
        have hsess := (hok.rank q).session_eq hpc
        have hmax' := (htmp q).max (by omega)
        have hle := hroom _ ((hok.rank q).accepts hpc)
        simp only at hmax
        omega
      constructor
      · intro hpc
        exact (hidle (by rw [hpc]; rintro ⟨⟩)).elim
      · intro hpc
        exact hidle (by rw [hpc]; rintro ⟨⟩)
    · obtain ⟨state, hstate⟩ := hstep.other hq
      rw [hstate]
      exact h q

theorem WithinMax.pc_ne (h : WithinMax (s r)) (a : Assertion) : (s r).pc ≠ .aborted a := by
  intro hpc
  simp only [WithinMax, hpc] at h

/-! ### The tasks that are left -/

/-- The tasks executed so far. -/
def executedCount (s : State n) : ℕ := Ledger.total (fun _ t => t.executed.length) s

/-- A task is executed by the step of a rank that is about to. -/
theorem Stepped.executed_eq (hs : Stepped cfg s r a s') (q : Fin n) :
    (s' q).executed =
      if q = r ∧ (s r).pc = .solving then (s r).nextTask :: (s q).executed
      else (s q).executed := by
  by_cases hq : q = r
  · subst hq
    simp only [true_and]
    cases hs with
    | own b t ht =>
      rw [Function.update_self]
      split
      · rename_i hpc
        exact localNext_solving ht hpc
      · rename_i hpc
        rw [(localNext_executed ht hpc).1]
    | unlock b v state hpc =>
      rw [Function.update_self, hpc]
      by_cases hv : q = v
      · subst hv
        rw [Function.update_self]
        rfl
      · rw [Function.update_of_ne hv]
        rfl
    | setProblem hpc | leaveBarrier hpc | finish hpc | missed v hpc | locked v hpc
    | pushed site hpc | readFirst b v len pc hpc | readRest b v hpc =>
      rw [Function.update_self, hpc]
      rfl
  · obtain ⟨state, hstate⟩ := hs.other hq
    rw [hstate, if_neg fun hc => hq hc.1]
    rfl

theorem Stepped.executed (hs : Stepped cfg s r a s') (q : Fin n) :
    (s' q).executed.length =
      (s q).executed.length + if q = r ∧ (s r).pc = .solving then 1 else 0 := by
  rw [hs.executed_eq]
  split <;> simp

theorem Stepped.executedCount (hs : Stepped cfg s r a s') :
    executedCount s' = executedCount s + if (s r).pc = .solving then 1 else 0 := by
  simp only [Tasks.executedCount, Ledger.total, hs.executed, Finset.sum_add_distrib]
  congr 1
  simp only [ite_and, Finset.sum_ite_eq', Finset.mem_univ, if_true]

/-- The tasks of the first `k` sessions. -/
def issuedBefore (cfg : Config n) (k : ℕ) : Finset (TaskId n) :=
  (Finset.range k).biUnion fun j => Finset.univ.biUnion fun r =>
    (Finset.range (cfg.nbTask j r)).image fun i => ⟨j, r, i⟩

theorem mem_issuedBefore {k : ℕ} {x : TaskId n} :
    x ∈ issuedBefore cfg k ↔ x.session < k ∧ x.id < cfg.nbTask x.session x.owner := by
  simp only [issuedBefore, Finset.mem_biUnion, Finset.mem_range, Finset.mem_univ, true_and,
    Finset.mem_image]
  constructor
  · rintro ⟨j, hj, r, i, hi, rfl⟩
    exact ⟨hj, hi⟩
  · rintro ⟨hj, hi⟩
    exact ⟨x.session, hj, x.owner, x.id, hi, rfl⟩

/-- No task is executed that was not issued, and none twice. -/
theorem Conserved.executedCount_le (h : Conserved cfg s) {k : ℕ} (hk : ∀ r, (s r).session ≤ k) :
    executedCount s ≤ (issuedBefore cfg k).card := by
  have hcount : ∀ x, ∑ r, (s r).executed.count x ≤ copies s x := by
    intro x
    apply Finset.sum_le_sum
    intro r _
    exact (Nat.le_add_right _ _).trans (Nat.le_add_right _ _)
  have hle : (∑ r, ((s r).executed : Multiset (TaskId n))) ≤ (issuedBefore cfg k).val := by
    apply Multiset.le_iff_count.mpr
    intro x
    rw [Multiset.count_sum', Multiset.count_eq_of_nodup (issuedBefore cfg k).nodup]
    simp only [Multiset.coe_count]
    apply (hcount x).trans
    by_cases hx : Issued cfg s x
    · have hmem : x ∈ (issuedBefore cfg k).val :=
        mem_issuedBefore.mpr ⟨hx.1.trans_le (hk x.owner), hx.2⟩
      rw [h.issued x hx, if_pos hmem]
    · rw [h.rest x hx]
      exact Nat.zero_le _
  have hcard := Multiset.card_le_card hle
  rw [Multiset.card_sum] at hcard
  exact hcard

/-! ### The sessions that are left -/

/-- The number of sessions that some rank has begun. -/
def lastSession (s : State n) : ℕ := Finset.univ.sup fun q => (s q).session

theorem session_le_last (s : State n) (r : Fin n) : (s r).session ≤ lastSession s :=
  Finset.le_sup (f := fun q => (s q).session) (Finset.mem_univ r)

/-- No session is begun in a step that is not a call of `set_problem`, or is one for a session that
another rank has begun. -/
theorem Stepped.lastSession (hs : Stepped cfg s r a s')
    (ha : a = .setProblem → ∃ q, (s r).session < (s q).session) :
    Tasks.lastSession s' = Tasks.lastSession s := by
  apply le_antisymm
  · apply Finset.sup_le
    intro q _
    have hsess := hs.session q
    have hle := session_le_last s q
    split at hsess
    · rename_i hc
      obtain ⟨rfl, rfl⟩ := hc
      obtain ⟨w, hw⟩ := ha rfl
      have hle' := session_le_last s w
      omega
    · omega
  · apply Finset.sup_le
    intro q _
    have hsess := hs.session q
    have hle := session_le_last s' q
    omega

/-- The calls of `set_problem`, the barriers and the returns that a rank has ahead of it in `k`
sessions. -/
def sessionsLeft (k : ℕ) (t : RankTasks n) : ℕ :=
  2 * (2 * k - t.session - t.finished) + if t.pc = .barrier then 1 else 0

section SessionsLeft

variable {k : ℕ} (hs : Stepped cfg s r a s')

include hs

theorem Stepped.sessionsLeft_lt (h : RankOk cfg r (s r)) (hk : (s r).session ≤ k)
    (ha : a = .setProblem ∧ (s r).session < k ∨ a = .leaveBarrier ∨ a = .finish) :
    sessionsLeft k (s' r) < sessionsLeft k (s r) := by
  have hsess := hs.session r
  have hfin := hs.finished r
  rcases ha with ⟨rfl, hlt⟩ | rfl | rfl
  · cases hs with
    | setProblem hpc =>
      have hold := h.session_eq_of_idle hpc
      simp only [true_and, if_true, reduceCtorEq, false_and, if_false] at hsess hfin
      simp only [sessionsLeft, hpc, reduceCtorEq, if_false, hsess, hfin]
      split <;> omega
  · cases hs with
    | leaveBarrier hpc =>
      simp only [sessionsLeft, hpc, if_true, Function.update_self, reduceCtorEq, if_false]
      omega
  · cases hs with
    | finish hpc =>
      have hold := h.session_eq (by rw [hpc]; rintro ⟨⟩)
      simp only [sessionsLeft, hpc, Function.update_self, reduceCtorEq, if_false]
      omega

theorem Stepped.sessionsLeft_le (h : RankOk cfg r (s r)) (hk : (s r).session ≤ k)
    (ha : a = .setProblem → (s r).session < k) (q : Fin n) :
    sessionsLeft k (s' q) ≤ sessionsLeft k (s q) := by
  have hsess := hs.session q
  have hfin := hs.finished q
  by_cases hq : q = r
  · subst hq
    by_cases hlast : a = .setProblem ∨ a = .leaveBarrier ∨ a = .finish
    · exact (hs.sessionsLeft_lt h hk (hlast.imp_left fun hc => ⟨hc, ha hc⟩)).le
    · simp only [not_or] at hlast
      have hin := hs.inSession hlast.1 hlast.2.2
      rw [if_neg fun hc => hlast.1 hc.1] at hsess
      rw [if_neg fun hc => hlast.2.2 hc.1] at hfin
      simp only [sessionsLeft, hsess, hfin, if_neg hin.2]
      omega
  · rw [if_neg fun hc => hq hc.2] at hsess hfin
    simp only [sessionsLeft, hsess, hfin, hs.pc_of_ne hq]
    omega

end SessionsLeft

/-- The tasks that are left to execute in the sessions begun. -/
def unexecuted (cfg : Config n) (s : State n) : ℕ :=
  (issuedBefore cfg (lastSession s)).card - executedCount s

section Unexecuted

variable (hs : Stepped cfg s r a s')
  (ha : a = .setProblem → ∃ q, (s r).session < (s q).session)

include hs ha

theorem Stepped.unexecuted_le : unexecuted cfg s' ≤ unexecuted cfg s := by
  have hcount := hs.executedCount
  simp only [unexecuted, hs.lastSession ha]
  omega

theorem Stepped.unexecuted_lt (hc : Conserved cfg s') (hpc : (s r).pc = .solving) :
    unexecuted cfg s' < unexecuted cfg s := by
  have hcount := hs.executedCount
  have hle := hc.executedCount_le (session_le_last s')
  rw [if_pos hpc] at hcount
  simp only [unexecuted, hs.lastSession ha] at hle ⊢
  omega

end Unexecuted

/-- The tmp segment is filled by the execution of a task only. -/
theorem Stepped.tmp_eq_zero (hs : Stepped cfg s r a s') (hpc : (s r).pc ≠ .solving) (q : Fin n)
    (hq : (s q).tmp.nbResult = 0) : (s' q).tmp.nbResult = 0 := by
  by_cases hqr : q = r
  · subst hqr
    cases hs with
    | own b t ht =>
      rw [Function.update_self]
      exact (localNext_executed ht hpc).2.elim (fun h => h.trans hq) id
    | setProblem | pushed =>
      rw [Function.update_self]
      rfl
    | unlock b v state hpc =>
      rw [Function.update_self]
      by_cases hv : q = v
      · subst hv
        rw [Function.update_self]
        exact hq
      · rw [Function.update_of_ne hv]
        exact hq
    | _ =>
      rw [Function.update_self]
      exact hq
  · obtain ⟨state, hstate⟩ := hs.other hqr
    rw [hstate]
    exact hq

end Titus.Tasks
