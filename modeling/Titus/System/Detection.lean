import Titus.Results.SegmentInvariant
import Titus.System.InvariantSteps
import Titus.Tasks.SegmentLock

/-! Termination detection is safe: when a rank detects the end of a session, nothing of the session
is left anywhere but the results that their owners have, and no flag is incremented twice in a
session of the rank that has it. -/

namespace Titus.System

variable {n : ℕ} {cfg : Config n} {net : Results.Network n} {s s' : State n} {r v : Fin n}

/-! ### The flags along a run -/

/-- The words of `TerminationDetectionData`. -/
inductive Flag
  | leftChildSubtreeTermination
  | rightChildSubtreeTermination
  | globalTerminationDetected
deriving DecidableEq

def Flag.value : Flag → TerminationStatus → ℕ
  | .leftChildSubtreeTermination, f => f.leftChildSubtreeTermination
  | .rightChildSubtreeTermination, f => f.rightChildSubtreeTermination
  | .globalTerminationDetected, f => f.globalTerminationDetected

/-- The value of a flag of rank `v`. -/
def flagAt (s : State n) (v : Fin n) (flag : Flag) : ℕ :=
  flag.value (s.control v).terminationStatus

/-- How often a flag of rank `v` is incremented along the actions `as` from `s`. -/
def increments (cfg : Config n) (net : Results.Network n) (v : Fin n) (flag : Flag) :
    State n → List (Fin n × Action n) → ℕ
  | _, [] => 0
  | s, a :: as =>
    match next cfg net s a with
    | none => 0
    | some s' => flagAt s' v flag - flagAt s v flag + increments cfg net v flag s' as

section Flags

variable {flag : Flag}

theorem flagAt_le_one (ht : TasksOk cfg s.tasks) (hd : TerminationOk s) (v : Fin n)
    (flag : Flag) : flagAt s v flag ≤ 1 := by
  obtain ⟨hleft, hright, hglobal⟩ := flags_le_one ht hd v
  cases flag with
  | leftChildSubtreeTermination => exact hleft
  | rightChildSubtreeTermination => exact hright
  | globalTerminationDetected => exact hglobal

theorem flagAt_le_setControl {c : Control} {tasks : Tasks.State n} {results : Results.State n}
    (hc : v = r → flag.value (s.control v).terminationStatus ≤ flag.value c.terminationStatus) :
    flagAt s v flag ≤ flagAt ((⟨tasks, results, s.control⟩ : State n).setControl r c) v flag := by
  unfold flagAt
  rw [State.control_setControl]
  by_cases hv : v = r
  · subst hv
    rw [Function.update_self]
    exact hc rfl
  · rw [Function.update_of_ne hv]

theorem flagAt_le_addFlag (s : State n) (q : Fin n) {add : TerminationStatus → TerminationStatus}
    (hadd : ∀ f, flag.value f ≤ flag.value (add f)) (p : Point) :
    flagAt s v flag ≤ flagAt ((s.addFlag q add).setPoint r p) v flag := by
  unfold flagAt
  rw [control_addFlag_setPoint]
  simp only
  split
  · exact hadd _
  · exact le_rfl

theorem value_le_add {add : TerminationStatus → TerminationStatus}
    (hadd : add = addLeft ∨ add = addRight ∨ add = addGlobal) (f : TerminationStatus) :
    flag.value f ≤ flag.value (add f) := by
  rcases hadd with rfl | rfl | rfl <;> cases flag <;>
    simp [Flag.value, addLeft, addRight, addGlobal]

/-- A rank finishes no session but by a step of its own. -/
theorem Stepped.finished_le (hs : Stepped cfg net s r s') (v : Fin n) :
    (s.tasks v).finished ≤ (s'.tasks v).finished := by
  rcases hs.tasks_step with heq | ⟨a, ha⟩
  · rw [heq]
  · rw [(Tasks.stepped_of_next ha).finished]
    exact Nat.le_add_right _ _

/-- Until a rank finishes its session its flags only grow. -/
theorem Stepped.flagAt_le (flag : Flag) (ht : TasksOk cfg s.tasks) (hd : TerminationOk s)
    (hs : Stepped cfg net s r s') (hfin : (s'.tasks v).finished = (s.tasks v).finished) :
    flagAt s v flag ≤ flagAt s' v flag := by
  cases hs with
  | move | tasks | results | push | reach | pass =>
    apply flagAt_le_setControl
    rintro rfl
    exact le_rfl
  | report hpoint =>
    apply flagAt_le_addFlag
    apply value_le_add
    split
    · exact .inl rfl
    · exact .inr (.inl rfl)
  | forward c p hf =>
    apply flagAt_le_addFlag
    exact value_le_add (.inr (.inr rfl))
  | finish tasks hpoint hnext =>
    have hstep := (Tasks.stepped_of_next hnext).finished v
    simp only [State.tasks_setControl] at hfin
    have hv : v ≠ r := by
      rintro rfl
      rw [if_pos ⟨rfl, rfl⟩] at hstep
      omega
    apply flagAt_le_setControl
    intro heq
    exact absurd heq hv
  | setProblem tasks hpoint hnext =>
    have hidle : (s.tasks r).pc = .idle := by
      cases Tasks.stepped_of_next hnext
      assumption
    apply flagAt_le_setControl
    rintro rfl
    rw [flags_eq_reset ht hd ((ht.protocol.rank v).session_eq_of_idle hidle)]

theorem finished_le_run (as : List (Fin n × Action n))
    (hrun : (system cfg net).run s as = some s') (v : Fin n) :
    (s.tasks v).finished ≤ (s'.tasks v).finished := by
  induction as generalizing s with
  | nil =>
    cases hrun
    exact le_rfl
  | cons a as ih =>
    obtain ⟨t, hstep, hrest⟩ := Option.bind_eq_some_iff.mp hrun
    obtain ⟨q, a⟩ := a
    exact ((stepped_of_next hstep).finished_le v).trans (ih hrest)

/-- While a rank is in one session the increments of a flag of it add up to its value. -/
theorem increments_add_flagAt (flag : Flag) (hr : (system cfg net).Reachable s)
    (as : List (Fin n × Action n)) (hrun : (system cfg net).run s as = some s')
    (hfin : (s'.tasks v).finished = (s.tasks v).finished) :
    increments cfg net v flag s as + flagAt s v flag = flagAt s' v flag := by
  induction as generalizing s with
  | nil =>
    cases hrun
    exact Nat.zero_add _
  | cons a as ih =>
    obtain ⟨t, hstep, hrest⟩ := Option.bind_eq_some_iff.mp hrun
    obtain ⟨q, a⟩ := a
    have ht := tasksOk_of_reachable hr
    have hd := (termination_invariant cfg net).holds hr
    have hstepped := stepped_of_next hstep
    have h1 := hstepped.finished_le v
    have h2 := finished_le_run as hrest v
    have hle := hstepped.flagAt_le flag ht hd (v := v) (by omega)
    have hind := ih (hr.step hstep) hrest (by omega)
    simp only [increments, show next cfg net s (q, a) = some t from hstep]
    omega

end Flags

/-! ### The end of a session -/

/-- Nothing of session `k` is left but the results that their owners have. -/
structure SessionOver (cfg : Config n) (s : State n) (k : ℕ) : Prop where
  /-- Every rank that has not returned yet has all its results, -/
  nbResult : ∀ d, (s.tasks d).finished = k →
    (s.results.rank d).nbResult = (s.results.rank d).nbUsrResults ∧
      (s.results.rank d).nbUsrResults = cfg.nbTask k d
  /-- and so had every other, which has finished that session last. -/
  finished : ∀ d, (s.tasks d).finished ≠ k → (s.tasks d).finished = k + 1
  complete : ∀ d, Complete cfg s k d
  dequeue : ∀ q x, x.session = k → ¬ Tasks.At s.tasks x (.dequeue q)
  segment : ∀ q x, x.session = k → ¬ Tasks.At s.tasks x (.segment q)
  tmp : ∀ q x, x.session = k → ¬ (s.tasks q).tmp.Contains (s.tasks q).current x
  /-- No element is on a segment, in `local_transiting_results` or in between. -/
  emptied : ∀ q, Results.Emptied (s.results.segment q) (s.results.rank q)
  submitted : ∀ e p, Results.At s.results e p → p.1 = .submitted

/-- What `termination_detection` and `load_balancing` promise in state `s`. -/
structure DetectionSafe (cfg : Config n) (net : Results.Network n) (s : State n) : Prop where
  /-- When `load_balancing` returns `FINISHED` the session is over. -/
  finishing : ∀ r, (s.control r).point = .finishing → SessionOver cfg s (s.tasks r).current
  /-- The assertions at the end of `parallel_work` hold. -/
  leaving : ∀ r, (s.control r).point = .leaving →
    (s.results.rank r).localTransitingResults = [] ∧ (s.tasks r).seg.nbTask = 0 ∧
      (s.tasks r).tmp.nbResult = 0 ∧
      Results.isEmpty (s.results.segment r) (s.results.rank r)
  /-- A rank that increments the flag of a child finds 0 there. -/
  valueOld : ∀ r c p, Forwards s r c p → flagAt s c .globalTerminationDetected = 0
  /-- Every flag of a rank is incremented at most once until the rank finishes its session. -/
  once : ∀ v flag as s', (system cfg net).run s as = some s' →
    (s'.tasks v).finished = (s.tasks v).finished → increments cfg net v flag s as ≤ 1
  /-- No assertion fails. -/
  running : ∀ r a, (s.control r).point ≠ .aborted a
  failed : ∀ r, (s.results.rank r).failed = none

section Over

variable {k : ℕ} {x : TaskId n}

/-- A task of a session that all ranks have all their results of is executed, and its result is
submitted. -/
theorem unheld_of_complete (ht : TasksOk cfg s.tasks) (h : SystemOk cfg net s)
    (hall : ∀ d, Complete cfg s k d) (hx : x.session = k) (q : Fin n) :
    (s.tasks q).tmp.copies (s.tasks q).current x = 0 ∧
      (s.tasks q).dq.copies (s.tasks q).current x = 0 ∧
      (Tasks.segmentLive (s.tasks q) → (s.tasks q).seg.copies (s.tasks q).current x = 0) := by
  by_cases hissued : Tasks.Issued cfg s.tasks x
  · obtain ⟨session, owner, id⟩ := x
    subst hx
    have hsettled := (hall owner).settled h.conserved h.ledger ht hissued.2
    exact ⟨hsettled.tmp q, hsettled.dequeue q, hsettled.segment q⟩
  · have htotal := total_copies h.conserved h.ledger x
    rw [ht.conserved.rest x hissued] at htotal
    have htmp := Finset.sum_eq_zero_iff.mp (by omega : ∑ r,
      (s.tasks r).tmp.copies (s.tasks r).current x = 0) q (Finset.mem_univ q)
    have hdq := Finset.sum_eq_zero_iff.mp (by omega : ∑ r,
      (s.tasks r).dq.copies (s.tasks r).current x = 0) q (Finset.mem_univ q)
    have hseg := Finset.sum_eq_zero_iff.mp (by omega : ∑ r,
      (if Tasks.segmentLive (s.tasks r) then
        (s.tasks r).seg.copies (s.tasks r).current x else 0) = 0) q (Finset.mem_univ q)
    refine ⟨htmp, hdq, ?_⟩
    intro hlive
    rwa [if_pos hlive] at hseg

variable (ht : TasksOk cfg s.tasks) (hd : TerminationOk s) (h : SystemOk cfg net s)

include ht hd h

/-- A rank that detects the end of its session is right. -/
theorem sessionOver_of_detected (hdet : (s.control r).point.detected) :
    SessionOver cfg s (s.tasks r).current := by
  have hin := inSession_of_detected (hd.control r).point hdet
  have hsess := (ht.protocol.rank r).session_eq hin.1
  have hcur := Tasks.RankTasks.current_eq hsess
  have hended : (s.tasks r).current < ended s r := by
    rw [ended, hdet, hcur]
    exact Nat.lt_succ_self _
  have hall := complete_of_lt_ended ht hd h hended
  have hsub := allSubmitted_of_detected ht hd h hdet
  constructor
  · intro d hfin
    have hle := ht.session_le hin d
    have hbound := (ht.session_bounds d).2
    have hacc := h.account d
    have hcur' : (s.tasks d).current = (s.tasks r).current := by
      simp only [Tasks.RankTasks.current] at hcur hfin ⊢
      omega
    have husr := hacc.nbUsrResults (by omega)
    have hnb := hacc.nbResult (by omega)
    rw [hcur'] at husr hnb
    exact ⟨by rw [hnb, husr]; exact hall d, husr⟩
  · intro d hfin
    have hle := ht.finished_le d r
    have hge := ht.session_le hin d
    have hbound := (ht.session_bounds d).2
    omega
  · exact hall
  · intro q x hx hat
    have hzero := (unheld_of_complete ht h hall hx q).2.1
    simp only [Tasks.At] at hat
    rw [Tasks.Dequeue.copies, if_pos hat] at hzero
    cases hzero
  · rintro q x hx ⟨hlive, hat⟩
    have hzero := (unheld_of_complete ht h hall hx q).2.2 hlive
    rw [Tasks.MetadataTask.copies, if_pos hat] at hzero
    cases hzero
  · intro q x hx hat
    have hzero := (unheld_of_complete ht h hall hx q).1
    rw [Tasks.MetadataTmp.copies, if_pos hat] at hzero
    cases hzero
  · exact Results.emptied h.results hsub
  · exact hsub

end Over

/-- In every reachable state of any number of ranks termination detection is safe. -/
theorem termination_detection_safe (hr : (system cfg net).Reachable s) :
    DetectionSafe cfg net s := by
  have ht := tasksOk_of_reachable hr
  have hd := (termination_invariant cfg net).holds hr
  have h := (system_invariant cfg net).holds hr
  constructor
  · intro r hpoint
    apply sessionOver_of_detected ht hd h
    rw [hpoint]
    rfl
  · exact fun r => empty_of_leaving ht hd h
  · exact fun r c p hf => (hf.fresh ht hd).1
  · intro v flag as s' hrun hfin
    have hsum := increments_add_flagAt flag hr as hrun hfin
    have hreach := hr.run hrun
    have hle := flagAt_le_one (tasksOk_of_reachable hreach)
      ((termination_invariant cfg net).holds hreach) v flag
    omega
  · exact h.running
  · exact fun r => (h.account r).failed

/-! ### A run of two ranks -/

/-- Two ranks before their first session. -/
def started : State 2 where
  tasks := Tasks.created
  results := Results.constructed
  control r := ⟨resetFlags r, false, .entry⟩

theorem started_init : (system Tasks.twoRanks (Results.direct 2)).init started :=
  ⟨Tasks.twoRanks_init, Results.constructed_init, fun _ => ⟨rfl, rfl, rfl⟩⟩

/-- Rank `r` goes on for `k` steps. -/
def advances (k : ℕ) (r : Fin 2) : List (Fin 2 × Action 2) := List.replicate k (r, .advance false)

/-- Rank 1, whose subtree is done at once, steals a task from rank 0 and sends the result back; rank
0 executes the others, and detects the end of the session. -/
def stealAndDetect : List (Fin 2 × Action 2) :=
  [(0, .setProblem), (1, .setProblem)] ++ advances 1 0 ++ advances 1 1 ++ advances 12 0 ++
    advances 8 1 ++ [(1, .select 0)] ++ advances 28 1 ++ [(1, .deliver 0)] ++ advances 23 1 ++
    [(0, .land 0 0), (0, .deliver 0)] ++ advances 38 0

theorem termination_detection_safe_after_theft :
    ∃ s, (system Tasks.twoRanks (Results.direct 2)).Reachable s ∧
      (s.control 0).point = .finishing ∧ (s.results.rank 0).nbResult = 4 ∧
      (s.tasks 1).executed = [⟨0, 0, 0⟩] ∧ DetectionSafe Tasks.twoRanks (Results.direct 2) s := by
  obtain ⟨s, hr, hpoint, hnb, hexec⟩ := Transition.System.exists_reachable started_init
    stealAndDetect (fun s => (s.control 0).point = .finishing ∧
      (s.results.rank 0).nbResult = 4 ∧ (s.tasks 1).executed = [⟨0, 0, 0⟩]) (by decide +kernel)
  exact ⟨s, hr, hpoint, hnb, hexec, termination_detection_safe hr⟩

end Titus.System
