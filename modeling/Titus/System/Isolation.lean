import Titus.System.Detection

/-! Sessions are isolated: what a rank does to another is done while both are in the same session and
the other has not detected its end, and nothing is on its way to a rank that has.  So a rank that
rebuilds its metadata for the next session finds them as they were when it began. -/

namespace Titus.System

open Results (AllSubmitted)

variable {n : ℕ} {cfg : Config n} {net : Results.Network n} {s s' : State n} {r v q : Fin n}

/-- A step changes what rank `v` has: its tasks and task segment, its result segment and the results
that it keeps, its flags, or where it is. -/
def Touched (s s' : State n) (v : Fin n) : Prop :=
  s'.tasks v ≠ s.tasks v ∨ s'.results.segment v ≠ s.results.segment v ∨
    s'.results.rank v ≠ s.results.rank v ∨ s'.control v ≠ s.control v

/-- Ranks `r` and `v` are in the same session, and rank `v` has not detected its end. -/
structure SameSession (s : State n) (r v : Fin n) : Prop where
  session : (s.tasks r).session = (s.tasks v).session
  finished : (s.tasks r).finished = (s.tasks v).finished
  inside : (s.tasks v).session = (s.tasks v).finished + 1
  undetected : ¬ (s.control v).point.detected

/-- Writes or notifications to the result segment of rank `v` are posted, reserved or not consumed
yet. -/
def InFlight (s : State n) (v : Fin n) : Prop :=
  (s.results.segment v).inbox ≠ [] ∨ (∃ q, Results.carriedTo s.results v q ≠ none) ∨
    ∃ i, (s.results.segment v).notifications i ≠ 0

/-- The metadata of rank `r` are as at the start of a session. -/
structure Fresh (s : State n) (r : Fin n) : Prop where
  state : (s.tasks r).seg.state = .noTask
  nbTask : (s.tasks r).seg.nbTask = 0
  resultState : (s.results.segment r).state = .segmentAvailable
  buffer : (s.results.segment r).bufferTail = (s.results.segment r).bufferHead
  bufferEltCount : (s.results.segment r).bufferEltCount = 0
  reserved : (s.results.segment r).reserved = []
  quiet : ¬ InFlight s r
  localTransitingResults : (s.results.rank r).localTransitingResults = []
  terminationStatus : (s.control r).terminationStatus = resetFlags r
  subtreeTermintionReached : (s.control r).subtreeTermintionReached = false

/-- What isolation says of state `s`. -/
structure SessionIsolated (cfg : Config n) (net : Results.Network n) (s : State n) : Prop where
  /-- What a step of a rank changes of another is of the session of both. -/
  remote : ∀ r a s' v, next cfg net s (r, a) = some s' → v ≠ r → Touched s s' v →
    SameSession s r v
  /-- While something is on its way to a rank all ranks are in one session, -/
  inFlight : ∀ v, InFlight s v → ∀ q, SameSession s v q
  /-- and what is written is of this session. -/
  writes : ∀ v, ∀ b ∈ (s.results.segment v).inbox, ∀ w ∈ b.writes,
    w.2.batch.session = (s.tasks v).current
  /-- A rank that rebuilds its metadata wipes nothing, and enters the barrier as at the start. -/
  entered : ∀ r s', next cfg net s (r, .setProblem) = some s' → Fresh s r ∧ Fresh s' r

section Isolation

variable (ht : TasksOk cfg s.tasks) (hd : TerminationOk s) (h : SystemOk cfg net s)

/-- A rank that is past the barrier is in one session with every rank that has finished as many. -/
theorem sameSession_of_inSession (ht : TasksOk cfg s.tasks) (hr : Tasks.InSession (s.tasks r).pc)
    (hv : (s.tasks r).finished = (s.tasks v).finished) (hdet : ¬ (s.control v).point.detected) :
    SameSession s r v := by
  have hsess := (ht.protocol.rank r).session_eq hr.1
  have hle := ht.session_le hr v
  have hbound := (ht.session_bounds v).2
  exact ⟨by omega, hv, by omega, hdet⟩

theorem not_detected_of_open (hd : TerminationOk s) (ho : Tasks.Open (s.tasks v)) :
    ¬ (s.control v).point.detected := by
  intro hdet
  have hplace := (hd.control v).point
  have hpc : (s.tasks v).pc = .balancing := by
    revert hplace hdet
    cases (s.control v).point <;> simp [Point.detected, PointOk]
  simp only [Tasks.Open, hpc] at ho

/-- A thief changes the segment of a victim that works in the thief's session. -/
theorem sameSession_of_theft (ht : TasksOk cfg s.tasks) (hd : TerminationOk s)
    {a : Tasks.Action n} {tasks : Tasks.State n}
    (hs : Tasks.next cfg s.tasks (r, a) = some tasks) (hv : v ≠ r)
    (hne : tasks v ≠ s.tasks v) : SameSession s r v := by
  have hopen : Tasks.Open (s.tasks v) ∧ Tasks.InSession (s.tasks r).pc := by
    cases Tasks.stepped_of_next hs with
    | locked w hpc hw hst =>
      have hvw : v = w := by
        by_contra hno
        rw [Function.update_of_ne hv, Function.update_of_ne hno] at hne
        exact hne rfl
      subst hvw
      refine ⟨(ht.protocol.rank v).open_of_available hst, ?_⟩
      rw [hpc]
      constructor <;> rintro ⟨⟩
    | unlock b w state hpc hstate =>
      have hvw : v = w := by
        by_contra hno
        rw [Function.update_of_ne hv, Function.update_of_ne hno] at hne
        exact hne rfl
      subst hvw
      have hlock := (ht.protocol.lock v r hv.symm).mpr (by rw [hpc]; rfl)
      refine ⟨(ht.protocol.rank v).open_of_rank hlock hv.symm, ?_⟩
      rw [hpc]
      constructor <;> rintro ⟨⟩
    | _ =>
      rw [Function.update_of_ne hv] at hne
      exact absurd rfl hne
  obtain ⟨ho, hr⟩ := hopen
  have hin : Tasks.InSession (s.tasks v).pc := by
    constructor <;> intro hpc <;> simp only [Tasks.Open, hpc] at ho
  apply sameSession_of_inSession ht hr _ (not_detected_of_open hd ho)
  have h1 := (ht.protocol.rank r).session_eq hr.1
  have h2 := (ht.protocol.rank v).session_eq hin.1
  have h3 := ht.protocol.session r hr v
  have h4 := ht.protocol.session v hin r
  omega

include ht hd h in
/-- While an element is not submitted all ranks are in one session. -/
theorem sameSession_of_unsubmitted (hno : ¬ AllSubmitted s.results) (r v : Fin n) :
    SameSession s r v := by
  have hdet : ¬ (s.control v).point.detected := fun hv => hno (allSubmitted_of_detected ht hd h hv)
  simp only [AllSubmitted, not_forall] at hno
  obtain ⟨e, p, he, hp⟩ := hno
  have hr := session_of_at ht hd h he hp r
  have hv := session_of_at ht hd h he hp v
  exact ⟨by rw [hr.2, hv.2], by rw [hr.1, hv.1], by rw [hv.1, hv.2], hdet⟩

/-- Only a push changes the result segment of another rank. -/
theorem push_of_segment_ne {a : Results.Action n} {t t' : Results.State n}
    (hs : Results.Stepped net t r a t') (hv : v ≠ r) (hne : t'.segment v ≠ t.segment v) :
    (t.rank r).pc.push ≠ none := by
  have hself : ∀ m u, ((t.setSegment r m).setRank r u).segment v = t.segment v :=
    fun m u => Function.update_of_ne hv _ _
  cases hs with
  | lockTaken p hpc | addHead p res hpc | addCount p res hpc | releaseEmpty p res hpc
  | release p res hpc | post p res hpc =>
    rw [hpc]
    rintro ⟨⟩
  | lockOwn | consume | purge | unlockOwn => exact absurd (hself _ _) hne
  | land | deliver => exact absurd (Function.update_of_ne hv _ _) hne
  | _ => exact absurd rfl hne

include ht hd h in
theorem sameSession_of_results {a : Results.Action n} {results : Results.State n}
    (hs : Results.next net s.results (r, a) = some results) (hv : v ≠ r)
    (hne : results.segment v ≠ s.results.segment v ∨ results.rank v ≠ s.results.rank v) :
    SameSession s r v := by
  have hst := h.results.stepped hs
  apply sameSession_of_unsubmitted ht hd h
  intro hall
  rcases hne with hne | hne
  · exact push_of_segment_ne hst hv hne (Results.push_eq_none h.results hall r)
  · exact hne (hst.rank_of_ne hv)

omit h in
include ht hd in
/-- A rank tells its parent that its subtree is done while the parent is in the same session. -/
theorem sameSession_of_report (hpoint : (s.control r).point = .reporting) (hr : 0 < r.val) :
    SameSession s r (HeapTree.parent r) := by
  have hin := ((hd.control r).reached ((hd.control r).reporting hpoint)).2.1
  have hreports : reports s r = (s.tasks r).finished := by
    simp [reports, Control.reported, hpoint, Point.detected]
  have hchild := hd.flags.child r hr
  have hle := ht.session_le hin (HeapTree.parent r)
  have hbound := (ht.session_bounds (HeapTree.parent r)).2
  apply sameSession_of_inSession ht hin (by omega)
  intro hdet
  -- the parent would have seen the flag that is not incremented yet
  have hdone := done_parent_le hd hr
  have hreported : (s.control (HeapTree.parent r)).reported = true := by
    rw [Control.reported, hdet, Bool.true_or]
  rw [show done s r = reports s r from if_neg (by omega), hreports] at hdone
  unfold done ended reports at hdone
  rw [hdet, hreported] at hdone
  simp only [Bool.toNat_true] at hdone
  split at hdone <;> omega

omit h in
include ht hd in
theorem sameSession_of_forward {p : Point} (hf : Forwards s r v p) : SameSession s r v := by
  obtain ⟨hzero, hfin⟩ := hf.fresh ht hd
  have hin := inSession_of_detected (hd.control r).point hf.detected.1
  apply sameSession_of_inSession ht hin hfin.symm
  intro hdet
  have hpos := (hd.control v).global hdet (by have := hf.child.1; omega)
  omega

/-- What a change of the control of rank `r` leaves of another. -/
theorem not_touched_setControl {tasks : Tasks.State n} {results : Results.State n} {c : Control}
    (hv : v ≠ r) (htasks : tasks v = s.tasks v)
    (hsegment : results.segment v = s.results.segment v)
    (hrank : results.rank v = s.results.rank v) :
    ¬ Touched s (State.setControl ⟨tasks, results, s.control⟩ r c) v := by
  rintro (hne | hne | hne | hne)
  · exact hne htasks
  · exact hne hsegment
  · exact hne hrank
  · rw [State.control_setControl, Function.update_of_ne hv] at hne
    exact hne rfl

/-- An increment of a flag of rank `q` is all that another step of rank `r` changes. -/
theorem eq_of_touched_addFlag {add : TerminationStatus → TerminationStatus} {p : Point}
    (hv : v ≠ r) (htouched : Touched s ((s.addFlag q add).setPoint r p) v) : v = q := by
  by_contra hno
  rcases htouched with hne | hne | hne | hne
  · exact hne rfl
  · exact hne rfl
  · exact hne rfl
  · rw [control_addFlag_setPoint] at hne
    simp only [if_neg hno, if_neg hv] at hne
    exact hne rfl

include ht hd h in
theorem sameSession_of_touched (hs : Stepped cfg net s r s') (hv : v ≠ r)
    (htouched : Touched s s' v) : SameSession s r v := by
  cases hs with
  | move | reach | pass => exact absurd htouched (not_touched_setControl hv rfl rfl rfl)
  | tasks a tasks hcall hnext =>
    by_cases heq : tasks v = s.tasks v
    · exact absurd htouched (not_touched_setControl hv heq rfl rfl)
    · exact sameSession_of_theft ht hd hnext hv heq
  | results a p results hcall hnext =>
    by_cases hsegment : results.segment v = s.results.segment v
    · by_cases hrank : results.rank v = s.results.rank v
      · exact absurd htouched (not_touched_setControl hv rfl hsegment hrank)
      · exact sameSession_of_results ht hd h hnext hv (.inr hrank)
    · exact sameSession_of_results ht hd h hnext hv (.inl hsegment)
  | push owner tasks results hpoint hnb howner hnext htasks =>
    by_cases heq : tasks v = s.tasks v
    · by_cases hsegment : results.segment v = s.results.segment v
      · by_cases hrank : results.rank v = s.results.rank v
        · exact absurd htouched (not_touched_setControl hv heq hsegment hrank)
        · exact sameSession_of_results ht hd h hnext hv (.inr hrank)
      · exact sameSession_of_results ht hd h hnext hv (.inl hsegment)
    · exact sameSession_of_theft ht hd htasks hv heq
  | report hpoint =>
    rw [eq_of_touched_addFlag hv htouched]
    apply sameSession_of_report ht hd hpoint
    have hreached := (hd.control r).reached ((hd.control r).reporting hpoint)
    exact Nat.pos_of_ne_zero hreached.1
  | forward c p hf =>
    have heq : v = c := eq_of_touched_addFlag hv htouched
    subst heq
    exact sameSession_of_forward ht hd hf
  | finish tasks hpoint hnext =>
    by_cases heq : tasks v = s.tasks v
    · exact absurd htouched (not_touched_setControl hv heq (Function.update_of_ne hv _ _)
        (Function.update_of_ne hv _ _))
    · exact sameSession_of_theft ht hd hnext hv heq
  | setProblem tasks hpoint hnext =>
    by_cases heq : tasks v = s.tasks v
    · exact absurd htouched (not_touched_setControl hv heq (Function.update_of_ne hv _ _)
        (Function.update_of_ne hv _ _))
    · exact sameSession_of_theft ht hd hnext hv heq

/-- Nothing is on its way when every element has been submitted. -/
theorem not_inFlight (hok : Results.ResultsOk net s.results) (hall : AllSubmitted s.results)
    (v : Fin n) : ¬ InFlight s v := by
  have hempty := Results.emptied hok hall v
  rintro (hne | ⟨q, hq⟩ | ⟨i, hi⟩)
  · exact hne hempty.inbox
  · exact hq (Results.carriedTo_eq_none hok hall v q)
  · exact hi (hempty.notifications i)

/-- What is still to be written to a segment is not submitted. -/
theorem at_of_write (hok : Results.ResultsOk net s.results) {b : Results.Message n}
    (hb : b ∈ (s.results.segment v).inbox) {w : ℕ × Results.BufferElt n} (hw : w ∈ b.writes) :
    Results.At s.results w.2 (.slot, v) := by
  have hseg := hok.segment v
  have hcollected : (s.results.rank v).pc.collected = false := by
    apply Bool.eq_false_of_not_eq_true
    intro hc
    exact hseg.not_drained (.inl hb) (Results.drained_of_collected hc)
  obtain ⟨j, -, hj⟩ := hseg.delivery.writes b (.inl hb) w hw
  simp only [Results.At, Results.elements, hcollected, Bool.false_eq_true, if_false]
  exact List.mem_map_of_mem (List.mem_of_getElem? hj)

include ht hd h in
/-- Between two sessions the metadata of a rank are as at the start of one. -/
theorem fresh_of_idle (hpc : (s.tasks r).pc = .idle) (hresults : (s.results.rank r).pc = .idle) :
    Fresh s r := by
  have hall := allSubmitted_of_idle ht hd h hpc
  have hok := (ht.protocol.rank r).pc
  simp only [Tasks.PcOk, hpc] at hok
  obtain ⟨hreserved, hbuffer, hcount⟩ := Results.buffer_empty h.results hall hresults
  constructor
  · exact hok.1.state
  · exact hok.2
  · exact Results.state_eq_available h.results hall hresults
  · exact hbuffer
  · exact hcount
  · exact hreserved
  · exact not_inFlight h.results hall r
  · exact Results.transit_eq_nil h.results hall r
  · exact flags_eq_reset ht hd ((ht.protocol.rank r).session_eq_of_idle hpc)
  · apply Bool.eq_false_of_not_eq_true
    intro hreached
    exact ((hd.control r).reached hreached).2.1.1 hpc

include ht hd h in
theorem fresh_of_setProblem (hs : next cfg net s (r, .setProblem) = some s') :
    Fresh s r ∧ Fresh s' r := by
  simp only [next] at hs
  split at hs
  · rename_i hpoint
    obtain ⟨tasks, hnext, rfl⟩ := Option.map_eq_some_iff.mp hs
    have hsending := (h.send r).sending
    rw [hpoint] at hsending
    have htasks : (s.tasks r).pc = .idle ∧ (tasks r).seg = (s.tasks r).seg := by
      cases Tasks.stepped_of_next hnext with
      | setProblem hpc hacc =>
        rw [Function.update_self]
        exact ⟨hpc, rfl⟩
    obtain ⟨hpc, hseg⟩ := htasks
    have hold := fresh_of_idle ht hd h hpc hsending.1
    have hcarried := Results.carriedTo_eq_none h.results (allSubmitted_of_idle ht hd h hpc) r
    refine ⟨hold, ?_⟩
    constructor
    · simp only [State.tasks_setControl, hseg]
      exact hold.state
    · simp only [State.tasks_setControl, hseg]
      exact hold.nbTask
    · simp [constructSegment, resetSegment]
    · simp [constructSegment, resetSegment]
    · simp [constructSegment, resetSegment]
    · simp [constructSegment, resetSegment]
    · -- nothing was posted or carried before, and the step posts nothing
      rintro (hne | ⟨q, hq⟩ | ⟨i, hi⟩)
      · apply hold.quiet
        left
        simpa [constructSegment, resetSegment] using hne
      · apply hq
        rw [← hcarried q]
        simp only [Results.carriedTo, State.results_setControl, Results.State.rank_setRank,
          Results.State.rank_setSegment]
        by_cases hqr : q = r
        · subst hqr
          rw [Function.update_self]
          rfl
        · rw [Function.update_of_ne hqr]
      · apply hold.quiet
        refine .inr (.inr ⟨i, ?_⟩)
        simpa [constructSegment, resetSegment] using hi
    · simp [constructResults]
    · simp
    · simpa using hold.subtreeTermintionReached
  · cases hs

end Isolation

/-- In every reachable state of any number of ranks, in any number of sessions, sessions are
isolated. -/
theorem sessions_isolated (hr : (system cfg net).Reachable s) : SessionIsolated cfg net s := by
  have ht := tasksOk_of_reachable hr
  have hd := (termination_invariant cfg net).holds hr
  have h := (system_invariant cfg net).holds hr
  constructor
  · intro r a s' v hs hv htouched
    exact sameSession_of_touched ht hd h (stepped_of_next hs) hv htouched
  · intro v hv q
    apply sameSession_of_unsubmitted ht hd h
    intro hall
    exact not_inFlight h.results hall v hv
  · intro v b hb w hw
    have hat := at_of_write h.results hb hw
    have hsess := (session_of_at ht hd h hat (by rintro ⟨⟩) v).2
    rw [Tasks.RankTasks.current_eq hsess]
  · exact fun r s' => fresh_of_setProblem ht hd h

/-- Rank 0 has left the first session, which rank 1 is still in, and calls `set_problem` for the
next one. -/
theorem sessions_isolated_after_return :
    ∃ s, (system Tasks.twoRanks (Results.direct 2)).Reachable s ∧ (s.tasks 0).session = 2 ∧
      (s.tasks 1).finished = 0 ∧ SessionIsolated Tasks.twoRanks (Results.direct 2) s := by
  obtain ⟨s, hr, hsess, hfin⟩ := Transition.System.exists_reachable started_init
    (stealAndDetect ++ advances 2 0 ++ [(0, .setProblem)])
    (fun s => (s.tasks 0).session = 2 ∧ (s.tasks 1).finished = 0) (by decide +kernel)
  exact ⟨s, hr, hsess, hfin, sessions_isolated hr⟩

end Titus.System
