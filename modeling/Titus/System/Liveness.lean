import Mathlib.Data.Finset.Max
import Titus.System.Correctness
import Titus.System.Delivery

/-! The ranks can always finish: from every reachable state a continuation leads all of them to the
end of the sessions that have been begun.  From home the results are delivered first, then the
subtrees of the ranks are reported to be done from the leaves up, and the end of the session is
passed on from the root down. -/

namespace Titus.System

open Results (Routes AllSubmitted)
open Startup (VictimSelection Installed)
open Tasks (lastSession)

variable {n : ℕ} {cfg : Config n} {net : Results.Network n} {sel : VictimSelection n}
  {occupied : State n → Fin n → Bool} {dist : Fin n → Fin n → ℕ}
  {s s' u : State n} {r q : Fin n}

/-! ### The end of a session on a rank -/

theorem point_forward {child : Option (Fin n)} {p : Point}
    (hrun : ∀ a, ((forward s r child p).control r).point ≠ .aborted a) :
    ((forward s r child p).control r).point = p := by
  cases child with
  | none => rw [forward, control_setPoint]
  | some c =>
    simp only [forward, control_setPoint] at hrun ⊢
    split
    · rfl
    · rename_i hflag
      rw [if_neg hflag] at hrun
      exact absurd rfl (hrun _)

/-- A rank that has detected the end of its session can return. -/
theorem RunOk.canLessen_of_detected (h : RunOk cfg net s) (hd : Routes net dist)
    (hdet : (s.control r).point.detected) : CanLessen cfg net sel occupied dist s := by
  have hfinishing : ∀ u, RunOk cfg net u → (u.control r).point = .finishing →
      CanLessen cfg net sel occupied dist u := by
    intro u hu hpoint
    have hpc : (u.tasks r).pc = .balancing := by
      have hplace := (hu.termination.control r).point
      rw [hpoint] at hplace
      exact hplace
    obtain ⟨t, ht⟩ : ∃ t, Tasks.next cfg u.tasks (r, .finish) = some t := by
      simp only [Tasks.next, hpc, if_true]
      exact ⟨_, rfl⟩
    have hs : advance cfg net u r (occupied u r) = stepFinish cfg u r := by
      simp only [advance, hpoint]
    rw [stepFinish, ht] at hs
    apply hu.canLessen_of_next (continuing_advance hs)
    apply leftOver_lt_of_session (a := .finish) hu.tasks
    · exact Tasks.stepped_of_next ht
    · exact .inr (.inr rfl)
  have hforward : ∀ u child p, RunOk cfg net u →
      advance cfg net u r (occupied u r) = some (forward u r child p) →
      (∀ u', RunOk cfg net u' → (u'.control r).point = p → CanLessen cfg net sel occupied dist u') →
      CanLessen cfg net sel occupied dist u := by
    intro u child p hu hs hnext
    apply hu.canLessen_of_step hd (continuing_advance hs)
    intro hu'
    exact hnext _ hu' (point_forward (hu'.system.running r))
  have hright : ∀ u, RunOk cfg net u → (u.control r).point = .forwardingRight →
      CanLessen cfg net sel occupied dist u := by
    intro u hu hpoint
    apply hforward u (rightChild r) .finishing hu _ hfinishing
    simp only [advance, hpoint, stepDetection]
  cases hpoint : (s.control r).point with
  | finishing => exact hfinishing s h hpoint
  | forwardingRight => exact hright s h hpoint
  | forwardingLeft =>
    apply hforward s (leftChild r) .forwardingRight h _ hright
    simp only [advance, hpoint, stepDetection]
  | _ =>
    rw [hpoint] at hdet
    cases hdet

/-! ### The detection of the end -/

/-- A rank that is about to tell its parent that its subtree is done does so. -/
theorem RunOk.canLessen_of_reporting (h : RunOk cfg net s)
    (hpoint : (s.control r).point = .reporting)
    (hreached : (s.control r).subtreeTermintionReached = true) :
    CanLessen cfg net sel occupied dist s := by
  have hs : advance cfg net s r (occupied s r) = some ((report s r).setPoint r .selecting) := by
    simp only [advance, hpoint, stepDetection]
  have hx : (continuing cfg net sel occupied).next s (r, .advance (occupied s r)) =
      some ((report s r).setPoint r .selecting) := continuing_advance hs
  have hw := h.step hx
  apply h.canLessen_of_next hx
  apply leftOver_lt_of_reports (r := r)
  · rfl
  · rfl
  · apply reports_le_addFlag
    · rw [hpoint]
      rintro ⟨⟩
    · rintro ⟨⟩
  · simp only [reports, report, control_addFlag_setPoint, hpoint, Control.reported, hreached,
      Point.detected, if_true]
    exact Nat.lt_succ_self _
  · exact (reports_le hw.tasks hw.termination r r).trans (Tasks.session_le_last _ r)

/-- A rank that is told of the end of the session passes it on. -/
theorem RunOk.canLessen_of_global (h : RunOk cfg net s) (hd : Routes net dist)
    (hpoint : (s.control r).point = .readingGlobal)
    (hreached : (s.control r).subtreeTermintionReached = true)
    (hglobal : (s.control r).terminationStatus.globalTerminationDetected = 1) :
    CanLessen cfg net sel occupied dist s := by
  have hs : advance cfg net s r (occupied s r) = some (s.setControl r
      { s.control r with subtreeTermintionReached := false, point := .forwardingLeft }) := by
    simp only [advance, hpoint, stepDetection, hreached, hglobal, and_self, if_true]
  apply h.canLessen_of_step hd (continuing_advance hs)
  intro hu
  apply hu.canLessen_of_detected hd (r := r)
  rw [State.control_setControl, Function.update_self]
  rfl

/-- A rank whose subtrees are done, and that has not told so or has been told of the end, reports
or detects the end. -/
theorem RunOk.canLessen_of_reading (h : RunOk cfg net s) (hd : Routes net dist)
    (hpoint : (s.control r).point = .readingLeft)
    (hleft : (s.control r).terminationStatus.leftChildSubtreeTermination = 1)
    (hright : (s.control r).terminationStatus.rightChildSubtreeTermination = 1)
    (hcase : r.val = 0 ∨ (s.control r).subtreeTermintionReached = false ∨
      (s.control r).terminationStatus.globalTerminationDetected = 1) :
    CanLessen cfg net sel occupied dist s := by
  have hs : advance cfg net s r (occupied s r) = some (s.setPoint r .readingRight) := by
    simp only [advance, hpoint, stepDetection, hleft, if_true]
  apply h.canLessen_of_step hd (continuing_advance hs)
  have hcontrol := control_setPoint s r .readingRight
  generalize s.setPoint r .readingRight = u at hcontrol
  intro hu
  by_cases hroot : r.val = 0
  · have hreached : (s.control r).subtreeTermintionReached = false := by
      apply Bool.eq_false_of_not_eq_true
      exact fun hc => ((h.termination.control r).reached hc).1 hroot
    have hs' : advance cfg net u r (occupied u r) = some (u.setPoint r .forwardingLeft) := by
      simp only [advance, hcontrol, stepDetection, hright, hroot, hreached, Bool.false_eq_true,
        if_true, if_false]
    apply hu.canLessen_of_step hd (continuing_advance hs')
    intro hv
    apply hv.canLessen_of_detected hd (r := r)
    rw [control_setPoint]
    rfl
  · cases hreached : (s.control r).subtreeTermintionReached with
    | false =>
      have hs' : advance cfg net u r (occupied u r) = some (u.setControl r
          { u.control r with subtreeTermintionReached := true, point := .reporting }) := by
        simp only [advance, hcontrol, stepDetection, hright, hroot, hreached, Bool.false_eq_true,
          if_true, if_false]
      apply hu.canLessen_of_step hd (continuing_advance hs')
      intro hv
      apply hv.canLessen_of_reporting (r := r) <;>
        rw [State.control_setControl, Function.update_self]
    | true =>
      have hglobal := (hcase.resolve_left hroot).resolve_left (by rw [hreached]; rintro ⟨⟩)
      have hs' : advance cfg net u r (occupied u r) = some (u.setPoint r .readingGlobal) := by
        simp only [advance, hcontrol, stepDetection, hright, hroot, hreached, if_true, if_false]
      apply hu.canLessen_of_step hd (continuing_advance hs')
      intro hv
      apply hv.canLessen_of_global hd (r := r) <;> rw [control_setPoint, hcontrol]
      · exact hreached
      · exact hglobal

/-- A rank at `select_target_rank` that has all its results gets to `termination_detection`. -/
theorem RunOk.canReach_reading (h : RunOk cfg net s) (hsel : Installed sel net)
    (hcalm : Calm s.results)
    (hhome : ∀ q, Home s q) (hpoint : (s.control r).point = .selecting)
    (hall : AllSubmitted s.results)
    (hnb : (s.results.rank r).nbResult = (s.results.rank r).nbUsrResults) :
    (continuing cfg net sel occupied).CanReach s fun u => Detour r s u .balancing .readingLeft := by
  have hpc : (s.tasks r).pc = .balancing := by
    have hplace := (h.termination.control r).point
    rw [hpoint] at hplace
    exact hplace
  have htmp : (s.tasks r).tmp.nbResult = 0 := by
    have hok := (h.tasks.protocol.rank r).pc
    simp only [Tasks.PcOk, hpc] at hok
    exact hok.results
  have hempty : Results.isEmpty (s.results.segment r) (s.results.rank r) = true := by
    have hemptied := Results.emptied h.system.results hall r
    have hreserved := hemptied.reserved (by rw [hcalm.quiet.idle r]; rfl)
    have hhead := h.system.results.head_eq_tail hreserved
    simp [Results.isEmpty, hhead, hemptied.transit]
  obtain ⟨v, hv, htarget⟩ := exists_target h hsel hpoint
  obtain ⟨u, hu, hdetour⟩ := exists_miss h hpoint hv htarget (hhome v)
  have hs : advance cfg net u r (occupied u r) = some (u.setPoint r .testingTmp) := by
    simp only [advance, hdetour.point, hdetour.pc, flushUnlessEmpty, hdetour.results, hempty,
      if_true]
  apply Transition.System.CanReach.step hu
  apply Transition.System.CanReach.step (continuing_advance hs)
  have hdetour := hdetour.setPoint .testingTmp
  generalize u.setPoint r .testingTmp = u at hdetour
  have hs : advance cfg net u r (occupied u r) = some (u.setPoint r .returned) := by
    simp only [advance, hdetour.point, hdetour.tmp, htmp, if_true]
  apply Transition.System.CanReach.step (continuing_advance hs)
  have hdetour := hdetour.setPoint .returned
  generalize u.setPoint r .returned = u at hdetour
  obtain ⟨v, hs, hdetour⟩ : ∃ v, advance cfg net u r (occupied u r) = some v ∧
      Detour r s v .balancing .entry := by
    refine ⟨State.setPoint ⟨Function.update u.tasks r { u.tasks r with pc := .balancing },
      u.results, u.control⟩ r .entry, ?_, ?_⟩
    · simp only [advance, hdetour.point, stepTasks, Tasks.next, hdetour.pc, Tasks.localNext,
        hdetour.tmp, htmp, if_true, Option.map_some]
    · have hback := hdetour.setPoint .entry
      refine ⟨hback.results, hback.control, ?_, ?_⟩
      · simp only [State.setPoint, State.tasks_setControl, Function.update_self]
      · simp only [State.setPoint, State.tasks_setControl, Function.update_self]
        exact hdetour.tmp
  apply Transition.System.CanReach.step (continuing_advance hs)
  have hs : advance cfg net v r (occupied v r) = some (v.setPoint r .readingLeft) := by
    simp only [advance, hdetour.point, hdetour.pc, stepBalancing, hdetour.results, hnb, le_refl,
      not_true, if_false, if_true]
  exact .of_next (continuing_advance hs) (hdetour.setPoint .readingLeft)

/-! ### All ranks before a theft or between two sessions -/

/-- When all results are submitted and no rank has a task left, every rank has all its results. -/
theorem RunOk.complete_of_balancing (h : RunOk cfg net s) (hall : AllSubmitted s.results)
    (hpc : ∀ q, (s.tasks q).pc = .balancing) (d : Fin n) :
    Complete cfg s (s.tasks d).current d := by
  have hc := h.system.conserved
  have hledger := h.system.ledger
  have hresting : ∀ q, Tasks.Resting (s.tasks q).dq (s.tasks q).seg (s.tasks q).tmp := by
    intro q
    have hok := (h.tasks.protocol.rank q).pc
    simpa only [Tasks.PcOk, hpc] using hok
  have hlive : ∀ q, Tasks.segmentLive (s.tasks q) = false := by
    intro q
    simp only [Tasks.segmentLive, hpc]
  have hsess := (h.tasks.protocol.rank d).session_eq (by rw [hpc]; rintro ⟨⟩)
  have hcover : ∀ i ∈ Finset.range (cfg.nbTask (s.tasks d).current d),
      cover ⟨(s.tasks d).current, d, i⟩ (s.results.rank d).submitted = 1 := by
    intro i hi
    have hissued : Tasks.Issued cfg s.tasks ⟨(s.tasks d).current, d, i⟩ := by
      refine ⟨?_, Finset.mem_range.mp hi⟩
      simp only [Tasks.RankTasks.current_eq hsess]
      omega
    have htotal := total_copies hc hledger ⟨(s.tasks d).current, d, i⟩
    rw [h.tasks.conserved.issued _ hissued] at htotal
    simp only [hlive, Tasks.MetadataTmp.copies_eq_zero (hresting _).results,
      Tasks.Dequeue.copies_eq_zero (hresting _).nbTask, Bool.false_eq_true, if_false,
      Finset.sum_const_zero, Nat.add_zero] at htotal
    -- an element with the result of the task is submitted, and by the owner of the task
    have hsingle : ∑ p, cover ⟨(s.tasks d).current, d, i⟩ (placed s p) =
        cover ⟨(s.tasks d).current, d, i⟩ (placed s (.submitted, d)) := by
      apply Finset.sum_eq_single
      · rintro ⟨k, q⟩ _ hp
        by_contra hne
        obtain ⟨e, he, hcov⟩ := cover_pos.mp (Nat.pos_of_ne_zero hne)
        obtain rfl : k = .submitted := hall e _ he
        have howner : e.owner = q := hc.legal e _ (Results.at_iff.mp he)
        apply hp
        rw [← howner, ← hcov.2.1]
      · intro hno
        exact absurd (Finset.mem_univ _) hno
    exact hsingle.symm.trans htotal
  rw [Complete, ← sum_submitted hc hledger, Finset.sum_congr rfl hcover]
  simp

/-- A rank that has all its results knows it. -/
theorem RunOk.nbResult_eq (h : RunOk cfg net s) (hpc : (s.tasks r).pc ≠ .idle)
    (hcomplete : Complete cfg s (s.tasks r).current r) :
    (s.results.rank r).nbResult = (s.results.rank r).nbUsrResults := by
  have hsess := (h.tasks.protocol.rank r).session_eq hpc
  have hacc := h.system.account r
  rw [hacc.nbUsrResults (by omega), hacc.nbResult (by omega)]
  exact hcomplete

/-- Every rank is at `select_target_rank` in session `m`, or has finished the session. -/
def Split (s : State n) (m : ℕ) : Prop :=
  ∀ q, (s.control q).point = .selecting ∧ (s.tasks q).finished = m ∨
    (s.control q).point = .entry ∧ (s.tasks q).finished = m + 1

section Split

variable {m : ℕ} {c : Fin n}

theorem RunOk.pc_of_selecting (h : RunOk cfg net s) (hpoint : (s.control r).point = .selecting) :
    (s.tasks r).pc = .balancing := by
  have hplace := (h.termination.control r).point
  rw [hpoint] at hplace
  exact hplace

theorem Split.ended_eq (hsplit : Split s m) (q : Fin n) : ended s q = (s.tasks q).finished := by
  rcases hsplit q with ⟨hpoint, -⟩ | ⟨hpoint, -⟩ <;> simp [ended, hpoint, Point.detected]

theorem Split.finished_of_selecting (hsplit : Split s m)
    (hpoint : (s.control q).point = .selecting) : (s.tasks q).finished = m := by
  rcases hsplit q with ⟨-, hfin⟩ | ⟨hentry, -⟩
  · exact hfin
  · rw [hpoint] at hentry
    cases hentry

/-- A rank that selects a victim has told its parent in this session exactly if it has found its
subtree done. -/
theorem reports_of_selecting (hpoint : (s.control r).point = .selecting) :
    reports s r = (s.tasks r).finished + (s.control r).subtreeTermintionReached.toNat := by
  simp [reports, Control.reported, hpoint, Point.detected]

/-- While no rank has finished the session, the last of those that have not told so has only
subtrees that are done. -/
theorem RunOk.exists_reporter (h : RunOk cfg net s)
    (hselecting : ∀ q, (s.control q).point = .selecting)
    (hfin : ∀ q, (s.tasks q).finished = m) (q : Fin n) :
    ∃ r, (s.control r).terminationStatus.leftChildSubtreeTermination = 1 ∧
      (s.control r).terminationStatus.rightChildSubtreeTermination = 1 ∧
      (r.val = 0 ∨ (s.control r).subtreeTermintionReached = false) := by
  let waiting := Finset.univ.filter fun r : Fin n =>
    r.val = 0 ∨ (s.control r).subtreeTermintionReached = false
  have hne : waiting.Nonempty := by
    refine ⟨⟨0, q.pos⟩, ?_⟩
    rw [Finset.mem_filter]
    exact ⟨Finset.mem_univ _, .inl rfl⟩
  obtain ⟨r, hr, hmax⟩ := waiting.exists_max_image Fin.val hne
  have hchild : ∀ c : Fin n, 0 < c.val → HeapTree.parent c = r →
      childFlag c (s.control r).terminationStatus = 1 := by
    intro c hc hparent
    have hreached : (s.control c).subtreeTermintionReached = true := by
      by_contra hno
      have hle := hmax c (by simp [waiting, hno])
      have hlt := HeapTree.parent_lt hc
      rw [hparent] at hlt
      omega
    have hflag := h.termination.flags.child c hc
    rw [reports_of_selecting (hselecting c), hparent, hfin, hfin, hreached] at hflag
    simp only [Bool.toNat_true] at hflag
    omega
  refine ⟨r, ?_, ?_, (Finset.mem_filter.mp hr).2⟩
  · cases hleft : leftChild r with
    | none => exact h.termination.flags.noLeft r hleft
    | some c =>
      obtain ⟨hc, hparent, hflag⟩ := left_child hleft
      rw [← hflag]
      exact hchild c hc hparent
  · cases hright : rightChild r with
    | none => exact h.termination.flags.noRight r hright
    | some c =>
      obtain ⟨hc, hparent, hflag⟩ := right_child hright
      rw [← hflag]
      exact hchild c hc hparent

/-- When a rank has finished the session, the first of those that have not has been told so. -/
theorem RunOk.exists_told (h : RunOk cfg net s) (hsplit : Split s m)
    (hq : (s.control q).point = .selecting) (hc : (s.tasks c).finished = m + 1) :
    ∃ r, (s.control r).point = .selecting ∧
      (s.control r).terminationStatus.leftChildSubtreeTermination = 1 ∧
      (s.control r).terminationStatus.rightChildSubtreeTermination = 1 ∧
      (s.control r).terminationStatus.globalTerminationDetected = 1 := by
  let waiting := Finset.univ.filter fun r => (s.control r).point = .selecting
  have hne : waiting.Nonempty := ⟨q, by simp [waiting, hq]⟩
  obtain ⟨r, hr, hmin⟩ := waiting.exists_min_image Fin.val hne
  have hpoint : (s.control r).point = .selecting := (Finset.mem_filter.mp hr).2
  have hfin := hsplit.finished_of_selecting hpoint
  have hdone := ended_le_done h.termination c r
  rw [hsplit.ended_eq, hc] at hdone
  have hpos : 0 < r.val := by
    by_contra hno
    rw [done, if_pos (by omega), hsplit.ended_eq, hfin] at hdone
    omega
  rw [done, if_neg (by omega), reports_of_selecting hpoint, hfin] at hdone
  have hreached : (s.control r).subtreeTermintionReached = true := by
    by_contra hno
    simp only [Bool.not_eq_true] at hno
    rw [hno] at hdone
    simp at hdone
  have hparent : (s.tasks (HeapTree.parent r)).finished = m + 1 := by
    rcases hsplit (HeapTree.parent r) with ⟨hsel, -⟩ | ⟨-, hfin⟩
    · have hle := hmin (HeapTree.parent r) (by simp [waiting, hsel])
      have hlt := HeapTree.parent_lt hpos
      omega
    · exact hfin
  have hglobal := h.termination.flags.global r hpos
  rw [passed, hparent, hfin] at hglobal
  have hleft := (h.termination.control r).left (.inr (.inl hreached))
  have hright := (h.termination.control r).right (.inl hreached)
  have hle := flags_le_one h.tasks h.termination r
  refine ⟨r, hpoint, ?_, ?_, ?_⟩ <;> omega

/-- While a rank is at `select_target_rank` less can be left to do. -/
theorem RunOk.canLessen_of_selecting (h : RunOk cfg net s) (hsel : Installed sel net)
    (hd : Routes net dist)
    (hcalm : Calm s.results) (hhome : ∀ q, Home s q) (hsplit : Split s m)
    (hq : (s.control q).point = .selecting) : CanLessen cfg net sel occupied dist s := by
  have hread : ∀ r, AllSubmitted s.results → (s.control r).point = .selecting →
      Complete cfg s m r →
      (s.control r).terminationStatus.leftChildSubtreeTermination = 1 →
      (s.control r).terminationStatus.rightChildSubtreeTermination = 1 →
      (r.val = 0 ∨ (s.control r).subtreeTermintionReached = false ∨
        (s.control r).terminationStatus.globalTerminationDetected = 1) →
      CanLessen cfg net sel occupied dist s := by
    intro r hall hpoint hcomplete hleft hright hcase
    have hpc : (s.tasks r).pc ≠ .idle := by
      rw [h.pc_of_selecting hpoint]
      rintro ⟨⟩
    have hnb := h.nbResult_eq hpc (by
      rw [Tasks.RankTasks.current_eq ((h.tasks.protocol.rank r).session_eq hpc),
        hsplit.finished_of_selecting hpoint]
      exact hcomplete)
    apply h.canLessen_of_reach hd (h.canReach_reading hsel hcalm hhome hpoint hall hnb)
    intro u hu hdetour
    apply hu.canLessen_of_reading hd hdetour.point <;> rw [hdetour.control_self]
    · exact hleft
    · exact hright
    · exact hcase
  by_cases hall : AllSubmitted s.results
  · by_cases hnone : ∀ p, (s.control p).point = .selecting
    · obtain ⟨r, hleft, hright, hcase⟩ :=
        h.exists_reporter hnone (fun p => hsplit.finished_of_selecting (hnone p)) q
      apply hread r hall (hnone r) _ hleft hright (hcase.imp_right .inl)
      have hcomplete := h.complete_of_balancing hall (fun p => h.pc_of_selecting (hnone p)) r
      have hpc := h.pc_of_selecting (hnone r)
      rwa [Tasks.RankTasks.current_eq ((h.tasks.protocol.rank r).session_eq (by
        rw [hpc]
        rintro ⟨⟩)), hsplit.finished_of_selecting (hnone r)] at hcomplete
    · simp only [not_forall] at hnone
      obtain ⟨c, hc⟩ := hnone
      have hfin := ((hsplit c).resolve_left fun hsel => hc hsel.1).2
      obtain ⟨r, hpoint, hleft, hright, hglobal⟩ := h.exists_told hsplit hq hfin
      apply hread r hall hpoint _ hleft hright (.inr (.inr hglobal))
      apply complete_of_lt_ended h.tasks h.termination h.system (r := c)
      rw [hsplit.ended_eq, hfin]
      exact Nat.lt_succ_self m
  · apply h.canLessen_of_unsubmitted hsel hd hcalm _ hall
    -- a result on its way keeps all ranks in its session
    have hno := hall
    simp only [AllSubmitted, not_forall] at hno
    obtain ⟨e, p, he, hp⟩ := hno
    have hsess := session_of_at h.tasks h.termination h.system he hp
    have hm := hsplit.finished_of_selecting hq
    intro c
    rcases hsplit c with hsel | ⟨-, hfin⟩
    · exact hsel.1
    · have h1 := (hsess q).1
      have h2 := (hsess c).1
      omega

end Split

/-! ### The sessions that have been begun -/

/-- A rank that is behind another can begin the next session. -/
theorem RunOk.canLessen_of_behind (h : RunOk cfg net s) (hpoint : (s.control r).point = .entry)
    (hpc : (s.tasks r).pc = .idle) (hbehind : (s.tasks r).session < lastSession s.tasks) :
    CanLessen cfg net sel occupied dist s := by
  obtain ⟨q, -, hq⟩ := Finset.lt_sup_iff.mp hbehind
  have hle := h.tasks.finished_le q r
  have hbound := (h.tasks.session_bounds q).2
  -- the session that rank `q` is in is the next of rank `r`
  have hqpc : (s.tasks q).pc ≠ .idle := by
    intro hidle
    have heq := (h.tasks.protocol.rank q).session_eq_of_idle hidle
    omega
  have hacc := (h.tasks.protocol.rank q).accepts hqpc
  have hcur : (s.tasks q).current = (s.tasks r).session := by
    rw [Tasks.RankTasks.current_eq ((h.tasks.protocol.rank q).session_eq hqpc)]
    omega
  rw [hcur] at hacc
  obtain ⟨t, ht⟩ : ∃ t, Tasks.next cfg s.tasks (r, .setProblem) = some t := by
    simp only [Tasks.next, hpc, hacc, and_self, if_true]
    exact ⟨_, rfl⟩
  obtain ⟨u, hs, rfl⟩ : ∃ u, next cfg net s (r, .setProblem) = some u ∧ u.tasks = t := by
    simp only [next, hpoint, if_true, ht, Option.map_some, Option.some.injEq,
      exists_eq_left', State.tasks_setControl]
  have hx : (continuing cfg net sel occupied).next s (r, .setProblem) = some u :=
    Transition.System.next_restrict.mpr ⟨⟨q, hq⟩, hs⟩
  apply h.canLessen_of_next hx
  apply leftOver_lt_of_session (a := .setProblem) h.tasks
  · exact Tasks.stepped_of_next ht
  · exact .inl ⟨rfl, q, hq⟩

/-- A rank in its barrier can leave it when no rank is behind. -/
theorem RunOk.canLessen_of_barrier (h : RunOk cfg net s) (hpoint : (s.control r).point = .entry)
    (hpc : (s.tasks r).pc = .barrier) (hall : ∀ q, (s.tasks r).session ≤ (s.tasks q).session) :
    CanLessen cfg net sel occupied dist s := by
  obtain ⟨t, ht⟩ : ∃ t, Tasks.next cfg s.tasks (r, .leaveBarrier) = some t := by
    simp only [Tasks.next, hpc]
    rw [if_pos ⟨trivial, hall⟩]
    exact ⟨_, rfl⟩
  have hs : advance cfg net s r (occupied s r) =
      some (State.setPoint ⟨t, s.results, s.control⟩ r .entry) := by
    simp only [advance, hpoint, hpc, stepTasks, ht, Option.map_some]
  apply h.canLessen_of_next (continuing_advance hs)
  apply leftOver_lt_of_session (a := .leaveBarrier) h.tasks
  · exact Tasks.stepped_of_next ht
  · exact .inr (.inl rfl)

/-- Rank `r` has returned from the last of `k` sessions. -/
structure Finished (s : State n) (k : ℕ) (r : Fin n) : Prop where
  point : (s.control r).point = .entry
  pc : (s.tasks r).pc = .idle
  finished : (s.tasks r).finished = k

/-- From home less can be left to do until all ranks have finished the last session. -/
theorem RunOk.canLessen_of_home (h : RunOk cfg net s) (hsel : Installed sel net)
    (hd : Routes net dist)
    (hcalm : Calm s.results) (hhome : ∀ q, Home s q)
    (hno : ¬ ∀ r, Finished s (lastSession s.tasks) r) : CanLessen cfg net sel occupied dist s := by
  have hrank := h.tasks.protocol.rank
  by_cases hbehind : ∃ r, (s.control r).point = .entry ∧ (s.tasks r).pc = .idle ∧
      (s.tasks r).session < lastSession s.tasks
  · obtain ⟨r, hpoint, hpc, hlt⟩ := hbehind
    exact h.canLessen_of_behind hpoint hpc hlt
  by_cases hbarrier : ∃ r, (s.control r).point = .entry ∧ (s.tasks r).pc = .barrier ∧
      ∀ q, (s.tasks r).session ≤ (s.tasks q).session
  · obtain ⟨r, hpoint, hpc, hall⟩ := hbarrier
    exact h.canLessen_of_barrier hpoint hpc hall
  -- all that are idle are in the last session, and those in the barrier wait for another
  have hidle : ∀ r, (s.control r).point = .entry → (s.tasks r).pc = .idle →
      (s.tasks r).session = lastSession s.tasks := by
    intro r hpoint hpc
    apply le_antisymm (Tasks.session_le_last s.tasks r)
    by_contra hlt
    exact hbehind ⟨r, hpoint, hpc, Nat.lt_of_not_le hlt⟩
  have hwaits : ∀ r, (s.control r).point = .entry → (s.tasks r).pc = .barrier →
      ∃ q, (s.tasks q).session < (s.tasks r).session := by
    intro r hpoint hpc
    by_contra hnone
    simp only [not_exists, Nat.not_lt] at hnone
    exact hbarrier ⟨r, hpoint, hpc, hnone⟩
  by_cases hselecting : ∃ q, (s.control q).point = .selecting
  · obtain ⟨q, hq⟩ := hselecting
    have hqpc := h.pc_of_selecting hq
    have hqsess := (hrank q).session_eq (by rw [hqpc]; rintro ⟨⟩)
    have hmin : ∀ p, (s.tasks q).session ≤ (s.tasks p).session :=
      h.tasks.protocol.session q (by rw [hqpc]; constructor <;> rintro ⟨⟩)
    apply h.canLessen_of_selecting hsel hd hcalm hhome (m := (s.tasks q).finished) _ hq
    intro p
    have hle := h.tasks.finished_le p q
    have hle' := hmin p
    have hlast := Tasks.session_le_last s.tasks
    rcases hhome p with hsel | ⟨hpoint, hpc | hpc⟩
    · have hpc := h.pc_of_selecting hsel
      have hsess := (hrank p).session_eq (by rw [hpc]; rintro ⟨⟩)
      have hmin' := h.tasks.protocol.session p (by rw [hpc]; constructor <;> rintro ⟨⟩) q
      exact .inl ⟨hsel, by omega⟩
    · have hsess := (hrank p).session_eq_of_idle hpc
      exact .inr ⟨hpoint, by omega⟩
    · have hsess := (hrank p).session_eq (by rw [hpc]; rintro ⟨⟩)
      obtain ⟨c, hc⟩ := hwaits p hpoint hpc
      have hlt := hmin c
      exact .inr ⟨hpoint, by omega⟩
  · exfalso
    apply hno
    simp only [not_exists] at hselecting
    have hentry : ∀ r, (s.control r).point = .entry ∧
        ((s.tasks r).pc = .idle ∨ (s.tasks r).pc = .barrier) :=
      fun r => (hhome r).resolve_left (hselecting r)
    -- the rank that is furthest behind is not in the barrier
    intro r
    obtain ⟨q, -, hmin⟩ := Finset.univ.exists_min_image (fun q => (s.tasks q).session)
      ⟨r, Finset.mem_univ r⟩
    have hqidle : (s.tasks q).pc = .idle := by
      apply (hentry q).2.resolve_right
      intro hpc
      obtain ⟨c, hc⟩ := hwaits q (hentry q).1 hpc
      exact absurd (hmin c (Finset.mem_univ c)) (Nat.not_le.mpr hc)
    have hq := hidle q (hentry q).1 hqidle
    have hridle : (s.tasks r).pc = .idle := by
      apply (hentry r).2.resolve_right
      intro hpc
      obtain ⟨c, hc⟩ := hwaits r (hentry r).1 hpc
      have hle := hmin c (Finset.mem_univ c)
      have hlast := Tasks.session_le_last s.tasks r
      omega
    refine ⟨(hentry r).1, hridle, ?_⟩
    rw [← (hrank r).session_eq_of_idle hridle]
    exact hidle r (hentry r).1 hridle

/-- No session is begun in a continuation. -/
theorem lastSession_continuing {x : Fin n × Action n}
    (hx : (continuing cfg net sel occupied).next s x = some s') :
    lastSession s'.tasks = lastSession s.tasks := by
  obtain ⟨r, a⟩ := x
  have hs := stepped_of_next (Transition.System.next_restrict.mp hx).2
  have hother : ∀ a tasks, Tasks.next cfg s.tasks (r, a) = some tasks → a ≠ .setProblem →
      lastSession tasks = lastSession s.tasks := by
    intro a tasks ht ha
    exact (Tasks.stepped_of_next ht).lastSession fun hc => absurd hc ha
  cases hs with
  | tasks a tasks h ht => exact hother a tasks ht h.action_ne.1
  | push owner tasks results hpoint hnb howner hs ht => exact hother _ tasks ht (by rintro ⟨⟩)
  | finish tasks hpoint ht => exact hother _ tasks ht (by rintro ⟨⟩)
  | setProblem tasks hpoint ht =>
    have hstep := Tasks.stepped_of_next ht
    have hpc : (s.tasks r).pc = .idle := by
      cases hstep
      assumption
    by_cases hne : tasks = s.tasks
    · exact congrArg lastSession hne
    · exact hstep.lastSession fun _ => behind_of_begun hx hpoint hpc hne
  | move | results | reach | report | pass | forward => rfl

/-- From every state all ranks can come to the end of the last session. -/
theorem RunOk.canReach_finished (h : RunOk cfg net s) (occupied : State n → Fin n → Bool)
    (hsel : Installed sel net) (hroom : ∀ k, cfg.Accepts k → 2 ≤ Tasks.resultRoom cfg k) :
    (continuing cfg net sel occupied).CanReach s fun t =>
      ∀ r, Finished t (lastSession t.tasks) r := by
  have hd := hsel.routes
  apply (h.canReach_home hd hroom).trans
  rintro u ⟨⟨hu, -⟩, hcalm, hhome⟩
  have hall := Transition.System.CanReach.of_variant (S := continuing cfg net sel occupied)
    (I := fun t => RunOk cfg net t ∧ Calm t.results ∧ ∀ r, Home t r)
    (q := fun t => ∀ r, Finished t (lastSession t.tasks) r)
    (leftOver cfg (Startup.distance sel)) ?_ ⟨hu, hcalm, hhome⟩
  · exact hall.mono fun t ht => ht.2
  · rintro v ⟨hv, hcalm, hhome⟩ hno
    apply (hv.canLessen_of_home hsel hd hcalm hhome hno).trans
    rintro w ⟨hw, hlt⟩
    apply (hw.canReach_home hd hroom).mono
    rintro t ⟨⟨ht, hle⟩, hcalm, hhome⟩
    exact ⟨⟨ht, hcalm, hhome⟩, hle.trans_lt hlt⟩

/-- `occupancy() >= PUSH_REQUEST_MIN_OCCUPANCY`, without the rounding of `float`. -/
def pushRequested (s : State n) (r : Fin n) : Bool :=
  let m := s.results.segment r
  decide (4 * (m.segmentSize - sizeofMetadataResult) ≤ 5 * (m.bufferHead - m.bufferTail) ∨
    4 * maxBufferElts ≤ 5 * m.bufferEltCount)

/-- Whatever has happened so far, the ranks can all return from the last session that some rank has
begun, and no further session need be begun for this.  `occupied` answers the tests of the
occupancy of the result segments on the way, and no timer ends the process (`timeout_ms` is 0). -/
theorem ranks_can_finish (occupied : State n → Fin n → Bool)
    (hr : (system cfg net).Reachable s) (hsel : Installed sel net)
    (hroom : ∀ k, cfg.Accepts k → 2 ≤ Tasks.resultRoom cfg k) :
    (continuing cfg net sel occupied).CanReach s fun t =>
      ∀ r, Finished t (lastSession s.tasks) r := by
  have hfinished := (runOk_of_reachable hr).canReach_finished occupied hsel hroom
  apply (hfinished.and_kept (I := fun t => lastSession t.tasks = lastSession s.tasks)
    (fun _ _ _ ht hx => (lastSession_continuing hx).trans ht) rfl).mono
  rintro t ⟨heq, ht⟩
  rwa [← heq]

/-- The ranks can finish from the middle of a theft. -/
theorem ranks_can_finish_in_theft :
    ∃ s, (system Tasks.twoRanks (Results.direct 2)).Reachable s ∧
      (s.tasks 0).seg.state = .rank 1 ∧
      (continuing Tasks.twoRanks (Results.direct 2) .random pushRequested).CanReach s fun t =>
        ∀ r, Finished t 1 r := by
  obtain ⟨s, hr, hstate, hlast⟩ := Transition.System.exists_reachable started_init
    ([(0, .setProblem), (1, .setProblem)] ++ advances 1 0 ++ advances 1 1 ++ advances 12 0 ++
      advances 8 1 ++ [(1, .select 0)])
    (fun s => (s.tasks 0).seg.state = .rank 1 ∧ lastSession s.tasks = 1) (by decide +kernel)
  have hfinish := ranks_can_finish pushRequested hr (Startup.installed_random (by decide)) fun k _ =>
    show 2 ≤ Tasks.resultRoom Tasks.twoRanks 0 by decide
  rw [hlast] at hfinish
  exact ⟨s, hr, hstate, hfinish⟩

end Titus.System
