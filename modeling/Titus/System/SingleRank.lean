import Titus.System.InvariantSteps

/-! A run on one rank.  What the rank pushes it submits at once, so that it has all its results when
its tasks are done: `load_balancing` ends the session, and never gets to `select_target_rank`, whose
divisor would be 0. -/

namespace Titus.System

open Results (AllSubmitted)

variable {cfg : Config 1} {net : Results.Network 1} {s s' : State 1}

/-! ### The results -/

section Results

variable {t t' : Results.State 1}

/-- A rank that is alone owns every element, so that a step leaves none unsubmitted. -/
theorem allSubmitted_next {a : Results.Action 1} (h : Results.ResultsOk net t)
    (hall : AllSubmitted t) (hs : Results.next net t (0, a) = some t') : AllSubmitted t' := by
  have hstepped := h.stepped hs
  have h' := h.step hstepped
  cases h.effect hstepped with
  | push e k hk hproducer hseq hpushed hcopies =>
    intro e' p hat
    have hpos := Results.at_iff.mp hat
    rw [hcopies] at hpos
    by_cases hnew : p = (k, 0) ∧ e = e'
    · obtain ⟨rfl, rfl⟩ := hnew
      rcases hk with rfl | ⟨rfl, -⟩
      · -- only an element of another rank is put into the tmp segment
        have htmp : (t'.rank 0).tmp = some e := by
          simp only [Results.At, Results.elements] at hat
          split at hat
          · cases hat
          · exact Option.mem_toList.mp hat
        exact absurd (Subsingleton.elim _ _) ((h'.rank 0).tmp e htmp).2
      · rfl
    · rw [if_neg hnew, Nat.add_zero] at hpos
      exact hall e' p (Results.at_iff.mpr hpos)
  | move hpushed htotal hmove =>
    intro e p hat
    rcases hmove e p (Results.at_iff.mp hat) with hpos | ⟨p', hpos, hmv⟩
    · exact hall e p (Results.at_iff.mpr hpos)
    · have hsub := hall e p' (Results.at_iff.mpr hpos)
      cases hmv <;> cases hsub

end Results

/-! ### The invariant -/

/-- A point that a rank gets to when it is alone. -/
def Point.lone : Point → Bool
  | .selecting | .reporting | .readingGlobal => false
  | _ => true

/-- A rank without children: its flags say that their subtrees are done. -/
structure LoneControl (c : Control) : Prop where
  terminationStatus : c.terminationStatus = ⟨1, 1, 0⟩
  subtreeTermintionReached : c.subtreeTermintionReached = false
  point : c.point.lone

theorem LoneControl.setPoint {c : Control} {p : Point} (hc : LoneControl c) (hp : p.lone) :
    LoneControl { c with point := p } :=
  ⟨hc.terminationStatus, hc.subtreeTermintionReached, hp⟩

theorem control_setPoint {n : ℕ} (s : State n) (r : Fin n) (p : Point) :
    (s.setPoint r p).control r = { s.control r with point := p } := Function.update_self _ _ _

/-- What holds of a rank that is alone. -/
structure LoneOk (s : State 1) : Prop where
  submitted : AllSubmitted s.results
  control : LoneControl (s.control 0)

/-! ### When the tasks are done -/

section Balancing

variable (ht : TasksOk cfg s.tasks) (h : SystemOk cfg net s) (hall : AllSubmitted s.results)
  (hpc : (s.tasks 0).pc = .balancing)

include ht h hall hpc

/-- A rank that gets to `load_balancing` has no tasks left, so that all their results are
submitted. -/
theorem complete_of_balancing : Complete cfg s (s.tasks 0).current 0 := by
  have hrank := ht.protocol.rank 0
  have hresting : Tasks.Resting (s.tasks 0).dq (s.tasks 0).seg (s.tasks 0).tmp := by
    have := hrank.pc
    simpa only [Tasks.PcOk, hpc] using this
  have hlive : Tasks.segmentLive (s.tasks 0) = false := by
    simp only [Tasks.segmentLive, hpc]
  have hsess := hrank.session_eq (by rw [hpc]; rintro ⟨⟩)
  have hcover : ∀ i ∈ Finset.range (cfg.nbTask (s.tasks 0).current 0),
      cover ⟨(s.tasks 0).current, 0, i⟩ (s.results.rank 0).submitted = 1 := by
    intro i hi
    have hissued : Tasks.Issued cfg s.tasks ⟨(s.tasks 0).current, 0, i⟩ := by
      refine ⟨?_, Finset.mem_range.mp hi⟩
      simp only [Tasks.RankTasks.current_eq hsess]
      omega
    have htotal := total_copies h.conserved h.ledger ⟨(s.tasks 0).current, 0, i⟩
    rw [ht.conserved.issued _ hissued] at htotal
    simp only [Fintype.sum_unique, Fin.default_eq_zero, hlive,
      Tasks.MetadataTmp.copies_eq_zero hresting.results,
      Tasks.Dequeue.copies_eq_zero hresting.nbTask, Bool.false_eq_true, if_false,
      Nat.add_zero] at htotal
    -- an element in another place would not be submitted
    have hsingle : ∑ p, cover ⟨(s.tasks 0).current, 0, i⟩ (placed s p) =
        cover ⟨(s.tasks 0).current, 0, i⟩ (placed s (.submitted, 0)) := by
      apply Finset.sum_eq_single
      · intro p _ hp
        by_contra hne
        obtain ⟨e, he, -⟩ := cover_pos.mp (Nat.pos_of_ne_zero hne)
        apply hp
        exact Prod.ext (hall e p he) (Subsingleton.elim _ _)
      · intro hno
        exact absurd (Finset.mem_univ _) hno
    exact hsingle.symm.trans htotal
  rw [Complete, ← sum_submitted h.conserved h.ledger, Finset.sum_congr rfl hcover]
  simp

theorem nbResult_eq_of_balancing :
    (s.results.rank 0).nbResult = (s.results.rank 0).nbUsrResults ∧
      (s.results.rank 0).nbUsrResults = cfg.nbTask (s.tasks 0).current 0 := by
  have hcomplete := complete_of_balancing ht h hall hpc
  have hsess := (ht.protocol.rank 0).session_eq (by rw [hpc]; rintro ⟨⟩)
  have husr := (h.account 0).nbUsrResults (by omega)
  have hnb := (h.account 0).nbResult (by omega)
  exact ⟨by rw [hnb, husr]; exact hcomplete, husr⟩

end Balancing

/-! ### Termination detection -/

section Detection

variable {b : Bool} (hc : LoneControl (s.control 0))

theorem advance_balancing (hpoint : (s.control 0).point = .entry)
    (hpc : (s.tasks 0).pc = .balancing)
    (hnb : (s.results.rank 0).nbResult = (s.results.rank 0).nbUsrResults) :
    advance cfg net s 0 b = some (s.setPoint 0 .readingLeft) := by
  simp only [advance, hpoint, hpc, stepBalancing, hnb, le_refl, not_true, if_false, if_true]

include hc

theorem advance_readingLeft (hpoint : (s.control 0).point = .readingLeft) :
    advance cfg net s 0 b = some (s.setPoint 0 .readingRight) := by
  simp only [advance, stepDetection, hpoint, hc.terminationStatus, if_true]

theorem advance_readingRight (hpoint : (s.control 0).point = .readingRight) :
    advance cfg net s 0 b = some (s.setPoint 0 .forwardingLeft) := by
  simp only [advance, stepDetection, hpoint, hc.terminationStatus, hc.subtreeTermintionReached,
    Fin.val_eq_zero, Bool.false_eq_true, if_true, if_false]

omit hc

theorem advance_forwardingLeft (hpoint : (s.control 0).point = .forwardingLeft) :
    advance cfg net s 0 b = some (s.setPoint 0 .forwardingRight) := by
  simp only [advance, stepDetection, hpoint]
  rfl

theorem advance_forwardingRight (hpoint : (s.control 0).point = .forwardingRight) :
    advance cfg net s 0 b = some (s.setPoint 0 .finishing) := by
  simp only [advance, stepDetection, hpoint]
  rfl

/-- `load_balancing` returns `FINISHED`. -/
theorem run_balancing (hc : LoneControl (s.control 0)) (hpoint : (s.control 0).point = .entry)
    (hpc : (s.tasks 0).pc = .balancing)
    (hnb : (s.results.rank 0).nbResult = (s.results.rank 0).nbUsrResults) :
    (system cfg net).run s (List.replicate 5 (0, .advance b)) =
      some (s.setPoint 0 .finishing) := by
  have hset : ∀ p, ((s.setPoint 0 p).control 0).point = p := by
    intro p
    rw [control_setPoint]
  have hlone : ∀ p, p.lone → LoneControl ((s.setPoint 0 p).control 0) := by
    intro p hp
    rw [control_setPoint]
    exact hc.setPoint hp
  have hidem : ∀ p q, (s.setPoint 0 p).setPoint 0 q = s.setPoint 0 q := by
    intro p q
    simp only [State.setPoint, State.setControl, Function.update_self, Function.update_idem]
  have hentry : next cfg net s (0, .advance b) = some (s.setPoint 0 .readingLeft) :=
    advance_balancing hpoint hpc hnb
  have hleft : next cfg net (s.setPoint 0 .readingLeft) (0, .advance b) =
      some (s.setPoint 0 .readingRight) := by
    rw [next, ← hidem .readingLeft .readingRight]
    exact advance_readingLeft (hlone _ rfl) (hset _)
  have hright : next cfg net (s.setPoint 0 .readingRight) (0, .advance b) =
      some (s.setPoint 0 .forwardingLeft) := by
    rw [next, ← hidem .readingRight .forwardingLeft]
    exact advance_readingRight (hlone _ rfl) (hset _)
  have hnoLeft : next cfg net (s.setPoint 0 .forwardingLeft) (0, .advance b) =
      some (s.setPoint 0 .forwardingRight) := by
    rw [next, ← hidem .forwardingLeft .forwardingRight]
    exact advance_forwardingLeft (hset _)
  have hnoRight : next cfg net (s.setPoint 0 .forwardingRight) (0, .advance b) =
      some (s.setPoint 0 .finishing) := by
    rw [next, ← hidem .forwardingRight .finishing]
    exact advance_forwardingRight (hset _)
  simp only [List.replicate, Transition.System.run, system, hentry, hleft, hright, hnoLeft,
    hnoRight, Option.bind_some]

end Detection

/-! ### Steps -/

section Steps

variable {p p' : Point}

theorem Moved.lone (hm : Moved s 0 p p') (hlone : p.lone)
    (hbal : p = .entry → (s.tasks 0).pc ≠ .balancing) (hleft : p ≠ .readingLeft)
    (hright : p ≠ .readingRight) : p'.lone := by
  cases hm with
  | incomplete hpc => exact absurd hpc (hbal rfl)
  | notDone p hp =>
    rcases hp with rfl | rfl | rfl
    · exact absurd rfl hleft
    · exact absurd rfl hright
    · cases hlone
  | askGlobal p hp =>
    rcases hp with rfl | rfl
    · exact absurd rfl hleft
    · exact absurd rfl hright
  | _ => rfl

theorem ResultsCall.lone {a : Results.Action 1} (h : ResultsCall s 0 p a p') (hlone : p.lone) :
    p'.lone := by
  cases h with
  | firstFlush | bufferFlush | secondFlush => rfl
  | inFlush | inPush | land | deliver => exact hlone

/-- The control of a rank that is alone, after its steps outside of `termination_detection`. -/
theorem LoneControl.stepped (hc : LoneControl (s.control 0))
    (hbal : (s.control 0).point = .entry → (s.tasks 0).pc ≠ .balancing)
    (hleft : (s.control 0).point ≠ .readingLeft) (hright : (s.control 0).point ≠ .readingRight)
    (hs : Stepped cfg net s 0 s') : LoneControl (s'.control 0) := by
  have hlone := hc.point
  cases hs with
  | move p hm =>
    rw [control_setPoint]
    exact hc.setPoint (hm.lone hlone hbal hleft hright)
  | tasks a tasks hcall ht =>
    rw [control_setPoint]
    exact hc.setPoint rfl
  | results a p results hcall hs =>
    rw [control_setPoint]
    exact hc.setPoint (hcall.lone hlone)
  | push owner tasks results hpoint =>
    rw [control_setPoint]
    exact hc.setPoint rfl
  | reach hpoint => exact absurd hpoint hright
  | report hpoint | pass hpoint =>
    rw [hpoint] at hlone
    cases hlone
  | forward c p hf =>
    -- there are no children
    rcases hf with ⟨-, hchild, -⟩ | ⟨-, hchild, -⟩ <;> cases hchild
  | finish tasks hpoint ht =>
    rw [State.control_setControl, Function.update_self]
    exact ⟨rfl, hc.subtreeTermintionReached, rfl⟩
  | setProblem tasks hpoint ht =>
    rw [State.control_setControl, Function.update_self]
    exact ⟨rfl, hc.subtreeTermintionReached, hlone⟩

theorem LoneControl.advance {b : Bool} (hc : LoneControl (s.control 0))
    (hnb : (s.tasks 0).pc = .balancing →
      (s.results.rank 0).nbResult = (s.results.rank 0).nbUsrResults)
    (hs : advance cfg net s 0 b = some s') : LoneControl (s'.control 0) := by
  by_cases hbal : (s.control 0).point = .entry ∧ (s.tasks 0).pc = .balancing
  · rw [advance_balancing hbal.1 hbal.2 (hnb hbal.2)] at hs
    cases hs
    rw [control_setPoint]
    exact hc.setPoint rfl
  by_cases hleft : (s.control 0).point = .readingLeft
  · rw [advance_readingLeft hc hleft] at hs
    cases hs
    rw [control_setPoint]
    exact hc.setPoint rfl
  by_cases hright : (s.control 0).point = .readingRight
  · rw [advance_readingRight hc hright] at hs
    cases hs
    rw [control_setPoint]
    exact hc.setPoint rfl
  exact hc.stepped (fun hpoint hpc => hbal ⟨hpoint, hpc⟩) hleft hright (.of_advance hs)

theorem LoneControl.next {a : Action 1} (hc : LoneControl (s.control 0))
    (hnb : (s.tasks 0).pc = .balancing →
      (s.results.rank 0).nbResult = (s.results.rank 0).nbUsrResults)
    (hs : next cfg net s (0, a) = some s') : LoneControl (s'.control 0) := by
  cases a with
  | advance b => exact hc.advance hnb hs
  | setProblem =>
    have hs' := stepped_of_next hs
    simp only [System.next] at hs
    split at hs
    · rename_i hpoint
      obtain ⟨tasks, ht, rfl⟩ := Option.map_eq_some_iff.mp hs
      have hidle : (s.tasks 0).pc = .idle := by
        cases Tasks.stepped_of_next ht
        assumption
      apply hc.stepped _ _ _ hs'
      · rw [hidle]
        rintro _ ⟨⟩
      · rw [hpoint]
        rintro ⟨⟩
      · rw [hpoint]
        rintro ⟨⟩
    · cases hs
  | select victim =>
    simp only [System.next] at hs
    split at hs
    · rename_i hpoint
      have hlone := hc.point
      rw [hpoint] at hlone
      cases hlone
    · cases hs
  | land m w =>
    obtain ⟨results, -, rfl⟩ := Option.map_eq_some_iff.mp hs
    rw [control_setPoint]
    exact hc.setPoint hc.point
  | deliver m =>
    obtain ⟨results, -, rfl⟩ := Option.map_eq_some_iff.mp hs
    rw [control_setPoint]
    exact hc.setPoint hc.point

/-- The session that `set_problem` starts has nothing to send yet. -/
theorem allSubmitted_setProblem (k : ℕ) (hpc : (s.results.rank 0).pc = .idle)
    (htmp : (s.results.rank 0).tmp = none) :
    AllSubmitted ((s.results.setSegment 0 (constructSegment cfg (s.results.segment 0))).setRank 0
      (constructResults cfg k 0 (s.results.rank 0))) := by
  rintro e ⟨kind, q⟩ hat
  obtain rfl : q = 0 := Subsingleton.elim _ _
  have hcarrying : (constructResults cfg k 0 (s.results.rank 0)).pc.carrying = none := by
    simp only [constructResults, hpc]
    rfl
  have hremaining := Results.remaining_of_carrying hcarrying
  have hcollected : (constructResults cfg k 0 (s.results.rank 0)).pc.collected = false := by
    simp only [constructResults, hpc]
    rfl
  simp only [Results.At, Results.State.segment_setRank, Results.State.segment_setSegment,
    Results.State.rank_setRank, Function.update_self] at hat
  cases kind with
  | tmp =>
    rw [Results.elements_tmp_of_carrying hcarrying] at hat
    simp only [constructResults, htmp] at hat
    cases hat
  | submitted => rfl
  | slot =>
    simp only [Results.elements, hcollected] at hat
    cases hat
  | transiting =>
    rw [Results.elements, hremaining] at hat
    cases hat

/-- A step of a rank that is alone leaves nothing unsubmitted. -/
theorem allSubmitted_stepped (h : SystemOk cfg net s) (hall : AllSubmitted s.results)
    (hs : Stepped cfg net s 0 s') : AllSubmitted s'.results := by
  cases hs with
  | move | tasks | reach | report | pass => exact hall
  | forward c p hf =>
    rcases hf with ⟨-, hchild, -⟩ | ⟨-, hchild, -⟩ <;> cases hchild
  | results a p results hcall hnext => exact allSubmitted_next h.results hall hnext
  | push owner tasks results hpoint hnb howner hnext =>
    exact allSubmitted_next h.results hall hnext
  | finish tasks hpoint hnext =>
    rintro e ⟨kind, q⟩ hat
    obtain rfl : q = 0 := Subsingleton.elim _ _
    apply hall e (kind, 0)
    cases kind <;> exact hat
  | setProblem tasks hpoint hnext =>
    have hsending := (h.send 0).sending
    rw [hpoint] at hsending
    exact allSubmitted_setProblem _ hsending.1 hsending.2

end Steps

theorem lone_invariant (cfg : Config 1) (net : Results.Network 1) :
    (system cfg net).Invariant LoneOk := by
  apply ((tasksOk_invariant cfg net).and (system_invariant cfg net)).of_step
  · intro s hi
    constructor
    · intro e p hat
      obtain ⟨q, hq⟩ := (SystemOk.init hi).conserved.pushed_of_at hat
      rw [(hi.2.1.2 q).pushed] at hq
      cases hq
    · have hc := hi.2.2 0
      refine ⟨hc.terminationStatus, hc.subtreeTermintionReached, ?_⟩
      rw [hc.point]
      rfl
  · rintro s ⟨q, a⟩ s' ⟨ht, h⟩ hlone hs
    obtain rfl : q = 0 := Subsingleton.elim _ _
    constructor
    · exact allSubmitted_stepped h hlone.submitted (stepped_of_next hs)
    · exact hlone.control.next (fun hpc => (nbResult_eq_of_balancing ht h hlone.submitted hpc).1) hs

/-! ### The runs -/

/-- What `load_balancing` does on one rank. -/
structure SingleRank (cfg : Config 1) (net : Results.Network 1) (s : State 1) : Prop where
  /-- It does not get to `select_target_rank`. -/
  notSelecting : (s.control 0).point ≠ .selecting
  /-- From its start on the results of all tasks have been submitted on the rank, -/
  nbResult : (s.tasks 0).pc = .balancing →
    (s.results.rank 0).nbResult = (s.results.rank 0).nbUsrResults ∧
      (s.results.rank 0).nbUsrResults = cfg.nbTask (s.tasks 0).current 0 ∧
      Complete cfg s (s.tasks 0).current 0
  /-- and `termination_detection` detects the end of the session, so that it returns `FINISHED`. -/
  finished : (s.tasks 0).pc = .balancing → (s.control 0).point = .entry → ∀ b,
    (system cfg net).run s (List.replicate 5 (0, .advance b)) = some (s.setPoint 0 .finishing)

/-- A run on one rank, with any number of tasks in any number of sessions, never gets to victim
selection. -/
theorem single_rank_never_selects (hr : (system cfg net).Reachable s) : SingleRank cfg net s := by
  have ht := tasksOk_of_reachable hr
  have h := (system_invariant cfg net).holds hr
  have hlone := (lone_invariant cfg net).holds hr
  constructor
  · intro hpoint
    have hp := hlone.control.point
    rw [hpoint] at hp
    cases hp
  · intro hpc
    obtain ⟨hnb, husr⟩ := nbResult_eq_of_balancing ht h hlone.submitted hpc
    exact ⟨hnb, husr, complete_of_balancing ht h hlone.submitted hpc⟩
  · intro hpc hpoint b
    have hnb := (nbResult_eq_of_balancing ht h hlone.submitted hpc).1
    exact run_balancing hlone.control hpoint hpc hnb

/-- One rank with four tasks. -/
def oneRank : Config 1 where
  sharedTaskSegmentSize := 4096
  taskSize _ := 8
  resultSize _ := 8
  nbTask _ _ := 4
  problem _ _ i := UInt8.ofNat i
  result _ _ _ := 0
  ptrTaskFunction _ _ := 0
  call _ bytes b := bytes.getD b 0 + 1
  size_lt _ _ := by decide

/-- The rank before its first session. -/
def alone : State 1 where
  tasks _ :=
    { pc := .idle
      dq := ⟨0, 0, fun _ => 0, 0, 0, 0, 0, 0, 0⟩
      seg := ⟨.noTask, 4096, 0, 0, 0, 0, 0, 0, 0, fun _ => 0⟩
      tmp := ⟨none, 0, 0, 0, 0, 0, fun _ => 0⟩
      session := 0
      finished := 0
      executed := []
      log := ⟨0, 0, 0, 0, 0, 0, 0, 0, 0, 0⟩ }
  results :=
    { segment := fun _ => ⟨.segmentAvailable, 1024, sizeofMetadataResult, sizeofMetadataResult, 0,
        fun _ => none, fun _ => 0, [], []⟩
      rank := fun _ => ⟨.idle, 0, 8, 1, fun _ => 0, [], none, none, [], []⟩ }
  control r := ⟨resetFlags r, false, .entry⟩

theorem alone_init : (system oneRank (Results.direct 1)).init alone := by
  refine ⟨?_, ⟨?_, ?_⟩, ?_⟩ <;> intro r
  · exact ⟨rfl, rfl, rfl, rfl, rfl, rfl, rfl, rfl⟩
  · exact ⟨rfl, rfl, show sizeofMetadataResult < 1024 by decide, rfl, fun _ => rfl, rfl, rfl⟩
  · exact ⟨rfl, rfl, rfl, rfl, rfl, rfl, rfl⟩
  · exact ⟨rfl, rfl, rfl⟩

/-- The rank shares tasks, takes them back, and executes all four before `load_balancing`. -/
theorem single_rank_never_selects_after_sharing :
    ∃ s, (system oneRank (Results.direct 1)).Reachable s ∧ (s.tasks 0).pc = .balancing ∧
      (s.control 0).point = .entry ∧ (s.tasks 0).executed.length = 4 ∧
      SingleRank oneRank (Results.direct 1) s := by
  obtain ⟨s, hr, hpc, hpoint, hexec⟩ := Transition.System.exists_reachable alone_init
    ((0, .setProblem) :: List.replicate 41 (0, .advance false))
    (fun s => (s.tasks 0).pc = .balancing ∧ (s.control 0).point = .entry ∧
      (s.tasks 0).executed.length = 4) (by decide +kernel)
  exact ⟨s, hr, hpc, hpoint, hexec, single_rank_never_selects hr⟩

end Titus.System
