import Titus.System.Termination

/-! Every step keeps what the flags count and what each rank has seen of them. -/

namespace Titus.System

variable {n : ℕ} {cfg : Config n} {net : Results.Network n} {s s' : State n} {r : Fin n}

section Steps

variable {tasks : Tasks.State n} {results : Results.State n} {c : Control} {p : Point}

/-- At this point the rank has neither detected the end of the session nor is about to report. -/
def Point.plain (p : Point) : Bool := !p.detected && p ≠ .reporting

theorem Point.plain_iff : p.plain ↔ p.detected = false ∧ p ≠ .reporting := by
  simp [Point.plain]

theorem passedTo_of_not_detected (h : p.detected = false) (v : Fin n) : p.passedTo v = false := by
  apply Bool.eq_false_of_not_eq_true
  intro hp
  rw [detected_of_passedTo hp] at h
  cases h

/-- A step that ends no session increments the flags of those that are reported to or passed the end
of the session. -/
theorem FlagsOk.of_delta (h : FlagsOk s)
    (hfin : ∀ q, (s'.tasks q).finished = (s.tasks q).finished)
    (hchild : ∀ v, 0 < v.val →
      childFlag v (s'.control (HeapTree.parent v)).terminationStatus +
          (s.control v).reported.toNat =
        childFlag v (s.control (HeapTree.parent v)).terminationStatus +
          (s'.control v).reported.toNat)
    (hglobal : ∀ v, 0 < v.val →
      (s'.control v).terminationStatus.globalTerminationDetected +
          ((s.control (HeapTree.parent v)).point.passedTo v).toNat =
        (s.control v).terminationStatus.globalTerminationDetected +
          ((s'.control (HeapTree.parent v)).point.passedTo v).toNat)
    (hroot : ∀ v, v.val = 0 → (s'.control v).terminationStatus.globalTerminationDetected =
      (s.control v).terminationStatus.globalTerminationDetected)
    (hleft : ∀ v, leftChild v = none →
      (s'.control v).terminationStatus.leftChildSubtreeTermination =
        (s.control v).terminationStatus.leftChildSubtreeTermination)
    (hright : ∀ v, rightChild v = none →
      (s'.control v).terminationStatus.rightChildSubtreeTermination =
        (s.control v).terminationStatus.rightChildSubtreeTermination) : FlagsOk s' := by
  constructor
  · intro v hv
    have h1 := h.child v hv
    have h2 := hchild v hv
    unfold reports at h1 ⊢
    rw [hfin, hfin]
    omega
  · intro v hv
    have h1 := h.global v hv
    have h2 := hglobal v hv
    unfold passed at h1 ⊢
    rw [hfin, hfin]
    omega
  · intro v hv
    rw [hroot v hv, h.root v hv]
  · intro v hv
    rw [hleft v hv, h.noLeft v hv]
  · intro v hv
    rw [hright v hv, h.noRight v hv]

/-- A step that changes the control of rank `r` and nothing that the flags count. -/
theorem TerminationOk.setControl (h : TerminationOk s)
    (hpc : ∀ q, q ≠ r → (tasks q).pc = (s.tasks q).pc)
    (hfin : ∀ q, (tasks q).finished = (s.tasks q).finished)
    (hcontrol : ControlOk r (tasks r).pc c)
    (hflags : c.terminationStatus = (s.control r).terminationStatus)
    (hreported : 0 < r.val → c.reported = (s.control r).reported)
    (hpassed : ∀ v, 0 < v.val → HeapTree.parent v = r →
      c.point.passedTo v = (s.control r).point.passedTo v) :
    TerminationOk (State.setControl ⟨tasks, results, s.control⟩ r c) := by
  have hstatus : ∀ q, (Function.update s.control r c q).terminationStatus =
      (s.control q).terminationStatus := by
    intro q
    by_cases hq : q = r
    · subst hq
      rwa [Function.update_self]
    · rw [Function.update_of_ne hq]
  constructor
  · intro q
    simp only [State.tasks_setControl, State.control_setControl]
    by_cases hq : q = r
    · subst hq
      rwa [Function.update_self]
    · rw [Function.update_of_ne hq, hpc q hq]
      exact h.control q
  · apply h.flags.of_delta hfin
    · intro v hv
      simp only [State.control_setControl, hstatus]
      by_cases hq : v = r
      · subst hq
        rw [Function.update_self, hreported hv]
      · rw [Function.update_of_ne hq]
    · intro v hv
      simp only [State.control_setControl, hstatus]
      by_cases hq : HeapTree.parent v = r
      · rw [hq, Function.update_self, hpassed v hv hq]
      · rw [Function.update_of_ne hq]
    · intro v _
      rw [State.control_setControl, hstatus]
    · intro v _
      rw [State.control_setControl, hstatus]
    · intro v _
      rw [State.control_setControl, hstatus]

/-- A step between two plain points. -/
theorem TerminationOk.setPoint (h : TerminationOk s)
    (hpc : ∀ q, q ≠ r → (tasks q).pc = (s.tasks q).pc)
    (hfin : ∀ q, (tasks q).finished = (s.tasks q).finished)
    (hsess : Tasks.InSession (s.tasks r).pc → Tasks.InSession (tasks r).pc)
    (hpoint : PointOk (tasks r).pc p)
    (hold : (s.control r).point.plain) (hnew : p.plain)
    (hleft : p = .readingRight →
      1 ≤ (s.control r).terminationStatus.leftChildSubtreeTermination)
    (haborted : ∀ a, p = .aborted a → a = .nbResult ∨ a = .notEmpty) :
    TerminationOk (State.setPoint ⟨tasks, results, s.control⟩ r p) := by
  rw [Point.plain_iff] at hold hnew
  apply h.setControl hpc hfin
  · apply (h.control r).setPoint hpoint hsess _ hleft hnew.2 haborted
    intro hp
    rw [hnew.1] at hp
    cases hp
  · rfl
  · intro _
    simp only [Control.reported, hold.1, hnew.1, Bool.false_or, hold.2, hnew.2, ne_eq,
      not_false_eq_true]
  · intro v _ _
    rw [passedTo_of_not_detected hnew.1, passedTo_of_not_detected hold.1]

theorem TerminationOk.setResults (h : TerminationOk s) (results : Results.State n) :
    TerminationOk ⟨s.tasks, results, s.control⟩ := by
  constructor
  · exact h.control
  · obtain ⟨h1, h2, h3, h4, h5⟩ := h.flags
    exact ⟨h1, h2, h3, h4, h5⟩

theorem TerminationOk.move (h : TerminationOk s) (ht : TasksOk cfg s.tasks)
    (hm : Moved s r (s.control r).point p) : TerminationOk (s.setPoint r p) := by
  have hr := h.control r
  have hplace := hr.point
  generalize hp₀ : (s.control r).point = p₀ at hm hplace
  have hplain : ∀ {p₁ : Point}, PointOk (s.tasks r).pc p₁ → p₀.plain → p₁.plain →
      (p₁ = .readingRight →
        1 ≤ (s.control r).terminationStatus.leftChildSubtreeTermination) →
      (∀ a, p₁ = .aborted a → a = .nbResult ∨ a = .notEmpty) →
      TerminationOk (s.setPoint r p₁) := by
    intro p₁ hpoint hold hnew hleft haborted
    rw [← hp₀] at hold
    exact h.setPoint (fun _ _ => rfl) (fun _ => rfl) id hpoint hold hnew hleft haborted
  cases hm with
  | empty site hpc => exact hplain ⟨site, hpc⟩ rfl rfl (by rintro ⟨⟩) (by rintro _ ⟨⟩)
  | firstFlushed | tmpEmpty | pushed | stillEmpty | secondFlushed =>
    exact hplain hplace rfl rfl (by rintro ⟨⟩) (by rintro _ ⟨⟩)
  | noOwner hnb howner =>
    have htmp := ((ht.protocol.rank r).tmpOk hnb).owner
    rw [howner] at htmp
    cases htmp
  | tooMany | notEmpty => exact hplain trivial rfl rfl (by rintro ⟨⟩) (by rintro _ ⟨⟩; simp)
  | complete hpc | incomplete hpc => exact hplain hpc rfl rfl (by rintro ⟨⟩) (by rintro _ ⟨⟩)
  | leftDone hleft => exact hplain hplace rfl rfl (fun _ => hleft.ge) (by rintro _ ⟨⟩)
  | notDone p hp =>
    rcases hp with rfl | rfl | rfl <;>
      exact hplain hplace rfl rfl (by rintro ⟨⟩) (by rintro _ ⟨⟩)
  | askGlobal p hp =>
    rcases hp with rfl | rfl <;> exact hplain hplace rfl rfl (by rintro ⟨⟩) (by rintro _ ⟨⟩)
  | rootReached h0 hreached => exact absurd h0 (hr.reached hreached).1
  | self | left => exact hplain trivial rfl rfl (by rintro ⟨⟩) (by rintro _ ⟨⟩)
  | rootDone h0 hright hreached =>
    apply h.setControl (fun _ _ => rfl) (fun _ => rfl)
    · constructor
      · exact hplace
      · intro _
        exact hr.left (.inl hp₀)
      · intro _
        exact hright.ge
      · intro _ hne
        exact absurd h0 hne
      · intro h1
        rw [hreached] at h1
        cases h1
      · rintro ⟨⟩
      · rintro _ ⟨⟩
    · rfl
    · intro hpos
      omega
    · intro v _ _
      rw [hp₀]
      simp [Point.passedTo]
  | noLeft hnone =>
    apply h.setControl (fun _ _ => rfl) (fun _ => rfl)
    · apply hr.setPoint (p := .forwardingRight) hplace id _ (by rintro ⟨⟩) (by rintro ⟨⟩)
        (by rintro _ ⟨⟩)
      rw [hp₀]
      exact id
    · rfl
    · intro _
      simp only [Control.reported, hp₀, Point.detected, Bool.true_or]
    · intro v hv hparent
      rcases HeapTree.left_or_right hv with ⟨-, hchild⟩ | ⟨heven, -⟩
      · rw [hparent] at hchild
        cases hnone.symm.trans hchild
      · simp [Point.passedTo, hp₀, heven]
  | noRight hnone =>
    apply h.setControl (fun _ _ => rfl) (fun _ => rfl)
    · apply hr.setPoint (p := .finishing) hplace id _ (by rintro ⟨⟩) (by rintro ⟨⟩) (by rintro _ ⟨⟩)
      rw [hp₀]
      exact id
    · rfl
    · intro _
      simp only [Control.reported, hp₀, Point.detected, Bool.true_or]
    · intro v hv hparent
      rcases HeapTree.left_or_right hv with ⟨hodd, -⟩ | ⟨-, hchild⟩
      · simp [Point.passedTo, hp₀, hodd]
      · rw [hparent] at hchild
        cases hnone.symm.trans hchild

theorem TasksCall.action_ne {a : Tasks.Action n} (h : TasksCall s r p a) :
    a ≠ .setProblem ∧ a ≠ .finish ∧ a ≠ .pushed := by
  cases h <;> refine ⟨?_, ?_, ?_⟩ <;> rintro ⟨⟩

theorem TasksCall.plain {a : Tasks.Action n} (h : TasksCall s r p a) : p.plain := by
  cases h <;> rfl

theorem finished_eq {a : Tasks.Action n} (ha : a ≠ .finish)
    (hs : Tasks.next cfg s.tasks (r, a) = some tasks) (q : Fin n) :
    (tasks q).finished = (s.tasks q).finished := by
  rw [(Tasks.stepped_of_next hs).finished, if_neg fun hc => ha hc.1]
  rfl

theorem TerminationOk.stepTasks (h : TerminationOk s) {a : Tasks.Action n}
    (hcall : TasksCall s r (s.control r).point a)
    (hs : Tasks.next cfg s.tasks (r, a) = some tasks) :
    TerminationOk (State.setPoint ⟨tasks, results, s.control⟩ r .entry) := by
  obtain ⟨ha, ha', -⟩ := hcall.action_ne
  have hstep := Tasks.stepped_of_next hs
  apply h.setPoint
  · exact fun q hq => hstep.pc_of_ne hq
  · exact finished_eq ha' hs
  · exact fun _ => hstep.inSession ha ha'
  · trivial
  · exact hcall.plain
  · rfl
  · rintro ⟨⟩
  · rintro _ ⟨⟩

theorem TerminationOk.stepResults (h : TerminationOk s) {a : Results.Action n}
    (hcall : ResultsCall s r (s.control r).point a p) :
    TerminationOk (State.setPoint ⟨s.tasks, results, s.control⟩ r p) := by
  have hplace := (h.control r).point
  generalize hp₀ : (s.control r).point = p₀ at hcall hplace
  have hplain : PointOk (s.tasks r).pc p → p₀.plain → p.plain → p ≠ .readingRight →
      (∀ a, p ≠ .aborted a) →
      TerminationOk (State.setPoint ⟨s.tasks, results, s.control⟩ r p) := by
    intro hpoint hold hnew hne haborted
    rw [← hp₀] at hold
    exact h.setPoint (fun _ _ => rfl) (fun _ => rfl) id hpoint hold hnew
      (fun hp => absurd hp hne) fun a hp => absurd hp (haborted a)
  have hsame : p = (s.control r).point →
      TerminationOk (State.setPoint ⟨s.tasks, results, s.control⟩ r p) := by
    rintro rfl
    have := h.setResults results
    rwa [State.setPoint, State.setControl, Function.update_eq_self]
  cases hcall with
  | firstFlush site hpc => exact hplain ⟨site, hpc⟩ rfl rfl (by rintro ⟨⟩) (by rintro _ ⟨⟩)
  | bufferFlush hpc => exact hplain hpc rfl rfl (by rintro ⟨⟩) (by rintro _ ⟨⟩)
  | secondFlush => exact hplain hplace rfl rfl (by rintro ⟨⟩) (by rintro _ ⟨⟩)
  | inFlush | inPush | land | deliver => exact hsame hp₀.symm

theorem TerminationOk.push (h : TerminationOk s) (hpoint : (s.control r).point = .testingTmp)
    (hs : Tasks.next cfg s.tasks (r, .pushed) = some tasks) :
    TerminationOk (State.setPoint ⟨tasks, results, s.control⟩ r .pushing) := by
  have hplace := (h.control r).point
  have hstep := Tasks.stepped_of_next hs
  have hpc : (tasks r).pc = (s.tasks r).pc := by
    cases hstep
    rw [Function.update_self]
  apply h.setPoint
  · exact fun q hq => hstep.pc_of_ne hq
  · exact finished_eq (by rintro ⟨⟩) hs
  · rw [hpc]
    exact id
  · rw [hpoint] at hplace
    rw [hpc]
    exact hplace
  · rw [hpoint]
    rfl
  · rfl
  · rintro ⟨⟩
  · rintro _ ⟨⟩

theorem TerminationOk.reach (h : TerminationOk s) (hpoint : (s.control r).point = .readingRight)
    (hr : r.val ≠ 0) (hright : (s.control r).terminationStatus.rightChildSubtreeTermination = 1)
    (hreached : (s.control r).subtreeTermintionReached = false) :
    TerminationOk (s.setControl r
      { s.control r with subtreeTermintionReached := true, point := .reporting }) := by
  have hctrl := h.control r
  have hplace := hctrl.point
  rw [hpoint] at hplace
  apply h.setControl (fun _ _ => rfl) (fun _ => rfl)
  · constructor
    · exact hplace
    · intro _
      exact hctrl.left (.inl hpoint)
    · intro _
      exact hright.ge
    · rintro ⟨⟩
    · intro _
      refine ⟨hr, ?_, by rintro ⟨⟩⟩
      rw [hplace]
      constructor <;> rintro ⟨⟩
    · intro _
      rfl
    · rintro _ ⟨⟩
  · rfl
  · intro _
    simp [Control.reported, hpoint, hreached, Point.detected]
  · intro v _ _
    rw [hpoint]
    rfl

theorem TerminationOk.pass (h : TerminationOk s) (hpoint : (s.control r).point = .readingGlobal)
    (hreached : (s.control r).subtreeTermintionReached = true)
    (hglobal : (s.control r).terminationStatus.globalTerminationDetected = 1) :
    TerminationOk (s.setControl r
      { s.control r with subtreeTermintionReached := false, point := .forwardingLeft }) := by
  have hctrl := h.control r
  have hplace := hctrl.point
  rw [hpoint] at hplace
  apply h.setControl (fun _ _ => rfl) (fun _ => rfl)
  · constructor
    · exact hplace
    · intro _
      exact hctrl.left (.inr (.inl hreached))
    · intro _
      exact hctrl.right (.inl hreached)
    · intro _ _
      exact hglobal.ge
    · rintro ⟨⟩
    · rintro ⟨⟩
    · rintro _ ⟨⟩
  · rfl
  · intro _
    simp [Control.reported, hpoint, hreached, Point.detected]
  · intro v _ _
    rw [hpoint]
    simp [Point.passedTo]

/-- A step that increments a flag of rank `v` and takes rank `r` to another point. -/
theorem control_addFlag_setPoint (s : State n) (v : Fin n) (p : Point)
    (add : TerminationStatus → TerminationStatus) (q : Fin n) :
    ((s.addFlag v add).setPoint r p).control q =
      { s.control q with
        terminationStatus := if q = v then add (s.control q).terminationStatus
          else (s.control q).terminationStatus
        point := if q = r then p else (s.control q).point } := by
  simp only [State.addFlag, State.setPoint, State.control_setControl]
  by_cases hq : q = r <;> by_cases hv : q = v
  · subst hq
    simp only [Function.update_self, if_true, hv]
  · subst hq
    simp only [Function.update_self, Function.update_of_ne hv, if_true, hv, if_false]
  · subst hv
    simp only [Function.update_of_ne hq, Function.update_self, if_true, hq, if_false]
  · simp only [Function.update_of_ne hq, Function.update_of_ne hv, hq, hv, if_false]

/-- The flag of one child of a rank is not that of the other. -/
theorem childFlag_report {v c : Fin n} (hv : 0 < v.val) (hc : 0 < c.val)
    (hparent : HeapTree.parent v = HeapTree.parent c) (f : TerminationStatus) :
    childFlag v ((if c.val % 2 = 1 then addLeft else addRight) f) =
      childFlag v f + if v = c then 1 else 0 := by
  have hval := Fin.ext_iff.mp hparent
  simp only [HeapTree.parent] at hval
  by_cases heq : v = c
  · subst heq
    unfold childFlag
    by_cases hodd : v.val % 2 = 1 <;> simp [hodd, addLeft, addRight]
  · have hne : v.val ≠ c.val := fun hval => heq (Fin.ext hval)
    unfold childFlag
    by_cases hodd : c.val % 2 = 1
    · have heven : ¬ v.val % 2 = 1 := by omega
      simp [hodd, heven, heq, addLeft]
    · have heven : v.val % 2 = 1 := by omega
      simp [hodd, heven, heq, addRight]

theorem TerminationOk.report (h : TerminationOk s) (hpoint : (s.control r).point = .reporting) :
    TerminationOk ((report s r).setPoint r .selecting) := by
  have hreached := (h.control r).reporting hpoint
  have hr : 0 < r.val := Nat.pos_of_ne_zero ((h.control r).reached hreached).1
  have hplace := (h.control r).point
  rw [hpoint] at hplace
  unfold System.report
  generalize hadd : (if r.val % 2 = 1 then addLeft else addRight) = add
  have hcases : add = addLeft ∨ add = addRight ∨ add = addGlobal := by
    rw [← hadd]
    split
    · exact .inl rfl
    · exact .inr (.inl rfl)
  have hglobal : ∀ f, (add f).globalTerminationDetected = f.globalTerminationDetected := by
    rw [← hadd]
    split <;> intro f <;> rfl
  constructor
  · intro q
    have hq := controlOk_addFlag h.control (HeapTree.parent r) hcases q
    simp only [State.setPoint, State.control_setControl]
    by_cases hqr : q = r
    · subst hqr
      rw [Function.update_self]
      exact hq.setPoint hplace id (by rintro ⟨⟩) (by rintro ⟨⟩) (by rintro ⟨⟩) (by rintro _ ⟨⟩)
    · rw [Function.update_of_ne hqr]
      exact hq
  apply h.flags.of_delta
  · exact fun _ => rfl
  · intro v hv
    simp only [control_addFlag_setPoint]
    -- the step reports for rank `r` and for no other
    have hrep : Control.reported { s.control v with
        terminationStatus := if v = HeapTree.parent r then add (s.control v).terminationStatus
          else (s.control v).terminationStatus
        point := if v = r then .selecting else (s.control v).point } =
          ((s.control v).reported || decide (v = r)) := by
      by_cases hvr : v = r
      · subst hvr
        simp [Control.reported, hreached]
      · simp [Control.reported, hvr]
    have hold : v = r → (s.control v).reported = false := by
      rintro rfl
      simp [Control.reported, hpoint, Point.detected]
    rw [hrep]
    by_cases hparent : HeapTree.parent v = HeapTree.parent r
    · rw [if_pos hparent, ← hadd, childFlag_report hv hr hparent]
      by_cases hvr : v = r
      · rw [hold hvr, if_pos hvr, decide_eq_true hvr]
        rfl
      · rw [if_neg hvr, decide_eq_false hvr, Bool.or_false]
        rfl
    · have hvr : v ≠ r := fun heq => hparent (congrArg _ heq)
      rw [if_neg hparent, decide_eq_false hvr, Bool.or_false]
  · intro v _
    simp only [control_addFlag_setPoint]
    have hflag : (if v = HeapTree.parent r then add (s.control v).terminationStatus
        else (s.control v).terminationStatus).globalTerminationDetected =
          (s.control v).terminationStatus.globalTerminationDetected := by
      split
      · exact hglobal _
      · rfl
    rw [hflag]
    by_cases hparent : HeapTree.parent v = r
    · rw [hparent, if_pos rfl, hpoint]
      rfl
    · rw [if_neg hparent]
  · intro v _
    rw [control_addFlag_setPoint]
    simp only
    split
    · exact hglobal _
    · rfl
  · intro v hv
    rw [control_addFlag_setPoint]
    simp only
    split
    · rename_i heq
      rcases HeapTree.left_or_right hr with ⟨-, hchild⟩ | ⟨heven, -⟩
      · rw [← heq] at hchild
        cases hv.symm.trans hchild
      · rw [← hadd, if_neg (by omega)]
        rfl
    · rfl
  · intro v hv
    rw [control_addFlag_setPoint]
    simp only
    split
    · rename_i heq
      rcases HeapTree.left_or_right hr with ⟨hodd, -⟩ | ⟨-, hchild⟩
      · rw [← hadd, if_pos hodd]
        rfl
      · rw [← heq] at hchild
        cases hv.symm.trans hchild
    · rfl

/-- Where a rank passes the end of its session on to the child `c`, and goes on to the point `p`. -/
def Forwards (s : State n) (r c : Fin n) (p : Point) : Prop :=
  (s.control r).point = .forwardingLeft ∧ leftChild r = some c ∧ p = .forwardingRight ∨
    (s.control r).point = .forwardingRight ∧ rightChild r = some c ∧ p = .finishing

section Forwards

variable {v : Fin n}

theorem Forwards.detected (hf : Forwards s r v p) :
    (s.control r).point.detected = true ∧ p.detected = true := by
  rcases hf with ⟨hp, -, rfl⟩ | ⟨hp, -, rfl⟩ <;> rw [hp] <;> exact ⟨rfl, rfl⟩

theorem Forwards.child (hf : Forwards s r v p) : 0 < v.val ∧ HeapTree.parent v = r := by
  rcases hf with ⟨-, hc, -⟩ | ⟨-, hc, -⟩
  · exact ⟨(left_child hc).1, (left_child hc).2.1⟩
  · exact ⟨(right_child hc).1, (right_child hc).2.1⟩

/-- The step passes the end of the session on to `v` and to no other child. -/
theorem Forwards.passedTo (hf : Forwards s r v p) {w : Fin n} (hw : 0 < w.val)
    (hparent : HeapTree.parent w = r) :
    (p.passedTo w).toNat = ((s.control r).point.passedTo w).toNat + if w = v then 1 else 0 := by
  rcases hf with ⟨hp, hc, rfl⟩ | ⟨hp, hc, rfl⟩ <;> rw [hp]
  · rcases HeapTree.left_or_right hw with ⟨hodd, hchild⟩ | ⟨heven, hchild⟩
    · rw [hparent] at hchild
      have heq : w = v := Option.some.inj (hchild.symm.trans hc)
      simp [Point.passedTo, heq, heq ▸ hodd]
    · have hne : w ≠ v := by
        rintro rfl
        have := HeapTree.left_eq_some.mp hc
        omega
      simp [Point.passedTo, heven, hne]
  · rcases HeapTree.left_or_right hw with ⟨hodd, hchild⟩ | ⟨heven, hchild⟩
    · have hne : w ≠ v := by
        rintro rfl
        have := HeapTree.right_eq_some.mp hc
        omega
      simp [Point.passedTo, hodd, hne]
    · rw [hparent] at hchild
      have heq : w = v := Option.some.inj (hchild.symm.trans hc)
      simp [Point.passedTo, heq, heq ▸ heven]

/-- A rank that passes the end of its session on is the first to do so, and the child is in the same
session. -/
theorem Forwards.fresh (hf : Forwards s r v p) (ht : TasksOk cfg s.tasks) (h : TerminationOk s) :
    (s.control v).terminationStatus.globalTerminationDetected = 0 ∧
      (s.tasks v).finished = (s.tasks r).finished := by
  obtain ⟨hpos, hparent⟩ := hf.child
  have hglobal := h.flags.global v hpos
  have hpassed := hf.passedTo hpos hparent
  have hle : (p.passedTo v).toNat ≤ 1 := Bool.toNat_le _
  have hsess := ht.session_le (inSession_of_detected (h.control r).point hf.detected.1) v
  have hbound := (ht.session_bounds v).2
  rw [if_pos rfl] at hpassed
  rw [passed, hparent] at hglobal
  omega

end Forwards

theorem TerminationOk.forward (h : TerminationOk s) (ht : TasksOk cfg s.tasks) {v : Fin n}
    (hf : Forwards s r v p) : TerminationOk (forward s r (some v) p) := by
  obtain ⟨hold, hnew⟩ := hf.detected
  have hplace := (h.control r).point
  have hpoint : PointOk (s.tasks r).pc p := by
    rcases hf with ⟨hp, -, rfl⟩ | ⟨hp, -, rfl⟩ <;> rw [hp] at hplace <;> exact hplace
  have hne : p ≠ .readingRight ∧ p ≠ .reporting ∧ ∀ a, p ≠ .aborted a := by
    rcases hf with ⟨-, -, rfl⟩ | ⟨-, -, rfl⟩ <;> refine ⟨?_, ?_, ?_⟩
    all_goals first | rintro _ ⟨⟩ | rintro ⟨⟩
  simp only [System.forward, (hf.fresh ht h).1, if_true]
  constructor
  · intro q
    have hq := controlOk_addFlag h.control v (.inr (.inr rfl)) q
    simp only [State.setPoint, State.control_setControl]
    by_cases hqr : q = r
    · subst hqr
      rw [Function.update_self]
      apply hq.setPoint hpoint id _ (fun hp => absurd hp hne.1) hne.2.1
        fun a hp => absurd hp (hne.2.2 a)
      intro _
      simp only [State.addFlag, State.control_setControl]
      by_cases hqv : q = v
      · subst hqv
        rwa [Function.update_self]
      · rwa [Function.update_of_ne hqv]
    · rw [Function.update_of_ne hqr]
      exact hq
  apply h.flags.of_delta
  · exact fun _ => rfl
  · intro w _
    simp only [control_addFlag_setPoint]
    have hrep : Control.reported { s.control w with
        terminationStatus := if w = v then addGlobal (s.control w).terminationStatus
          else (s.control w).terminationStatus
        point := if w = r then p else (s.control w).point } = (s.control w).reported := by
      by_cases hwr : w = r
      · subst hwr
        simp [Control.reported, hold, hnew]
      · simp [Control.reported, hwr]
    rw [hrep]
    split <;> rfl
  · intro w hw
    simp only [control_addFlag_setPoint]
    have hflag : (if w = v then addGlobal (s.control w).terminationStatus
        else (s.control w).terminationStatus).globalTerminationDetected =
          (s.control w).terminationStatus.globalTerminationDetected + if w = v then 1 else 0 := by
      split <;> rfl
    rw [hflag]
    by_cases hparent : HeapTree.parent w = r
    · rw [hparent, if_pos rfl, hf.passedTo hw hparent]
      omega
    · have hwv : w ≠ v := by
        rintro rfl
        exact hparent hf.child.2
      rw [if_neg hparent, if_neg hwv]
      rfl
  · intro w hw
    have hwv : w ≠ v := by
      rintro rfl
      have := hf.child.1
      omega
    rw [control_addFlag_setPoint]
    simp only [if_neg hwv]
  · intro w _
    rw [control_addFlag_setPoint]
    simp only
    split <;> rfl
  · intro w _
    rw [control_addFlag_setPoint]
    simp only
    split <;> rfl

/-- A rank that finishes the session has seen each flag incremented once. -/
theorem flags_of_detected (ht : TasksOk cfg s.tasks) (h : TerminationOk s)
    (hdet : (s.control r).point.detected) :
    (s.control r).terminationStatus.leftChildSubtreeTermination = 1 ∧
      (s.control r).terminationStatus.rightChildSubtreeTermination = 1 ∧
      (r.val ≠ 0 → (s.control r).terminationStatus.globalTerminationDetected = 1) := by
  obtain ⟨h1, h2, h3⟩ := flags_le_one ht h r
  have hctrl := h.control r
  exact ⟨le_antisymm h1 (hctrl.left (.inr (.inr hdet))), le_antisymm h2 (hctrl.right (.inr hdet)),
    fun hr => le_antisymm h3 (hctrl.global hdet hr)⟩

theorem childFlag_reset {v : Fin n} (hv : 0 < v.val) (hparent : HeapTree.parent v = r) :
    childFlag v (resetFlags r) = 0 := by
  unfold childFlag
  rcases HeapTree.left_or_right hv with ⟨hodd, hchild⟩ | ⟨heven, hchild⟩
  · rw [hparent] at hchild
    rw [if_pos hodd]
    simp [resetFlags, leftChild, hchild]
  · rw [hparent] at hchild
    rw [if_neg (by omega)]
    simp [resetFlags, rightChild, hchild]

/-- The end of a session on rank `r`: what its flags counted is counted by `finished` now. -/
theorem FlagsOk.finish (ht : TasksOk cfg s.tasks) (h : TerminationOk s)
    (hpoint : (s.control r).point = .finishing)
    (hfin : ∀ q, (s'.tasks q).finished = (s.tasks q).finished + if q = r then 1 else 0)
    (hcontrol : s'.control = Function.update s.control r
      { s.control r with terminationStatus := resetFlags r, point := .leaving }) :
    FlagsOk s' := by
  have hdet : (s.control r).point.detected := by
    rw [hpoint]
    rfl
  obtain ⟨hleft, hright, hglobal⟩ := flags_of_detected ht h hdet
  have hreached : (s.control r).subtreeTermintionReached = false := by
    apply Bool.eq_false_of_not_eq_true
    intro hr
    exact ((h.control r).reached hr).2.2 hdet
  have hself : s'.control r =
      { s.control r with terminationStatus := resetFlags r, point := .leaving } := by
    rw [hcontrol, Function.update_self]
  have hother : ∀ q, q ≠ r → s'.control q = s.control q := by
    intro q hq
    rw [hcontrol, Function.update_of_ne hq]
  have hreports : ∀ v, reports s' v = reports s v := by
    intro v
    unfold reports
    by_cases hvr : v = r
    · subst hvr
      simp [hself, hfin, Control.reported, hpoint, hreached, Point.detected]
    · rw [hother v hvr, hfin, if_neg hvr]
      rfl
  have hpassed : ∀ v, passed s' v = passed s v := by
    intro v
    unfold passed
    by_cases hparent : HeapTree.parent v = r
    · rw [hparent, hself, hfin, if_pos rfl, hpoint]
      simp [Point.passedTo]
    · rw [hother _ hparent, hfin, if_neg hparent]
      rfl
  constructor
  · intro v hv
    have hchild := h.flags.child v hv
    rw [hreports, ← hchild]
    by_cases hparent : HeapTree.parent v = r
    · have hflag : childFlag v (s.control r).terminationStatus = 1 := by
        unfold childFlag
        split
        · exact hleft
        · exact hright
      rw [hparent, hself, childFlag_reset hv hparent, hfin, if_pos rfl, hflag]
      omega
    · rw [hother _ hparent, hfin, if_neg hparent]
      rfl
  · intro v hv
    have hold := h.flags.global v hv
    rw [hpassed, ← hold]
    by_cases hvr : v = r
    · subst hvr
      rw [hself, hfin, if_pos rfl, hglobal (by omega)]
      simp only [resetFlags]
      omega
    · rw [hother v hvr, hfin, if_neg hvr]
      rfl
  · intro v hv
    by_cases hvr : v = r
    · subst hvr
      rw [hself]
      rfl
    · rw [hother v hvr]
      exact h.flags.root v hv
  · intro v hv
    by_cases hvr : v = r
    · subst hvr
      rw [hself]
      simp [resetFlags, hv]
    · rw [hother v hvr]
      exact h.flags.noLeft v hv
  · intro v hv
    by_cases hvr : v = r
    · subst hvr
      rw [hself]
      simp [resetFlags, hv]
    · rw [hother v hvr]
      exact h.flags.noRight v hv

theorem TerminationOk.finish (ht : TasksOk cfg s.tasks) (h : TerminationOk s)
    (hpoint : (s.control r).point = .finishing)
    (hs : Tasks.next cfg s.tasks (r, .finish) = some tasks) :
    TerminationOk (State.setControl ⟨tasks, results, s.control⟩ r
      { s.control r with terminationStatus := resetFlags r, point := .leaving }) := by
  have hstep := Tasks.stepped_of_next hs
  have hpc : (tasks r).pc = .idle := by
    cases hstep
    rw [Function.update_self]
  constructor
  · intro q
    simp only [State.tasks_setControl, State.control_setControl]
    by_cases hq : q = r
    · subst hq
      have hctrl := h.control q
      rw [Function.update_self]
      have hreached : ¬ (s.control q).subtreeTermintionReached := by
        intro hr
        apply (hctrl.reached hr).2.2
        rw [hpoint]
        rfl
      constructor
      · exact hpc
      · rintro (hp | hr | hp)
        · cases hp
        · exact absurd hr hreached
        · cases hp
      · rintro (hr | hp)
        · exact absurd hr hreached
        · cases hp
      · rintro ⟨⟩
      · intro hr
        exact absurd hr hreached
      · rintro ⟨⟩
      · rintro _ ⟨⟩
    · rw [Function.update_of_ne hq, hstep.pc_of_ne hq]
      exact h.control q
  · apply FlagsOk.finish ht h hpoint
    · intro q
      rw [State.tasks_setControl, hstep.finished q]
      simp only [true_and]
    · rfl

theorem TerminationOk.setProblem (ht : TasksOk cfg s.tasks) (h : TerminationOk s)
    (hpoint : (s.control r).point = .entry)
    (hs : Tasks.next cfg s.tasks (r, .setProblem) = some tasks) :
    TerminationOk (State.setControl ⟨tasks, results, s.control⟩ r
      { s.control r with terminationStatus := resetFlags r }) := by
  have hstep := Tasks.stepped_of_next hs
  have hctrl := h.control r
  have hpc : (s.tasks r).pc = .idle := by
    cases hstep
    assumption
  have hreached : ¬ (s.control r).subtreeTermintionReached := by
    intro hr
    exact (hctrl.reached hr).2.1.1 hpc
  -- the flags are reset since the end of the session before
  rw [← flags_eq_reset ht h ((ht.protocol.rank r).session_eq_of_idle hpc)]
  apply h.setControl
  · exact fun q hq => hstep.pc_of_ne hq
  · exact finished_eq (by rintro ⟨⟩) hs
  · constructor
    · rw [hpoint]
      trivial
    · exact hctrl.left
    · exact hctrl.right
    · exact hctrl.global
    · intro hr
      exact absurd hr hreached
    · exact hctrl.reporting
    · exact hctrl.aborted
  · rfl
  · intro _
    rfl
  · intro v _ _
    rfl

theorem TerminationOk.stepped (ht : TasksOk cfg s.tasks) (h : TerminationOk s)
    (hs : Stepped cfg net s r s') : TerminationOk s' := by
  cases hs with
  | move p hm => exact h.move ht hm
  | tasks a tasks hcall hnext => exact h.stepTasks hcall hnext
  | results a p results hcall hnext => exact h.stepResults hcall
  | push owner tasks results hpoint hnb howner hs hnext => exact h.push hpoint hnext
  | reach hpoint hr hright hreached => exact h.reach hpoint hr hright hreached
  | report hpoint => exact h.report hpoint
  | pass hpoint hreached hglobal => exact h.pass hpoint hreached hglobal
  | forward c p hf => exact h.forward ht hf
  | finish tasks hpoint hnext => exact h.finish ht hpoint hnext
  | setProblem tasks hpoint hnext => exact h.setProblem ht hpoint hnext

end Steps

theorem TerminationOk.init (hi : (system cfg net).init s) : TerminationOk s := by
  obtain ⟨htasks, -, hcontrol⟩ := hi
  have hfin : ∀ q, (s.tasks q).finished = 0 := fun q => (htasks q).finished
  constructor
  · intro q
    have hc := hcontrol q
    constructor <;> simp [hc.point, hc.subtreeTermintionReached, PointOk, Point.detected]
  constructor
  · intro v hv
    have hv' := hcontrol v
    rw [(hcontrol _).terminationStatus, childFlag_reset hv rfl, reports, hfin, hfin]
    simp [Control.reported, hv'.point, hv'.subtreeTermintionReached, Point.detected]
  · intro v _
    rw [(hcontrol v).terminationStatus, passed, hfin, hfin, (hcontrol _).point]
    simp [resetFlags, Point.passedTo]
  · intro v _
    rw [(hcontrol v).terminationStatus]
    rfl
  · intro v hv
    rw [(hcontrol v).terminationStatus]
    simp [resetFlags, hv]
  · intro v hv
    rw [(hcontrol v).terminationStatus]
    simp [resetFlags, hv]

/-- Every step keeps what the flags count and what each rank has seen of them. -/
theorem termination_invariant (cfg : Config n) (net : Results.Network n) :
    (system cfg net).Invariant TerminationOk :=
  (tasksOk_invariant cfg net).of_step (fun _ => TerminationOk.init)
    fun _ _ _ ht h hs => h.stepped ht (stepped_of_next hs)

end Titus.System
