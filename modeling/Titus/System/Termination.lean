import Titus.System.Step
import Titus.Tasks.Session

/-! How the end of a session is detected along the tree of the ranks.  The flags count, over all
sessions: what a child has reported to its parent and the parent has passed on to the child, ahead
of the sessions that the one with the flag has finished.  A rank that has detected the end of a
session knows by this that every other rank had all its results. -/

namespace Titus.System

variable {n : ℕ} {cfg : Config n} {net : Results.Network n} {s s' : State n} {r : Fin n}

/-! ### The tasks of a run -/

/-- A step leaves the tasks as they are, or is one of the steps on them. -/
theorem Stepped.tasks_step (h : Stepped cfg net s r s') :
    s'.tasks = s.tasks ∨ ∃ a, Tasks.next cfg s.tasks (r, a) = some s'.tasks := by
  cases h with
  | tasks a tasks h ht => exact .inr ⟨a, ht⟩
  | push owner tasks results hpoint hnb howner hs ht => exact .inr ⟨_, ht⟩
  | finish tasks hpoint ht => exact .inr ⟨_, ht⟩
  | setProblem tasks hpoint ht => exact .inr ⟨_, ht⟩
  | move | results | reach | report | pass | forward => exact .inl rfl

theorem projects_tasks (cfg : Config n) (net : Results.Network n) :
    (system cfg net).Projects (Tasks.system cfg) State.tasks := by
  constructor
  · intro s h
    exact h.1
  · rintro s ⟨r, a⟩ s' - - hs
    rcases (stepped_of_next hs).tasks_step with heq | ⟨b, hb⟩
    · exact .inl heq
    · exact .inr ⟨(r, b), hb⟩

/-- What is known of the tasks in every reachable state. -/
structure TasksOk (cfg : Config n) (t : Tasks.State n) : Prop where
  protocol : Tasks.ProtocolOk cfg t
  conserved : Tasks.Conserved cfg t
  finished_le : ∀ r q, (t r).finished ≤ (t q).session

theorem tasksOk_of_reachable (hr : (system cfg net).Reachable s) : TasksOk cfg s.tasks := by
  have ht := (projects_tasks cfg net).reachable hr
  constructor
  · exact (Tasks.protocol_invariant cfg).holds ht
  · exact (Tasks.conserved_invariant cfg).holds ht
  · exact (Tasks.finished_le_session cfg).holds ht

theorem tasksOk_invariant (cfg : Config n) (net : Results.Network n) :
    (system cfg net).Invariant fun s => TasksOk cfg s.tasks := by
  constructor
  · intro s hi
    have hr : (system cfg net).Reachable s := .init hi
    exact tasksOk_of_reachable hr
  · intro s a s' hr _ hs
    exact tasksOk_of_reachable (hr.step hs)

section Sessions

variable {t : Tasks.State n} {q : Fin n}

/-- A rank that is past the barrier is in the oldest session. -/
theorem TasksOk.session_le (h : TasksOk cfg t) (hr : Tasks.InSession (t r).pc) (q : Fin n) :
    (t r).finished + 1 ≤ (t q).session := by
  have h1 := h.protocol.session r hr q
  have h2 := (h.protocol.rank r).session_eq hr.1
  omega

theorem TasksOk.session_bounds (h : TasksOk cfg t) (r : Fin n) :
    (t r).finished ≤ (t r).session ∧ (t r).session ≤ (t r).finished + 1 :=
  (h.protocol.rank r).finished_le

end Sessions

/-! ### What a rank knows -/

/-- The rank has detected the end of its session. -/
def Point.detected : Point → Bool
  | .forwardingLeft | .forwardingRight | .finishing => true
  | _ => false

/-- At this point of `parallel_work` the rank is at the point `pc` on its tasks. -/
def PointOk (pc : Tasks.WorkPc n) : Point → Prop
  | .entry | .aborted _ => True
  | .firstFlush | .testingTmp | .pushing | .testingEmpty | .secondFlush | .returned =>
    ∃ site, pc = .returning site
  | .bufferFlush => pc = .flushing
  | .leaving => pc = .idle
  | _ => pc = .balancing

/-- What a rank that is at the point `pc` on its tasks has seen of its flags. -/
structure ControlOk (r : Fin n) (pc : Tasks.WorkPc n) (c : Control) : Prop where
  point : PointOk pc c.point
  left : c.point = .readingRight ∨ c.subtreeTermintionReached ∨ c.point.detected →
    1 ≤ c.terminationStatus.leftChildSubtreeTermination
  right : c.subtreeTermintionReached ∨ c.point.detected →
    1 ≤ c.terminationStatus.rightChildSubtreeTermination
  global : c.point.detected → r.val ≠ 0 → 1 ≤ c.terminationStatus.globalTerminationDetected
  reached : c.subtreeTermintionReached → r.val ≠ 0 ∧ Tasks.InSession pc ∧ ¬ c.point.detected
  reporting : c.point = .reporting → c.subtreeTermintionReached
  aborted : ∀ a, c.point = .aborted a → a = .nbResult ∨ a = .notEmpty

section Control

variable {pc pc' : Tasks.WorkPc n} {c : Control} {p : Point}

theorem inSession_of_detected (h : PointOk pc p) (hp : p.detected) : Tasks.InSession pc := by
  revert h
  cases p with
  | forwardingLeft | forwardingRight | finishing =>
    rintro rfl
    constructor <;> rintro ⟨⟩
  | _ => cases hp

/-- The rank goes on to the point `p` and has detected nothing new. -/
theorem ControlOk.setPoint (h : ControlOk r pc c) (hpoint : PointOk pc' p)
    (hsess : Tasks.InSession pc → Tasks.InSession pc') (hdet : p.detected → c.point.detected)
    (hleft : p = .readingRight → 1 ≤ c.terminationStatus.leftChildSubtreeTermination)
    (hreporting : p ≠ .reporting) (haborted : ∀ a, p = .aborted a → a = .nbResult ∨ a = .notEmpty) :
    ControlOk r pc' { c with point := p } := by
  constructor
  · exact hpoint
  · rintro (hp | hreached | hp)
    · exact hleft hp
    · exact h.left (.inr (.inl hreached))
    · exact h.left (.inr (.inr (hdet hp)))
  · exact fun hor => h.right (hor.imp_right hdet)
  · exact fun hp => h.global (hdet hp)
  · intro hreached
    obtain ⟨h1, h2, h3⟩ := h.reached hreached
    exact ⟨h1, hsess h2, fun hp => h3 (hdet hp)⟩
  · intro hp
    exact absurd hp hreporting
  · exact haborted

/-- Flags only grow while other ranks act. -/
theorem ControlOk.setFlags (h : ControlOk r pc c) {f : TerminationStatus}
    (hleft : c.terminationStatus.leftChildSubtreeTermination ≤ f.leftChildSubtreeTermination)
    (hright : c.terminationStatus.rightChildSubtreeTermination ≤ f.rightChildSubtreeTermination)
    (hglobal : c.terminationStatus.globalTerminationDetected ≤ f.globalTerminationDetected) :
    ControlOk r pc { c with terminationStatus := f } := by
  constructor
  · exact h.point
  · exact fun hor => (h.left hor).trans hleft
  · exact fun hor => (h.right hor).trans hright
  · exact fun hp hr => (h.global hp hr).trans hglobal
  · exact h.reached
  · exact h.reporting
  · exact h.aborted

theorem controlOk_addFlag (h : ∀ q, ControlOk q (s.tasks q).pc (s.control q)) (v : Fin n)
    {add : TerminationStatus → TerminationStatus}
    (hadd : add = addLeft ∨ add = addRight ∨ add = addGlobal) (q : Fin n) :
    ControlOk q (s.tasks q).pc ((s.addFlag v add).control q) := by
  simp only [State.addFlag, State.control_setControl]
  by_cases hq : q = v
  · subst hq
    rw [Function.update_self]
    apply (h q).setFlags <;> rcases hadd with rfl | rfl | rfl <;>
      simp [addLeft, addRight, addGlobal]
  · rw [Function.update_of_ne hq]
    exact h q

end Control

/-! ### The flags -/

/-- The flag that child `c` increments on its parent. -/
def childFlag (c : Fin n) (f : TerminationStatus) : ℕ :=
  if c.val % 2 = 1 then f.leftChildSubtreeTermination else f.rightChildSubtreeTermination

/-- The rank has told its parent in the current session that its subtree is done. -/
def Control.reported (c : Control) : Bool :=
  c.point.detected || (c.subtreeTermintionReached && c.point ≠ .reporting)

/-- At point `p` the parent of `c` has passed the end of its session on to `c`. -/
def Point.passedTo (p : Point) (c : Fin n) : Bool :=
  if c.val % 2 = 1 then p = .forwardingRight ∨ p = .finishing else p = .finishing

/-- The sessions whose end rank `r` has detected. -/
def ended (s : State n) (r : Fin n) : ℕ :=
  (s.tasks r).finished + (s.control r).point.detected.toNat

/-- The sessions in which rank `c` has told its parent that its subtree is done. -/
def reports (s : State n) (c : Fin n) : ℕ :=
  (s.tasks c).finished + (s.control c).reported.toNat

/-- The sessions whose end the parent of `c` has passed on to `c`. -/
def passed (s : State n) (c : Fin n) : ℕ :=
  (s.tasks (HeapTree.parent c)).finished +
    ((s.control (HeapTree.parent c)).point.passedTo c).toNat

/-- The sessions in which rank `r` is known to have all its results. -/
def done (s : State n) (r : Fin n) : ℕ := if r.val = 0 then ended s r else reports s r

/-- What the flags count. -/
structure FlagsOk (s : State n) : Prop where
  child : ∀ c, 0 < c.val →
    childFlag c (s.control (HeapTree.parent c)).terminationStatus +
      (s.tasks (HeapTree.parent c)).finished = reports s c
  global : ∀ c, 0 < c.val →
    (s.control c).terminationStatus.globalTerminationDetected + (s.tasks c).finished = passed s c
  root : ∀ c, c.val = 0 → (s.control c).terminationStatus.globalTerminationDetected = 0
  noLeft : ∀ r, leftChild r = none →
    (s.control r).terminationStatus.leftChildSubtreeTermination = 1
  noRight : ∀ r, rightChild r = none →
    (s.control r).terminationStatus.rightChildSubtreeTermination = 1

/-- What the detection of the end of a session rests on. -/
structure TerminationOk (s : State n) : Prop where
  control : ∀ r, ControlOk r (s.tasks r).pc (s.control r)
  flags : FlagsOk s

/-! ### How far the ranks are -/

section Order

variable {c q : Fin n}

theorem left_child (h : leftChild r = some c) : 0 < c.val ∧ HeapTree.parent c = r ∧
    ∀ f, childFlag c f = f.leftChildSubtreeTermination := by
  have hc := HeapTree.left_eq_some.mp h
  refine ⟨by omega, HeapTree.parent_eq (.inl hc), fun f => ?_⟩
  exact if_pos (by omega)

theorem right_child (h : rightChild r = some c) : 0 < c.val ∧ HeapTree.parent c = r ∧
    ∀ f, childFlag c f = f.rightChildSubtreeTermination := by
  have hc := HeapTree.right_eq_some.mp h
  refine ⟨by omega, HeapTree.parent_eq (.inr hc), fun f => ?_⟩
  exact if_neg (by omega)

theorem detected_of_passedTo {p : Point} (h : p.passedTo c) : p.detected := by
  unfold Point.passedTo at h
  split at h
  · rcases of_decide_eq_true h with rfl | rfl <;> rfl
  · rw [of_decide_eq_true h]
    rfl

theorem passed_le_ended (s : State n) (c : Fin n) : passed s c ≤ ended s (HeapTree.parent c) := by
  have hle : ((s.control (HeapTree.parent c)).point.passedTo c).toNat ≤
      (s.control (HeapTree.parent c)).point.detected.toNat := by
    cases h : (s.control (HeapTree.parent c)).point.passedTo c with
    | false => exact Nat.zero_le _
    | true =>
      rw [detected_of_passedTo h]
  exact Nat.add_le_add_left hle _

variable (ht : TasksOk cfg s.tasks) (h : TerminationOk s)

include ht h

theorem ended_le (r q : Fin n) : ended s r ≤ (s.tasks q).session := by
  unfold ended
  cases hdet : (s.control r).point.detected with
  | false => exact ht.finished_le r q
  | true => exact ht.session_le (inSession_of_detected (h.control r).point hdet) q

theorem reports_le (c q : Fin n) : reports s c ≤ (s.tasks q).session := by
  have hctrl := h.control c
  unfold reports
  cases hrep : (s.control c).reported with
  | false => exact ht.finished_le c q
  | true =>
    refine ht.session_le ?_ q
    rcases (Bool.or_eq_true _ _).mp hrep with hdet | hreached
    · exact inSession_of_detected hctrl.point hdet
    · exact (hctrl.reached ((Bool.and_eq_true _ _).mp hreached).1).2.1

theorem passed_le (c q : Fin n) : passed s c ≤ (s.tasks q).session :=
  (passed_le_ended s c).trans (ended_le ht h _ q)

/-- A child reports no later session than the one that its parent is in. -/
theorem leftFlag_add_le (hc : leftChild r = some c) :
    (s.control r).terminationStatus.leftChildSubtreeTermination + (s.tasks r).finished ≤
      (s.tasks r).session := by
  obtain ⟨hpos, rfl, hflag⟩ := left_child hc
  rw [← hflag, h.flags.child c hpos]
  exact reports_le ht h c _

theorem rightFlag_add_le (hc : rightChild r = some c) :
    (s.control r).terminationStatus.rightChildSubtreeTermination + (s.tasks r).finished ≤
      (s.tasks r).session := by
  obtain ⟨hpos, rfl, hflag⟩ := right_child hc
  rw [← hflag, h.flags.child c hpos]
  exact reports_le ht h c _

/-- No flag is incremented twice before the rank with the flag finishes the session. -/
theorem flags_le_one (r : Fin n) :
    (s.control r).terminationStatus.leftChildSubtreeTermination ≤ 1 ∧
      (s.control r).terminationStatus.rightChildSubtreeTermination ≤ 1 ∧
      (s.control r).terminationStatus.globalTerminationDetected ≤ 1 := by
  have hbound := (ht.session_bounds r).2
  refine ⟨?_, ?_, ?_⟩
  · cases hc : leftChild r with
    | none => exact (h.flags.noLeft r hc).le
    | some c =>
      have hle := leftFlag_add_le ht h hc
      omega
  · cases hc : rightChild r with
    | none => exact (h.flags.noRight r hc).le
    | some c =>
      have hle := rightFlag_add_le ht h hc
      omega
  · rcases Nat.eq_zero_or_pos r.val with hr | hr
    · rw [h.flags.root r hr]
      exact Nat.zero_le _
    · have hglobal := h.flags.global r hr
      have hle := passed_le ht h r r
      omega

/-- Between two sessions the flags of a rank are those that `reset` sets. -/
theorem flags_eq_reset (hr : (s.tasks r).session = (s.tasks r).finished) :
    (s.control r).terminationStatus = resetFlags r := by
  have hleft : (s.control r).terminationStatus.leftChildSubtreeTermination =
      if (leftChild r).isSome then 0 else 1 := by
    cases hc : leftChild r with
    | none => exact h.flags.noLeft r hc
    | some c =>
      have hle := leftFlag_add_le ht h hc
      simp only [Option.isSome_some, if_true]
      omega
  have hright : (s.control r).terminationStatus.rightChildSubtreeTermination =
      if (rightChild r).isSome then 0 else 1 := by
    cases hc : rightChild r with
    | none => exact h.flags.noRight r hc
    | some c =>
      have hle := rightFlag_add_le ht h hc
      simp only [Option.isSome_some, if_true]
      omega
  have hglobal : (s.control r).terminationStatus.globalTerminationDetected = 0 := by
    rcases Nat.eq_zero_or_pos r.val with h0 | hpos
    · exact h.flags.root r h0
    · have hglobal := h.flags.global r hpos
      have hle := passed_le ht h r r
      omega
  rw [resetFlags, ← hleft, ← hright, ← hglobal]

omit ht in
/-- A rank detects the end of a session after its parent. -/
theorem ended_le_parent (hc : 0 < c.val) : ended s c ≤ ended s (HeapTree.parent c) := by
  refine le_trans ?_ (passed_le_ended s c)
  have hglobal := h.flags.global c hc
  rw [← hglobal, Nat.add_comm]
  apply Nat.add_le_add_left
  cases hdet : (s.control c).point.detected with
  | false => exact Nat.zero_le _
  | true => exact (h.control c).global hdet (by omega)

omit ht in
/-- A subtree is done after those of the children. -/
theorem done_parent_le (hc : 0 < c.val) : done s (HeapTree.parent c) ≤ done s c := by
  have hchild := h.flags.child c hc
  have hctrl := h.control (HeapTree.parent c)
  have hflag : ((s.control (HeapTree.parent c)).subtreeTermintionReached ∨
      (s.control (HeapTree.parent c)).point.detected) →
        1 ≤ childFlag c (s.control (HeapTree.parent c)).terminationStatus := by
    intro hor
    unfold childFlag
    split
    · exact hctrl.left (.inr hor)
    · exact hctrl.right hor
  have hdone : done s c = reports s c := if_neg (by omega)
  rw [hdone, ← hchild, Nat.add_comm]
  unfold done
  split
  · apply Nat.add_le_add_left
    cases hdet : (s.control (HeapTree.parent c)).point.detected with
    | false => exact Nat.zero_le _
    | true => exact hflag (.inr hdet)
  · apply Nat.add_le_add_left
    cases hrep : (s.control (HeapTree.parent c)).reported with
    | false => exact Nat.zero_le _
    | true =>
      rcases (Bool.or_eq_true _ _).mp hrep with hdet | hreached
      · exact hflag (.inr hdet)
      · exact hflag (.inl ((Bool.and_eq_true _ _).mp hreached).1)

omit ht in
/-- A rank that has detected the end of a session knows that every rank is done with it. -/
theorem ended_le_done (r d : Fin n) : ended s r ≤ done s d := by
  -- up to the root from `r`, and down again to `d`
  obtain ⟨root, hroot, hup⟩ := HeapTree.ascend (P := fun q => ended s r ≤ ended s q)
    (fun c hc hle => hle.trans (ended_le_parent h hc)) (le_refl (ended s r))
  refine HeapTree.induction_down (P := fun d => ended s r ≤ done s d) (fun c hc => ?_)
    (fun c hc hle => hle.trans (done_parent_le h hc)) d
  have heq : c = root := Fin.ext (hc.trans hroot.symm)
  rw [done, if_pos hc, heq]
  exact hup

end Order

end Titus.System
