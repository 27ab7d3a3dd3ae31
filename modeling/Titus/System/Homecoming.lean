import Titus.System.Potential

/-! The way of a rank from any point of `parallel_work` to a point at which it needs another: before
`select_target_rank`, in the barrier of `set_problem`, or between two sessions.  Every step of it
that executes no task is a step closer, and all ranks can come there together. -/

namespace Titus.System

open Results (Routes maxDist totalAhead)
open Startup (VictimSelection)

variable {n : ℕ} {cfg : Config n} {net : Results.Network n} {sel : VictimSelection n}
  {occupied : State n → Fin n → Bool} {dist : Fin n → Fin n → ℕ}
  {s s' : State n} {r q : Fin n} {b : Bool}

/-! ### Between two sessions and before a theft -/

/-- The rank goes on only when it selects a victim, leaves its barrier or begins a session. -/
def Home (s : State n) (r : Fin n) : Prop :=
  (s.control r).point = .selecting ∨
    (s.control r).point = .entry ∧ ((s.tasks r).pc = .idle ∨ (s.tasks r).pc = .barrier)

/-- The steps to a point at which the rank goes on with its tasks or is at home. -/
def Point.stepsLeft : Point → ℕ
  | .leaving => 20
  | .entry => 19
  | .firstFlush | .bufferFlush | .readingLeft => 12
  | .testingTmp | .readingRight => 11
  | .pushing | .readingGlobal => 10
  | .testingEmpty | .reporting => 9
  | .secondFlush | .forwardingLeft => 8
  | .returned | .forwardingRight => 7
  | .finishing => 6
  | .selecting | .aborted _ => 0

/-- The steps to the home of the rank or to its next task. -/
def toHome (s : State n) (r : Fin n) : ℕ :=
  21 * (s.tasks r).pc.workLeft + (s.control r).point.stepsLeft

theorem toHome_setPoint (s : State n) (r : Fin n) (p : Point) :
    toHome (s.setPoint r p) r = 21 * (s.tasks r).pc.workLeft + p.stepsLeft := by
  simp only [toHome, State.setPoint, State.tasks_setControl, State.control_setControl,
    Function.update_self]

theorem Moved.stepsLeft_lt {p : Point} (hm : Moved s r (s.control r).point p)
    (hhome : (s.control r).point ≠ .selecting) :
    p.stepsLeft < (s.control r).point.stepsLeft := by
  generalize (s.control r).point = p₀ at hm hhome
  cases hm with
  | self => exact absurd rfl hhome
  | notDone p hp => rcases hp with rfl | rfl | rfl <;> decide
  | askGlobal p hp => rcases hp with rfl | rfl <;> decide
  | noOwner | tooMany | rootReached | notEmpty => exact Nat.zero_lt_of_ne_zero (by decide)
  | _ => decide

/-- A step of a rank on the way home. -/
theorem Stepped.toHome_lt (h : RunOk cfg net s) (h' : RunOk cfg net s') (hcalm : Calm s.results)
    (hhome : ¬ Home s r) (hspin : (s.tasks r).pc = .spinning → (s.tasks r).seg.state = .freeForCopy)
    (hs : Stepped cfg net s r s') :
    leftOver cfg dist s' < leftOver cfg dist s ∨ toHome s' r < toHome s r := by
  simp only [Home, not_or, not_and] at hhome
  cases hs with
  | move p hm =>
    right
    rw [toHome_setPoint]
    exact Nat.add_lt_add_left (hm.stepsLeft_lt hhome.1) _
  | tasks a tasks hcall ht =>
    have hstep := Tasks.stepped_of_next ht
    by_cases hpc : (s.tasks r).pc = .solving
    · exact .inl (leftOver_lt_of_solving h.tasks hstep hcall.action_ne.1 h'.tasks hpc)
    right
    have hwork : ∀ b, a = .advance b → (tasks r).pc.workLeft < (s.tasks r).pc.workLeft := by
      rintro b rfl
      exact (hstep.workLeft hspin).resolve_right hpc
    have hlt : ∀ p₀, (s.control r).point = p₀ → 7 ≤ p₀.stepsLeft →
        (tasks r).pc.workLeft < (s.tasks r).pc.workLeft →
        toHome (State.setPoint ⟨tasks, s.results, s.control⟩ r .entry) r < toHome s r := by
      rintro _ rfl hp hlt
      rw [toHome_setPoint]
      simp only [toHome, Point.stepsLeft]
      omega
    generalize hp₀ : (s.control r).point = p₀ at hcall hhome
    cases hcall with
    | leaveBarrier =>
      cases hstep with
      | leaveBarrier hpc => exact absurd hpc (hhome.2 rfl).2
    | work b => exact hlt _ hp₀ (by decide) (hwork b rfl)
    | returned b => exact hlt _ hp₀ (by decide) (hwork b rfl)
    | flushed b => exact hlt _ hp₀ (by decide) (hwork b rfl)
    | steal v => exact absurd rfl hhome.1
  | results a p results hcall ha =>
    right
    rw [toHome_setPoint]
    apply Nat.add_lt_add_left
    have hidle := hcalm.quiet.idle r
    generalize (s.control r).point = p₀ at hcall
    cases hcall with
    | firstFlush | bufferFlush | secondFlush => decide
    | inFlush p hp hpc => exact absurd hidle hpc
    | inPush =>
      simp only [Results.next, hidle, Results.localNext, hcalm.tmp r] at ha
      split at ha <;> cases ha
    | land p m w | deliver p m =>
      simp only [Results.next, hcalm.quiet.inbox r] at ha
      cases ha
  | push owner tasks results hpoint hnb howner ha ht =>
    right
    rw [toHome_setPoint]
    have hpc : (tasks r).pc = (s.tasks r).pc := by
      cases Tasks.stepped_of_next ht
      rw [Function.update_self]
    simp only [hpc, toHome, hpoint]
    exact Nat.add_lt_add_left (by decide) _
  | reach hpoint | pass hpoint =>
    right
    simp only [toHome, State.tasks_setControl, State.control_setControl, Function.update_self,
      hpoint]
    exact Nat.add_lt_add_left (by decide) _
  | report hpoint =>
    right
    rw [toHome_setPoint]
    simp only [toHome, hpoint]
    exact Nat.add_lt_add_left (by decide) _
  | forward c p hf =>
    right
    simp only [System.forward]
    rw [toHome_setPoint]
    apply Nat.add_lt_add_left
    rcases hf with ⟨hpoint, -, rfl⟩ | ⟨hpoint, -, rfl⟩
    · rw [hpoint]
      split <;> decide
    · rw [hpoint]
      split <;> decide
  | finish tasks hpoint ht =>
    right
    cases Tasks.stepped_of_next ht with
    | finish hpc =>
      simp only [toHome, State.tasks_setControl, State.control_setControl, Function.update_self,
        hpoint, hpc]
      change 21 * 0 + 20 < 21 * 1 + 6
      decide
  | setProblem tasks hpoint ht =>
    cases Tasks.stepped_of_next ht with
    | setProblem hpc => exact absurd hpc (hhome.2 hpoint).1

theorem Stepped.point_of_ne (hs : Stepped cfg net s r s') (hq : q ≠ r) :
    (s'.control q).point = (s.control q).point := by
  have hcontrol : ∀ (tasks : Tasks.State n) (results : Results.State n) (c : Control),
      ((State.setControl ⟨tasks, results, s.control⟩ r c).control q).point =
        (s.control q).point := by
    intro tasks results c
    rw [State.control_setControl, Function.update_of_ne hq]
  cases hs with
  | report =>
    rw [System.report, control_addFlag_setPoint]
    simp only [hq, if_false]
  | forward c p =>
    rw [System.forward, control_addFlag_setPoint]
    simp only [hq, if_false]
  | _ => exact hcontrol _ _ _

/-- A step changes at most the state word of the task segment of another rank. -/
theorem Stepped.tasks_of_ne (hs : Stepped cfg net s r s') (hq : q ≠ r) :
    ∃ state, s'.tasks q = Tasks.withState (s.tasks q) state := by
  rcases hs.tasks_step with heq | ⟨a, ha⟩
  · exact ⟨(s.tasks q).seg.state, by rw [heq]; rfl⟩
  · exact (Tasks.stepped_of_next ha).other hq

/-- The other ranks stay where they are. -/
theorem Stepped.toHome_of_ne (hs : Stepped cfg net s r s') (hq : q ≠ r) :
    toHome s' q = toHome s q := by
  obtain ⟨state, hstate⟩ := hs.tasks_of_ne hq
  rw [toHome, toHome, hs.point_of_ne hq, hstate]
  rfl

/-! ### No rank is held up on the way -/

/-- At this point `push_tmp_results` has taken the content of the tmp segment, or there was none. -/
def Point.drained : Point → Bool
  | .pushing | .testingEmpty | .secondFlush | .returned => true
  | _ => false

theorem Stepped.drained (hs : Stepped cfg net s r s')
    (h : (s.control r).point.drained → (s.tasks r).tmp.nbResult = 0)
    (hp : (s'.control r).point.drained) : (s'.tasks r).tmp.nbResult = 0 := by
  have hself : ∀ (tasks : Tasks.State n) (results : Results.State n) (c : Control),
      (State.setControl ⟨tasks, results, s.control⟩ r c).control r = c :=
    fun _ _ _ => Function.update_self _ _ _
  cases hs with
  | move p hm =>
    rw [State.setPoint, hself] at hp
    generalize hp₀ : (s.control r).point = p₀ at hm h
    cases hm with
    | tmpEmpty h0 => exact h0
    | pushed | stillEmpty | secondFlushed => exact h rfl
    | notDone | askGlobal => cases hp
    | _ => cases hp
  | tasks a tasks hcall ht =>
    rw [State.setPoint, hself] at hp
    cases hp
  | results a p results hcall ha =>
    rw [State.setPoint, hself] at hp
    generalize hp₀ : (s.control r).point = p₀ at hcall h
    cases hcall with
    | firstFlush | bufferFlush => cases hp
    | secondFlush => exact h rfl
    | _ => exact h hp
  | push owner tasks results hpoint hnb howner ha ht =>
    cases Tasks.stepped_of_next ht
    simp only [State.setPoint, State.tasks_setControl, Function.update_self]
    rfl
  | report =>
    rw [System.report, control_addFlag_setPoint] at hp
    simp only [if_true] at hp
    cases hp
  | forward c p hf =>
    rw [System.forward, control_addFlag_setPoint] at hp
    simp only [if_true] at hp
    rcases hf with ⟨-, -, rfl⟩ | ⟨-, -, rfl⟩
    · split at hp <;> cases hp
    · split at hp <;> cases hp
  | reach | pass | finish =>
    rw [hself] at hp
    cases hp
  | setProblem tasks hpoint ht =>
    rw [hself] at hp
    simp only [hpoint] at hp
    cases hp

/-- A rank is past the content of its tmp segment. -/
theorem drained_invariant (cfg : Config n) (net : Results.Network n) :
    (system cfg net).Invariant fun s =>
      ∀ r, (s.control r).point.drained → (s.tasks r).tmp.nbResult = 0 := by
  constructor
  · rintro s ⟨-, -, hcontrol⟩ r hp
    rw [(hcontrol r).point] at hp
    cases hp
  · rintro s ⟨r, a⟩ s' - h hs q hp
    have hstep := stepped_of_next hs
    by_cases hq : q = r
    · subst hq
      exact hstep.drained (h q) hp
    · obtain ⟨state, hstate⟩ := hstep.tasks_of_ne hq
      rw [hstep.point_of_ne hq] at hp
      rw [hstate]
      exact h q hp

/-- A flush can be called. -/
theorem exists_flushUnlessEmpty (h : RunOk cfg net s) (hcalm : Calm s.results) (r : Fin n)
    (flush after : Point) : ∃ s', flushUnlessEmpty net s r flush after = some s' := by
  simp only [flushUnlessEmpty, stepResults, Results.next, h.results.running r,
    hcalm.quiet.idle r, hcalm.tmp r]
  split
  · exact ⟨_, rfl⟩
  · exact ⟨_, rfl⟩

/-- The results in a tmp segment can be pushed. -/
theorem exists_push (h : RunOk cfg net s) (hcalm : Calm s.results) {site : Tasks.ReturnSite}
    (hpc : (s.tasks r).pc = .returning site) (hnb : (s.tasks r).tmp.nbResult ≠ 0) :
    ∃ s', stepPush cfg net s r = some s' := by
  have hrank := h.tasks.protocol.rank r
  have htmp := hrank.tmpOk hnb
  have hacc := hrank.accepts (by rw [hpc]; rintro ⟨⟩)
  have hsize : 0 < (s.tasks r).tmp.resultSize := by
    rw [htmp.resultSize]
    exact hacc.resultSize_pos
  have hlen : (tmpData (s.tasks r).tmp).length =
      (s.tasks r).tmp.resultSize * (s.tasks r).tmp.nbResult := by simp [tmpData]
  simp only [stepPush, htmp.owner, Results.next, Tasks.next, h.results.running r,
    hcalm.quiet.idle r, hcalm.tmp r, hpc, hnb, hsize, hlen, Nat.pos_of_ne_zero hnb, and_self,
    if_true, if_false]
  exact ⟨_, rfl⟩

/-- A rank that is not at home can go on, unless it waits for a thief. -/
theorem exists_advance (h : RunOk cfg net s) (hcalm : Calm s.results)
    (hdrained : (s.control r).point.drained → (s.tasks r).tmp.nbResult = 0)
    (hrunning : ∀ a, (s.tasks r).pc ≠ .aborted a) (hhome : ¬ Home s r) :
    ∃ s', advance cfg net s r b = some s' := by
  simp only [Home, not_or, not_and] at hhome
  have hplace := (h.termination.control r).point
  have hrun := h.system.running r
  have hidle := hcalm.quiet.idle r
  have htmp := hcalm.tmp r
  have htasks : ¬ (s.tasks r).pc.blocked →
      (∀ site, (s.tasks r).pc = .returning site → (s.tasks r).tmp.nbResult = 0) →
      ∃ s', stepTasks cfg s r (.advance b) .entry = some s' := by
    intro hblocked hreturning
    obtain ⟨t, ht⟩ := Tasks.exists_advance cfg b hblocked hreturning
    rw [stepTasks, ht]
    exact ⟨_, rfl⟩
  cases hpoint : (s.control r).point with
  | entry =>
    have hpcs := hhome.2 hpoint
    simp only [advance, hpoint]
    cases hpc : (s.tasks r).pc with
    | idle => exact absurd hpc hpcs.1
    | barrier => exact absurd hpc hpcs.2
    | aborted a => exact absurd hpc (hrunning a)
    | returning site => exact exists_flushUnlessEmpty h hcalm r _ _
    | flushing =>
      simp only [stepResults, Results.next, h.results.running r, hidle, htmp]
      exact ⟨_, rfl⟩
    | balancing => exact ⟨_, rfl⟩
    | _ =>
      apply htasks
      · rw [hpc]
        rintro ⟨⟩
      · rw [hpc]
        rintro _ ⟨⟩
  | firstFlush | secondFlush =>
    simp only [advance, hpoint, stepFlush, hidle, if_true]
    exact ⟨_, rfl⟩
  | testingTmp =>
    rw [hpoint] at hplace
    obtain ⟨site, hpc⟩ := hplace
    simp only [advance, hpoint]
    split
    · exact ⟨_, rfl⟩
    · exact exists_push h hcalm hpc ‹_›
  | pushing =>
    simp only [advance, hpoint, hidle, htmp, and_self, if_true]
    exact ⟨_, rfl⟩
  | testingEmpty =>
    simp only [advance, hpoint]
    exact exists_flushUnlessEmpty h hcalm r _ _
  | returned =>
    rw [hpoint] at hplace hdrained
    obtain ⟨site, hpc⟩ := hplace
    simp only [advance, hpoint]
    apply htasks
    · rw [hpc]
      rintro ⟨⟩
    · exact fun _ _ => hdrained rfl
  | bufferFlush =>
    rw [hpoint] at hplace
    simp only [advance, hpoint, hidle, if_true]
    apply htasks
    · rw [hplace]
      rintro ⟨⟩
    · rw [hplace]
      rintro _ ⟨⟩
  | selecting => exact absurd hpoint hhome.1
  | aborted a => exact absurd hpoint (hrun a)
  | finishing =>
    rw [hpoint] at hplace
    simp only [advance, hpoint, stepFinish, Tasks.next,
      show (s.tasks r).pc = .balancing from hplace, if_true]
    exact ⟨_, rfl⟩
  | leaving =>
    simp only [advance, hpoint]
    exact ⟨_, rfl⟩
  | readingLeft | readingRight | readingGlobal | reporting | forwardingLeft | forwardingRight =>
    simp only [advance, hpoint, stepDetection]
    repeat' split
    all_goals exact ⟨_, rfl⟩

/-! ### All ranks at home -/

/-- While not all ranks are at home one of them can go on: one in the middle of a theft, or any
other, which then waits for no thief. -/
theorem exists_goer (h : RunOk cfg net s) (hno : ¬ ∀ r, Home s r) :
    ∃ r, ¬ Home s r ∧ ((s.tasks r).pc = .spinning → (s.tasks r).seg.state = .freeForCopy) := by
  by_cases hthief : ∃ r, (s.tasks r).pc.victim ≠ none
  · obtain ⟨r, hr⟩ := hthief
    refine ⟨r, ?_, ?_⟩
    · rintro (hpoint | ⟨-, hpc | hpc⟩)
      · have hplace := (h.termination.control r).point
        rw [hpoint] at hplace
        rw [show (s.tasks r).pc = .balancing from hplace] at hr
        exact hr rfl
      · rw [hpc] at hr
        exact hr rfl
      · rw [hpc] at hr
        exact hr rfl
    · intro hpc
      rw [hpc] at hr
      exact absurd rfl hr
  · simp only [not_exists, not_not] at hthief
    simp only [not_forall] at hno
    obtain ⟨r, hr⟩ := hno
    refine ⟨r, hr, fun hpc => ?_⟩
    have hreach := (projects_tasks cfg net).reachable h.reachable
    have hst := (Tasks.spinning_invariant cfg).holds hreach r hpc
    rcases h.tasks.protocol.robbed_of_spinning hpc hst with hfree | ⟨q, hq⟩
    · exact hfree
    · rw [hthief q] at hq
      cases hq

/-- What is left to do, and the way home of all ranks. -/
def homeward (cfg : Config n) (dist : Fin n → Fin n → ℕ) (s : State n) :
    (ℕ ×ₗ ℕ ×ₗ ℕ ×ₗ ℕ) ×ₗ ℕ :=
  toLex (leftOver cfg dist s, ∑ r, toHome s r)

theorem homeward_lt {t : State n} (hle : leftOver cfg dist s' ≤ leftOver cfg dist s)
    (hlt : leftOver cfg dist s' < leftOver cfg dist s ∨ toHome s' r < toHome s r)
    (hother : ∀ q, q ≠ r → toHome s' q = toHome s q)
    (ht : leftOver cfg dist t ≤ leftOver cfg dist s') (hsame : SameWork s' t) :
    homeward cfg dist t < homeward cfg dist s := by
  rw [homeward, homeward, Prod.Lex.toLex_lt_toLex']
  refine ⟨ht.trans hle, fun heq => ?_⟩
  have hlt := hlt.resolve_left (ht.trans_lt · |>.ne heq)
  have hsum : ∑ q, toHome t q < ∑ q, toHome s q := by
    apply Finset.sum_lt_sum
    · intro q _
      rw [toHome, hsame.1, hsame.2]
      by_cases hq : q = r
      · subst hq
        exact hlt.le
      · exact (hother q hq).le
    · refine ⟨r, Finset.mem_univ r, ?_⟩
      rw [toHome, hsame.1, hsame.2]
      exact hlt
  exact hsum

/-- All ranks can come home, and what has been begun to its end. -/
theorem RunOk.canReach_home (h : RunOk cfg net s) (hd : Routes net dist)
    (hroom : ∀ k, cfg.Accepts k → 2 ≤ Tasks.resultRoom cfg k) :
    (continuing cfg net sel occupied).CanReach s fun t =>
      (RunOk cfg net t ∧ leftOver cfg dist t ≤ leftOver cfg dist s) ∧ Calm t.results ∧
        ∀ r, Home t r := by
  apply (h.canReach_le hd h.canReach_calm).trans
  rintro u ⟨⟨hu, hle⟩, -, hcalm⟩
  have hall := Transition.System.CanReach.of_variant (S := continuing cfg net sel occupied)
    (I := fun t => (RunOk cfg net t ∧ leftOver cfg dist t ≤ leftOver cfg dist s) ∧ Calm t.results)
    (q := fun t => ∀ r, Home t r) (homeward cfg dist) ?_ ⟨⟨hu, hle⟩, hcalm⟩
  · apply hall.mono
    rintro t ⟨⟨ht, hcalm⟩, hhome⟩
    exact ⟨ht, hcalm, hhome⟩
  · rintro v ⟨⟨hv, hle⟩, hcalm⟩ hno
    obtain ⟨r, hr, hspin⟩ := exists_goer hv hno
    have hreach := (projects_tasks cfg net).reachable hv.reachable
    have hwithin := (Tasks.running_invariant hroom).holds hreach r
    obtain ⟨w, hw⟩ : ∃ w, advance cfg net v r (occupied v r) = some w :=
      exists_advance hv hcalm ((drained_invariant cfg net).holds hv.reachable r) hwithin.pc_ne hr
    have hstep := Stepped.of_advance hw
    have hx : (continuing cfg net sel occupied).next v (r, .advance (occupied v r)) = some w :=
      continuing_advance hw
    have hwok := hv.step hx
    have hlew := leftOver_le hv hd hx
    apply Transition.System.CanReach.step hx
    apply (hwok.canReach_le hd hwok.canReach_calm).mono
    rintro t ⟨⟨ht, hlet⟩, ⟨-, hsame⟩, hcalmt⟩
    refine ⟨⟨⟨ht, hlet.trans (hlew.trans hle)⟩, hcalmt⟩, ?_⟩
    exact homeward_lt hlew (hstep.toHome_lt hv hwok hcalm hr hspin)
      (fun q hq => hstep.toHome_of_ne hq) hlet hsame

end Titus.System
