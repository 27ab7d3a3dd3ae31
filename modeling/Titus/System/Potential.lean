import Titus.Results.Distance
import Titus.System.Scheduling
import Titus.Tasks.Progress

/-! What is left to do in the sessions that have been begun: their begins and ends, the tasks, the
moves of the results, and the reports to the parents, in this order.  No step of a continuation
raises it. -/

namespace Titus.System

open Results (Routes maxDist totalAhead)
open Startup (VictimSelection)
open Tasks (lastSession sessionsLeft unexecuted)

variable {n : ℕ} {cfg : Config n} {net : Results.Network n} {sel : VictimSelection n}
  {occupied : State n → Fin n → Bool} {dist : Fin n → Fin n → ℕ}
  {s s' : State n} {r : Fin n} {x : Fin n × Action n}

/-! ### What is left to do -/

/-- The moves that the results of rank `r` in its tmp segment have ahead of them, at most. -/
def heldBack (dist : Fin n → Fin n → ℕ) (t : Tasks.RankTasks n) : ℕ :=
  if t.tmp.nbResult = 0 then 0 else 2 * maxDist dist + 3

/-- The moves that all results have ahead of them, at most. -/
def undelivered (dist : Fin n → Fin n → ℕ) (s : State n) : ℕ :=
  ∑ q, heldBack dist (s.tasks q) + totalAhead dist s.results

/-- The reports to the parents that are left. -/
def unreported (s : State n) : ℕ := ∑ c, (lastSession s.tasks - reports s c)

/-- What is left to do. -/
def leftOver (cfg : Config n) (dist : Fin n → Fin n → ℕ) (s : State n) : ℕ ×ₗ ℕ ×ₗ ℕ ×ₗ ℕ :=
  toLex (∑ q, sessionsLeft (lastSession s.tasks) (s.tasks q),
    toLex (unexecuted cfg s.tasks, toLex (undelivered dist s, unreported s)))

/-! ### Steps on the results and the control -/

/-- A step on the results or the control that moves no result away from its owner, and takes no
report back. -/
theorem leftOver_le_of_tasks_eq (htasks : s'.tasks = s.tasks)
    (hahead : totalAhead dist s'.results ≤ totalAhead dist s.results)
    (hreports : ∀ c, reports s c ≤ reports s' c) : leftOver cfg dist s' ≤ leftOver cfg dist s := by
  have hdel : undelivered dist s' ≤ undelivered dist s := by
    simp only [undelivered, htasks]
    omega
  have hrep : unreported s' ≤ unreported s := by
    unfold unreported
    apply Finset.sum_le_sum
    intro c _
    have hc := hreports c
    rw [htasks]
    omega
  simp only [leftOver, htasks, Prod.Lex.toLex_le_toLex', le_refl, true_and, forall_const]
  exact ⟨hdel, fun _ => hrep⟩

/-- Results that come closer to their owners. -/
theorem leftOver_lt_of_ahead (htasks : s'.tasks = s.tasks)
    (hahead : totalAhead dist s'.results < totalAhead dist s.results) :
    leftOver cfg dist s' < leftOver cfg dist s := by
  simp only [leftOver, htasks, Prod.Lex.toLex_lt_toLex', le_refl, true_and, forall_const,
    undelivered]
  omega

/-- A report to a parent. -/
theorem leftOver_lt_of_reports (htasks : s'.tasks = s.tasks) (hresults : s'.results = s.results)
    (hreports : ∀ c, reports s c ≤ reports s' c) (hr : reports s r < reports s' r)
    (hle : reports s' r ≤ lastSession s'.tasks) : leftOver cfg dist s' < leftOver cfg dist s := by
  have hrep : unreported s' < unreported s := by
    unfold unreported
    rw [htasks] at hle ⊢
    apply Finset.sum_lt_sum
    · intro c _
      have hc := hreports c
      omega
    · exact ⟨r, Finset.mem_univ r, by omega⟩
  simp only [leftOver, htasks, Prod.Lex.toLex_lt_toLex', le_refl, true_and, forall_const,
    undelivered, hresults]
  exact hrep

/-- A rank that is at another point. -/
theorem reports_le_setControl {tasks : Tasks.State n} {results : Results.State n} {c : Control}
    (hfin : ∀ q, (tasks q).finished = (s.tasks q).finished)
    (hc : (s.control r).reported → c.reported) (q : Fin n) :
    reports s q ≤ reports (State.setControl ⟨tasks, results, s.control⟩ r c) q := by
  simp only [reports, State.tasks_setControl, State.control_setControl, hfin]
  apply Nat.add_le_add_left
  by_cases hq : q = r
  · subst hq
    rw [Function.update_self]
    exact Bool.toNat_le_toNat hc
  · rw [Function.update_of_ne hq]

theorem reported_setPoint {c : Control} {p : Point} (hdet : c.point.detected → p.detected)
    (hp : p = .reporting → c.point = .reporting) (hc : c.reported) :
    Control.reported { c with point := p } := by
  simp only [Control.reported, Bool.or_eq_true, Bool.and_eq_true, decide_eq_true_eq] at hc ⊢
  rcases hc with hc | ⟨hreached, hne⟩
  · exact .inl (hdet hc)
  · exact .inr ⟨hreached, fun heq => hne (hp heq)⟩

/-- A rank that is at another point, in a step that increments a flag. -/
theorem reports_le_addFlag {v : Fin n} {p : Point} {add : TerminationStatus → TerminationStatus}
    (hdet : (s.control r).point.detected → p.detected)
    (hp : p = .reporting → (s.control r).point = .reporting) (q : Fin n) :
    reports s q ≤ reports ((s.addFlag v add).setPoint r p) q := by
  simp only [reports, control_addFlag_setPoint]
  apply Nat.add_le_add_left
  apply Bool.toNat_le_toNat
  by_cases hq : q = r
  · subst hq
    simp only [if_true]
    exact reported_setPoint hdet hp
  · simp only [hq, if_false]
    exact id

theorem Moved.reported {p : Point} (hm : Moved s r (s.control r).point p) :
    (s.control r).reported → Control.reported { s.control r with point := p } := by
  generalize hp₀ : (s.control r).point = p₀ at hm
  apply reported_setPoint
  · rw [hp₀]
    cases hm with
    | notDone p hp => rcases hp with rfl | rfl | rfl <;> rintro ⟨⟩
    | askGlobal p hp => rcases hp with rfl | rfl <;> rintro ⟨⟩
    | noLeft | noRight => exact fun _ => rfl
    | _ => rintro ⟨⟩
  · cases hm <;> rintro ⟨⟩

theorem ResultsCall.reported {a : Results.Action n} {p : Point}
    (hcall : ResultsCall s r (s.control r).point a p) :
    (s.control r).reported → Control.reported { s.control r with point := p } := by
  generalize hp₀ : (s.control r).point = p₀ at hcall
  apply reported_setPoint
  · rw [hp₀]
    cases hcall with
    | firstFlush | bufferFlush | secondFlush => rintro ⟨⟩
    | _ => exact id
  · rw [hp₀]
    cases hcall with
    | firstFlush | bufferFlush | secondFlush => rintro ⟨⟩
    | _ => exact id

/-! ### Steps on the tasks -/

theorem heldBack_le {a : Tasks.Action n} (hs : Tasks.Stepped cfg s.tasks r a s'.tasks)
    (hpc : (s.tasks r).pc ≠ .solving) (q : Fin n) :
    heldBack dist (s'.tasks q) ≤ heldBack dist (s.tasks q) := by
  have htmp := hs.tmp_eq_zero hpc q
  unfold heldBack
  by_cases hq : (s.tasks q).tmp.nbResult = 0
  · rw [if_pos (htmp hq)]
    exact Nat.zero_le _
  · rw [if_neg hq]
    split
    · exact Nat.zero_le _
    · exact le_rfl

section Tasks

variable {a : Tasks.Action n} (ht : TasksOk cfg s.tasks)
  (hs : Tasks.Stepped cfg s.tasks r a s'.tasks)

include ht hs

/-- The begin or the end of a session on a rank. -/
theorem leftOver_lt_of_session
    (ha : a = .setProblem ∧ (∃ q, (s.tasks r).session < (s.tasks q).session) ∨
      a = .leaveBarrier ∨ a = .finish) : leftOver cfg dist s' < leftOver cfg dist s := by
  have hbehind : a = .setProblem → ∃ q, (s.tasks r).session < (s.tasks q).session := by
    intro hset
    rcases ha with ha | rfl | rfl
    · exact ha.2
    · cases hset
    · cases hset
  have hlt : (∃ q, (s.tasks r).session < (s.tasks q).session) →
      (s.tasks r).session < lastSession s.tasks :=
    fun ⟨q, hq⟩ => hq.trans_le (Tasks.session_le_last s.tasks q)
  have hrank := ht.protocol.rank r
  have hk := Tasks.session_le_last s.tasks r
  rw [leftOver, leftOver, hs.lastSession hbehind]
  apply Transition.System.toLex_sum_lt
  · exact hs.sessionsLeft_le hrank hk fun hset => hlt (hbehind hset)
  · exact .inl ⟨r, hs.sessionsLeft_lt hrank hk (ha.imp_left fun hc => ⟨hc.1, hlt hc.2⟩)⟩

variable (ha : a ≠ .setProblem)

include ha

theorem sum_sessionsLeft_le :
    ∑ q, sessionsLeft (lastSession s'.tasks) (s'.tasks q) ≤
      ∑ q, sessionsLeft (lastSession s.tasks) (s.tasks q) := by
  rw [hs.lastSession fun hc => absurd hc ha]
  exact Finset.sum_le_sum fun q _ =>
    hs.sessionsLeft_le (ht.protocol.rank r) (Tasks.session_le_last s.tasks r)
      (fun hc => absurd hc ha) q

/-- The execution of a task. -/
theorem leftOver_lt_of_solving (ht' : TasksOk cfg s'.tasks) (hpc : (s.tasks r).pc = .solving) :
    leftOver cfg dist s' < leftOver cfg dist s := by
  have hlt := hs.unexecuted_lt (fun hc => absurd hc ha) ht'.conserved hpc
  have hle := sum_sessionsLeft_le ht hs ha
  rw [leftOver, leftOver, Prod.Lex.toLex_lt_toLex']
  refine ⟨hle, fun _ => ?_⟩
  rw [Prod.Lex.toLex_lt_toLex']
  exact ⟨hlt.le, fun heq => absurd heq hlt.ne⟩

/-- Another step on the tasks alone. -/
theorem leftOver_le_of_tasks (hresults : s'.results = s.results)
    (hreports : ∀ c, reports s c ≤ reports s' c) (hpc : (s.tasks r).pc ≠ .solving) :
    leftOver cfg dist s' ≤ leftOver cfg dist s := by
  have hbehind : a = .setProblem → ∃ q, (s.tasks r).session < (s.tasks q).session :=
    fun hc => absurd hc ha
  have hdel : undelivered dist s' ≤ undelivered dist s := by
    simp only [undelivered, hresults]
    apply Nat.add_le_add_right
    exact Finset.sum_le_sum fun q _ => heldBack_le hs hpc q
  have hrep : unreported s' ≤ unreported s := by
    unfold unreported
    apply Finset.sum_le_sum
    intro c _
    have hc := hreports c
    rw [hs.lastSession hbehind]
    omega
  rw [leftOver, leftOver, Prod.Lex.toLex_le_toLex']
  refine ⟨sum_sessionsLeft_le ht hs ha, fun _ => ?_⟩
  rw [Prod.Lex.toLex_le_toLex']
  refine ⟨hs.unexecuted_le hbehind, fun _ => ?_⟩
  rw [Prod.Lex.toLex_le_toLex']
  exact ⟨hdel, fun _ => hrep⟩

/-- What is pushed is no longer held back. -/
theorem leftOver_lt_of_push (hpc : (s.tasks r).pc ≠ .solving)
    (hnb : (s.tasks r).tmp.nbResult ≠ 0) (hnb' : (s'.tasks r).tmp.nbResult = 0)
    (hahead : totalAhead dist s'.results ≤ totalAhead dist s.results + (2 * maxDist dist + 2)) :
    leftOver cfg dist s' < leftOver cfg dist s := by
  have hbehind : a = .setProblem → ∃ q, (s.tasks r).session < (s.tasks q).session :=
    fun hc => absurd hc ha
  have hother : ∑ q ∈ Finset.univ.erase r, heldBack dist (s'.tasks q) ≤
      ∑ q ∈ Finset.univ.erase r, heldBack dist (s.tasks q) :=
    Finset.sum_le_sum fun q _ => heldBack_le hs hpc q
  have hdel : undelivered dist s' < undelivered dist s := by
    have hsplit := fun t : Tasks.State n => Finset.add_sum_erase Finset.univ
      (fun q => heldBack dist (t q)) (Finset.mem_univ r)
    simp only [undelivered, ← hsplit]
    have hold : heldBack dist (s.tasks r) = 2 * maxDist dist + 3 := if_neg hnb
    have hnew : heldBack dist (s'.tasks r) = 0 := if_pos hnb'
    omega
  rw [leftOver, leftOver, Prod.Lex.toLex_lt_toLex']
  refine ⟨sum_sessionsLeft_le ht hs ha, fun _ => ?_⟩
  rw [Prod.Lex.toLex_lt_toLex']
  refine ⟨hs.unexecuted_le hbehind, fun _ => ?_⟩
  rw [Prod.Lex.toLex_lt_toLex']
  exact ⟨hdel.le, fun heq => absurd heq hdel.ne⟩

end Tasks

/-! ### All steps -/

/-- The rank that calls `set_problem` in a continuation is behind another. -/
theorem behind_of_begun {a : Action n}
    (hx : (continuing cfg net sel occupied).next s (r, a) = some s')
    (hpoint : (s.control r).point = .entry) (hpc : (s.tasks r).pc = .idle)
    (htasks : s'.tasks ≠ s.tasks) : ∃ q, (s.tasks r).session < (s.tasks q).session := by
  obtain ⟨hallow, hs⟩ := Transition.System.next_restrict.mp hx
  cases a with
  | setProblem => exact hallow
  | advance b => simp [system, next, advance, hpoint, hpc] at hs
  | select v => simp [system, next, hpoint] at hs
  | land m w | deliver m =>
    obtain ⟨results, -, rfl⟩ := Option.map_eq_some_iff.mp hs
    exact absurd rfl htasks

theorem pushed_of_call (h : RunOk cfg net s) {a : Results.Action n} {p p' : Point}
    {results : Results.State n} (hcall : ResultsCall s r p a p')
    (ha : Results.next net s.results (r, a) = some results) (q : Fin n) :
    (results.rank q).pushed = (s.results.rank q).pushed := by
  have hstep := h.system.results.stepped ha
  by_cases hq : q = r
  · subst hq
    exact hstep.pushed h.system.results hcall.action_ne
  · rw [hstep.rank_of_ne hq]

/-- No step of a continuation raises what is left to do. -/
theorem leftOver_le (h : RunOk cfg net s) (hd : Routes net dist)
    (hx : (continuing cfg net sel occupied).next s x = some s') :
    leftOver cfg dist s' ≤ leftOver cfg dist s := by
  have h' := h.step hx
  obtain ⟨r, a⟩ := x
  have hs := stepped_of_next (Transition.System.next_restrict.mp hx).2
  cases hs with
  | move p hm =>
    apply leftOver_le_of_tasks_eq
    · rfl
    · exact le_rfl
    · exact reports_le_setControl (fun _ => rfl) hm.reported
  | tasks a tasks hcall ht =>
    have hstep := Tasks.stepped_of_next ht
    obtain ⟨hset, hfin, -⟩ := hcall.action_ne
    by_cases hpc : (s.tasks r).pc = .solving
    · exact (leftOver_lt_of_solving h.tasks hstep hset h'.tasks hpc).le
    · apply leftOver_le_of_tasks h.tasks hstep hset
      · rfl
      · apply reports_le_setControl
        · exact finished_eq hfin ht
        · have hplain := Point.plain_iff.mp hcall.plain
          apply reported_setPoint
          · rw [hplain.1]
            rintro ⟨⟩
          · rintro ⟨⟩
      · exact hpc
  | results a p results hcall ha =>
    apply leftOver_le_of_tasks_eq
    · rfl
    · have heffect := h.system.results.effect (h.system.results.stepped ha)
      rcases Results.totalAhead_of_move hd h.system.conserved h'.system.conserved heffect
        (pushed_of_call h hcall ha) with hlt | ⟨heq, -⟩
      · exact hlt.le
      · exact heq.le
    · exact reports_le_setControl (fun _ => rfl) hcall.reported
  | push owner tasks results hpoint hnb howner ha ht =>
    have hplace := (h.termination.control r).point
    rw [hpoint] at hplace
    obtain ⟨site, hpc⟩ := hplace
    apply le_of_lt
    apply leftOver_lt_of_push h.tasks (Tasks.stepped_of_next ht) (by rintro ⟨⟩)
    · rw [hpc]
      rintro ⟨⟩
    · exact hnb
    · cases Tasks.stepped_of_next ht
      simp only [State.setPoint, State.tasks_setControl, Function.update_self]
      rfl
    · exact Results.totalAhead_le hd h.system.conserved h'.system.conserved
        (h.system.results.effect (h.system.results.stepped ha))
  | reach hpoint hr hright hreached =>
    apply leftOver_le_of_tasks_eq
    · rfl
    · exact le_rfl
    · apply reports_le_setControl (fun _ => rfl)
      simp [Control.reported, hpoint, hreached, Point.detected]
  | pass hpoint =>
    apply leftOver_le_of_tasks_eq
    · rfl
    · exact le_rfl
    · exact reports_le_setControl (fun _ => rfl) fun _ => rfl
  | report hpoint =>
    have hdet : (s.control r).point.detected → Point.selecting.detected := by
      rw [hpoint]
      rintro ⟨⟩
    apply leftOver_le_of_tasks_eq
    · rfl
    · exact le_rfl
    · exact reports_le_addFlag hdet (by rintro ⟨⟩)
  | forward c p hf =>
    have hrun := h'.system.running r
    obtain ⟨hold, hnew⟩ := Forwards.detected hf
    simp only [forward] at hrun ⊢
    split at hrun
    · rename_i hflag
      rw [if_pos hflag]
      apply leftOver_le_of_tasks_eq
      · rfl
      · exact le_rfl
      · apply reports_le_addFlag (fun _ => hnew)
        rintro rfl
        cases hnew
    · apply absurd _ (hrun .valueOld)
      simp only [State.setPoint, State.control_setControl, Function.update_self]
  | finish tasks hpoint ht =>
    apply le_of_lt
    apply leftOver_lt_of_session (a := .finish) h.tasks
    · exact Tasks.stepped_of_next ht
    · exact .inr (.inr rfl)
  | setProblem tasks hpoint ht =>
    have hstep := Tasks.stepped_of_next ht
    have hpc : (s.tasks r).pc = .idle := by
      cases hstep
      assumption
    have hsess := hstep.session r
    rw [if_pos ⟨rfl, rfl⟩] at hsess
    have hne : tasks ≠ s.tasks := by
      rintro rfl
      omega
    apply le_of_lt
    apply leftOver_lt_of_session (a := .setProblem) h.tasks
    · exact hstep
    · exact .inl ⟨rfl, behind_of_begun hx hpoint hpc hne⟩

/-- What a continuation gets to it gets to with no more left to do. -/
theorem RunOk.canReach_le (h : RunOk cfg net s) (hd : Routes net dist) {p : State n → Prop}
    (hreach : (continuing cfg net sel occupied).CanReach s p) :
    (continuing cfg net sel occupied).CanReach s fun t =>
      (RunOk cfg net t ∧ leftOver cfg dist t ≤ leftOver cfg dist s) ∧ p t := by
  apply hreach.and_kept (I := fun t => RunOk cfg net t ∧ leftOver cfg dist t ≤ leftOver cfg dist s)
  · intro t x t' ht hx
    exact ⟨ht.1.step hx, (leftOver_le ht.1 hd hx).trans ht.2⟩
  · exact ⟨h, le_rfl⟩

/-- Some continuation leaves less to do. -/
def CanLessen (cfg : Config n) (net : Results.Network n) (sel : VictimSelection n)
    (occupied : State n → Fin n → Bool) (dist : Fin n → Fin n → ℕ) (s : State n) : Prop :=
  (continuing cfg net sel occupied).CanReach s fun t =>
    RunOk cfg net t ∧ leftOver cfg dist t < leftOver cfg dist s

theorem RunOk.canLessen_of_reach (h : RunOk cfg net s) (hd : Routes net dist) {p : State n → Prop}
    (hreach : (continuing cfg net sel occupied).CanReach s p)
    (hp : ∀ u, RunOk cfg net u → p u → CanLessen cfg net sel occupied dist u) :
    CanLessen cfg net sel occupied dist s := by
  apply (h.canReach_le hd hreach).trans
  rintro u ⟨⟨hu, hle⟩, hpu⟩
  apply (hp u hu hpu).mono
  rintro t ⟨ht, hlt⟩
  exact ⟨ht, hlt.trans_le hle⟩

theorem RunOk.canLessen_of_step (h : RunOk cfg net s) (hd : Routes net dist)
    (hx : (continuing cfg net sel occupied).next s x = some s')
    (hp : RunOk cfg net s' → CanLessen cfg net sel occupied dist s') :
    CanLessen cfg net sel occupied dist s := by
  apply h.canLessen_of_reach hd (.of_next (p := fun u => u = s') hx rfl)
  rintro u hu rfl
  exact hp hu

theorem RunOk.canLessen_of_next (h : RunOk cfg net s)
    (hx : (continuing cfg net sel occupied).next s x = some s')
    (hlt : leftOver cfg dist s' < leftOver cfg dist s) : CanLessen cfg net sel occupied dist s :=
  .of_next hx ⟨h.step hx, hlt⟩

end Titus.System
