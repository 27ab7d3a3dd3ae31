import Titus.Lib.ParallelLoops
import Titus.System.Scheduling
import Titus.System.Correctness
import Titus.Tasks.Progress

/-! The library runs the loops of all ranks side by side: every step of a rank computes one task,
stores the results of some tasks in the array of their rank, begins or ends a session, or does
nothing that a user can see. -/

namespace Titus.System

open ParallelLoops (Loops Item Open span)
open Results (BufferElt submitResults)

variable {n : ℕ} {cfg : Config n} {net : Results.Network n} {s s' : State n} {r : Fin n}

/-! ### What a user sees -/

/-- The loops over the problems. -/
def loops (cfg : Config n) : Loops (Fin n) UInt8 where
  count := cfg.nbTask
  size := cfg.resultSize
  output := cfg.resultByte
  initial := cfg.result

def taskOf (x : Item (Fin n)) : TaskId n := ⟨x.round, x.owner, x.index⟩

/-- What there is of the loops in a state. -/
def abstraction (s : State n) : ParallelLoops.State (Fin n) UInt8 where
  begun r := (s.tasks r).session
  ended r := (s.tasks r).finished
  computed := {x | ∃ r, taskOf x ∈ (s.tasks r).executed}
  stored := {x | 0 < cover (taskOf x) (s.results.rank x.owner).submitted}
  array r := (s.results.rank r).usrResults

/-- The step from `s` to `s'` is a step of the loops, or none. -/
def Refines (cfg : Config n) (s s' : State n) : Prop :=
  abstraction s' = abstraction s ∨
    ∃ b, (ParallelLoops.system (loops cfg)).next (abstraction s) b = some (abstraction s')

/-- A step on tasks that begins and ends no session and executes no task. -/
def SameTasks (t t' : Tasks.State n) : Prop :=
  ∀ q, (t' q).session = (t q).session ∧ (t' q).finished = (t q).finished ∧
    (t' q).executed = (t q).executed

theorem SameTasks.begun (h : SameTasks s.tasks s'.tasks) :
    (abstraction s').begun = (abstraction s).begun := funext fun q => (h q).1

theorem SameTasks.ended (h : SameTasks s.tasks s'.tasks) :
    (abstraction s').ended = (abstraction s).ended := funext fun q => (h q).2.1

theorem computed_eq (h : ∀ q, (s'.tasks q).executed = (s.tasks q).executed) :
    (abstraction s').computed = (abstraction s).computed := by
  simp only [abstraction, h]

theorem computed_cons {x : Item (Fin n)}
    (hr : (s'.tasks r).executed = taskOf x :: (s.tasks r).executed)
    (hother : ∀ q, q ≠ r → (s'.tasks q).executed = (s.tasks q).executed) :
    (abstraction s').computed = insert x (abstraction s).computed := by
  ext y
  simp only [abstraction, Set.mem_insert_iff, Set.mem_ofPred_eq]
  constructor
  · rintro ⟨q, hq⟩
    by_cases hqr : q = r
    · subst hqr
      rw [hr] at hq
      rcases List.mem_cons.mp hq with heq | hq
      · left
        cases x
        cases y
        cases heq
        rfl
      · exact .inr ⟨q, hq⟩
    · rw [hother q hqr] at hq
      exact .inr ⟨q, hq⟩
  · rintro (rfl | ⟨q, hq⟩)
    · refine ⟨r, ?_⟩
      rw [hr]
      exact List.mem_cons_self ..
    · refine ⟨q, ?_⟩
      by_cases hqr : q = r
      · subst hqr
        rw [hr]
        exact List.mem_cons_of_mem _ hq
      · rwa [hother q hqr]

theorem stored_eq (h : ∀ q, (s'.results.rank q).submitted = (s.results.rank q).submitted) :
    (abstraction s').stored = (abstraction s).stored := by
  simp only [abstraction, h]

/-- The items whose results an element has. -/
theorem mem_span_iff {e : BufferElt n} (howner : e.owner = r) {x : Item (Fin n)} :
    x ∈ span e.batch.session r e.firstTaskId e.nbResult ↔ Covers e (taskOf x) := by
  subst howner
  exact Iff.rfl

theorem stored_cons {e : BufferElt n} (howner : e.owner = r)
    (hr : (s'.results.rank r).submitted = e :: (s.results.rank r).submitted)
    (hother : ∀ q, q ≠ r → (s'.results.rank q).submitted = (s.results.rank q).submitted) :
    (abstraction s').stored =
      (abstraction s).stored ∪ span e.batch.session r e.firstTaskId e.nbResult := by
  ext y
  simp only [Set.mem_union, mem_span_iff howner, abstraction, Set.mem_ofPred_eq]
  by_cases hy : y.owner = r
  · rw [hy, hr, cover_cons]
    by_cases hcovers : Covers e (taskOf y)
    · simp [hcovers]
    · simp [hcovers]
  · have hno : ¬ Covers e (taskOf y) := fun hc => hy (hc.2.1.trans howner)
    simp [hother _ hy, hno]

theorem array_eq (h : ∀ q, (s'.results.rank q).usrResults = (s.results.rank q).usrResults) :
    (abstraction s').array = (abstraction s).array := funext h

theorem abstraction_eq (htasks : SameTasks s.tasks s'.tasks)
    (hsubmitted : ∀ q, (s'.results.rank q).submitted = (s.results.rank q).submitted)
    (harray : ∀ q, (s'.results.rank q).usrResults = (s.results.rank q).usrResults) :
    abstraction s' = abstraction s := by
  apply ParallelLoops.State.ext
  · exact htasks.begun
  · exact htasks.ended
  · exact computed_eq fun q => (htasks q).2.2
  · exact stored_eq hsubmitted
  · exact array_eq harray

/-! ### Computing and storing -/

/-- While a task is in a dequeue, or its result in a tmp segment, all ranks are in its session. -/
theorem RunOk.open_of_held (h : RunOk cfg net s) {x : TaskId n}
    (hx : x.id < cfg.nbTask x.session x.owner) (hbegun : ∀ q, x.session < (s.tasks q).session)
    (hheld : 0 < (s.tasks r).dq.copies (s.tasks r).current x ∨
      0 < (s.tasks r).tmp.copies (s.tasks r).current x) :
    Open (abstraction s) x.session := by
  intro q
  refine ⟨hbegun q, ?_⟩
  by_contra hlt
  have hended : x.session < ended s q := (Nat.lt_of_not_le hlt).trans_le (Nat.le_add_right _ _)
  have hcomplete := complete_of_lt_ended h.tasks h.termination h.system hended x.owner
  have hsettled := hcomplete.settled h.system.conserved h.system.ledger h.tasks hx
  rcases hheld with hdq | htmp
  · exact absurd (hsettled.dequeue r) (Nat.ne_of_gt hdq)
  · exact absurd (hsettled.tmp r) (Nat.ne_of_gt htmp)

/-- A task that a rank executes was not executed before. -/
theorem not_executed_of_next (ht : TasksOk cfg s'.tasks) {x : TaskId n}
    (hr : (s'.tasks r).executed = x :: (s.tasks r).executed)
    (hother : ∀ q, q ≠ r → (s'.tasks q).executed = (s.tasks q).executed) (q : Fin n) :
    x ∉ (s.tasks q).executed := by
  intro hx
  have hone := copies_le_one ht x
  have hpos : 0 < (s.tasks q).executed.count x := List.count_pos_iff.mpr hx
  have hself : Tasks.held x (s'.tasks r) ≤ Tasks.copies s'.tasks x :=
    Finset.single_le_sum (f := fun q => Tasks.held x (s'.tasks q)) (fun _ _ => Nat.zero_le _)
      (Finset.mem_univ r)
  have hcount : (s'.tasks r).executed.count x = (s.tasks r).executed.count x + 1 := by
    rw [hr, List.count_cons_self]
  by_cases hq : q = r
  · subst hq
    unfold Tasks.held at hself
    omega
  · have hboth : Tasks.held x (s'.tasks r) + Tasks.held x (s'.tasks q) ≤
        Tasks.copies s'.tasks x :=
      Finset.add_le_sum (f := fun q => Tasks.held x (s'.tasks q)) (fun _ _ => Nat.zero_le _)
        (Finset.mem_univ r) (Finset.mem_univ q) (Ne.symm hq)
    unfold Tasks.held at hboth
    rw [hother q hq] at hboth
    omega

/-- `submit_results` stores the results of an element. -/
theorem usrResults_submitResults {u : Results.RankResults n} {e : BufferElt n}
    (hdesc : Describes cfg e) (hsize : u.resultSize = cfg.resultSize e.batch.session) :
    (submitResults u e).usrResults =
      (loops cfg).store e.batch.session e.owner e.firstTaskId e.nbResult u.usrResults := by
  funext c
  have hcells : cfg.resultSize e.batch.session * e.firstTaskId ≤ c ∧
      c < cfg.resultSize e.batch.session * (e.firstTaskId + e.nbResult) ↔ _ :=
    Loops.mem_cells_iff
  rcases Nat.eq_zero_or_pos (cfg.resultSize e.batch.session) with hzero | hpos
  · simp [Loops.store, loops, submitResults, Memory.copy, hsize, hzero]
  · have hbyte := submitResults_byte hdesc hsize (i := c / cfg.resultSize e.batch.session)
      (Nat.mod_lt c hpos)
    rw [Nat.div_add_mod'] at hbyte
    rw [hbyte]
    simp only [Loops.store, loops, hcells, hpos, true_and]

/-! ### Steps -/

section Steps

variable (h : RunOk cfg net s) (h' : RunOk cfg net s')

include h h'

/-- A step on tasks within a session. -/
theorem refines_tasks {a : Tasks.Action n} (hst : Tasks.Stepped cfg s.tasks r a s'.tasks)
    (ha : a ≠ .setProblem) (ha' : a ≠ .finish) (hresults : s'.results = s.results) :
    Refines cfg s s' := by
  have hsess : ∀ q, (s'.tasks q).session = (s.tasks q).session := by
    intro q
    rw [hst.session, if_neg fun hc => ha hc.1, Nat.add_zero]
  have hfin : ∀ q, (s'.tasks q).finished = (s.tasks q).finished := by
    intro q
    rw [hst.finished, if_neg fun hc => ha' hc.1, Nat.add_zero]
  have hsub : ∀ q, (s'.results.rank q).submitted = (s.results.rank q).submitted := by
    intro q
    rw [hresults]
  have harray : ∀ q, (s'.results.rank q).usrResults = (s.results.rank q).usrResults := by
    intro q
    rw [hresults]
  by_cases hpc : (s.tasks r).pc = .solving
  · have hok := (h.tasks.protocol.rank r).pc
    simp only [Tasks.PcOk, hpc] at hok
    obtain ⟨hwork, hpos, -⟩ := hok
    have hle := hwork.dequeue.nbTask_le
    have hend := hwork.dequeue.end_le
    have hin : Tasks.InSession (s.tasks r).pc := by
      rw [hpc]
      constructor <;> rintro ⟨⟩
    have hcur := Tasks.RankTasks.current_eq ((h.tasks.protocol.rank r).session_eq hin.1)
    have hself : (s'.tasks r).executed = (s.tasks r).nextTask :: (s.tasks r).executed := by
      rw [hst.executed_eq, if_pos ⟨rfl, hpc⟩]
    have hother : ∀ q, q ≠ r → (s'.tasks q).executed = (s.tasks q).executed := by
      intro q hq
      rw [hst.executed_eq, if_neg fun hc => hq hc.1]
    right
    refine ⟨.compute ⟨(s.tasks r).current, (s.tasks r).dq.ownerTaskRank,
      (s.tasks r).dq.endTaskId - 1⟩, ?_⟩
    simp only [ParallelLoops.system, ParallelLoops.next]
    rw [if_pos, Option.some.injEq]
    · apply ParallelLoops.State.ext
      · exact (funext hsess).symm
      · exact (funext hfin).symm
      · exact (computed_cons hself hother).symm
      · exact (stored_eq hsub).symm
      · exact (array_eq harray).symm
    · refine ⟨?_, ?_, ?_⟩
      · apply h.open_of_held (r := r) (x := (s.tasks r).nextTask)
        · simp only [Tasks.RankTasks.nextTask]
          omega
        · intro q
          have hq := h.tasks.session_le hin q
          have hsession := (h.tasks.protocol.rank r).session_eq hin.1
          simp only [Tasks.RankTasks.nextTask]
          omega
        · left
          rw [Tasks.Dequeue.copies, if_pos]
          · exact Nat.one_pos
          · simp only [Tasks.Dequeue.Contains, Tasks.RankTasks.nextTask, true_and]
            omega
      · simp only [loops]
        omega
      · rintro ⟨q, hq⟩
        exact not_executed_of_next h'.tasks hself hother q hq
  · left
    apply abstraction_eq _ hsub harray
    intro q
    refine ⟨hsess q, hfin q, ?_⟩
    rw [hst.executed_eq, if_neg fun hc => hpc hc.2]

/-- A step in which a rank submits one element at most, and no task is executed. -/
theorem refines_results {a : Results.Action n} (htasks : SameTasks s.tasks s'.tasks)
    (hother : ∀ q, q ≠ r → s'.results.rank q = s.results.rank q)
    (hacc : Results.Accounted s.results r a (s'.results.rank r))
    (hopen : ∀ e, Results.Source s.results r a e →
      Open (abstraction s) e.batch.session) : Refines cfg s s' := by
  cases hacc with
  | same hsame =>
    left
    apply abstraction_eq htasks
    · intro q
      by_cases hq : q = r
      · rw [hq, hsame.submitted]
      · rw [hother q hq]
    · intro q
      by_cases hq : q = r
      · rw [hq, hsame.usrResults]
      · rw [hother q hq]
  | submit e howner hsource hsame =>
    have hround := hopen e hsource
    have hsubmitted : (s'.results.rank r).submitted = e :: (s.results.rank r).submitted :=
      hsame.submitted
    have hat : Results.At s'.results e (.submitted, r) := by
      change e ∈ (s'.results.rank r).submitted
      rw [hsubmitted]
      exact List.mem_cons_self ..
    obtain ⟨p, hp⟩ := h'.system.conserved.pushed_of_at hat
    have hdesc := (h'.system.ledger.describes p e hp).1
    have hsize : (s.results.rank r).resultSize = cfg.resultSize e.batch.session := by
      have hr := hround r
      have hbound := (h.tasks.session_bounds r).2
      simp only [abstraction] at hr
      have hcur := Tasks.RankTasks.current_eq (t := s.tasks r) (k := e.batch.session) (by omega)
      rw [← hcur]
      exact (h.system.account r).resultSize (by omega)
    right
    refine ⟨.store e.batch.session r e.firstTaskId e.nbResult, ?_⟩
    simp only [ParallelLoops.system, ParallelLoops.next]
    rw [if_pos, Option.some.injEq]
    · apply ParallelLoops.State.ext
      · exact htasks.begun.symm
      · exact htasks.ended.symm
      · exact (computed_eq fun q => (htasks q).2.2).symm
      · exact (stored_cons howner hsubmitted fun q hq => by rw [hother q hq]).symm
      · funext q
        simp only [abstraction]
        by_cases hq : q = r
        · subst hq
          rw [Function.update_self, hsame.usrResults, usrResults_submitResults hdesc hsize, howner]
        · rw [Function.update_of_ne hq, hother q hq]
    · refine ⟨hround, ?_, ?_⟩
      · intro y hy
        have hcover : 0 < cover (taskOf y) (s'.results.rank p).pushed :=
          cover_pos.mpr ⟨e, hp, (mem_span_iff howner).mp hy⟩
        have hexec := h'.system.ledger.executed p (taskOf y)
        rw [(htasks p).2.2] at hexec
        exact ⟨p, List.count_pos_iff.mp (by omega)⟩
      · apply Set.disjoint_left.mpr
        intro y hy hstored
        have hone := cover_le_one h'.system.conserved h'.system.ledger h'.tasks (taskOf y)
          (.submitted, r)
        change cover (taskOf y) (s'.results.rank r).submitted ≤ 1 at hone
        rw [hsubmitted, cover_cons, if_pos ((mem_span_iff howner).mp hy)] at hone
        have hpos : 0 < cover (taskOf y) (s.results.rank y.owner).submitted := hstored
        rw [hy.2.1] at hpos
        omega

end Steps

section Sessions

variable (h : RunOk cfg net s)

include h

/-- The elements in the slots of a rank are of a session that all ranks are in. -/
theorem RunOk.open_of_slot {e : BufferElt n} (he : Results.At s.results e (.slot, r)) :
    Open (abstraction s) e.batch.session := by
  intro q
  obtain ⟨hfin, hsess⟩ := session_of_at h.tasks h.termination h.system he (by rintro ⟨⟩) q
  exact ⟨(Nat.lt_succ_self _).trans_eq hsess.symm, hfin.le⟩

/-- So is the element that `push_tmp_results` builds. -/
theorem RunOk.open_of_tmp (hpc : Tasks.InSession (s.tasks r).pc)
    (hnb : (s.tasks r).tmp.nbResult ≠ 0) : Open (abstraction s) (s.tasks r).current := by
  have htmp := (h.tasks.protocol.rank r).tmpOk hnb
  have hlast := htmp.last
  have hle := htmp.last_le
  have hcur := Tasks.RankTasks.current_eq ((h.tasks.protocol.rank r).session_eq hpc.1)
  apply h.open_of_held (r := r) (x := ⟨(s.tasks r).current, (s.tasks r).dq.ownerTaskRank,
    (s.tasks r).tmp.lastResultId - 1⟩)
  · simp only
    omega
  · intro q
    have hq := h.tasks.session_le hpc q
    simp only
    omega
  · right
    rw [Tasks.MetadataTmp.copies, if_pos]
    · exact Nat.one_pos
    · refine ⟨rfl, htmp.owner, ?_, ?_⟩
      · simp only
        omega
      · simp only
        omega

theorem refines_finish {a : Tasks.Action n} (hst : Tasks.Stepped cfg s.tasks r a s'.tasks)
    (ha : a = .finish) (hpoint : (s.control r).point = .finishing)
    (hsub : ∀ q, (s'.results.rank q).submitted = (s.results.rank q).submitted)
    (harray : ∀ q, (s'.results.rank q).usrResults = (s.results.rank q).usrResults) :
    Refines cfg s s' := by
  subst ha
  have hpc : (s.tasks r).pc = .balancing := by
    generalize s'.tasks = tasks at hst
    cases hst
    assumption
  have hin : Tasks.InSession (s.tasks r).pc := by
    rw [hpc]
    constructor <;> rintro ⟨⟩
  have hended : (s.tasks r).finished < ended s r := by
    simp [ended, hpoint, Point.detected]
  right
  refine ⟨.finish r, ?_⟩
  simp only [ParallelLoops.system, ParallelLoops.next]
  rw [if_pos, Option.some.injEq]
  · apply ParallelLoops.State.ext
    · funext q
      have hq := hst.session q
      rw [if_neg (by rintro ⟨⟨⟩, -⟩)] at hq
      exact hq.symm
    · funext q
      have hq := hst.finished q
      simp only [abstraction]
      by_cases hqr : q = r
      · subst hqr
        rw [if_pos ⟨rfl, rfl⟩] at hq
        rw [Function.update_self, hq]
      · rw [if_neg fun hc => hqr hc.2] at hq
        rw [Function.update_of_ne hqr]
        exact hq.symm
    · refine (computed_eq fun q => ?_).symm
      rw [hst.executed_eq, hpc, if_neg (by rintro ⟨-, ⟨⟩⟩)]
    · exact (stored_eq hsub).symm
    · exact (array_eq harray).symm
  · refine ⟨?_, fun q => h.tasks.session_le hin q, fun q j hj => ?_⟩
    · exact h.tasks.session_le hin r
    · have hcomplete := complete_of_lt_ended h.tasks h.termination h.system hended q
      have hone := hcomplete.cover_eq h.system.conserved h.system.ledger h.tasks hj
      exact Nat.lt_of_lt_of_eq Nat.one_pos hone.symm

theorem refines_setProblem {a : Tasks.Action n}
    (hst : Tasks.Stepped cfg s.tasks r a s'.tasks) (ha : a = .setProblem)
    (hsub : ∀ q, (s'.results.rank q).submitted = (s.results.rank q).submitted)
    (hself : (s'.results.rank r).usrResults = cfg.result (s.tasks r).session r)
    (harray : ∀ q, q ≠ r → (s'.results.rank q).usrResults = (s.results.rank q).usrResults) :
    Refines cfg s s' := by
  subst ha
  have hpc : (s.tasks r).pc = .idle := by
    generalize s'.tasks = tasks at hst
    cases hst
    assumption
  right
  refine ⟨.begin r, ?_⟩
  simp only [ParallelLoops.system, ParallelLoops.next]
  rw [if_pos, Option.some.injEq]
  · apply ParallelLoops.State.ext
    · funext q
      have hq := hst.session q
      simp only [abstraction]
      by_cases hqr : q = r
      · subst hqr
        rw [if_pos ⟨rfl, rfl⟩] at hq
        rw [Function.update_self, hq]
      · rw [if_neg fun hc => hqr hc.2] at hq
        rw [Function.update_of_ne hqr]
        exact hq.symm
    · funext q
      have hq := hst.finished q
      rw [if_neg (by rintro ⟨⟨⟩, -⟩)] at hq
      exact hq.symm
    · refine (computed_eq fun q => ?_).symm
      rw [hst.executed_eq, hpc, if_neg (by rintro ⟨-, ⟨⟩⟩)]
    · exact (stored_eq hsub).symm
    · funext q
      simp only [abstraction, loops]
      by_cases hqr : q = r
      · subst hqr
        rw [Function.update_self, hself]
      · rw [Function.update_of_ne hqr, harray q hqr]
  · exact ((h.tasks.protocol.rank r).session_eq_of_idle hpc).symm

end Sessions

/-! ### The refinement -/

theorem sameTasks_rfl (t : Tasks.State n) : SameTasks t t := fun _ => ⟨rfl, rfl, rfl⟩

theorem refines_of_stepped (h : RunOk cfg net s) (h' : RunOk cfg net s')
    (hs : Stepped cfg net s r s') : Refines cfg s s' := by
  cases hs with
  | move | reach | report | pass =>
    left
    exact abstraction_eq (sameTasks_rfl _) (fun _ => rfl) fun _ => rfl
  | forward c p hf =>
    left
    exact abstraction_eq (sameTasks_rfl _) (fun _ => rfl) fun _ => rfl
  | tasks a tasks hcall hnext =>
    obtain ⟨ha, ha', -⟩ := hcall.action_ne
    exact refines_tasks h h' (Tasks.stepped_of_next hnext) ha ha' rfl
  | results a p results hcall hnext =>
    have hst := h.system.results.stepped hnext
    have hpush : ∀ k id nb size owner data, a ≠ .push k id nb size owner data := by
      revert hcall
      generalize (s.control r).point = p₀
      intro hcall
      cases hcall <;> rintro _ _ _ _ _ _ ⟨⟩
    apply refines_results h h' (sameTasks_rfl _) (fun q hq => hst.rank_of_ne hq)
      (hst.accounted h.system.results)
    rintro e (hat | ⟨k, id, nb, size, owner, data, ha, -⟩)
    · exact h.open_of_slot hat
    · exact absurd ha (hpush k id nb size owner data)
  | push owner tasks results hpoint hnb howner hnext ht =>
    have hst := h.system.results.stepped hnext
    have hstep := Tasks.stepped_of_next ht
    obtain ⟨site, hpc⟩ : ∃ site, (s.tasks r).pc = .returning site := by
      cases hstep
      exact ⟨_, ‹_›⟩
    apply refines_results h h' _ (fun q hq => hst.rank_of_ne hq)
      (hst.accounted h.system.results)
    · rintro e (hat | ⟨k, id, nb, size, owner', data, ha, rfl⟩)
      · exact h.open_of_slot hat
      · cases ha
        apply h.open_of_tmp _ hnb
        rw [hpc]
        constructor <;> rintro ⟨⟩
    · intro q
      have hsess := hstep.session q
      have hfin := hstep.finished q
      have hexec := hstep.executed_eq q
      rw [if_neg (by rintro ⟨⟨⟩, -⟩)] at hsess hfin
      rw [hpc, if_neg (by rintro ⟨-, ⟨⟩⟩)] at hexec
      exact ⟨hsess, hfin, hexec⟩
  | finish tasks hpoint ht =>
    have hsame : ∀ q, (Function.update s.results.rank r
        { s.results.rank r with nbResult := 0 } q).submitted = (s.results.rank q).submitted ∧
        (Function.update s.results.rank r
          { s.results.rank r with nbResult := 0 } q).usrResults =
            (s.results.rank q).usrResults := by
      intro q
      by_cases hq : q = r
      · subst hq
        rw [Function.update_self]
        exact ⟨rfl, rfl⟩
      · rw [Function.update_of_ne hq]
        exact ⟨rfl, rfl⟩
    exact refines_finish h (Tasks.stepped_of_next ht) rfl hpoint (fun q => (hsame q).1)
      fun q => (hsame q).2
  | setProblem tasks hpoint ht =>
    apply refines_setProblem h (Tasks.stepped_of_next ht) rfl
    · intro q
      by_cases hq : q = r
      · subst hq
        simp [constructResults]
      · simp [Function.update_of_ne hq]
    · simp [constructResults]
    · intro q hq
      simp [Function.update_of_ne hq]

theorem projects_loops (cfg : Config n) (net : Results.Network n) :
    (system cfg net).Projects (ParallelLoops.system (loops cfg)) abstraction := by
  constructor
  · rintro s ⟨htasks, ⟨-, hresults⟩, -⟩
    refine ⟨fun i => (htasks i).session, fun i => (htasks i).finished, ?_, ?_⟩
    · simp [abstraction, fun q => (htasks q).executed]
    · simp [abstraction, fun q => (hresults q).submitted, cover]
  · rintro s ⟨r, a⟩ s' hr - hs
    exact refines_of_stepped (runOk_of_reachable hr) (runOk_of_reachable (hr.step hs))
      (stepped_of_next hs)

/-- The library on any number of ranks, with any victims and any schedule of its ranks and its
communication, refines the loops of all ranks run side by side. -/
theorem system_refines_parallel_loops (cfg : Config n) (net : Results.Network n) :
    (system cfg net).Projects (ParallelLoops.system (loops cfg)) abstraction :=
  projects_loops cfg net

/-! ### The result arrays -/

/-- In every reachable state the result array of a rank holds the results that the rank has
submitted in its last session, each in its place, and every other byte is as the user gave it.  When
`parallel_work` has returned, the array is the one that a loop over the problem leaves. -/
theorem result_array_exact (hr : (system cfg net).Reachable s) {k : ℕ}
    (hk : (s.tasks r).session = k + 1) :
    (∀ c, (s.results.rank r).usrResults c =
      if 0 < cfg.resultSize k ∧
          0 < cover ⟨k, r, c / cfg.resultSize k⟩ (s.results.rank r).submitted then
        cfg.resultByte k r (c / cfg.resultSize k) (c % cfg.resultSize k)
      else cfg.result k r c) ∧
    ((s.tasks r).finished = k + 1 → (s.results.rank r).usrResults = (loops cfg).run k r) := by
  have hok := (ParallelLoops.invariant (loops cfg)).holds
    ((projects_loops cfg net).reachable hr)
  constructor
  · intro c
    have harray := hok.array r k hk c
    by_cases hc : 0 < cfg.resultSize k ∧
        0 < cover ⟨k, r, c / cfg.resultSize k⟩ (s.results.rank r).submitted
    · rw [if_pos hc]
      exact harray.trans (if_pos hc)
    · rw [if_neg hc]
      exact harray.trans (if_neg hc)
  · exact hok.array_of_ended hk

/-- A task that rank 1 has stolen has its result in the array of rank 0, which is as the loop of
rank 0 alone would leave it. -/
theorem result_array_exact_after_theft :
    ∃ s, (system Tasks.twoRanks (Results.direct 2)).Reachable s ∧ (s.tasks 0).session = 1 ∧
      (s.tasks 0).finished = 1 ∧ (s.tasks 1).executed = [⟨0, 0, 0⟩] ∧
      (s.results.rank 0).usrResults = (loops Tasks.twoRanks).run 0 0 := by
  obtain ⟨s, hr, hsess, hfin, hexec⟩ := Transition.System.exists_reachable started_init
    (stealAndDetect ++ advances 2 0) (fun s => (s.tasks 0).session = 1 ∧
      (s.tasks 0).finished = 1 ∧ (s.tasks 1).executed = [⟨0, 0, 0⟩]) (by decide +kernel)
  exact ⟨s, hr, hsess, hfin, hexec, (result_array_exact hr hsess).2 hfin⟩

end Titus.System
