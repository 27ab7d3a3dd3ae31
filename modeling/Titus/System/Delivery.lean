import Titus.Results.Stranded
import Titus.System.Homecoming
import Titus.System.SingleRank

/-! The last results of a session on their way, when no rank has a task left: a rank that selects a
victim finds nothing there, and flushes its segment on the way back.  One of these flushes brings
some result closer to its owner. -/

namespace Titus.System

open Results (Routes totalAhead AllSubmitted BufferElt Stranded Admits OnTheWay)
open Startup (VictimSelection Target Installed)

variable {n : ℕ} {cfg : Config n} {net : Results.Network n} {sel : VictimSelection n}
  {occupied : State n → Fin n → Bool} {dist : Fin n → Fin n → ℕ} {s u : State n} {r q v : Fin n}
  {p p' : Point} {pc : Tasks.WorkPc n}

/-! ### A theft from a rank without tasks -/

/-- A rank that gets to `select_target_rank` is not alone. -/
theorem exists_other (h : RunOk cfg net s) (hpoint : (s.control r).point = .selecting) :
    ∃ v, v ≠ r := by
  by_contra hno
  simp only [not_exists, not_not] at hno
  have hn : n = 1 := by
    have hcard := Fintype.card_eq_one_iff.mpr ⟨r, hno⟩
    rwa [Fintype.card_fin] at hcard
  subst hn
  have hlone := ((lone_invariant cfg net).holds h.reachable).control.point
  rw [← hno 0] at hpoint
  rw [hpoint] at hlone
  cases hlone

theorem exists_target (h : RunOk cfg net s) (hsel : Installed sel net)
    (hpoint : (s.control r).point = .selecting) : ∃ v, v ≠ r ∧ Target sel r v := by
  obtain ⟨v, hv⟩ := exists_other h hpoint
  exact hsel.exists_target hv

/-- At home no task segment has tasks to steal. -/
theorem noTask_of_home (h : RunOk cfg net s) (hhome : Home s v) :
    (s.tasks v).seg.state = .noTask := by
  have hok := (h.tasks.protocol.rank v).pc
  have hplace := (h.termination.control v).point
  rcases hhome with hpoint | ⟨-, hpc | hpc⟩
  · rw [hpoint] at hplace
    simp only [Tasks.PcOk, show (s.tasks v).pc = .balancing from hplace] at hok
    exact hok.state
  · simp only [Tasks.PcOk, hpc] at hok
    exact hok.1.state
  · simp only [Tasks.PcOk, hpc] at hok
    exact hok.1

/-- Rank `r` has left `select_target_rank` for the points `pc` and `p`, and nothing else is
different from `s`. -/
structure Detour (r : Fin n) (s u : State n) (pc : Tasks.WorkPc n) (p : Point) : Prop where
  results : u.results = s.results
  control : u.control = Function.update s.control r { s.control r with point := p }
  pc : (u.tasks r).pc = pc
  tmp : (u.tasks r).tmp = (s.tasks r).tmp

namespace Detour

theorem control_self (h : Detour r s u pc p) : u.control r = { s.control r with point := p } := by
  rw [h.control, Function.update_self]

theorem point (h : Detour r s u pc p) : (u.control r).point = p := by
  rw [h.control_self]

theorem setPoint (h : Detour r s u pc p) (p' : Point) : Detour r s (u.setPoint r p') pc p' := by
  refine ⟨h.results, ?_, h.pc, h.tmp⟩
  simp only [State.setPoint, State.control_setControl, h.control_self]
  rw [h.control, Function.update_idem]

end Detour

/-- A rank at `select_target_rank` that finds nothing to steal from rank `v`. -/
theorem exists_miss (h : RunOk cfg net s) (hpoint : (s.control r).point = .selecting)
    (hv : v ≠ r) (htarget : Target sel r v) (hhome : Home s v) :
    ∃ u, (continuing cfg net sel occupied).next s (r, .select v) = some u ∧
      Detour r s u (.returning .thief) .entry := by
  have hpc : (s.tasks r).pc = .balancing := by
    have hplace := (h.termination.control r).point
    rw [hpoint] at hplace
    exact hplace
  have hst := noTask_of_home h hhome
  refine ⟨State.setPoint ⟨Tasks.lockVictim s.tasks r v, s.results, s.control⟩ r .entry, ?_, ?_⟩
  · apply Transition.System.next_restrict.mpr
    refine ⟨⟨hv, htarget⟩, ?_⟩
    simp only [system, next, hpoint, if_true, hv, if_false, stepTasks, Tasks.next, hpc, ne_eq,
      not_false_eq_true, and_self, Option.map_some]
  · constructor
    · rfl
    · rfl
    · simp only [State.setPoint, State.tasks_setControl, Tasks.lockVictim,
        Tasks.compareAndSwapStatus, hst, reduceCtorEq, if_false, Function.update_self]
    · simp only [State.setPoint, State.tasks_setControl, Tasks.lockVictim,
        Tasks.compareAndSwapStatus, hst, reduceCtorEq, if_false, Function.update_self,
        Function.update_eq_self]

/-- On the way back it flushes its segment if there is something to flush. -/
theorem RunOk.canReach_flushing (h : RunOk cfg net s) (hsel : Installed sel net)
    (hcalm : Calm s.results) (hhome : ∀ q, Home s q) (hpoint : (s.control r).point = .selecting)
    (hocc : Results.isEmpty (s.results.segment r) (s.results.rank r) = false) :
    (continuing cfg net sel occupied).CanReach s fun w =>
      w.results = Results.flushing s.results r := by
  obtain ⟨v, hv, htarget⟩ := exists_target h hsel hpoint
  obtain ⟨u, hu, hdetour⟩ := exists_miss h hpoint hv htarget (hhome v)
  have hflush : advance cfg net u r (occupied u r) =
      some (State.setPoint ⟨u.tasks, Results.flushing u.results r, u.control⟩ r .firstFlush) := by
    simp only [advance, hdetour.point, hdetour.pc, flushUnlessEmpty, stepResults, Results.next,
      hdetour.results, hocc, Bool.false_eq_true, if_false, h.results.running r,
      hcalm.quiet.idle r, hcalm.tmp r, and_self, if_true, Option.map_some, Results.flushing]
  apply Transition.System.CanReach.step hu
  apply Transition.System.CanReach.of_next (continuing_advance hflush)
  simp only [State.setPoint, State.results_setControl, hdetour.results]

/-! ### The flush that brings a result closer -/

section Flush

variable {w : State n} {e : BufferElt n}

/-- A flush with an element on the segment. -/
theorem RunOk.canReach_closer_of_slot (hw : RunOk cfg net w) (hd : Routes net dist)
    (hcalm : Calm s.results) (hflush : w.results = Results.flushing s.results r)
    (he : Results.At s.results e (.slot, r)) :
    (continuing cfg net sel occupied).CanReach w fun t =>
      leftOver cfg dist t < leftOver cfg dist w := by
  have halone : Results.Alone r (fun _ => none) w.results := by
    rw [hflush]
    exact hcalm.quiet.alone_flushing hcalm.tmp r
  have hat : Results.At w.results e (.slot, r) := by
    rw [hflush]
    exact (Results.at_flushing (hcalm.quiet.idle r)).mpr he
  have hall := hw.canReach_quiet sel occupied
    (K := fun u => Results.Alone r (fun _ => none) u ∧ Results.Closer dist w.results u)
    (fun u q a u' hu hu' hk ha hs =>
      ⟨hk.1.step hu.results ha (hu.results.stepped hs), hk.2.trans (ha.closer hd hu hu' hs)⟩)
    ⟨halone, .refl w.results⟩
  apply hall.mono
  rintro t ⟨⟨ht, hsame, halone, hcloser⟩, hquiet⟩
  have htmp : (t.results.rank r).tmp = none := halone.content.elim id id
  have hno : ¬ Results.At t.results e (.slot, r) := halone.not_at ht.system.results hquiet htmp
  rcases hcloser with hlt | ⟨-, hstay⟩
  · exact leftOver_lt_of_ahead hsame.1 hlt
  · exact absurd (hstay e _ hat) hno

/-- A flush of elements that were put aside. -/
theorem RunOk.canReach_closer_of_stranded (hw : RunOk cfg net w) (hd : Routes net dist)
    (hcalm : Calm s.results) (hflush : w.results = Results.flushing s.results r)
    (hst : Stranded r w.results) :
    (continuing cfg net sel occupied).CanReach w fun t =>
      leftOver cfg dist t < leftOver cfg dist w := by
  have hway : OnTheWay r w.results w.results := by
    constructor
    · rw [hflush]
      exact hcalm.quiet.othersRest_flushing hcalm.tmp r
    · rfl
    · exact fun v => ⟨rfl, rfl, rfl, rfl⟩
    · rw [hflush, Results.rank_flushing]
      trivial
  have hall := hw.canReach_quiet sel occupied
    (K := fun u => totalAhead dist u < totalAhead dist w.results ∨
      totalAhead dist u = totalAhead dist w.results ∧ OnTheWay r w.results u)
    (fun u q a u' hu hu' hk ha hs => ?_) (.inr ⟨rfl, hway⟩)
  · apply hall.mono
    rintro t ⟨⟨-, hsame, hk⟩, hquiet⟩
    rcases hk with hlt | ⟨-, hway⟩
    · exact leftOver_lt_of_ahead hsame.1 hlt
    · exact absurd hquiet hway.not_quiet
  · rcases ha.closer hd hu hu' hs with hlt | ⟨heq, hstay⟩
    · exact .inl (hk.elim hlt.trans fun hk => hlt.trans_eq hk.1)
    · rcases hk with hlt | ⟨heq', hway⟩
      · exact .inl (heq.trans_lt hlt)
      · exact .inr ⟨heq.trans heq', hway.step hst hu hu' ha hs hstay⟩

end Flush

/-- At rest the elements that are not submitted are on the segments or were put aside. -/
theorem Calm.kind (hcalm : Calm s.results) {e : BufferElt n} {p : Results.Place n}
    (he : Results.At s.results e p) (hp : p.1 ≠ .submitted) : p.1 = .slot ∨ p.1 = .transiting := by
  obtain ⟨k, r⟩ := p
  cases k with
  | slot => exact .inl rfl
  | transiting => exact .inr rfl
  | submitted => exact absurd rfl hp
  | tmp =>
    have hcarrying : (s.results.rank r).pc.carrying = none := by
      rw [hcalm.quiet.idle r]
      rfl
    rw [Results.At, Results.elements_tmp_of_carrying hcarrying, hcalm.tmp r] at he
    cases he

/-- Where no segment has elements a rank that has put some aside can send them. -/
theorem RunOk.stranded (h : RunOk cfg net s) (hcalm : Calm s.results)
    (hin : ∀ q, (s.tasks q).pc ≠ .idle) (hslot : ∀ e q, ¬ Results.At s.results e (.slot, q))
    {e : BufferElt n} (he : Results.At s.results e (.transiting, r)) :
    Stranded r (Results.flushing s.results r) := by
  have hnil : ∀ v, (s.results.segment v).reserved = [] := by
    intro v
    by_contra hne
    obtain ⟨w, hw⟩ := List.exists_mem_of_ne_nil _ hne
    apply hslot w.2 v
    rw [Results.At, Results.elements_slot_of_idle (hcalm.quiet.idle v)]
    exact List.mem_map_of_mem hw
  have hvacant : ∀ v, Vacant (s.results.segment v) := fun v =>
    vacant_of_head_eq h.system.results (h.system.results.head_eq_tail (hnil v))
  have hrem : Results.remaining (s.results.rank r) =
      (s.results.rank r).localTransitingResults := by
    apply Results.remaining_of_carrying
    rw [hcalm.quiet.idle r]
    rfl
  have hmem : ∀ x ∈ (s.results.rank r).localTransitingResults, ∀ e, x.spot = .inMemory e →
      Results.At s.results e (.transiting, r) := by
    intro x hx e hspot
    apply List.mem_filterMap.mpr
    refine ⟨x, ?_, ?_⟩
    · rw [hrem]
      exact hx
    · simp only [Results.Transit.inMemory, hspot]
  have htransit : ((Results.flushing s.results r).rank r).localTransitingResults =
      (s.results.rank r).localTransitingResults := by
    rw [Results.rank_flushing]
  constructor
  · exact hnil
  · rw [htransit]
    intro hempty
    obtain ⟨x, hx, -⟩ := List.mem_filterMap.mp he
    rw [hrem, hempty] at hx
    cases hx
  · rw [htransit]
    intro x hx
    obtain ⟨e', he'⟩ := (h.system.results.rank r).entries x hx
    cases hspot : x.spot with
    | inMemory e₀ =>
      refine ⟨e₀, rfl, fun v => ?_⟩
      exact (h.hasRoom (hmem x hx e₀ hspot)).select _ (h.sized (hin v)) (hvacant v)
    | onSegment off =>
      obtain ⟨c, hc, -⟩ := (h.system.results.rank r).onSegment x hx off hspot
      rw [hcalm.quiet.idle r] at hc
      cases hc

/-- While some result has not been submitted, some can come closer to its owner. -/
theorem RunOk.canLessen_of_unsubmitted (h : RunOk cfg net s) (hsel : Installed sel net)
    (hd : Routes net dist)
    (hcalm : Calm s.results) (hselecting : ∀ q, (s.control q).point = .selecting)
    (hno : ¬ AllSubmitted s.results) : CanLessen cfg net sel occupied dist s := by
  have hhome : ∀ q, Home s q := fun q => .inl (hselecting q)
  have hin : ∀ q, (s.tasks q).pc ≠ .idle := by
    intro q hpc
    have hplace := (h.termination.control q).point
    rw [hselecting q] at hplace
    rw [show (s.tasks q).pc = .balancing from hplace] at hpc
    cases hpc
  have hflush : ∀ r, Results.isEmpty (s.results.segment r) (s.results.rank r) = false →
      (∀ w, RunOk cfg net w → w.results = Results.flushing s.results r →
        (continuing cfg net sel occupied).CanReach w fun t =>
          leftOver cfg dist t < leftOver cfg dist w) →
      CanLessen cfg net sel occupied dist s := by
    intro r hocc hcloser
    apply h.canLessen_of_reach hd (h.canReach_flushing hsel hcalm hhome (hselecting r) hocc)
    exact fun w hw hresults => hw.canReach (hcloser w hw hresults)
  by_cases hslot : ∃ e r, Results.At s.results e (.slot, r)
  · obtain ⟨e, r, he⟩ := hslot
    apply hflush r
    · have hne : (s.results.segment r).bufferTail ≠ (s.results.segment r).bufferHead := by
        intro heq
        have hnil := h.system.results.reserved_eq_nil heq.symm
        rw [Results.At, Results.elements_slot_of_idle (hcalm.quiet.idle r), hnil] at he
        cases he
      simp [Results.isEmpty, hne]
    · exact fun w hw hresults => hw.canReach_closer_of_slot hd hcalm hresults he
  · simp only [not_exists] at hslot
    simp only [AllSubmitted, not_forall] at hno
    obtain ⟨e, ⟨k, r⟩, he, hp⟩ := hno
    rcases hcalm.kind he hp with rfl | rfl
    · exact absurd he (hslot e r)
    · have hst := h.stranded hcalm hin hslot he
      apply hflush r
      · have hne := hst.entries
        rw [Results.rank_flushing] at hne
        simpa [Results.isEmpty] using fun _ => hne
      · intro w hw hresults
        apply hw.canReach_closer_of_stranded hd hcalm hresults
        rwa [hresults]

end Titus.System
