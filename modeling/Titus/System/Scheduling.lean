import Titus.Results.Solo
import Titus.Startup.Selector
import Titus.System.ResultRoom

/-! How a run can go on.  Every rank chooses victims that its selector may return, other than
itself, and none begins a session that no other rank has begun.  In such a continuation the pushes
and the flushes that have been begun can come to their end while the tasks and the control of all
ranks stay as they are. -/

namespace Titus.System

open Results (Quiet Ongoing RecordsOk unsettled BufferElt attempt rank_attempt)
open Startup (VictimSelection Target)

variable {n : ℕ} {cfg : Config n} {net : Results.Network n} {sel : VictimSelection n}
  {occupied : State n → Fin n → Bool} {s s' : State n} {r : Fin n}

/-! ### What is known of a reachable state -/

/-- A rank that sets up its segment anew has nothing to wait for there. -/
theorem recordsOk_renew (h : SystemOk cfg net s) (hall : Results.AllSubmitted s.results)
    {R : Fin n → Results.Record} (hrec : RecordsOk s.results R)
    (hpc : (s.results.rank r).pc = .idle) {m : Results.BufferedSegment n}
    (hreserved : m.reserved = []) (hinbox : m.inbox = []) (hnotified : ∀ i, m.notifications i = 0)
    {u : Results.RankResults n} (hu : u.pc = .idle) :
    ∃ R, RecordsOk ((s.results.setSegment r m).setRank r u) R := by
  refine ⟨Function.update R r .empty, ?_⟩
  apply hrec.own
  · intro w
    rw [hu, hpc]
  · exact fun w hw => Function.update_of_ne hw _ _
  · rw [Function.update_self, hu]
    refine ⟨[], rfl, ?_⟩
    rw [hreserved, hinbox]
    apply Announcement.Chain.empty
    · rintro b (hb | ⟨q, hq⟩)
      · cases hb
      · rw [Results.carriedTo_eq_none h.results hall r q] at hq
        cases hq
    · exact hnotified

theorem records_stepped (ht : TasksOk cfg s.tasks) (hd : TerminationOk s) (h : SystemOk cfg net s)
    {R : Fin n → Results.Record} (hrec : RecordsOk s.results R) (hs : Stepped cfg net s r s') :
    ∃ R, RecordsOk s'.results R := by
  cases hs with
  | move | reach | pass => exact ⟨R, hrec⟩
  | report => exact ⟨R, hrec⟩
  | forward => exact ⟨R, hrec⟩
  | tasks => exact ⟨R, hrec⟩
  | results a p results hcall ha =>
    exact ⟨_, hrec.stepped h.results (h.results.stepped ha)⟩
  | push owner tasks results hpoint hnb howner ha =>
    exact ⟨_, hrec.stepped h.results (h.results.stepped ha)⟩
  | finish tasks hpoint =>
    have hstep := hrec.own (r := r) (m := resetSegment (s.results.segment r))
      (t := { s.results.rank r with nbResult := 0 }) (fun _ => rfl) (fun _ _ => rfl) (hrec r)
    exact ⟨R, hstep⟩
  | setProblem tasks hpoint hset =>
    have hpc : (s.tasks r).pc = .idle := by
      cases Tasks.stepped_of_next hset
      assumption
    have hsending := (h.send r).sending
    rw [hpoint] at hsending
    have hall := allSubmitted_of_idle ht hd h hpc
    have hempty := Results.emptied h.results hall r
    have hm : (constructSegment cfg (s.results.segment r)).reserved = [] := rfl
    exact recordsOk_renew h hall hrec hsending.1 hm hempty.inbox hempty.notifications hsending.1

/-- What is known of a reachable state. -/
structure RunOk (cfg : Config n) (net : Results.Network n) (s : State n) : Prop where
  reachable : (system cfg net).Reachable s
  tasks : TasksOk cfg s.tasks
  termination : TerminationOk s
  system : SystemOk cfg net s
  room : RoomOk cfg s
  records : ∃ R, RecordsOk s.results R

theorem records_invariant (cfg : Config n) (net : Results.Network n) :
    (system cfg net).Invariant fun s => ∃ R, RecordsOk s.results R := by
  constructor
  · rintro s ⟨-, hresults, -⟩
    have hinit : (Results.recorded net).init (s.results, fun _ => .empty) :=
      ⟨hresults, fun _ => rfl⟩
    exact ⟨_, RecordsOk.init hinit⟩
  · rintro s ⟨r, a⟩ s' hr ⟨R, hrec⟩ hs
    exact records_stepped (tasksOk_of_reachable hr) ((termination_invariant cfg net).holds hr)
      ((system_invariant cfg net).holds hr) hrec (stepped_of_next hs)

theorem runOk_of_reachable (hr : (system cfg net).Reachable s) : RunOk cfg net s where
  reachable := hr
  tasks := tasksOk_of_reachable hr
  termination := (termination_invariant cfg net).holds hr
  system := (system_invariant cfg net).holds hr
  room := (room_invariant cfg net).holds hr
  records := (records_invariant cfg net).holds hr

/-! ### Continuations -/

/-- What the ranks may do to come to the end of the sessions that have been begun.  The test of the
occupancy of the result segment has the answer that `occupied` gives for the state. -/
def Allowed (sel : VictimSelection n) (occupied : State n → Fin n → Bool) (s : State n) :
    Fin n × Action n → Prop
  | (r, .setProblem) => ∃ q, (s.tasks r).session < (s.tasks q).session
  | (r, .select victim) => victim ≠ r ∧ Target sel r victim
  | (r, .advance b) => b = occupied s r
  | _ => True

noncomputable instance (sel : VictimSelection n) (occupied : State n → Fin n → Bool) (s : State n)
    (x : Fin n × Action n) : Decidable (Allowed sel occupied s x) := Classical.propDecidable _

/-- The system with the steps of a continuation only. -/
noncomputable def continuing (cfg : Config n) (net : Results.Network n)
    (sel : VictimSelection n) (occupied : State n → Fin n → Bool) :
    Transition.System (State n) (Fin n × Action n) :=
  (system cfg net).restrict (Allowed sel occupied)

theorem continuing_advance (hs : advance cfg net s r (occupied s r) = some s') :
    (continuing cfg net sel occupied).next s (r, .advance (occupied s r)) = some s' :=
  Transition.System.next_restrict.mpr ⟨rfl, hs⟩

/-- A continuation leads to reachable states. -/
theorem RunOk.step {x : Fin n × Action n} (h : RunOk cfg net s)
    (hs : (continuing cfg net sel occupied).next s x = some s') : RunOk cfg net s' :=
  runOk_of_reachable (h.reachable.step (Transition.System.next_restrict.mp hs).2)

theorem RunOk.canReach {p : State n → Prop} (h : RunOk cfg net s)
    (hreach : (continuing cfg net sel occupied).CanReach s p) :
    (continuing cfg net sel occupied).CanReach s fun t => RunOk cfg net t ∧ p t :=
  hreach.and_kept (fun _ _ _ => RunOk.step) h

/-! ### What has been begun comes to its end -/

@[simp] theorem State.setPoint_self (s : State n) (r : Fin n) :
    s.setPoint r (s.control r).point = s := by
  simp only [setPoint, setControl, Function.update_eq_self]

/-- The steps of a push or of a flush are steps of the rank, whatever else it is doing. -/
theorem RunOk.next_of_ongoing (h : RunOk cfg net s) {a : Results.Action n}
    {results : Results.State n} (ha : Ongoing s.results r a)
    (hs : Results.next net s.results (r, a) = some results) :
    ∃ x, (continuing cfg net sel occupied).next s x = some ⟨s.tasks, results, s.control⟩ := by
  have hself := State.setPoint_self ⟨s.tasks, results, s.control⟩ r
  cases a with
  | push | flush | pushTransit => cases ha
  | land m w =>
    refine ⟨(r, .land m w), Transition.System.next_restrict.mpr ⟨trivial, ?_⟩⟩
    change stepResults net s r (.land m w) (s.control r).point = _
    rw [stepResults, hs]
    exact congrArg some hself
  | deliver m =>
    refine ⟨(r, .deliver m), Transition.System.next_restrict.mpr ⟨trivial, ?_⟩⟩
    change stepResults net s r (.deliver m) (s.control r).point = _
    rw [stepResults, hs]
    exact congrArg some hself
  | advance =>
    have hsend := (h.system.send r).sending
    have hrunning := h.system.running r
    refine ⟨(r, .advance (occupied s r)), continuing_advance ?_⟩
    cases hpoint : (s.control r).point <;> simp only [SendingAt, hpoint] at hsend
    case firstFlush | secondFlush =>
      simp only [advance, hpoint, stepFlush, if_neg ha, stepResults, hs, Option.map_some]
      rw [← hpoint, hself]
    case bufferFlush =>
      simp only [advance, hpoint, if_neg ha, stepResults, hs, Option.map_some]
      rw [← hpoint, hself]
    case pushing =>
      have hbusy : ¬ ((s.results.rank r).pc = .idle ∧ (s.results.rank r).tmp = none) :=
        fun hc => ha hc.1
      simp only [advance, hpoint, if_neg hbusy, stepResults, hs, Option.map_some]
      rw [← hpoint, hself]
    case aborted a => exact absurd hpoint (hrunning a)
    all_goals exact absurd hsend.1 ha

theorem RunOk.results (h : RunOk cfg net s) : Results.RunOk net s.results :=
  ⟨h.system.results, h.system.conserved, fun q => (h.system.account q).failed⟩

/-- The same tasks and the same control. -/
def SameWork (s t : State n) : Prop := t.tasks = s.tasks ∧ t.control = s.control

/-- All that has been begun can come to its end, with what its steps keep. -/
theorem RunOk.canReach_quiet (h : RunOk cfg net s) (sel : VictimSelection n)
    (occupied : State n → Fin n → Bool) {K : Results.State n → Prop}
    (hK : ∀ u r a u', Results.RunOk net u → Results.RunOk net u' → K u → Ongoing u r a →
      Results.next net u (r, a) = some u' → K u') (hk : K s.results) :
    (continuing cfg net sel occupied).CanReach s fun t =>
      (RunOk cfg net t ∧ SameWork s t ∧ K t.results) ∧ Quiet t.results := by
  apply Transition.System.CanReach.of_variant (fun t => unsettled t.results)
  · rintro t ⟨ht, hsame, hkt⟩ hquiet
    obtain ⟨R, hrec⟩ := ht.records
    obtain ⟨r, a, u, ha, hu, hlt⟩ :=
      Results.exists_settling ht.system.results hrec ht.results.running hquiet
    obtain ⟨x, hx⟩ := ht.next_of_ongoing ha hu
    have ht' := ht.step hx
    exact .of_next hx ⟨⟨ht', hsame, hK t.results r a u ht.results ht'.results hkt ha hu⟩, hlt⟩
  · exact ⟨h, ⟨rfl, rfl⟩, hk⟩

/-! ### The content of the tmp segments -/

/-- A rank with something in its tmp segment is in the loop of `push_tmp_results`. -/
theorem RunOk.point_of_tmp (h : RunOk cfg net s) (htmp : (s.results.rank r).tmp ≠ none) :
    (s.control r).point = .pushing := by
  have hsend := (h.system.send r).sending
  have hrunning := h.system.running r
  cases hpoint : (s.control r).point <;> simp only [SendingAt, hpoint] at hsend
  case pushing => rfl
  case aborted a => exact absurd hpoint (hrunning a)
  case firstFlush | secondFlush | bufferFlush => exact absurd hsend htmp
  all_goals exact absurd hsend.2 htmp

/-- The elements on a rank have room on the empty segment of any rank in a session. -/
theorem RunOk.hasRoom (h : RunOk cfg net s) {e : BufferElt n} {p : Results.Place n}
    (he : Results.At s.results e p) : HasRoom cfg e := by
  obtain ⟨q, hq⟩ := h.system.conserved.pushed_of_at he
  exact h.room.pushed q e hq

theorem RunOk.sized (h : RunOk cfg net s) (hpc : (s.tasks r).pc ≠ .idle) :
    Sized cfg (s.results.segment r) := by
  have hsess := (h.tasks.protocol.rank r).session_eq hpc
  exact h.room.sized r (by omega)

/-- The start of an attempt is a step of the rank. -/
theorem RunOk.exists_startTmp (h : RunOk cfg net s) (hq : Quiet s.results) {e : BufferElt n}
    (htmp : (s.results.rank r).tmp = some e) :
    ∃ x, (continuing cfg net sel occupied).next s x =
      some ⟨s.tasks, attempt s.results r, s.control⟩ := by
  have hne : (s.results.rank r).tmp ≠ none := by simp [htmp]
  have hpoint := h.point_of_tmp hne
  have hs : Results.next net s.results (r, .advance) = some (attempt s.results r) :=
    hq.startTmp (h.results.running r) htmp
  refine ⟨(r, .advance (occupied s r)), continuing_advance ?_⟩
  simp only [advance, hpoint, hne, and_false, if_false, stepResults, hs, Option.map_some]
  rw [← hpoint]
  exact congrArg some (State.setPoint_self ⟨s.tasks, _, s.control⟩ r)

/-- From rest an attempt goes on to the next rest, with what the steps after its lock keep. -/
theorem RunOk.canReach_of_attempt (h : RunOk cfg net s) (hq : Quiet s.results)
    (htmp : (s.results.rank r).tmp ≠ none) {K : Results.State n → Prop}
    (hK : ∀ u r a u', Results.RunOk net u → Results.RunOk net u' → K u → Ongoing u r a →
      Results.next net u (r, a) = some u' → K u')
    (hu : ∃ u, Results.next net (attempt s.results r) (r, .advance) = some u ∧ K u) :
    (continuing cfg net sel occupied).CanReach s fun t =>
      (RunOk cfg net t ∧ SameWork s t ∧ K t.results) ∧ Quiet t.results := by
  obtain ⟨e, he⟩ := Option.ne_none_iff_exists'.mp htmp
  obtain ⟨u, hu, hk⟩ := hu
  obtain ⟨x, hx⟩ := h.exists_startTmp hq he
  have hstart := h.step hx
  have hbusy : Ongoing (attempt s.results r) r .advance := by
    rw [Ongoing, rank_attempt]
    rintro ⟨⟩
  obtain ⟨y, hy⟩ := hstart.next_of_ongoing hbusy hu
  exact .step hx (.step hy ((hstart.step hy).canReach_quiet sel occupied hK hk))

/-- From rest one rank can push the content of its tmp segment: its first attempt succeeds, or is
followed by a flush that makes room for the second. -/
theorem RunOk.canReach_delivered (h : RunOk cfg net s) (hq : Quiet s.results)
    (htmp : (s.results.rank r).tmp ≠ none) :
    (continuing cfg net sel occupied).CanReach s fun t =>
      (RunOk cfg net t ∧ SameWork s t ∧ Quiet t.results) ∧
      Results.OthersRest r (fun q => (s.results.rank q).tmp) t.results ∧
      (t.results.rank r).tmp = none := by
  have hfirst : ∃ u, Results.next net (attempt s.results r) (r, .advance) = some u ∧
      Results.Alone r (fun q => (s.results.rank q).tmp) u := by
    apply Results.exists_reading (hq.othersRest r).attempt
    · rw [rank_attempt]
      exact h.results.running r
    · rw [rank_attempt]
    · rw [rank_attempt]
    · exact hq.available h.system.results.locks r
  apply (h.canReach_of_attempt hq htmp (fun u q a u' hu _ hk ha hs =>
    hk.step hu.results ha (hu.results.stepped hs)) hfirst).trans
  rintro t ⟨⟨ht, hsame, halone⟩, hqt⟩
  by_cases hnone : (t.results.rank r).tmp = none
  · exact .here ⟨⟨ht, hsame, hqt⟩, halone.others, hnone⟩
  -- the segment is empty now
  have hcontent := halone.content.resolve_left hnone
  have hhead := halone.vacated hcontent (.inl (hqt.idle r))
  obtain ⟨e, he⟩ := Option.ne_none_iff_exists'.mp hnone
  have hat : Results.At t.results e (.tmp, r) := by
    rw [Results.At, Results.elements_tmp_of_carrying (by rw [hqt.idle]; rfl), he]
    exact List.mem_singleton.mpr rfl
  have hpc : (t.tasks r).pc ≠ .idle := by
    have hpoint := (ht.termination.control r).point
    rw [ht.point_of_tmp hnone] at hpoint
    obtain ⟨site, hsite⟩ := hpoint
    rw [hsite]
    rintro ⟨⟩
  have hfits := (ht.hasRoom hat).alloc _ (ht.sized hpc) (vacant_of_head_eq ht.system.results hhead)
  have hsecond : ∃ u, Results.next net (attempt t.results r) (r, .advance) = some u ∧
      Results.Delivering r (fun q => (s.results.rank q).tmp) u := by
    apply Results.exists_delivering halone.others.attempt
    · rw [rank_attempt]
      exact ht.results.running r
    · rw [rank_attempt]
    · rw [rank_attempt]
      exact he
    · exact hqt.available ht.system.results.locks r
    · exact hfits
  apply (ht.canReach_of_attempt hqt hnone (fun u q a u' hu _ hk ha hs => hk.step hu ha hs)
    hsecond).mono
  rintro w ⟨⟨hw, hsame', hdel⟩, hqw⟩
  refine ⟨⟨hw, ⟨?_, ?_⟩, hqw⟩, hdel.1, hdel.tmp_eq_none hqw⟩
  · rw [hsame'.1, hsame.1]
  · rw [hsame'.2, hsame.2]

/-- No rank is in a push or in a flush or has something to push, and nothing is on its way. -/
structure Calm (u : Results.State n) : Prop where
  quiet : Quiet u
  tmp : ∀ q, (u.rank q).tmp = none

theorem SameWork.trans {t u : State n} (h : SameWork s t) (h' : SameWork t u) : SameWork s u :=
  ⟨h'.1.trans h.1, h'.2.trans h.2⟩

/-- The results can come to rest while the tasks and the control stay as they are. -/
theorem RunOk.canReach_calm (h : RunOk cfg net s) :
    (continuing cfg net sel occupied).CanReach s fun t =>
      (RunOk cfg net t ∧ SameWork s t) ∧ Calm t.results := by
  have hquiet := h.canReach_quiet sel occupied (K := fun _ => True)
    (fun _ _ _ _ _ _ _ _ _ => trivial) trivial
  apply hquiet.trans
  rintro t ⟨⟨ht, hsame, -⟩, hq⟩
  have hall := Transition.System.CanReach.of_variant (S := continuing cfg net sel occupied)
    (I := fun u => RunOk cfg net u ∧ SameWork s u ∧ Quiet u.results)
    (q := fun u => ∀ q, (u.results.rank q).tmp = none)
    (fun u => (Results.pendingTmp u.results).card) ?_ ⟨ht, hsame, hq⟩
  · apply hall.mono
    rintro u ⟨⟨hu, hsame, hq⟩, htmp⟩
    exact ⟨⟨hu, hsame⟩, hq, htmp⟩
  · rintro u ⟨hu, hsame, hq⟩ hsome
    simp only [not_forall] at hsome
    obtain ⟨r, hr⟩ := hsome
    apply (hu.canReach_delivered hq hr).mono
    rintro w ⟨⟨hw, hsame', hqw⟩, hrest, hnone⟩
    exact ⟨⟨hw, hsame.trans hsame', hqw⟩, Results.card_pendingTmp_lt hrest hr hnone⟩

end Titus.System
