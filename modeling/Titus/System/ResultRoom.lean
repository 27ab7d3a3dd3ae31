import Titus.Results.LocalAlloc
import Titus.System.Detection
import Titus.Tasks.TmpSegment

/-! The space for results: every element that `push_tmp_results` can build is accepted on an empty
result segment, in whatever session, so that its loop ends there. -/

namespace Titus.System

open Results (BufferElt BufferedSegment fits available selectEltsToPush Allocating)

variable {n : ℕ} {cfg : Config n} {net : Results.Network n} {s s' : State n} {r : Fin n}

/-! ### Sizes -/

/-- A result segment as `set_problem` has made it. -/
structure Sized (cfg : Config n) (m : BufferedSegment n) : Prop where
  segmentSize : m.segmentSize = cfg.sharedResultSegmentSize
  bufferTail : m.bufferTail = sizeofMetadataResult

/-- A segment without elements. -/
structure Vacant (m : BufferedSegment n) : Prop where
  head : m.bufferHead = m.bufferTail
  count : m.bufferEltCount = 0

/-- The three tests that an element has to pass. -/
structure HasRoom (cfg : Config n) (e : BufferElt n) : Prop where
  /-- `is_valid`. -/
  valid : e.isValid cfg.sharedResultSegmentSize
  /-- The test in `try_remote_buffer_alloc`. -/
  alloc : ∀ m, Sized cfg m → Vacant m → fits m e
  /-- `select_elts_to_push`, on any elements of which it is the first. -/
  select : ∀ m, Sized cfg m → Vacant m → ∀ l, ∃ selected,
    selectEltsToPush (available m) (maxBufferElts - m.bufferEltCount) 0 0 (e :: l) =
      true :: selected

/-- The result segment has room for the results of a whole tmp segment twice over. -/
theorem sharedResultSegmentSize_eq (cfg : Config n) :
    cfg.sharedResultSegmentSize =
      2 * (cfg.sharedTmpResultSegmentSize - sizeofMetadataTmp) + 2 * sizeofMetadataResult := by
  unfold Config.sharedResultSegmentSize Config.sharedTmpResultSegmentSize
  omega

theorem hasRoom_of_dataSize_le {e : BufferElt n} (hnb : e.nbResult ≠ 0) (hpos : 0 < e.dataSize)
    (hle : e.dataSize ≤ cfg.sharedTmpResultSegmentSize - sizeofMetadataTmp) : HasRoom cfg e := by
  have hsize := sharedResultSegmentSize_eq cfg
  have hentry : e.bufferEntrySize = e.dataSize + sizeofBufferElt := rfl
  rw [sizeofMetadataResult_eq] at hsize
  rw [sizeofBufferElt_eq] at hentry
  have havail : ∀ m, Sized cfg m → Vacant m →
      available m = cfg.sharedResultSegmentSize - sizeofMetadataResult := by
    intro m hm hv
    simp only [available, hm.segmentSize, hv.head, hm.bufferTail, sizeofMetadataResult_eq]
    rw [if_pos (by omega)]
  constructor
  · simp only [BufferElt.isValid, decide_eq_true_eq]
    omega
  · intro m hm hv
    simp only [fits, decide_eq_true_eq, hm.segmentSize, hv.head, hm.bufferTail, hv.count,
      maxBufferElts, sizeofMetadataResult_eq]
    omega
  · intro m hm hv l
    refine ⟨selectEltsToPush (available m) (maxBufferElts - m.bufferEltCount)
      (0 + e.bufferEntrySize) (0 + 1) l, ?_⟩
    rw [selectEltsToPush, if_pos]
    rw [havail m hm hv, hv.count, sizeofMetadataResult_eq, maxBufferElts]
    omega

/-- Results that the tmp segment has room for in session `k`. -/
theorem hasRoom_of_nbResult_le {k : ℕ} (hacc : cfg.Accepts k) {e : BufferElt n}
    (hnb : e.nbResult ≠ 0) (hsize : e.dataSize = cfg.resultSize k * e.nbResult)
    (hle : e.nbResult ≤ Tasks.resultRoom cfg k) : HasRoom cfg e := by
  apply hasRoom_of_dataSize_le hnb
  · rw [hsize]
    exact Nat.mul_pos hacc.resultSize_pos (Nat.pos_of_ne_zero hnb)
  · calc e.dataSize = e.nbResult * cfg.resultSize k := by rw [hsize, Nat.mul_comm]
      _ ≤ Tasks.resultRoom cfg k * cfg.resultSize k := Nat.mul_le_mul_right _ hle
      _ ≤ _ := Tasks.resultRoom_mul_le cfg k

/-! ### The sizes in a run -/

section Runs

/-- Only the call of `push_tmp_results` pushes something. -/
theorem ResultsCall.action_ne {a : Results.Action n} {p p' : Point} (h : ResultsCall s r p a p') :
    ∀ k id nb size owner data, a ≠ .push k id nb size owner data := by
  rintro k id nb size owner data rfl
  cases h

theorem tmpRoom_of_reachable (hr : (system cfg net).Reachable s) (q : Fin n) :
    Tasks.TmpRoom cfg (s.tasks q) :=
  (Tasks.tmpRoom_invariant cfg).holds ((projects_tasks cfg net).reachable hr) q

/-- What a rank can build from the tmp segment in its session has room. -/
theorem hasRoom_of_tmp (hr : (system cfg net).Reachable s) (hpc : (s.tasks r).pc ≠ .idle)
    {e : BufferElt n} (hnb : e.nbResult ≠ 0)
    (hsize : e.dataSize = cfg.resultSize (s.tasks r).current * e.nbResult)
    (hle : e.nbResult ≤ (s.tasks r).tmp.nbResultMax + 1) : HasRoom cfg e := by
  have hrank := (tasksOk_of_reachable hr).protocol.rank r
  have hacc := hrank.accepts hpc
  have hsess := hrank.session_eq hpc
  have hmax := (tmpRoom_of_reachable hr r).max (by omega)
  have hone := Tasks.one_le_resultRoom hacc
  exact hasRoom_of_nbResult_le hacc hnb hsize (by omega)

/-- The segments of ranks that have called `set_problem` have its size, and all elements that were
ever pushed have room on them. -/
structure RoomOk (cfg : Config n) (s : State n) : Prop where
  sized : ∀ q, 0 < (s.tasks q).session → Sized cfg (s.results.segment q)
  pushed : ∀ q, ∀ e ∈ (s.results.rank q).pushed, HasRoom cfg e

theorem RoomOk.of_eq (h : RoomOk cfg s)
    (hsess : ∀ q, (s'.tasks q).session = (s.tasks q).session)
    (hsize : ∀ q, (s'.results.segment q).segmentSize = (s.results.segment q).segmentSize ∧
      (s'.results.segment q).bufferTail = (s.results.segment q).bufferTail)
    (hpushed : ∀ q, (s'.results.rank q).pushed = (s.results.rank q).pushed) : RoomOk cfg s' := by
  constructor
  · intro q hq
    rw [hsess] at hq
    have hold := h.sized q hq
    exact ⟨(hsize q).1.trans hold.segmentSize, (hsize q).2.trans hold.bufferTail⟩
  · intro q
    rw [hpushed]
    exact h.pushed q

/-- A step on the tasks and the control leaves the results as they are. -/
theorem RoomOk.of_results_eq (h : RoomOk cfg s) (hresults : s'.results = s.results)
    (hsess : ∀ q, (s'.tasks q).session = (s.tasks q).session) : RoomOk cfg s' := by
  apply h.of_eq hsess
  · intro q
    rw [hresults]
    exact ⟨rfl, rfl⟩
  · intro q
    rw [hresults]

/-- `push_tmp_results` adds an element with room. -/
theorem RoomOk.push (h : RoomOk cfg s) (hr : (system cfg net).Reachable s) {owner : Fin n}
    {tasks : Tasks.State n} {results : Results.State n} {control : Fin n → Control}
    (hpoint : (s.control r).point = .testingTmp) (hnb : (s.tasks r).tmp.nbResult ≠ 0)
    (hs : Results.next net s.results (r, .push (s.tasks r).current
      ((s.tasks r).tmp.lastResultId - (s.tasks r).tmp.nbResult) (s.tasks r).tmp.nbResult
      (s.tasks r).tmp.resultSize owner (tmpData (s.tasks r).tmp)) = some results)
    (ht : Tasks.next cfg s.tasks (r, .pushed) = some tasks) :
    RoomOk cfg ⟨tasks, results, control⟩ := by
  have hok := ((system_invariant cfg net).holds hr).results
  have hstep := hok.stepped hs
  constructor
  · intro q hq
    have hsess := (Tasks.stepped_of_next ht).session q
    rw [if_neg (by rintro ⟨⟨⟩, -⟩)] at hsess
    have hold := h.sized q (by simp only at hq; omega)
    exact ⟨(hstep.bounds q).1.trans hold.segmentSize, (hstep.bounds q).2.trans hold.bufferTail⟩
  · intro q e he
    by_cases hq : q = r
    · subst hq
      simp only [Results.pushed_of_push hs, List.mem_cons] at he
      rcases he with rfl | he
      · have hpc := (((termination_invariant cfg net).holds hr).control q).point
        rw [hpoint] at hpc
        obtain ⟨site, hpc⟩ := hpc
        have htmp := ((tasksOk_of_reachable hr).protocol.rank q).tmpOk hnb
        apply hasRoom_of_tmp hr (by rw [hpc]; rintro ⟨⟩) hnb
        · simp only [Results.newElt, htmp.resultSize]
        · exact (tmpRoom_of_reachable hr q).count.le
      · exact h.pushed q e he
    · simp only [hstep.rank_of_ne hq] at he
      exact h.pushed q e he

theorem RoomOk.stepped (h : RoomOk cfg s) (hr : (system cfg net).Reachable s)
    (hs : Stepped cfg net s r s') : RoomOk cfg s' := by
  have hok := ((system_invariant cfg net).holds hr).results
  have hupdate : ∀ (m : BufferedSegment n) (t : Results.RankResults n) (q : Fin n),
      t.pushed = (s.results.rank r).pushed →
      (((s.results.setSegment r m).setRank r t).rank q).pushed = (s.results.rank q).pushed := by
    intro m t q hpushed
    by_cases hq : q = r
    · subst hq
      rw [Results.State.rank_setRank, Function.update_self]
      exact hpushed
    · rw [Results.State.rank_setRank, Function.update_of_ne hq]
      rfl
  cases hs with
  | move | reach | pass => exact h.of_results_eq rfl fun _ => rfl
  | report => exact h.of_results_eq rfl fun _ => rfl
  | forward c p hf => exact h.of_results_eq rfl fun _ => rfl
  | tasks a tasks hcall ht =>
    apply h.of_results_eq
    · rfl
    · intro q
      have hsess := (Tasks.stepped_of_next ht).session q
      rw [if_neg fun hc => hcall.action_ne.1 hc.1] at hsess
      exact hsess
  | results a p results hcall ha =>
    have hstep := hok.stepped ha
    apply h.of_eq
    · exact fun _ => rfl
    · exact hstep.bounds
    · intro q
      by_cases hq : q = r
      · subst hq
        exact hstep.pushed hok hcall.action_ne
      · simp only [State.setPoint, State.results_setControl, hstep.rank_of_ne hq]
  | push owner tasks results hpoint hnb howner ha ht => exact h.push hr hpoint hnb ha ht
  | finish tasks hpoint ht =>
    apply h.of_eq
    · intro q
      have hsess := (Tasks.stepped_of_next ht).session q
      rw [if_neg (by rintro ⟨⟨⟩, -⟩)] at hsess
      exact hsess
    · intro q
      by_cases hq : q = r
      · subst hq
        simp only [State.results_setControl, Results.State.segment_setRank,
          Results.State.segment_setSegment, Function.update_self]
        exact ⟨rfl, rfl⟩
      · simp only [State.results_setControl, Results.State.segment_setRank,
          Results.State.segment_setSegment, Function.update_of_ne hq]
        exact ⟨trivial, trivial⟩
    · intro q
      exact hupdate _ _ q rfl
  | setProblem tasks hpoint ht =>
    constructor
    · intro q hpos
      by_cases hq : q = r
      · subst hq
        simp only [State.results_setControl, Results.State.segment_setRank,
          Results.State.segment_setSegment, Function.update_self]
        exact ⟨rfl, rfl⟩
      · have hsess := (Tasks.stepped_of_next ht).session q
        rw [if_neg fun hc => hq hc.2] at hsess
        simp only [State.results_setControl, Results.State.segment_setRank,
          Results.State.segment_setSegment, Function.update_of_ne hq]
        simp only [State.tasks_setControl] at hpos
        exact h.sized q (by omega)
    · intro q
      rw [State.results_setControl, hupdate _ (constructResults cfg _ r (s.results.rank r)) q rfl]
      exact h.pushed q

theorem room_invariant (cfg : Config n) (net : Results.Network n) :
    (system cfg net).Invariant (RoomOk cfg) := by
  constructor
  · rintro s ⟨htasks, hresults, -⟩
    constructor
    · intro q hq
      rw [(htasks q).session] at hq
      cases hq
    · intro q e he
      rw [(hresults.2 q).pushed] at he
      cases he
  · rintro s ⟨r, a⟩ s' hr h hs
    exact h.stepped hr (stepped_of_next hs)

/-- A segment whose head is at its tail has no elements. -/
theorem vacant_of_head_eq (h : Results.ResultsOk net s.results)
    (hhead : (s.results.segment r).bufferHead = (s.results.segment r).bufferTail) :
    Vacant (s.results.segment r) := by
  have hseg := h.segment r
  have hnil : (s.results.segment r).reserved = [] := by
    by_contra hne
    obtain ⟨w, hw⟩ := List.exists_mem_of_ne_nil _ hne
    have hrange := hseg.tiles.mem_range hw
    have hpos := Results.bufferEntrySize_pos w.2
    omega
  have hcount := hseg.count
  rw [hnil, List.length_nil] at hcount
  exact ⟨hhead, by omega⟩

end Runs

/-! ### The loop of `push_tmp_results` -/

section Loop

/-- A rank that sends the content of its tmp segment is in `push_tmp_results`. -/
theorem point_of_push (h : SystemOk cfg net s)
    (hpush : (s.results.rank r).pc.push = some ⟨.tmp, r⟩) : (s.control r).point = .pushing := by
  have htmp := ((h.results.rank r).push _ hpush).1
  have hsend := (h.send r).sending
  have hrunning := h.running r
  have hidle : (s.results.rank r).pc ≠ .idle := by
    intro hc
    rw [hc] at hpush
    cases hpush
  have hnone : (s.results.rank r).tmp ≠ none := Option.isSome_iff_ne_none.mp htmp
  cases hpoint : (s.control r).point <;> simp only [SendingAt, hpoint] at hsend
  case pushing => rfl
  case aborted a => exact absurd hpoint (hrunning a)
  case firstFlush | secondFlush | bufferFlush => exact absurd hsend hnone
  all_goals exact absurd hsend.1 hidle

/-- The steps that rank `r` takes itself while it is in a function of the library. -/
def ownAdvance (r : Fin n) : Fin n × Action n → Bool
  | (q, .advance _) => q = r
  | _ => false

/-- The own steps of the rank in an allocation. -/
theorem advance_allocating {k : ℕ} (h : SystemOk cfg net s)
    (halloc : Allocating r s.results (k + 1)) (b : Bool) :
    ∃ s', next cfg net s (r, .advance b) = some s' ∧ Allocating r s'.results k := by
  have hpoint := point_of_push h halloc.push
  have hidle : (s.results.rank r).pc ≠ .idle := by
    intro hc
    have hpush := halloc.push
    rw [hc] at hpush
    cases hpush
  obtain ⟨results, hnext, halloc'⟩ := halloc.advance h.results (h.account r).failed
  refine ⟨State.setPoint ⟨s.tasks, results, s.control⟩ r .pushing, ?_, halloc'⟩
  simp only [next, advance, hpoint, stepResults, hnext, hidle, false_and, if_false, Option.map_some]

/-- A change of the segment and the state of another rank is no change for this one. -/
theorem allocating_update {k : ℕ} {q : Fin n} (h : Allocating r s.results k) (hq : r ≠ q)
    (m : BufferedSegment n) (t : Results.RankResults n) :
    Allocating r ((s.results.setSegment q m).setRank q t) k := by
  apply h.congr
  · rw [Results.State.rank_setRank, Function.update_of_ne hq]
    rfl
  · rw [Results.State.rank_setRank, Function.update_of_ne hq]
    rfl
  · intro _ e
    rw [Results.State.segment_setRank, Results.State.segment_setSegment, Function.update_of_ne hq]

/-- The steps of the others leave it where it is, -/
theorem Stepped.allocating_of_ne {k : ℕ} {q : Fin n} (h : SystemOk cfg net s)
    (halloc : Allocating r s.results k) (hs : Stepped cfg net s q s') (hq : r ≠ q) :
    Allocating r s'.results k := by
  cases hs with
  | results a p results hcall ha =>
    exact halloc.other h.results (h.results.stepped ha) (.inl hq.symm)
  | push owner tasks results hpoint hnb howner ha ht =>
    exact halloc.other h.results (h.results.stepped ha) (.inl hq.symm)
  | finish | setProblem => exact allocating_update halloc hq _ _
  | _ => exact halloc

/-- and so do the arrivals, and what the rank is not called for meanwhile. -/
theorem allocating_of_not_advance {k : ℕ} {q : Fin n} {a : Action n} (h : SystemOk cfg net s)
    (halloc : Allocating r s.results k) (hs : next cfg net s (q, a) = some s')
    (ha : ownAdvance r (q, a) = false) : Allocating r s'.results k := by
  by_cases hq : r = q
  · subst hq
    cases a with
    | advance b => simp [ownAdvance] at ha
    | setProblem =>
      simp only [next] at hs
      split at hs
      · rename_i hpoint
        obtain ⟨tasks, -, rfl⟩ := Option.map_eq_some_iff.mp hs
        cases k with
        | zero =>
          simp only [Allocating, State.results_setControl, Results.State.rank_setRank,
            Function.update_self]
          exact halloc
        | succ k =>
          rw [point_of_push h halloc.push] at hpoint
          cases hpoint
      · cases hs
    | select v =>
      simp only [next] at hs
      split at hs
      · split at hs
        · cases hs
          exact halloc
        · obtain ⟨tasks, -, rfl⟩ := Option.map_eq_some_iff.mp hs
          exact halloc
      · cases hs
    | land m w =>
      obtain ⟨results, hnext, rfl⟩ := Option.map_eq_some_iff.mp hs
      exact halloc.other h.results (h.results.stepped hnext) (.inr rfl)
    | deliver m =>
      obtain ⟨results, hnext, rfl⟩ := Option.map_eq_some_iff.mp hs
      exact halloc.other h.results (h.results.stepped hnext) (.inr rfl)
  · exact (stepped_of_next hs).allocating_of_ne h halloc hq

/-- In every run an allocation of `k` steps has come to its end after as many steps of the rank. -/
theorem allocating_run {k : ℕ} (hr : (system cfg net).Reachable s)
    (halloc : Allocating r s.results k) (as : List (Fin n × Action n))
    (hrun : (system cfg net).run s as = some s') (hle : as.countP (ownAdvance r) ≤ k) :
    Allocating r s'.results (k - as.countP (ownAdvance r)) := by
  induction as generalizing s k with
  | nil =>
    cases hrun
    exact halloc
  | cons x as ih =>
    obtain ⟨t, ht, hrest⟩ := Option.bind_eq_some_iff.mp hrun
    have h := (system_invariant cfg net).holds hr
    obtain ⟨q, a⟩ := x
    rw [List.countP_cons] at hle ⊢
    cases ha : ownAdvance r (q, a) with
    | false =>
      rw [ha] at hle
      simp only [Bool.false_eq_true, if_false, Nat.add_zero] at hle ⊢
      exact ih (hr.step ht) (allocating_of_not_advance h halloc ht ha) hrest hle
    | true =>
      rw [ha, if_pos rfl] at hle
      rw [if_pos rfl]
      obtain ⟨k, rfl⟩ := Nat.exists_eq_add_of_le' (show 1 ≤ k by omega)
      cases a with
      | advance b =>
        obtain rfl : q = r := by simpa [ownAdvance] using ha
        obtain ⟨t', ht', halloc'⟩ := advance_allocating h halloc b
        have heq : t' = t := Option.some.inj (ht'.symm.trans ht)
        subst heq
        have := ih (hr.step ht) halloc' hrest (by omega)
        rwa [Nat.add_sub_add_right]
      | setProblem | select | land | deliver => cases ha

/-- What the sizes are for. -/
structure ResultsFit (cfg : Config n) (net : Results.Network n) (s : State n) : Prop where
  sized : ∀ r, 0 < (s.tasks r).session → Sized cfg (s.results.segment r)
  /-- Every element that `push_tmp_results` can build in a session has room, -/
  built : ∀ r, (s.tasks r).pc ≠ .idle → ∀ first nbResult owner data, 1 ≤ nbResult →
    nbResult ≤ (s.tasks r).tmp.nbResultMax →
    HasRoom cfg (Results.newElt (s.results.rank r) r (s.tasks r).current first nbResult
      (cfg.resultSize (s.tasks r).current) owner data)
  /-- and so has every element that it has built. -/
  pushed : ∀ r, ∀ e ∈ (s.results.rank r).pushed, HasRoom cfg e
  /-- An attempt that finds the segment empty and unlocked is the last one: after five more steps
  of the rank, which are possible, `push_tmp_results` is done, whatever the others do. -/
  ends : ∀ r b, (s.results.rank r).pc = .reserving ⟨.tmp, r⟩ →
    (s.results.segment r).state = .segmentAvailable →
    (s.results.segment r).bufferHead = (s.results.segment r).bufferTail →
    ∃ s', next cfg net s (r, .advance b) = some s' ∧
      ∀ as t, (system cfg net).run s' as = some t → as.countP (ownAdvance r) ≤ 5 →
        Allocating r t.results (5 - as.countP (ownAdvance r)) ∧
          (as.countP (ownAdvance r) < 5 → ∀ b', (next cfg net t (r, .advance b')).isSome)

/-- In every run the result segments have room for what is sent. -/
theorem results_fit (hr : (system cfg net).Reachable s) : ResultsFit cfg net s := by
  have h := (system_invariant cfg net).holds hr
  have hroom := (room_invariant cfg net).holds hr
  constructor
  · exact hroom.sized
  · intro q hpc first nbResult owner data hpos hle
    apply hasRoom_of_tmp hr hpc
    · exact Nat.ne_of_gt hpos
    · rfl
    · exact Nat.le_succ_of_le hle
  · exact hroom.pushed
  · intro q b hpc hst hhead
    have hpoint := point_of_push h (r := q) (by rw [hpc]; rfl)
    have hpush := (h.results.rank q).push ⟨.tmp, q⟩ (by rw [hpc]; rfl)
    obtain ⟨e, he⟩ := Option.isSome_iff_exists.mp hpush.1
    have hpushed : Results.Pushed s.results e := by
      apply h.conserved.pushed_of_at (p := (.tmp, q))
      rw [Results.At, Results.elements_tmp_of_carrying (by rw [hpc]; rfl), he]
      exact List.mem_singleton_self e
    obtain ⟨q', he'⟩ := hpushed
    have hsess : 0 < (s.tasks q).session :=
      Nat.lt_of_le_of_lt (Nat.zero_le _) (h.ledger.session q' e he' q)
    have hfits := (hroom.pushed q' e he').alloc _ (hroom.sized q hsess)
      (vacant_of_head_eq h.results hhead)
    obtain ⟨results, hnext, halloc⟩ : ∃ t, Results.next net s.results (q, .advance) = some t ∧
        Allocating q t 5 :=
      Results.allocating_of_unlocked (h.account q).failed hpc he hst hfits
    have hs : next cfg net s (q, .advance b) =
        some (State.setPoint ⟨s.tasks, results, s.control⟩ q .pushing) := by
      simp only [next, advance, hpoint, hpc, stepResults, hnext, reduceCtorEq, false_and, if_false,
        Option.map_some]
    refine ⟨_, hs, fun as t hrun hle => ?_⟩
    have hreach := hr.step (show (system cfg net).next s (q, Action.advance b) = _ from hs)
    have hend := allocating_run hreach halloc as hrun hle
    refine ⟨hend, fun hlt b' => ?_⟩
    obtain ⟨k, hk⟩ := Nat.exists_eq_add_of_lt hlt
    rw [show 5 - as.countP (ownAdvance q) = k + 1 by omega] at hend
    obtain ⟨t', ht', -⟩ := advance_allocating ((system_invariant cfg net).holds (hreach.run hrun))
      hend b'
    rw [ht']
    rfl

end Loop

/-- Rank 1 steals a task from rank 0, and tries to put the result on its own segment. -/
def stealAndPush : List (Fin 2 × Action 2) :=
  [(0, .setProblem), (1, .setProblem)] ++ advances 1 0 ++ advances 1 1 ++ advances 12 0 ++
    advances 8 1 ++ [(1, .select 0)] ++ advances 17 1

theorem results_fit_before_push :
    ∃ s, (system Tasks.twoRanks (Results.direct 2)).Reachable s ∧
      (s.results.rank 1).pc = .reserving ⟨.tmp, 1⟩ ∧
      (s.results.segment 1).state = .segmentAvailable ∧
      (s.results.segment 1).bufferHead = (s.results.segment 1).bufferTail ∧
      ResultsFit Tasks.twoRanks (Results.direct 2) s := by
  obtain ⟨s, hr, hpc, hst, hhead⟩ := Transition.System.exists_reachable started_init stealAndPush
    (fun s => (s.results.rank 1).pc = .reserving ⟨.tmp, 1⟩ ∧
      (s.results.segment 1).state = .segmentAvailable ∧
      (s.results.segment 1).bufferHead = (s.results.segment 1).bufferTail) (by decide +kernel)
  exact ⟨s, hr, hpc, hst, hhead, results_fit hr⟩

end Titus.System
