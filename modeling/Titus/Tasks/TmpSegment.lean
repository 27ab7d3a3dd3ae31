import Titus.Tasks.Alignment

/-! The space in the tmp segment: where results and their header are written, and when the assertion
on `nb_result_max` at the head of the work loop holds. -/

namespace Titus.Tasks

variable {n : ℕ} {cfg : Config n} {r : Fin n}

/-! ### The invariant -/

/-- The results for which a tmp segment has room in session `k`. -/
def resultRoom (cfg : Config n) (k : ℕ) : ℕ :=
  (cfg.sharedTmpResultSegmentSize - sizeofMetadataTmp) / cfg.resultSize k

/-- The points of the work loop. -/
def WorkPc.inLoop : WorkPc n → Bool
  | .loopHead | .loopBody | .flushing | .solving | .solved | .switching | .detecting |
    .refilling .selfTheft | .refilled .selfTheft _ | .sharing | .shared | .aborted _ => true
  | _ => false

/-- Before a task is executed there is room for one more result. -/
def CountOk (t : RankTasks n) : Prop :=
  match t.pc with
  | .loopBody | .flushing | .solving => t.tmp.nbResult < t.tmp.nbResultMax ∨ t.tmp.nbResult = 0
  | _ => t.tmp.nbResult ≤ t.tmp.nbResultMax + 1

/-- What holds of the space in the tmp segment. -/
structure TmpRoom (cfg : Config n) (t : RankTasks n) : Prop where
  max : 0 < t.session → t.tmp.nbResultMax = resultRoom cfg t.current - 1
  count : CountOk t
  placed : t.pc.inLoop ∨ t.tmp.nbResult ≠ 0 →
    t.tmp.ptrNextResultToStore + (t.tmp.nbResult + 1) * t.tmp.resultSize =
      cfg.sharedTmpResultSegmentSize

section Steps

variable {t t' : RankTasks n}

theorem CountOk.le (h : CountOk t) : t.tmp.nbResult ≤ t.tmp.nbResultMax + 1 := by
  unfold CountOk at h
  split at h <;> omega

/-- A step that leaves the tmp segment as it is. -/
theorem TmpRoom.of_tmp (h : TmpRoom cfg t) (htmp : t'.tmp = t.tmp) (hsess : t'.session = t.session)
    (hcount : CountOk t') (hin : t'.pc.inLoop → t.pc.inLoop ∨ t.tmp.nbResult ≠ 0) :
    TmpRoom cfg t' := by
  constructor
  · rw [htmp, hsess, RankTasks.current, hsess]
    exact h.max
  · exact hcount
  · rw [htmp]
    intro hp
    exact h.placed (hp.elim hin .inr)

/-- The tmp segment has just been prepared for the tasks of the dequeue. -/
theorem TmpRoom.initTmp (h : TmpRoom cfg t) (dq : Dequeue n) (pc : WorkPc n) :
    TmpRoom cfg { t with tmp := Tasks.initTmp cfg dq t.tmp, pc } := by
  refine ⟨h.max, ?_, fun _ => ?_⟩
  · unfold CountOk
    simp only [Tasks.initTmp]
    split
    · exact .inr trivial
    · exact .inr trivial
    · exact .inr trivial
    · exact Nat.zero_le _
  · simp only [Tasks.initTmp]
    push_cast
    ring

theorem TmpRoom.storeResult (h : TmpRoom cfg t) (hpc : t.pc = .solving) :
    TmpRoom cfg { doNextTask cfg t with pc := .solved } := by
  have hcount := h.count
  simp only [CountOk, hpc] at hcount
  refine ⟨h.max, ?_, fun _ => ?_⟩
  · simp only [CountOk, doNextTask, Tasks.storeResult]
    omega
  · have hplaced := h.placed (.inl (by rw [hpc]; rfl))
    simp only [doNextTask, Tasks.storeResult]
    push_cast
    rw [← hplaced]
    ring

theorem Moved.inLoop {pc : WorkPc n} (hm : Moved r t pc) (hin : pc.inLoop) : t.pc.inLoop := by
  cases hm with
  | headBody hpc | headAborted hpc | bodyFlushing hpc | bodySolving hpc | flushing hpc
  | solved hpc | switchingHead hpc | switchingSharing hpc | switchingDetecting _ hpc
  | detectingRefilling hpc | detectingHead hpc =>
    rw [hpc]
    rfl
  | _ => cases hin

/-- Only the steps to the body of the loop need room for one more result. -/
theorem TmpRoom.move (h : TmpRoom cfg t) {pc : WorkPc n} (hm : Moved r t pc) :
    TmpRoom cfg { t with pc } := by
  have hcount := h.count
  refine h.of_tmp rfl rfl ?_ fun hin => .inl (hm.inLoop hin)
  cases hm with
  | headBody hpc hne hmax => exact .inl hmax
  | bodyFlushing hpc | bodySolving hpc | flushing hpc =>
    simp only [CountOk, hpc] at hcount
    exact hcount
  | _ => exact hcount.le

theorem TmpRoom.localNext (hok : RankOk cfg r t) (h : TmpRoom cfg t) {b : Bool}
    (hs : localNext cfg r t b = some t') : TmpRoom cfg t' := by
  have hle := h.count.le
  cases localStepped_of_localNext hs with
  | move pc hm => exact h.move hm
  | failed a hf => exact absurd hf (hok.pc.not_fails a)
  | preparing hpc | returningFull hpc => exact h.initTmp t.dq _
  | solving hpc => exact h.storeResult hpc
  | refilling site hpc =>
    cases site with
    | start => exact h.of_tmp rfl rfl hle (by rintro ⟨⟩)
    | selfTheft => exact h.of_tmp rfl rfl hle fun _ => .inl (by rw [hpc]; rfl)
  | refilled site comp state hpc =>
    cases site with
    | start => exact h.of_tmp rfl rfl hle (by rintro ⟨⟩)
    | selfTheft => exact h.of_tmp rfl rfl hle fun _ => .inl (by rw [hpc]; rfl)
  | lockingSelf hpc | sharing hpc | shared hpc | sharedFailed hpc =>
    exact h.of_tmp rfl rfl hle fun _ => .inl (by rw [hpc]; rfl)
  | opening | unlockingWait => exact h.of_tmp rfl rfl hle (by rintro ⟨⟩)
  | unlockingSelf old pc hpc hnext =>
    obtain rfl := hok.pc.pc_eq_working hpc hnext
    exact h.of_tmp rfl rfl hle (by rintro ⟨⟩)

end Steps

/-! ### All ranks -/

section Ranks

variable {s s' : State n}

/-- A thief changes nothing in the tmp segment of its victim. -/
theorem TmpRoom.withState {t : RankTasks n} (h : TmpRoom cfg t) (state : TaskLock n) :
    TmpRoom cfg (Tasks.withState t state) := ⟨h.max, h.count, h.placed⟩

theorem TmpRoom.setProblem (cfg : Config n) (r : Fin n) (t : RankTasks n) :
    TmpRoom cfg (Tasks.setProblem cfg r t) :=
  ⟨fun _ => rfl, Nat.zero_le _, by simp [Tasks.setProblem, WorkPc.inLoop]⟩

theorem TmpRoom.stepped (hok : RankOk cfg r (s r)) (h : TmpRoom cfg (s r)) {a : Action n}
    (hs : Stepped cfg s r a s') : TmpRoom cfg (s' r) := by
  have hle := h.count.le
  cases hs with
  | setProblem =>
    rw [Function.update_self]
    exact .setProblem cfg r (s r)
  | own b t ht =>
    rw [Function.update_self]
    exact h.localNext hok ht
  | pushed site hpc =>
    rw [Function.update_self]
    refine ⟨h.max, ?_, ?_⟩
    · simp only [CountOk, hpc, MetadataTmp.reset, Nat.zero_le]
    · simp [hpc, WorkPc.inLoop, MetadataTmp.reset]
  | unlock b v state hpc =>
    rw [Function.update_self]
    by_cases hv : r = v
    · subst hv
      rw [Function.update_self]
      exact (h.withState state).of_tmp rfl rfl hle nofun
    · rw [Function.update_of_ne hv]
      exact h.of_tmp rfl rfl hle nofun
  | readFirst b v len pc hpc hrest =>
    rw [Function.update_self]
    rcases hrest with ⟨rfl, -⟩ | ⟨rfl, -⟩ <;> exact h.of_tmp rfl rfl hle nofun
  | _ =>
    rw [Function.update_self]
    exact h.of_tmp rfl rfl hle nofun

theorem tmpRoom_invariant (cfg : Config n) :
    (system cfg).Invariant fun s => ∀ r, TmpRoom cfg (s r) := by
  apply (protocol_invariant cfg).of_step
  · intro s hs r
    have hr := hs r
    constructor
    · rw [hr.session]
      exact fun h => absurd h (lt_irrefl _)
    · simp only [CountOk, hr.pc, hr.nbResult, Nat.zero_le]
    · simp [hr.pc, hr.nbResult, WorkPc.inLoop]
  · rintro s ⟨r, a⟩ s' hok h hs q
    have hstep := stepped_of_next hs
    by_cases hq : q = r
    · subst hq
      exact (h q).stepped (hok.rank q) hstep
    · obtain ⟨state, hstate⟩ := hstep.other hq
      rw [hstate]
      exact (h q).withState state

/-- `set_problem` accepts no result that is too large for the tmp segment. -/
theorem one_le_resultRoom {k : ℕ} (h : cfg.Accepts k) : 1 ≤ resultRoom cfg k := by
  have hroom := h.tmpSegment
  apply (Nat.one_le_div_iff h.resultSize_pos).mpr
  omega

/-- The results that a tmp segment has room for are above the metadata. -/
theorem resultRoom_mul_le (cfg : Config n) (k : ℕ) :
    resultRoom cfg k * cfg.resultSize k ≤ cfg.sharedTmpResultSegmentSize - sizeofMetadataTmp :=
  Nat.div_mul_le_self _ _

end Ranks

/-! ### The assertion at the head of the work loop -/

/-- A tmp segment with room for one result gets no second one: the rank has no task left after the
one that it executes, and takes none from its segment after that. -/
def SecondFits (s : State n) (x : Fin n × Action n) : Prop :=
  (s x.1).tmp.nbResultMax = 0 →
    ((s x.1).pc = .solving → (s x.1).dq.nbTask = 1) ∧ (s x.1).pc ≠ .refilling .selfTheft

instance (s : State n) (x : Fin n × Action n) : Decidable (SecondFits s x) :=
  inferInstanceAs (Decidable (_ → _ ∧ _))

/-- The results in the tmp segment, while the assertion holds. -/
def WithinMax (t : RankTasks n) : Prop :=
  match t.pc with
  | .loopHead | .solved | .switching | .detecting | .sharing | .shared |
    .refilling .selfTheft =>
    t.tmp.nbResult ≤ t.tmp.nbResultMax ∨ t.dq.nbTask = 0 ∧ t.tmp.nbResult = 1
  | .refilled .selfTheft _ => t.tmp.nbResult ≤ t.tmp.nbResultMax
  | .aborted _ => False
  | _ => True

section Within

variable {t t' : RankTasks n}

theorem moveToSegment_of_empty {dq : Dequeue n} (h : dq.nbTask = 0) (cfg : Config n) (r : Fin n)
    (m : MetadataTask n) : (moveTaskFromMyDequeueToMySegment cfg r dq m).1.nbTask = 0 := by
  simp only [moveTaskFromMyDequeueToMySegment]
  rw [if_pos (by rw [h]; decide)]
  exact h

/-- The assertion does not fail at the head of the loop, and holds there again after a step. -/
theorem WithinMax.move (hok : RankOk cfg r t) (h : WithinMax t) {pc : WorkPc n}
    (hm : Moved r t pc) : WithinMax { t with pc } := by
  have hpcOk := hok.pc
  cases hm with
  | headAborted hpc hne hmax =>
    simp only [WithinMax, hpc] at h
    simp only [PcOk, hpc] at hpcOk
    rcases h with hle | hempty
    · exact absurd hle hmax
    · exact absurd ((tail_eq_head_iff hpcOk.1.dequeue.head_le).mpr hempty.1) hne
  | solved hpc | switchingHead hpc | switchingSharing hpc | switchingDetecting _ hpc
  | detectingRefilling hpc | detectingHead hpc =>
    simp only [WithinMax, hpc] at h
    exact h
  | _ => trivial

theorem WithinMax.localNext (hok : RankOk cfg r t) (hroom : TmpRoom cfg t) (h : WithinMax t)
    (hfits : t.tmp.nbResultMax = 0 →
      (t.pc = .solving → t.dq.nbTask = 1) ∧ t.pc ≠ .refilling .selfTheft) {b : Bool}
    (hs : localNext cfg r t b = some t') : WithinMax t' := by
  have hpcOk := hok.pc
  cases localStepped_of_localNext hs with
  | move pc hm => exact h.move hok hm
  | failed a hf => exact absurd hf (hpcOk.not_fails a)
  | solving hpc =>
    have hcount := hroom.count
    simp only [CountOk, hpc] at hcount
    simp only [WithinMax, doNextTask, Tasks.storeResult, nbTask_dropTask]
    by_cases hmax : t.tmp.nbResultMax = 0
    · have hone := (hfits hmax).1 hpc
      omega
    · omega
  | refilling site hpc =>
    cases site with
    | start => trivial
    | selfTheft =>
      simp only [WithinMax, hpc] at h ⊢
      have hmax : t.tmp.nbResultMax ≠ 0 := fun h0 => (hfits h0).2 hpc
      omega
  | refilled site comp state hpc =>
    cases site with
    | start => trivial
    | selfTheft =>
      simp only [WithinMax, hpc] at h
      exact .inl h
  | lockingSelf hpc | shared hpc =>
    simp only [WithinMax, hpc] at h
    exact h
  | sharing hpc =>
    simp only [WithinMax, hpc] at h
    exact h.imp_right fun h0 => ⟨moveToSegment_of_empty h0.1 cfg r t.seg, h0.2⟩
  | sharedFailed hpc hst =>
    simp only [PcOk, hpc] at hpcOk
    exact absurd hpcOk.1 hst
  | preparing => exact .inl (Nat.zero_le _)
  | opening | returningFull | unlockingWait => trivial
  | unlockingSelf old pc hpc hnext =>
    obtain rfl := hpcOk.pc_eq_working hpc hnext
    trivial

theorem WithinMax.stepped {s s' : State n} (hok : RankOk cfg r (s r))
    (hroom : TmpRoom cfg (s r)) (h : WithinMax (s r)) {a : Action n} (hfits : SecondFits s (r, a))
    (hs : Stepped cfg s r a s') : WithinMax (s' r) := by
  cases hs with
  | own b t ht =>
    rw [Function.update_self]
    exact h.localNext hok hroom hfits ht
  | pushed site hpc =>
    rw [Function.update_self]
    simp only [WithinMax, hpc]
  | readFirst b v len pc hpc hrest =>
    rw [Function.update_self]
    rcases hrest with ⟨rfl, -⟩ | ⟨rfl, -⟩ <;> trivial
  | _ =>
    rw [Function.update_self]
    trivial

/-- While no second result comes where there is room for one, the assertion holds. -/
theorem withinMax_invariant (cfg : Config n) :
    ((system cfg).restrict SecondFits).Invariant fun s => ∀ r, WithinMax (s r) := by
  have hroom : (system cfg).Invariant fun s => ProtocolOk cfg s ∧ ∀ r, TmpRoom cfg (s r) :=
    (protocol_invariant cfg).and (tmpRoom_invariant cfg)
  apply hroom.restrict
  · intro s hs r
    simp only [WithinMax, (hs r).pc]
  · rintro s ⟨r, a⟩ s' ⟨hok, hroom⟩ h hfits hs q
    have hstep := stepped_of_next hs
    by_cases hq : q = r
    · subst hq
      exact (h q).stepped (hok.rank q) (hroom q) hfits hstep
    · obtain ⟨state, hstate⟩ := hstep.other hq
      rw [hstate]
      exact h q

end Within

/-! ### All reachable states -/

/-- The offset of the placeholder at the end of `MetadataTmp`, which keeps room for a header. -/
def offsetofDummy : ℕ := StructLayout.offsetOf metadataTmpFields 11

theorem offsetofDummy_add : offsetofDummy + sizeofBufferElt = sizeofMetadataTmp := by decide

/-- What the bounds say of state `s`. -/
structure TmpBounded (cfg : Config n) (s : State n) : Prop where
  /-- The assertion at the head of the work loop has not failed, and does not fail in a next
  step. -/
  assertion : ∀ r a, (s r).pc ≠ .aborted a
  loopHead : ∀ r, (s r).pc = .loopHead → (s r).dq.tail ≠ (s r).dq.head →
    (s r).tmp.nbResult ≤ (s r).tmp.nbResultMax
  /-- `nb_result_max` is the room for results less one, and that does not underflow. -/
  max : ∀ r, (s r).pc ≠ .idle → (s r).tmp.nbResultMax + 1 = resultRoom cfg (s r).current
  /-- A result is written between the metadata and the end of the segment, -/
  written : ∀ r, (s r).pc = .solving →
    (sizeofMetadataTmp : ℤ) ≤ (s r).tmp.ptrNextResultToStore ∧
      (s r).tmp.ptrNextResultToStore + (s r).tmp.resultSize ≤ cfg.sharedTmpResultSegmentSize
  /-- and so the results are there, with the header below them in the place of the placeholder or
  above it. -/
  header : ∀ r, (s r).tmp.nbResult ≠ 0 →
    (offsetofDummy : ℤ) ≤
        (s r).tmp.ptrNextResultToStore + (s r).tmp.resultSize - sizeofBufferElt ∧
      (s r).tmp.ptrNextResultToStore + (s r).tmp.resultSize +
        (s r).tmp.nbResult * (s r).tmp.resultSize = cfg.sharedTmpResultSegmentSize

/-- The results that fit are above the metadata. -/
theorem TmpRoom.above {t : RankTasks n} (h : TmpRoom cfg t) (hacc : cfg.Accepts t.current)
    (hsess : 0 < t.session) (hsize : t.tmp.resultSize = cfg.resultSize t.current) {c : ℕ}
    (hc : c ≤ t.tmp.nbResultMax + 1) :
    (sizeofMetadataTmp : ℤ) ≤ cfg.sharedTmpResultSegmentSize - c * t.tmp.resultSize := by
  have hone := one_le_resultRoom hacc
  have hmax := h.max hsess
  have hmul : c * t.tmp.resultSize ≤ cfg.sharedTmpResultSegmentSize - sizeofMetadataTmp := by
    rw [hsize]
    refine (Nat.mul_le_mul_right _ ?_).trans (resultRoom_mul_le cfg t.current)
    omega
  have hroom := hacc.tmpSegment
  have hle : c * t.tmp.resultSize + sizeofMetadataTmp ≤ cfg.sharedTmpResultSegmentSize := by
    omega
  have hcast := Int.ofNat_le.mpr hle
  push_cast at hcast
  omega

/-- In every run in which no second result comes where there is room for one, the tmp segments do
not overflow. -/
theorem tmp_segment_bounded {s : State n}
    (hr : ((system cfg).restrict SecondFits).Reachable s) : TmpBounded cfg s := by
  have hwithin := (withinMax_invariant cfg).holds hr
  have hr := Transition.System.reachable_of_restrict hr
  have h := (protocol_invariant cfg).holds hr
  have hroom := (tmpRoom_invariant cfg).holds hr
  have hsess : ∀ r, (s r).pc ≠ .idle → 0 < (s r).session := by
    intro r hpc
    have hsess := (h.rank r).session
    unfold SessionOk at hsess
    split at hsess
    · contradiction
    · omega
  have htmp : ∀ r, (s r).tmp.nbResult ≠ 0 → (s r).pc ≠ .idle := by
    intro r hnb hpc
    have hok := (h.rank r).pc
    simp only [PcOk, hpc] at hok
    exact hnb hok.1.results
  constructor
  · intro r a hpc
    have hw := hwithin r
    simp only [WithinMax, hpc] at hw
  · intro r hpc hne
    have hw := hwithin r
    have hok := (h.rank r).pc
    simp only [WithinMax, hpc] at hw
    simp only [PcOk, hpc] at hok
    exact hw.resolve_right fun h0 => hne ((tail_eq_head_iff hok.1.dequeue.head_le).mpr h0.1)
  · intro r hpc
    have hone := one_le_resultRoom ((h.rank r).accepts hpc)
    have hmax := (hroom r).max (hsess r hpc)
    omega
  · intro r hpc
    have hidle : (s r).pc ≠ .idle := by rw [hpc]; rintro ⟨⟩
    have hok := (h.rank r).pc
    simp only [PcOk, hpc] at hok
    have hplaced := (hroom r).placed (.inl (by rw [hpc]; rfl))
    have hcount := (hroom r).count
    simp only [CountOk, hpc] at hcount
    have habove := (hroom r).above ((h.rank r).accepts hidle) (hsess r hidle) hok.2.2.resultSize
      (show (s r).tmp.nbResult + 1 ≤ (s r).tmp.nbResultMax + 1 by omega)
    have hnonneg : (0 : ℤ) ≤ (s r).tmp.nbResult * (s r).tmp.resultSize := by positivity
    push_cast at habove
    constructor
    · omega
    · rw [← hplaced, add_one_mul]
      omega
  · intro r hnb
    have hidle := htmp r hnb
    have hplaced := (hroom r).placed (.inr hnb)
    have habove := (hroom r).above ((h.rank r).accepts hidle) (hsess r hidle)
      ((h.rank r).tmpOk hnb).resultSize (hroom r).count.le
    have hdummy := offsetofDummy_add
    rw [add_one_mul] at hplaced
    constructor
    · omega
    · omega

/-- Rank 0 executes a task, and its dequeue is not empty after that. -/
def solveFirst : List (Fin 2 × Action 2) :=
  [(0, .setProblem), (1, .setProblem), (0, .leaveBarrier)] ++
    List.replicate 8 (0, .advance false)

theorem tmp_segment_bounded_after_task :
    ∃ s, ((system twoRanks).restrict SecondFits).Reachable s ∧ (s 0).tmp.nbResult = 1 ∧
      TmpBounded twoRanks s := by
  obtain ⟨s, hr, hnb⟩ := Transition.System.exists_reachable
    (show ((system twoRanks).restrict SecondFits).init created from twoRanks_init) solveFirst
    (fun s => (s 0).tmp.nbResult = 1) (by decide +kernel)
  exact ⟨s, hr, hnb, tmp_segment_bounded hr⟩

/-! ### A tmp segment with room for one result -/

/-- Two ranks, of which rank 0 has two tasks of 100 bytes.  A segment has room for one of them. -/
def oneResult : Config 2 where
  sharedTaskSegmentSize := 196
  taskSize _ := 100
  resultSize _ := 8
  nbTask _ r := if r = 0 then 2 else 0
  problem _ _ i := UInt8.ofNat i
  result _ _ _ := 0
  ptrTaskFunction _ _ := 0
  call _ bytes b := bytes.getD b 0 + 1
  size_lt _ r := by split <;> decide

/-- Rank 0 executes its tasks. -/
def solveBoth : List (Fin 2 × Action 2) :=
  [(0, .setProblem), (1, .setProblem), (0, .leaveBarrier)] ++
    List.replicate 11 (0, .advance false)

/-- `set_problem` accepts the problem, and the assertion fails after the first task. -/
theorem tmp_segment_overflows :
    oneResult.Accepts 0 ∧
      ∃ s, (system oneResult).Reachable s ∧ (s 0).pc = .aborted .nbResultMax ∧
        ¬ TmpBounded oneResult s := by
  refine ⟨by decide, ?_⟩
  obtain ⟨s, hr, hpc⟩ := Transition.System.exists_reachable
    (show (system oneResult).init created from fun r => ⟨rfl, rfl, rfl, rfl, rfl, rfl, rfl, rfl⟩)
    solveBoth (fun s => (s 0).pc = .aborted .nbResultMax) (by decide +kernel)
  exact ⟨s, hr, hpc, fun hb => hb.assertion 0 _ hpc⟩

end Titus.Tasks
