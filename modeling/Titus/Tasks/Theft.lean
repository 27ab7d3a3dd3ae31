import Titus.Tasks.Requesting

/-! A theft as a whole: from the lock of the victim's segment to the end of `work_stealing`.  Whether
it reads the segment at once or in two parts, the thief gets what the victim had when it was locked,
and no read leaves the segments. -/

namespace Titus.Tasks

open Memory

variable {n : ℕ} {cfg : Config n} {s s' : State n} {q r v : Fin n} {a : Action n}
  {m : MetadataTask n}

/-! ### The reads -/

/-- The whole segment at once. -/
def readOnce (cfg : Config n) (own victim : MetadataTask n) : MetadataTask n :=
  readFirst own victim cfg.sharedTaskSegmentSize

/-- A first part, and a second one if the segment that the first brought is larger. -/
def readTwice (own victim : MetadataTask n) : MetadataTask n :=
  let seg := readFirst own victim sizeFirstRead
  if sizeFirstRead < seg.segmentSize then readRest seg victim else seg

/-- A `gaspi_read` of `work_stealing`: `len` bytes at offset `off` of both segments. -/
structure SegmentRead where
  off : ℕ
  len : ℕ

/-- The metadata is read with the tasks behind it, or tasks only. -/
def SegmentRead.apply (rd : SegmentRead) (own victim : MetadataTask n) : MetadataTask n :=
  let first := rd.off - sizeofMetadataTask
  if rd.off = 0 then readFirst own victim rd.len
  else { own with tasks := copy own.tasks first victim.tasks first rd.len }

/-- The size of the first read. -/
def firstReadSize (cfg : Config n) : ℕ :=
  if cfg.sharedTaskSegmentSize < sizeFirstRead then cfg.sharedTaskSegmentSize else sizeFirstRead

theorem firstReadSize_eq (cfg : Config n) :
    firstReadSize cfg = min cfg.sharedTaskSegmentSize sizeFirstRead := by
  unfold firstReadSize
  split <;> omega

/-- The read that a rank makes next. -/
def nextRead (cfg : Config n) (t : RankTasks n) : Option (Fin n × SegmentRead) :=
  match t.pc with
  | .reading victim => some (victim, ⟨0, firstReadSize cfg⟩)
  | .readingRest victim => some (victim, ⟨sizeFirstRead, t.seg.segmentSize - sizeFirstRead⟩)
  | _ => none

/-- A batch that fills its segment is read alike in both ways. -/
theorem LiveBatch.sameBatch_reads {k : ℕ} (h : LiveBatch cfg k m) (own : MetadataTask n) :
    SameBatch (readOnce cfg own m) (readTwice own m) (m.nbTask * m.taskSize) := by
  have hsize := h.ok.size_tasks
  have hle := h.ok.segmentSize_le
  have honce : SameBatch m (readOnce cfg own m) (m.nbTask * m.taskSize) :=
    sameBatch_readFirst own m (by omega)
  have htwice : SameBatch m (readTwice own m) (m.nbTask * m.taskSize) := by
    unfold readTwice
    simp only
    split
    · exact sameBatch_readRest (sameBatch_readFirst own m le_rfl) (by omega)
    · rename_i hfirst
      have : m.segmentSize ≤ sizeFirstRead := Nat.le_of_not_lt hfirst
      exact sameBatch_readFirst own m (by omega)
  exact honce.symm.trans htwice

/-! ### The steps of the thief -/

/-- The thief after its first read. -/
def afterFirstRead (cfg : Config n) (t : RankTasks n) (v : Fin n) (victim : MetadataTask n) :
    RankTasks n :=
  if cfg.sharedTaskSegmentSize < sizeFirstRead then
    { t with seg := readOnce cfg t.seg victim, pc := .unlockingVictim v }
  else
    { t with
      seg := readFirst t.seg victim sizeFirstRead
      pc := if sizeFirstRead < victim.segmentSize then .readingRest v else .unlockingVictim v }

theorem next_reading (hpc : (s r).pc = .reading v) (b : Bool) :
    next cfg s (r, .advance b) =
      some (Function.update s r (afterFirstRead cfg (s r) v (s v).seg)) := by
  simp only [next, hpc, stealNext, afterFirstRead]
  split <;> rfl

theorem next_readingRest (hpc : (s r).pc = .readingRest v) (b : Bool) :
    next cfg s (r, .advance b) = some (Function.update s r { s r with
      seg := readRest (s r).seg (s v).seg, pc := .unlockingVictim v }) := by
  simp only [next, hpc, stealNext]

/-- The second read follows a first one that has brought a larger size. -/
theorem restPending_invariant (cfg : Config n) :
    (system cfg).Invariant fun s => ∀ r v, (s r).pc = .readingRest v →
      sizeFirstRead ≤ cfg.sharedTaskSegmentSize ∧ sizeFirstRead < (s r).seg.segmentSize := by
  constructor
  · intro s hs r v hpc
    rw [(hs r).pc] at hpc
    cases hpc
  · rintro s ⟨q, a⟩ s' - h hs r v hpc
    have hs : next cfg s (q, a) = some s' := hs
    have hstep := stepped_of_next hs
    by_cases hr : r = q
    · subst hr
      by_cases hread : ∃ b w, a = .advance b ∧ (s r).pc = .reading w
      · obtain ⟨b, w, rfl, hpc'⟩ := hread
        rw [next_reading hpc'] at hs
        cases hs
        rw [Function.update_self] at hpc ⊢
        unfold afterFirstRead at hpc ⊢
        split
        · rename_i hlt
          rw [if_pos hlt] at hpc
          cases hpc
        · rename_i hlt
          rw [if_neg hlt] at hpc
          simp only at hpc
          split at hpc
          · exact ⟨Nat.le_of_not_lt hlt, ‹_›⟩
          · cases hpc
      · cases hstep with
        | readFirst b w len pc hpc' => exact absurd ⟨b, w, rfl, hpc'⟩ hread
        | own b t ht =>
          rw [Function.update_self] at hpc
          have hvictim := (localNext_frame ht).2.2.2.2.2.2.2
          rw [hpc] at hvictim
          cases hvictim
        | pushed site hpc' =>
          rw [Function.update_self] at hpc
          simp only [hpc'] at hpc
          cases hpc
        | _ =>
          rw [Function.update_self] at hpc
          cases hpc
    · obtain ⟨state, hstate⟩ := hstep.other hr
      rw [hstate] at hpc ⊢
      exact h r v hpc

/-- A read is inside the segments, which have the same size on all ranks, and the first brings the
metadata as a whole. -/
theorem nextRead_le (hr : (system cfg).Reachable s) {rd : SegmentRead}
    (hrd : nextRead cfg (s r) = some (v, rd)) :
    rd.off + rd.len ≤ cfg.sharedTaskSegmentSize ∧ (rd.off = 0 → sizeofMetadataTask ≤ rd.len) := by
  have h := (protocol_invariant cfg).holds hr
  unfold nextRead at hrd
  split at hrd <;> cases hrd
  · rename_i hpc
    have hacc := (h.rank r).accepts (by rw [hpc]; rintro ⟨⟩)
    have hroom := hacc.taskSegment
    have hfirst := firstReadSize_eq cfg
    rw [sizeofMetadataTask_eq] at hroom ⊢
    rw [sizeFirstRead] at hfirst
    simp only
    constructor <;> omega
  · rename_i hpc
    obtain ⟨-, hrest⟩ := (restPending_invariant cfg).holds hr r v hpc
    obtain ⟨-, -, hlive⟩ := h.victim_locked (v := v) (by rw [hpc]; rfl)
    have hsize := (h.readFirst r v hpc).segmentSize
    have hle := hlive.ok.segmentSize_le
    constructor
    · simp only
      omega
    · rintro ⟨⟩

/-- The step of the thief makes the read, and changes nothing else of its segment. -/
theorem seg_of_nextRead {rd : SegmentRead} (hrd : nextRead cfg (s r) = some (v, rd)) (b : Bool) :
    ∃ s', next cfg s (r, .advance b) = some s' ∧
      (s' r).seg = rd.apply (s r).seg (s v).seg := by
  unfold nextRead at hrd
  split at hrd <;> cases hrd
  · rename_i hpc
    refine ⟨_, next_reading hpc b, ?_⟩
    rw [Function.update_self]
    unfold afterFirstRead SegmentRead.apply firstReadSize
    simp only [if_true]
    split <;> rfl
  · rename_i hpc
    refine ⟨_, next_readingRest hpc b, ?_⟩
    rw [Function.update_self]
    rfl

/-! ### From the lock to the end of the theft -/

/-- The batch is read in two parts. -/
def TwoReads (cfg : Config n) (m : MetadataTask n) : Prop :=
  sizeFirstRead ≤ cfg.sharedTaskSegmentSize ∧ sizeFirstRead < m.segmentSize

instance (cfg : Config n) (m : MetadataTask n) : Decidable (TwoReads cfg m) :=
  inferInstanceAs (Decidable (_ ∧ _))

/-- Rank `r` has locked the segment of `v` when that was `m`, and is `k` steps before the end of
`work_stealing`. -/
def Theft (cfg : Config n) (r v : Fin n) (m : MetadataTask n) (s : State n) : ℕ → Prop
  | 4 => (s r).pc = .reading v ∧ TwoReads cfg m ∧ ∀ len, SameBatch m (s v).seg len
  | 3 => ((s r).pc = .readingRest v ∧
        SameBatch m (s r).seg (sizeFirstRead - sizeofMetadataTask) ∨
      (s r).pc = .reading v ∧ ¬ TwoReads cfg m) ∧ ∀ len, SameBatch m (s v).seg len
  | 2 => (s r).pc = .unlockingVictim v ∧ SameBatch m (s r).seg (m.nbTask * m.taskSize)
  | 1 => (s r).pc = .unlockingSelf (.rank r) ∧ SameBatch m (s r).seg (m.nbTask * m.taskSize)
  | 0 => (s r).pc = .working ∧ SameBatch m (s r).seg (m.nbTask * m.taskSize)
  | _ => False

/-- The steps of a theft after the lock. -/
def theftSteps (cfg : Config n) (m : MetadataTask n) : ℕ := if TwoReads cfg m then 4 else 3

theorem sameBatch_withState (t : RankTasks n) (state : TaskLock n) (len : ℕ) :
    SameBatch t.seg (withState t state).seg len :=
  ⟨rfl, rfl, rfl, rfl, rfl, rfl, rfl, Agrees.refl _ _ _⟩

/-- A locked batch is changed by nobody but the thief. -/
theorem ProtocolOk.locked_batch (h : ProtocolOk cfg s) (hv : (s r).pc.victim = some v)
    (hs : Stepped cfg s q a s') (hq : q ≠ r) (len : ℕ) : SameBatch (s v).seg (s' v).seg len := by
  obtain ⟨hne, hst, -⟩ := h.victim_locked hv
  by_cases hvq : v = q
  · subst hvq
    have hopen := (h.rank v).open_of_rank hst hne.symm
    cases hs with
    | own b t ht =>
      rw [Function.update_self]
      exact (localNext_locked (h.rank v) hst hne.symm ht).2 len
    | pushed site hpc =>
      rw [Function.update_self]
      exact SameBatch.refl _ _
    | setProblem hpc | leaveBarrier hpc | finish hpc | missed w hpc | locked w hpc
    | readFirst b w len' pc hpc | readRest b w hpc | unlock b w state hpc =>
      simp only [Open, hpc] at hopen
  · obtain ⟨state, hstate⟩ := hs.other hvq
    rw [hstate]
    exact sameBatch_withState _ _ _

/-- The steps of other ranks leave a theft where it is. -/
theorem Theft.other {k : ℕ} (ht : Theft cfg r v m s k) (h : ProtocolOk cfg s)
    (hs : Stepped cfg s q a s') (hq : q ≠ r) : Theft cfg r v m s' k := by
  obtain ⟨state, hstate⟩ := hs.other hq.symm
  have hpc : (s' r).pc = (s r).pc := by
    rw [hstate]
    rfl
  have hown : ∀ len, SameBatch (s r).seg (s' r).seg len := by
    rw [hstate]
    exact sameBatch_withState _ _
  match k, ht with
  | 4, ⟨hread, htwo, hm⟩ =>
    have hkept := h.locked_batch (v := v) (by rw [hread]; rfl) hs hq
    exact ⟨hpc.trans hread, htwo, fun len => (hm len).trans (hkept len)⟩
  | 3, ⟨.inl ⟨hread, hfirst⟩, hm⟩ =>
    have hkept := h.locked_batch (v := v) (by rw [hread]; rfl) hs hq
    exact ⟨.inl ⟨hpc.trans hread, hfirst.trans (hown _)⟩, fun len => (hm len).trans (hkept len)⟩
  | 3, ⟨.inr ⟨hread, hone⟩, hm⟩ =>
    have hkept := h.locked_batch (v := v) (by rw [hread]; rfl) hs hq
    exact ⟨.inr ⟨hpc.trans hread, hone⟩, fun len => (hm len).trans (hkept len)⟩
  | 2, ⟨hread, hm⟩ => exact ⟨hpc.trans hread, hm.trans (hown _)⟩
  | 1, ⟨hread, hm⟩ => exact ⟨hpc.trans hread, hm.trans (hown _)⟩
  | 0, ⟨hread, hm⟩ => exact ⟨hpc.trans hread, hm.trans (hown _)⟩

/-- The steps of the thief bring it to its end. -/
theorem Theft.advance {k : ℕ} (ht : Theft cfg r v m s (k + 1)) (h : ProtocolOk cfg s) (b : Bool) :
    ∃ s', next cfg s (r, .advance b) = some s' ∧ Theft cfg r v m s' k := by
  match k, ht with
  | 3, ⟨hpc, htwo, hm⟩ =>
    obtain ⟨hne, -, -⟩ := h.victim_locked (v := v) (by rw [hpc]; rfl)
    refine ⟨_, next_reading hpc b, .inl ⟨?_, ?_⟩, ?_⟩
    · rw [Function.update_self, afterFirstRead, if_neg (Nat.not_lt.mpr htwo.1)]
      exact if_pos ((hm 0).segmentSize ▸ htwo.2)
    · rw [Function.update_self, afterFirstRead, if_neg (Nat.not_lt.mpr htwo.1)]
      exact (hm _).trans (sameBatch_readFirst _ _ le_rfl)
    · rw [Function.update_of_ne hne]
      exact hm
  | 2, ⟨.inl ⟨hpc, hfirst⟩, hm⟩ =>
    obtain ⟨hne, -, hlive⟩ := h.victim_locked (v := v) (by rw [hpc]; rfl)
    have hsize := hlive.ok.size_tasks
    refine ⟨_, next_readingRest hpc b, ?_, ?_⟩
    · rw [Function.update_self]
    · rw [Function.update_self]
      apply (hm _).trans
      apply sameBatch_readRest ((hm _).symm.trans hfirst)
      rw [← (hm 0).nbTask, ← (hm 0).taskSize]
      exact hsize.le
  | 2, ⟨.inr ⟨hpc, hone⟩, hm⟩ =>
    obtain ⟨hne, -, hlive⟩ := h.victim_locked (v := v) (by rw [hpc]; rfl)
    have hsize := hlive.ok.size_tasks
    have hle := hlive.ok.segmentSize_le
    have hsame := hm (m.nbTask * m.taskSize)
    rw [hsame.nbTask, hsame.taskSize] at hsize
    unfold TwoReads at hone
    rw [← hsame.segmentSize] at hone
    refine ⟨_, next_reading hpc b, ?_, ?_⟩
    · rw [Function.update_self, afterFirstRead]
      split
      · rfl
      · exact if_neg fun hlt => hone ⟨Nat.le_of_not_lt ‹_›, hlt⟩
    · rw [Function.update_self, afterFirstRead]
      split
      · exact hsame.trans (sameBatch_readFirst _ _ (by omega))
      · exact hsame.trans (sameBatch_readFirst _ _ (by omega))
  | 1, ⟨hpc, hm⟩ =>
    obtain ⟨hne, hst, -⟩ := h.victim_locked (v := v) (by rw [hpc]; rfl)
    simp only [next, hpc, stealNext, compareAndSwapStatus, hst, if_true]
    refine ⟨_, rfl, ?_, ?_⟩
    · rw [Function.update_self]
    · rw [Function.update_self, Function.update_of_ne hne.symm]
      exact hm
  | 0, ⟨hpc, hm⟩ =>
    have hok := (h.rank r).pc
    simp only [PcOk, hpc] at hok
    simp only [next, hpc, localNext, compareAndSwapStatus, hok.1, ne_eq, not_true, if_true,
      if_false, Option.map_some]
    refine ⟨_, rfl, ?_, ?_⟩
    · rw [Function.update_self]
    · rw [Function.update_self]
      exact hm.trans ⟨rfl, rfl, rfl, rfl, rfl, rfl, rfl, Agrees.refl _ _ _⟩

/-- A lock that finds tasks is the start of a theft. -/
theorem theft_of_lock (hst : (s v).seg.state = .taskAvailable)
    (hs : next cfg s (r, .steal v) = some s') :
    Theft cfg r v (s v).seg s' (theftSteps cfg (s v).seg) := by
  have hstep := stepped_of_next hs
  cases hstep with
  | missed w hpc hne hmiss => exact absurd hst hmiss
  | locked w hpc hne =>
    unfold theftSteps
    split
    · refine ⟨by rw [Function.update_self], ‹_›, fun len => ?_⟩
      rw [Function.update_of_ne hne, Function.update_self]
      exact sameBatch_withState _ _ _
    · refine ⟨.inr ⟨by rw [Function.update_self], ‹_›⟩, fun len => ?_⟩
      rw [Function.update_of_ne hne, Function.update_self]
      exact sameBatch_withState _ _ _

/-- A step of rank `r` in a function of the library. -/
def ownAdvance (r : Fin n) : Fin n × Action n → Bool
  | (q, .advance _) => q = r
  | _ => false

/-- During a theft the thief is called for nothing else. -/
theorem Theft.not_called {k : ℕ} (ht : Theft cfg r v m s k) (hs : Stepped cfg s r a s') :
    ∃ b, a = .advance b := by
  have hpc : (s r).pc.victim = some v ∨ (∃ old, (s r).pc = .unlockingSelf old) ∨
      (s r).pc = .working := by
    match k, ht with
    | 4, ht => exact .inl (by rw [ht.1]; rfl)
    | 3, ⟨.inl ht, _⟩ => exact .inl (by rw [ht.1]; rfl)
    | 3, ⟨.inr ht, _⟩ => exact .inl (by rw [ht.1]; rfl)
    | 2, ht => exact .inl (by rw [ht.1]; rfl)
    | 1, ht => exact .inr (.inl ⟨_, ht.1⟩)
    | 0, ht => exact .inr (.inr ht.1)
  cases hs with
  | setProblem h | leaveBarrier h | finish h | missed w h | locked w h | pushed site h =>
    rw [h] at hpc
    rcases hpc with hpc | ⟨old, hpc⟩ | hpc <;> cases hpc
  | readFirst b | readRest b | unlock b | own b => exact ⟨b, rfl⟩

/-- In every run a theft of `k` steps has come to its end after as many steps of the thief. -/
theorem Theft.run {k : ℕ} (hr : (system cfg).Reachable s) (ht : Theft cfg r v m s k)
    (as : List (Fin n × Action n)) (hrun : (system cfg).run s as = some s')
    (hle : as.countP (ownAdvance r) ≤ k) : Theft cfg r v m s' (k - as.countP (ownAdvance r)) := by
  induction as generalizing s k with
  | nil =>
    cases hrun
    exact ht
  | cons x as ih =>
    obtain ⟨t, hs, hrest⟩ := Option.bind_eq_some_iff.mp hrun
    have h := (protocol_invariant cfg).holds hr
    obtain ⟨q, a⟩ := x
    have hstep := stepped_of_next hs
    rw [List.countP_cons] at hle ⊢
    by_cases hq : q = r
    · subst hq
      obtain ⟨b, rfl⟩ := ht.not_called hstep
      have hown : ownAdvance q (q, .advance b) = true := by simp [ownAdvance]
      rw [hown, if_pos rfl] at hle ⊢
      obtain ⟨k, rfl⟩ := Nat.exists_eq_add_of_le' (show 1 ≤ k by omega)
      obtain ⟨t', ht', hnext⟩ := ht.advance h b
      have heq : t' = t := Option.some.inj (ht'.symm.trans hs)
      subst heq
      rw [Nat.add_sub_add_right]
      exact ih (hr.step hs) hnext hrest (by omega)
    · have hown : ownAdvance r (q, a) = false := by
        cases a <;> simp [ownAdvance, hq]
      rw [hown] at hle ⊢
      simp only [Bool.false_eq_true, if_false, Nat.add_zero] at hle ⊢
      exact ih (hr.step hs) (ht.other h hstep hq) hrest hle

/-- What the reads of a theft do, for every size of the segments. -/
structure TheftCopies (cfg : Config n) (s : State n) : Prop where
  /-- No read leaves the segments, the first one brings all metadata, and the step of the thief makes
  the read and changes nothing else of its segment. -/
  reads : ∀ r v rd, nextRead cfg (s r) = some (v, rd) →
    rd.off + rd.len ≤ cfg.sharedTaskSegmentSize ∧ (rd.off = 0 → sizeofMetadataTask ≤ rd.len) ∧
      ∀ b, ∃ s', next cfg s (r, .advance b) = some s' ∧
        (s' r).seg = rd.apply (s r).seg (s v).seg
  /-- A segment with tasks is read alike at once and in two parts. -/
  paths : ∀ v, (s v).seg.state = .taskAvailable → ∀ own,
    SameBatch (readOnce cfg own (s v).seg) (readTwice own (s v).seg)
      ((s v).seg.nbTask * (s v).seg.taskSize)
  /-- A theft that has locked a segment with tasks ends after three or four more steps of the thief,
  which are possible, with the batch that was there when it was locked, whatever the others do. -/
  copies : ∀ r v s', (s v).seg.state = .taskAvailable → next cfg s (r, .steal v) = some s' →
    ∀ as t, (system cfg).run s' as = some t →
      (as.countP (ownAdvance r) < theftSteps cfg (s v).seg →
        ∀ b, (next cfg t (r, .advance b)).isSome) ∧
      (as.countP (ownAdvance r) = theftSteps cfg (s v).seg →
        (t r).pc = .working ∧ (t r).seg.state = .noTask ∧
          SameBatch (s v).seg (t r).seg ((s v).seg.nbTask * (s v).seg.taskSize))

/-- In every reachable state of any number of ranks a theft copies the batch as it is. -/
theorem theft_copies (hr : (system cfg).Reachable s) : TheftCopies cfg s := by
  have h := (protocol_invariant cfg).holds hr
  constructor
  · intro r v rd hrd
    obtain ⟨hle, hfirst⟩ := nextRead_le hr hrd
    exact ⟨hle, hfirst, seg_of_nextRead hrd⟩
  · intro v hst
    exact ((h.rank v).liveBatch (.inl hst)).sameBatch_reads
  · intro r v s' hst hs as t hrun
    have hreach := hr.step (show (system cfg).next s (r, Action.steal v) = _ from hs)
    have htheft := theft_of_lock hst hs
    have hok := (protocol_invariant cfg).holds (hreach.run hrun)
    constructor
    · intro hlt b
      have hend := htheft.run hreach as hrun hlt.le
      obtain ⟨k, hk⟩ := Nat.exists_eq_add_of_lt hlt
      rw [show theftSteps cfg (s v).seg - as.countP (ownAdvance r) = k + 1 by omega] at hend
      obtain ⟨t', ht', -⟩ := hend.advance hok b
      rw [ht']
      rfl
    · intro heq
      have hend := htheft.run hreach as hrun heq.le
      rw [heq, Nat.sub_self] at hend
      obtain ⟨hpc, hsame⟩ := hend
      have hstate := (hok.rank r).pc
      simp only [PcOk, hpc] at hstate
      exact ⟨hpc, hstate.1, hsame⟩

theorem theft_copies_before_lock :
    ∃ s, (system twoRanks).Reachable s ∧ (s 0).seg.state = .taskAvailable ∧
      (s 1).pc = .balancing ∧ TheftCopies twoRanks s := by
  obtain ⟨s, hr, hst, hpc⟩ := Transition.System.exists_reachable twoRanks_init theft.dropLast
    (fun s => (s 0).seg.state = .taskAvailable ∧ (s 1).pc = .balancing) (by decide +kernel)
  exact ⟨s, hr, hst, hpc, theft_copies hr⟩

end Titus.Tasks
