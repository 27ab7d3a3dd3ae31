import Titus.Tasks.Batch

/-! What holds of one rank at each point of `parallel_work`, and that the rank's own steps and the
locks of thieves keep it. -/

namespace Titus.Tasks

open Memory

variable {n : ℕ} {cfg : Config n} {k : ℕ} {r : Fin n}

/-- What the state word of a rank that works says about its segment. -/
def SegmentShared (cfg : Config n) (k : ℕ) (r : Fin n) (m : MetadataTask n) (dq : Dequeue n) :
    Prop :=
  match m.state with
  | .taskAvailable => LiveBatch cfg k m ∧ Precedes m dq
  | .rank q => LiveBatch cfg k m ∧ (q = r → Precedes m dq)
  | .freeForCopy => True
  | .noTask => m.nbTask = 0
  | .copyInProgress => False

/-- A rank without tasks or results of its own. -/
structure Resting (dq : Dequeue n) (m : MetadataTask n) (tmp : MetadataTmp n) : Prop where
  state : m.state = .noTask
  dequeue : dq.head = dq.tail
  results : tmp.nbResult = 0

theorem Resting.nbTask {dq : Dequeue n} {m : MetadataTask n} {tmp : MetadataTmp n}
    (h : Resting dq m tmp) : dq.nbTask = 0 := by
  rw [Dequeue.nbTask, h.dequeue, Nat.sub_self]

/-- A rank in the work loop. -/
structure Working (cfg : Config n) (k : ℕ) (r : Fin n) (dq : Dequeue n) (m : MetadataTask n) :
    Prop where
  dequeue : DequeueOk cfg k dq
  segment : SegmentShared cfg k r m dq
  notSelf : m.state ≠ .rank r

/-- A rank after its work loop. -/
structure Leaving (cfg : Config n) (k : ℕ) (r : Fin n) (dq : Dequeue n) (m : MetadataTask n) :
    Prop where
  dequeue : dq.head = dq.tail
  segment : SegmentShared cfg k r m dq
  notSelf : m.state ≠ .rank r
  notAvailable : m.state ≠ .taskAvailable

/-- A rank that has just solved a task and looks at the state of its segment. -/
structure Looking (cfg : Config n) (k : ℕ) (r : Fin n) (dq : Dequeue n) (m : MetadataTask n) :
    Prop where
  dequeue : DequeueOk cfg k dq
  segment : SegmentShared cfg k r m dq
  notAvailable : dq.nbTask = 0 → m.state ≠ .taskAvailable
  self : m.state = .rank r → dq.nbTask = 0

/-- What a rank has at the start of `work_on_my_dequeue`: tasks of its problem, or a stolen
batch. -/
inductive StartOk (cfg : Config n) (k : ℕ) (dq : Dequeue n) (m : MetadataTask n) : Prop
  | own (dequeue : DequeueOk cfg k dq) (pos : 0 < dq.nbTask) (empty : m.nbTask = 0)
  | stolen (state : m.state = .noTask) (empty : dq.nbTask = 0) (batch : LiveBatch cfg k m)

/-- The segment and the dequeue after tasks were moved from the first to the second. -/
structure Refilled (cfg : Config n) (k : ℕ) (dq : Dequeue n) (m : MetadataTask n) : Prop where
  dequeue : DequeueOk cfg k dq
  pos : 0 < dq.nbTask
  batch : BatchOk cfg k m
  precedes : 1 ≤ m.nbTask → Precedes m dq

/-- What holds of rank `r` at the point `t.pc`. -/
def PcOk (cfg : Config n) (r : Fin n) (t : RankTasks n) : Prop :=
  match t.pc with
  | .idle => Resting t.dq t.seg t.tmp ∧ t.seg.nbTask = 0
  | .barrier | .ready => t.seg.state = .noTask ∧ t.seg.nbTask = 0 ∧ t.tmp.nbResult = 0 ∧
      DequeueOk cfg t.current t.dq
  | .returning .thief | .balancing => Resting t.dq t.seg t.tmp
  | .reading v => Resting t.dq t.seg t.tmp ∧ v ≠ r
  | .readingRest v | .unlockingVictim v =>
    t.seg.state = .rank r ∧ t.dq.nbTask = 0 ∧ t.tmp.nbResult = 0 ∧ v ≠ r
  | .unlockingSelf old => t.seg.state = .rank r ∧ t.dq.nbTask = 0 ∧ t.tmp.nbResult = 0 ∧
      old = .rank r ∧ LiveBatch cfg t.current t.seg
  | .working => t.seg.state = .noTask ∧ t.tmp.nbResult = 0 ∧ StartOk cfg t.current t.dq t.seg
  | .opening => t.seg.state = .noTask ∧ t.tmp.nbResult = 0 ∧
      DequeueOk cfg t.current t.dq ∧ 0 < t.dq.nbTask ∧ t.seg.nbTask = 0
  | .starting => (t.seg.state = .noTask ∨ t.seg.state = .freeForCopy) ∧ t.tmp.nbResult = 0 ∧
      StartOk cfg t.current t.dq t.seg
  | .refilling .start => t.seg.state = .noTask ∧ t.tmp.nbResult = 0 ∧ t.dq.nbTask = 0 ∧
      LiveBatch cfg t.current t.seg
  | .refilled .start comp => comp = .noTask ∧ t.seg.state = .noTask ∧ t.tmp.nbResult = 0 ∧
      Refilled cfg t.current t.dq t.seg
  | .preparing => Working cfg t.current r t.dq t.seg ∧ 0 < t.dq.nbTask ∧ t.tmp.nbResult = 0
  | .loopHead => Working cfg t.current r t.dq t.seg ∧ TmpOk cfg t.current t.dq t.tmp ∧
      (t.dq.nbTask = 0 → t.seg.state ≠ .taskAvailable)
  | .returning .full => Working cfg t.current r t.dq t.seg ∧ 0 < t.dq.nbTask ∧
      (t.tmp.nbResult = 0 ∨ TmpOk cfg t.current t.dq t.tmp)
  | .loopBody | .flushing | .solving =>
    Working cfg t.current r t.dq t.seg ∧ 0 < t.dq.nbTask ∧ TmpOk cfg t.current t.dq t.tmp
  | .solved => Working cfg t.current r t.dq t.seg ∧ TmpOk cfg t.current t.dq t.tmp
  | .switching | .detecting => Looking cfg t.current r t.dq t.seg ∧ TmpOk cfg t.current t.dq t.tmp
  | .refilling .selfTheft => t.seg.state = .rank r ∧ t.dq.nbTask = 0 ∧
      TmpOk cfg t.current t.dq t.tmp ∧ LiveBatch cfg t.current t.seg ∧ Precedes t.seg t.dq
  | .refilled .selfTheft comp => comp = .rank r ∧ t.seg.state = .rank r ∧
      TmpOk cfg t.current t.dq t.tmp ∧ Refilled cfg t.current t.dq t.seg
  | .sharing => t.seg.state = .freeForCopy ∧ DequeueOk cfg t.current t.dq ∧
      TmpOk cfg t.current t.dq t.tmp
  | .shared => t.seg.state = .freeForCopy ∧ DequeueOk cfg t.current t.dq ∧
      TmpOk cfg t.current t.dq t.tmp ∧
      (t.seg.nbTask = 0 ∨
        LiveBatch cfg t.current t.seg ∧ Precedes t.seg t.dq ∧ 0 < t.dq.nbTask)
  | .returning .last => Leaving cfg t.current r t.dq t.seg ∧
      (t.tmp.nbResult = 0 ∨ DequeueOk cfg t.current t.dq ∧ TmpOk cfg t.current t.dq t.tmp)
  | .waiting | .spinning => Leaving cfg t.current r t.dq t.seg ∧ t.tmp.nbResult = 0
  | .unlockingWait => t.seg.state = .freeForCopy ∧ t.dq.head = t.dq.tail ∧ t.tmp.nbResult = 0
  | .aborted a => a = .nbResultMax ∧ Working cfg t.current r t.dq t.seg ∧
      TmpOk cfg t.current t.dq t.tmp

/-- The calls of `set_problem` and the returns of `parallel_work` alternate. -/
def SessionOk (t : RankTasks n) : Prop :=
  match t.pc with
  | .idle => t.session = t.finished
  | _ => t.session = t.finished + 1

/-- What holds of rank `r` alone. -/
structure RankOk (cfg : Config n) (r : Fin n) (t : RankTasks n) : Prop where
  pc : PcOk cfg r t
  session : SessionOk t
  accepts : t.pc ≠ .idle → cfg.Accepts t.current

/-! ### The locks of thieves -/

section Locks

variable {t : RankTasks n} {dq : Dequeue n} {m : MetadataTask n} {q : Fin n}

theorem LiveBatch.withState (h : LiveBatch cfg k m) (state : TaskLock n) :
    LiveBatch cfg k { m with state } :=
  h.of_same ⟨rfl, rfl, rfl, rfl, rfl, rfl, rfl, Agrees.refl _ _ _⟩

theorem Precedes.withState (h : Precedes m dq) (state : TaskLock n) :
    Precedes { m with state } dq := ⟨h.owner, h.endTaskId⟩

theorem SegmentShared.congr {m' : MetadataTask n} {dq' : Dequeue n}
    (h : SegmentShared cfg k r m dq) (hstate : m'.state = m.state) (hnb : m'.nbTask = m.nbTask)
    (hlive : LiveBatch cfg k m → LiveBatch cfg k m') (hprec : Precedes m dq → Precedes m' dq') :
    SegmentShared cfg k r m' dq' := by
  unfold SegmentShared at h ⊢
  rw [hstate, hnb]
  split at h
  · exact ⟨hlive h.1, hprec h.2⟩
  · exact ⟨hlive h.1, fun hq => hprec (h.2 hq)⟩
  · trivial
  · exact h
  · exact h

theorem SegmentShared.lock (h : SegmentShared cfg k r m dq) (hm : m.state = .taskAvailable)
    (hq : q ≠ r) : SegmentShared cfg k r { m with state := .rank q } dq := by
  simp only [SegmentShared, hm] at h ⊢
  exact ⟨h.1.withState _, fun hqr => absurd hqr hq⟩

theorem SegmentShared.unlock :
    SegmentShared cfg k r { m with state := .freeForCopy } dq := trivial

theorem Working.lock (h : Working cfg k r dq m) (hm : m.state = .taskAvailable) (hq : q ≠ r) :
    Working cfg k r dq { m with state := .rank q } :=
  ⟨h.dequeue, h.segment.lock hm hq, by simpa using hq⟩

theorem Working.unlock (h : Working cfg k r dq m) :
    Working cfg k r dq { m with state := .freeForCopy } :=
  ⟨h.dequeue, SegmentShared.unlock, nofun⟩

theorem Leaving.unlock (h : Leaving cfg k r dq m) :
    Leaving cfg k r dq { m with state := .freeForCopy } :=
  ⟨h.dequeue, SegmentShared.unlock, nofun, nofun⟩

theorem Looking.lock (h : Looking cfg k r dq m) (hm : m.state = .taskAvailable) (hq : q ≠ r) :
    Looking cfg k r dq { m with state := .rank q } :=
  ⟨h.dequeue, h.segment.lock hm hq, nofun, fun hs => absurd (TaskLock.rank.inj hs) hq⟩

theorem Looking.unlock (h : Looking cfg k r dq m) :
    Looking cfg k r dq { m with state := .freeForCopy } :=
  ⟨h.dequeue, SegmentShared.unlock, nofun, nofun⟩

/-- The points at which another rank may hold the lock of the segment or take it. -/
def Open (t : RankTasks n) : Prop :=
  match t.pc with
  | .preparing | .loopHead | .returning .full | .loopBody | .flushing | .solving | .solved |
    .switching | .detecting | .returning .last | .waiting | .spinning | .aborted _ => True
  | _ => False

/-- At every other point the state word is one that no thief acts on. -/
theorem PcOk.state_of_not_open (h : PcOk cfg r t) (ho : ¬ Open t) :
    t.seg.state = .noTask ∨ t.seg.state = .freeForCopy ∨ t.seg.state = .rank r := by
  obtain ⟨pc, dq, seg, tmp, session, finished, executed, log⟩ := t
  cases pc with
  | idle => exact .inl h.1.state
  | barrier | ready | working | opening => exact .inl h.1
  | balancing => exact .inl h.state
  | reading v => exact .inl h.1.state
  | readingRest v | unlockingVictim v | unlockingSelf old => exact .inr (.inr h.1)
  | starting =>
    rcases h.1 with h | h
    · exact .inl h
    · exact .inr (.inl h)
  | refilling site =>
    cases site with
    | start => exact .inl h.1
    | selfTheft => exact .inr (.inr h.1)
  | refilled site comp =>
    cases site with
    | start => exact .inl h.2.1
    | selfTheft => exact .inr (.inr h.2.1)
  | sharing | shared | unlockingWait => exact .inr (.inl h.1)
  | returning site =>
    cases site with
    | thief => exact .inl h.state
    | full | last => exact absurd trivial ho
  | preparing | loopHead | loopBody | flushing | solving | solved | switching | detecting
  | waiting | spinning | aborted => exact absurd trivial ho

/-- At an open point, what holds of the rank survives a change of the state word that its summary
there survives. -/
theorem PcOk.withState (h : PcOk cfg r t) (ho : Open t) {state : TaskLock n}
    (hwork : Working cfg t.current r t.dq t.seg →
      Working cfg t.current r t.dq { t.seg with state })
    (hlook : Looking cfg t.current r t.dq t.seg →
      Looking cfg t.current r t.dq { t.seg with state })
    (hleave : Leaving cfg t.current r t.dq t.seg →
      Leaving cfg t.current r t.dq { t.seg with state })
    (hstate : state ≠ .taskAvailable) : PcOk cfg r (Tasks.withState t state) := by
  obtain ⟨pc, dq, seg, tmp, session, finished, executed, log⟩ := t
  cases pc with
  | preparing | loopBody | flushing | solving | solved => exact ⟨hwork h.1, h.2⟩
  | loopHead => exact ⟨hwork h.1, h.2.1, fun _ => hstate⟩
  | switching | detecting => exact ⟨hlook h.1, h.2⟩
  | waiting | spinning => exact ⟨hleave h.1, h.2⟩
  | aborted a => exact ⟨h.1, hwork h.2.1, h.2.2⟩
  | returning site =>
    cases site with
    | full => exact ⟨hwork h.1, h.2⟩
    | last => exact ⟨hleave h.1, h.2⟩
    | thief => exact absurd ho id
  | idle | barrier | ready | balancing | reading | readingRest | unlockingVictim | unlockingSelf
  | working | opening | starting | refilling | refilled | sharing | shared | unlockingWait =>
    exact absurd ho id

theorem RankOk.withState (h : RankOk cfg r t) {state : TaskLock n}
    (hpc : PcOk cfg r (Tasks.withState t state)) : RankOk cfg r (Tasks.withState t state) :=
  ⟨hpc, h.session, h.accepts⟩

theorem RankOk.open_of_available (h : RankOk cfg r t) (ht : t.seg.state = .taskAvailable) :
    Open t := by
  by_contra ho
  rcases h.pc.state_of_not_open ho with h | h | h <;> rw [ht] at h <;> cases h

theorem RankOk.open_of_rank (h : RankOk cfg r t) (ht : t.seg.state = .rank q) (hq : q ≠ r) :
    Open t := by
  by_contra ho
  rcases h.pc.state_of_not_open ho with h | h | h <;> rw [ht] at h <;> cases h
  exact hq rfl

/-- A thief may lock an available segment. -/
theorem RankOk.lock (h : RankOk cfg r t) (ht : t.seg.state = .taskAvailable) (hq : q ≠ r) :
    RankOk cfg r (Tasks.withState t (.rank q)) :=
  h.withState (h.pc.withState (h.open_of_available ht) (fun hw => hw.lock ht hq)
    (fun hl => hl.lock ht hq) (fun hl => absurd ht hl.notAvailable) nofun)

/-- A thief may unlock the segment that it holds. -/
theorem RankOk.unlock (h : RankOk cfg r t) (ht : t.seg.state = .rank q) (hq : q ≠ r) :
    RankOk cfg r (Tasks.withState t .freeForCopy) :=
  h.withState (h.pc.withState (h.open_of_rank ht hq) Working.unlock Looking.unlock
    Leaving.unlock nofun)

/-- At an open point the state word says what is on the segment. -/
theorem PcOk.shared (h : PcOk cfg r t) (ho : Open t) :
    SegmentShared cfg t.current r t.seg t.dq := by
  obtain ⟨pc, dq, seg, tmp, session, finished, executed, log⟩ := t
  cases pc with
  | preparing | loopBody | flushing | solving | loopHead | solved => exact h.1.segment
  | switching | detecting => exact h.1.segment
  | waiting | spinning => exact h.1.segment
  | aborted a => exact h.2.1.segment
  | returning site =>
    cases site with
    | full | last => exact h.1.segment
    | thief => exact absurd ho id
  | idle | barrier | ready | balancing | reading | readingRest | unlockingVictim | unlockingSelf
  | working | opening | starting | refilling | refilled | sharing | shared | unlockingWait =>
    exact absurd ho id

/-- A segment that is available or locked by a thief holds a batch. -/
theorem RankOk.liveBatch (h : RankOk cfg r t)
    (ht : t.seg.state = .taskAvailable ∨ ∃ q, t.seg.state = .rank q ∧ q ≠ r) :
    LiveBatch cfg t.current t.seg := by
  have ho : Open t := by
    rcases ht with ht | ⟨q, ht, hq⟩
    · exact h.open_of_available ht
    · exact h.open_of_rank ht hq
  have hshared := h.pc.shared ho
  unfold SegmentShared at hshared
  rcases ht with ht | ⟨q, ht, -⟩ <;> rw [ht] at hshared <;> exact hshared.1

/-- What the tmp segment has when there are results in it. -/
theorem RankOk.tmpOk (h : RankOk cfg r t) (hnb : t.tmp.nbResult ≠ 0) :
    TmpOk cfg t.current t.dq t.tmp := by
  have hpc := h.pc
  clear h
  obtain ⟨pc, dq, seg, tmp, session, finished, executed, log⟩ := t
  cases pc with
  | loopHead => exact hpc.2.1
  | loopBody | flushing | solving => exact hpc.2.2
  | solved | switching | detecting => exact hpc.2
  | refilling site =>
    cases site with
    | start => exact absurd hpc.2.1 hnb
    | selfTheft => exact hpc.2.2.1
  | refilled site comp =>
    cases site with
    | start => exact absurd hpc.2.2.1 hnb
    | selfTheft => exact hpc.2.2.1
  | sharing => exact hpc.2.2
  | shared => exact hpc.2.2.1
  | aborted a => exact hpc.2.2
  | returning site =>
    cases site with
    | full => exact hpc.2.2.resolve_left hnb
    | last => exact (hpc.2.resolve_left hnb).2
    | thief => exact absurd hpc.results hnb
  | idle => exact absurd hpc.1.results hnb
  | balancing => exact absurd hpc.results hnb
  | reading v => exact absurd hpc.1.results hnb
  | barrier | ready | readingRest | unlockingVictim | unlockingSelf =>
    exact absurd hpc.2.2.1 hnb
  | working | opening | starting => exact absurd hpc.2.1 hnb
  | waiting | spinning => exact absurd hpc.2 hnb
  | preparing | unlockingWait => exact absurd hpc.2.2 hnb

/-- What the dequeue has when there are tasks in it. -/
theorem RankOk.dequeueOk (h : RankOk cfg r t) (hnb : 0 < t.dq.nbTask) :
    DequeueOk cfg t.current t.dq := by
  have hpc := h.pc
  clear h
  have hrest : t.dq.head = t.dq.tail → DequeueOk cfg t.current t.dq := by
    intro hdq
    rw [Dequeue.nbTask, hdq, Nat.sub_self] at hnb
    exact absurd hnb (lt_irrefl _)
  have hzero : t.dq.nbTask = 0 → DequeueOk cfg t.current t.dq := fun h0 => by omega
  have hstart : StartOk cfg t.current t.dq t.seg → DequeueOk cfg t.current t.dq := by
    rintro (⟨hdq, -, -⟩ | ⟨-, h0, -⟩)
    · exact hdq
    · exact hzero h0
  obtain ⟨pc, dq, seg, tmp, session, finished, executed, log⟩ := t
  cases pc with
  | idle => exact hrest hpc.1.dequeue
  | barrier | ready => exact hpc.2.2.2
  | balancing => exact hrest hpc.dequeue
  | reading v => exact hrest hpc.1.dequeue
  | readingRest | unlockingVictim | unlockingSelf => exact hzero hpc.2.1
  | working => exact hstart hpc.2.2
  | starting => exact hstart hpc.2.2
  | opening => exact hpc.2.2.1
  | refilling site =>
    cases site with
    | start => exact hzero hpc.2.2.1
    | selfTheft => exact hzero hpc.2.1
  | refilled site comp =>
    cases site with
    | start => exact hpc.2.2.2.dequeue
    | selfTheft => exact hpc.2.2.2.dequeue
  | preparing | loopHead | loopBody | flushing | solving | solved | switching | detecting =>
    exact hpc.1.dequeue
  | sharing | shared => exact hpc.2.1
  | aborted a => exact hpc.2.1.dequeue
  | returning site =>
    cases site with
    | full => exact hpc.1.dequeue
    | last => exact hrest hpc.1.dequeue
    | thief => exact hrest hpc.dequeue
  | waiting | spinning => exact hrest hpc.1.dequeue
  | unlockingWait => exact hrest hpc.2.1

end Locks

/-! ### The steps of the rank itself -/

section Steps

variable {t t' : RankTasks n} {dq : Dequeue n} {m : MetadataTask n} {tmp : MetadataTmp n}

/-- After a refill the lock is released: the segment is shared again if it still has tasks. -/
theorem Refilled.release (h : Refilled cfg k dq m) {state : TaskLock n}
    (hstate : state = if m.nbTask = 0 then .noTask else .taskAvailable) :
    Working cfg k r dq { m with state } := by
  subst hstate
  split
  · rename_i h0
    exact ⟨h.dequeue, h0, nofun⟩
  · have hpos : 1 ≤ m.nbTask := by omega
    exact ⟨h.dequeue, ⟨LiveBatch.withState ⟨h.batch, hpos⟩ _, (h.precedes hpos).withState _⟩, nofun⟩

/-- After the segment was filled it is shared, unless there was nothing to share. -/
theorem Working.release (hdq : DequeueOk cfg k dq)
    (h : m.nbTask = 0 ∨ LiveBatch cfg k m ∧ Precedes m dq ∧ 0 < dq.nbTask) {state : TaskLock n}
    (hstate : state = if m.nbTask = 0 then .noTask else .taskAvailable) :
    Working cfg k r dq { m with state } ∧ (dq.nbTask = 0 → state ≠ .taskAvailable) := by
  subst hstate
  rcases h with h | ⟨h1, h2, h3⟩
  · rw [if_pos h]
    exact ⟨⟨hdq, h, nofun⟩, nofun⟩
  · have hpos := h1.pos
    rw [if_neg (by omega)]
    exact ⟨⟨hdq, ⟨h1.withState _, h2.withState _⟩, nofun⟩, fun h0 => absurd h0 (by omega)⟩

theorem Working.looking (h : Working cfg k r dq m)
    (hst : dq.nbTask = 0 → m.state ≠ .taskAvailable) : Looking cfg k r dq m :=
  ⟨h.dequeue, h.segment, hst, fun hs => absurd hs h.notSelf⟩

/-- With an empty dequeue the rank locks its own segment, if that is available. -/
theorem Working.lockSelf (h : Working cfg k r dq m) (h0 : dq.nbTask = 0)
    (hst : m.state = .taskAvailable) : Looking cfg k r dq { m with state := .rank r } := by
  have hseg := h.segment
  simp only [SegmentShared, hst] at hseg
  exact ⟨h.dequeue, ⟨hseg.1.withState _, fun _ => hseg.2.withState _⟩, by rintro _ ⟨⟩,
    fun _ => h0⟩

theorem Looking.working (h : Looking cfg k r dq m) (hs : m.state ≠ .rank r) :
    Working cfg k r dq m :=
  ⟨h.dequeue, h.segment, hs⟩

/-- Executing a task keeps the rank in its work loop. -/
theorem Working.dropTask (h : Working cfg k r dq m) (hpos : 0 < dq.nbTask) (c : ℕ) :
    Working cfg k r (Tasks.dropTask dq) { m with privateTasksCount := c } := by
  refine ⟨h.dequeue.dropTask hpos, ?_, h.notSelf⟩
  refine h.segment.congr rfl rfl
    (fun hl => hl.of_same ⟨rfl, rfl, rfl, rfl, rfl, rfl, rfl, Agrees.refl _ _ _⟩)
    fun hp => ⟨hp.owner, ?_⟩
  have := hp.endTaskId
  rw [nbTask_dropTask]
  simp only [Tasks.dropTask]
  omega

theorem Working.leaving (h : Working cfg k r dq m) (h0 : dq.head = dq.tail)
    (hna : m.state ≠ .taskAvailable) : Leaving cfg k r dq m :=
  ⟨h0, h.segment, h.notSelf, hna⟩

theorem tail_eq_head_iff (h : dq.head ≤ dq.tail) : dq.tail = dq.head ↔ dq.nbTask = 0 := by
  unfold Dequeue.nbTask
  omega

theorem pos_of_tail_ne_head (h : dq.head ≤ dq.tail) (hne : dq.tail ≠ dq.head) : 0 < dq.nbTask :=
  Nat.pos_of_ne_zero fun h0 => hne ((tail_eq_head_iff h).mpr h0)

/-- The assertions on the state word hold. -/
theorem PcOk.not_fails (h : PcOk cfg r t) (a : Assertion) : ¬ Fails t a := by
  intro hf
  cases hf with
  | working hpc hst =>
    simp only [PcOk, hpc] at h
    exact hst h.1
  | opening hpc hst =>
    simp only [PcOk, hpc] at h
    exact hst h.1
  | loopHead hpc hempty hst =>
    simp only [PcOk, hpc] at h
    obtain ⟨hwork, -, hna⟩ := h
    exact hna ((tail_eq_head_iff hwork.dequeue.head_le).mp hempty) hst
  | unlockingWait hpc hst =>
    simp only [PcOk, hpc] at h
    exact hst h.1

/-- A step to another point that changes nothing else. -/
theorem PcOk.move {pc : WorkPc n} (h : PcOk cfg r t) (hm : Moved r t pc) :
    PcOk cfg r { t with pc } := by
  cases hm with
  | readyWorking hpc hnb =>
    simp only [PcOk, hpc] at h
    obtain ⟨hstate, hzero, htmp, hdq⟩ := h
    exact ⟨hstate, htmp, .own hdq hnb hzero⟩
  | readyReturning hpc hnb =>
    simp only [PcOk, hpc] at h
    obtain ⟨hstate, -, htmp, hdq⟩ := h
    exact ⟨hstate, ((tail_eq_head_iff hdq.head_le).mpr hnb).symm, htmp⟩
  | workingOpening hpc hst hmin =>
    simp only [PcOk, hpc] at h
    obtain ⟨hstate, htmp, hstart⟩ := h
    cases hstart with
    | own hdq hpos hzero => exact ⟨hstate, htmp, hdq, hpos, hzero⟩
    | stolen _ hempty => exact absurd hmin (by omega)
  | workingStarting hpc =>
    simp only [PcOk, hpc] at h
    exact ⟨.inl h.1, h.2⟩
  | startingRefilling hpc hnb =>
    simp only [PcOk, hpc] at h
    obtain ⟨-, htmp, hstart⟩ := h
    cases hstart with
    | own _ _ hzero => exact absurd hnb (by omega)
    | stolen hstate hempty hlive => exact ⟨hstate, htmp, hempty, hlive⟩
  | startingPreparing hpc hnb =>
    simp only [PcOk, hpc] at h
    obtain ⟨hstate, htmp, hstart⟩ := h
    cases hstart with
    | own hdq hpos hzero =>
      refine ⟨⟨hdq, ?_, ?_⟩, hpos, htmp⟩
      · rcases hstate with hs | hs <;> simp only [SegmentShared, hs]
        exact hzero
      · rcases hstate with hs | hs <;> rw [hs] <;> rintro ⟨⟩
    | stolen _ _ hlive => exact absurd hnb (Nat.ne_of_gt hlive.pos)
  | headLast hpc hempty hst =>
    simp only [PcOk, hpc] at h
    obtain ⟨hwork, htmp, -⟩ := h
    exact ⟨hwork.leaving hempty.symm hst, .inr ⟨hwork.dequeue, htmp⟩⟩
  | headFull hpc hne =>
    simp only [PcOk, hpc] at h
    obtain ⟨hwork, htmp, -⟩ := h
    exact ⟨hwork, pos_of_tail_ne_head hwork.dequeue.head_le hne, .inr htmp⟩
  | headBody hpc hne =>
    simp only [PcOk, hpc] at h
    obtain ⟨hwork, htmp, -⟩ := h
    exact ⟨hwork, pos_of_tail_ne_head hwork.dequeue.head_le hne, htmp⟩
  | headAborted hpc =>
    simp only [PcOk, hpc] at h
    exact ⟨rfl, h.1, h.2.1⟩
  | returningLast hpc hnb =>
    simp only [PcOk, hpc] at h
    exact ⟨h.1, hnb⟩
  | returningThief hpc | bodyFlushing hpc | bodySolving hpc | flushing hpc =>
    simp only [PcOk, hpc] at h
    exact h
  | solved hpc hst =>
    simp only [PcOk, hpc] at h
    obtain ⟨hwork, htmp⟩ := h
    exact ⟨hwork.looking hst, htmp⟩
  | switchingHead hpc hst =>
    simp only [PcOk, hpc] at h
    obtain ⟨hlook, htmp⟩ := h
    exact ⟨hlook.working (hst.2 r), htmp, hlook.notAvailable⟩
  | switchingSharing hpc hst =>
    simp only [PcOk, hpc] at h
    exact ⟨hst, h.1.dequeue, h.2⟩
  | switchingDetecting q hpc =>
    simp only [PcOk, hpc] at h
    exact h
  | detectingRefilling hpc hst =>
    simp only [PcOk, hpc] at h
    obtain ⟨hlook, htmp⟩ := h
    have hseg := hlook.segment
    simp only [SegmentShared, hst] at hseg
    exact ⟨hst, hlook.self hst, htmp, hseg.1, hseg.2 trivial⟩
  | detectingHead hpc hst =>
    simp only [PcOk, hpc] at h
    obtain ⟨hlook, htmp⟩ := h
    exact ⟨hlook.working hst, htmp, hlook.notAvailable⟩
  | waitingSpinning hpc | spinning hpc =>
    simp only [PcOk, hpc] at h
    exact h
  | waitingReturning hpc hst =>
    simp only [PcOk, hpc] at h
    exact ⟨hst, h.1.dequeue, h.2⟩
  | spinningUnlocking hpc hst =>
    simp only [PcOk, hpc] at h
    exact ⟨hst, h.1.dequeue, h.2⟩

/-- Half of a batch at least, and all of a batch of one, goes to the dequeue. -/
theorem PcOk.refilling {site : RefillSite} (h : PcOk cfg r t) (hpc : t.pc = .refilling site) :
    PcOk cfg r { t with
      dq := (moveTaskFromMySegmentToMyDequeue t.dq t.seg).1
      seg := (moveTaskFromMySegmentToMyDequeue t.dq t.seg).2
      pc := .refilled site (moveTaskFromMySegmentToMyDequeue t.dq t.seg).2.state } := by
  have hstate' := state_moveToDequeue t.dq t.seg
  cases site with
  | start =>
    simp only [PcOk, hpc] at h
    obtain ⟨hstate, htmp, h0, hlive⟩ := h
    obtain ⟨h1, h2, h3, h4, -, -⟩ := hlive.moveToDequeue t.dq
    exact ⟨hstate'.trans hstate, hstate'.trans hstate, htmp, ⟨h1, h3, h2, h4⟩⟩
  | selfTheft =>
    simp only [PcOk, hpc] at h
    obtain ⟨hstate, h0, htmp, hlive, hprec⟩ := h
    obtain ⟨h1, h2, h3, h4, h5, h6⟩ := hlive.moveToDequeue t.dq
    refine ⟨hstate'.trans hstate, hstate'.trans hstate,
      htmp.of_same (h6.trans hprec.owner) (h5.trans ?_), ⟨h1, h3, h2, h4⟩⟩
    have := hprec.endTaskId
    omega

/-- The rank releases the lock of its segment after a refill. -/
theorem PcOk.refilled {site : RefillSite} {comp : TaskLock n} (h : PcOk cfg r t)
    (hpc : t.pc = .refilled site comp) {state : TaskLock n}
    (hst : state = if t.seg.nbTask = 0 then .noTask else .taskAvailable) (log : Counters) :
    PcOk cfg r { Tasks.withState t state with log, pc := site.resume } := by
  cases site with
  | start =>
    simp only [PcOk, hpc] at h
    obtain ⟨-, -, htmp, href⟩ := h
    exact ⟨href.release hst, href.pos, htmp⟩
  | selfTheft =>
    simp only [PcOk, hpc] at h
    obtain ⟨-, -, htmp, href⟩ := h
    exact ⟨href.release hst, htmp, fun h0 => absurd h0 (Nat.pos_iff_ne_zero.mp href.pos)⟩

/-- At the end of a refill the state word is the one that the lock is compared with. -/
theorem PcOk.state_eq_comp {site : RefillSite} {comp : TaskLock n} (h : PcOk cfg r t)
    (hpc : t.pc = .refilled site comp) : t.seg.state = comp := by
  cases site with
  | start =>
    simp only [PcOk, hpc] at h
    exact h.2.1.trans h.1.symm
  | selfTheft =>
    simp only [PcOk, hpc] at h
    exact h.2.1.trans h.1.symm

/-- Before a refill the dequeue is empty and there is a batch on the segment. -/
theorem PcOk.refill {site : RefillSite} (h : PcOk cfg r t) (hpc : t.pc = .refilling site) :
    t.dq.nbTask = 0 ∧ LiveBatch cfg t.current t.seg := by
  cases site with
  | start =>
    simp only [PcOk, hpc] at h
    exact h.2.2
  | selfTheft =>
    simp only [PcOk, hpc] at h
    exact ⟨h.2.1, h.2.2.2.1⟩

/-- The assertions at the end of a theft hold. -/
theorem PcOk.pc_eq_working {old : TaskLock n} {pc : WorkPc n} (h : PcOk cfg r t)
    (hpc : t.pc = .unlockingSelf old) (hnext : pc = .working ∨
      (∃ a, pc = .aborted a) ∧ (old ≠ .rank r ∨ t.seg.state ≠ .rank r)) : pc = .working := by
  simp only [PcOk, hpc] at h
  rcases hnext with hnext | ⟨-, hold | hstate⟩
  · exact hnext
  · exact absurd h.2.2.2.1 hold
  · exact absurd h.1 hstate

theorem PcOk.sharing (h : PcOk cfg r t) (hacc : cfg.Accepts t.current) (hpc : t.pc = .sharing) :
    PcOk cfg r { t with
      dq := (moveTaskFromMyDequeueToMySegment cfg r t.dq t.seg).1
      seg := (moveTaskFromMyDequeueToMySegment cfg r t.dq t.seg).2
      pc := .shared } := by
  simp only [PcOk, hpc] at h
  obtain ⟨hstate, hdq, htmp⟩ := h
  obtain ⟨h1, h2⟩ := hdq.moveToSegment (r := r) hacc t.seg
  obtain ⟨h3, h4⟩ := owner_moveToSegment cfg r t.dq t.seg
  exact ⟨(state_moveToSegment cfg r t.dq t.seg).trans hstate, h1, htmp.of_same h3 h4,
    h2.imp_left And.left⟩

/-- Every step that `localNext` makes keeps what holds of the rank at its point. -/
theorem PcOk.localNext (h : PcOk cfg r t) (hacc : t.pc ≠ .idle → cfg.Accepts t.current) {b : Bool}
    (hs : localNext cfg r t b = some t') : PcOk cfg r t' := by
  cases localStepped_of_localNext hs with
  | move pc hm => exact h.move hm
  | failed a hf => exact absurd hf (h.not_fails a)
  | opening hpc =>
    simp only [PcOk, hpc] at h
    obtain ⟨hstate, htmp, hdq, hpos, hnb⟩ := h
    exact ⟨.inr rfl, htmp, .own hdq hpos hnb⟩
  | refilling site hpc => exact h.refilling hpc
  | refilled site comp state hpc hst =>
    rw [if_pos (h.state_eq_comp hpc)] at hst
    exact h.refilled hpc hst _
  | preparing hpc =>
    simp only [PcOk, hpc] at h
    obtain ⟨hwork, hpos, htmp⟩ := h
    exact ⟨hwork, TmpOk.initTmp hwork.dequeue t.tmp,
      fun h0 => absurd h0 (Nat.pos_iff_ne_zero.mp hpos)⟩
  | returningFull hpc =>
    simp only [PcOk, hpc] at h
    obtain ⟨hwork, hpos, -⟩ := h
    exact ⟨hwork, hpos, TmpOk.initTmp hwork.dequeue t.tmp⟩
  | solving hpc =>
    simp only [PcOk, hpc] at h
    obtain ⟨hwork, hpos, htmp⟩ := h
    exact ⟨hwork.dropTask hpos _, htmp.storeResult hwork.dequeue hpos⟩
  | lockingSelf hpc hnb hst =>
    simp only [PcOk, hpc] at h
    obtain ⟨hwork, htmp⟩ := h
    exact ⟨hwork.lockSelf hnb hst, htmp⟩
  | sharing hpc => exact h.sharing (hacc (by rw [hpc]; rintro ⟨⟩)) hpc
  | shared hpc =>
    simp only [PcOk, hpc] at h
    obtain ⟨-, hdq, htmp, hseg⟩ := h
    obtain ⟨h1, h2⟩ := Working.release (r := r) hdq hseg rfl
    exact ⟨h1, htmp, h2⟩
  | sharedFailed hpc hst =>
    simp only [PcOk, hpc] at h
    exact absurd h.1 hst
  | unlockingWait hpc =>
    simp only [PcOk, hpc] at h
    exact ⟨rfl, h.2.1, h.2.2⟩
  | unlockingSelf old pc hpc hnext =>
    obtain rfl := h.pc_eq_working hpc hnext
    simp only [PcOk, hpc] at h
    obtain ⟨-, h0, htmp, -, hlive⟩ := h
    exact ⟨rfl, htmp, .stolen rfl h0 (hlive.withState _)⟩

end Steps

end Titus.Tasks
