import Titus.Tasks.LocalInvariant

/-! The lock protocol of the task segments over all ranks: a rank is in the middle of a theft from
another exactly when the state word there is its rank, and what it has read is the victim's batch.
Every step keeps this, so that no assertion of the protocol fails. -/

namespace Titus.Tasks

open Memory

variable {n : ℕ} {cfg : Config n} {r : Fin n}

/-- The rank whose segment a rank at this point has locked. -/
def WorkPc.victim : WorkPc n → Option (Fin n)
  | .reading v | .readingRest v | .unlockingVictim v => some v
  | _ => none

/-- Past the barrier of `set_problem`. -/
def InSession (pc : WorkPc n) : Prop := pc ≠ .idle ∧ pc ≠ .barrier

/-- What holds of all ranks together. -/
structure ProtocolOk (cfg : Config n) (s : State n) : Prop where
  rank : ∀ r, RankOk cfg r (s r)
  lock : ∀ v q, q ≠ v → ((s v).seg.state = .rank q ↔ (s q).pc.victim = some v)
  readFirst : ∀ q v, (s q).pc = .readingRest v →
    SameBatch (s v).seg (s q).seg (sizeFirstRead - sizeofMetadataTask)
  readAll : ∀ q v, (s q).pc = .unlockingVictim v →
    SameBatch (s v).seg (s q).seg ((s v).seg.nbTask * (s v).seg.taskSize)
  session : ∀ r, InSession (s r).pc → ∀ q, (s r).session ≤ (s q).session

/-! ### What the steps of a rank do to its own segment -/

section Local

variable {t t' : RankTasks n} {q : Fin n} {b : Bool}

theorem SameBatch.refl (m : MetadataTask n) (len : ℕ) : SameBatch m m len :=
  ⟨rfl, rfl, rfl, rfl, rfl, rfl, rfl, Agrees.refl _ _ _⟩

theorem SameBatch.trans {m m' m'' : MetadataTask n} {len : ℕ} (h : SameBatch m m' len)
    (h' : SameBatch m' m'' len) : SameBatch m m'' len :=
  ⟨h'.segmentSize.trans h.segmentSize, h'.ownerTaskRank.trans h.ownerTaskRank,
    h'.nbTask.trans h.nbTask, h'.endTaskId.trans h.endTaskId, h'.taskSize.trans h.taskSize,
    h'.resultSize.trans h.resultSize, h'.ptrTaskFunction.trans h.ptrTaskFunction,
    h'.tasks.trans h.tasks⟩

theorem SameBatch.symm {m m' : MetadataTask n} {len : ℕ} (h : SameBatch m m' len) :
    SameBatch m' m len :=
  ⟨h.segmentSize.symm, h.ownerTaskRank.symm, h.nbTask.symm, h.endTaskId.symm, h.taskSize.symm,
    h.resultSize.symm, h.ptrTaskFunction.symm, h.tasks.symm⟩

/-- A step of a rank leaves its session as it is, and does not start or end a theft. -/
theorem localNext_frame (hs : localNext cfg r t b = some t') :
    t'.session = t.session ∧ t'.finished = t.finished ∧ t.pc ≠ .idle ∧ t.pc ≠ .barrier ∧
      t'.pc ≠ .idle ∧ t'.pc ≠ .barrier ∧ t.pc.victim = none ∧ t'.pc.victim = none := by
  have hst := localStepped_of_localNext hs
  clear hs
  cases hst with
  | move pc hm => cases hm <;> simp [*, WorkPc.victim]
  | failed a hf => cases hf <;> simp [*, WorkPc.victim]
  | refilled site comp state hpc =>
    cases site <;> simp [hpc, WorkPc.victim, RefillSite.resume, withState]
  | unlockingSelf old pc hpc hnext =>
    rcases hnext with rfl | ⟨⟨a, rfl⟩, -⟩ <;> simp [hpc, WorkPc.victim, withState]
  | opening hpc | refilling _ hpc | preparing hpc | returningFull hpc | solving hpc
  | lockingSelf hpc | sharing hpc | shared hpc | sharedFailed hpc | unlockingWait hpc =>
    simp [hpc, WorkPc.victim, withState, doNextTask]

/-- While a thief holds the lock, the rank changes neither the state word nor the batch. -/
theorem localNext_locked (h : RankOk cfg r t) (hst : t.seg.state = .rank q) (hq : q ≠ r)
    (hs : localNext cfg r t b = some t') :
    t'.seg.state = .rank q ∧ ∀ len, SameBatch t.seg t'.seg len := by
  have ho := h.open_of_rank hst hq
  cases localStepped_of_localNext hs with
  | move | failed | preparing | returningFull | sharedFailed => exact ⟨hst, SameBatch.refl _⟩
  | solving => exact ⟨hst, fun len => ⟨rfl, rfl, rfl, rfl, rfl, rfl, rfl, Agrees.refl _ _ _⟩⟩
  | refilling site hpc => cases site <;> simp only [Open, hpc] at ho
  | refilled site comp state hpc => cases site <;> simp only [Open, hpc] at ho
  | sharing hpc | unlockingSelf old pc hpc => simp only [Open, hpc] at ho
  | opening hpc hfree | lockingSelf hpc hnb hfree | shared hpc hfree | unlockingWait hpc hfree =>
    rw [hst] at hfree
    cases hfree

/-- No other rank holds the lock that the state word `state` of rank `r` describes. -/
def Unlocked (r : Fin n) (state : TaskLock n) : Prop := ∀ q ≠ r, state ≠ .rank q

theorem unlocked_ite (r : Fin n) (c : Prop) [Decidable c] :
    Unlocked r (if c then .noTask else .taskAvailable) := by
  split <;> exact fun _ _ => nofun

/-- A rank gives the lock of its segment to no other rank. -/
theorem localNext_unlocked (h : Unlocked r t.seg.state) (hs : localNext cfg r t b = some t') :
    Unlocked r t'.seg.state := by
  cases localStepped_of_localNext hs with
  | move | failed | preparing | returningFull | solving | sharedFailed => exact h
  | opening | unlockingWait | unlockingSelf => exact fun _ _ => by rintro ⟨⟩
  | refilling => exact (state_moveToDequeue t.dq t.seg).symm ▸ h
  | sharing => exact (state_moveToSegment cfg r t.dq t.seg).symm ▸ h
  | lockingSelf =>
    intro q hq
    simpa [withState] using hq.symm
  | shared => exact unlocked_ite r _
  | refilled site comp state hpc hst =>
    subst hst
    by_cases hcomp : t.seg.state = comp
    · rw [if_pos hcomp]
      exact unlocked_ite r _
    · rw [if_neg hcomp]
      exact h

end Local

/-! ### Steps that change one rank -/

section Update

variable {s : State n} {t' : RankTasks n}

theorem RankOk.ne_of_victim {t : RankTasks n} (h : RankOk cfg r t) {v : Fin n}
    (hv : t.pc.victim = some v) : v ≠ r := by
  have hpc := h.pc
  unfold WorkPc.victim at hv
  split at hv <;> rename_i hp <;> cases hv <;> simp only [PcOk, hp] at hpc
  · exact hpc.2
  · exact hpc.2.2.2
  · exact hpc.2.2.2

/-- A step of rank `r` alone keeps the protocol if it does not touch the locks of others, keeps a
batch that is being read, and reads what the victim has. -/
theorem ProtocolOk.update (h : ProtocolOk cfg s) (hr : RankOk cfg r t')
    (hlock : ∀ q ≠ r, t'.seg.state = .rank q ↔ (s r).seg.state = .rank q)
    (hvictim : t'.pc.victim = (s r).pc.victim)
    (hbatch : ∀ q ≠ r, (s r).seg.state = .rank q → ∀ len, SameBatch (s r).seg t'.seg len)
    (hfirst : ∀ v ≠ r, t'.pc = .readingRest v →
      SameBatch (s v).seg t'.seg (sizeFirstRead - sizeofMetadataTask))
    (hall : ∀ v ≠ r, t'.pc = .unlockingVictim v →
      SameBatch (s v).seg t'.seg ((s v).seg.nbTask * (s v).seg.taskSize))
    (hmono : (s r).session ≤ t'.session)
    (hsession : InSession t'.pc → ∀ q, t'.session ≤ (s q).session) :
    ProtocolOk cfg (Function.update s r t') := by
  have hpc : ∀ q, (Function.update s r t' q).pc.victim = (s q).pc.victim := by
    intro q
    by_cases hq : q = r
    · subst hq
      rwa [Function.update_self]
    · rw [Function.update_of_ne hq]
  have hread : ∀ q v len, q ≠ r → (s q).pc.victim = some v → SameBatch (s v).seg (s q).seg len →
      SameBatch (Function.update s r t' v).seg (s q).seg len := by
    intro q v len hq hv hsame
    by_cases hvr : v = r
    · subst hvr
      rw [Function.update_self]
      exact (hbatch q hq ((h.lock v q hq).mpr hv) len).symm.trans hsame
    · rwa [Function.update_of_ne hvr]
  refine ⟨fun q => ?_, fun v q hqv => ?_, fun q v hv => ?_, fun q v hv => ?_, fun q hq p => ?_⟩
  · by_cases hq : q = r
    · subst hq
      rwa [Function.update_self]
    · rw [Function.update_of_ne hq]
      exact h.rank q
  · rw [hpc]
    by_cases hv : v = r
    · subst hv
      rw [Function.update_self, hlock q hqv]
      exact h.lock v q hqv
    · rw [Function.update_of_ne hv]
      exact h.lock v q hqv
  · by_cases hq : q = r
    · subst hq
      rw [Function.update_self] at hv ⊢
      have hne := hr.ne_of_victim (by rw [hv]; rfl)
      rw [Function.update_of_ne hne]
      exact hfirst v hne hv
    · rw [Function.update_of_ne hq] at hv ⊢
      exact hread q v _ hq (by rw [hv]; rfl) (h.readFirst q v hv)
  · by_cases hq : q = r
    · subst hq
      rw [Function.update_self] at hv ⊢
      have hne := hr.ne_of_victim (by rw [hv]; rfl)
      rw [Function.update_of_ne hne]
      exact hall v hne hv
    · rw [Function.update_of_ne hq] at hv ⊢
      have hsame := hread q v _ hq (by rw [hv]; rfl) (h.readAll q v hv)
      rwa [← hsame.nbTask, ← hsame.taskSize, (h.readAll q v hv).nbTask,
        (h.readAll q v hv).taskSize]
  · have hle : ∀ x, (s x).session ≤ (Function.update s r t' x).session := by
      intro x
      by_cases hx : x = r
      · subst hx
        rwa [Function.update_self]
      · rw [Function.update_of_ne hx]
    by_cases hqr : q = r
    · subst hqr
      rw [Function.update_self] at hq ⊢
      exact (hsession hq p).trans (hle p)
    · rw [Function.update_of_ne hqr] at hq ⊢
      exact (h.session q hq p).trans (hle p)

/-- A step that leaves the segment as it is and is not part of a theft. -/
theorem ProtocolOk.update_quiet (h : ProtocolOk cfg s) (hr : RankOk cfg r t')
    (hseg : t'.seg = (s r).seg) (hpc : (s r).pc.victim = none) (hpc' : t'.pc.victim = none)
    (hmono : (s r).session ≤ t'.session)
    (hsession : InSession t'.pc → ∀ q, t'.session ≤ (s q).session) :
    ProtocolOk cfg (Function.update s r t') := by
  refine h.update hr (fun q _ => by rw [hseg]) (hpc'.trans hpc.symm)
    (fun q _ _ len => hseg ▸ SameBatch.refl _ len) (fun v _ hv => ?_) (fun v _ hv => ?_) hmono
    hsession
  · rw [hv] at hpc'
    cases hpc'
  · rw [hv] at hpc'
    cases hpc'

/-- Own steps of a rank keep the protocol. -/
theorem ProtocolOk.local (h : ProtocolOk cfg s) {b : Bool}
    (hs : localNext cfg r (s r) b = some t') : ProtocolOk cfg (Function.update s r t') := by
  have hr := h.rank r
  obtain ⟨hsess, hfin, h1, h2, h3, -, hv, hv'⟩ := localNext_frame hs
  have hr' : RankOk cfg r t' := by
    refine ⟨hr.pc.localNext hr.accepts hs, ?_, fun _ => ?_⟩
    · have := hr.session
      unfold SessionOk at this ⊢
      split
      · exact absurd ‹_› h3
      · split at this
        · exact absurd ‹_› h1
        · rw [hsess, hfin, this]
    · have := hr.accepts h1
      rwa [RankTasks.current_congr hsess]
  refine h.update hr' (fun q hq => ?_) (hv'.trans hv.symm)
    (fun q hq hst len => (localNext_locked hr hst hq hs).2 len) (fun v _ hp => ?_)
    (fun v _ hp => ?_) hsess.symm.le fun _ p => ?_
  · by_cases hu : ∃ p ≠ r, (s r).seg.state = .rank p
    · obtain ⟨p, hp, hst⟩ := hu
      rw [(localNext_locked hr hst hp hs).1, hst]
    · have hun : Unlocked r (s r).seg.state := fun p hp hst => hu ⟨p, hp, hst⟩
      exact iff_of_false (localNext_unlocked hun hs q hq) (hun q hq)
  · rw [hp] at hv'
    cases hv'
  · rw [hp] at hv'
    cases hv'
  · rw [hsess]
    exact h.session r ⟨h1, h2⟩ p

/-- `set_problem` fills the dequeue with the tasks of the new problem. -/
theorem RankOk.setProblem (h : RankOk cfg r (s r)) (hpc : (s r).pc = .idle)
    (hacc : cfg.Accepts (s r).session) : RankOk cfg r (Tasks.setProblem cfg r (s r)) := by
  have hpcok := h.pc
  simp only [PcOk, hpc] at hpcok
  have hsess := h.session
  simp only [SessionOk, hpc] at hsess
  refine ⟨⟨hpcok.1.state, hpcok.2, rfl, ⟨Nat.zero_le _, ?_, le_rfl, rfl, rfl, rfl, ?_⟩⟩, ?_,
    fun _ => hacc⟩
  · simp [Tasks.setProblem, Dequeue.nbTask]
  · simp only [Tasks.setProblem, Dequeue.nbTask, RankTasks.current, Nat.sub_zero,
      Nat.add_sub_cancel, Nat.zero_mul, Nat.sub_self]
    rw [Nat.mul_comm (cfg.nbTask _ _)]
    exact agrees_copy _ _ _ _ _
  · simp only [SessionOk, Tasks.setProblem, hsess]

theorem ProtocolOk.setProblem (h : ProtocolOk cfg s) (hpc : (s r).pc = .idle)
    (hacc : cfg.Accepts (s r).session) :
    ProtocolOk cfg (Function.update s r (Tasks.setProblem cfg r (s r))) :=
  h.update_quiet ((h.rank r).setProblem hpc hacc) rfl (by rw [hpc]; rfl) rfl (Nat.le_succ _)
    fun hin => absurd rfl hin.2

theorem ProtocolOk.leaveBarrier (h : ProtocolOk cfg s) (hpc : (s r).pc = .barrier)
    (hall : ∀ q, (s r).session ≤ (s q).session) :
    ProtocolOk cfg (Function.update s r { s r with pc := .ready }) := by
  have hr := h.rank r
  have hpcok := hr.pc
  simp only [PcOk, hpc] at hpcok
  have hsess := hr.session
  simp only [SessionOk, hpc] at hsess
  exact h.update_quiet ⟨hpcok, hsess, fun _ => hr.accepts (by rw [hpc]; rintro ⟨⟩)⟩ rfl
    (by rw [hpc]; rfl) rfl le_rfl fun _ => hall

theorem ProtocolOk.finish (h : ProtocolOk cfg s) (hpc : (s r).pc = .balancing) :
    ProtocolOk cfg (Function.update s r
      { s r with seg := (s r).seg.reset, finished := (s r).finished + 1, pc := .idle }) := by
  have hr := h.rank r
  have hpcok := hr.pc
  simp only [PcOk, hpc] at hpcok
  have hsess := hr.session
  simp only [SessionOk, hpc] at hsess
  refine h.update ⟨⟨⟨rfl, hpcok.dequeue, hpcok.results⟩, rfl⟩, hsess, fun hne => absurd rfl hne⟩
    (fun q _ => ?_) (by rw [hpc]; rfl) (fun q _ hst => ?_)
    (fun _ _ => (by rintro ⟨⟩)) (fun _ _ => (by rintro ⟨⟩))
    le_rfl fun hin => absurd rfl hin.1
  · rw [hpcok.state]
    exact Iff.rfl
  · rw [hpcok.state] at hst
    cases hst

theorem ProtocolOk.pushed (h : ProtocolOk cfg s) {site : ReturnSite}
    (hpc : (s r).pc = .returning site) (size : ℕ) :
    ProtocolOk cfg (Function.update s r { s r with tmp := (s r).tmp.reset size }) := by
  have hr := h.rank r
  have hpcok := hr.pc
  have hsess := hr.session
  simp only [SessionOk, hpc] at hsess
  have hpcok' : PcOk cfg r { s r with tmp := (s r).tmp.reset size } := by
    simp only [PcOk, hpc] at hpcok ⊢
    cases site with
    | full => exact ⟨hpcok.1, hpcok.2.1, .inl rfl⟩
    | last => exact ⟨hpcok.1, .inl rfl⟩
    | thief => exact ⟨hpcok.state, hpcok.dequeue, rfl⟩
  have hv : (s r).pc.victim = none := by rw [hpc]; rfl
  refine h.update_quiet ⟨hpcok', ?_, hr.accepts⟩ rfl hv hv le_rfl (fun hin => h.session r hin)
  simp only [SessionOk, hpc, hsess]

/-! ### The steps of a theft -/

/-- A theft that found the segment locked or empty. -/
theorem ProtocolOk.missed (h : ProtocolOk cfg s) (hpc : (s r).pc = .balancing) (log : Counters) :
    ProtocolOk cfg (Function.update s r { s r with log, pc := .returning .thief }) := by
  have hr := h.rank r
  have hpcok := hr.pc
  simp only [PcOk, hpc] at hpcok
  have hsess := hr.session
  simp only [SessionOk, hpc] at hsess
  exact h.update_quiet ⟨hpcok, hsess, fun _ => hr.accepts (by rw [hpc]; rintro ⟨⟩)⟩ rfl
    (by rw [hpc]; rfl) rfl le_rfl
    fun _ => h.session r ⟨by rw [hpc]; rintro ⟨⟩, by rw [hpc]; rintro ⟨⟩⟩

/-- What the first read brings, of `len` bytes of a segment of which they are a part or the
whole. -/
theorem sameBatch_readFirst (own victim : MetadataTask n) {len c : ℕ}
    (hc : c ≤ len - sizeofMetadataTask) : SameBatch victim (Tasks.readFirst own victim len) c :=
  ⟨rfl, rfl, rfl, rfl, rfl, rfl, rfl, (agrees_copy _ _ _ _ _).mono hc⟩

/-- The second read completes the first. -/
theorem sameBatch_readRest {own victim : MetadataTask n}
    (h : SameBatch victim own (sizeFirstRead - sizeofMetadataTask)) {c : ℕ}
    (hc : c + sizeofMetadataTask ≤ victim.segmentSize) :
    SameBatch victim (Tasks.readRest own victim) c := by
  refine ⟨h.segmentSize, h.ownerTaskRank, h.nbTask, h.endTaskId, h.taskSize, h.resultSize,
    h.ptrTaskFunction, ?_⟩
  have hlow : Agrees (Tasks.readRest own victim).tasks 0 victim.tasks 0
      (sizeFirstRead - sizeofMetadataTask) :=
    (agrees_copy_of_disjoint (by simp)).trans h.tasks
  have hsize := h.segmentSize
  have hhigh : Agrees (Tasks.readRest own victim).tasks (0 + (sizeFirstRead - sizeofMetadataTask))
      victim.tasks (0 + (sizeFirstRead - sizeofMetadataTask))
      (own.segmentSize - sizeFirstRead) := by
    simp only [Nat.zero_add]
    exact agrees_copy _ _ _ _ _
  have hall := hlow.append hhigh
  refine hall.mono ?_
  simp only [sizeFirstRead, sizeofMetadataTask_eq] at hc ⊢
  omega

/-- The tasks of a batch fill its segment. -/
theorem BatchOk.size_tasks {k : ℕ} {m : MetadataTask n} (h : BatchOk cfg k m) :
    m.nbTask * m.taskSize + sizeofMetadataTask = m.segmentSize := by
  rw [h.segmentSize, h.taskSize, Nat.mul_comm, Nat.add_comm]

theorem ProtocolOk.victim_locked (h : ProtocolOk cfg s) {v : Fin n}
    (hv : (s r).pc.victim = some v) :
    v ≠ r ∧ (s v).seg.state = .rank r ∧ LiveBatch cfg (s v).current (s v).seg := by
  have hne := (h.rank r).ne_of_victim hv
  have hst := (h.lock v r hne.symm).mpr hv
  exact ⟨hne, hst, (h.rank v).liveBatch (.inr ⟨r, hst, hne.symm⟩)⟩

/-- A thief and its victim are in the same session. -/
theorem ProtocolOk.current_eq (h : ProtocolOk cfg s) {v : Fin n}
    (hv : (s r).pc.victim = some v) : (s v).current = (s r).current := by
  obtain ⟨hne, hst, -⟩ := h.victim_locked hv
  have hinr : InSession (s r).pc := by
    constructor <;> intro hc <;> rw [hc] at hv <;> cases hv
  have hinv : InSession (s v).pc := by
    have ho := (h.rank v).open_of_rank hst hne.symm
    unfold Open at ho
    constructor <;> intro hc <;> simp only [hc] at ho
  have h1 := h.session r hinr v
  have h2 := h.session v hinv r
  unfold RankTasks.current
  omega

theorem ProtocolOk.stealNext_read (h : ProtocolOk cfg s) {v : Fin n}
    (hpc : (s r).pc = .reading v) {s' : State n} (hs : stealNext cfg s r = some s') :
    ProtocolOk cfg s' := by
  have hr := h.rank r
  have hpcok := hr.pc
  simp only [PcOk, hpc] at hpcok
  have hsess := hr.session
  simp only [SessionOk, hpc] at hsess
  have hacc := hr.accepts (by rw [hpc]; rintro ⟨⟩)
  obtain ⟨hne, hst, hlive⟩ := h.victim_locked (v := v) (by rw [hpc]; rfl)
  have hsize := hlive.ok.size_tasks
  have hsize_le := hlive.ok.segmentSize_le
  -- the thief's own state word was `NO_TASK` and becomes its rank, which no other rank holds
  have key : ∀ (len : ℕ) (pc : WorkPc n), pc = .readingRest v ∨ pc = .unlockingVictim v →
      (pc = .readingRest v → len = sizeFirstRead) →
      (pc = .unlockingVictim v → (s v).seg.segmentSize ≤ len) →
      ProtocolOk cfg (Function.update s r
        { s r with seg := Tasks.readFirst (s r).seg (s v).seg len, pc }) := by
    intro len pc hpc' hlen hfull
    refine h.update ⟨?_, ?_, fun _ => hacc⟩ (fun q hq => ?_) ?_ (fun q hq hq' => ?_)
      (fun w hw hp => ?_) (fun w hw hp => ?_) le_rfl
      fun _ => h.session r ⟨by rw [hpc]; rintro ⟨⟩, by rw [hpc]; rintro ⟨⟩⟩
    · rcases hpc' with rfl | rfl <;> exact ⟨hst, hpcok.1.nbTask, hpcok.1.results, hpcok.2⟩
    · rcases hpc' with rfl | rfl <;> exact hsess
    · rw [show (Tasks.readFirst (s r).seg (s v).seg len).state = .rank r from hst,
        hpcok.1.state]
      exact iff_of_false (by simpa using hq.symm) (by rintro ⟨⟩)
    · rw [hpc]
      rcases hpc' with rfl | rfl <;> rfl
    · rw [hpcok.1.state] at hq'
      cases hq'
    · rcases hpc' with rfl | rfl <;> cases hp
      exact sameBatch_readFirst _ _ (by rw [hlen rfl])
    · rcases hpc' with rfl | rfl <;> cases hp
      exact sameBatch_readFirst _ _ (by have := hfull rfl; omega)
  simp only [stealNext, hpc] at hs
  split at hs
  · cases hs
    exact key _ _ (.inr rfl) (by rintro ⟨⟩) fun _ => hsize_le
  · cases hs
    split
    · exact key _ _ (.inl rfl) (fun _ => rfl) (by rintro ⟨⟩)
    · rename_i hle
      exact key _ _ (.inr rfl) (by rintro ⟨⟩) fun _ => Nat.le_of_not_lt hle

theorem ProtocolOk.stealNext_readRest (h : ProtocolOk cfg s) {v : Fin n}
    (hpc : (s r).pc = .readingRest v) {s' : State n} (hs : stealNext cfg s r = some s') :
    ProtocolOk cfg s' := by
  have hr := h.rank r
  have hpcok := hr.pc
  simp only [PcOk, hpc] at hpcok
  have hsess := hr.session
  simp only [SessionOk, hpc] at hsess
  obtain ⟨hne, hst, hlive⟩ := h.victim_locked (v := v) (by rw [hpc]; rfl)
  have hsize := hlive.ok.size_tasks
  simp only [stealNext, hpc] at hs
  cases hs
  refine h.update ⟨hpcok, hsess, fun _ => hr.accepts (by rw [hpc]; rintro ⟨⟩)⟩ (fun q hq => Iff.rfl)
    (by rw [hpc]; rfl) (fun q hq hq' => ?_) (fun _ _ => (by rintro ⟨⟩)) (fun w hw hp => ?_) le_rfl
    fun _ => h.session r ⟨by rw [hpc]; rintro ⟨⟩, by rw [hpc]; rintro ⟨⟩⟩
  · rw [hpcok.1] at hq'
    exact absurd (TaskLock.rank.inj hq').symm hq
  · cases hp
    exact sameBatch_readRest (h.readFirst r v hpc) hsize.le

/-- A step of a thief `r` that changes the state word of the segment of `v`, and its own point. -/
theorem ProtocolOk.update_victim (h : ProtocolOk cfg s) {v : Fin n} (hne : v ≠ r)
    {state : TaskLock n} {pc : WorkPc n} (hv : RankOk cfg v (withState (s v) state))
    (hr : RankOk cfg r { s r with pc }) (hin : InSession (s r).pc)
    (hother : ∀ q, q ≠ v → q ≠ r → (state = .rank q ↔ (s v).seg.state = .rank q))
    (hthief : state = .rank r ↔ pc.victim = some v)
    (hvictim : ∀ w ≠ v, pc.victim = some w ↔ (s r).pc.victim = some w)
    (hfirst : ∀ w, pc ≠ .readingRest w) (hall : ∀ w, pc ≠ .unlockingVictim w) :
    ProtocolOk cfg (Function.update (Function.update s v (withState (s v) state)) r
      { s r with pc }) := by
  generalize hs' : Function.update (Function.update s v (withState (s v) state)) r
    { s r with pc } = s'
  have hat : s' r = { s r with pc } := by rw [← hs', Function.update_self]
  have hatv : s' v = withState (s v) state := by
    rw [← hs', Function.update_of_ne hne, Function.update_self]
  have hoth : ∀ q, q ≠ v → q ≠ r → s' q = s q := fun q hqv hqr => by
    rw [← hs', Function.update_of_ne hqr, Function.update_of_ne hqv]
  have hsame : ∀ q len, SameBatch (s q).seg (s' q).seg len := by
    intro q len
    by_cases hqr : q = r
    · subst hqr
      rw [hat]
      exact SameBatch.refl _ _
    · by_cases hqv : q = v
      · subst hqv
        rw [hatv]
        exact ⟨rfl, rfl, rfl, rfl, rfl, rfl, rfl, Agrees.refl _ _ _⟩
      · rw [hoth q hqv hqr]
        exact SameBatch.refl _ _
  have hpcs : ∀ q, q ≠ r → (s' q).pc = (s q).pc := by
    intro q hqr
    by_cases hqv : q = v
    · subst hqv
      rw [hatv]
      rfl
    · rw [hoth q hqv hqr]
  have hsess : ∀ q, (s' q).session = (s q).session := by
    intro q
    by_cases hqr : q = r
    · subst hqr
      rw [hat]
    · by_cases hqv : q = v
      · subst hqv
        rw [hatv]
        rfl
      · rw [hoth q hqv hqr]
  refine ⟨fun q => ?_, fun w q hq => ?_, fun q w hw => ?_, fun q w hw => ?_, fun q hq p => ?_⟩
  · by_cases hqr : q = r
    · subst hqr
      rwa [hat]
    · by_cases hqv : q = v
      · subst hqv
        rwa [hatv]
      · rw [hoth q hqv hqr]
        exact h.rank q
  · by_cases hwv : w = v
    · subst hwv
      rw [hatv]
      by_cases hqr : q = r
      · subst hqr
        rw [hat]
        exact hthief
      · rw [hpcs q hqr]
        exact (hother q hq hqr).trans (h.lock w q hq)
    · have hst : (s' w).seg.state = (s w).seg.state := by
        by_cases hwr : w = r
        · subst hwr
          rw [hat]
        · rw [hoth w hwv hwr]
      rw [hst]
      by_cases hqr : q = r
      · subst hqr
        rw [hat]
        exact (h.lock w q hq).trans (hvictim w hwv).symm
      · rw [hpcs q hqr]
        exact h.lock w q hq
  · by_cases hqr : q = r
    · subst hqr
      rw [hat] at hw
      exact absurd hw (hfirst w)
    · rw [hpcs q hqr] at hw
      exact ((hsame w _).symm.trans (h.readFirst q w hw)).trans (hsame q _)
  · by_cases hqr : q = r
    · subst hqr
      rw [hat] at hw
      exact absurd hw (hall w)
    · rw [hpcs q hqr] at hw
      rw [(hsame w 0).nbTask, (hsame w 0).taskSize]
      exact ((hsame w _).symm.trans (h.readAll q w hw)).trans (hsame q _)
  · rw [hsess q, hsess p]
    by_cases hqr : q = r
    · subst hqr
      exact h.session q hin p
    · rw [hpcs q hqr] at hq
      exact h.session q hq p

theorem ProtocolOk.lockVictim (h : ProtocolOk cfg s) (hpc : (s r).pc = .balancing) {v : Fin n}
    (hne : v ≠ r) : ProtocolOk cfg (Tasks.lockVictim s r v) := by
  have hr := h.rank r
  have hpcok := hr.pc
  simp only [PcOk, hpc] at hpcok
  have hsess := hr.session
  simp only [SessionOk, hpc] at hsess
  simp only [Tasks.lockVictim, compareAndSwapStatus]
  by_cases hst : (s v).seg.state = .taskAvailable
  · simp only [hst, if_true]
    rw [Function.update_of_ne hne.symm]
    refine h.update_victim hne ((h.rank v).lock hst hne.symm)
      ⟨⟨hpcok, hne⟩, hsess, fun _ => hr.accepts (by rw [hpc]; rintro ⟨⟩)⟩
      ⟨by rw [hpc]; rintro ⟨⟩, by rw [hpc]; rintro ⟨⟩⟩ (fun q _ hqr => ?_) (iff_of_true rfl rfl)
      (fun w hw => ?_) (fun _ => (by rintro ⟨⟩)) fun _ => (by rintro ⟨⟩)
    · rw [hst]
      exact iff_of_false (by simpa using hqr.symm) (by rintro ⟨⟩)
    · rw [hpc]
      exact iff_of_false (by simpa [WorkPc.victim] using hw.symm) (by rintro ⟨⟩)
  · simp only [hst, if_false]
    rw [Function.update_eq_self]
    exact h.missed hpc _

theorem ProtocolOk.stealNext_unlock (h : ProtocolOk cfg s) {v : Fin n}
    (hpc : (s r).pc = .unlockingVictim v) {s' : State n} (hs : stealNext cfg s r = some s') :
    ProtocolOk cfg s' := by
  have hr := h.rank r
  have hpcok := hr.pc
  simp only [PcOk, hpc] at hpcok
  have hsess := hr.session
  simp only [SessionOk, hpc] at hsess
  obtain ⟨hne, hst, hlive⟩ := h.victim_locked (v := v) (by rw [hpc]; rfl)
  have hacc := hr.accepts (by rw [hpc]; rintro ⟨⟩)
  have hcur : (s v).current = (s r).current := h.current_eq (by rw [hpc]; rfl)
  simp only [stealNext, hpc, compareAndSwapStatus, hst, if_true] at hs
  cases hs
  rw [Function.update_of_ne hne.symm]
  have hstolen : LiveBatch cfg (s r).current (s r).seg := by
    rw [hcur] at hlive
    have := h.readAll r v hpc
    rw [hlive.ok.taskSize] at this
    exact hlive.of_same this
  refine h.update_victim hne ((h.rank v).unlock hst hne.symm)
    ⟨⟨hpcok.1, hpcok.2.1, hpcok.2.2.1, rfl, hstolen⟩, hsess, fun _ => hacc⟩
    ⟨by rw [hpc]; rintro ⟨⟩, by rw [hpc]; rintro ⟨⟩⟩ (fun q _ hqr => ?_)
    (iff_of_false (by rintro ⟨⟩) (by rintro ⟨⟩))
    (fun w hw => ?_) (fun _ => (by rintro ⟨⟩)) fun _ => (by rintro ⟨⟩)
  · rw [hst]
    exact iff_of_false (by rintro ⟨⟩) (by simpa using hqr.symm)
  · rw [hpc]
    exact iff_of_false (by rintro ⟨⟩) (by simpa [WorkPc.victim] using hw.symm)

end Update

/-! ### The invariant -/

theorem RankInit.rankOk {t : RankTasks n} (h : RankInit t) : RankOk cfg r t := by
  refine ⟨?_, ?_, fun hne => absurd h.pc hne⟩
  · simp only [PcOk, h.pc]
    exact ⟨⟨h.state, h.dq, h.nbResult⟩, h.nbTask⟩
  · simp only [SessionOk, h.pc]
    rw [h.session, h.finished]

theorem ProtocolOk.init {s : State n} (h : (system cfg).init s) : ProtocolOk cfg s := by
  have hpc : ∀ q, (s q).pc = .idle := fun q => (h q).pc
  refine ⟨fun q => (h q).rankOk, fun v q _ => ?_, fun q v hq => ?_, fun q v hq => ?_,
    fun q hq => absurd (hpc q) hq.1⟩
  · rw [(h v).state, hpc q]
    exact iff_of_false nofun nofun
  · rw [hpc q] at hq
    cases hq
  · rw [hpc q] at hq
    cases hq

theorem ProtocolOk.next {s s' : State n} (h : ProtocolOk cfg s) {a : Fin n × Action n}
    (hs : next cfg s a = some s') : ProtocolOk cfg s' := by
  obtain ⟨r, a⟩ := a
  cases a with
  | setProblem =>
    simp only [Tasks.next] at hs
    split at hs <;> cases hs
    rename_i hc
    exact h.setProblem hc.1 hc.2
  | leaveBarrier =>
    simp only [Tasks.next] at hs
    split at hs <;> cases hs
    rename_i hc
    exact h.leaveBarrier hc.1 hc.2
  | finish =>
    simp only [Tasks.next] at hs
    split at hs <;> cases hs
    rename_i hc
    exact h.finish hc
  | steal v =>
    simp only [Tasks.next] at hs
    split at hs <;> cases hs
    rename_i hc
    exact h.lockVictim hc.1 hc.2
  | pushed =>
    simp only [Tasks.next] at hs
    split at hs
    · rename_i site hpc
      split at hs <;> cases hs
      exact h.pushed hpc _
    · cases hs
  | advance b =>
    simp only [Tasks.next] at hs
    split at hs
    · exact h.stealNext_read ‹_› hs
    · exact h.stealNext_readRest ‹_› hs
    · exact h.stealNext_unlock ‹_› hs
    · obtain ⟨t', ht', rfl⟩ := Option.map_eq_some_iff.mp hs
      exact h.local ht'

theorem protocol_invariant (cfg : Config n) : (system cfg).Invariant (ProtocolOk cfg) :=
  ⟨fun _ => ProtocolOk.init, fun _ _ _ _ h hs => h.next hs⟩

end Titus.Tasks
