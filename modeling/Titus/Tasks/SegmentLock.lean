import Titus.Tasks.Protocol

/-! The lock protocol of the task segments, as it follows from the invariant: who may access the
tasks of a segment, which assertions can fail, and how a rank leaves `work_on_my_dequeue`. -/

namespace Titus.Tasks

open Memory

variable {n : ℕ} {cfg : Config n} {s s' : State n}

/-- Rank `p` at this point may read or write the tasks of the segment of `v`.  A thief writes its
own segment while it reads that of its victim. -/
def MayAccess (p v : Fin n) (pc : WorkPc n) : Prop :=
  match pc with
  | .reading w | .readingRest w | .unlockingVictim w => v = w ∨ v = p
  | .unlockingSelf _ | .refilling _ | .refilled _ _ | .sharing | .shared => v = p
  | _ => False

theorem MayAccess.victim {p v : Fin n} {pc : WorkPc n} (h : MayAccess p v pc) (hne : v ≠ p) :
    pc.victim = some v := by
  cases pc with
  | reading w | readingRest w | unlockingVictim w =>
    rcases h with rfl | h
    · rfl
    · exact absurd h hne
  | unlockingSelf | refilling | refilled | sharing | shared => exact absurd h hne
  | _ => exact h.elim

theorem MayAccess.not_open {p v : Fin n} {t : RankTasks n} (h : MayAccess p v t.pc) : ¬ Open t := by
  intro ho
  unfold Open at ho
  unfold MayAccess at h
  split at h <;> rename_i hpc
  case h_9 => exact h
  all_goals simp only [hpc] at ho

/-- What the lock protocol promises in state `s`. -/
structure SegmentLock (cfg : Config n) (s : State n) : Prop where
  /-- At most one party may access the tasks of a segment. -/
  exclusive : ∀ v p q, MayAccess p v (s p).pc → MayAccess q v (s q).pc → p = q
  /-- That party is the owner or the rank in the state word. -/
  party : ∀ v p, MayAccess p v (s p).pc → p = v ∨ (s v).seg.state = .rank p
  /-- No other party changes the tasks. -/
  write : ∀ p a s' v, next cfg s (p, a) = some s' → (s' v).seg.tasks ≠ (s v).seg.tasks →
    MayAccess p v (s p).pc
  available : ∀ v, (s v).seg.state = .taskAvailable → 1 ≤ (s v).seg.nbTask
  /-- The only assertion left is that of the tmp segment, which is no part of the protocol. -/
  assertions : ∀ r a, (s r).pc = .aborted a → a = .nbResultMax
  /-- Where `work_on_my_dequeue` returns to, the rank has nothing left. -/
  returns : ∀ r, (s r).pc = .returning .thief →
    (s r).seg.state = .noTask ∧ (s r).dq.head = (s r).dq.tail ∧ (s r).tmp.nbResult = 0

theorem ProtocolOk.party (h : ProtocolOk cfg s) {v p : Fin n} (ha : MayAccess p v (s p).pc)
    (hne : v ≠ p) : (s v).seg.state = .rank p :=
  (h.lock v p hne.symm).mpr (ha.victim hne)

theorem ProtocolOk.exclusive (h : ProtocolOk cfg s) {v p q : Fin n}
    (hp : MayAccess p v (s p).pc) (hq : MayAccess q v (s q).pc) : p = q := by
  -- the owner is at a point where its state word is not the rank of another
  have howner : ∀ q, MayAccess v v (s v).pc → MayAccess q v (s q).pc → v = q := by
    intro q hv hq
    by_contra hne
    have hst := h.party hq hne
    rcases (h.rank v).pc.state_of_not_open hv.not_open with hs | hs | hs <;> rw [hst] at hs
    · cases hs
    · cases hs
    · exact hne (TaskLock.rank.inj hs).symm
  by_cases hvp : v = p
  · subst hvp
    exact howner q hp hq
  · by_cases hvq : v = q
    · subst hvq
      exact (howner p hq hp).symm
    · have := (h.party hp hvp).symm.trans (h.party hq hvq)
      exact TaskLock.rank.inj this

theorem tasks_moveToDequeue (dq : Dequeue n) (m : MetadataTask n) :
    (moveTaskFromMySegmentToMyDequeue dq m).2.tasks = m.tasks := by
  unfold moveTaskFromMySegmentToMyDequeue
  split <;> rfl

/-- A rank changes the tasks of its own segment only when it shares some. -/
theorem localNext_tasks {r : Fin n} {t t' : RankTasks n} {b : Bool}
    (hs : localNext cfg r t b = some t') (hne : t'.seg.tasks ≠ t.seg.tasks) : t.pc = .sharing := by
  cases localStepped_of_localNext hs with
  | sharing hpc => exact hpc
  | refilling => exact absurd (tasks_moveToDequeue _ _) hne
  | _ => exact absurd rfl hne

/-- A step of rank `p` changes the tasks of its own segment only where it may access them. -/
theorem Stepped.own_tasks {p : Fin n} {a : Action n} (hs : Stepped cfg s p a s')
    (hne : (s' p).seg.tasks ≠ (s p).seg.tasks) : MayAccess p p (s p).pc := by
  cases hs with
  | readFirst b v len pc hpc =>
    rw [hpc]
    exact .inr rfl
  | readRest b v hpc =>
    rw [hpc]
    exact .inr rfl
  | unlock b v state hpc =>
    rw [hpc]
    exact .inr rfl
  | own b t ht =>
    rw [Function.update_self] at hne
    rw [localNext_tasks ht hne]
    rfl
  | _ =>
    rw [Function.update_self] at hne
    exact absurd rfl hne

/-- In every reachable state of any number of ranks the lock protocol keeps its promises. -/
theorem segment_lock_holds {s : State n} (hr : (system cfg).Reachable s) : SegmentLock cfg s := by
  have h := (protocol_invariant cfg).holds hr
  refine ⟨fun v p q => h.exclusive, fun v p ha => ?_, fun p a s' v hs hne => ?_, fun v hv => ?_,
    fun r a ha => ?_, fun r hpc => ?_⟩
  · by_cases hne : v = p
    · exact .inl hne.symm
    · exact .inr (h.party ha hne)
  · by_cases hv : v = p
    · subst hv
      exact (stepped_of_next hs).own_tasks hne
    · obtain ⟨state, hstate⟩ := (stepped_of_next hs).other hv
      rw [hstate] at hne
      exact absurd rfl hne
  · exact ((h.rank v).liveBatch (.inl hv)).pos
  · have hpc := (h.rank r).pc
    simp only [PcOk, ha] at hpc
    exact hpc.1
  · have hpc' := (h.rank r).pc
    simp only [PcOk, hpc] at hpc'
    exact ⟨hpc'.state, hpc'.dequeue, hpc'.results⟩

/-! ### A run of two ranks -/

/-- Two ranks, of which rank 0 has four tasks of eight bytes, in every session. -/
def twoRanks : Config 2 where
  sharedTaskSegmentSize := 4096
  taskSize _ := 8
  resultSize _ := 8
  nbTask _ r := if r = 0 then 4 else 0
  problem _ _ i := UInt8.ofNat i
  result _ _ _ := 0
  ptrTaskFunction _ _ := 0
  call _ bytes b := bytes.getD b 0 + 1
  size_lt _ r := by split <;> decide

/-- A rank that has just been created. -/
def created (r : Fin 2) : RankTasks 2 where
  pc := .idle
  dq := ⟨0, 0, fun _ => 0, r, 0, 0, 0, 0, 0⟩
  seg := ⟨.noTask, 4096, r, 0, 0, 0, 0, 0, 0, fun _ => 0⟩
  tmp := ⟨none, 0, 0, 0, 0, 0, fun _ => 0⟩
  session := 0
  finished := 0
  executed := []
  log := ⟨0, 0, 0, 0, 0, 0, 0, 0, 0, 0⟩

theorem twoRanks_init : (system twoRanks).init created := by
  intro r
  exact ⟨rfl, rfl, rfl, rfl, rfl, rfl, rfl, rfl⟩

/-- Rank 0 shares tasks after its first one, and rank 1 locks its segment. -/
def theft : List (Fin 2 × Action 2) :=
  [(0, .setProblem), (1, .setProblem), (0, .leaveBarrier), (1, .leaveBarrier)] ++
    List.replicate 12 (0, .advance false) ++
    [(1, .advance false), (1, .advance false), (1, .steal 0)]

theorem segment_lock_holds_in_theft :
    ∃ s, (system twoRanks).Reachable s ∧ (s 0).seg.state = .rank 1 ∧ SegmentLock twoRanks s := by
  obtain ⟨s, hr, hstate⟩ := Transition.System.exists_reachable twoRanks_init theft
    (fun s => (s 0).seg.state = .rank 1) (by decide +kernel)
  exact ⟨s, hr, hstate, segment_lock_holds hr⟩

end Titus.Tasks
