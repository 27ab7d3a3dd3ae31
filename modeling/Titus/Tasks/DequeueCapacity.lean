import Titus.Tasks.SegmentLock
import Mathlib.Algebra.Order.Ring.Int

/-! The block of memory behind the dequeue: how `set_problem` makes it larger, with a product of two
`int`s that it compares with an `unsigned long`, and the copies that go into it. -/

namespace Titus.Tasks

open Memory

/-! ### Machine integers -/

/-- A value that an `int` has. -/
def IsInt (x : ℤ) : Prop := -2 ^ 31 ≤ x ∧ x < 2 ^ 31

/-- The product of two `int`s, which is an `int`. -/
def intMul (a b : ℤ) : ℤ := (a * b).bmod (2 ^ 32)

/-- What a value becomes when it is converted to `unsigned long` or `size_t`. -/
def toUnsignedLong (x : ℤ) : ℕ := (x % 2 ^ 64).toNat

/-- `(size_t)task_size*nb_task`, the bytes of the problem. -/
def problemSize (taskSize nbTask : ℤ) : ℕ :=
  toUnsignedLong (toUnsignedLong taskSize * toUnsignedLong nbTask)

/-- `task_size*nb_task`, as the test of the reallocation has it. -/
def comparedSize (taskSize nbTask : ℤ) : ℕ := toUnsignedLong (intMul taskSize nbTask)

/-! ### The block -/

/-- The block at `problem`: its size, and the size that the dequeue has for it. -/
structure ProblemBlock where
  size : ℕ
  problemSizeAllocated : ℕ
deriving DecidableEq

namespace ProblemBlock

/-- The block that `TITUS_DLB_init_context` allocates. -/
def initContext (sharedTaskSegmentSize : ℕ) : ProblemBlock :=
  ⟨sharedTaskSegmentSize, sharedTaskSegmentSize⟩

/-- The reallocation in `set_problem`.  `realloc` says for which sizes there is a block, and without
one the process stops at an assertion. -/
def setProblem (realloc : ℕ → Bool) (b : ProblemBlock) (taskSize nbTask : ℤ) :
    Option ProblemBlock :=
  let bytes := comparedSize taskSize nbTask
  if b.problemSizeAllocated < bytes then
    if realloc bytes then some ⟨bytes, bytes⟩ else none
  else some b

/-- The copy of the problem that follows is inside the block. -/
def HoldsProblem (b : ProblemBlock) (taskSize nbTask : ℤ) : Prop :=
  ∀ realloc b', b.setProblem realloc taskSize nbTask = some b' →
    problemSize taskSize nbTask ≤ b'.size

/-- The product is small enough for an `int`, or its lower half is negative as one, or there is
enough memory already. -/
def Fits (b : ProblemBlock) (taskSize nbTask : ℤ) : Prop :=
  taskSize * nbTask < 2 ^ 31 ∨ 2 ^ 31 ≤ taskSize * nbTask % 2 ^ 32 ∨
    taskSize * nbTask ≤ b.problemSizeAllocated

instance (b : ProblemBlock) (taskSize nbTask : ℤ) : Decidable (b.Fits taskSize nbTask) :=
  inferInstanceAs (Decidable (_ ∨ _ ∨ _))

/-- The dequeue knows the size of the block. -/
def Ok (b : ProblemBlock) : Prop := b.size = b.problemSizeAllocated

/-- The calls of `set_problem` on one context, with any arguments. -/
def calls : Transition.System ProblemBlock ((ℕ → Bool) × ℤ × ℤ) where
  init b := ∃ size, b = initContext size
  next b c := b.setProblem c.1 c.2.1 c.2.2

variable {b b' : ProblemBlock} {taskSize nbTask : ℤ} {realloc : ℕ → Bool}

theorem Ok.setProblem (h : b.Ok) (hs : b.setProblem realloc taskSize nbTask = some b') : b'.Ok := by
  simp only [ProblemBlock.setProblem] at hs
  repeat' split at hs
  all_goals cases hs
  · rfl
  · exact h

theorem ok_invariant : calls.Invariant Ok := by
  constructor
  · rintro b ⟨size, rfl⟩
    rfl
  · intro b c b' _ h hs
    exact h.setProblem hs

/-- The block does not get smaller. -/
theorem problemSizeAllocated_le (hs : b.setProblem realloc taskSize nbTask = some b') :
    b.problemSizeAllocated ≤ b'.problemSizeAllocated := by
  simp only [ProblemBlock.setProblem] at hs
  repeat' split at hs
  all_goals cases hs
  · exact Nat.le_of_lt ‹_›
  · exact le_rfl

end ProblemBlock

/-! ### The two products -/

section Products

variable {taskSize nbTask : ℤ}

theorem mul_bounds (ht : IsInt taskSize) (hn : IsInt nbTask) (ht0 : 0 < taskSize)
    (hn0 : 0 ≤ nbTask) : 0 ≤ taskSize * nbTask ∧ taskSize * nbTask < 2 ^ 62 := by
  constructor
  · exact mul_nonneg ht0.le hn0
  · calc taskSize * nbTask ≤ 2 ^ 31 * nbTask := mul_le_mul_of_nonneg_right ht.2.le hn0
      _ < 2 ^ 31 * 2 ^ 31 := mul_lt_mul_of_pos_left hn.2 (by norm_num)
      _ = 2 ^ 62 := by norm_num

/-- As a `size_t` the product is exact. -/
theorem problemSize_eq (ht : IsInt taskSize) (hn : IsInt nbTask) (ht0 : 0 < taskSize)
    (hn0 : 0 ≤ nbTask) : (problemSize taskSize nbTask : ℤ) = taskSize * nbTask := by
  have hb := mul_bounds ht hn ht0 hn0
  obtain ⟨-, ht⟩ := ht
  obtain ⟨-, hn⟩ := hn
  have h1 : (toUnsignedLong taskSize : ℤ) = taskSize := by
    unfold toUnsignedLong
    omega
  have h2 : (toUnsignedLong nbTask : ℤ) = nbTask := by
    unfold toUnsignedLong
    omega
  unfold problemSize
  rw [h1, h2]
  unfold toUnsignedLong
  omega

/-- As an `int` it keeps its lower half, and a negative one is converted to the upper end of the
range of `unsigned long`. -/
theorem comparedSize_eq (taskSize nbTask : ℤ) :
    (comparedSize taskSize nbTask : ℤ) = if taskSize * nbTask % 2 ^ 32 < 2 ^ 31 then
      taskSize * nbTask % 2 ^ 32 else 2 ^ 64 - 2 ^ 32 + taskSize * nbTask % 2 ^ 32 := by
  unfold comparedSize intMul toUnsignedLong
  rw [Int.bmod_def]
  split <;> split <;> omega

/-- A problem that fits is compared with at least its own size, or there is room for it. -/
theorem ProblemBlock.Fits.le {b : ProblemBlock} (h : b.Fits taskSize nbTask) (ht : IsInt taskSize)
    (hn : IsInt nbTask) (ht0 : 0 < taskSize) (hn0 : 0 ≤ nbTask) :
    problemSize taskSize nbTask ≤ max b.problemSizeAllocated (comparedSize taskSize nbTask) := by
  have hb := mul_bounds ht hn ht0 hn0
  have h1 := problemSize_eq ht hn ht0 hn0
  have h2 := comparedSize_eq taskSize nbTask
  rcases h with h | h | h
  · rw [if_pos (by omega)] at h2
    omega
  · rw [if_neg (by omega)] at h2
    omega
  · omega

/-- One that does not fit is compared with less than its size. -/
theorem ProblemBlock.lt_of_not_fits {b : ProblemBlock} (h : ¬ b.Fits taskSize nbTask)
    (ht : IsInt taskSize) (hn : IsInt nbTask) (ht0 : 0 < taskSize) (hn0 : 0 ≤ nbTask) :
    max b.problemSizeAllocated (comparedSize taskSize nbTask) < problemSize taskSize nbTask := by
  have h1 := problemSize_eq ht hn ht0 hn0
  have h2 := comparedSize_eq taskSize nbTask
  simp only [ProblemBlock.Fits, not_or] at h
  rw [if_pos (by omega)] at h2
  omega

theorem ProblemBlock.holdsProblem_iff {b : ProblemBlock} (hok : b.Ok) (ht : IsInt taskSize)
    (hn : IsInt nbTask) (ht0 : 0 < taskSize) (hn0 : 0 ≤ nbTask) :
    b.HoldsProblem taskSize nbTask ↔ b.Fits taskSize nbTask := by
  have hsize : b.size = b.problemSizeAllocated := hok
  constructor
  · intro h
    by_contra hfits
    have hlt := lt_of_not_fits hfits ht hn ht0 hn0
    by_cases hgrow : b.problemSizeAllocated < comparedSize taskSize nbTask
    · have := h (fun _ => true) ⟨comparedSize taskSize nbTask, comparedSize taskSize nbTask⟩
        (by simp [ProblemBlock.setProblem, hgrow])
      simp only at this
      omega
    · have := h (fun _ => true) b (by simp [ProblemBlock.setProblem, hgrow])
      omega
  · intro h realloc b' hs
    have hle := h.le ht hn ht0 hn0
    simp only [ProblemBlock.setProblem] at hs
    repeat' split at hs
    all_goals cases hs
    · change problemSize taskSize nbTask ≤ comparedSize taskSize nbTask
      omega
    · omega

/-- A product that is an `int` is compared as it is. -/
theorem comparedSize_natCast {a b : ℕ} (h : a * b < 2 ^ 31) : comparedSize a b = a * b := by
  unfold comparedSize intMul toUnsignedLong
  rw [Int.bmod_def, ← Nat.cast_mul]
  split <;> omega

theorem problemSize_natCast_le (a b : ℕ) : problemSize a b ≤ a * b := by
  have hle : ∀ x : ℕ, toUnsignedLong x ≤ x := by
    intro x
    unfold toUnsignedLong
    omega
  calc problemSize a b ≤ toUnsignedLong a * toUnsignedLong b := by
        unfold problemSize
        rw [← Nat.cast_mul]
        exact hle _
    _ ≤ a * b := Nat.mul_le_mul (hle a) (hle b)

end Products

/-! ### The block in a run -/

variable {n : ℕ}

/-- The ranks, each with the block of its dequeue. -/
structure CapacityState (n : ℕ) where
  ranks : State n
  block : Fin n → ProblemBlock

/-- `set_problem` on the block of rank `r`. -/
def setProblemBlock (cfg : Config n) (realloc : ℕ → Fin n → ℕ → Bool) (s : CapacityState n)
    (r : Fin n) : Option ProblemBlock :=
  let k := (s.ranks r).session
  (s.block r).setProblem (realloc k r) (cfg.taskSize k) (cfg.nbTask k r)

/-- The task side of the library, with the blocks.  `realloc k r` is what the allocator answers in
the call of session `k` on rank `r`. -/
def capacity (cfg : Config n) (realloc : ℕ → Fin n → ℕ → Bool) :
    Transition.System (CapacityState n) (Fin n × Action n) where
  init s := (system cfg).init s.ranks ∧ ∀ r,
    s.block r = .initContext cfg.sharedTaskSegmentSize ∧
      (s.ranks r).dq.problemSizeAllocated = cfg.sharedTaskSegmentSize
  next s a :=
    (next cfg s.ranks a).bind fun ranks =>
      match a with
      | (r, .setProblem) =>
        (setProblemBlock cfg realloc s r).map fun b => ⟨ranks, Function.update s.block r b⟩
      | _ => some { s with ranks }

/-- The bytes that `move_task_from_my_segment_to_my_dequeue` copies to `base_task`. -/
def refillSize (dq : Dequeue n) (m : MetadataTask n) : ℕ :=
  let dq := (moveTaskFromMySegmentToMyDequeue dq m).1
  dq.tail * dq.taskSize

/-- The copies into the dequeue are inside its block. -/
structure CopiesInside (cfg : Config n) (realloc : ℕ → Fin n → ℕ → Bool) (s : CapacityState n) :
    Prop where
  /-- The copy of the problem, when `set_problem` is called. -/
  problem : ∀ r b, (s.ranks r).pc = .idle → cfg.Accepts (s.ranks r).session →
    setProblemBlock cfg realloc s r = some b →
    problemSize (cfg.taskSize (s.ranks r).session) (cfg.nbTask (s.ranks r).session r) ≤ b.size
  /-- The copy of a batch from the segment, stolen or not. -/
  batch : ∀ r site, (s.ranks r).pc = .refilling site →
    refillSize (s.ranks r).dq (s.ranks r).seg ≤ (s.ranks r).dq.problemSizeAllocated
  allocated : ∀ r, (s.ranks r).dq.problemSizeAllocated = (s.block r).size

/-! ### What a step does to the sizes -/

section Steps

variable {cfg : Config n} {s s' : State n} {r : Fin n} {a : Action n}

theorem problemSizeAllocated_moveToDequeue (dq : Dequeue n) (m : MetadataTask n) :
    (moveTaskFromMySegmentToMyDequeue dq m).1.problemSizeAllocated = dq.problemSizeAllocated := by
  unfold moveTaskFromMySegmentToMyDequeue
  split <;> rfl

theorem problemSizeAllocated_moveToSegment (cfg : Config n) (r : Fin n) (dq : Dequeue n)
    (m : MetadataTask n) :
    (moveTaskFromMyDequeueToMySegment cfg r dq m).1.problemSizeAllocated =
      dq.problemSizeAllocated := by
  unfold moveTaskFromMyDequeueToMySegment
  simp only
  repeat' split
  all_goals rfl

theorem problemSizeAllocated_localNext {t t' : RankTasks n} {b : Bool}
    (hs : localNext cfg r t b = some t') :
    t'.dq.problemSizeAllocated = t.dq.problemSizeAllocated := by
  cases localStepped_of_localNext hs with
  | refilling => exact problemSizeAllocated_moveToDequeue _ _
  | sharing => exact problemSizeAllocated_moveToSegment _ _ _ _
  | _ => rfl

/-- Only `set_problem` changes the size that a rank has for the block of its dequeue. -/
theorem Stepped.problemSizeAllocated (hs : Stepped cfg s r a s') (q : Fin n)
    (hq : q = r → a ≠ .setProblem) :
    (s' q).dq.problemSizeAllocated = (s q).dq.problemSizeAllocated := by
  by_cases hqr : q = r
  · subst hqr
    cases hs with
    | setProblem => exact absurd rfl (hq rfl)
    | unlock b v state hpc =>
      rw [Function.update_self]
      by_cases hv : q = v
      · subst hv
        rw [Function.update_self]
        rfl
      · rw [Function.update_of_ne hv]
    | own b t ht =>
      rw [Function.update_self]
      exact problemSizeAllocated_localNext ht
    | _ =>
      rw [Function.update_self]
  · obtain ⟨state, hstate⟩ := hs.other hqr
    rw [hstate]
    rfl

/-- A refill copies a part of a batch, and that is smaller than the segment. -/
theorem refillSize_le {k : ℕ} {m : MetadataTask n} (h : BatchOk cfg k m) (dq : Dequeue n) :
    refillSize dq m + sizeofMetadataTask ≤ cfg.sharedTaskSegmentSize := by
  have hsize := h.size_tasks
  have hsize_le := h.segmentSize_le
  have hpart : ∀ c ≤ m.nbTask, c * m.taskSize ≤ m.nbTask * m.taskSize :=
    fun c hc => Nat.mul_le_mul_right _ hc
  have hhalf := hpart _ (Nat.div_le_self m.nbTask 2)
  unfold refillSize moveTaskFromMySegmentToMyDequeue
  split <;> simp only [takeFromSegment] <;> omega

end Steps

/-! ### All runs -/

section Runs

variable {cfg : Config n} {realloc : ℕ → Fin n → ℕ → Bool} {s s' : CapacityState n}

theorem capacity_projects (cfg : Config n) (realloc : ℕ → Fin n → ℕ → Bool) :
    (capacity cfg realloc).Projects (system cfg) CapacityState.ranks := by
  constructor
  · exact fun _ h => h.1
  · rintro s ⟨r, a⟩ s' _ _ hs
    obtain ⟨ranks, hnext, hs⟩ := Option.bind_eq_some_iff.mp hs
    refine .inr ⟨(r, a), ?_⟩
    cases a with
    | setProblem =>
      obtain ⟨b, -, rfl⟩ := Option.map_eq_some_iff.mp hs
      exact hnext
    | _ =>
      cases hs
      exact hnext

/-- What a rank knows about its block is right, and a segment's content fits into it. -/
structure BlockOk (cfg : Config n) (s : CapacityState n) (r : Fin n) : Prop where
  ok : (s.block r).Ok
  allocated : (s.ranks r).dq.problemSizeAllocated = (s.block r).problemSizeAllocated
  segment : cfg.sharedTaskSegmentSize ≤ (s.block r).problemSizeAllocated

theorem setProblemBlock_ok {r : Fin n} {b : ProblemBlock} (h : (s.block r).Ok)
    (hb : setProblemBlock cfg realloc s r = some b) :
    b.Ok ∧ (s.block r).problemSizeAllocated ≤ b.problemSizeAllocated := by
  unfold setProblemBlock at hb
  exact ⟨h.setProblem hb, ProblemBlock.problemSizeAllocated_le hb⟩

/-- The reallocation does what the model of `set_problem` in the runs has for it. -/
theorem setProblemBlock_allocated {r : Fin n} {b : ProblemBlock} (h : BlockOk cfg s r)
    (hb : setProblemBlock cfg realloc s r = some b) :
    (Tasks.setProblem cfg r (s.ranks r)).dq.problemSizeAllocated = b.problemSizeAllocated := by
  have hcompared := comparedSize_natCast (cfg.size_lt (s.ranks r).session r)
  have halloc := h.allocated
  simp only [setProblemBlock, ProblemBlock.setProblem, hcompared] at hb
  simp only [Tasks.setProblem]
  repeat' split at hb
  all_goals cases hb
  · rw [if_pos (by omega)]
  · rw [if_neg (by omega), halloc]

theorem blockOk_invariant (cfg : Config n) (realloc : ℕ → Fin n → ℕ → Bool) :
    (capacity cfg realloc).Invariant fun s => ∀ r, BlockOk cfg s r := by
  constructor
  · rintro s ⟨-, hinit⟩ r
    obtain ⟨hblock, halloc⟩ := hinit r
    constructor
    · rw [hblock]
      rfl
    · rw [hblock, halloc]
      rfl
    · rw [hblock]
      exact le_rfl
  · rintro s ⟨r, a⟩ s' _ h hs q
    obtain ⟨ranks, hnext, hs⟩ := Option.bind_eq_some_iff.mp hs
    have hstep := stepped_of_next hnext
    have hq := h q
    by_cases ha : a = .setProblem
    · subst ha
      obtain ⟨b, hb, rfl⟩ := Option.map_eq_some_iff.mp hs
      by_cases hqr : q = r
      · subst hqr
        cases hstep
        constructor
        · simp only [Function.update_self]
          exact (setProblemBlock_ok hq.ok hb).1
        · simp only [Function.update_self]
          exact setProblemBlock_allocated hq hb
        · simp only [Function.update_self]
          exact hq.segment.trans (setProblemBlock_ok hq.ok hb).2
      · have hsame := hstep.problemSizeAllocated q fun hc => absurd hc hqr
        constructor
        · simp only [Function.update_of_ne hqr]
          exact hq.ok
        · simp only [Function.update_of_ne hqr, hsame]
          exact hq.allocated
        · simp only [Function.update_of_ne hqr]
          exact hq.segment
    · have hs' : s' = { s with ranks } := by
        cases a with
        | setProblem => exact absurd rfl ha
        | _ =>
          cases hs
          rfl
      subst hs'
      have hsame := hstep.problemSizeAllocated q fun _ => ha
      exact ⟨hq.ok, hsame.trans hq.allocated, hq.segment⟩

/-- `set_problem` leaves enough room for a problem exactly when this fits, after any calls, and in
the runs of such problems every copy into the dequeue is inside its block. -/
theorem dequeue_capacity_iff (cfg : Config n) (realloc : ℕ → Fin n → ℕ → Bool) :
    (∀ b, ProblemBlock.calls.Reachable b → ∀ taskSize nbTask, IsInt taskSize → IsInt nbTask →
      0 < taskSize → 0 ≤ nbTask → (b.HoldsProblem taskSize nbTask ↔ b.Fits taskSize nbTask)) ∧
    ∀ s, (capacity cfg realloc).Reachable s → CopiesInside cfg realloc s := by
  constructor
  · intro b hr taskSize nbTask ht hn ht0 hn0
    exact ProblemBlock.holdsProblem_iff (ProblemBlock.ok_invariant.holds hr) ht hn ht0 hn0
  · intro s hr
    have hblock := (blockOk_invariant cfg realloc).holds hr
    have h := (protocol_invariant cfg).holds ((capacity_projects cfg realloc).reachable hr)
    constructor
    · intro r b _ _ hb
      have hok : b.size = b.problemSizeAllocated := (setProblemBlock_ok (hblock r).ok hb).1
      have halloc := setProblemBlock_allocated (hblock r) hb
      have hle := problemSize_natCast_le (cfg.taskSize (s.ranks r).session)
        (cfg.nbTask (s.ranks r).session r)
      simp only [Tasks.setProblem] at halloc
      split at halloc <;> omega
    · intro r site hpc
      have hbatch : BatchOk cfg (s.ranks r).current (s.ranks r).seg := by
        have hok := (h.rank r).pc
        simp only [PcOk, hpc] at hok
        cases site with
        | start => exact hok.2.2.2.ok
        | selfTheft => exact hok.2.2.2.1.ok
      have hle := refillSize_le hbatch (s.ranks r).dq
      have hseg := (hblock r).segment
      have halloc := (hblock r).allocated
      omega
    · intro r
      rw [(hblock r).allocated]
      exact (hblock r).ok.symm

/-! ### A product of 2 ^ 32 -/

/-- 4194304 tasks of 1024 bytes: the `int` is 0, and the block of the default context is kept. -/
theorem dequeue_overflows :
    ¬ ∀ b, ProblemBlock.calls.Reachable b → ∀ taskSize nbTask, IsInt taskSize → IsInt nbTask →
      0 < taskSize → 0 ≤ nbTask → b.HoldsProblem taskSize nbTask := by
  intro h
  have hinit : ProblemBlock.calls.Reachable (.initContext (10000 + sizeofMetadataTask)) :=
    .init ⟨_, rfl⟩
  have hinside := h _ hinit 1024 4194304 (by unfold IsInt; decide) (by unfold IsInt; decide)
    (by decide) (by decide) (fun _ => true) (.initContext (10000 + sizeofMetadataTask))
    (by decide +kernel)
  revert hinside
  decide +kernel

/-- Rank 0 shares a task, executes the others and locks its own segment. -/
def takeBack : List (Fin 2 × Action 2) :=
  [(0, .setProblem), (1, .setProblem), (0, .leaveBarrier)] ++
    List.replicate 23 (0, .advance false)

/-- Ranks that have just been created, with their blocks. -/
def createdBlocks : CapacityState 2 where
  ranks r := { created r with dq := ⟨0, 0, fun _ => 0, r, 0, 0, 0, 4096, 0⟩ }
  block _ := .initContext 4096

theorem dequeue_capacity_iff_refilling :
    (ProblemBlock.initContext 4096).HoldsProblem 8 4 ∧
      ∃ s : CapacityState 2, (s.ranks 0).pc = .refilling .selfTheft ∧
        CopiesInside twoRanks (fun _ _ _ => true) s := by
  have h := dequeue_capacity_iff twoRanks fun _ _ _ => true
  constructor
  · exact (h.1 _ (.init ⟨4096, rfl⟩) 8 4 (by unfold IsInt; decide) (by unfold IsInt; decide)
      (by decide) (by decide)).mpr (by decide)
  · obtain ⟨s, hr, hpc⟩ := Transition.System.exists_reachable
      (show (capacity twoRanks fun _ _ _ => true).init createdBlocks from
        ⟨fun _ => ⟨rfl, rfl, rfl, rfl, rfl, rfl, rfl, rfl⟩, fun _ => ⟨rfl, rfl⟩⟩) takeBack
      (fun s => (s.ranks 0).pc = .refilling .selfTheft) (by decide +kernel)
    exact ⟨s, hpc, h.2 s hr⟩

end Runs

end Titus.Tasks
