import Titus.Barrier.Status
import Mathlib.Data.List.Count

/-! What holds of the ranks and of the notifications between them in every reachable state of the
barriers. -/

namespace Titus.Barrier

variable {n : ℕ} {T : Tree n} {r : Fin n} {t : BarrierStatus}

/-! ### The ranks -/

/-- How far a rank is in its current barrier. -/
def level (t : BarrierStatus) : ℕ :=
  match t.pc with
  | .notifying .parent => 2
  | .notifying .leftChild => 4
  | .notifying .rightChild => 5
  | _ => if t.rightChildOk then 3 else if t.leftChildOk then 1 else 0

/-- The level from which on a rank has consumed the notification of its neighbor. -/
def consumedAt : Side → ℕ
  | .leftChild => 1
  | .rightChild => 2
  | .parent => 4

/-- The level from which on a rank has notified its neighbor. -/
def sentAt : Side → ℕ
  | .parent => 3
  | .leftChild => 5
  | .rightChild => 6

/-- The counts of a rank at level `l`. -/
structure Counted (T : Tree n) (r : Fin n) (t : BarrierStatus) (l : ℕ) : Prop where
  failed : t.failed = false
  consumed : ∀ σ, T.neighbor r σ ≠ none →
    t.consumed σ = t.returned + (decide (consumedAt σ ≤ l)).toNat
  sent : ∀ σ, T.neighbor r σ ≠ none → t.sent σ = t.returned + (decide (sentAt σ ≤ l)).toNat

/-- What holds of a rank at its point. -/
def PointOk (T : Tree n) (r : Fin n) (t : BarrierStatus) : Prop :=
  match t.pc with
  | .idle => (t.rightChildOk = true → t.leftChildOk = true) ∧
    (t.leftChildOk = true → t.rightChildOk = false → T.neighbor r .rightChild ≠ none)
  | .waiting .leftChild => t.rightChildOk = false ∧ T.neighbor r .leftChild ≠ none ∧
    (t.leftChildOk = true → T.neighbor r .rightChild ≠ none)
  | .waiting .rightChild =>
    t.leftChildOk = true ∧ t.rightChildOk = false ∧ T.neighbor r .rightChild ≠ none
  | .waiting .parent | .notifying .parent =>
    t.leftChildOk = true ∧ t.rightChildOk = true ∧ T.neighbor r .parent ≠ none
  | .notifying _ => t.leftChildOk = true ∧ t.rightChildOk = true

/-- A rank between two barriers, or in one. -/
inductive StatusOk (T : Tree n) (r : Fin n) (t : BarrierStatus) : Prop
  | resting (hprogress : t.barrierIsInProgress = false) (hstarted : t.started = t.returned)
    (hpc : t.pc = .idle) (hcounted : Counted T r t 0)
  | inside (hprogress : t.barrierIsInProgress = true) (hstarted : t.started = t.returned + 1)
    (hpoint : PointOk T r t) (hcounted : Counted T r t (level t))

/-- Where a rank has no neighbor, the levels on both sides of it are the same. -/
theorem Counted.change {l k : ℕ} (h : Counted T r t l)
    (hl : ∀ σ, T.neighbor r σ ≠ none → (consumedAt σ ≤ l ↔ consumedAt σ ≤ k) ∧
      (sentAt σ ≤ l ↔ sentAt σ ≤ k)) : Counted T r t k := by
  refine ⟨h.failed, fun σ hσ => ?_, fun σ hσ => ?_⟩
  · rw [h.consumed σ hσ, decide_eq_decide.mpr (hl σ hσ).1]
  · rw [h.sent σ hσ, decide_eq_decide.mpr (hl σ hσ).2]

/-- A rank in a barrier, whose point is not chosen yet. -/
structure Inside (T : Tree n) (r : Fin n) (t : BarrierStatus) (l : ℕ) : Prop where
  progress : t.barrierIsInProgress = true
  started : t.started = t.returned + 1
  counted : Counted T r t l

theorem Inside.enterDown (h : Inside T r t 3) (hleft : t.leftChildOk = true)
    (hright : t.rightChildOk = true) : StatusOk T r (enterDown T r t) := by
  unfold Barrier.enterDown
  split
  · rename_i hparent
    refine .inside h.progress h.started ⟨hleft, hright, ?_⟩ ?_
    · exact Option.isSome_iff_ne_none.mp hparent
    · simp only [level, hright, if_true]
      exact ⟨h.counted.failed, h.counted.consumed, h.counted.sent⟩
  · rename_i hparent
    refine .inside h.progress h.started ⟨hleft, hright⟩ ?_
    have hcounted := h.counted.change (k := 4) fun σ hσ => by
      cases σ with
      | parent => exact absurd (Option.isSome_iff_ne_none.mpr hσ) hparent
      | leftChild => simp [consumedAt, sentAt]
      | rightChild => simp [consumedAt, sentAt]
    exact ⟨hcounted.failed, hcounted.consumed, hcounted.sent⟩

theorem Inside.enterUp (h : Inside T r t 2) (hleft : t.leftChildOk = true) :
    StatusOk T r (enterUp T r t) := by
  unfold Barrier.enterUp
  split
  · rename_i hparent
    refine .inside h.progress h.started ⟨hleft, rfl, ?_⟩ ?_
    · exact Option.isSome_iff_ne_none.mp hparent
    · exact ⟨h.counted.failed, h.counted.consumed, h.counted.sent⟩
  · rename_i hparent
    have hcounted := h.counted.change (k := 3) fun σ hσ => by
      cases σ with
      | parent => exact absurd (Option.isSome_iff_ne_none.mpr hσ) hparent
      | leftChild => simp [consumedAt, sentAt]
      | rightChild => simp [consumedAt, sentAt]
    exact Inside.enterDown (t := { t with rightChildOk := true }) ⟨h.progress, h.started,
      hcounted.failed, hcounted.consumed, hcounted.sent⟩ hleft rfl

theorem Inside.enterRight (h : Inside T r t 1) (hright : t.rightChildOk = false) :
    StatusOk T r (enterRight T r t) := by
  unfold Barrier.enterRight
  split
  · rename_i hchild
    refine .inside h.progress h.started ⟨rfl, hright, ?_⟩ ?_
    · rw [hright] at hchild
      exact Option.isSome_iff_ne_none.mp (hchild.resolve_right nofun)
    · simp only [level, hright, if_true]
      exact ⟨h.counted.failed, h.counted.consumed, h.counted.sent⟩
  · rename_i hchild
    have hcounted := h.counted.change (k := 2) fun σ hσ => by
      cases σ with
      | parent => simp [consumedAt, sentAt]
      | leftChild => simp [consumedAt, sentAt]
      | rightChild => exact absurd (.inl (Option.isSome_iff_ne_none.mpr hσ)) hchild
    exact Inside.enterUp (t := { t with leftChildOk := true }) ⟨h.progress, h.started,
      hcounted.failed, hcounted.consumed, hcounted.sent⟩ rfl

/-- A rank that starts a barrier, or that comes back after a timeout in the wait for a child. -/
theorem Inside.enterLeft (h : Inside T r t (if t.leftChildOk then 1 else 0))
    (hright : t.rightChildOk = false)
    (hhalf : t.leftChildOk = true → T.neighbor r .rightChild ≠ none) :
    StatusOk T r (enterLeft T r t) := by
  unfold Barrier.enterLeft
  split
  · rename_i hchild
    refine .inside h.progress h.started ⟨hright, ?_, hhalf⟩ ?_
    · -- a rank with a right child has a left one
      intro hnone
      rcases hchild with hchild | hchild
      · rw [hnone] at hchild
        cases hchild
      · exact hhalf hchild (T.right_eq_none r hnone)
    · simp only [level, hright]
      exact ⟨h.counted.failed, h.counted.consumed, h.counted.sent⟩
  · rename_i hchild
    obtain ⟨hsome, hleft⟩ := not_or.mp hchild
    rw [if_neg hleft] at h
    have hcounted := h.counted.change (k := 1) fun σ hσ => by
      cases σ with
      | parent => simp [consumedAt, sentAt]
      | leftChild => exact absurd (Option.isSome_iff_ne_none.mpr hσ) hsome
      | rightChild => simp [consumedAt, sentAt]
    exact Inside.enterRight ⟨h.progress, h.started, hcounted⟩ hright

theorem StatusOk.enter (h : StatusOk T r t) (hpc : t.pc = .idle) : StatusOk T r (enter T r t) := by
  unfold Barrier.enter initBarrier
  cases h with
  | resting hprogress hstarted _ hcounted =>
    simp only [hprogress]
    refine Inside.enterLeft ⟨rfl, ?_, ?_⟩ rfl nofun
    · exact congrArg (· + 1) hstarted
    · exact ⟨hcounted.failed, hcounted.consumed, hcounted.sent⟩
  | inside hprogress hstarted hpoint hcounted =>
    simp only [hprogress, if_true]
    simp only [PointOk, hpc] at hpoint
    simp only [level, hpc] at hcounted
    split
    · rename_i hflag
      have hright : t.rightChildOk = false := by
        rcases hflag with hflag | hflag
        · cases hright : t.rightChildOk with
          | false => rfl
          | true =>
            rw [hpoint.1 hright] at hflag
            cases hflag
        · exact hflag
      simp only [hright] at hcounted
      exact Inside.enterLeft ⟨hprogress, hstarted, hcounted⟩ hright fun h => hpoint.2 h hright
    · rename_i hflag
      rw [not_or, Bool.not_eq_false, Bool.not_eq_false] at hflag
      simp only [hflag.2, if_true] at hcounted
      exact Inside.enterDown ⟨hprogress, hstarted, hcounted⟩ hflag.1 hflag.2

/-- The next notification is consumed. -/
theorem Counted.consume {l : ℕ} {σ : Side} (h : Counted T r t l) (hl : consumedAt σ = l + 1) :
    Counted T r { t with consumed := Function.update t.consumed σ (t.consumed σ + 1) } (l + 1) := by
  refine ⟨h.failed, fun τ hτ => ?_, fun τ hτ => ?_⟩
  · by_cases hτσ : τ = σ
    · subst hτσ
      have hold := h.consumed τ hτ
      rw [decide_eq_false (by omega)] at hold
      simp only [Function.update_self, hl, le_refl, decide_true]
      exact congrArg (· + 1) hold
    · have hsame : consumedAt τ ≤ l + 1 ↔ consumedAt τ ≤ l := by
        have hne : consumedAt τ ≠ consumedAt σ := by
          cases τ <;> cases σ <;> first | exact absurd rfl hτσ | decide
        omega
      simp only [Function.update_of_ne hτσ, hsame]
      exact h.consumed τ hτ
  · have hsame : sentAt τ ≤ l + 1 ↔ sentAt τ ≤ l := by
      have hne : sentAt τ ≠ consumedAt σ := by cases τ <;> cases σ <;> decide
      omega
    simp only [hsame]
    exact h.sent τ hτ

/-- The next notification is sent. -/
theorem Counted.send {l : ℕ} {σ : Side} (h : Counted T r t l) (hl : sentAt σ = l + 1) :
    Counted T r { t with sent := Function.update t.sent σ (t.sent σ + 1) } (l + 1) := by
  refine ⟨h.failed, fun τ hτ => ?_, fun τ hτ => ?_⟩
  · have hsame : consumedAt τ ≤ l + 1 ↔ consumedAt τ ≤ l := by
      have hne : consumedAt τ ≠ sentAt σ := by cases τ <;> cases σ <;> decide
      omega
    simp only [hsame]
    exact h.consumed τ hτ
  · by_cases hτσ : τ = σ
    · subst hτσ
      have hold := h.sent τ hτ
      rw [decide_eq_false (by omega)] at hold
      simp only [Function.update_self, hl, le_refl, decide_true]
      exact congrArg (· + 1) hold
    · have hsame : sentAt τ ≤ l + 1 ↔ sentAt τ ≤ l := by
        have hne : sentAt τ ≠ sentAt σ := by
          cases τ <;> cases σ <;> first | exact absurd rfl hτσ | decide
        omega
      simp only [Function.update_of_ne hτσ, hsame]
      exact h.sent τ hτ

/-- There is no neighbor that the next notification could be sent to. -/
theorem Counted.skip {l : ℕ} {σ : Side} (h : Counted T r t l) (hl : sentAt σ = l + 1)
    (hσ : T.neighbor r σ = none) : Counted T r t (l + 1) := by
  refine h.change fun τ hτ => ?_
  have hτσ : τ ≠ σ := by
    rintro rfl
    exact hτ hσ
  have hconsumed : consumedAt τ ≠ sentAt σ := by cases τ <;> cases σ <;> decide
  have hsent : sentAt τ ≠ sentAt σ := by
    cases τ <;> cases σ <;> first | exact absurd rfl hτσ | decide
  omega

theorem StatusOk.afterWait {σ : Side} (h : StatusOk T r t) (hpc : t.pc = .waiting σ)
    (hfresh : T.neighbor r σ ≠ none → t.consumed σ = t.returned) : StatusOk T r (afterWait T r σ
      { t with consumed := Function.update t.consumed σ (t.consumed σ + 1) }) := by
  cases h with
  | resting _ _ hidle =>
    rw [hpc] at hidle
    cases hidle
  | inside hprogress hstarted hpoint hcounted =>
    cases σ with
    | leftChild =>
      simp only [PointOk, hpc] at hpoint
      simp only [level, hpc, hpoint.1] at hcounted
      have hleft : t.leftChildOk = false := by
        cases hleft : t.leftChildOk with
        | false => rfl
        | true =>
          have hcount := hcounted.consumed .leftChild hpoint.2.1
          rw [hfresh hpoint.2.1] at hcount
          simp [hleft, consumedAt] at hcount
      simp only [hleft] at hcounted
      exact Inside.enterRight ⟨hprogress, hstarted, hcounted.consume rfl⟩ hpoint.1
    | rightChild =>
      simp only [PointOk, hpc] at hpoint
      simp only [level, hpc, hpoint.1, hpoint.2.1, if_true] at hcounted
      exact Inside.enterUp ⟨hprogress, hstarted, hcounted.consume rfl⟩ hpoint.1
    | parent =>
      simp only [PointOk, hpc] at hpoint
      simp only [level, hpc, hpoint.2.1, if_true] at hcounted
      have hnext := hcounted.consume (σ := .parent) rfl
      exact .inside hprogress hstarted ⟨hpoint.1, hpoint.2.1⟩
        ⟨hnext.failed, hnext.consumed, hnext.sent⟩

/-- A rank that has returned from a barrier. -/
theorem Counted.finish (h : Counted T r t 6) (hstarted : t.started = t.returned + 1) :
    StatusOk T r
      { t with barrierIsInProgress := false, returned := t.returned + 1, pc := .idle } := by
  refine .resting rfl hstarted rfl ⟨h.failed, fun σ hσ => ?_, fun σ hσ => ?_⟩
  · rw [h.consumed σ hσ]
    cases σ <;> rfl
  · rw [h.sent σ hσ]
    cases σ <;> rfl

/-- A rank goes on after `t'`, in which the notification on side `σ` has been sent, or there was
nobody to send it to. -/
theorem StatusOk.afterNotify {σ : Side} {t' : BarrierStatus} (h : StatusOk T r t)
    (hpc : t.pc = .notifying σ) (hflags : t'.barrierIsInProgress = t.barrierIsInProgress ∧
      t'.leftChildOk = t.leftChildOk ∧ t'.rightChildOk = t.rightChildOk)
    (hcounts : t'.started = t.started ∧ t'.returned = t.returned)
    (hsent : ∀ l, Counted T r t l → sentAt σ = l + 1 → Counted T r t' (l + 1)) :
    StatusOk T r (afterNotify T r σ t') := by
  cases h with
  | resting _ _ hidle =>
    rw [hpc] at hidle
    cases hidle
  | inside hprogress hstarted hpoint hcounted =>
    rw [← hflags.1] at hprogress
    rw [← hcounts.1, ← hcounts.2] at hstarted
    cases σ with
    | parent =>
      simp only [PointOk, hpc] at hpoint
      simp only [level, hpc] at hcounted
      exact Inside.enterDown ⟨hprogress, hstarted, hsent 2 hcounted rfl⟩
        (hflags.2.1.trans hpoint.1) (hflags.2.2.trans hpoint.2.1)
    | leftChild =>
      simp only [PointOk, hpc] at hpoint
      simp only [level, hpc] at hcounted
      have hnext := hsent 4 hcounted rfl
      exact .inside hprogress hstarted
        ⟨hflags.2.1.trans hpoint.1, hflags.2.2.trans hpoint.2⟩
        ⟨hnext.failed, hnext.consumed, hnext.sent⟩
    | rightChild =>
      simp only [level, hpc] at hcounted
      exact (hsent 5 hcounted rfl).finish hstarted

theorem StatusOk.timeout {σ : Side} (h : StatusOk T r t) (hpc : t.pc = .waiting σ) :
    StatusOk T r { t with pc := .idle } := by
  cases h with
  | resting hprogress hstarted _ hcounted =>
    exact .resting hprogress hstarted rfl ⟨hcounted.failed, hcounted.consumed, hcounted.sent⟩
  | inside hprogress hstarted hpoint hcounted =>
    refine .inside hprogress hstarted ?_ ?_
    · cases σ <;> simp only [PointOk, hpc] at hpoint ⊢ <;> simp_all
    · simp only [level, hpc] at hcounted ⊢
      exact ⟨hcounted.failed, hcounted.consumed, hcounted.sent⟩

/-- What a rank has on its queue, and whether it has stopped at a full one, tells nothing of the
barrier. -/
theorem StatusOk.setQueue (h : StatusOk T r t) (queued : ℕ) (died : Bool) :
    StatusOk T r { t with queued, died } := by
  cases h with
  | resting hprogress hstarted hpc hcounted =>
    exact .resting hprogress hstarted hpc ⟨hcounted.failed, hcounted.consumed, hcounted.sent⟩
  | inside hprogress hstarted hpoint hcounted =>
    exact .inside hprogress hstarted hpoint ⟨hcounted.failed, hcounted.consumed, hcounted.sent⟩

/-! ### Steps that send and consume nothing -/

/-- `t'` has the counts and the queue of `t`. -/
structure SameCounts (t t' : BarrierStatus) : Prop where
  consumed : t'.consumed = t.consumed
  sent : t'.sent = t.sent
  queued : t'.queued = t.queued
  died : t'.died = t.died

theorem SameCounts.trans {u v : BarrierStatus} (h : SameCounts t u) (h' : SameCounts u v) :
    SameCounts t v :=
  ⟨h'.consumed.trans h.consumed, h'.sent.trans h.sent, h'.queued.trans h.queued,
    h'.died.trans h.died⟩

theorem sameCounts_enterDown (t : BarrierStatus) : SameCounts t (enterDown T r t) := by
  unfold enterDown
  split <;> exact ⟨rfl, rfl, rfl, rfl⟩

theorem sameCounts_enterUp (t : BarrierStatus) : SameCounts t (enterUp T r t) := by
  unfold enterUp
  split
  · exact ⟨rfl, rfl, rfl, rfl⟩
  · have h := sameCounts_enterDown (T := T) (r := r) { t with rightChildOk := true }
    exact ⟨h.consumed, h.sent, h.queued, h.died⟩

theorem sameCounts_enterRight (t : BarrierStatus) : SameCounts t (enterRight T r t) := by
  unfold enterRight
  split
  · exact ⟨rfl, rfl, rfl, rfl⟩
  · have h := sameCounts_enterUp (T := T) (r := r) { t with leftChildOk := true }
    exact ⟨h.consumed, h.sent, h.queued, h.died⟩

theorem sameCounts_enterLeft (t : BarrierStatus) : SameCounts t (enterLeft T r t) := by
  unfold enterLeft
  split
  · exact ⟨rfl, rfl, rfl, rfl⟩
  · exact sameCounts_enterRight t

theorem sameCounts_enter (t : BarrierStatus) : SameCounts t (enter T r t) := by
  have hinit : SameCounts t (initBarrier t) := by
    unfold initBarrier
    split <;> exact ⟨rfl, rfl, rfl, rfl⟩
  unfold enter
  dsimp only
  split
  · exact hinit.trans (sameCounts_enterLeft _)
  · exact hinit.trans (sameCounts_enterDown _)

theorem sameCounts_afterWait (σ : Side) (t : BarrierStatus) :
    SameCounts t (afterWait T r σ t) := by
  cases σ with
  | parent => exact ⟨rfl, rfl, rfl, rfl⟩
  | leftChild => exact sameCounts_enterRight t
  | rightChild => exact sameCounts_enterUp t

theorem sameCounts_afterNotify (σ : Side) (t : BarrierStatus) :
    SameCounts t (afterNotify T r σ t) := by
  cases σ with
  | parent => exact sameCounts_enterDown t
  | leftChild => exact ⟨rfl, rfl, rfl, rfl⟩
  | rightChild => exact ⟨rfl, rfl, rfl, rfl⟩

/-! ### The notifications -/

/-- Each pair of neighbors has sent as many notifications as are on their way, in their slot, or
consumed. -/
structure BarrierOk (T : Tree n) (s : State n) : Prop where
  status : ∀ r, StatusOk T r (s.status r)
  edge : ∀ r q σ, T.neighbor r σ = some q → s.posted.count ⟨r, σ, q⟩ +
    (decide (s.slots r σ ≠ 0)).toNat + (s.status r).consumed σ = (s.status q).sent (facing r q σ)
  value : ∀ r σ, s.slots r σ ≠ 0 → ∃ q, T.neighbor r σ = some q ∧ s.slots r σ = q + 1
  posted : ∀ m ∈ s.posted, T.neighbor m.target m.side = some m.sender

theorem BarrierOk.initial : BarrierOk T (initial n) := by
  constructor
  · intro r
    refine .resting rfl rfl rfl ⟨rfl, fun σ _ => ?_, fun σ _ => ?_⟩
    · cases σ <;> rfl
    · cases σ <;> rfl
  · intro r q σ _
    rfl
  · intro r σ h
    exact absurd rfl h
  · intro m hm
    cases hm

/-- How far a rank is. -/
def reach (t : BarrierStatus) : ℕ := if t.barrierIsInProgress then level t else 0

theorem StatusOk.counted (h : StatusOk T r t) : Counted T r t (reach t) := by
  cases h with
  | resting hprogress _ _ hcounted =>
    rw [reach, hprogress]
    exact hcounted
  | inside hprogress _ _ hcounted =>
    rw [reach, hprogress]
    exact hcounted

/-- A rank notifies a child after it has consumed the notification of that child. -/
theorem StatusOk.sent_child (h : StatusOk T r t) {σ : Side} (hσ : T.neighbor r σ ≠ none)
    (hne : σ ≠ .parent) : t.sent σ ≤ t.consumed σ := by
  rw [h.counted.sent σ hσ, h.counted.consumed σ hσ]
  apply Nat.add_le_add_left
  apply Bool.toNat_le_toNat
  simp only [Bool.le_iff_imp, decide_eq_true_eq]
  cases σ with
  | parent => exact absurd rfl hne
  | leftChild => exact fun h => (show 1 ≤ 5 by decide).trans h
  | rightChild => exact fun h => (show 2 ≤ 6 by decide).trans h

/-- A rank is at most one notification of its parent ahead. -/
theorem StatusOk.sent_parent (h : StatusOk T r t) (hp : T.neighbor r .parent ≠ none) :
    t.returned ≤ t.consumed .parent ∧ t.sent .parent ≤ t.returned + 1 := by
  rw [h.counted.sent _ hp, h.counted.consumed _ hp]
  exact ⟨Nat.le_add_right _ _, Nat.add_le_add_left (Bool.toNat_le _) _⟩

variable {queueSizeMax : ℕ} {s s' : State n} {q : Fin n} {σ : Side}

theorem BarrierOk.consumed_le (h : BarrierOk T s) (hq : T.neighbor r σ = some q) :
    (s.status r).consumed σ ≤ (s.status q).sent (facing r q σ) := by
  have := h.edge r q σ hq
  omega

theorem facing_of_ne_parent (hσ : σ ≠ .parent) (r q : Fin n) : facing r q σ = .parent := by
  cases σ with
  | parent => exact absurd rfl hσ
  | leftChild => rfl
  | rightChild => rfl

theorem facing_parent_ne (r q : Fin n) : facing r q .parent ≠ .parent := by
  by_cases hlt : r < q <;> simp [facing, hlt]

/-- At most one notification is under way from a rank to its neighbor. -/
theorem BarrierOk.sent_le (h : BarrierOk T s) (hq : T.neighbor r σ = some q) :
    (s.status q).sent (facing r q σ) ≤ (s.status r).consumed σ + 1 := by
  have hback := T.neighbor_facing r q σ hq
  have hr := h.status r
  have hle := h.consumed_le hback
  rw [T.facing_facing r q σ hq] at hle
  by_cases hσ : σ = .parent
  · subst hσ
    have hchild := (h.status q).sent_child (σ := facing r q .parent) (by rw [hback]; nofun)
      (facing_parent_ne r q)
    have hparent := hr.sent_parent (by rw [hq]; nofun)
    omega
  · have hside := facing_of_ne_parent hσ r q
    rw [hside] at hback hle ⊢
    have hchild := hr.sent_child (by rw [hq]; nofun) hσ
    have hparent := (h.status q).sent_parent (by rw [hback]; nofun)
    omega

/-- A rank that waits has consumed nothing yet that comes from there in this barrier, if there is
something in the slot. -/
theorem BarrierOk.fresh (h : BarrierOk T s) (hpc : (s.status r).pc = .waiting σ)
    (hslot : s.slots r σ ≠ 0) : (s.status r).consumed σ = (s.status r).returned := by
  obtain ⟨q, hq, -⟩ := h.value r σ hslot
  have hback := T.neighbor_facing r q σ hq
  have hne : T.neighbor r σ ≠ none := by rw [hq]; nofun
  have hr := h.status r
  have hedge := h.edge r q σ hq
  rw [decide_eq_true hslot, Bool.toNat_true] at hedge
  have hconsumed := hr.counted.consumed σ hne
  have hle := h.consumed_le hback
  rw [T.facing_facing r q σ hq] at hle
  by_cases hσ : σ = .parent
  · subst hσ
    have hchild := (h.status q).sent_child (σ := facing r q .parent) (by rw [hback]; nofun)
      (facing_parent_ne r q)
    have hparent := hr.sent_parent hne
    omega
  · have hside := facing_of_ne_parent hσ r q
    rw [hside] at hback hle hedge
    have hparent := (h.status q).sent_parent (by rw [hback]; nofun)
    -- a rank that waits has not notified its children yet
    have hreach : reach (s.status r) ≤ 3 := by
      simp only [reach, level, hpc]
      repeat' split
      all_goals decide
    have hsent := hr.counted.sent σ hne
    rw [decide_eq_false (show ¬ sentAt σ ≤ reach (s.status r) by
      cases σ with
      | parent => exact absurd rfl hσ
      | leftChild => exact fun h => absurd (h.trans hreach) (by decide)
      | rightChild => exact fun h => absurd (h.trans hreach) (by decide)), Bool.toNat_false] at hsent
    omega

/-! ### The steps keep the invariant -/

theorem BarrierOk.setStatus (h : BarrierOk T s) (ht : StatusOk T r t)
    (hconsumed : t.consumed = (s.status r).consumed) (hsent : t.sent = (s.status r).sent) :
    BarrierOk T (s.setStatus r t) := by
  constructor
  · intro q
    by_cases hq : q = r
    · subst hq
      simpa [State.setStatus] using ht
    · simpa [State.setStatus, Function.update_of_ne hq] using h.status q
  · intro v q σ hq
    have hcounts : ∀ w, (Function.update s.status r t w).consumed = (s.status w).consumed ∧
        (Function.update s.status r t w).sent = (s.status w).sent := by
      intro w
      by_cases hw : w = r
      · subst hw
        rw [Function.update_self]
        exact ⟨hconsumed, hsent⟩
      · rw [Function.update_of_ne hw]
        exact ⟨rfl, rfl⟩
    simp only [State.setStatus, (hcounts v).1, (hcounts q).2]
    exact h.edge v q σ hq
  · exact h.value
  · exact h.posted

theorem slots_setSlot (v : Fin n) (σ : Side) (val : ℕ) (w : Fin n) (τ : Side) :
    (s.setSlot v σ val).slots w τ = if w = v ∧ τ = σ then val else s.slots w τ := by
  unfold State.setSlot
  by_cases hw : w = v
  · subst hw
    by_cases hτ : τ = σ
    · subst hτ
      simp
    · simp [hτ]
  · simp [hw]

theorem BarrierOk.arrive (h : BarrierOk T s) {m : Note n} (hm : m ∈ s.posted) :
    BarrierOk T { s.setSlot m.target m.side (m.sender + 1) with posted := s.posted.erase m } := by
  obtain ⟨v, τ, p⟩ := m
  have hp : T.neighbor v τ = some p := h.posted _ hm
  constructor
  · exact h.status
  · intro r q σ hq
    have hedge := h.edge r q σ hq
    simp only [slots_setSlot]
    by_cases hnote : r = v ∧ σ = τ
    · obtain ⟨rfl, rfl⟩ := hnote
      obtain rfl : p = q := Option.some.inj (hp.symm.trans hq)
      have hle := h.sent_le hq
      have hpos : 0 < s.posted.count ⟨r, σ, p⟩ := List.count_pos_iff.mpr hm
      rw [List.count_erase_self, if_pos ⟨rfl, rfl⟩, decide_eq_true (Nat.succ_ne_zero _),
        Bool.toNat_true]
      show _ + _ + (s.status r).consumed σ = (s.status p).sent (facing r p σ)
      omega
    · have hne : (⟨r, σ, q⟩ : Note n) ≠ ⟨v, τ, p⟩ := by
        intro heq
        cases heq
        exact hnote ⟨rfl, rfl⟩
      rw [List.count_erase_of_ne hne, if_neg hnote]
      exact hedge
  · intro r σ hslot
    rw [slots_setSlot] at hslot
    rw [slots_setSlot]
    by_cases hnote : r = v ∧ σ = τ
    · rw [if_pos hnote, hnote.1, hnote.2]
      exact ⟨p, hp, rfl⟩
    · rw [if_neg hnote] at hslot ⊢
      exact h.value r σ hslot
  · intro m hm
    exact h.posted m (List.mem_of_mem_erase hm)

/-- A rank consumes the notification in a slot. -/
theorem BarrierOk.consume (h : BarrierOk T s) (hslot : s.slots r σ ≠ 0)
    (ht : StatusOk T r t) (hconsumed : t.consumed =
      Function.update (s.status r).consumed σ ((s.status r).consumed σ + 1))
    (hsent : t.sent = (s.status r).sent) : BarrierOk T ((s.setSlot r σ 0).setStatus r t) := by
  have hsent' : ∀ w, (Function.update s.status r t w).sent = (s.status w).sent := by
    intro w
    by_cases hw : w = r
    · subst hw
      rw [Function.update_self, hsent]
    · rw [Function.update_of_ne hw]
  constructor
  · intro q
    by_cases hq : q = r
    · subst hq
      simpa [State.setStatus] using ht
    · simpa [State.setStatus, State.setSlot, Function.update_of_ne hq] using h.status q
  · intro v q τ hq
    have hedge := h.edge v q τ hq
    show s.posted.count ⟨v, τ, q⟩ + (decide ((s.setSlot r σ 0).slots v τ ≠ 0)).toNat +
      (Function.update s.status r t v).consumed τ =
        (Function.update s.status r t q).sent (facing v q τ)
    rw [hsent', slots_setSlot]
    by_cases hv : v = r
    · subst hv
      rw [Function.update_self, hconsumed]
      by_cases hτ : τ = σ
      · subst hτ
        rw [decide_eq_true hslot, Bool.toNat_true] at hedge
        rw [if_pos ⟨rfl, rfl⟩, Function.update_self]
        simp only [ne_eq, not_true_eq_false, decide_false, Bool.toNat_false]
        omega
      · rw [if_neg fun hc => hτ hc.2, Function.update_of_ne hτ]
        exact hedge
    · rw [if_neg fun hc => hv hc.1, Function.update_of_ne hv]
      exact hedge
  · intro v τ hv
    have hv' : (s.setSlot r σ 0).slots v τ ≠ 0 := hv
    show ∃ q, T.neighbor v τ = some q ∧ (s.setSlot r σ 0).slots v τ = q + 1
    rw [slots_setSlot] at hv' ⊢
    split at hv'
    · exact absurd rfl hv'
    · rw [if_neg ‹_›]
      exact h.value v τ hv'
  · exact h.posted

/-- A rank notifies a neighbor. -/
theorem BarrierOk.notify (h : BarrierOk T s) (hq : T.neighbor r σ = some q)
    (ht : StatusOk T r t) (hconsumed : t.consumed = (s.status r).consumed)
    (hsent : t.sent = Function.update (s.status r).sent σ ((s.status r).sent σ + 1)) :
    BarrierOk T (State.setStatus { s with posted := s.posted ++ [⟨q, facing r q σ, r⟩] } r t) := by
  have hback := T.neighbor_facing r q σ hq
  have hconsumed' : ∀ w, (Function.update s.status r t w).consumed = (s.status w).consumed := by
    intro w
    by_cases hw : w = r
    · subst hw
      rw [Function.update_self, hconsumed]
    · rw [Function.update_of_ne hw]
  constructor
  · intro w
    by_cases hw : w = r
    · subst hw
      simpa [State.setStatus] using ht
    · simpa [State.setStatus, Function.update_of_ne hw] using h.status w
  · intro v p τ hp
    have hedge := h.edge v p τ hp
    show (s.posted ++ [Note.mk q (facing r q σ) r]).count (Note.mk v τ p) +
        (decide (s.slots v τ ≠ 0)).toNat +
      (Function.update s.status r t v).consumed τ =
        (Function.update s.status r t p).sent (facing v p τ)
    rw [hconsumed', List.count_append]
    by_cases hnote : Note.mk q (facing r q σ) r = Note.mk v τ p
    · cases hnote
      rw [T.facing_facing r q σ hq] at hedge ⊢
      rw [Function.update_self, hsent, Function.update_self, List.count_singleton_self]
      omega
    · have hsame : (Function.update s.status r t p).sent (facing v p τ) =
          (s.status p).sent (facing v p τ) := by
        by_cases hpr : p = r
        · subst hpr
          rw [Function.update_self, hsent, Function.update_of_ne]
          -- the neighbor of a rank on one side is not the one on another
          rintro rfl
          have hv := T.neighbor_facing v p τ hp
          obtain rfl : q = v := Option.some.inj (hq.symm.trans hv)
          rw [T.facing_facing q p τ hp] at hnote
          exact hnote rfl
        · rw [Function.update_of_ne hpr]
      have hcount : [Note.mk q (facing r q σ) r].count (Note.mk v τ p) = 0 :=
        List.count_eq_zero_of_not_mem fun hm => hnote (List.mem_singleton.mp hm).symm
      rw [hsame, hcount, Nat.add_zero]
      exact hedge
  · exact h.value
  · intro m hm
    rcases List.mem_append.mp hm with hm | hm
    · exact h.posted m hm
    · obtain rfl := List.mem_singleton.mp hm
      exact hback

theorem BarrierOk.advance (h : BarrierOk T s) (hs : advance T queueSizeMax s r = some s') :
    BarrierOk T s' := by
  have hr := h.status r
  unfold Barrier.advance at hs
  dsimp only at hs
  split at hs
  · cases hs
  · split at hs
    · cases hs
    · rename_i σ hpc
      split at hs
      · cases hs
      · rename_i hslot
        cases hs
        obtain ⟨q, hq, hval⟩ := h.value r σ hslot
        have ht := hr.afterWait hpc fun _ => h.fresh hpc hslot
        have hsame := sameCounts_afterWait (T := T) (r := r) σ { s.status r with
          consumed := Function.update (s.status r).consumed σ ((s.status r).consumed σ + 1) }
        simp only [receive, hq, if_pos hval]
        exact h.consume hslot ht hsame.consumed hsame.sent
    · rename_i σ hpc
      split at hs
      · rename_i hnone
        cases hs
        have hsame := sameCounts_afterNotify (T := T) (r := r) σ (s.status r)
        refine h.setStatus ?_ hsame.consumed hsame.sent
        exact hr.afterNotify hpc ⟨rfl, rfl, rfl⟩ ⟨rfl, rfl⟩ fun l hl hat => hl.skip hat hnone
      · rename_i q hq
        split at hs <;> cases hs
        · exact h.setStatus (hr.setQueue _ true) rfl rfl
        · have hsame := sameCounts_afterNotify (T := T) (r := r) σ { s.status r with
            sent := Function.update (s.status r).sent σ ((s.status r).sent σ + 1)
            queued := (s.status r).queued + 1 }
          refine h.notify hq ?_ hsame.consumed hsame.sent
          refine hr.afterNotify hpc ⟨rfl, rfl, rfl⟩ ⟨rfl, rfl⟩ fun l hl hat => ?_
          have hnext := hl.send hat
          exact ⟨hnext.failed, hnext.consumed, hnext.sent⟩

theorem BarrierOk.next {a : Action n} (h : BarrierOk T s)
    (hs : next T queueSizeMax s a = some s') : BarrierOk T s' := by
  cases a with
  | call r =>
    simp only [Barrier.next] at hs
    split at hs <;> cases hs
    rename_i hcall
    have hsame := sameCounts_enter (T := T) (r := r) (s.status r)
    exact h.setStatus ((h.status r).enter hcall.2) hsame.consumed hsame.sent
  | advance r => exact h.advance hs
  | timeout r =>
    simp only [Barrier.next] at hs
    split at hs
    · split at hs <;> cases hs
      exact h.setStatus ((h.status r).timeout ‹_›) rfl rfl
    · cases hs
  | arrive m =>
    simp only [Barrier.next] at hs
    split at hs <;> cases hs
    exact h.arrive ‹_›
  | gaspiWait r =>
    simp only [Barrier.next] at hs
    split at hs <;> cases hs
    exact h.setStatus ((h.status r).setQueue 0 _) rfl rfl

theorem barrierOk_invariant (T : Tree n) (queueSizeMax : ℕ) :
    (barriers T queueSizeMax).Invariant (BarrierOk T) := by
  constructor
  · rintro s rfl
    exact .initial
  · exact fun s a s' _ h hs => h.next hs

end Titus.Barrier
