import Titus.Barrier.Resumption
import Titus.Lib.Ledger
import Titus.VictimSelector.InfixedWords

/-! Barriers come to their end.  However often the waits of a rank time out, and whatever the order
is in which the ranks go on and the notifications arrive, all ranks return from a barrier that all
ranks call, after a number of steps that is known beforehand. -/

namespace Titus.Barrier

open VictimSelector LinkedTree

variable {n : ℕ} {T : Tree n} {queueSizeMax : ℕ} {s s' : State n} {r q : Fin n} {t : BarrierStatus}
  {σ : Side} {k : ℕ}

/-! ### The tree from its leaves on -/

/-- The root has no parent, and what holds of every rank whose children it holds of, holds of all
ranks. -/
structure Tree.Grounded (T : Tree n) : Prop where
  root : T.neighbor T.root .parent = none
  induct_children : ∀ P : Fin n → Prop,
    (∀ r, (∀ σ c, σ ≠ .parent → T.neighbor r σ = some c → P c) → P r) → ∀ r, P r

theorem infixedNeighbor_root (h : n ≠ 0) :
    infixedNeighbor (n := n)
      ⟨getRankOfRoot n 0, (getRankOfRoot_mem h 0).2.trans_eq (Nat.zero_add n)⟩ .parent = none := by
  obtain ⟨nb, hnb, hok⟩ := (treeOk_getTreeNeighbors h).node (getRankOfRoot n 0) (Nat.zero_le _)
    ((getRankOfRoot_mem h 0).2.trans_eq (Nat.zero_add n))
  simp only [infixedNeighbor, hnb, Option.bind_some, hok.parent_none.mpr rfl, Option.bind_none]

theorem infixedTree_grounded (h : 2 ≤ n) : (infixedTree h).Grounded := by
  constructor
  · exact infixedNeighbor_root (by omega)
  · intro P hstep r
    obtain ⟨t, ht⟩ := exists_spread (show 1 ≤ n by omega)
      (show Nat.log2 n < n from (Nat.log2_lt (by omega)).mpr n.lt_two_pow_self) 0
    have hall := ht.linked.induct_children (P := fun k => ∀ hk : k < n, P ⟨k, hk⟩) ?_
      (ht.mem.mpr ⟨Nat.zero_le r.val, by omega⟩)
    · exact hall r.isLt
    · intro k nb hnb ih hk
      obtain ⟨nb', hnb', rfl⟩ := Option.map_eq_some_iff.mp hnb
      apply hstep
      intro σ c hσ hc
      have hc := (infixedNeighbor_eq_some (r := ⟨k, hk⟩) hnb').mp hc
      cases σ with
      | parent => exact absurd rfl hσ
      | leftChild => exact ih c.val (.inl hc) c.isLt
      | rightChild => exact ih c.val (.inr hc) c.isLt

/-! ### How far the ranks are -/

/-- How far a rank is over all its barriers. -/
def stage (t : BarrierStatus) : ℕ := 7 * t.returned + reach t

/-- `t'` is in the same barrier as `t`. -/
structure SameBarrier (t t' : BarrierStatus) : Prop where
  progress : t'.barrierIsInProgress = t.barrierIsInProgress
  started : t'.started = t.started
  returned : t'.returned = t.returned

theorem SameBarrier.stage_le {t' : BarrierStatus} {l : ℕ} (h : SameBarrier t t')
    (hprogress : t.barrierIsInProgress = true) (hlevel : l ≤ level t') :
    7 * t.returned + l ≤ stage t' := by
  rw [stage, reach, h.progress, hprogress, h.returned]
  simp only [if_true]
  omega

theorem sameBarrier_enterDown (t : BarrierStatus) : SameBarrier t (enterDown T r t) := by
  unfold enterDown
  split <;> exact ⟨rfl, rfl, rfl⟩

theorem sameBarrier_enterUp (t : BarrierStatus) : SameBarrier t (enterUp T r t) := by
  unfold enterUp
  split
  · exact ⟨rfl, rfl, rfl⟩
  · have h := sameBarrier_enterDown (T := T) (r := r) { t with rightChildOk := true }
    exact ⟨h.progress, h.started, h.returned⟩

theorem sameBarrier_enterRight (t : BarrierStatus) : SameBarrier t (enterRight T r t) := by
  unfold enterRight
  split
  · exact ⟨rfl, rfl, rfl⟩
  · have h := sameBarrier_enterUp (T := T) (r := r) { t with leftChildOk := true }
    exact ⟨h.progress, h.started, h.returned⟩

theorem sameBarrier_enterLeft (t : BarrierStatus) : SameBarrier t (enterLeft T r t) := by
  unfold enterLeft
  split
  · exact ⟨rfl, rfl, rfl⟩
  · exact sameBarrier_enterRight t

theorem sameBarrier_afterWait (σ : Side) (t : BarrierStatus) :
    SameBarrier t (afterWait T r σ t) := by
  cases σ with
  | parent => exact ⟨rfl, rfl, rfl⟩
  | leftChild => exact sameBarrier_enterRight t
  | rightChild => exact sameBarrier_enterUp t

theorem started_afterNotify (σ : Side) (t : BarrierStatus) :
    (afterNotify T r σ t).started = t.started := by
  cases σ with
  | parent => exact (sameBarrier_enterDown t).started
  | leftChild | rightChild => rfl

theorem level_enterDown (h : t.rightChildOk = true) : 3 ≤ level (enterDown T r t) := by
  unfold enterDown
  split
  · simp only [level, h, if_true, le_refl]
  · simp only [level]
    decide

theorem level_enterUp (t : BarrierStatus) : 2 ≤ level (enterUp T r t) := by
  unfold enterUp
  split
  · exact le_rfl
  · exact (show 2 ≤ 3 by decide).trans (level_enterDown rfl)

theorem level_enterRight (t : BarrierStatus) : 1 ≤ level (enterRight T r t) := by
  unfold enterRight
  split
  · simp only [level, if_true]
    split <;> decide
  · exact (show 1 ≤ 2 by decide).trans (level_enterUp _)

theorem level_enterLeft (h : t.rightChildOk = false) :
    (if t.leftChildOk then 1 else 0) ≤ level (enterLeft T r t) := by
  unfold enterLeft
  by_cases hchild : (T.neighbor r .leftChild).isSome ∨ t.leftChildOk
  · rw [if_pos hchild]
    simp only [level, h, Bool.false_eq_true, if_false, le_refl]
  · rw [if_neg hchild, if_neg fun hleft => hchild (.inr hleft)]
    exact Nat.zero_le _

/-- A call starts a barrier or comes back to it, and does not take the rank back. -/
theorem stage_enter (h : StatusOk T r t) (hpc : t.pc = .idle) :
    stage t ≤ stage (enter T r t) ∧ (enter T r t).started = t.returned + 1 := by
  unfold enter initBarrier
  cases h with
  | resting hprogress hstarted _ hcounted =>
    simp only [hprogress]
    have hsame := sameBarrier_enterLeft (T := T) (r := r) { t with
      barrierIsInProgress := true, leftChildOk := false, rightChildOk := false,
      started := t.started + 1 }
    constructor
    · rw [stage, reach, hprogress]
      exact hsame.stage_le rfl (Nat.zero_le _)
    · exact hsame.started.trans (congrArg (· + 1) hstarted)
  | inside hprogress hstarted hpoint hcounted =>
    simp only [hprogress, if_true]
    simp only [PointOk, hpc] at hpoint
    have hstage : stage t = 7 * t.returned +
        if t.rightChildOk then 3 else if t.leftChildOk then 1 else 0 := by
      rw [stage, reach, hprogress]
      simp only [level, hpc, if_true]
    rw [hstage]
    rcases Bool.eq_false_or_eq_true t.rightChildOk with hright | hright
    · have hsame := sameBarrier_enterDown (T := T) (r := r) t
      rw [if_pos hright, if_neg (by rw [hright, hpoint.1 hright]; simp)]
      exact ⟨hsame.stage_le hprogress (level_enterDown hright), hsame.started.trans hstarted⟩
    · have hsame := sameBarrier_enterLeft (T := T) (r := r) t
      simp only [hright, Bool.false_eq_true, if_false, or_true, if_true]
      exact ⟨hsame.stage_le hprogress (level_enterLeft hright), hsame.started.trans hstarted⟩

/-- Levels at which a rank waits. -/
theorem StatusOk.stage_waiting (h : StatusOk T r t) (hpc : t.pc = .waiting σ) :
    t.barrierIsInProgress = true ∧ (σ = .parent → reach t = 3) ∧ (σ ≠ .parent → reach t ≤ 1) ∧
      (σ = .leftChild → t.leftChildOk = false → reach t = 0) := by
  cases h with
  | resting _ _ hidle =>
    rw [hpc] at hidle
    cases hidle
  | inside hprogress hstarted hpoint hcounted =>
    have hreach : reach t = if t.rightChildOk then 3 else if t.leftChildOk then 1 else 0 := by
      rw [reach, hprogress]
      simp only [level, hpc, if_true]
    refine ⟨hprogress, ?_, ?_, ?_⟩
    · rintro rfl
      simp only [PointOk, hpc] at hpoint
      rw [hreach, hpoint.2.1]
      rfl
    · intro hσ
      have hright : t.rightChildOk = false := by
        cases σ with
        | parent => exact absurd rfl hσ
        | leftChild =>
          simp only [PointOk, hpc] at hpoint
          exact hpoint.1
        | rightChild =>
          simp only [PointOk, hpc] at hpoint
          exact hpoint.2.1
      rw [hreach, hright]
      cases t.leftChildOk <;> decide
    · rintro rfl hleft
      simp only [PointOk, hpc] at hpoint
      rw [hreach, hpoint.1, hleft]
      rfl

/-- A rank that hears from a neighbor gets on. -/
theorem stage_afterWait (h : StatusOk T r t) (hhalf : Halfway t) (hpc : t.pc = .waiting σ)
    {u : BarrierStatus} (hflags : u.barrierIsInProgress = t.barrierIsInProgress ∧
      u.returned = t.returned ∧ u.rightChildOk = t.rightChildOk) :
    stage t < stage (afterWait T r σ u) := by
  obtain ⟨hprogress, hparent, hchild, hleft⟩ := h.stage_waiting hpc
  have hprogress' := hflags.1.trans hprogress
  rw [stage, ← hflags.2.1]
  cases σ with
  | parent =>
    have hle := (sameBarrier_afterWait (T := T) (r := r) .parent u).stage_le (l := 4) hprogress'
      le_rfl
    rw [hparent rfl]
    omega
  | leftChild =>
    have hflag : t.leftChildOk = false := by
      by_contra hset
      rw [Bool.not_eq_false] at hset
      cases h with
      | resting _ _ hidle =>
        rw [hpc] at hidle
        cases hidle
      | inside _ _ hpoint =>
        simp only [PointOk, hpc] at hpoint
        have hwait := hhalf hprogress hset hpoint.1
        rw [hpc] at hwait
        cases hwait
    have hle := (sameBarrier_enterRight u).stage_le hprogress'
      (level_enterRight (T := T) (r := r) u)
    rw [hleft rfl hflag]
    exact hle
  | rightChild =>
    have hle := (sameBarrier_enterUp u).stage_le hprogress' (level_enterUp (T := T) (r := r) u)
    have hone := hchild (by simp)
    change _ < stage (enterUp T r u)
    omega

/-- A rank that has notified a neighbor, or has nobody to notify, gets on. -/
theorem stage_afterNotify (h : StatusOk T r t) (hpc : t.pc = .notifying σ) {u : BarrierStatus}
    (hflags : u.barrierIsInProgress = t.barrierIsInProgress ∧ u.returned = t.returned ∧
      u.rightChildOk = t.rightChildOk) : stage t < stage (afterNotify T r σ u) := by
  cases h with
  | resting _ _ hidle =>
    rw [hpc] at hidle
    cases hidle
  | inside hprogress hstarted hpoint hcounted =>
    have hprogress' := hflags.1.trans hprogress
    have hstage : stage t = 7 * u.returned + level t := by
      rw [stage, reach, hprogress, hflags.2.1]
      rfl
    rw [hstage]
    cases σ with
    | parent =>
      simp only [PointOk, hpc] at hpoint
      have hle := (sameBarrier_enterDown u).stage_le hprogress'
        (level_enterDown (T := T) (r := r) (hflags.2.2.trans hpoint.2.1))
      simp only [level, hpc]
      exact hle
    | leftChild =>
      have hsame : SameBarrier u (afterNotify T r .leftChild u) := ⟨rfl, rfl, rfl⟩
      have hle := hsame.stage_le (l := 5) hprogress' le_rfl
      simp only [level, hpc]
      exact hle
    | rightChild =>
      simp only [level, hpc, stage, afterNotify]
      omega

/-! ### The queues -/

/-- What a rank has on its queue it has sent to its neighbors, and it has stopped only at a full
queue. -/
structure QueueOk (T : Tree n) (queueSizeMax : ℕ) (r : Fin n) (t : BarrierStatus) : Prop where
  queued : t.queued ≤ t.sent .parent + t.sent .leftChild + t.sent .rightChild
  absent : ∀ σ, T.neighbor r σ = none → t.sent σ = 0
  died : t.died = true →
    queueSizeMax ≤ t.queued ∧ ∃ σ, t.pc = .notifying σ ∧ T.neighbor r σ ≠ none

theorem QueueOk.alive (h : QueueOk T queueSizeMax r t) (hpc : ∀ σ, t.pc ≠ .notifying σ) :
    t.died = false := by
  by_contra hdied
  rw [Bool.not_eq_false] at hdied
  obtain ⟨-, σ, hσ, -⟩ := h.died hdied
  exact hpc σ hσ

/-- A step that posts nothing. -/
theorem QueueOk.change {t' : BarrierStatus} (h : QueueOk T queueSizeMax r t)
    (halive : t.died = false) (hsent : t'.sent = t.sent) (hqueued : t'.queued = t.queued)
    (hdied : t'.died = t.died) : QueueOk T queueSizeMax r t' := by
  refine ⟨?_, fun σ hσ => ?_, fun hc => ?_⟩
  · rw [hqueued, hsent]
    exact h.queued
  · rw [hsent]
    exact h.absent σ hσ
  · rw [hdied, halive] at hc
    cases hc

theorem QueueOk.sameCounts {t' : BarrierStatus} (h : QueueOk T queueSizeMax r t)
    (halive : t.died = false) (hsame : SameCounts t t') : QueueOk T queueSizeMax r t' :=
  h.change halive hsame.sent hsame.queued hsame.died

theorem QueueOk.post (h : QueueOk T queueSizeMax r t) (halive : t.died = false)
    (hσ : T.neighbor r σ ≠ none) : QueueOk T queueSizeMax r { t with
      sent := Function.update t.sent σ (t.sent σ + 1)
      queued := t.queued + 1 } := by
  have hqueued := h.queued
  refine ⟨?_, fun τ hτ => ?_, fun hc => ?_⟩
  · cases σ <;> simp only [Function.update_self, Function.update_of_ne, ne_eq, reduceCtorEq,
      not_false_eq_true] <;> omega
  · have hne : τ ≠ σ := by
      rintro rfl
      exact hσ hτ
    simp only [Function.update_of_ne hne]
    exact h.absent τ hτ
  · rw [show t.died = true from hc] at halive
    cases halive

theorem queueOk_receive (h : QueueOk T queueSizeMax r t) (halive : t.died = false) (val : ℕ) :
    QueueOk T queueSizeMax r (receive T r σ val t) := by
  unfold receive
  dsimp only
  split
  · exact h.change halive rfl rfl rfl
  · split
    · have hsame := sameCounts_afterWait (T := T) (r := r) σ { t with
        consumed := Function.update t.consumed σ (t.consumed σ + 1) }
      exact h.change halive hsame.sent hsame.queued hsame.died
    · exact h.change halive rfl rfl rfl

theorem queueOk_setStatus (h : ∀ q, QueueOk T queueSizeMax q (s.status q))
    (ht : QueueOk T queueSizeMax r t) (q : Fin n) :
    QueueOk T queueSizeMax q ((s.setStatus r t).status q) := by
  by_cases hq : q = r
  · subst hq
    simpa [State.setStatus] using ht
  · simpa [State.setStatus, Function.update_of_ne hq] using h q

theorem queueOk_advance (h : ∀ q, QueueOk T queueSizeMax q (s.status q))
    (hs : Barrier.advance T queueSizeMax s r = some s') (q : Fin n) :
    QueueOk T queueSizeMax q (s'.status q) := by
  unfold Barrier.advance at hs
  dsimp only at hs
  split at hs
  · cases hs
  · rename_i hguard
    have halive : (s.status r).died = false := by
      by_contra hdied
      exact hguard (.inr (Bool.not_eq_false _ ▸ hdied))
    split at hs
    · cases hs
    · split at hs <;> cases hs
      exact queueOk_setStatus (s := s.setSlot r _ 0) h (queueOk_receive (h r) halive _) q
    · rename_i σ hpc
      split at hs
      · cases hs
        exact queueOk_setStatus h ((h r).sameCounts halive (sameCounts_afterNotify σ _)) q
      · rename_i p hp
        have hσ : T.neighbor r σ ≠ none := by simp [hp]
        split at hs <;> cases hs
        · rename_i hfull
          refine queueOk_setStatus h ?_ q
          exact ⟨(h r).queued, (h r).absent, fun _ => ⟨hfull, σ, hpc, hσ⟩⟩
        · have hpost := ((h r).post halive hσ).sameCounts halive
            (sameCounts_afterNotify (T := T) (r := r) σ _)
          exact queueOk_setStatus (s := { s with posted := _ }) h hpost q

theorem queueOk_next {a : Action n} (h : ∀ q, QueueOk T queueSizeMax q (s.status q))
    (hs : Barrier.next T queueSizeMax s a = some s') (q : Fin n) :
    QueueOk T queueSizeMax q (s'.status q) := by
  cases a with
  | call r =>
    simp only [Barrier.next] at hs
    split at hs <;> cases hs
    rename_i hcall
    have halive := (h r).alive (by simp [hcall.2])
    exact queueOk_setStatus h ((h r).sameCounts halive (sameCounts_enter _)) q
  | advance r => exact queueOk_advance h hs q
  | timeout r =>
    simp only [Barrier.next] at hs
    split at hs
    · rename_i σ hpc
      split at hs <;> cases hs
      have halive := (h r).alive (by simp [hpc])
      refine queueOk_setStatus h ?_ q
      exact (h r).change halive rfl rfl rfl
    · cases hs
  | arrive m =>
    simp only [Barrier.next] at hs
    split at hs <;> cases hs
    exact h q
  | gaspiWait r =>
    simp only [Barrier.next] at hs
    split at hs <;> cases hs
    rename_i hidle
    have halive := (h r).alive (by simp [hidle.2])
    refine queueOk_setStatus h ?_ q
    refine ⟨Nat.zero_le _, (h r).absent, fun hc => ?_⟩
    rw [show (s.status r).died = true from hc] at halive
    cases halive

theorem queue_invariant (T : Tree n) (queueSizeMax : ℕ) :
    (barriers T queueSizeMax).Invariant fun s => ∀ q, QueueOk T queueSizeMax q (s.status q) := by
  constructor
  · rintro s rfl q
    exact ⟨Nat.zero_le _, fun _ _ => rfl, nofun⟩
  · exact fun s a s' _ h hs => queueOk_next h hs

/-- A rank that is about to notify a neighbor has not done so in this barrier. -/
theorem StatusOk.sent_lt (h : StatusOk T r t) (hpc : t.pc = .notifying σ)
    (hσ : T.neighbor r σ ≠ none) : t.sent σ < t.started := by
  cases h with
  | resting _ _ hidle =>
    rw [hpc] at hidle
    cases hidle
  | inside hprogress hstarted _ hcounted =>
    have hsent := hcounted.sent σ hσ
    have hlevel : ¬ sentAt σ ≤ level t := by
      cases σ <;> simp [sentAt, level, hpc]
    rw [decide_eq_false hlevel, Bool.toNat_false] at hsent
    omega

/-- A rank has three notifications to post in each barrier, at most. -/
theorem QueueOk.queued_lt (h : QueueOk T queueSizeMax r t) (hok : StatusOk T r t)
    (hpc : t.pc = .notifying σ) (hσ : T.neighbor r σ ≠ none) : t.queued < 3 * t.started := by
  have hle : ∀ τ, t.sent τ ≤ t.started := by
    intro τ
    by_cases hτ : T.neighbor r τ = none
    · rw [h.absent τ hτ]
      exact Nat.zero_le _
    · exact (hok.sent_bounds hτ).2
  have hqueued := h.queued
  have hlt := hok.sent_lt hpc hσ
  have hparent := hle .parent
  have hleft := hle .leftChild
  have hright := hle .rightChild
  cases σ <;> omega

/-! ### Steps -/

/-- The steps of the ranks in `barrier` and of their notifications, without the calls and the
timeouts. -/
def Action.goesOn : Action n → Bool
  | .advance _ | .arrive _ => true
  | .call _ | .timeout _ | .gaspiWait _ => false

/-- No rank calls a barrier after the `k`-th, and none gives up its wait for a right child. -/
def Within (k : ℕ) (s : State n) (a : Action n) : Prop :=
  KeepsWaiting s a ∧ ∀ r, a = .call r → (s.status r).returned < k

instance (k : ℕ) (s : State n) (a : Action n) : Decidable (Within k s a) :=
  inferInstanceAs (Decidable (_ ∧ _))

/-- What holds in the runs of the first `k` barriers. -/
structure WithinOk (T : Tree n) (queueSizeMax k : ℕ) (s : State n) : Prop where
  ok : BarrierOk T s
  halfway : ∀ r, Halfway (s.status r)
  queue : ∀ r, QueueOk T queueSizeMax r (s.status r)
  started : ∀ r, (s.status r).started ≤ k

/-- The steps that are left, without calls and timeouts, until all ranks have returned from `k`
barriers: each level of a rank is one step of it, after which a notification may have to arrive. -/
def stepsLeft (k : ℕ) (s : State n) : ℕ :=
  ∑ r, 2 * (7 * k - stage (s.status r)) + s.posted.length

/-- A rank has room on its queue for the notification that it is about to post. -/
theorem WithinOk.queued_lt (h : WithinOk T queueSizeMax k s) (hmax : 3 * k ≤ queueSizeMax)
    (hpc : (s.status r).pc = .notifying σ) (hσ : T.neighbor r σ ≠ none) :
    (s.status r).queued < queueSizeMax := by
  have hlt := (h.queue r).queued_lt (h.ok.status r) hpc hσ
  have hstarted := h.started r
  omega

theorem WithinOk.alive (h : WithinOk T queueSizeMax k s) (hmax : 3 * k ≤ queueSizeMax)
    (r : Fin n) : (s.status r).died = false := by
  by_contra hdied
  rw [Bool.not_eq_false] at hdied
  obtain ⟨hfull, σ, hpc, hσ⟩ := (h.queue r).died hdied
  exact absurd (h.queued_lt hmax hpc hσ) hfull.not_gt

theorem WithinOk.stage_le (h : WithinOk T queueSizeMax k s) (r : Fin n) :
    stage (s.status r) ≤ 7 * k := by
  have hstarted := h.started r
  rw [(h.ok.status r).started_eq] at hstarted
  rw [stage, reach]
  cases hprogress : (s.status r).barrierIsInProgress with
  | false =>
    rw [hprogress, Bool.toNat_false] at hstarted
    simp only [Bool.false_eq_true, if_false]
    omega
  | true =>
    rw [hprogress, Bool.toNat_true] at hstarted
    have hlevel : level (s.status r) ≤ 5 := by
      unfold level
      repeat' split
      all_goals decide
    simp only [if_true]
    omega

theorem stepsLeft_setStatus (k : ℕ) (s : State n) (r : Fin n) (t : BarrierStatus) :
    stepsLeft k (s.setStatus r t) + 2 * (7 * k - stage (s.status r)) =
      stepsLeft k s + 2 * (7 * k - stage t) := by
  have htotal := Ledger.total_update (fun _ t => 2 * (7 * k - stage t)) s.status r t
  simp only [Ledger.total] at htotal
  simp only [stepsLeft, State.setStatus]
  omega

/-- A rank that gets on has two steps less. -/
theorem stepsLeft_lt (hlt : stage (s.status r) < stage t) (hle : stage t ≤ 7 * k) :
    stepsLeft k (s.setStatus r t) + 2 ≤ stepsLeft k s := by
  have htotal := stepsLeft_setStatus k s r t
  omega

theorem stepsLeft_le (hle : stage (s.status r) ≤ stage t) :
    stepsLeft k (s.setStatus r t) ≤ stepsLeft k s := by
  have htotal := stepsLeft_setStatus k s r t
  omega

/-- `advance` gets a rank on whose queue has room, and posts one notification at most. -/
structure Advanced (s s' : State n) (r : Fin n) : Prop where
  stage_lt : stage (s.status r) < stage (s'.status r)
  started : (s'.status r).started = (s.status r).started
  others : s'.status = Function.update s.status r (s'.status r)
  posted : s'.posted.length ≤ s.posted.length + 1

theorem BarrierOk.advanced (h : BarrierOk T s) (hhalf : Halfway (s.status r))
    (hroom : ∀ σ, (s.status r).pc = .notifying σ → T.neighbor r σ ≠ none →
      (s.status r).queued < queueSizeMax)
    (hs : Barrier.advance T queueSizeMax s r = some s') : Advanced s s' r := by
  have hr := h.status r
  unfold Barrier.advance at hs
  dsimp only at hs
  split at hs
  · cases hs
  · split at hs
    · cases hs
    · rename_i σ hpc
      split at hs
      · cases hs
      · rename_i hslot
        cases hs
        obtain ⟨q, hq, hval⟩ := h.value r σ hslot
        have hstage := stage_afterWait hr hhalf hpc (u := { s.status r with
          consumed := Function.update (s.status r).consumed σ ((s.status r).consumed σ + 1) })
          ⟨rfl, rfl, rfl⟩
        have hsame := sameBarrier_afterWait (T := T) (r := r) σ { s.status r with
          consumed := Function.update (s.status r).consumed σ ((s.status r).consumed σ + 1) }
        simp only [receive, hq, if_pos hval, State.setStatus]
        refine ⟨?_, ?_, ?_, Nat.le_succ _⟩
        · simpa using hstage
        · simpa using hsame.started
        · simp [State.setSlot]
    · rename_i σ hpc
      split at hs
      · cases hs
        have hstage := stage_afterNotify (T := T) hr hpc (u := s.status r) ⟨rfl, rfl, rfl⟩
        refine ⟨?_, ?_, ?_, Nat.le_succ _⟩
        · simpa [State.setStatus] using hstage
        · simpa [State.setStatus] using started_afterNotify σ (s.status r)
        · simp [State.setStatus]
      · rename_i q hq
        rw [if_neg (hroom σ hpc (by simp [hq])).not_ge] at hs
        cases hs
        have hstage := stage_afterNotify (T := T) hr hpc (u := { s.status r with
          sent := Function.update (s.status r).sent σ ((s.status r).sent σ + 1)
          queued := (s.status r).queued + 1 }) ⟨rfl, rfl, rfl⟩
        have hstarted := started_afterNotify (T := T) (r := r) σ { s.status r with
          sent := Function.update (s.status r).sent σ ((s.status r).sent σ + 1)
          queued := (s.status r).queued + 1 }
        refine ⟨?_, ?_, ?_, ?_⟩
        · simpa [State.setStatus] using hstage
        · simpa [State.setStatus] using hstarted
        · simp [State.setStatus]
        · simp [State.setStatus]

theorem WithinOk.next {a : Action n} (h : WithinOk T queueSizeMax k s)
    (hmax : 3 * k ≤ queueSizeMax) (hw : Within k s a)
    (hs : Barrier.next T queueSizeMax s a = some s') : WithinOk T queueSizeMax k s' := by
  refine ⟨h.ok.next hs, halfway_next h.ok h.halfway hw.1 hs, queueOk_next h.queue hs, fun q => ?_⟩
  cases a with
  | call r =>
    simp only [Barrier.next] at hs
    split at hs <;> cases hs
    rename_i hcall
    by_cases hq : q = r
    · subst hq
      have hstarted := (stage_enter (h.ok.status q) hcall.2).2
      have hlt := hw.2 q rfl
      simp only [State.setStatus, Function.update_self]
      omega
    · simpa [State.setStatus, Function.update_of_ne hq] using h.started q
  | advance r =>
    have hadvanced := h.ok.advanced (h.halfway r) (fun σ => h.queued_lt hmax) hs
    by_cases hq : q = r
    · rw [hq, hadvanced.started]
      exact h.started r
    · rw [hadvanced.others, Function.update_of_ne hq]
      exact h.started q
  | timeout r =>
    simp only [Barrier.next] at hs
    split at hs
    · split at hs <;> cases hs
      by_cases hq : q = r
      · subst hq
        simpa [State.setStatus] using h.started q
      · simpa [State.setStatus, Function.update_of_ne hq] using h.started q
    · cases hs
  | arrive m =>
    simp only [Barrier.next] at hs
    split at hs <;> cases hs
    exact h.started q
  | gaspiWait r =>
    simp only [Barrier.next] at hs
    split at hs <;> cases hs
    by_cases hq : q = r
    · subst hq
      simpa [State.setStatus] using h.started q
    · simpa [State.setStatus, Function.update_of_ne hq] using h.started q

/-- Every step in `barrier` uses up one of those that are left, and the others add none. -/
theorem WithinOk.stepsLeft_next {a : Action n} (h : WithinOk T queueSizeMax k s)
    (hmax : 3 * k ≤ queueSizeMax) (hw : Within k s a)
    (hs : Barrier.next T queueSizeMax s a = some s') :
    (if a.goesOn then 1 else 0) + stepsLeft k s' ≤ stepsLeft k s := by
  have h' := h.next hmax hw hs
  cases a with
  | call r =>
    simp only [Barrier.next] at hs
    split at hs <;> cases hs
    rename_i hcall
    simp only [Action.goesOn, Bool.false_eq_true, if_false, Nat.zero_add]
    exact stepsLeft_le (stage_enter (h.ok.status r) hcall.2).1
  | advance r =>
    have hadvanced := h.ok.advanced (h.halfway r) (fun σ => h.queued_lt hmax) hs
    have hlt := stepsLeft_lt hadvanced.stage_lt (h'.stage_le r)
    have hposted := hadvanced.posted
    have hsum : stepsLeft k s' + s.posted.length =
        stepsLeft k (s.setStatus r (s'.status r)) + s'.posted.length := by
      simp only [stepsLeft, State.setStatus]
      rw [← hadvanced.others]
      omega
    simp only [Action.goesOn, if_true]
    omega
  | timeout r =>
    simp only [Barrier.next] at hs
    split at hs
    · rename_i hpc
      split at hs <;> cases hs
      simp only [Action.goesOn, Bool.false_eq_true, if_false, Nat.zero_add]
      apply stepsLeft_le
      simp only [stage, reach, level, hpc, le_refl]
    · cases hs
  | arrive m =>
    simp only [Barrier.next] at hs
    split at hs <;> cases hs
    rename_i hm
    have hpos := List.length_pos_of_mem hm
    simp only [Action.goesOn, if_true, stepsLeft, State.setSlot, List.length_erase_of_mem hm]
    omega
  | gaspiWait r =>
    simp only [Barrier.next] at hs
    split at hs <;> cases hs
    simp only [Action.goesOn, Bool.false_eq_true, if_false, Nat.zero_add]
    exact stepsLeft_le (le_of_eq rfl)

/-! ### No deadlock -/

/-- Nothing can happen in `barrier` but that waits time out. -/
def Stuck (T : Tree n) (queueSizeMax k : ℕ) (s : State n) : Prop :=
  ∀ a, Within k s a → (∀ r, a ≠ .timeout r ∧ a ≠ .gaspiWait r) →
    Barrier.next T queueSizeMax s a = none

theorem Stuck.posted_eq_nil (h : Stuck T queueSizeMax k s) : s.posted = [] := by
  apply List.eq_nil_iff_forall_not_mem.mpr
  intro m hm
  have hnone := h (.arrive m) ⟨trivial, by simp⟩ (by simp)
  simp only [Barrier.next, if_pos hm] at hnone
  cases hnone

/-- A rank that has not returned from all barriers waits for a notification that has not arrived. -/
theorem Stuck.waits (h : Stuck T queueSizeMax k s) (hok : WithinOk T queueSizeMax k s)
    (hmax : 3 * k ≤ queueSizeMax) (hlt : (s.status r).returned < k) :
    ∃ σ, (s.status r).pc = .waiting σ ∧ s.slots r σ = 0 := by
  have hfailed := (hok.ok.status r).counted.failed
  have hadvance := h (.advance r) ⟨trivial, by simp⟩ (by simp)
  simp only [Barrier.next, Barrier.advance, hfailed, hok.alive hmax r, Bool.false_eq_true,
    or_self, if_false] at hadvance
  cases hpc : (s.status r).pc with
  | idle =>
    have hcall := h (.call r) ⟨trivial, fun q hq => by cases hq; exact hlt⟩ (by simp)
    simp only [Barrier.next, hfailed, hpc, and_self, if_true] at hcall
    cases hcall
  | waiting σ =>
    refine ⟨σ, rfl, ?_⟩
    by_contra hslot
    rw [hpc] at hadvance
    simp only [if_neg hslot] at hadvance
    cases hadvance
  | notifying σ =>
    rw [hpc] at hadvance
    cases hq : T.neighbor r σ <;> simp only [hq] at hadvance
    · cases hadvance
    · split at hadvance <;> cases hadvance

/-- What a rank waits for has not been sent. -/
theorem Stuck.sent_eq (h : Stuck T queueSizeMax k s) (hok : WithinOk T queueSizeMax k s)
    (hmax : 3 * k ≤ queueSizeMax) (hlt : (s.status r).returned < k)
    (hpc : (s.status r).pc = .waiting σ) :
    ∃ q, T.neighbor r σ = some q ∧ (s.status q).sent (facing r q σ) = (s.status r).returned := by
  obtain ⟨τ, hτ, hslot⟩ := h.waits hok hmax hlt
  obtain rfl : τ = σ := Point.waiting.inj (hτ.symm.trans hpc)
  obtain ⟨hne, hconsumed⟩ := (hok.ok.status r).waits (hok.halfway r) hpc
  obtain ⟨q, hq⟩ := Option.ne_none_iff_exists'.mp hne
  have hedge := hok.ok.edge r q τ hq
  rw [h.posted_eq_nil, hconsumed, decide_eq_false (by simp [hslot])] at hedge
  refine ⟨q, hq, ?_⟩
  simpa using hedge.symm

/-- No rank waits for a child: the child would wait for one of its own. -/
theorem Stuck.not_waiting_child (h : Stuck T queueSizeMax k s) (hok : WithinOk T queueSizeMax k s)
    (hmax : 3 * k ≤ queueSizeMax) (hT : T.Grounded)
    (r : Fin n) :
    (s.status r).returned < k → ∀ σ, σ ≠ .parent → (s.status r).pc ≠ .waiting σ := by
  refine hT.induct_children (fun r => (s.status r).returned < k → ∀ σ, σ ≠ .parent →
    (s.status r).pc ≠ .waiting σ) (fun r ih hlt σ hσ hpc => ?_) r
  obtain ⟨q, hq, hsent⟩ := h.sent_eq hok hmax hlt hpc
  have hback := T.neighbor_facing r q σ hq
  rw [facing_of_ne_parent hσ r q] at hback hsent
  rw [(hok.ok.status q).counted.sent _ (by rw [hback]; simp)] at hsent
  have hlt' : (s.status q).returned < k := by omega
  obtain ⟨τ, hτ, -⟩ := h.waits hok hmax hlt'
  by_cases hparent : τ = .parent
  · subst hparent
    -- the child has sent its notification, and waits for one that its parent has sent
    obtain ⟨p, hp, hdown⟩ := h.sent_eq hok hmax hlt' hτ
    obtain rfl : r = p := Option.some.inj (hback.symm.trans hp)
    have hreach := ((hok.ok.status q).stage_waiting hτ).2.1 rfl
    rw [hreach, decide_eq_true (show sentAt .parent ≤ 3 from le_rfl), Bool.toNat_true] at hsent
    have hforth := T.neighbor_facing q r .parent hp
    rw [(hok.ok.status r).counted.sent _ (by rw [hforth]; simp)] at hdown
    omega
  · exact ih σ q hσ hq hlt' τ hparent hτ

/-- No rank waits for its parent: the parent would wait for its own. -/
theorem Stuck.not_waiting_parent (h : Stuck T queueSizeMax k s) (hok : WithinOk T queueSizeMax k s)
    (hmax : 3 * k ≤ queueSizeMax) (hT : T.Grounded)
    (r : Fin n) : (s.status r).returned < k → (s.status r).pc ≠ .waiting .parent := by
  refine T.induct (fun r => (s.status r).returned < k → (s.status r).pc ≠ .waiting .parent) ?_ ?_ r
  · intro hlt hpc
    exact ((hok.ok.status T.root).waits (hok.halfway _) hpc).1 hT.root
  · intro r p hp ih hlt hpc
    obtain ⟨q, hq, hsent⟩ := h.sent_eq hok hmax hlt hpc
    obtain rfl : p = q := Option.some.inj (hp.symm.trans hq)
    have hback := T.neighbor_facing r p _ hp
    rw [(hok.ok.status p).counted.sent _ (by rw [hback]; simp)] at hsent
    have hlt' : (s.status p).returned < k := by omega
    obtain ⟨τ, hτ, -⟩ := h.waits hok hmax hlt'
    by_cases hparent : τ = .parent
    · subst hparent
      exact ih hlt' hτ
    · exact h.not_waiting_child hok hmax hT p hlt' τ hparent hτ

/-- Unless all ranks have returned from all barriers, something can happen. -/
theorem Stuck.returned_eq (h : Stuck T queueSizeMax k s) (hok : WithinOk T queueSizeMax k s)
    (hmax : 3 * k ≤ queueSizeMax) (hT : T.Grounded) (r : Fin n) :
    (s.status r).returned = k := by
  have hle : (s.status r).returned ≤ k := by
    have hstarted := hok.started r
    rw [(hok.ok.status r).started_eq] at hstarted
    omega
  by_contra hne
  have hlt : (s.status r).returned < k := by omega
  obtain ⟨σ, hσ, -⟩ := h.waits hok hmax hlt
  by_cases hparent : σ = .parent
  · subst hparent
    exact h.not_waiting_parent hok hmax hT r hlt hσ
  · exact h.not_waiting_child hok hmax hT r hlt σ hparent hσ

/-! ### Completion -/

/-- From every state of the runs in which no rank gives up its wait for a right child, and for every
number `k` of barriers whose notifications fit in a queue: however the ranks go on within these
barriers, and however often their waits time out, they take at most `stepsLeft` steps in `barrier`,
and no notification fails; and when nothing can happen there but that waits time out, all ranks have
returned from all `k` barriers. -/
theorem barrier_completes (h : 2 ≤ n) {s t : State n} {as : List (Action n)}
    (hr : ((barriers (infixedTree h) queueSizeMax).restrict KeepsWaiting).Reachable s)
    (hk : ∀ r, (s.status r).started ≤ k) (hmax : 3 * k ≤ queueSizeMax)
    (hrun : ((barriers (infixedTree h) queueSizeMax).restrict (Within k)).run s as = some t) :
    as.countP Action.goesOn + stepsLeft k t ≤ stepsLeft k s ∧
      (∀ r, (t.status r).died = false) ∧
      (Stuck (infixedTree h) queueSizeMax k t → ∀ r, (t.status r).returned = k) := by
  have hall := Transition.System.reachable_of_restrict hr
  have hok : WithinOk (infixedTree h) queueSizeMax k s :=
    ⟨(barrierOk_invariant _ _).holds hall, (halfway_invariant _ _).holds hr,
      (queue_invariant _ _).holds hall, hk⟩
  have hstep : ∀ u a u', WithinOk (infixedTree h) queueSizeMax k u →
      ((barriers (infixedTree h) queueSizeMax).restrict (Within k)).next u a = some u' →
      WithinOk (infixedTree h) queueSizeMax k u' := by
    intro u a u' hu hs
    obtain ⟨hw, hs⟩ := Transition.System.next_restrict.mp hs
    exact hu.next hmax hw hs
  have hend := Transition.System.run_induction hstep hok hrun
  have hcost : as.countP Action.goesOn + stepsLeft k t ≤ stepsLeft k s := by
    rw [← Transition.System.cost_eq_countP hrun]
    apply Transition.System.cost_le hstep ?_ hok hrun
    intro u a u' hu hs
    obtain ⟨hw, hs⟩ := Transition.System.next_restrict.mp hs
    exact hu.stepsLeft_next hmax hw hs
  refine ⟨hcost, hend.alive hmax, fun hstuck => ?_⟩
  exact hstuck.returned_eq hend hmax (infixedTree_grounded h)

/-- Three ranks in their first barrier, in which the wait of rank 0 times out once. -/
def complete : List (Action 3) :=
  release ++ [.arrive ⟨2, .parent, 1⟩, .advance 2, .advance 2, .advance 2]

theorem barrier_completes_three :
    ∃ t, ((barriers (infixedTree (n := 3) (by decide)) 1024).restrict (Within 1)).run (initial 3)
        complete = some t ∧
      complete.countP Action.goesOn + stepsLeft 1 t ≤ stepsLeft 1 (initial 3) := by
  have hsome : (((barriers (infixedTree (n := 3) (by decide)) 1024).restrict (Within 1)).run
      (initial 3) complete).isSome = true := by decide +kernel
  obtain ⟨t, hrun⟩ := Option.isSome_iff_exists.mp hsome
  have hk : ∀ r, ((initial 3).status r).started ≤ 1 := fun _ => Nat.zero_le _
  exact ⟨t, hrun, (barrier_completes (by decide) (.init rfl) hk (by decide) hrun).1⟩

/-- A rank whose queue is full does not get over its notification. -/
example : ((barriers (infixedTree (n := 3) (by decide)) 0).run (initial 3)
    [.call 0, .advance 0]).any (fun s => (s.status 0).died && (s.status 0).sent .parent == 0) =
      true := by
  decide +kernel

/-! ### A wait for a right child that is given up -/

/-- The rank has heard from its left child in its barrier, and has given up its wait for the right
one. -/
structure Abandoned (t : BarrierStatus) : Prop where
  progress : t.barrierIsInProgress = true
  left : t.leftChildOk = true
  right : t.rightChildOk = false
  pc : t.pc = .idle ∨ t.pc = .waiting .leftChild

theorem Abandoned.reach_eq (h : Abandoned t) : reach t = 1 := by
  rw [reach, h.progress]
  rcases h.pc with hpc | hpc <;> simp [level, hpc, h.left, h.right]

theorem status_advance (hs : advance T queueSizeMax s q = some s') :
    ∃ u, s'.status = Function.update s.status q u := by
  unfold advance at hs
  dsimp only at hs
  split at hs
  · cases hs
  · split at hs
    · cases hs
    · split at hs <;> cases hs
      exact ⟨_, rfl⟩
    · split at hs
      · cases hs
        exact ⟨_, rfl⟩
      · split at hs <;> cases hs <;> exact ⟨_, rfl⟩

/-- The left child does not notify the rank again before it is notified itself. -/
theorem Abandoned.advance_eq_none (h : Abandoned (s.status r)) (hok : BarrierOk T s) :
    Barrier.advance T queueSizeMax s r = none := by
  have hfailed := (hok.status r).counted.failed
  simp only [Barrier.advance, hfailed, Bool.false_eq_true, false_or, ite_eq_left_iff]
  intro _
  rcases h.pc with hpc | hpc
  · simp only [hpc]
  · have hslot : s.slots r .leftChild = 0 := by
      by_contra hslot
      have hfresh := hok.fresh hpc hslot
      obtain ⟨q, hq, -⟩ := hok.value r .leftChild hslot
      rw [(hok.status r).counted.consumed _ (by rw [hq]; simp), h.reach_eq] at hfresh
      simp [consumedAt] at hfresh
    simp only [hpc, hslot, if_true]

/-- Whatever happens, the rank does not go on. -/
theorem Abandoned.next {a : Action n} (h : Abandoned (s.status r)) (hok : BarrierOk T s)
    (hs : Barrier.next T queueSizeMax s a = some s') :
    Abandoned (s'.status r) ∧ (s'.status r).returned = (s.status r).returned := by
  have hother : ∀ {q u}, q ≠ r → Abandoned (Function.update s.status q u r) ∧
      (Function.update s.status q u r).returned = (s.status r).returned := by
    intro q u hq
    rw [Function.update_of_ne hq.symm]
    exact ⟨h, rfl⟩
  have hown : ∀ pc, pc = .idle ∨ pc = .waiting .leftChild →
      Abandoned (Function.update s.status r { s.status r with pc } r) ∧
      (Function.update s.status r { s.status r with pc } r).returned = (s.status r).returned := by
    intro pc hpc
    rw [Function.update_self]
    exact ⟨⟨h.progress, h.left, h.right, hpc⟩, rfl⟩
  cases a with
  | call q =>
    simp only [Barrier.next] at hs
    split at hs <;> cases hs
    by_cases hq : q = r
    · subst hq
      have hcall : enter T q (s.status q) = { s.status q with pc := .waiting .leftChild } := by
        simp [enter, initBarrier, h.progress, h.left, h.right, enterLeft]
      rw [hcall]
      exact hown _ (.inr rfl)
    · exact hother hq
  | advance q =>
    by_cases hq : q = r
    · subst hq
      have hnone : Barrier.advance T queueSizeMax s q = none := h.advance_eq_none hok
      rw [show Barrier.advance T queueSizeMax s q = some s' from hs] at hnone
      cases hnone
    · obtain ⟨u, hu⟩ := status_advance hs
      rw [hu]
      exact hother hq
  | timeout q =>
    simp only [Barrier.next] at hs
    split at hs
    · split at hs <;> cases hs
      by_cases hq : q = r
      · subst hq
        exact hown _ (.inl rfl)
      · exact hother hq
    · cases hs
  | arrive m =>
    simp only [Barrier.next] at hs
    split at hs <;> cases hs
    exact ⟨h, rfl⟩
  | gaspiWait q =>
    simp only [Barrier.next] at hs
    split at hs <;> cases hs
    by_cases hq : q = r
    · subst hq
      simp only [State.setStatus, Function.update_self]
      exact ⟨⟨h.progress, h.left, h.right, h.pc⟩, trivial⟩
    · exact hother hq

/-- Before a rank returns from a barrier, all ranks have heard from their children in it. -/
theorem BarrierOk.gathered_of_returned (h : BarrierOk T s) (q r : Fin n) :
    Gathered s r (s.status q).returned := by
  have hreleased : Released s T.root (s.status q).returned := by
    refine T.induct (fun v => Released s v (s.status q).returned →
      Released s T.root (s.status q).returned) id ?_ q (Nat.le_add_right _ _)
    exact fun v p hp ih hv => ih (h.released_parent hp hv)
  have hroot : Gathered s T.root (s.status q).returned := by
    refine hreleased.trans (Nat.add_le_add_left (toNat_decide_le fun hreach => ?_) _)
    exact (show 2 ≤ 4 by decide).trans hreach
  exact T.induct (fun v => Gathered s v (s.status q).returned) hroot
    (fun v p hp ih => h.gathered_child hp ih) r

/-- No rank returns from a barrier that another has not heard from its children in. -/
theorem Abandoned.returned_le (h : Abandoned (s.status r)) (hok : BarrierOk T s) (q : Fin n) :
    (s.status q).returned ≤ (s.status r).returned := by
  have hgathered := hok.gathered_of_returned q r
  rw [Gathered, h.reach_eq] at hgathered
  simpa using hgathered

/-- If a rank gives up its wait for its right child, no rank returns from that barrier any more,
whatever happens and however often `barrier` is called again. -/
theorem barrier_abandoned (h : 2 ≤ n) {s s' t : State n} {as : List (Action n)}
    (hr : (barriers (infixedTree h) queueSizeMax).Reachable s)
    (hpc : (s.status r).pc = .waiting .rightChild)
    (hs : (barriers (infixedTree h) queueSizeMax).next s (.timeout r) = some s')
    (hrun : (barriers (infixedTree h) queueSizeMax).run s' as = some t) (q : Fin n) :
    (t.status q).returned ≤ (s.status r).returned := by
  have hok := (barrierOk_invariant _ _).holds hr
  have hok' := hok.next
    (show Barrier.next (infixedTree h) queueSizeMax s (.timeout r) = some s' from hs)
  have hstart : Abandoned (s'.status r) ∧ (s'.status r).returned = (s.status r).returned := by
    have hpoint := hok.status r
    cases hpoint with
    | resting _ _ hidle =>
      rw [hpc] at hidle
      cases hidle
    | inside hprogress _ hpoint =>
      simp only [PointOk, hpc] at hpoint
      simp only [barriers, Barrier.next, hpc] at hs
      split at hs <;> cases hs
      simp only [State.setStatus, Function.update_self]
      exact ⟨⟨hprogress, hpoint.1, hpoint.2.1, .inl rfl⟩, trivial⟩
  have hend : BarrierOk (infixedTree h) t ∧ Abandoned (t.status r) ∧
      (t.status r).returned = (s.status r).returned := by
    refine Transition.System.run_induction (I := fun u => BarrierOk (infixedTree h) u ∧
      Abandoned (u.status r) ∧ (u.status r).returned = (s.status r).returned) ?_
      ⟨hok', hstart⟩ hrun
    rintro u a u' ⟨hu, hlost, hreturned⟩ hnext
    obtain ⟨hlost', hsame⟩ := hlost.next hu hnext
    exact ⟨hu.next hnext, hlost', hsame.trans hreturned⟩
  obtain ⟨hend, hlost, hreturned⟩ := hend
  rw [← hreturned]
  exact hlost.returned_le hend q

/-- The root gives up its wait for the second leaf just before its notification arrives. -/
def abandon : List (Action 3) :=
  [.advance 2, .arrive ⟨1, .rightChild, 2⟩, .call 1, .timeout 1, .call 1]

theorem barrier_abandoned_three :
    ∃ s s' t, (barriers (infixedTree (n := 3) (by decide)) 1024).run (initial 3) gather = some s ∧
      (barriers (infixedTree (n := 3) (by decide)) 1024).next s (.timeout 1) = some s' ∧
      (barriers (infixedTree (n := 3) (by decide)) 1024).run s' abandon = some t ∧
      (t.status 0).returned ≤ (s.status 1).returned := by
  have hany : ((barriers (infixedTree (n := 3) (by decide)) 1024).run (initial 3) gather).any (fun s =>
      (s.status 1).pc = .waiting .rightChild ∧
        ((barriers (infixedTree (n := 3) (by decide)) 1024).next s (.timeout 1)).any (fun s' =>
          ((barriers (infixedTree (n := 3) (by decide)) 1024).run s' abandon).isSome) = true) =
      true := by
    decide +kernel
  obtain ⟨s, hs, hrest⟩ := (Option.any_eq_true _ _).mp hany
  obtain ⟨hpc, hrest⟩ := of_decide_eq_true hrest
  obtain ⟨s', hs', hsome⟩ := (Option.any_eq_true _ _).mp hrest
  obtain ⟨t, ht⟩ := Option.isSome_iff_exists.mp hsome
  have hr := (Transition.System.Reachable.init rfl).run hs
  exact ⟨s, s', t, hs, hs', ht, barrier_abandoned (by decide) hr hpc hs' ht 0⟩

end Titus.Barrier
