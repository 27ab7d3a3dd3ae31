import Titus.Barrier.Invariant

/-! Barriers over timeouts: which calls resume where the call before them stopped. -/

namespace Titus.Barrier

variable {n : ℕ} {T : Tree n} {queueSizeMax : ℕ} {s s' : State n} {r : Fin n} {t : BarrierStatus}
  {σ : Side}

/-! ### The order of the barriers -/

/-- Rank `r` has gone on downwards `k` times. -/
def Released (s : State n) (r : Fin n) (k : ℕ) : Prop :=
  k ≤ (s.status r).returned + (decide (4 ≤ reach (s.status r))).toNat

/-- Rank `r` has heard from its children `k` times. -/
def Gathered (s : State n) (r : Fin n) (k : ℕ) : Prop :=
  k ≤ (s.status r).returned + (decide (2 ≤ reach (s.status r))).toNat

theorem toNat_decide_le {p q : Prop} [Decidable p] [Decidable q] (h : p → q) :
    (decide p).toNat ≤ (decide q).toNat := by
  by_cases hp : p
  · rw [decide_eq_true hp, decide_eq_true (h hp)]
  · rw [decide_eq_false hp]
    exact Nat.zero_le _

theorem BarrierOk.released_parent (h : BarrierOk T s) {p : Fin n} {k : ℕ}
    (hp : T.neighbor r .parent = some p) (hr : Released s r k) : Released s p k := by
  have hback := T.neighbor_facing r p _ hp
  have hle := h.consumed_le hp
  rw [(h.status r).counted.consumed _ (by rw [hp]; nofun),
    (h.status p).counted.sent _ (by rw [hback]; nofun)] at hle
  have hlevel : (decide (sentAt (facing r p .parent) ≤ reach (s.status p))).toNat ≤
      (decide (4 ≤ reach (s.status p))).toNat := by
    apply toNat_decide_le
    have hside := facing_parent_ne r p
    cases hσ : facing r p .parent with
    | parent => exact absurd hσ hside
    | leftChild => exact fun h => (show 4 ≤ 5 by decide).trans h
    | rightChild => exact fun h => (show 4 ≤ 6 by decide).trans h
  rw [show consumedAt .parent = 4 from rfl] at hle
  unfold Released at hr ⊢
  omega

theorem BarrierOk.gathered_child (h : BarrierOk T s) {p : Fin n} {k : ℕ}
    (hp : T.neighbor r .parent = some p) (hr : Gathered s p k) : Gathered s r k := by
  have hback := T.neighbor_facing r p _ hp
  have hle := h.consumed_le hback
  rw [T.facing_facing r p _ hp, (h.status p).counted.consumed _ (by rw [hback]; nofun),
    (h.status r).counted.sent _ (by rw [hp]; nofun)] at hle
  have hlevel : (decide (2 ≤ reach (s.status p))).toNat ≤
      (decide (consumedAt (facing r p .parent) ≤ reach (s.status p))).toNat := by
    apply toNat_decide_le
    have hside := facing_parent_ne r p
    cases hσ : facing r p .parent with
    | parent => exact absurd hσ hside
    | leftChild => exact fun h => (show 1 ≤ 2 by decide).trans h
    | rightChild => exact id
  have hlevel' : (decide (sentAt .parent ≤ reach (s.status r))).toNat ≤
      (decide (2 ≤ reach (s.status r))).toNat :=
    toNat_decide_le fun h => (show 2 ≤ 3 by decide).trans h
  unfold Gathered at hr ⊢
  omega

theorem StatusOk.started_eq (h : StatusOk T r t) :
    t.started = t.returned + t.barrierIsInProgress.toNat := by
  cases h with
  | resting hprogress hstarted =>
    rw [hprogress]
    exact hstarted
  | inside hprogress hstarted =>
    rw [hprogress]
    exact hstarted

/-- No rank has returned from a barrier that another has not started. -/
theorem BarrierOk.returned_le (h : BarrierOk T s) (r q : Fin n) :
    (s.status r).returned ≤ (s.status q).started := by
  have hup : ∀ v, Released s v (s.status r).returned → Released s T.root (s.status r).returned :=
    T.induct _ id fun v p hp ih hv => ih (h.released_parent hp hv)
  have hroot := hup r (Nat.le_add_right _ _)
  have hgathered : Gathered s T.root (s.status r).returned := by
    refine hroot.trans (Nat.add_le_add_left (toNat_decide_le fun h => ?_) _)
    exact (show 2 ≤ 4 by decide).trans h
  have hdown : ∀ v, Gathered s v (s.status r).returned :=
    T.induct _ hgathered fun v p hp ih => h.gathered_child hp ih
  refine (hdown q).trans ?_
  rw [(h.status q).started_eq]
  apply Nat.add_le_add_left
  unfold reach
  cases (s.status q).barrierIsInProgress with
  | false => exact le_rfl
  | true => exact Bool.toNat_le _

/-! ### Runs without a timeout in the wait for a right child -/

/-- The wait for the right child, after the left child has been heard, is not given up. -/
def KeepsWaiting (s : State n) : Action n → Prop
  | .timeout r => (s.status r).pc ≠ .waiting .rightChild
  | _ => True

instance (s : State n) (a : Action n) : Decidable (KeepsWaiting s a) :=
  match a with
  | .timeout r => inferInstanceAs (Decidable ((s.status r).pc ≠ .waiting .rightChild))
  | .call _ | .advance _ | .arrive _ | .gaspiWait _ => inferInstanceAs (Decidable True)

/-- A rank that has heard its left child and not its right one is in the wait for that one. -/
def Halfway (t : BarrierStatus) : Prop :=
  t.barrierIsInProgress = true → t.leftChildOk = true → t.rightChildOk = false →
    t.pc = .waiting .rightChild

theorem halfway_enterDown (h : t.rightChildOk = true) : Halfway (enterDown T r t) := by
  unfold enterDown Halfway
  split <;> simp [h]

theorem halfway_enterUp (t : BarrierStatus) : Halfway (enterUp T r t) := by
  unfold enterUp
  split
  · exact fun _ _ h => nomatch h
  · exact halfway_enterDown rfl

theorem halfway_enterRight (t : BarrierStatus) : Halfway (enterRight T r t) := by
  unfold enterRight
  split
  · exact fun _ _ _ => rfl
  · exact halfway_enterUp _

theorem halfway_enterLeft (h : t.leftChildOk = false) : Halfway (enterLeft T r t) := by
  unfold enterLeft
  split
  · intro _ hleft
    rw [h] at hleft
    cases hleft
  · exact halfway_enterRight t

theorem halfway_enter (h : Halfway t) (hpc : t.pc = .idle) : Halfway (enter T r t) := by
  unfold enter initBarrier
  cases hprogress : t.barrierIsInProgress with
  | false =>
    simp only
    exact halfway_enterLeft rfl
  | true =>
    simp only [if_true]
    split
    · rename_i hflag
      apply halfway_enterLeft
      by_contra hleft
      rw [Bool.not_eq_false] at hleft
      have hright := hflag.resolve_left (by rw [hleft]; nofun)
      have := h hprogress hleft hright
      rw [hpc] at this
      cases this
    · rename_i hflag
      rw [not_or, Bool.not_eq_false, Bool.not_eq_false] at hflag
      exact halfway_enterDown hflag.2

/-- A rank that goes downwards has heard from its right child. -/
theorem StatusOk.rightChildOk (h : StatusOk T r t)
    (hpc : t.pc = .waiting .parent ∨ ∃ σ, t.pc = .notifying σ) : t.rightChildOk = true := by
  cases h with
  | resting _ _ hidle =>
    rcases hpc with hpc | ⟨σ, hpc⟩ <;> rw [hpc] at hidle <;> cases hidle
  | inside _ _ hpoint =>
    rcases hpc with hpc | ⟨σ, hpc⟩
    · simp only [PointOk, hpc] at hpoint
      exact hpoint.2.1
    · cases σ <;> simp only [PointOk, hpc] at hpoint
      · exact hpoint.2.1
      · exact hpoint.2
      · exact hpoint.2

theorem halfway_afterWait (hpc : σ = .parent → t.rightChildOk = true) :
    Halfway (afterWait T r σ t) := by
  cases σ with
  | parent =>
    intro _ _ hright
    have hfalse : t.rightChildOk = false := hright
    rw [hpc rfl] at hfalse
    cases hfalse
  | leftChild => exact halfway_enterRight _
  | rightChild => exact halfway_enterUp _

theorem halfway_afterNotify (hright : t.rightChildOk = true) :
    Halfway (afterNotify T r σ t) := by
  cases σ with
  | parent => exact halfway_enterDown hright
  | leftChild =>
    intro _ _ h
    have hfalse : t.rightChildOk = false := h
    rw [hright] at hfalse
    cases hfalse
  | rightChild => nofun

theorem halfway_setStatus (h : ∀ q, Halfway (s.status q)) (ht : Halfway t) (q : Fin n) :
    Halfway ((s.setStatus r t).status q) := by
  by_cases hq : q = r
  · subst hq
    simpa [State.setStatus] using ht
  · simpa [State.setStatus, Function.update_of_ne hq] using h q

theorem halfway_advance (hok : BarrierOk T s) (h : ∀ q, Halfway (s.status q))
    (hs : advance T queueSizeMax s r = some s') (q : Fin n) : Halfway (s'.status q) := by
  have hr := hok.status r
  unfold advance at hs
  dsimp only at hs
  split at hs
  · cases hs
  · split at hs
    · cases hs
    · rename_i σ hpc
      split at hs
      · cases hs
      · rename_i hslot
        cases hs
        obtain ⟨p, hp, hval⟩ := hok.value r σ hslot
        refine halfway_setStatus (s := s.setSlot r σ 0) h ?_ q
        simp only [receive, hp, if_pos hval]
        exact halfway_afterWait fun hσ => hr.rightChildOk (.inl (by rw [hpc, hσ]))
    · rename_i σ hpc
      split at hs
      · cases hs
        exact halfway_setStatus h (halfway_afterNotify (hr.rightChildOk (.inr ⟨σ, hpc⟩))) q
      · split at hs <;> cases hs
        · exact halfway_setStatus h (by exact h r) q
        · refine halfway_setStatus (s := { s with posted := _ }) h ?_ q
          exact halfway_afterNotify (by exact hr.rightChildOk (.inr ⟨σ, hpc⟩))

theorem halfway_next {a : Action n} (hok : BarrierOk T s) (h : ∀ q, Halfway (s.status q))
    (hkeep : KeepsWaiting s a) (hs : next T queueSizeMax s a = some s') (q : Fin n) :
    Halfway (s'.status q) := by
  cases a with
  | call r =>
    simp only [next] at hs
    split at hs <;> cases hs
    rename_i hcall
    exact halfway_setStatus h (halfway_enter (h r) hcall.2) q
  | advance r => exact halfway_advance hok h hs q
  | timeout r =>
    simp only [next] at hs
    split at hs
    · split at hs <;> cases hs
      refine halfway_setStatus h (fun hprogress hleft hright => ?_) q
      exact absurd (h r hprogress hleft hright) hkeep
    · cases hs
  | arrive m =>
    simp only [next] at hs
    split at hs <;> cases hs
    exact h q
  | gaspiWait r =>
    simp only [next] at hs
    split at hs <;> cases hs
    exact halfway_setStatus h (by exact h r) q

theorem halfway_invariant (T : Tree n) (queueSizeMax : ℕ) :
    ((barriers T queueSizeMax).restrict KeepsWaiting).Invariant
      fun s => ∀ q, Halfway (s.status q) := by
  apply (barrierOk_invariant T queueSizeMax).restrict
  · rintro s rfl q
    nofun
  · exact fun s a s' hok h hkeep hs => halfway_next hok h hkeep hs

/-! ### Resumption -/

/-- What a barrier over timeouts makes sure of. -/
structure Resumable (T : Tree n) (s : State n) : Prop where
  /-- A rank returns from its `k`-th barrier after all ranks have started theirs. -/
  barrier : ∀ r q, (s.status r).returned ≤ (s.status q).started
  /-- What a rank waits for comes from a rank, and it has not consumed it before in this barrier. -/
  waits : ∀ r σ, (s.status r).pc = .waiting σ →
    T.neighbor r σ ≠ none ∧ (s.status r).consumed σ = (s.status r).returned
  /-- The assertions hold. -/
  asserts : ∀ r, (s.status r).failed = false
  /-- A rank notifies each neighbor once in a barrier, -/
  sent : ∀ r σ, T.neighbor r σ ≠ none → (s.status r).returned ≤ (s.status r).sent σ ∧
    (s.status r).sent σ ≤ (s.status r).started
  /-- between its start and its return. -/
  rests : ∀ r, (s.status r).barrierIsInProgress = false →
    (s.status r).started = (s.status r).returned

/-- A rank that waits for a neighbor in the runs of `halfway_invariant` has not heard from it. -/
theorem StatusOk.waits (h : StatusOk T r t) (hhalf : Halfway t) (hpc : t.pc = .waiting σ) :
    T.neighbor r σ ≠ none ∧ t.consumed σ = t.returned := by
  cases h with
  | resting _ _ hidle =>
    rw [hpc] at hidle
    cases hidle
  | inside hprogress hstarted hpoint hcounted =>
    cases σ with
    | parent =>
      simp only [PointOk, hpc] at hpoint
      simp only [level, hpc, hpoint.2.1, if_true] at hcounted
      exact ⟨hpoint.2.2, hcounted.consumed .parent hpoint.2.2⟩
    | leftChild =>
      simp only [PointOk, hpc] at hpoint
      have hleft : t.leftChildOk = false := by
        by_contra hleft
        rw [Bool.not_eq_false] at hleft
        have := hhalf hprogress hleft hpoint.1
        rw [hpc] at this
        cases this
      simp only [level, hpc, hpoint.1, hleft] at hcounted
      exact ⟨hpoint.2.1, hcounted.consumed .leftChild hpoint.2.1⟩
    | rightChild =>
      simp only [PointOk, hpc] at hpoint
      simp only [level, hpc, hpoint.1, hpoint.2.1, if_true] at hcounted
      exact ⟨hpoint.2.2, hcounted.consumed .rightChild hpoint.2.2⟩

theorem StatusOk.sent_bounds (h : StatusOk T r t) (hσ : T.neighbor r σ ≠ none) :
    t.returned ≤ t.sent σ ∧ t.sent σ ≤ t.started := by
  rw [h.counted.sent σ hσ, h.started_eq]
  refine ⟨Nat.le_add_right _ _, Nat.add_le_add_left ?_ _⟩
  unfold reach
  cases t.barrierIsInProgress with
  | false => cases σ <;> exact le_rfl
  | true => exact Bool.toNat_le _

/-- In every run in which no rank gives up its wait for a right child, the barriers over the tree of
`get_tree_neighbors` are resumable. -/
theorem barrier_resumable (h : 2 ≤ n) {s : State n}
    (hr : ((barriers (infixedTree h) queueSizeMax).restrict KeepsWaiting).Reachable s) :
    Resumable (infixedTree h) s := by
  have hok := (barrierOk_invariant _ _).holds (Transition.System.reachable_of_restrict hr)
  have hhalf := (halfway_invariant _ _).holds hr
  constructor
  · exact hok.returned_le
  · intro r σ hpc
    exact (hok.status r).waits (hhalf r) hpc
  · intro r
    exact (hok.status r).counted.failed
  · intro r σ hσ
    exact (hok.status r).sent_bounds hσ
  · intro r hrest
    rw [(hok.status r).started_eq, hrest]
    rfl

/-- Three ranks: the leaf 0 notifies the root 1, and both go on as far as they can. -/
def gather : List (Action 3) :=
  [.call 0, .call 1, .call 2, .advance 0, .arrive ⟨1, .leftChild, 0⟩, .advance 1]

/-- The second leaf notifies the root, which returns, and so does the first leaf. -/
def release : List (Action 3) :=
  gather ++ [.timeout 0, .advance 2, .arrive ⟨1, .rightChild, 2⟩, .advance 1, .advance 1, .advance 1,
    .arrive ⟨0, .parent, 1⟩, .call 0, .advance 0, .advance 0, .advance 0]

theorem barrier_resumable_three :
    ∃ s, ((barriers (infixedTree (n := 3) (by decide)) 1024).restrict KeepsWaiting).Reachable s ∧
      (s.status 0).returned = 1 ∧ (s.status 2).returned = 0 ∧
      Resumable (infixedTree (n := 3) (by decide)) s := by
  obtain ⟨s, hr, h0, h2⟩ := Transition.System.exists_reachable
    (S := (barriers (infixedTree (n := 3) (by decide)) 1024).restrict KeepsWaiting) rfl release
    (fun s => (s.status 0).returned = 1 ∧ (s.status 2).returned = 0) (by decide +kernel)
  exact ⟨s, hr, h0, h2, barrier_resumable _ hr⟩

/-- The root gives up its wait for the second leaf, and then waits for the first one again, whose
notification it has consumed. -/
theorem left_child_awaited_again :
    ∃ s, (barriers (infixedTree (n := 3) (by decide)) 1024).Reachable s ∧
      (s.status 1).pc = .waiting .leftChild ∧ (s.status 1).returned = 0 ∧
      (s.status 1).consumed .leftChild = 1 ∧ ¬ Resumable (infixedTree (n := 3) (by decide)) s := by
  obtain ⟨s, hr, hpc, hreturned, hconsumed⟩ := Transition.System.exists_reachable
    (S := barriers (infixedTree (n := 3) (by decide)) 1024) rfl (gather ++ [.timeout 1, .call 1])
    (fun s => (s.status 1).pc = .waiting .leftChild ∧ (s.status 1).returned = 0 ∧
      (s.status 1).consumed .leftChild = 1) (by decide +kernel)
  refine ⟨s, hr, hpc, hreturned, hconsumed, fun h => ?_⟩
  have := (h.waits 1 .leftChild hpc).2
  omega

end Titus.Barrier
