import Titus.Lib.Progress
import Titus.Results.LocalAlloc
import Titus.Results.Notification

/-! The end of what the ranks have begun: while some rank is in a push or in a flush, or something
is on its way to a segment, a step is possible that brings all of this closer to its end.  A rank
that has locked a segment is never held up, and the others are only by such ranks and by what is on
its way. -/

namespace Titus.Results

open Transition.System (toLex_sum_lt)

variable {n : ℕ} {net : Network n} {r v q : Fin n} {s s' : State n} {a : Action n}
  {m m' : BufferedSegment n} {t t' : RankResults n}

/-! ### How far a rank is from the end -/

/-- What has to come before a rank locks its own segment for a flush.  A push of the tmp segment
that fails leads to a flush. -/
def ResultPc.toLock : ResultPc n → ℕ
  | .reserving p | .reading p | .addingHead p _ | .addingCount p _ | .releasing p _ |
    .posting p _ => if p.site = .tmp then 4 else 0
  | .checking => 3
  | .asserting => 2
  | .locking => 1
  | _ => 0

/-- The steps of a push that are left. -/
def ResultPc.toPost : ResultPc n → ℕ
  | .reserving _ => 6
  | .reading _ => 5
  | .addingHead _ _ => 4
  | .addingCount _ _ => 3
  | .releasing _ _ => 2
  | .posting _ _ => 1
  | _ => 0

/-- What is left of a flush, on a rank with the segment `m`. -/
def toPurge (m : BufferedSegment n) (t : RankResults n) : ℕ :=
  match t.pc with
  | .waiting i => 5 + 2 * n + t.localTransitingResults.length + m.reserved.length +
      (m.reserved.length - i)
  | .collecting => 4 + 2 * n + t.localTransitingResults.length + m.reserved.length
  | .grouping c => 3 + 2 * (n - c) + t.localTransitingResults.length
  | .reserving p | .reading p | .addingHead p _ | .addingCount p _ | .releasing p _ |
    .posting p _ =>
    if p.site = .group then 2 + 2 * (n - p.target) + t.localTransitingResults.length else 0
  | .purging => 2
  | .unlocking => 1
  | _ => 0

/-- What has not arrived on a segment. -/
def toArrive (m : BufferedSegment n) : ℕ := (m.inbox.map fun b => b.writes.length + 1).sum

/-- What holds of the results in a run without a failed assertion. -/
structure RunOk (net : Network n) (s : State n) : Prop where
  results : ResultsOk net s
  conserved : Conserved s
  running : ∀ q, (s.rank q).failed = none

/-- What is left of all that the ranks have begun. -/
def unsettled (s : State n) : ℕ ×ₗ ℕ ×ₗ ℕ ×ₗ ℕ :=
  toLex (∑ q, (s.rank q).pc.toLock, toLex (∑ q, toPurge (s.segment q) (s.rank q),
    toLex (∑ q, (s.rank q).pc.toPost, ∑ q, toArrive (s.segment q))))

/-- No rank is in a push or in a flush, and nothing is on its way. -/
structure Quiet (s : State n) : Prop where
  idle : ∀ r, (s.rank r).pc = .idle
  inbox : ∀ v, (s.segment v).inbox = []

/-- The steps that go on with what has been begun. -/
def Ongoing (s : State n) (r : Fin n) : Action n → Prop
  | .advance => (s.rank r).pc ≠ .idle
  | .land _ _ | .deliver _ => True
  | _ => False

/-! ### A step brings the end closer -/

theorem toPurge_of_not_flushing (h : ¬ t.pc.flushing) : toPurge m t = 0 := by
  cases hpc : t.pc <;> simp_all [toPurge, ResultPc.flushing]

theorem toPurge_congr (h : m'.reserved = m.reserved) : toPurge m' t = toPurge m t := by
  simp only [toPurge, h]

/-- Rank `r` has less left of a flush or of a push. -/
def Lowers (m : BufferedSegment n) (t : RankResults n) (m' : BufferedSegment n)
    (t' : RankResults n) : Prop :=
  t'.pc.toLock < t.pc.toLock ∨ t'.pc.toLock = t.pc.toLock ∧
    (toPurge m' t' < toPurge m t ∨ toPurge m' t' = toPurge m t ∧ t'.pc.toPost < t.pc.toPost)

/-- What holds of the two ranks that a step concerns, and of the others. -/
theorem forall_update {P : Fin n → BufferedSegment n → RankResults n → Prop}
    (hr : P r (Function.update s.segment v m r) t) (hv : v ≠ r → P v m (s.rank v))
    (hother : ∀ q, P q (s.segment q) (s.rank q)) (q : Fin n) :
    P q (((s.setSegment v m).setRank r t).segment q) (((s.setSegment v m).setRank r t).rank q) := by
  simp only [State.segment_setRank, State.segment_setSegment, State.rank_setRank,
    State.rank_setSegment]
  by_cases hq : q = r
  · subst hq
    rwa [Function.update_self]
  · rw [Function.update_of_ne hq]
    by_cases hqv : q = v
    · subst hqv
      rw [Function.update_self]
      exact hv hq
    · rw [Function.update_of_ne hqv]
      exact hother q

theorem unsettled_lt (h : Lowers (s.segment r) (s.rank r) (Function.update s.segment v m r) t)
    (hv : v ≠ r → toPurge m (s.rank v) ≤ toPurge (s.segment v) (s.rank v)) :
    unsettled ((s.setSegment v m).setRank r t) < unsettled s := by
  have hrank : ((s.setSegment v m).setRank r t).rank r = t := by
    simp only [State.rank_setRank, Function.update_self]
  have hsegment : ((s.setSegment v m).setRank r t).segment r = Function.update s.segment v m r := by
    simp only [State.segment_setRank, State.segment_setSegment]
  apply toLex_sum_lt
  · apply forall_update (P := fun q _ t => t.pc.toLock ≤ (s.rank q).pc.toLock)
    · rcases h with h | h
      · exact h.le
      · exact h.1.le
    · exact fun _ => le_rfl
    · exact fun _ => le_rfl
  rcases h with h | ⟨-, h⟩
  · exact .inl ⟨r, by rwa [hrank]⟩
  right
  apply toLex_sum_lt
  · apply forall_update (P := fun q m t => toPurge m t ≤ toPurge (s.segment q) (s.rank q))
    · rcases h with h | h
      · exact h.le
      · exact h.1.le
    · exact hv
    · exact fun _ => le_rfl
  rcases h with h | ⟨-, h⟩
  · exact .inl ⟨r, by rwa [hrank, hsegment]⟩
  right
  apply toLex_sum_lt
  · apply forall_update (P := fun q _ t => t.pc.toPost ≤ (s.rank q).pc.toPost)
    · exact h.le
    · exact fun _ => le_rfl
    · exact fun _ => le_rfl
  exact .inl ⟨r, by rwa [hrank]⟩

/-- A step that changes rank `r` only. -/
theorem unsettled_setRank_lt (h : Lowers (s.segment r) (s.rank r) (s.segment r) t) :
    unsettled (s.setRank r t) < unsettled s := by
  have hlt := unsettled_lt (v := r) (m := s.segment r) (by rwa [Function.update_self])
    fun hne => absurd rfl hne
  rwa [State.setSegment_self] at hlt

/-- A step that changes rank `r` and its own segment. -/
theorem unsettled_own_lt (h : Lowers (s.segment r) (s.rank r) m t) :
    unsettled ((s.setSegment r m).setRank r t) < unsettled s :=
  unsettled_lt (by rwa [Function.update_self]) fun hne => absurd rfl hne

/-- A step that changes rank `r`, and of the target's segment nothing that a flush depends on. -/
theorem unsettled_target_lt (h : ∀ m', Lowers (s.segment r) (s.rank r) m' t)
    (hreserved : m.reserved = (s.segment v).reserved) :
    unsettled ((s.setSegment v m).setRank r t) < unsettled s :=
  unsettled_lt (h _) fun _ => (toPurge_congr hreserved).le

/-- What arrives on a segment is no longer on its way. -/
theorem unsettled_arrival_lt (hreserved : m.reserved = (s.segment v).reserved)
    (h : toArrive m < toArrive (s.segment v)) : unsettled (s.setSegment v m) < unsettled s := by
  have hle : ∀ q, toArrive ((s.setSegment v m).segment q) ≤ toArrive (s.segment q) := by
    intro q
    rw [State.segment_setSegment]
    by_cases hq : q = v
    · subst hq
      rw [Function.update_self]
      exact h.le
    · rw [Function.update_of_ne hq]
  apply toLex_sum_lt
  · exact fun _ => le_rfl
  right
  apply toLex_sum_lt
  · intro q
    rw [State.segment_setSegment]
    by_cases hq : q = v
    · subst hq
      rw [Function.update_self]
      exact (toPurge_congr hreserved).le
    · rw [Function.update_of_ne hq]
      exact le_rfl
  right
  apply toLex_sum_lt
  · exact fun _ => le_rfl
  right
  apply Finset.sum_lt_sum
  · exact fun q _ => hle q
  · refine ⟨v, Finset.mem_univ v, ?_⟩
    rwa [State.segment_setSegment, Function.update_self]

theorem length_settled_le (own : BufferedSegment n) (t : RankResults n) (k : Fin n)
    (selected : List Bool) :
    (settled own t k selected).localTransitingResults.length ≤ t.localTransitingResults.length := by
  simp only [settled, List.length_map]
  exact (Selection.keep_sublist _ _ _).length_le

/-- The loop of a flush goes on behind destination `k`. -/
theorem toPurge_settled_lt (own : BufferedSegment n) (t : RankResults n) (k : Fin n)
    (selected : List Bool) :
    toPurge m (settled own t k selected) <
      2 + 2 * (n - k.val) + t.localTransitingResults.length := by
  have hlen := length_settled_le own t k selected
  have hk := k.isLt
  simp only [toPurge, settled, List.length_map] at hlen ⊢
  omega

theorem RankOk.lowers_giveUp (h : RankOk net r m t) {p : Push n} (hpush : t.pc.push = some p)
    (selected : List Bool) (m' : BufferedSegment n) :
    Lowers m t m' (Results.giveUp m t p selected) := by
  have hpc : t.pc.toLock = (if p.site = .tmp then 4 else 0) ∧ 0 < t.pc.toPost ∧
      toPurge m t = if p.site = .group then
        2 + 2 * (n - p.target.val) + t.localTransitingResults.length else 0 := by
    unfold toPurge
    revert hpush
    cases t.pc <;> simp [ResultPc.push, ResultPc.toLock, ResultPc.toPost] <;> rintro rfl <;> simp
  obtain ⟨hlock, hpost, hpurge⟩ := hpc
  rcases h.giveUp p selected with ⟨hp, heq⟩ | ⟨⟨i, hp⟩, heq⟩ | ⟨hp, heq⟩
  · left
    rw [heq, hlock, hp]
    exact Nat.lt_succ_self 3
  · refine .inr ⟨?_, .inr ⟨?_, ?_⟩⟩
    · rw [heq, hlock, hp]
      rfl
    · rw [heq, hpurge, hp]
      rfl
    · rw [heq]
      exact hpost
  · refine .inr ⟨?_, .inl ?_⟩
    · rw [heq, hlock, hp]
      rfl
    · rw [heq, hpurge, if_pos hp]
      exact toPurge_settled_lt _ _ _ _

theorem RankOk.lowers_settle (h : RankOk net r m t) {p : Push n} {res : Reservation n}
    (hpc : t.pc = .posting p res) (m' : BufferedSegment n) :
    Lowers m t m' (Results.settle m t p res) := by
  have hlock : t.pc.toLock = if p.site = .tmp then 4 else 0 := by rw [hpc]; rfl
  have hpurge : toPurge m t = if p.site = .group then
      2 + 2 * (n - p.target.val) + t.localTransitingResults.length else 0 := by
    simp only [toPurge, hpc]
  rcases h.settle p res with ⟨hp, heq⟩ | ⟨i, hp, heq⟩ | ⟨hp, heq⟩
  · left
    rw [heq, hlock, hp]
    exact Nat.succ_pos 3
  · refine .inr ⟨?_, .inr ⟨?_, ?_⟩⟩
    · rw [heq, hlock, hp]
      rfl
    · rw [heq, hpurge, hp]
      rfl
    · rw [heq, hpc]
      exact Nat.one_pos
  · refine .inr ⟨?_, .inl ?_⟩
    · rw [heq, hlock, hp]
      rfl
    · rw [heq, hpurge, if_pos hp]
      exact toPurge_settled_lt _ _ _ _

/-- Every step of a push or of a flush brings the end closer, but for the wait for a lock. -/
theorem Stepped.unsettled_lt (hs : Stepped net s r .advance s') (h : ResultsOk net s)
    (hpc : (s.rank r).pc ≠ .idle) (hspin : (s.rank r).pc = .locking → s' ≠ s) :
    unsettled s' < unsettled s := by
  have hr := h.rank r
  cases hs with
  | startTmp hidle => exact absurd hidle hpc
  | spin hpc => exact absurd rfl (hspin hpc)
  | empty hpc | occupied hpc | bounded hpc =>
    apply unsettled_setRank_lt
    left
    simp [hpc, ResultPc.toLock]
  | lockOwn hpc =>
    apply unsettled_own_lt
    left
    rw [hpc]
    exact Nat.one_pos
  | consume i hpc hi =>
    apply unsettled_own_lt
    have hinside := (h.segment r).delivery.announced_inside i hi
    refine .inr ⟨by rw [hpc]; rfl, .inl ?_⟩
    simp only [toPurge, hpc]
    omega
  | waited i hpc =>
    apply unsettled_setRank_lt
    refine .inr ⟨by rw [hpc]; rfl, .inl ?_⟩
    simp only [toPurge, hpc]
    omega
  | collect hpc =>
    apply unsettled_setRank_lt
    refine .inr ⟨by rw [hpc]; rfl, .inl ?_⟩
    simp only [toPurge, hpc, List.length_append, List.length_map]
    omega
  | submit c off x e hpc hx =>
    apply unsettled_setRank_lt
    have hmem := List.mem_of_find?_eq_some hx
    have hpos := List.length_pos_of_mem hmem
    have hlen := List.length_eraseP_of_mem hmem (List.find?_some hx)
    refine .inr ⟨by simp only [submitResults], .inl ?_⟩
    simp only [toPurge, submitResults, hpc, hlen]
    omega
  | group c k hpc hk hnext =>
    apply unsettled_setRank_lt
    have hle := (nextKey_eq_some hnext).1
    have hlt := k.isLt
    refine .inr ⟨by rw [hpc]; rfl, .inl ?_⟩
    simp only [toPurge, hpc, if_true]
    omega
  | grouped c hpc =>
    apply unsettled_setRank_lt
    refine .inr ⟨by rw [hpc]; rfl, .inl ?_⟩
    simp only [toPurge, hpc]
    omega
  | purge hpc =>
    apply unsettled_own_lt
    refine .inr ⟨by rw [hpc]; rfl, .inl ?_⟩
    simp only [toPurge, hpc]
    omega
  | unlockOwn hpc =>
    apply unsettled_own_lt
    refine .inr ⟨by rw [hpc]; rfl, .inl ?_⟩
    simp only [toPurge, hpc]
    omega
  | lockFailed p hpc =>
    apply unsettled_setRank_lt
    exact hr.lowers_giveUp (by rw [hpc]; rfl) [] _
  | lockTaken p hpc =>
    apply unsettled_target_lt
    · intro m'
      exact .inr ⟨by rw [hpc]; rfl, .inr ⟨by simp only [toPurge, hpc],
        by rw [hpc]; exact Nat.lt_succ_self 5⟩⟩
    · rfl
  | select p res hpc =>
    apply unsettled_setRank_lt
    split
    · exact .inr ⟨by rw [hpc]; rfl, .inr ⟨by simp only [toPurge, hpc],
        by rw [hpc]; simp only [ResultPc.toPost]; omega⟩⟩
    · exact .inr ⟨by rw [hpc]; rfl, .inr ⟨by simp only [toPurge, hpc],
        by rw [hpc]; exact Nat.lt_succ_self 4⟩⟩
  | addHead p res hpc =>
    have hst := (h.locks.lock p.target r).mpr (by rw [hpc]; rfl)
    apply Results.unsettled_lt
    · exact .inr ⟨by rw [hpc]; rfl, .inr ⟨by simp only [toPurge, hpc],
        by rw [hpc]; exact Nat.lt_succ_self 3⟩⟩
    · -- the segment is locked by the rank that pushes, so that its own rank does not flush it
      intro _
      have hnot : ¬ (s.rank p.target).pc.flushing := by
        rw [← h.locks.flush, hst]
        rintro ⟨⟩
      rw [toPurge_of_not_flushing hnot]
      exact Nat.zero_le _
  | addCount p res hpc =>
    apply unsettled_target_lt
    · intro m'
      exact .inr ⟨by rw [hpc]; rfl, .inr ⟨by simp only [toPurge, hpc],
        by rw [hpc]; exact Nat.lt_succ_self 2⟩⟩
    · rfl
  | releaseEmpty p res hpc =>
    apply unsettled_target_lt
    · exact hr.lowers_giveUp (by rw [hpc]; rfl) _
    · rfl
  | release p res hpc =>
    apply unsettled_target_lt
    · intro m'
      exact .inr ⟨by rw [hpc]; rfl, .inr ⟨by simp only [toPurge, hpc],
        by rw [hpc]; exact Nat.lt_succ_self 1⟩⟩
    · rfl
  | post p res hpc =>
    apply unsettled_target_lt
    · exact hr.lowers_settle hpc
    · rfl

section Arrivals

variable {α : Type*} {l : List α} {i : ℕ} {b c : α}

theorem sum_map_eraseIdx (f : α → ℕ) (hb : l[i]? = some b) :
    (l.map f).sum = f b + ((l.eraseIdx i).map f).sum := by
  obtain ⟨hi, rfl⟩ := List.getElem?_eq_some_iff.mp hb
  rw [← List.sum_cons, ← List.map_cons]
  exact ((List.getElem_cons_eraseIdx_perm hi).map f).sum_eq.symm

theorem sum_map_set (f : α → ℕ) (hb : l[i]? = some b) :
    ((l.set i c).map f).sum = f c + ((l.eraseIdx i).map f).sum := by
  obtain ⟨hi, -⟩ := List.getElem?_eq_some_iff.mp hb
  rw [← List.sum_cons, ← List.map_cons]
  exact ((List.set_perm_cons_eraseIdx hi c).map f).sum_eq

end Arrivals

/-- What arrives on a segment is no longer on its way. -/
theorem unsettled_lt_of_arrival (hs : next net s (v, a) = some s') (ha : a.arrival) :
    unsettled s' < unsettled s := by
  cases a with
  | land i w =>
    simp only [next] at hs
    split at hs
    · cases hs
    · rename_i b hb
      split at hs
      · cases hs
      · rename_i off e hw
        cases hs
        apply unsettled_arrival_lt
        · rfl
        · obtain ⟨hlt, -⟩ := List.getElem?_eq_some_iff.mp hw
          simp only [toArrive, sum_map_set _ hb, sum_map_eraseIdx _ hb,
            List.length_eraseIdx_of_lt hlt]
          omega
  | deliver i =>
    simp only [next] at hs
    split at hs
    · cases hs
    · rename_i b hb
      split at hs <;> cases hs
      apply unsettled_arrival_lt
      · rfl
      · simp only [toArrive, sum_map_eraseIdx _ hb]
        omega
  | _ => cases ha

/-! ### A step is possible -/

/-- A push is never held up. -/
theorem exists_next_of_push (net : Network n) {p : Push n} (hfailed : (s.rank r).failed = none)
    (hpush : (s.rank r).pc.push = some p) : ∃ s', next net s (r, .advance) = some s' := by
  rw [next_push hfailed hpush]
  cases hpc : (s.rank r).pc with
  | reserving p | addingHead p res | addingCount p res | releasing p res | posting p res =>
    simp only [pushNext, hpc]
    exact ⟨_, rfl⟩
  | reading p =>
    simp only [pushNext, hpc]
    split
    · exact ⟨_, rfl⟩
    · exact ⟨_, rfl⟩
  | idle | checking | asserting | locking | waiting | collecting | grouping | purging | unlocking =>
    rw [hpc] at hpush
    cases hpush

/-- Something that is on its way can arrive. -/
theorem exists_arrival (net : Network n) (h : (s.segment v).inbox ≠ []) :
    ∃ a s', a.arrival ∧ next net s (v, a) = some s' := by
  obtain ⟨b, inbox, hinbox⟩ := List.exists_cons_of_ne_nil h
  have hb : (s.segment v).inbox[0]? = some b := by
    rw [hinbox]
    rfl
  cases hwrites : b.writes with
  | nil =>
    refine ⟨.deliver 0, ?_⟩
    simp only [next, hb, hwrites]
    exact ⟨_, rfl, rfl⟩
  | cons w writes =>
    refine ⟨.land 0 0, ?_⟩
    simp only [next, hb, hwrites, List.getElem?_cons_zero]
    exact ⟨_, rfl, rfl⟩

/-- When nothing is carried or on its way, the notification that a flush waits for is there. -/
theorem RecordsOk.notified {R : Fin n → Record} (hrec : RecordsOk s R)
    (hno : ∀ b, ¬ Announcement.Pending (s.segment r).inbox (carriedTo s r) b) {i : ℕ}
    (hpc : (s.rank r).pc = .waiting i) (hi : i < (s.segment r).reserved.length) :
    (s.segment r).notifications i ≠ 0 := by
  obtain ⟨rest, -, hchain⟩ := hrec r
  rw [hpc, ResultPc.position] at hchain
  obtain ⟨l, hl⟩ := hchain.next_block hi
  have hpos := hchain.rest_pos _ hl
  rcases hchain.kept _ hl with hann | ⟨c, hc, -⟩
  · rw [hann]
    exact hpos.ne'
  · exact absurd hc (hno c)

/-- When no rank pushes and nothing is on its way, a flush is not held up either. -/
theorem exists_next_of_flush {R : Fin n → Record} (h : ResultsOk net s) (hrec : RecordsOk s R)
    (hfailed : (s.rank r).failed = none) (hpush : ∀ q, (s.rank q).pc.push = none)
    (hinbox : (s.segment r).inbox = []) (hpc : (s.rank r).pc ≠ .idle) :
    ∃ s', next net s (r, .advance) = some s' ∧ ((s.rank r).pc = .locking → s' ≠ s) := by
  have hpushr := hpush r
  simp only [next, hfailed, if_true]
  cases hp : (s.rank r).pc with
  | reserving | reading | addingHead | addingCount | releasing | posting =>
    rw [hp] at hpushr
    cases hpushr
  | idle => exact absurd hp hpc
  | locking =>
    have hst : (s.segment r).state = .segmentAvailable := by
      cases hst : (s.segment r).state with
      | segmentAvailable => rfl
      | copyInProgress =>
        have hflush := (h.locks.flush r).mp hst
        rw [hp] at hflush
        cases hflush
      | rank q =>
        have hlocked := (h.locks.lock r q).mp hst
        have hq := hpush q
        revert hlocked hq
        cases (s.rank q).pc <;> simp [ResultPc.locked, ResultPc.push]
    simp only [localNext, hp, compareAndSwapStatus, hst, if_true]
    refine ⟨_, rfl, fun _ heq => ?_⟩
    have hstate := congrArg (fun s : State n => (s.segment r).state) heq
    simp only [State.segment_setRank, State.segment_setSegment, Function.update_self, hst] at hstate
    cases hstate
  | waiting i =>
    have hst := (h.locks.flush r).mpr (by rw [hp]; rfl)
    have hlag : lagAt s r = 0 := lagAt_eq_zero (by rw [hst]; rintro _ ⟨⟩)
    have hcount := (h.segment r).count
    simp only [localNext, hp]
    split
    · rename_i hi
      have hno : ∀ b, ¬ Announcement.Pending (s.segment r).inbox (carriedTo s r) b := by
        rintro b (hb | ⟨q, hq⟩)
        · rw [hinbox] at hb
          cases hb
        · have hpushq := hpush q
          revert hq hpushq
          unfold carriedTo
          cases (s.rank q).pc <;> simp [ResultPc.carriedTo, ResultPc.push]
      have hne := hrec.notified hno hp (by omega)
      rw [if_neg hne]
      exact ⟨_, rfl, by rintro ⟨⟩⟩
    · exact ⟨_, rfl, by rintro ⟨⟩⟩
  | grouping c =>
    simp only [localNext, hp]
    split
    · exact ⟨_, rfl, by rintro ⟨⟩⟩
    · split
      · exact ⟨_, rfl, by rintro ⟨⟩⟩
      · exact ⟨_, rfl, by rintro ⟨⟩⟩
  | asserting =>
    simp only [localNext, hp]
    split
    · exact ⟨_, rfl, by rintro ⟨⟩⟩
    · exact ⟨_, rfl, by rintro ⟨⟩⟩
  | checking | collecting | purging | unlocking =>
    simp only [localNext, hp]
    exact ⟨_, rfl, by rintro ⟨⟩⟩

/-- What has been begun can go on, and comes to its end. -/
theorem exists_settling {R : Fin n → Record} (h : ResultsOk net s) (hrec : RecordsOk s R)
    (hfailed : ∀ q, (s.rank q).failed = none) (hquiet : ¬ Quiet s) :
    ∃ r a s', Ongoing s r a ∧ next net s (r, a) = some s' ∧ unsettled s' < unsettled s := by
  by_cases hpush : ∀ q, (s.rank q).pc.push = none
  · by_cases hinbox : ∀ v, (s.segment v).inbox = []
    · have hbusy : ∃ r, (s.rank r).pc ≠ .idle := by
        by_contra hno
        simp only [not_exists, not_not] at hno
        exact hquiet ⟨hno, hinbox⟩
      obtain ⟨r, hr⟩ := hbusy
      obtain ⟨s', hs, hspin⟩ := exists_next_of_flush h hrec (hfailed r) hpush (hinbox r) hr
      exact ⟨r, .advance, s', hr, hs, (h.stepped hs).unsettled_lt h hr hspin⟩
    · simp only [not_forall] at hinbox
      obtain ⟨v, hv⟩ := hinbox
      obtain ⟨a, s', ha, hs⟩ := exists_arrival net hv
      refine ⟨v, a, s', ?_, hs, unsettled_lt_of_arrival hs ha⟩
      cases a with
      | land | deliver => trivial
      | _ => cases ha
  · simp only [not_forall] at hpush
    obtain ⟨r, hr⟩ := hpush
    obtain ⟨p, hp⟩ := Option.ne_none_iff_exists'.mp hr
    obtain ⟨s', hs⟩ := exists_next_of_push net (hfailed r) hp
    have hidle : (s.rank r).pc ≠ .idle := by
      intro hc
      rw [hc] at hp
      cases hp
    refine ⟨r, .advance, s', hidle, hs, (h.stepped hs).unsettled_lt h hidle fun hc => ?_⟩
    rw [hc] at hp
    cases hp

end Titus.Results
