import Titus.Results.Session

/-! The allocation of `push_tmp_results` on the segment of the rank itself: once it has locked a
segment with room for its element, the rank has the element there after five more steps, whatever the
others do. -/

namespace Titus.Results

variable {n : ℕ} {net : Network n} {s s' : State n} {q r v : Fin n} {a : Action n}

/-! ### What the steps leave alone -/

/-- The size of a segment and its tail are written by the constructor only. -/
theorem Stepped.bounds (hs : Stepped net s q a s') (v : Fin n) :
    (s'.segment v).segmentSize = (s.segment v).segmentSize ∧
      (s'.segment v).bufferTail = (s.segment v).bufferTail := by
  have hupdate : ∀ w (m : BufferedSegment n), m.segmentSize = (s.segment w).segmentSize →
      m.bufferTail = (s.segment w).bufferTail →
      (Function.update s.segment w m v).segmentSize = (s.segment v).segmentSize ∧
        (Function.update s.segment w m v).bufferTail = (s.segment v).bufferTail := by
    intro w m hsize htail
    by_cases hv : v = w
    · subst hv
      rw [Function.update_self]
      exact ⟨hsize, htail⟩
    · rw [Function.update_of_ne hv]
      exact ⟨rfl, rfl⟩
  cases hs with
  | lockOwn | consume | purge | unlockOwn | lockTaken | addHead | addCount | releaseEmpty | release
  | post | land | deliver => exact hupdate _ _ rfl rfl
  | _ => exact ⟨rfl, rfl⟩

/-- Something becomes visible on a segment. -/
def Action.arrival : Action n → Bool
  | .land _ _ | .deliver _ => true
  | _ => false

/-- What is reserved on a segment changes only in the hands of the rank that has locked it. -/
theorem Stepped.reserved_of_locked (h : ResultsOk net s) (hs : Stepped net s q a s')
    (hst : (s.segment v).state = .rank r) (hq : q ≠ r ∨ a.arrival) :
    (s'.segment v).bufferHead = (s.segment v).bufferHead ∧
      (s'.segment v).bufferEltCount = (s.segment v).bufferEltCount := by
  have hupdate : ∀ w (m : BufferedSegment n), (w = v → m.bufferHead = (s.segment w).bufferHead ∧
      m.bufferEltCount = (s.segment w).bufferEltCount) →
      (Function.update s.segment w m v).bufferHead = (s.segment v).bufferHead ∧
        (Function.update s.segment w m v).bufferEltCount = (s.segment v).bufferEltCount := by
    intro w m hm
    by_cases hv : v = w
    · subst hv
      rw [Function.update_self]
      exact hm rfl
    · rw [Function.update_of_ne hv]
      exact ⟨rfl, rfl⟩
  have hlocked : ∀ w, (s.rank q).pc.locked = some w → ¬ a.arrival → w ≠ v := by
    rintro w hw ha rfl
    have := (h.locks.lock w q).mpr hw
    rw [hst] at this
    exact hq.elim (fun hne => hne (ResultLock.rank.inj this).symm) ha
  cases hs with
  | lockOwn | consume | unlockOwn | lockTaken | releaseEmpty | release | post | land | deliver =>
    exact hupdate _ _ fun _ => ⟨rfl, rfl⟩
  | purge hpc =>
    apply hupdate
    rintro rfl
    -- a rank purges its own segment while it holds the lock itself
    have := (h.locks.flush q).mpr (by rw [hpc]; rfl)
    rw [hst] at this
    cases this
  | addHead p res hpc =>
    exact hupdate _ _ fun hw => absurd hw (hlocked _ (by rw [hpc]; rfl) (by rintro ⟨⟩))
  | addCount p res hpc =>
    exact hupdate _ _ fun hw => absurd hw (hlocked _ (by rw [hpc]; rfl) (by rintro ⟨⟩))
  | _ => exact ⟨rfl, rfl⟩

theorem fits_congr {m m' : BufferedSegment n} (hsize : m'.segmentSize = m.segmentSize)
    (hhead : m'.bufferHead = m.bufferHead) (hcount : m'.bufferEltCount = m.bufferEltCount)
    (e : BufferElt n) : fits m' e = fits m e := by
  simp only [fits, hsize, hhead, hcount]

/-! ### From the lock to the element on the segment -/

/-- Rank `r` is in `push_tmp_results`, has locked a segment with room, and is `k` steps before the
end. -/
def Allocating (r : Fin n) (s : State n) : ℕ → Prop
  | 5 => (s.rank r).pc = .reading ⟨.tmp, r⟩ ∧
      ∃ e, (s.rank r).tmp = some e ∧ fits (s.segment r) e
  | 4 => ∃ res, (s.rank r).pc = .addingHead ⟨.tmp, r⟩ res
  | 3 => ∃ res, (s.rank r).pc = .addingCount ⟨.tmp, r⟩ res
  | 2 => ∃ res, (s.rank r).pc = .releasing ⟨.tmp, r⟩ res ∧ res.elts ≠ []
  | 1 => ∃ res, (s.rank r).pc = .posting ⟨.tmp, r⟩ res
  | 0 => (s.rank r).pc = .idle ∧ (s.rank r).tmp = none
  | _ => False

/-- The points of an allocation that has not ended. -/
theorem Allocating.push {k : ℕ} (h : Allocating r s (k + 1)) :
    (s.rank r).pc.push = some ⟨.tmp, r⟩ := by
  match k, h with
  | 4, h => rw [h.1]; rfl
  | 3, ⟨res, h⟩ => rw [h]; rfl
  | 2, ⟨res, h⟩ => rw [h]; rfl
  | 1, ⟨res, h, _⟩ => rw [h]; rfl
  | 0, ⟨res, h⟩ => rw [h]; rfl

/-- It depends on nothing but the state of the rank, and the room while that is not reserved. -/
theorem Allocating.congr {k : ℕ} (h : Allocating r s k) (hpc : (s'.rank r).pc = (s.rank r).pc)
    (htmp : (s'.rank r).tmp = (s.rank r).tmp)
    (hroom : (s.rank r).pc = .reading ⟨.tmp, r⟩ →
      ∀ e, fits (s'.segment r) e = fits (s.segment r) e) :
    Allocating r s' k := by
  match k, h with
  | 5, ⟨h, e, he, hfits⟩ =>
    refine ⟨hpc.trans h, e, htmp.trans he, ?_⟩
    rw [hroom h]
    exact hfits
  | 4, ⟨res, h⟩ => exact ⟨res, hpc.trans h⟩
  | 3, ⟨res, h⟩ => exact ⟨res, hpc.trans h⟩
  | 2, ⟨res, h, hne⟩ => exact ⟨res, hpc.trans h, hne⟩
  | 1, ⟨res, h⟩ => exact ⟨res, hpc.trans h⟩
  | 0, h => exact ⟨hpc.trans h.1, htmp.trans h.2⟩

/-- The steps of other ranks and what arrives leave an allocation where it is. -/
theorem Allocating.other {k : ℕ} (h : Allocating r s k) (hok : ResultsOk net s)
    (hs : Stepped net s q a s') (hq : q ≠ r ∨ a.arrival) : Allocating r s' k := by
  have hrank : s'.rank r = s.rank r := by
    rcases hq with hq | ha
    · exact hs.rank_of_ne hq.symm
    · cases hs with
      | land | deliver => rfl
      | _ => cases ha
  apply h.congr (by rw [hrank]) (by rw [hrank])
  intro hpc e
  have hst := (hok.locks.lock r r).mpr (by rw [hpc]; rfl)
  obtain ⟨hhead, hcount⟩ := hs.reserved_of_locked hok hst hq
  exact fits_congr (hs.bounds r).1 hhead hcount e

/-- The steps of a push are those of `pushNext`. -/
theorem next_push {p : Push n} (hfailed : (s.rank r).failed = none)
    (hpush : (s.rank r).pc.push = some p) : next net s (r, .advance) = pushNext s r := by
  simp only [next, hfailed, if_true]
  cases hpc : (s.rank r).pc with
  | idle | checking | asserting | locking | waiting | collecting | grouping | purging | unlocking =>
    rw [hpc] at hpush
    cases hpush
  | reserving | reading | addingHead | addingCount | releasing | posting => rfl

/-- The element of the tmp segment is selected if it fits. -/
theorem pick_tmp {e : BufferElt n} {m : BufferedSegment n} {area : ℕ → Option (BufferElt n)}
    {t : RankResults n} (htmp : t.tmp = some e) (hfits : fits m e) :
    Selection.pick (selection ⟨.tmp, r⟩ m (offered area t ⟨.tmp, r⟩))
      (offered area t ⟨.tmp, r⟩) = [e] := by
  simp [offered, selection, htmp, hfits, Selection.pick]

/-- The rank's own steps bring it to its end. -/
theorem Allocating.advance {k : ℕ} (h : Allocating r s (k + 1)) (hok : ResultsOk net s)
    (hfailed : (s.rank r).failed = none) :
    ∃ s', next net s (r, .advance) = some s' ∧ Allocating r s' k := by
  rw [next_push hfailed h.push]
  match k, h with
  | 4, ⟨hpc, e, he, hfits⟩ =>
    simp only [pushNext, hpc, selectAssertion, reduceCtorEq, if_false, pick_tmp he hfits]
    refine ⟨_, rfl, ?_⟩
    simp only [Allocating, State.rank_setRank, Function.update_self]
    exact ⟨_, rfl⟩
  | 3, ⟨res, hpc⟩ =>
    simp only [pushNext, hpc, reduceCtorEq, false_and, if_false]
    refine ⟨_, rfl, ?_⟩
    simp only [Allocating, State.rank_setRank, Function.update_self]
    exact ⟨_, rfl⟩
  | 2, ⟨res, hpc⟩ =>
    have hne := (hok.rank r).nonempty ⟨.tmp, r⟩ res (.inr (.inl hpc))
    simp only [pushNext, hpc, reduceCtorEq, false_and, if_false]
    refine ⟨_, rfl, ?_⟩
    simp only [Allocating, State.rank_setRank, Function.update_self]
    exact ⟨_, rfl, hne⟩
  | 1, ⟨res, hpc, hne⟩ =>
    have hst := (hok.locks.lock r r).mpr (by rw [hpc]; rfl)
    have hlen : res.elts.length ≠ 0 := fun h0 => hne (List.length_eq_zero_iff.mp h0)
    simp only [pushNext, hpc, compareAndSwapStatus, hst, ne_eq, not_true, if_false, hlen]
    refine ⟨_, rfl, ?_⟩
    simp only [Allocating, State.rank_setRank, Function.update_self]
    exact ⟨_, rfl⟩
  | 0, ⟨res, hpc⟩ =>
    simp only [pushNext, hpc]
    refine ⟨_, rfl, ?_⟩
    simp only [Allocating, State.rank_setRank, Function.update_self]
    exact ⟨rfl, rfl⟩

/-- An attempt that finds the segment unlocked and with room. -/
theorem allocating_of_unlocked {e : BufferElt n} (hfailed : (s.rank r).failed = none)
    (hpc : (s.rank r).pc = .reserving ⟨.tmp, r⟩) (htmp : (s.rank r).tmp = some e)
    (hst : (s.segment r).state = .segmentAvailable) (hfits : fits (s.segment r) e) :
    ∃ s', next net s (r, .advance) = some s' ∧ Allocating r s' 5 := by
  rw [next_push hfailed (by rw [hpc]; rfl)]
  simp only [pushNext, hpc, compareAndSwapStatus, hst, if_true]
  refine ⟨_, rfl, ?_, e, ?_, ?_⟩
  · rw [State.rank_setRank, Function.update_self]
  · rw [State.rank_setRank, Function.update_self]
    exact htmp
  · rw [State.segment_setRank, State.segment_setSegment, Function.update_self]
    exact hfits

end Titus.Results
