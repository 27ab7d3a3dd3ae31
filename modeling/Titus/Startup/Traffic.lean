import Titus.Results.SegmentInvariant
import Titus.Startup.Handshake

/-! The handshakes together with the results that ranks push as soon as their own `set_problem` has
returned: both use the notifications of `segment_result`. -/

namespace Titus.Startup

open Results (ResultsOk Stepped ResultPc Message)

variable {n : ℕ}

/-! ### State -/

/-- Who has posted a notification. -/
inductive Source
  | handshake
  | push
deriving DecidableEq

/-- Ranks in `set_problem` and ranks in `parallel_work`.  The notifications of `segment_result` are
those in `results`, and `slots` has the ones of the other two segments.  `source` is not in memory:
it has who posted the notification in each slot of `segment_result`. -/
structure Traffic (n : ℕ) where
  results : Results.State n
  phase : Fin n → Phase
  slots : Fin n → SegmentId → ℕ → ℕ
  posted : List (Note n)
  source : Fin n → ℕ → Source

namespace Traffic

/-- The state as the handshakes see it. -/
def handshakes (x : Traffic n) : State n where
  phase := x.phase
  slots r k :=
    match k with
    | .segmentResult => (x.results.segment r).notifications
    | k => x.slots r k
  posted := x.posted

/-- The state after a step of the handshakes that leads to `s`. -/
def setHandshakes (x : Traffic n) (s : State n) : Traffic n where
  results := { x.results with
    segment := fun r => { x.results.segment r with notifications := s.slots r .segmentResult } }
  phase := s.phase
  slots := s.slots
  posted := s.posted
  source := x.source

end Traffic

/-! ### Steps -/

inductive TrafficAction (n : ℕ)
  | handshake (a : Action n)
  | results (r : Fin n) (a : Results.Action n)
deriving DecidableEq

/-- Rank `r` may do `a` in `parallel_work`, or `a` is an arrival.  `compare_and_swap_status` asserts
that the target is registered. -/
def mayStep (reg : Fin n → Fin n → Bool) (x : Traffic n) (r : Fin n) : Results.Action n → Bool
  | .land .. | .deliver .. => true
  | .advance =>
    match (x.results.rank r).pc with
    | .reserving p => x.phase r = .opened ∧ reg r p.target
    | _ => x.phase r = .opened
  | _ => x.phase r = .opened

/-- Who has posted what is in the slots of `segment_result` after a step of the handshakes. -/
def sourceHandshake (source : Fin n → ℕ → Source) : Action n → Fin n → ℕ → Source
  | .arrive ⟨j, .segmentResult, q⟩ =>
    Function.update source j (Function.update (source j) q .handshake)
  | _ => source

/-- Who has posted what is in the slots of `segment_result` after a step of `parallel_work`. -/
def sourceResults (x : Traffic n) (r : Fin n) : Results.Action n → Fin n → ℕ → Source
  | .deliver i =>
    match (x.results.segment r).inbox[i]? with
    | some m => Function.update x.source r (Function.update (x.source r) m.first .push)
    | none => x.source
  | _ => x.source

def nextTraffic (reg : Fin n → Fin n → Bool) (net : Results.Network n) (x : Traffic n) :
    TrafficAction n → Option (Traffic n)
  | .handshake a => (next reg x.handshakes a).map fun s =>
      { x.setHandshakes s with source := sourceHandshake x.source a }
  | .results r a =>
    if mayStep reg x r a then
      (Results.next net x.results (r, a)).map fun y =>
        { x with results := y, source := sourceResults x r a }
    else none

/-- All ranks have left the barrier of the first `set_problem`. -/
structure TrafficInit (x : Traffic n) : Prop where
  handshakes : Starting x.handshakes
  segment : ∀ r, Results.SegmentInit (x.results.segment r)
  rank : ∀ r, Results.RankInit (x.results.rank r)

/-- The first `set_problem` and the `parallel_work` after it. -/
def traffic (reg : Fin n → Fin n → Bool) (net : Results.Network n) :
    Transition.System (Traffic n) (TrafficAction n) where
  init := TrafficInit
  next := nextTraffic reg net

/-! ### The slots of the handshakes and those of the pushes -/

variable {reg : Fin n → Fin n → Bool} {s s' : State n} {r : Fin n}

/-- In this phase the notifications of segment `k` are those of pushes. -/
def Phase.handedOver (p : Phase) : SegmentId → Bool
  | .segmentResult => p.hasOpened .segmentResult
  | _ => false

def clearIf (b : Bool) (slots : ℕ → ℕ) (i : ℕ) : ℕ := if b then 0 else slots i

/-- The state without the notifications of pushes. -/
def mask (s : State n) : State n where
  phase := s.phase
  slots r k := clearIf ((s.phase r).handedOver k) (s.slots r k)
  posted := s.posted

/-- The notifications of pushes. -/
def pushed (s : State n) (r : Fin n) : ℕ → ℕ :=
  clearIf (!(s.phase r).hasOpened .segmentResult) (s.slots r .segmentResult)

theorem clearIf_false (slots : ℕ → ℕ) : clearIf false slots = slots := rfl

theorem clearIf_true (slots : ℕ → ℕ) : clearIf true slots = fun _ => 0 := rfl

theorem slots_mask {k : SegmentId} (h : (s.phase r).handedOver k = false) :
    (mask s).slots r k = s.slots r k := by
  simp only [mask, h, clearIf_false]

theorem handedOver_of_hasOpened {p p' : Phase}
    (h : p.hasOpened .segmentResult = p'.hasOpened .segmentResult) (k : SegmentId) :
    p.handedOver k = p'.handedOver k := by
  cases k with
  | segmentResult => exact h
  | segmentTmp => rfl
  | segmentTask => rfl

theorem clearIf_congr {b b' : Bool} {slots : ℕ → ℕ} (h : b = b' ∨ ∀ i, slots i = 0) :
    clearIf b slots = clearIf b' slots := by
  rcases h with rfl | h
  · rfl
  · funext i
    simp [clearIf, h]

/-- A rank goes on, and no notification changes sides. -/
theorem setPhase_split {p : Phase}
    (hp : ∀ k, p.handedOver k = (s.phase r).handedOver k ∨ ∀ i, s.slots r k i = 0) :
    mask (s.setPhase r p) = (mask s).setPhase r p ∧ pushed (s.setPhase r p) = pushed s := by
  have hkeep : ∀ j k, (Function.update s.phase r p j).handedOver k = (s.phase j).handedOver k ∨
      ∀ i, s.slots j k i = 0 := by
    intro j k
    by_cases hj : j = r
    · subst hj
      rw [Function.update_self]
      exact hp k
    · rw [Function.update_of_ne hj]
      exact .inl rfl
  constructor
  · have hslots : (mask (s.setPhase r p)).slots = (mask s).slots := by
      funext j k
      exact clearIf_congr (hkeep j k)
    simp only [mask, State.setPhase] at hslots ⊢
    rw [hslots]
  · funext j
    exact clearIf_congr ((hkeep j .segmentResult).imp_left fun h => congrArg (!·) h)

theorem mask_setSlot {k : SegmentId} {i : ℕ} (val : ℕ) (h : (s.phase r).handedOver k = false) :
    mask (s.setSlot r k i val) = (mask s).setSlot r k i val := by
  have hslots : (mask (s.setSlot r k i val)).slots = ((mask s).setSlot r k i val).slots := by
    funext j k' i'
    rw [State.slots_setSlot]
    simp only [mask, State.phase_setSlot, clearIf, State.slots_setSlot]
    by_cases hslot : j = r ∧ k' = k ∧ i' = i
    · rw [if_pos hslot, if_pos hslot, hslot.1, hslot.2.1, h]
      rfl
    · rw [if_neg hslot, if_neg hslot]
  simp only [mask, State.setSlot] at hslots ⊢
  rw [hslots]

theorem pushed_setSlot {k : SegmentId} {i : ℕ} (val : ℕ) (h : (s.phase r).handedOver k = false) :
    pushed (s.setSlot r k i val) = pushed s := by
  funext j i'
  simp only [pushed, State.phase_setSlot, clearIf, State.slots_setSlot]
  by_cases hslot : j = r ∧ SegmentId.segmentResult = k ∧ i' = i
  · rw [hslot.1]
    rw [← hslot.2.1] at h
    rw [show (s.phase r).hasOpened .segmentResult = false from h]
    rfl
  · rw [if_neg hslot]

variable (hsymm : ∀ a b, reg a b = reg b a)

include hsymm in
/-- The handshakes keep their invariant on the notifications that are theirs, and leave the others
alone. -/
theorem Ok.mask_advance (h : Ok reg (mask s)) (hs : Advanced reg s r s') :
    Ok reg (mask s') ∧ pushed s' = pushed s := by
  have hkeep : ∀ {p : Phase}, p.hasOpened .segmentResult = (s.phase r).hasOpened .segmentResult →
      Ok reg ((mask s).setPhase r p) →
      Ok reg (mask (s.setPhase r p)) ∧ pushed (s.setPhase r p) = pushed s := by
    intro p hp hok
    obtain ⟨hmask, hpushed⟩ := setPhase_split fun k => .inl (handedOver_of_hasOpened hp k)
    rw [hmask]
    exact ⟨hok, hpushed⟩
  cases hs with
  | notified k i hp hreg =>
    obtain ⟨hmask, hpushed⟩ := setPhase_split (s := { s with posted := s.posted ++ [⟨i, k, r⟩] })
      (r := r) (p := .sending k (i + 1))
      fun k' => .inl (handedOver_of_hasOpened (by simp only [hp]; rfl) k')
    rw [hmask, hpushed]
    exact ⟨h.send hp hreg, rfl⟩
  | notNotified k i hp hreg =>
    exact hkeep (by rw [hp]; rfl) (h.advance hsymm (.notNotified k i hp hreg))
  | sentAll k i hp hi =>
    exact hkeep (by rw [hp]; rfl) (h.advance hsymm (.sentAll k i hp hi))
  | received k i hp hslot p hphase =>
    have hclosed : (s.phase r).handedOver k = false := by
      rw [hp]
      cases k <;> rfl
    rw [← slots_mask hclosed] at hslot hphase
    rw [if_pos (h.arrived hslot).one] at hphase
    subst hphase
    obtain ⟨hmask, hpushed⟩ := setPhase_split (s := s.setSlot r k i 0) (r := r)
      (p := .waiting k (i + 1))
      fun k' => .inl (handedOver_of_hasOpened (by simp only [State.phase_setSlot, hp]; rfl) k')
    rw [hmask, hpushed, mask_setSlot _ hclosed, pushed_setSlot _ hclosed]
    exact ⟨h.receive hp hslot, rfl⟩
  | notAwaited k i hp hreg =>
    exact hkeep (by rw [hp]; rfl) (h.advance hsymm (.notAwaited k i hp hreg))
  | waitedAll k i hp hi =>
    have hok := h.advance hsymm (.waitedAll k i hp hi)
    cases k with
    | segmentResult =>
      -- from here on the notifications are those of pushes, and there is none yet
      have hclean := (hok.clean (r := r) (k := .segmentResult) (by
        rw [State.phase_setPhase, Function.update_self]; rfl)).2
      rw [State.slots_setPhase, slots_mask (by rw [hp]; rfl)] at hclean
      obtain ⟨hmask, hpushed⟩ := setPhase_split (s := s) (r := r) (p := openNext .segmentResult)
        fun k' => by
          cases k' with
          | segmentResult => exact .inr hclean
          | segmentTmp => exact .inl rfl
          | segmentTask => exact .inl rfl
      rw [hmask, hpushed]
      exact ⟨hok, rfl⟩
    | segmentTmp => exact hkeep (by rw [hp]; rfl) hok
    | segmentTask => exact hkeep (by rw [hp]; rfl) hok

/-- A notification that arrives is one of a handshake, on a rank that waits for it. -/
theorem Ok.target_closed (h : Ok reg (mask s)) {m : Note n} (hm : m ∈ s.posted) :
    (s.phase m.target).hasOpened m.segment = false := by
  cases hopen : (s.phase m.target).hasOpened m.segment with
  | false => rfl
  | true => exact absurd hm ((h.clean hopen).1 m.sender)

theorem not_handedOver {p : Phase} {k : SegmentId} (h : p.hasOpened k = false) :
    p.handedOver k = false := by
  cases k with
  | segmentResult => exact h
  | segmentTmp => rfl
  | segmentTask => rfl

theorem Ok.mask_arrive (h : Ok reg (mask s)) {m : Note n} (hm : m ∈ s.posted) :
    Ok reg (mask (Startup.arrive s m)) ∧ pushed (Startup.arrive s m) = pushed s := by
  have hclosed := not_handedOver (h.target_closed hm)
  have hok := h.arrive hm
  constructor
  · have hmask : mask (Startup.arrive s m) = Startup.arrive (mask s) m := by
      have hslots := congrArg State.slots (mask_setSlot (i := m.sender) 1 hclosed)
      simp only [mask, State.setSlot, Startup.arrive] at hslots ⊢
      rw [hslots]
    rwa [hmask]
  · exact pushed_setSlot (i := m.sender) 1 hclosed

/-! ### The results without the handshakes -/

section Strip

variable {net : Results.Network n} {y y' : Results.State n} {m : Results.BufferedSegment n}

/-- The segment with the notifications `g` in place of its own, if there are any. -/
def replaceSegment (g : Option (ℕ → ℕ)) (m : Results.BufferedSegment n) :
    Results.BufferedSegment n :=
  { m with notifications := g.getD m.notifications }

/-- The state with the notifications `f` on the segments for which it has any. -/
def replaceState (f : Fin n → Option (ℕ → ℕ)) (y : Results.State n) : Results.State n :=
  { y with segment := fun v => replaceSegment (f v) (y.segment v) }

variable {f : Fin n → Option (ℕ → ℕ)}

theorem replaceSegment_none : replaceSegment none m = m := rfl

theorem replaceState_setSegment (v : Fin n) :
    replaceState f (y.setSegment v m) =
      (replaceState f y).setSegment v (replaceSegment (f v) m) := by
  simp only [replaceState, Results.State.setSegment, Results.State.mk.injEq, and_true]
  funext w
  by_cases hw : w = v
  · subst hw
    simp
  · simp [hw]

theorem replaceState_setRank (q : Fin n) (t : Results.RankResults n) :
    replaceState f (y.setRank q t) = (replaceState f y).setRank q t := rfl

theorem segment_replaceState (h : f r = none) : (replaceState f y).segment r = y.segment r := by
  simp only [replaceState, h, replaceSegment_none]

theorem compareAndSwapStatus_replace (g : Option (ℕ → ℕ)) (comp newVal : Results.ResultLock n) :
    Results.compareAndSwapStatus (replaceSegment g m) comp newVal =
      ((Results.compareAndSwapStatus m comp newVal).1,
        replaceSegment g (Results.compareAndSwapStatus m comp newVal).2) := by
  unfold Results.compareAndSwapStatus
  by_cases hst : m.state = comp
  · rw [if_pos hst, if_pos (show (replaceSegment g m).state = comp from hst)]
    rfl
  · rw [if_neg hst, if_neg (show ¬ (replaceSegment g m).state = comp from hst)]
    rfl

/-- A push does not look at the notifications. -/
theorem pushNext_replace (h : f r = none) (hs : Results.pushNext y r = some y') :
    Results.pushNext (replaceState f y) r = some (replaceState f y') := by
  have hown := segment_replaceState (y := y) h
  have htarget : ∀ v, (replaceState f y).segment v = replaceSegment (f v) (y.segment v) :=
    fun v => rfl
  have hrank : (replaceState f y).rank r = y.rank r := rfl
  unfold Results.pushNext at hs ⊢
  rw [hrank]
  cases hpc : (y.rank r).pc with
  | reserving p =>
    simp only [hpc, hown] at hs ⊢
    rw [htarget, compareAndSwapStatus_replace]
    cases hs
    rw [replaceState_setRank, replaceState_setSegment]
  | reading p =>
    have hsel : ∀ elts, Results.selection p (replaceSegment (f p.target) (y.segment p.target)) elts =
        Results.selection p (y.segment p.target) elts := fun elts => rfl
    have hassert : Results.selectAssertion (y.segment r) (y.rank r) p
        (replaceSegment (f p.target) (y.segment p.target)) =
          Results.selectAssertion (y.segment r) (y.rank r) p (y.segment p.target) := rfl
    simp only [hpc, hown] at hs ⊢
    simp only [htarget, hsel, hassert]
    cases hfail : Results.selectAssertion (y.segment r) (y.rank r) p (y.segment p.target) with
    | none =>
      simp only [hfail] at hs ⊢
      cases hs
      rfl
    | some a =>
      simp only [hfail] at hs ⊢
      cases hs
      rfl
  | addingHead p res =>
    simp only [hpc] at hs ⊢
    cases hs
    rw [replaceState_setRank, replaceState_setSegment]
    rfl
  | addingCount p res =>
    simp only [hpc] at hs ⊢
    cases hs
    rw [replaceState_setRank, replaceState_setSegment]
    rfl
  | releasing p res =>
    simp only [hpc, hown] at hs ⊢
    rw [htarget, compareAndSwapStatus_replace]
    cases hs
    rw [replaceState_setRank, replaceState_setSegment]
  | posting p res =>
    simp only [hpc, hown] at hs ⊢
    cases hs
    rw [replaceState_setRank, replaceState_setSegment]
    rfl
  | _ =>
    simp only [hpc] at hs
    cases hs

/-- A step of a rank that reads its own notifications makes the same step without those of others,
which it does not read. -/
theorem next_replace {a : Results.Action n} (h : f r = none)
    (hs : Results.next net y (r, a) = some y') :
    Results.next net (replaceState f y) (r, a) = some (replaceState f y') := by
  have hown := segment_replaceState (y := y) h
  have hrank : (replaceState f y).rank r = y.rank r := rfl
  have hset : ∀ m, replaceState f (y.setSegment r m) = (replaceState f y).setSegment r m := by
    intro m
    rw [replaceState_setSegment, h, replaceSegment_none]
  cases a with
  | push k id nb size owner data =>
    simp only [Results.next, hrank] at hs ⊢
    split at hs <;> cases hs
    rw [if_pos ‹_›, replaceState_setRank]
  | flush =>
    simp only [Results.next, hrank] at hs ⊢
    split at hs <;> cases hs
    rw [if_pos ‹_›, replaceState_setRank]
  | pushTransit i =>
    simp only [Results.next, hrank] at hs ⊢
    split at hs
    · cases hs
    · split at hs <;> cases hs
      rw [if_pos ‹_›, replaceState_setRank]
  | advance =>
    simp only [Results.next, hrank] at hs ⊢
    split at hs
    · rw [if_pos ‹_›]
      split at hs
      all_goals first
        | exact pushNext_replace h hs
        | skip
      obtain ⟨q, hq, hy⟩ := Option.map_eq_some_iff.mp hs
      rw [hown, hq, Option.map_some, ← hset, ← replaceState_setRank, hy]
    · cases hs
  | land i w =>
    simp only [Results.next, hown] at hs ⊢
    split at hs
    · cases hs
    · split at hs
      · cases hs
      · cases hs
        rw [hset]
  | deliver i =>
    simp only [Results.next, hown] at hs ⊢
    split at hs
    · cases hs
    · split at hs <;> cases hs
      rw [if_pos ‹_›, hset]

end Strip

end Titus.Startup
