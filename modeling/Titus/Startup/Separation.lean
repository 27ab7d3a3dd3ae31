import Titus.Startup.Traffic

/-! The notifications of the handshakes and those of the pushes of results never meet. -/

namespace Titus.Startup

open Results (ResultsOk RankOk Stepped ResultPc Push)

variable {n : ℕ} {reg : Fin n → Fin n → Bool} {net : Results.Network n} {r : Fin n}

/-! ### What a step of `parallel_work` leaves alone -/

/-- The rank whose segment a push at this point has locked, at some time. -/
def reached : ResultPc n → Option (Fin n)
  | .reading p | .addingHead p _ | .addingCount p _ | .releasing p _ | .posting p _ => some p.target
  | _ => none

/-- What the step `a` of rank `r` from `y` to `y'` may change. -/
structure Framed (y : Results.State n) (r : Fin n) (a : Results.Action n) (y' : Results.State n) :
    Prop where
  rank : ∀ q ≠ r, y'.rank q = y.rank q
  inbox : ∀ v ≠ r, reached (y.rank r).pc ≠ some v → (y'.segment v).inbox = (y.segment v).inbox
  reach : ∀ v, reached (y'.rank r).pc = some v → reached (y.rank r).pc = some v ∨
    ∃ p, (y.rank r).pc = .reserving p ∧ p.target = v ∧ a = .advance
  filled : ∀ i, (y'.segment r).notifications i ≠ 0 → (y.segment r).notifications i ≠ 0 ∨
    ∃ j b, a = .deliver j ∧ (y.segment r).inbox[j]? = some b ∧ b.first = i

section Frame

variable {y y' : Results.State n} {a : Results.Action n} {t : Results.RankResults n}
  {m : Results.BufferedSegment n} {v : Fin n}

/-- A step of a rank that changes another's segment at most. -/
theorem Framed.set (hinbox : v ≠ r → reached (y.rank r).pc ≠ some v → m.inbox = (y.segment v).inbox)
    (hreached : ∀ w, reached t.pc = some w → reached (y.rank r).pc = some w ∨
      ∃ p, (y.rank r).pc = .reserving p ∧ p.target = w ∧ a = .advance)
    (hfilled : ∀ i, m.notifications i ≠ 0 → (y.segment v).notifications i ≠ 0) :
    Framed y r a ((y.setSegment v m).setRank r t) := by
  constructor
  · intro q hq
    simp [Function.update_of_ne hq]
  · intro w hw hreach
    by_cases hwv : w = v
    · subst hwv
      simpa using hinbox hw hreach
    · simp [Function.update_of_ne hwv]
  · intro w
    simpa using hreached w
  · intro i hi
    by_cases hrv : r = v
    · subst hrv
      exact .inl (hfilled i (by simpa using hi))
    · left
      simpa [Function.update_of_ne hrv] using hi

/-- A step of a rank on its own state. -/
theorem Framed.setRank (hreached : ∀ w, reached t.pc = some w → reached (y.rank r).pc = some w) :
    Framed y r a (y.setRank r t) := by
  have h : Framed y r a ((y.setSegment r (y.segment r)).setRank r t) :=
    .set (fun h => absurd rfl h) (fun w hw => .inl (hreached w hw)) fun _ => id
  rwa [Results.State.setSegment_self] at h

/-- An arrival on the segment of a rank. -/
theorem Framed.arrive (hfilled : ∀ i, m.notifications i ≠ 0 → (y.segment r).notifications i ≠ 0 ∨
      ∃ j b, a = .deliver j ∧ (y.segment r).inbox[j]? = some b ∧ b.first = i) :
    Framed y r a (y.setSegment r m) := by
  constructor
  · exact fun _ _ => rfl
  · intro w hw _
    simp [Function.update_of_ne hw]
  · exact fun _ => .inl
  · intro i hi
    exact hfilled i (by simpa using hi)

theorem reached_giveUp (h : RankOk net r m t) (p : Push n) (selected : List Bool) :
    reached (Results.giveUp m t p selected).pc = none := by
  rcases h.giveUp p selected with ⟨-, heq⟩ | ⟨-, heq⟩ | ⟨-, heq⟩ <;> rw [heq] <;> rfl

theorem reached_settle (h : RankOk net r m t) (p : Push n) (res : Results.Reservation n) :
    reached (Results.settle m t p res).pc = none := by
  rcases h.settle p res with ⟨-, heq⟩ | ⟨i, -, heq⟩ | ⟨-, heq⟩ <;> rw [heq] <;> rfl

theorem framed_of_stepped (h : ResultsOk net y) (hs : Stepped net y r a y') : Framed y r a y' := by
  have hr := h.rank r
  cases hs with
  | pushOwn => exact .setRank fun _ => id
  | pushTmp => exact .setRank fun _ => id
  | submit => exact .setRank fun _ => id
  | flush | pushTransit | startTmp | empty | occupied | bounded | waited | collect | group |
    grouped => exact .setRank nofun
  | spin hpc =>
    have hself : Framed y r .advance (y.setRank r (y.rank r)) := .setRank fun _ => id
    rwa [Results.State.setRank_self] at hself
  | lockOwn hpc => exact .set (fun _ _ => rfl) nofun fun _ => id
  | consume i hpc =>
    refine .set (fun _ _ => rfl) nofun fun j hj => ?_
    by_cases hji : j = i
    · subst hji
      simp at hj
    · simpa [Function.update_of_ne hji] using hj
  | purge hpc => exact .set (fun _ _ => rfl) nofun fun _ => id
  | unlockOwn hpc => exact .set (fun _ _ => rfl) nofun fun _ => id
  | lockFailed p hpc =>
    refine .setRank fun w hw => ?_
    rw [reached_giveUp hr] at hw
    cases hw
  | lockTaken p hpc =>
    exact .set (fun _ _ => rfl) (fun w hw => .inr ⟨p, hpc, Option.some.inj hw, rfl⟩) fun _ => id
  | select p res hpc =>
    refine .setRank fun w hw => ?_
    rw [hpc]
    dsimp only at hw
    split at hw <;> exact hw
  | addHead p res hpc =>
    exact .set (fun _ _ => rfl) (fun w hw => .inl (by rw [hpc]; exact hw)) fun _ => id
  | addCount p res hpc =>
    exact .set (fun _ _ => rfl) (fun w hw => .inl (by rw [hpc]; exact hw)) fun _ => id
  | releaseEmpty p res hpc =>
    refine .set (fun _ _ => rfl) (fun w hw => ?_) fun _ => id
    rw [reached_giveUp hr] at hw
    cases hw
  | release p res hpc =>
    exact .set (fun _ _ => rfl) (fun w hw => .inl (by rw [hpc]; exact hw)) fun _ => id
  | post p res hpc =>
    refine .set (fun _ hne => absurd (by rw [hpc]; rfl) hne) (fun w hw => ?_) fun _ => id
    rw [reached_settle hr] at hw
    cases hw
  | land i w off b e => exact .arrive fun _ => .inl
  | deliver i b hb =>
    refine .arrive fun j hj => ?_
    by_cases hji : j = b.first
    · exact .inr ⟨i, b, rfl, hb, hji.symm⟩
    · left
      simpa [Function.update_of_ne hji] using hj

end Frame

/-- A step leaves the notifications of the other ranks alone. -/
theorem notifications_of_next {y y' : Results.State n} {a : Results.Action n}
    (hs : Results.next net y (r, a) = some y') {v : Fin n} (hv : v ≠ r) :
    (y'.segment v).notifications = (y.segment v).notifications := by
  -- the step from the state whose notifications are replaced by themselves
  let f : Fin n → Option (ℕ → ℕ) := fun v => if v = r then none else some (y.segment v).notifications
  have hsame : replaceState f y = y := by
    have hseg : (replaceState f y).segment = y.segment := by
      funext w
      by_cases hw : w = r
      · simp [replaceState, replaceSegment, f, hw]
      · simp [replaceState, replaceSegment, f, hw]
    simp only [replaceState] at hseg ⊢
    rw [hseg]
  have hnext := next_replace (f := f) (if_pos rfl) hs
  rw [hsame, hs, Option.some.injEq] at hnext
  rw [hnext]
  simp [replaceState, replaceSegment, f, hv]

theorem rank_of_arrival {y y' : Results.State n} {a : Results.Action n}
    (hs : Results.next net y (r, a) = some y')
    (ha : (∃ i w, a = .land i w) ∨ ∃ i, a = .deliver i) :
    y'.rank = y.rank ∧ (y.segment r).inbox ≠ [] := by
  rcases ha with ⟨i, w, rfl⟩ | ⟨i, rfl⟩
  · simp only [Results.next] at hs
    split at hs
    · cases hs
    · split at hs <;> cases hs
      refine ⟨rfl, fun hnil => ?_⟩
      simp_all
  · simp only [Results.next] at hs
    split at hs
    · cases hs
    · split at hs <;> cases hs
      refine ⟨rfl, fun hnil => ?_⟩
      simp_all

/-! ### The invariant -/

/-- The results, without the notifications of the handshakes. -/
def strip (x : Traffic n) : Results.State n :=
  replaceState
    (fun v => if (x.phase v).hasOpened .segmentResult then none else some fun _ => 0) x.results

/-- The handshakes keep their invariant on the notifications that are theirs, and the results keep
theirs on the others. -/
structure TrafficOk (reg : Fin n → Fin n → Bool) (net : Results.Network n) (x : Traffic n) :
    Prop where
  handshakes : Ok reg (mask x.handshakes)
  results : ResultsOk net (strip x)
  inbox : ∀ v, (x.phase v).hasOpened .segmentResult = false → (x.results.segment v).inbox = []
  idle : ∀ q, x.phase q ≠ .opened → (x.results.rank q).pc = .idle
  reach : ∀ q v, reached (x.results.rank q).pc = some v → reg q v = true
  source : ∀ v i, (x.results.segment v).notifications i ≠ 0 →
    x.source v i = if (x.phase v).hasOpened .segmentResult then .push else .handshake

variable {x : Traffic n} {s : State n}

theorem TrafficInit.ok (h : TrafficInit x) : TrafficOk reg net x := by
  have hphase : ∀ v, x.phase v = .sending .segmentResult 0 := h.handshakes.phase
  constructor
  · apply Starting.ok
    constructor
    · exact h.handshakes.phase
    · intro v k i
      simp [mask, clearIf, h.handshakes.slots]
    · exact h.handshakes.posted
  · apply (Results.results_invariant net).init
    constructor
    · intro v
      have hv := h.segment v
      exact ⟨hv.state, hv.head, hv.room, hv.count, fun i => by
        simp [strip, replaceState, replaceSegment, hphase, Phase.hasOpened, SegmentId.index],
        hv.inbox, hv.reserved⟩
    · exact h.rank
  · intro v _
    exact (h.segment v).inbox
  · intro q _
    exact (h.rank q).pc
  · intro q v hq
    rw [(h.rank q).pc] at hq
    cases hq
  · intro v i hi
    exact absurd ((h.segment v).notifications i) hi

/-! ### Steps of the handshakes -/

theorem handshakes_setHandshakes : (x.setHandshakes s).handshakes = s := by
  have hslots : (x.setHandshakes s).handshakes.slots = s.slots := by
    funext v k
    cases k <;> rfl
  simp only [Traffic.handshakes, Traffic.setHandshakes] at hslots ⊢
  rw [hslots]

theorem notifications_strip (v : Fin n) :
    ((strip x).segment v).notifications = pushed x.handshakes v := by
  cases hopen : (x.phase v).hasOpened .segmentResult <;>
    simp [strip, replaceState, replaceSegment, pushed, Traffic.handshakes, hopen, clearIf_true,
      clearIf_false]

theorem strip_setHandshakes (hpushed : pushed s = pushed x.handshakes)
    (source : Fin n → ℕ → Source) :
    strip { x.setHandshakes s with source } = strip x := by
  have hseg : (strip { x.setHandshakes s with source }).segment = (strip x).segment := by
    funext v
    have hnew := notifications_strip (x := { x.setHandshakes s with source }) v
    have hold := notifications_strip (x := x) v
    rw [show Traffic.handshakes { x.setHandshakes s with source } = s from
      handshakes_setHandshakes, hpushed, ← hold] at hnew
    simp only [strip, replaceState, replaceSegment, Traffic.setHandshakes] at hnew ⊢
    rw [hnew]
  simp only [strip, replaceState, Traffic.setHandshakes] at hseg ⊢
  rw [hseg]

/-- What a rank that goes on in the handshakes leaves alone. -/
structure Continued (s : State n) (r : Fin n) (s' : State n) : Prop where
  other : ∀ q ≠ r, s'.phase q = s.phase q
  inside : s.phase r ≠ .opened
  opens : (s.phase r).hasOpened .segmentResult = true → s'.phase r ≠ .aborted →
    (s'.phase r).hasOpened .segmentResult = true
  slots : ∀ v k i, s'.slots v k i ≠ 0 → s'.slots v k i = s.slots v k i

theorem Continued.setPhase {p : Phase} (hin : s.phase r ≠ .opened)
    (hopens : (s.phase r).hasOpened .segmentResult = true → p ≠ .aborted →
      p.hasOpened .segmentResult = true) : Continued s r (s.setPhase r p) := by
  constructor
  · intro q hq
    simp [Function.update_of_ne hq]
  · exact hin
  · simpa using hopens
  · exact fun _ _ _ _ => rfl

theorem continued_of_advanced {s' : State n} (hs : Advanced reg s r s') : Continued s r s' := by
  cases hs with
  | notified k i hp =>
    have h : Continued s r (s.setPhase r (.sending k (i + 1))) :=
      .setPhase (by rw [hp]; nofun) (by rw [hp]; exact fun h _ => h)
    exact ⟨h.other, h.inside, h.opens, h.slots⟩
  | notNotified k i hp => exact .setPhase (by rw [hp]; nofun) (by rw [hp]; exact fun h _ => h)
  | sentAll k i hp => exact .setPhase (by rw [hp]; nofun) (by rw [hp]; exact fun h _ => h)
  | received k i hp hslot p hphase =>
    have h : Continued s r (s.setPhase r p) := by
      refine .setPhase (by rw [hp]; nofun) ?_
      rw [hp, hphase]
      split
      · exact fun h _ => h
      · exact fun _ h => absurd rfl h
    refine ⟨h.other, h.inside, h.opens, fun v k' i' => ?_⟩
    rw [State.slots_setPhase, State.slots_setSlot]
    split
    · exact fun hne => absurd rfl hne
    · exact fun _ => rfl
  | notAwaited k i hp => exact .setPhase (by rw [hp]; nofun) (by rw [hp]; exact fun h _ => h)
  | waitedAll k i hp =>
    refine .setPhase (by rw [hp]; nofun) ?_
    rw [hp]
    cases k with
    | segmentResult => nofun
    | segmentTmp => exact fun _ _ => rfl
    | segmentTask => exact fun _ _ => rfl

variable (hsymm : ∀ a b, reg a b = reg b a)

include hsymm in
theorem TrafficOk.advance (h : TrafficOk reg net x) (hs : Advanced reg x.handshakes r s) :
    TrafficOk reg net { x.setHandshakes s with source := x.source } := by
  obtain ⟨hok, hpushed⟩ := h.handshakes.mask_advance hsymm hs
  have hcont := continued_of_advanced hs
  have hopens : ∀ v, (x.phase v).hasOpened .segmentResult = true →
      (s.phase v).hasOpened .segmentResult = true := by
    intro v hv
    by_cases hvr : v = r
    · subst hvr
      exact hcont.opens hv (hok.running v)
    · rw [hcont.other v hvr]
      exact hv
  constructor
  · rw [show Traffic.handshakes { x.setHandshakes s with source := x.source } = s from
      handshakes_setHandshakes]
    exact hok
  · rw [strip_setHandshakes hpushed]
    exact h.results
  · intro v hv
    apply h.inbox v
    rw [← Bool.not_eq_true] at hv ⊢
    exact fun hopen => hv (hopens v hopen)
  · intro q hq
    apply h.idle q
    by_cases hqr : q = r
    · subst hqr
      exact hcont.inside
    · rwa [← show s.phase q = x.phase q from hcont.other q hqr]
  · exact h.reach
  · intro v i hi
    have hslot : s.slots v .segmentResult i ≠ 0 := hi
    have hold := hcont.slots v _ i hslot
    rw [h.source v i (by rw [hold] at hslot; exact hslot)]
    show _ = if (s.phase v).hasOpened .segmentResult then Source.push else .handshake
    cases hopen : (s.phase v).hasOpened .segmentResult with
    | false =>
      rw [if_neg fun hv => by rw [hopens v hv] at hopen; cases hopen]
      rfl
    | true =>
      -- the notification is one of a push, and was before
      have heq := congrFun (congrFun hpushed v) i
      simp only [pushed, hopen, Bool.not_true, clearIf_false] at heq
      cases hbefore : (x.phase v).hasOpened .segmentResult with
      | true => rfl
      | false =>
        rw [show (x.handshakes.phase v).hasOpened .segmentResult = false from hbefore] at heq
        exact absurd heq hslot

theorem TrafficOk.arrive (h : TrafficOk reg net x) {m : Note n} (hm : m ∈ x.posted) :
    TrafficOk reg net { x.setHandshakes (arrive x.handshakes m) with
      source := sourceHandshake x.source (.arrive m) } := by
  have hclosed := h.handshakes.target_closed hm
  obtain ⟨hok, hpushed⟩ := h.handshakes.mask_arrive hm
  constructor
  · rw [show Traffic.handshakes { x.setHandshakes (Startup.arrive x.handshakes m) with
      source := sourceHandshake x.source (.arrive m) } = Startup.arrive x.handshakes m from
      handshakes_setHandshakes]
    exact hok
  · rw [strip_setHandshakes hpushed]
    exact h.results
  · exact h.inbox
  · exact h.idle
  · exact h.reach
  · obtain ⟨j, k, q⟩ := m
    intro v i hi
    have hslot : (x.handshakes.setSlot j k q 1).slots v .segmentResult i ≠ 0 := hi
    rw [State.slots_setSlot] at hslot
    show sourceHandshake x.source (.arrive ⟨j, k, q⟩) v i =
      if (x.phase v).hasOpened .segmentResult then .push else .handshake
    by_cases hnote : v = j ∧ SegmentId.segmentResult = k ∧ i = q
    · obtain ⟨rfl, rfl, rfl⟩ := hnote
      rw [show (x.phase v).hasOpened .segmentResult = false from hclosed]
      simp [sourceHandshake]
    · rw [if_neg hnote] at hslot
      rw [← h.source v i hslot]
      cases k with
      | segmentResult =>
        simp only [sourceHandshake]
        by_cases hv : v = j
        · subst hv
          rw [Function.update_self, Function.update_of_ne fun hi => hnote ⟨rfl, rfl, hi⟩]
        · rw [Function.update_of_ne hv]
      | segmentTmp => rfl
      | segmentTask => rfl

/-! ### Steps of `parallel_work` -/

/-- A rank that takes a step in `parallel_work` has opened `segment_result`, and so has one that a
notification arrives on. -/
theorem TrafficOk.opened_of_step (h : TrafficOk reg net x) {a : Results.Action n}
    {y : Results.State n} (hmay : mayStep reg x r a = true)
    (hs : Results.next net x.results (r, a) = some y) :
    (x.phase r).hasOpened .segmentResult = true ∧
      (x.phase r = .opened ∨ y.rank = x.results.rank) := by
  have harrival : (∃ i w, a = .land i w) ∨ (∃ i, a = .deliver i) →
      (x.phase r).hasOpened .segmentResult = true ∧ y.rank = x.results.rank := by
    intro ha
    obtain ⟨hrank, hinbox⟩ := rank_of_arrival hs ha
    refine ⟨?_, hrank⟩
    by_contra hclosed
    exact hinbox (h.inbox r (Bool.eq_false_of_not_eq_true hclosed))
  have hopened : x.phase r = .opened → (x.phase r).hasOpened .segmentResult = true := by
    intro hr
    rw [hr]
    rfl
  cases a with
  | land i w => exact (harrival (.inl ⟨i, w, rfl⟩)).imp_right .inr
  | deliver i => exact (harrival (.inr ⟨i, rfl⟩)).imp_right .inr
  | advance =>
    have hr : x.phase r = .opened := by
      simp only [mayStep] at hmay
      split at hmay
      · exact (of_decide_eq_true hmay).1
      · exact of_decide_eq_true hmay
    exact ⟨hopened hr, .inl hr⟩
  | push => exact ⟨hopened (of_decide_eq_true hmay), .inl (of_decide_eq_true hmay)⟩
  | flush => exact ⟨hopened (of_decide_eq_true hmay), .inl (of_decide_eq_true hmay)⟩
  | pushTransit => exact ⟨hopened (of_decide_eq_true hmay), .inl (of_decide_eq_true hmay)⟩

include hsymm in
/-- A rank that a push has reached has opened `segment_result`. -/
theorem TrafficOk.target_opened (h : TrafficOk reg net x) {v : Fin n}
    (hreach : reached (x.results.rank r).pc = some v) :
    (x.phase v).hasOpened .segmentResult = true := by
  have hr : x.phase r = .opened := by
    by_contra hne
    rw [h.idle r hne] at hreach
    cases hreach
  exact h.handshakes.hasOpened_of_opened hsymm (r := r) hr (h.reach r v hreach)

theorem sourceResults_of_ne {a : Results.Action n} {v : Fin n} (hv : v ≠ r) :
    sourceResults x r a v = x.source v := by
  unfold sourceResults
  split
  · rename_i j
    cases (x.results.segment r).inbox[j]? with
    | none => rfl
    | some b => exact Function.update_of_ne hv ..
  · rfl

theorem sourceResults_self {a : Results.Action n} (i : ℕ) :
    sourceResults x r a r i = .push ∨ sourceResults x r a r i = x.source r i ∧
      ∀ j b, a = .deliver j → (x.results.segment r).inbox[j]? = some b → b.first ≠ i := by
  unfold sourceResults
  split
  · rename_i j
    cases hb : (x.results.segment r).inbox[j]? with
    | none =>
      refine .inr ⟨rfl, ?_⟩
      rintro j' b' ⟨rfl⟩ hb'
      rw [hb] at hb'
      cases hb'
    | some b =>
      by_cases hi : i = b.first
      · left
        simp [hi]
      · refine .inr ⟨by simp [Function.update_of_ne hi], ?_⟩
        rintro j' b' ⟨rfl⟩ hb'
        rw [hb] at hb'
        cases hb'
        exact Ne.symm hi
  · rename_i hnot
    exact .inr ⟨rfl, fun j b ha => absurd ha (hnot j)⟩

include hsymm in
theorem TrafficOk.results_step (h : TrafficOk reg net x) {a : Results.Action n}
    {y : Results.State n} (hmay : mayStep reg x r a = true)
    (hs : Results.next net x.results (r, a) = some y) :
    TrafficOk reg net { x with results := y, source := sourceResults x r a } := by
  obtain ⟨hopen, hrank⟩ := h.opened_of_step hmay hs
  have hstep : Results.next net (strip x) (r, a) =
      some (strip { x with results := y, source := sourceResults x r a }) :=
    next_replace (if_pos hopen) hs
  have hstepped := h.results.stepped hstep
  have hframe := framed_of_stepped h.results hstepped
  have hother := fun v => notifications_of_next (v := v) hs
  have hown : (strip x).segment r = x.results.segment r := by
    simp [strip, replaceState, hopen, replaceSegment_none]
  have hown' : (strip { x with results := y, source := sourceResults x r a }).segment r =
      y.segment r := by
    simp [strip, replaceState, hopen, replaceSegment_none]
  constructor
  · have hmask : mask (Traffic.handshakes { x with results := y, source := sourceResults x r a }) =
        mask x.handshakes := by
      simp only [mask, Traffic.handshakes, State.mk.injEq, true_and, and_true]
      funext v k
      cases k with
      | segmentResult =>
        by_cases hv : v = r
        · subst hv
          simp only [Phase.handedOver, hopen, clearIf_true]
        · rw [hother v hv]
      | segmentTmp => rfl
      | segmentTask => rfl
    rw [hmask]
    exact h.handshakes
  · exact h.results.step hstepped
  · intro v hv
    have hvr : v ≠ r := by
      rintro rfl
      rw [show (x.phase v).hasOpened .segmentResult = false from hv] at hopen
      cases hopen
    have hinbox : (y.segment v).inbox = (x.results.segment v).inbox := by
      apply hframe.inbox v hvr
      intro hreach
      have := h.target_opened hsymm (r := r) hreach
      rw [show (x.phase v).hasOpened .segmentResult = false from hv] at this
      cases this
    exact hinbox.trans (h.inbox v hv)
  · intro q hq
    rw [← h.idle q hq]
    by_cases hqr : q = r
    · subst hqr
      exact congrArg (fun rank => (rank q).pc) (hrank.resolve_left hq)
    · exact congrArg Results.RankResults.pc (hframe.rank q hqr)
  · intro q v hq
    by_cases hqr : q = r
    · subst hqr
      rcases hframe.reach v hq with hreach | ⟨p, hpc, rfl, rfl⟩
      · exact h.reach q v hreach
      · have hpc' : (x.results.rank q).pc = .reserving p := hpc
        simp only [mayStep, hpc'] at hmay
        exact (of_decide_eq_true hmay).2
    · apply h.reach q v
      rw [← show (y.rank q).pc = (x.results.rank q).pc from
        congrArg Results.RankResults.pc (hframe.rank q hqr)]
      exact hq
  · intro v i hi
    by_cases hv : v = r
    · subst hv
      show sourceResults x v a v i =
        if (x.phase v).hasOpened .segmentResult then .push else .handshake
      rw [if_pos hopen]
      have hpush : (x.results.segment v).notifications i ≠ 0 → x.source v i = .push := by
        intro hne
        rw [h.source v i hne, if_pos hopen]
      have hfilled := hframe.filled i
      rw [hown, hown'] at hfilled
      rcases sourceResults_self (x := x) (r := v) (a := a) i with hsource | ⟨hsource, hfirst⟩
      · exact hsource
      · rcases hfilled hi with hne | ⟨j, b, ha, hb, hbi⟩
        · rw [hsource, hpush hne]
        · exact absurd hbi (hfirst j b ha hb)
    · have hi' : (y.segment v).notifications i ≠ 0 := hi
      rw [hother v hv] at hi'
      rw [← h.source v i hi']
      exact congrFun (sourceResults_of_ne hv) i

include hsymm in
theorem traffic_invariant : (traffic reg net).Invariant (TrafficOk reg net) := by
  constructor
  · exact fun x hx => hx.ok
  · intro x a x' _ h hs
    cases a with
    | handshake a =>
      obtain ⟨s, hnext, rfl⟩ := Option.map_eq_some_iff.mp hs
      cases a with
      | advance r => exact h.advance hsymm (advanced_of_advance hnext)
      | arrive m =>
        simp only [Startup.next] at hnext
        split at hnext <;> cases hnext
        exact h.arrive ‹_›
    | results r a =>
      simp only [traffic, nextTraffic] at hs
      split at hs
      · obtain ⟨y, hy, rfl⟩ := Option.map_eq_some_iff.mp hs
        exact h.results_step hsymm ‹_› hy
      · cases hs

/-! ### Separation -/

/-- What each side reads and overwrites in state `x`. -/
structure Separated (reg : Fin n → Fin n → Bool) (x : Traffic n) : Prop where
  /-- The assertions `dummy == i` and `val == 1` hold. -/
  running : ∀ r, x.phase r ≠ .aborted
  /-- What a rank finds in `open_segment_to_thieves` comes from a handshake, -/
  handshake : ∀ r (i : Fin n), x.phase r = .waiting .segmentResult i → reg r i = true →
    (x.results.segment r).notifications i ≠ 0 →
      x.source r i = .handshake ∧ (x.results.segment r).notifications i = 1
  /-- and what it finds in `wait_notification_for_elt` from a push. -/
  push : ∀ r i, (x.results.rank r).pc = .waiting i → (x.results.segment r).notifications i ≠ 0 →
    x.source r i = .push
  /-- A notification of a handshake that arrives finds its slot empty, -/
  arrival : ∀ m ∈ x.posted, x.handshakes.slots m.target m.segment m.sender = 0
  /-- and so does one of a push. -/
  delivery : ∀ r, ∀ m ∈ (x.results.segment r).inbox, (x.results.segment r).notifications m.first = 0

theorem handshakes_and_pushes_separated (hsymm : ∀ a b, reg a b = reg b a) {x : Traffic n}
    (hr : (traffic reg net).Reachable x) : Separated reg x := by
  have h := (traffic_invariant hsymm).holds hr
  constructor
  · exact h.handshakes.running
  · intro r i hp hreg hne
    have hsource := h.source r i hne
    rw [hp] at hsource
    have hslot : (mask x.handshakes).slots r .segmentResult = (x.results.segment r).notifications :=
      slots_mask (by rw [show x.handshakes.phase r = .waiting .segmentResult i from hp]; rfl)
    have hone := (h.handshakes.arrived (q := i) (j := r) (k := .segmentResult)
      (by rw [hslot]; exact hne)).one
    rw [hslot] at hone
    exact ⟨hsource, hone⟩
  · intro r i hpc hne
    have hr : x.phase r = .opened := by
      by_contra hnot
      rw [h.idle r hnot] at hpc
      cases hpc
    rw [h.source r i hne, hr]
    rfl
  · intro m hm
    have hfree := (h.handshakes.underway hm).free
    rwa [slots_mask (not_handedOver (h.handshakes.target_closed hm))] at hfree
  · intro r m hm
    have hopen : (x.phase r).hasOpened .segmentResult = true := by
      by_contra hclosed
      rw [h.inbox r (Bool.eq_false_of_not_eq_true hclosed)] at hm
      cases hm
    have hown : (strip x).segment r = x.results.segment r := by
      simp [strip, replaceState, hopen, replaceSegment_none]
    have hok := (h.results.segment r).delivery
    rw [hown] at hok
    -- an announced block does not meet one on its way
    by_contra hne
    have hpos := hok.length_pos m (.inl hm)
    have hapart := hok.announced_pending m.first hne m (.inl hm)
    omega

/-- Two ranks at the barrier, registered with each other. -/
def atBarrier : Traffic 2 where
  results := Results.constructed
  phase _ := .sending .segmentResult 0
  slots _ _ _ := 0
  posted := []
  source _ _ := .handshake

theorem atBarrier_init : TrafficInit atBarrier :=
  ⟨⟨fun _ => rfl, fun _ k _ => by cases k <;> rfl, rfl⟩, Results.constructed_init.1,
    Results.constructed_init.2⟩

/-- Both ranks notify both of segment `k`. -/
def notifyAll (k : SegmentId) : List (TrafficAction 2) :=
  List.replicate 3 (.handshake (.advance 0)) ++ List.replicate 3 (.handshake (.advance 1)) ++
    [.handshake (.arrive ⟨0, k, 0⟩), .handshake (.arrive ⟨0, k, 1⟩), .handshake (.arrive ⟨1, k, 0⟩),
      .handshake (.arrive ⟨1, k, 1⟩)]

/-- Rank 0 returns from `set_problem` and sends a result of rank 1 there, while rank 1 still waits
in the handshake of `segment_task`. -/
def pushEarly : List (TrafficAction 2) :=
  notifyAll .segmentResult ++ List.replicate 3 (.handshake (.advance 0)) ++
    List.replicate 3 (.handshake (.advance 1)) ++
  notifyAll .segmentTmp ++ List.replicate 3 (.handshake (.advance 0)) ++
    List.replicate 3 (.handshake (.advance 1)) ++
  notifyAll .segmentTask ++ List.replicate 3 (.handshake (.advance 0)) ++
  Results.reserveAndWait.map (fun a => .results a.1 a.2) ++
  List.replicate 10 (.results 0 .advance) ++ [.results 1 (.land 0 0), .results 1 (.deliver 0)]

theorem handshakes_and_pushes_separated_early :
    ∃ x, (traffic (fun _ _ => true) (Results.direct 2)).Reachable x ∧
      x.phase 1 = .waiting .segmentTask 0 ∧ (x.results.segment 1).notifications 0 = 1 ∧
      x.source 1 0 = .push ∧ Separated (fun _ _ => true) x := by
  obtain ⟨x, hr, hphase, hslot, hsource⟩ := Transition.System.exists_reachable
    (S := traffic (fun _ _ => true) (Results.direct 2)) atBarrier_init pushEarly
    (fun x => x.phase 1 = .waiting .segmentTask 0 ∧ (x.results.segment 1).notifications 0 = 1 ∧
      x.source 1 0 = .push) (by decide +kernel)
  exact ⟨x, hr, hphase, hslot, hsource, handshakes_and_pushes_separated (fun _ _ => rfl) hr⟩

end Titus.Startup
