import Titus.Barrier.Completion
import Titus.Barrier.HandshakeCompletion

/-! The first barrier of all ranks: `init_barrier` returns when the handshake of the rank is
complete, and `barrier` goes on from there, so that its notifications find the segments that they go
to. -/

namespace Titus.FirstBarrier

open Barrier (Tree barriers infixedTree infixedNeighbor facing)

variable {n : ℕ}

/-! ### State and steps -/

structure State (n : ℕ) where
  handshake : FirstHandshake.State n
  barrier : Barrier.State n

inductive Action (n : ℕ)
  /-- A step in `init_barrier`, in the first call of `barrier`. -/
  | handshake (a : FirstHandshake.Action n)
  | barrier (a : Barrier.Action n)
deriving DecidableEq

/-- `barrier` goes on when `init_barrier` has returned. -/
def initialised (s : State n) : Barrier.Action n → Prop
  | .call r => (s.handshake.status r).pc = .returned
  | _ => True

instance (s : State n) : DecidablePred (initialised s)
  | .call r => inferInstanceAs (Decidable ((s.handshake.status r).pc = .returned))
  | .advance _ | .timeout _ | .arrive _ | .gaspiWait _ => inferInstanceAs (Decidable True)

def next (T : Tree n) (queueSizeMax : ℕ) (s : State n) : Action n → Option (State n)
  | .handshake a => (FirstHandshake.next s.handshake a).map fun t => { s with handshake := t }
  | .barrier a =>
    if initialised s a then
      (Barrier.next T queueSizeMax s.barrier a).map fun t => { s with barrier := t }
    else none

def initial (n : ℕ) : State n := ⟨FirstHandshake.initial n, Barrier.initial n⟩

/-- The first handshakes and the barriers of `n` ranks. -/
def system (T : Tree n) (queueSizeMax : ℕ) : Transition.System (State n) (Action n) where
  init s := s = initial n
  next := next T queueSizeMax

variable {T : Tree n} {queueSizeMax : ℕ} {s s' : State n} {r q : Fin n}

/-- A step is one of a handshake or one of a barrier. -/
inductive Stepped (T : Tree n) (queueSizeMax : ℕ) (s : State n) : State n → Prop
  | handshake (a : FirstHandshake.Action n) (t : FirstHandshake.State n)
    (hs : FirstHandshake.next s.handshake a = some t) :
    Stepped T queueSizeMax s { s with handshake := t }
  | barrier (a : Barrier.Action n) (t : Barrier.State n) (ha : initialised s a)
    (hs : Barrier.next T queueSizeMax s.barrier a = some t) :
    Stepped T queueSizeMax s { s with barrier := t }

theorem stepped_of_next {a : Action n} (h : next T queueSizeMax s a = some s') :
    Stepped T queueSizeMax s s' := by
  cases a with
  | handshake a =>
    obtain ⟨t, hs, rfl⟩ := Option.map_eq_some_iff.mp h
    exact .handshake a t hs
  | barrier a =>
    simp only [next] at h
    split at h
    · rename_i ha
      obtain ⟨t, hs, rfl⟩ := Option.map_eq_some_iff.mp h
      exact .barrier a t ha hs
    · cases h

/-! ### The two parts -/

theorem projects_handshake (T : Tree n) (queueSizeMax : ℕ) :
    (system T queueSizeMax).Projects (FirstHandshake.system n) State.handshake := by
  constructor
  · rintro s rfl
    rfl
  · intro s a s' _ _ hnext
    cases stepped_of_next hnext with
    | handshake b t hs => exact .inr ⟨b, hs⟩
    | barrier => exact .inl rfl

theorem projects_barrier (T : Tree n) (queueSizeMax : ℕ) :
    (system T queueSizeMax).Projects (barriers T queueSizeMax) State.barrier := by
  constructor
  · rintro s rfl
    rfl
  · intro s a s' _ _ hnext
    cases stepped_of_next hnext with
    | handshake => exact .inl rfl
    | barrier b t hb hs => exact .inr ⟨b, hs⟩

/-! ### No barrier before the handshake -/

/-- A rank whose handshake is not complete has not gone on in `barrier`. -/
def Waits (s : State n) : Prop :=
  ∀ r, (s.handshake.status r).pc = .returned ∨
    s.barrier.status r = (Barrier.initial n).status r

/-- A rank that is not in `barrier` and has an empty queue stays as it is until it calls
`barrier`. -/
theorem status_of_idle {b b' : Barrier.State n} {a : Barrier.Action n}
    (hs : Barrier.next T queueSizeMax b a = some b') (hidle : (b.status q).pc = .idle)
    (hqueued : (b.status q).queued = 0) : b'.status q = b.status q ∨ a = .call q := by
  have hne {r : Fin n} (t : Barrier.BarrierStatus) (h : q ≠ r) :
      Function.update b.status r t q = b.status q := Function.update_of_ne h ..
  cases a with
  | call r =>
    simp only [Barrier.next] at hs
    split at hs <;> cases hs
    by_cases hq : q = r
    · exact .inr (congrArg _ hq.symm)
    · exact .inl (hne _ hq)
  | advance r =>
    obtain ⟨u, hu⟩ := Barrier.status_advance hs
    rw [hu]
    refine .inl (hne _ ?_)
    rintro rfl
    simp [Barrier.next, Barrier.advance, hidle] at hs
  | timeout r =>
    simp only [Barrier.next] at hs
    split at hs
    · rename_i hpc
      split at hs <;> cases hs
      refine .inl (hne _ ?_)
      rintro rfl
      rw [hidle] at hpc
      cases hpc
    · cases hs
  | arrive m =>
    simp only [Barrier.next] at hs
    split at hs <;> cases hs
    exact .inl rfl
  | gaspiWait r =>
    simp only [Barrier.next] at hs
    split at hs <;> cases hs
    refine .inl ?_
    by_cases hq : q = r
    · subst hq
      simp only [Barrier.State.setStatus, Function.update_self, ← hqueued]
    · exact hne _ hq

theorem Waits.stepped (h : Waits s) (hs : Stepped T queueSizeMax s s') : Waits s' := by
  intro q
  cases hs with
  | handshake a t hs =>
    refine (h q).imp_left fun hret => ?_
    have hst := FirstHandshake.stepped_of_next hs
    rw [hst.status_of_ne (hst.ne_of_returned hret)]
    exact hret
  | barrier a t ha hs =>
    rcases h q with hret | hq
    · exact .inl hret
    · rcases status_of_idle hs (by rw [hq]; rfl) (by rw [hq]; rfl) with heq | rfl
      · exact .inr (heq.trans hq)
      · exact .inl ha

theorem waits_invariant (T : Tree n) (queueSizeMax : ℕ) :
    (system T queueSizeMax).Invariant Waits := by
  constructor
  · rintro s rfl r
    exact .inr rfl
  · exact fun s a s' _ h hs => h.stepped (stepped_of_next hs)

theorem Waits.returned (h : Waits s)
    (hq : s.barrier.status r ≠ (Barrier.initial n).status r) :
    (s.handshake.status r).pc = .returned := (h r).resolve_right hq

/-! ### The notifications -/

/-- A rank with a notification on its way to it has allocated its segment and registered it with the
sender.  When a rank has returned from a barrier, all ranks have returned from the handshake, and
there are no passive messages any more. -/
theorem first_barrier_reaches_segments (h : 2 ≤ n)
    (hr : (system (infixedTree h) queueSizeMax).Reachable s) :
    (∀ m ∈ s.barrier.posted, infixedNeighbor m.target m.side = some m.sender ∧
      (s.handshake.status m.target).pc ≠ .idle ∧
      (s.handshake.status m.target).registered m.side = true) ∧
    ∀ r, 0 < (s.barrier.status r).returned →
      ∀ q, (s.handshake.status q).pc = .returned ∧ ∀ p, s.handshake.inFlight p q = 0 := by
  have hok := (Barrier.barrierOk_invariant _ _).holds ((projects_barrier _ _).reachable hr)
  have hmet := FirstHandshake.ok_of_reachable ((projects_handshake _ _).reachable hr)
  have hwaits := (waits_invariant _ _).holds hr
  constructor
  · intro m hm
    have hnb : infixedNeighbor m.target m.side = some m.sender := hok.posted m hm
    have hsent := hok.edge m.target m.sender m.side hnb
    have hcount : 0 < s.barrier.posted.count ⟨m.target, m.side, m.sender⟩ :=
      List.count_pos_iff.mpr hm
    have hret : (s.handshake.status m.sender).pc = .returned := by
      apply hwaits.returned
      intro heq
      rw [heq, show ((Barrier.initial n).status m.sender).sent _ = 0 from rfl] at hsent
      omega
    obtain ⟨hback, -⟩ := FirstHandshake.neighbor_facing hnb
    obtain ⟨-, -, hposted⟩ := hmet.met hret hback
    exact ⟨hnb, hmet.registered_of_posted hposted (by rw [hnb]; rfl)⟩
  · intro r hreturned
    have hall : ∀ q, (s.handshake.status q).pc = .returned := by
      intro q
      apply hwaits.returned
      intro heq
      have hle := hok.returned_le r q
      rw [heq, show ((Barrier.initial n).status q).started = 0 from rfl] at hle
      omega
    intro q
    refine ⟨hall q, fun p => ?_⟩
    by_contra hp
    obtain ⟨σ, hq⟩ := hmet.stray p q hp
    obtain ⟨hback, -⟩ := FirstHandshake.neighbor_facing hq
    exact hp (hmet.met (hall q) hback).2.1

/-- After the handshakes of three ranks, rank 0 returns from its first barrier, and the notification
of rank 2 is on its way. -/
def release : List (Action 3) :=
  FirstHandshake.complete.map .handshake ++ Barrier.release.map .barrier

theorem first_barrier_reaches_segments_three :
    ∃ s, (system (infixedTree (n := 3) (by decide)) 1024).Reachable s ∧
      (s.handshake.status 2).registered .parent = true ∧ s.handshake.inFlight 1 2 = 0 := by
  obtain ⟨s, hr, hnote, hreturned⟩ := Transition.System.exists_reachable
    (S := system (infixedTree (n := 3) (by decide)) 1024) rfl release
    (fun s => (⟨2, .parent, 1⟩ : Barrier.Note 3) ∈ s.barrier.posted ∧
      0 < (s.barrier.status 0).returned) (by decide +kernel)
  obtain ⟨hsegments, hmessages⟩ := first_barrier_reaches_segments _ hr
  exact ⟨s, hr, (hsegments _ hnote).2.2, (hmessages 0 hreturned 2).2 1⟩

end Titus.FirstBarrier
