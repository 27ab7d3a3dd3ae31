import Titus.Barrier.Status
import Titus.Lib.Execution
import Titus.VictimSelector.TreeEdges

/-! `first_barrier_handshake_protocol`: in its first barrier a rank registers its segment with its
neighbors in the tree and exchanges a passive message with each of them. -/

namespace Titus.FirstHandshake

open Barrier (Side facing infixedNeighbor)

variable {n : ℕ}

/-! ### State -/

inductive Point
  /-- `barrier` has not been called, and the segment is not allocated. -/
  | idle
  /-- Before the segment is registered with this neighbor. -/
  | connecting (σ : Side)
  /-- Before the message to this neighbor. -/
  | sending (σ : Side)
  /-- Before a message is received. -/
  | receiving
  | returned
deriving DecidableEq

/-- The handshake of a rank.  The fields from `registered` on are not in memory: with which neighbors
the segment is registered, to which GASPI has taken the message, and how many messages of each have
been received. -/
structure Status where
  pc : Point
  handshakeOk : Bool
  msgSent : Side → Bool
  msgReceived : Side → Bool
  registered : Side → Bool
  posted : Side → Bool
  consumed : Side → ℕ

/-- `inFlight q r` is the number of messages from rank `q` to rank `r` that `r` has not received. -/
structure State (n : ℕ) where
  status : Fin n → Status
  inFlight : Fin n → Fin n → ℕ

def State.setStatus (s : State n) (r : Fin n) (t : Status) : State n :=
  { s with status := Function.update s.status r t }

def State.setInFlight (s : State n) (q r : Fin n) (k : ℕ) : State n :=
  { s with inFlight := Function.update s.inFlight q (Function.update (s.inFlight q) r k) }

/-! ### Steps -/

section Steps

variable (t : Status)

def sendParent : Status :=
  if t.msgSent .parent then { t with pc := .receiving } else { t with pc := .sending .parent }

def sendRightChild : Status :=
  if t.msgSent .rightChild then sendParent t else { t with pc := .sending .rightChild }

def sendLeftChild : Status :=
  if t.msgSent .leftChild then sendRightChild t else { t with pc := .sending .leftChild }

/-- The condition of the loop. -/
def loopTest : Status :=
  if (t.msgSent .leftChild ∧ t.msgSent .rightChild ∧ t.msgSent .parent) ∧
      t.msgReceived .leftChild ∧ t.msgReceived .rightChild ∧ t.msgReceived .parent then
    { t with handshakeOk := true, pc := .returned }
  else sendLeftChild t

/-- What follows the message to the neighbor on side `σ`. -/
def afterSend (σ : Side) : Status :=
  match σ with
  | .leftChild => sendRightChild t
  | .rightChild => sendParent t
  | .parent => { t with pc := .receiving }

/-- A call of `gaspi_passive_send` for the neighbor on side `σ` has returned. -/
def attempted (σ : Side) (posts success : Bool) : Status :=
  { t with
    msgSent := Function.update t.msgSent σ success
    posted := Function.update t.posted σ (t.posted σ || posts) }

/-- The segment has been registered with the neighbor on side `σ`. -/
def connected (σ : Side) : Status :=
  { t with registered := Function.update t.registered σ true }

variable (r : Fin n)

/-- The start of `first_barrier_handshake_protocol`. -/
def startProtocol : Status :=
  loopTest { t with
    msgSent := fun σ => (infixedNeighbor r σ).isNone
    msgReceived := fun σ => (infixedNeighbor r σ).isNone }

def connectRightChild : Status :=
  if (infixedNeighbor r .rightChild).isSome then { t with pc := .connecting .rightChild }
  else startProtocol t r

def connectLeftChild : Status :=
  if (infixedNeighbor r .leftChild).isSome then { t with pc := .connecting .leftChild }
  else connectRightChild t r

/-- The first call of `init_barrier`. -/
def initBarrier : Status :=
  if (infixedNeighbor r .parent).isSome then { t with pc := .connecting .parent }
  else connectLeftChild t r

/-- What follows the connection to the neighbor on side `σ`. -/
def afterConnect (σ : Side) : Status :=
  match σ with
  | .parent => connectLeftChild t r
  | .leftChild => connectRightChild t r
  | .rightChild => startProtocol t r

def mark (σ : Side) : Status :=
  { t with
    msgReceived := Function.update t.msgReceived σ true
    consumed := Function.update t.consumed σ (t.consumed σ + 1) }

/-- A message from rank `q` has been received. -/
def handshaked (q : Fin n) : Status :=
  if infixedNeighbor r .leftChild = some q then mark t .leftChild
  else if infixedNeighbor r .rightChild = some q then mark t .rightChild
  else if infixedNeighbor r .parent = some q then mark t .parent
  else t

end Steps

inductive Action (n : ℕ)
  /-- Allocate the segment and call `barrier`. -/
  | call (r : Fin n)
  /-- `gaspi_connect`, which is called again if it does not succeed. -/
  | connect (r : Fin n) (success : Bool)
  /-- `gaspi_passive_send`, which takes the message if `posts`, and returns success or a timeout. -/
  | send (r : Fin n) (posts success : Bool)
  /-- `gaspi_passive_receive` of a message from rank `q`, or a timeout. -/
  | receive (r : Fin n) (q : Option (Fin n))
deriving DecidableEq

def Action.rank : Action n → Fin n
  | .call r | .connect r _ | .send r _ _ | .receive r _ => r

def next (s : State n) : Action n → Option (State n)
  | .call r =>
    if (s.status r).pc = .idle then some (s.setStatus r (initBarrier (s.status r) r)) else none
  | .connect r success =>
    let t := s.status r
    match t.pc with
    | .connecting σ =>
      if success then
        some (s.setStatus r (afterConnect (connected t σ) r σ))
      else some s
    | _ => none
  | .send r posts success =>
    let t := s.status r
    match t.pc with
    | .sending σ =>
      match infixedNeighbor r σ with
      | none => none
      | some q =>
        -- GASPI takes a message once, before it reports success.
        if (posts ∧ t.posted σ) ∨ (success ∧ ¬ posts ∧ ¬ t.posted σ) then none
        else
          some ((s.setInFlight r q (s.inFlight r q + posts.toNat)).setStatus r
            (afterSend (attempted t σ posts success) σ))
    | _ => none
  | .receive r none =>
    if (s.status r).pc = .receiving then some (s.setStatus r (loopTest (s.status r))) else none
  | .receive r (some q) =>
    if (s.status r).pc = .receiving ∧ s.inFlight q r ≠ 0 then
      some ((s.setInFlight q r (s.inFlight q r - 1)).setStatus r
        (loopTest (handshaked (s.status r) r q)))
    else none

/-- No rank has called `barrier` yet. -/
def initial (n : ℕ) : State n where
  status _ := ⟨.idle, false, fun _ => false, fun _ => false, fun _ => false, fun _ => false,
    fun _ => 0⟩
  inFlight _ _ := 0

/-- The first handshakes of `n` ranks. -/
def system (n : ℕ) : Transition.System (State n) (Action n) where
  init s := s = initial n
  next := next

variable {s s' : State n} {t t' : Status} {r q : Fin n} {σ τ : Side}

@[simp] theorem status_setStatus_self (s : State n) (r : Fin n) (t : Status) :
    (s.setStatus r t).status r = t := Function.update_self ..

theorem status_setStatus_of_ne (h : q ≠ r) : (s.setStatus r t).status q = s.status q :=
  Function.update_of_ne h ..

/-! ### The neighbors -/

theorem neighbor_facing (h : infixedNeighbor r σ = some q) :
    infixedNeighbor q (facing r q σ) = some r ∧ facing q r (facing r q σ) = σ :=
  Barrier.infixedNeighbor_facing (Nat.ne_of_gt r.pos) h

/-- A rank is on one side of another. -/
theorem neighbor_inj (hσ : infixedNeighbor r σ = some q) (hτ : infixedNeighbor r τ = some q) :
    σ = τ := by
  obtain ⟨t, ht⟩ := VictimSelector.exists_treeOn (Nat.succ_le_of_lt r.pos)
  obtain ⟨hnb, hlinks⟩ := ht.found r r.isLt
  rw [Barrier.infixedNeighbor_eq_some hnb] at hσ hτ
  obtain ⟨hleft, hright⟩ := ht.children_ordered r.isLt
  have hchildren : (VictimSelector.nodeOf n r).leftChild = some q.val →
      (VictimSelector.nodeOf n r).rightChild ≠ some q.val :=
    fun hl hr => Nat.lt_irrefl _ ((hleft q hl).trans (hright q hr))
  have hparent : (VictimSelector.nodeOf n r).parent = some q.val →
      (VictimSelector.nodeOf n r).leftChild ≠ some q.val ∧
        (VictimSelector.nodeOf n r).rightChild ≠ some q.val :=
    ht.linked.parent_ne_child (ht.mem.mpr r.isLt) hlinks
  cases σ <;> cases τ <;> simp_all

theorem handshaked_of_neighbor (h : infixedNeighbor r σ = some q) :
    handshaked t r q = mark t σ := by
  unfold handshaked
  split
  · rename_i hq
    rw [neighbor_inj h hq]
  · split
    · rename_i hq
      rw [neighbor_inj h hq]
    · split
      · rename_i hq
        rw [neighbor_inj h hq]
      · cases σ <;> contradiction

/-! ### Points of the loop -/

/-- The loop goes on with the status `t`, and comes to its next point or returns. -/
inductive Goes (t : Status) : Status → Prop
  | send (σ : Side) (h : t.msgSent σ = false) : Goes t { t with pc := .sending σ }
  | receive : Goes t { t with pc := .receiving }
  | leave (hsent : ∀ σ, t.msgSent σ = true) (hreceived : ∀ σ, t.msgReceived σ = true) :
    Goes t { t with handshakeOk := true, pc := .returned }

theorem goes_sendParent (t : Status) : Goes t (sendParent t) := by
  unfold sendParent
  split
  · exact .receive
  · exact .send .parent (Bool.eq_false_iff.mpr ‹_›)

theorem goes_sendRightChild (t : Status) : Goes t (sendRightChild t) := by
  unfold sendRightChild
  split
  · exact goes_sendParent t
  · exact .send .rightChild (Bool.eq_false_iff.mpr ‹_›)

theorem goes_sendLeftChild (t : Status) : Goes t (sendLeftChild t) := by
  unfold sendLeftChild
  split
  · exact goes_sendRightChild t
  · exact .send .leftChild (Bool.eq_false_iff.mpr ‹_›)

theorem goes_loopTest (t : Status) : Goes t (loopTest t) := by
  unfold loopTest
  split
  · rename_i h
    obtain ⟨⟨hl, hr, hp⟩, hl', hr', hp'⟩ := h
    apply Goes.leave
    · rintro (_ | _ | _) <;> assumption
    · rintro (_ | _ | _) <;> assumption
  · exact goes_sendLeftChild t

theorem goes_afterSend (t : Status) (σ : Side) : Goes t (afterSend t σ) := by
  cases σ with
  | parent => exact .receive
  | leftChild => exact goes_sendRightChild t
  | rightChild => exact goes_sendParent t

/-! ### What a rank has done -/

/-- In the protocol. -/
structure FlagsOk (r : Fin n) (t : Status) : Prop where
  registered : ∀ σ, (infixedNeighbor r σ).isSome → t.registered σ = true
  sent : ∀ σ, t.msgSent σ = true → (infixedNeighbor r σ).isSome → t.posted σ = true
  unsent : ∀ σ, t.msgSent σ = false → (infixedNeighbor r σ).isSome
  received : ∀ σ, t.msgReceived σ = true → (infixedNeighbor r σ).isSome → t.consumed σ ≠ 0
  unreceived : ∀ σ, t.msgReceived σ = false →
    (infixedNeighbor r σ).isSome ∧ t.consumed σ = 0

/-- Before the protocol, with the segment registered with the neighbors on `sides`. -/
structure Fresh (r : Fin n) (t : Status) (sides : List Side) : Prop where
  registered : ∀ σ ∈ sides, (infixedNeighbor r σ).isSome → t.registered σ = true
  posted : ∀ σ, t.posted σ = false
  consumed : ∀ σ, t.consumed σ = 0

/-- The neighbors that `init_barrier` connects before the one on side `σ`. -/
def earlier : Side → List Side
  | .parent => []
  | .leftChild => [.parent]
  | .rightChild => [.parent, .leftChild]

def RankOk (r : Fin n) (t : Status) : Prop :=
  match t.pc with
  | .idle => Fresh r t []
  | .connecting σ => Fresh r t (earlier σ)
  | .sending σ => FlagsOk r t ∧ t.msgSent σ = false
  | .receiving => FlagsOk r t
  | .returned => FlagsOk r t ∧ (∀ σ, t.msgSent σ = true) ∧ (∀ σ, t.msgReceived σ = true) ∧
    t.handshakeOk = true

theorem FlagsOk.goes (h : FlagsOk r t) (hg : Goes t t') : RankOk r t' := by
  cases hg with
  | send σ hσ => exact ⟨⟨h.registered, h.sent, h.unsent, h.received, h.unreceived⟩, hσ⟩
  | receive => exact ⟨h.registered, h.sent, h.unsent, h.received, h.unreceived⟩
  | leave hsent hreceived =>
    exact ⟨⟨h.registered, h.sent, h.unsent, h.received, h.unreceived⟩, hsent, hreceived, rfl⟩

/-- A status that differs in the point only. -/
theorem Fresh.goes {sides : List Side} (h : Fresh r t sides) {p : Point} :
    Fresh r { t with pc := p } sides := ⟨h.registered, h.posted, h.consumed⟩

theorem Fresh.cons {sides : List Side} (h : Fresh r t sides)
    (hσ : (infixedNeighbor r σ).isSome → t.registered σ = true) : Fresh r t (sides ++ [σ]) := by
  refine ⟨?_, h.posted, h.consumed⟩
  intro τ hτ
  rcases List.mem_append.mp hτ with hτ | hτ
  · exact h.registered τ hτ
  · rw [List.mem_singleton.mp hτ]
    exact hσ

theorem Fresh.startProtocol (h : Fresh r t [.parent, .leftChild, .rightChild]) :
    RankOk r (startProtocol t r) := by
  apply FlagsOk.goes _ (goes_loopTest _)
  constructor
  · intro σ
    apply h.registered
    cases σ <;> simp
  · intro σ hnone hsome
    simp [Option.isNone_iff_eq_none.mp hnone] at hsome
  · intro σ hσ
    simpa using hσ
  · intro σ hnone hsome
    simp [Option.isNone_iff_eq_none.mp hnone] at hsome
  · intro σ hσ
    exact ⟨by simpa using hσ, h.consumed σ⟩

theorem Fresh.connectRightChild (h : Fresh r t [.parent, .leftChild]) :
    RankOk r (connectRightChild t r) := by
  unfold FirstHandshake.connectRightChild
  split
  · exact h.goes
  · exact (h.cons fun hsome => absurd hsome ‹_›).startProtocol

theorem Fresh.connectLeftChild (h : Fresh r t [.parent]) : RankOk r (connectLeftChild t r) := by
  unfold FirstHandshake.connectLeftChild
  split
  · exact h.goes
  · exact (h.cons fun hsome => absurd hsome ‹_›).connectRightChild

theorem Fresh.initBarrier (h : Fresh r t []) : RankOk r (initBarrier t r) := by
  unfold FirstHandshake.initBarrier
  split
  · exact h.goes
  · exact (h.cons fun hsome => absurd hsome ‹_›).connectLeftChild

theorem Fresh.afterConnect (h : Fresh r t (earlier σ)) :
    RankOk r (afterConnect (connected t σ) r σ) := by
  have hnow : Fresh r (connected t σ) (earlier σ ++ [σ]) := by
    refine ⟨?_, h.posted, h.consumed⟩
    intro τ hτ hsome
    simp only [connected]
    by_cases heq : τ = σ
    · rw [heq, Function.update_self]
    · rw [Function.update_of_ne heq]
      rcases List.mem_append.mp hτ with hτ | hτ
      · exact h.registered τ hτ hsome
      · exact absurd (List.mem_singleton.mp hτ) heq
  cases σ with
  | parent => exact hnow.connectLeftChild
  | leftChild => exact hnow.connectRightChild
  | rightChild => exact hnow.startProtocol

theorem FlagsOk.attempted (h : FlagsOk r t) {posts success : Bool}
    (hsome : (infixedNeighbor r σ).isSome)
    (hsuccess : success = true → posts = true ∨ t.posted σ = true) :
    FlagsOk r (attempted t σ posts success) := by
  refine ⟨h.registered, ?_, ?_, h.received, h.unreceived⟩
  · intro τ hτ hτsome
    simp only [FirstHandshake.attempted] at hτ ⊢
    by_cases heq : τ = σ
    · subst heq
      rw [Function.update_self] at hτ ⊢
      rcases hsuccess hτ with hposts | hposted
      · rw [hposts, Bool.or_true]
      · rw [hposted, Bool.true_or]
    · rw [Function.update_of_ne heq] at hτ ⊢
      exact h.sent τ hτ hτsome
  · intro τ hτ
    simp only [FirstHandshake.attempted] at hτ
    by_cases heq : τ = σ
    · rwa [heq]
    · rw [Function.update_of_ne heq] at hτ
      exact h.unsent τ hτ

theorem FlagsOk.mark (h : FlagsOk r t) (σ : Side) : FlagsOk r (mark t σ) := by
  refine ⟨h.registered, h.sent, h.unsent, ?_, ?_⟩
  · intro τ hτ hsome
    simp only [FirstHandshake.mark] at hτ ⊢
    by_cases heq : τ = σ
    · rw [heq, Function.update_self]
      exact Nat.succ_ne_zero _
    · rw [Function.update_of_ne heq] at hτ ⊢
      exact h.received τ hτ hsome
  · intro τ hτ
    simp only [FirstHandshake.mark] at hτ ⊢
    by_cases heq : τ = σ
    · rw [heq, Function.update_self] at hτ
      cases hτ
    · rw [Function.update_of_ne heq] at hτ ⊢
      exact h.unreceived τ hτ

/-! ### What a step does -/

inductive Stepped (s : State n) (r : Fin n) : Action n → State n → Prop
  | call (hpc : (s.status r).pc = .idle) :
    Stepped s r (.call r) (s.setStatus r (initBarrier (s.status r) r))
  | connect (σ : Side) (hpc : (s.status r).pc = .connecting σ) :
    Stepped s r (.connect r true) (s.setStatus r (afterConnect (connected (s.status r) σ) r σ))
  | retry (σ : Side) (hpc : (s.status r).pc = .connecting σ) : Stepped s r (.connect r false) s
  | send (σ : Side) (q : Fin n) (posts success : Bool) (hpc : (s.status r).pc = .sending σ)
    (hq : infixedNeighbor r σ = some q) (hposts : posts = true → (s.status r).posted σ = false)
    (hsuccess : success = true → posts = true ∨ (s.status r).posted σ = true) :
    Stepped s r (.send r posts success)
      ((s.setInFlight r q (s.inFlight r q + posts.toNat)).setStatus r
        (afterSend (attempted (s.status r) σ posts success) σ))
  | poll (hpc : (s.status r).pc = .receiving) :
    Stepped s r (.receive r none) (s.setStatus r (loopTest (s.status r)))
  | receive (q : Fin n) (hpc : (s.status r).pc = .receiving) (hq : s.inFlight q r ≠ 0) :
    Stepped s r (.receive r (some q))
      ((s.setInFlight q r (s.inFlight q r - 1)).setStatus r
        (loopTest (handshaked (s.status r) r q)))

theorem stepped_of_next {a : Action n} (h : next s a = some s') : Stepped s a.rank a s' := by
  cases a with
  | call r =>
    simp only [next] at h
    split at h <;> cases h
    exact .call ‹_›
  | connect r success =>
    simp only [next] at h
    split at h
    · cases success with
      | true =>
        cases h
        exact .connect _ ‹_›
      | false =>
        cases h
        exact .retry _ ‹_›
    · cases h
  | send r posts success =>
    simp only [next] at h
    split at h
    · split at h
      · cases h
      · rename_i q hq
        split at h <;> cases h
        rename_i hno
        rw [not_or] at hno
        refine .send _ q posts success ‹_› hq ?_ ?_
        · intro hposts
          exact Bool.eq_false_iff.mpr fun hposted => hno.1 ⟨hposts, hposted⟩
        · intro hsuccess
          by_contra hneither
          rw [not_or] at hneither
          exact hno.2 ⟨hsuccess, hneither.1, hneither.2⟩
    · cases h
  | receive r q =>
    cases q with
    | none =>
      simp only [next] at h
      split at h <;> cases h
      exact .poll ‹_›
    | some q =>
      simp only [next] at h
      split at h <;> cases h
      rename_i hq
      exact .receive q hq.1 hq.2

/-! ### Messages -/

/-- Nothing has been posted or received. -/
structure SameTraffic (t t' : Status) : Prop where
  posted : t'.posted = t.posted
  consumed : t'.consumed = t.consumed

theorem Goes.sameTraffic (h : Goes t t') : SameTraffic t t' := by
  cases h <;> exact ⟨rfl, rfl⟩

theorem sameTraffic_startProtocol : SameTraffic t (startProtocol t r) :=
  let h := (goes_loopTest _).sameTraffic
  ⟨h.posted, h.consumed⟩

theorem sameTraffic_connectRightChild : SameTraffic t (connectRightChild t r) := by
  unfold connectRightChild
  split
  · exact ⟨rfl, rfl⟩
  · exact sameTraffic_startProtocol

theorem sameTraffic_connectLeftChild : SameTraffic t (connectLeftChild t r) := by
  unfold connectLeftChild
  split
  · exact ⟨rfl, rfl⟩
  · exact sameTraffic_connectRightChild

theorem sameTraffic_initBarrier : SameTraffic t (initBarrier t r) := by
  unfold initBarrier
  split
  · exact ⟨rfl, rfl⟩
  · exact sameTraffic_connectLeftChild

theorem sameTraffic_afterConnect : SameTraffic t (afterConnect (connected t σ) r σ) := by
  have h : SameTraffic (connected t σ) (afterConnect (connected t σ) r σ) := by
    cases σ with
    | parent => exact sameTraffic_connectLeftChild
    | leftChild => exact sameTraffic_connectRightChild
    | rightChild => exact sameTraffic_startProtocol
  exact ⟨h.posted, h.consumed⟩

/-- Each message is posted once, and is then on its way or has been received. -/
structure Ok (s : State n) : Prop where
  rank : ∀ r, RankOk r (s.status r)
  channel : ∀ r σ q, infixedNeighbor r σ = some q →
    s.inFlight r q + (s.status q).consumed (facing r q σ) = ((s.status r).posted σ).toNat
  stray : ∀ r q, s.inFlight r q ≠ 0 → ∃ σ, infixedNeighbor r σ = some q

theorem Ok.setStatus (h : Ok s) (hrank : RankOk r t') (ht : SameTraffic (s.status r) t') :
    Ok (s.setStatus r t') := by
  have hposted : ∀ q, ((s.setStatus r t').status q).posted = (s.status q).posted := by
    intro q
    by_cases hq : q = r
    · rw [hq, status_setStatus_self, ht.posted]
    · rw [status_setStatus_of_ne hq]
  have hconsumed : ∀ q, ((s.setStatus r t').status q).consumed = (s.status q).consumed := by
    intro q
    by_cases hq : q = r
    · rw [hq, status_setStatus_self, ht.consumed]
    · rw [status_setStatus_of_ne hq]
  refine ⟨?_, ?_, h.stray⟩
  · intro q
    by_cases hq : q = r
    · rw [hq, status_setStatus_self]
      exact hrank
    · rw [status_setStatus_of_ne hq]
      exact h.rank q
  · intro q σ q' hq
    rw [hposted, hconsumed]
    exact h.channel q σ q' hq

/-- A call of `gaspi_passive_send`. -/
theorem Ok.send (h : Ok s) {posts success : Bool} (hpc : (s.status r).pc = .sending σ)
    (hq : infixedNeighbor r σ = some q) (hposts : posts = true → (s.status r).posted σ = false)
    (hsuccess : success = true → posts = true ∨ (s.status r).posted σ = true) :
    Ok ((s.setInFlight r q (s.inFlight r q + posts.toNat)).setStatus r
      (afterSend (attempted (s.status r) σ posts success) σ)) := by
  have hrank := h.rank r
  simp only [RankOk, hpc] at hrank
  have hflags : FlagsOk r (attempted (s.status r) σ posts success) :=
    hrank.1.attempted (by rw [hq]; rfl) hsuccess
  have hgoes := goes_afterSend (attempted (s.status r) σ posts success) σ
  have htraffic := hgoes.sameTraffic
  refine ⟨?_, ?_, ?_⟩
  · intro v
    by_cases hv : v = r
    · rw [hv, status_setStatus_self]
      exact hflags.goes hgoes
    · rw [status_setStatus_of_ne hv]
      exact h.rank v
  · intro v τ w hw
    have hchannel := h.channel v τ w hw
    have hconsumed : (Function.update s.status r
        (afterSend (attempted (s.status r) σ posts success) σ) w).consumed =
          (s.status w).consumed := by
      by_cases hwr : w = r
      · rw [hwr, Function.update_self, htraffic.consumed]
        rfl
      · rw [Function.update_of_ne hwr]
    simp only [State.setStatus, State.setInFlight, hconsumed]
    by_cases hv : v = r
    · subst hv
      rw [Function.update_self, Function.update_self, htraffic.posted]
      simp only [attempted]
      by_cases hτ : τ = σ
      · subst hτ
        cases Option.some.inj (hq.symm.trans hw)
        rw [Function.update_self, Function.update_self]
        cases posts with
        | false =>
          rw [Bool.or_false, Bool.toNat_false]
          exact hchannel
        | true =>
          rw [hposts rfl, Bool.toNat_false] at hchannel
          simp only [Bool.or_true, Bool.toNat_true]
          omega
      · have hwq : w ≠ q := fun heq => hτ (neighbor_inj hw (heq ▸ hq))
        rw [Function.update_of_ne hwq, Function.update_of_ne hτ]
        exact hchannel
    · rw [Function.update_of_ne hv, Function.update_of_ne hv]
      exact hchannel
  · intro v w hw
    by_cases hvw : v = r ∧ w = q
    · rw [hvw.1, hvw.2]
      exact ⟨σ, hq⟩
    · apply h.stray v w
      by_cases hv : v = r
      · subst hv
        have hwq : w ≠ q := fun heq => hvw ⟨rfl, heq⟩
        simpa [State.setStatus, State.setInFlight, hwq] using hw
      · simpa [State.setStatus, State.setInFlight, hv] using hw

/-- A message is received. -/
theorem Ok.receive (h : Ok s) (hpc : (s.status r).pc = .receiving) (hq : s.inFlight q r ≠ 0) :
    Ok ((s.setInFlight q r (s.inFlight q r - 1)).setStatus r
      (loopTest (handshaked (s.status r) r q))) := by
  have hflags := h.rank r
  simp only [RankOk, hpc] at hflags
  obtain ⟨σ, hσ⟩ := h.stray q r hq
  obtain ⟨hfacing, -⟩ := neighbor_facing hσ
  have hmark : handshaked (s.status r) r q = mark (s.status r) (facing q r σ) :=
    handshaked_of_neighbor hfacing
  rw [hmark]
  have hgoes := goes_loopTest (mark (s.status r) (facing q r σ))
  have htraffic := hgoes.sameTraffic
  refine ⟨?_, ?_, ?_⟩
  · intro v
    by_cases hv : v = r
    · rw [hv, status_setStatus_self]
      exact (hflags.mark _).goes hgoes
    · rw [status_setStatus_of_ne hv]
      exact h.rank v
  · intro v τ w hw
    have hchannel := h.channel v τ w hw
    have hposted : (Function.update s.status r
        (loopTest (mark (s.status r) (facing q r σ))) v).posted = (s.status v).posted := by
      by_cases hvr : v = r
      · rw [hvr, Function.update_self, htraffic.posted]
        rfl
      · rw [Function.update_of_ne hvr]
    simp only [State.setStatus, State.setInFlight, hposted]
    by_cases hwr : w = r
    · subst hwr
      rw [Function.update_self, htraffic.consumed]
      simp only [mark]
      by_cases hv : v = q
      · subst hv
        cases neighbor_inj hσ hw
        rw [Function.update_self, Function.update_self, Function.update_self]
        omega
      · -- another neighbor is on another side
        have hside : facing v w τ ≠ facing q w σ := by
          intro heq
          have hfv := (neighbor_facing hw).1
          rw [heq, hfacing] at hfv
          exact hv (Option.some.inj hfv).symm
        rw [Function.update_of_ne hv, Function.update_of_ne hside]
        exact hchannel
    · rw [Function.update_of_ne hwr]
      by_cases hv : v = q
      · subst hv
        rw [Function.update_self, Function.update_of_ne hwr]
        exact hchannel
      · rw [Function.update_of_ne hv]
        exact hchannel
  · intro v w hw
    apply h.stray v w
    by_cases hv : v = q
    · subst hv
      by_cases hwr : w = r
      · subst hwr
        exact hq
      · simpa [State.setStatus, State.setInFlight, hwr] using hw
    · simpa [State.setStatus, State.setInFlight, hv] using hw

theorem Ok.stepped (h : Ok s) {a : Action n} (hs : Stepped s r a s') : Ok s' := by
  cases hs with
  | call hpc =>
    have hrank := h.rank r
    simp only [RankOk, hpc] at hrank
    exact h.setStatus hrank.initBarrier sameTraffic_initBarrier
  | connect σ hpc =>
    have hrank := h.rank r
    simp only [RankOk, hpc] at hrank
    exact h.setStatus hrank.afterConnect sameTraffic_afterConnect
  | retry => exact h
  | send σ q posts success hpc hq hposts hsuccess => exact h.send hpc hq hposts hsuccess
  | poll hpc =>
    have hrank := h.rank r
    simp only [RankOk, hpc] at hrank
    exact h.setStatus (hrank.goes (goes_loopTest _)) (goes_loopTest _).sameTraffic
  | receive q hpc hq => exact h.receive hpc hq

theorem ok_initial : Ok (initial n) := by
  refine ⟨?_, ?_, ?_⟩
  · intro r
    exact ⟨fun σ hσ => absurd hσ List.not_mem_nil, fun _ => rfl, fun _ => rfl⟩
  · intro r σ q _
    rfl
  · intro r q h
    exact absurd rfl h

theorem invariant : (system n).Invariant Ok :=
  ⟨fun _ hs => hs ▸ ok_initial, fun _ _ _ _ h hs => h.stepped (stepped_of_next hs)⟩

theorem ok_of_reachable (hr : (system n).Reachable s) : Ok s := invariant.holds hr

/-! ### Who has returned has met its neighbors -/

def Point.InProtocol : Point → Prop
  | .idle | .connecting _ => False
  | .sending _ | .receiving | .returned => True

theorem RankOk.flags (h : RankOk r t) (hpc : t.pc.InProtocol) : FlagsOk r t := by
  unfold RankOk at h
  split at h
  · rename_i heq
    rw [heq] at hpc
    cases hpc
  · rename_i heq
    rw [heq] at hpc
    cases hpc
  · exact h.1
  · exact h
  · exact h.1

/-- A rank whose message has been posted is in the protocol. -/
theorem RankOk.inProtocol (h : RankOk r t) (hposted : t.posted σ = true) : t.pc.InProtocol := by
  unfold RankOk at h
  split at h
  · rw [h.posted] at hposted
    cases hposted
  · rw [h.posted] at hposted
    cases hposted
  all_goals
    rename_i heq
    rw [heq]
    trivial

/-- The only message of a neighbor has been received by a rank that has returned. -/
theorem Ok.met (h : Ok s) (hpc : (s.status r).pc = .returned) (hq : infixedNeighbor r σ = some q) :
    (s.status r).consumed σ = 1 ∧ s.inFlight q r = 0 ∧
      (s.status q).posted (facing r q σ) = true := by
  have hrank := h.rank r
  simp only [RankOk, hpc] at hrank
  obtain ⟨hflags, -, hreceived, -⟩ := hrank
  have hconsumed := hflags.received σ (hreceived σ) (by rw [hq]; rfl)
  obtain ⟨hback, hside⟩ := neighbor_facing hq
  have hchannel := h.channel q (facing r q σ) r hback
  rw [hside] at hchannel
  have hposted : (s.status q).posted (facing r q σ) = true := by
    by_contra hno
    rw [Bool.eq_false_iff.mpr hno, Bool.toNat_false] at hchannel
    omega
  rw [hposted, Bool.toNat_true] at hchannel
  exact ⟨by omega, by omega, hposted⟩

/-- A rank posts no message before its segment is registered with all its neighbors. -/
theorem Ok.registered_of_posted (h : Ok s) (hposted : (s.status r).posted τ = true)
    (hσ : (infixedNeighbor r σ).isSome) :
    (s.status r).pc ≠ .idle ∧ (s.status r).registered σ = true := by
  have hin := (h.rank r).inProtocol hposted
  refine ⟨?_, ((h.rank r).flags hin).registered σ hσ⟩
  intro hidle
  rw [hidle] at hin
  cases hin

/-- A rank that has returned from the handshake has received one message of each neighbor, and the
neighbor has allocated its segment and registered it with the rank. -/
theorem handshake_meets_neighbors (hr : (system n).Reachable s)
    (hpc : (s.status r).pc = .returned) (hq : infixedNeighbor r σ = some q) :
    (s.status r).consumed σ = 1 ∧ s.inFlight q r = 0 ∧ (s.status q).pc ≠ .idle ∧
      (s.status q).registered (facing r q σ) = true := by
  have h := ok_of_reachable hr
  obtain ⟨hconsumed, hnone, hposted⟩ := h.met hpc hq
  exact ⟨hconsumed, hnone,
    h.registered_of_posted hposted (by rw [(neighbor_facing hq).1]; rfl)⟩

/-- Ranks 1 and 0 of three have met, and rank 2 has not called `barrier`. -/
def meeting : List (Action 3) :=
  [.call 1, .connect 1 true, .connect 1 false, .connect 1 true, .call 0, .connect 0 true,
    .send 1 true false, .send 0 false false, .receive 0 (some 1), .send 0 true true, .receive 0 none]

theorem handshake_meets_neighbors_three :
    ∃ s, (system 3).Reachable s ∧ (s.status 0).pc = .returned ∧ (s.status 2).pc = .idle ∧
      (s.status 1).registered .leftChild = true := by
  obtain ⟨s, hr, hpc, hidle⟩ := Transition.System.exists_reachable (S := system 3) rfl meeting
    (fun s => (s.status 0).pc = .returned ∧ (s.status 2).pc = .idle) (by decide +kernel)
  have hq : infixedNeighbor (0 : Fin 3) .parent = some 1 := by decide +kernel
  exact ⟨s, hr, hpc, hidle, (handshake_meets_neighbors hr hpc hq).2.2.2⟩

end Titus.FirstHandshake
