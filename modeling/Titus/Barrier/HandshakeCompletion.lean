import Mathlib.Order.Filter.Finite
import Titus.Barrier.FirstHandshake

/-! The first handshakes come to an end: if no call of GASPI fails for ever, all ranks return, and no
message is left. -/

namespace Titus.FirstHandshake

open Filter (atTop)
open Transition.System (Execution frequently_at not_frequently_lt)
open Barrier (Side facing infixedNeighbor)

variable {n : ℕ} {s s' : State n} {t t' : Status} {r q : Fin n} {σ : Side} {p : Point}

/-! ### What stays -/

theorem Goes.msgSent (h : Goes t t') : t'.msgSent = t.msgSent := by
  cases h <;> rfl

theorem Goes.msgReceived (h : Goes t t') : t'.msgReceived = t.msgReceived := by
  cases h <;> rfl

theorem Goes.inProtocol (h : Goes t t') : t'.pc.InProtocol := by
  cases h <;> trivial

/-- What a rank in the protocol has sent and received. -/
structure Later (t t' : Status) : Prop where
  inProtocol : t'.pc.InProtocol
  msgSent : ∀ σ, t.msgSent σ = true → t'.msgSent σ = true
  msgReceived : ∀ σ, t.msgReceived σ = true → t'.msgReceived σ = true

theorem Goes.later (h : Goes t t') : Later t t' := by
  refine ⟨h.inProtocol, ?_, ?_⟩
  · intro σ hσ
    rwa [h.msgSent]
  · intro σ hσ
    rwa [h.msgReceived]

theorem Later.trans (h : Later t t') {t'' : Status} (h' : Later t' t'') : Later t t'' :=
  ⟨h'.inProtocol, fun σ hσ => h'.msgSent σ (h.msgSent σ hσ),
    fun σ hσ => h'.msgReceived σ (h.msgReceived σ hσ)⟩

theorem later_mark (hin : t.pc.InProtocol) (σ : Side) : Later t (mark t σ) := by
  refine ⟨hin, fun _ h => h, ?_⟩
  intro τ hτ
  simp only [mark]
  by_cases heq : τ = σ
  · rw [heq, Function.update_self]
  · rwa [Function.update_of_ne heq]

theorem later_handshaked (hin : t.pc.InProtocol) (r q : Fin n) : Later t (handshaked t r q) := by
  unfold handshaked
  split
  · exact later_mark hin _
  · split
    · exact later_mark hin _
    · split
      · exact later_mark hin _
      · exact ⟨hin, fun _ h => h, fun _ h => h⟩

theorem later_attempted (hin : t.pc.InProtocol) (hσ : t.msgSent σ = false) {posts success : Bool} :
    Later t (attempted t σ posts success) := by
  refine ⟨hin, ?_, fun _ h => h⟩
  intro τ hτ
  have hne : τ ≠ σ := by
    rintro rfl
    rw [hσ] at hτ
    cases hτ
  simp only [attempted]
  rwa [Function.update_of_ne hne]

theorem Stepped.status_of_ne {a : Action n} (hs : Stepped s r a s') (hq : q ≠ r) :
    s'.status q = s.status q := by
  cases hs with
  | retry => rfl
  | send => exact status_setStatus_of_ne hq
  | receive => exact status_setStatus_of_ne hq
  | call => exact status_setStatus_of_ne hq
  | connect => exact status_setStatus_of_ne hq
  | poll => exact status_setStatus_of_ne hq

/-- A rank in the protocol stays in it, and what it has sent and received stays. -/
theorem Stepped.later (h : Ok s) {a : Action n} (hs : Stepped s r a s')
    (hin : (s.status q).pc.InProtocol) : Later (s.status q) (s'.status q) := by
  by_cases hq : q = r
  · subst hq
    cases hs with
    | call hpc =>
      rw [hpc] at hin
      cases hin
    | connect σ hpc =>
      rw [hpc] at hin
      cases hin
    | retry => exact ⟨hin, fun _ h => h, fun _ h => h⟩
    | send σ v posts success hpc =>
      have hrank := h.rank q
      simp only [RankOk, hpc] at hrank
      rw [status_setStatus_self]
      exact (later_attempted hin hrank.2).trans (goes_afterSend _ _).later
    | poll =>
      rw [status_setStatus_self]
      exact (goes_loopTest _).later
    | receive v =>
      rw [status_setStatus_self]
      exact (later_handshaked hin q v).trans (goes_loopTest _).later
  · rw [hs.status_of_ne hq]
    exact ⟨hin, fun _ h => h, fun _ h => h⟩

theorem Stepped.ne_of_returned {a : Action n} (hs : Stepped s r a s')
    (hq : (s.status q).pc = .returned) : q ≠ r := by
  rintro rfl
  cases hs <;> simp_all

/-! ### Before the protocol -/

/-- How many neighbors a rank may still have to connect, and one more if it has not begun. -/
def Point.before : Point → ℕ
  | .idle => 4
  | .connecting .parent => 3
  | .connecting .leftChild => 2
  | .connecting .rightChild => 1
  | .sending _ | .receiving | .returned => 0

theorem Point.before_eq_zero : p.before = 0 ↔ p.InProtocol := by
  cases p with
  | idle => exact iff_of_false nofun id
  | connecting σ => cases σ <;> exact iff_of_false nofun id
  | sending | receiving | returned => exact iff_of_true rfl trivial

theorem before_startProtocol : (startProtocol t r).pc.before = 0 :=
  Point.before_eq_zero.mpr (goes_loopTest _).inProtocol

theorem before_connectRightChild : (connectRightChild t r).pc.before ≤ 1 := by
  unfold connectRightChild
  split
  · exact le_rfl
  · rw [before_startProtocol]
    exact Nat.zero_le _

theorem before_connectLeftChild : (connectLeftChild t r).pc.before ≤ 2 := by
  unfold connectLeftChild
  split
  · exact le_rfl
  · exact before_connectRightChild.trans (by decide)

theorem before_initBarrier : (initBarrier t r).pc.before ≤ 3 := by
  unfold initBarrier
  split
  · exact le_rfl
  · exact before_connectLeftChild.trans (by decide)

theorem before_afterConnect :
    (afterConnect t r σ).pc.before < (Point.connecting σ).before := by
  cases σ with
  | parent => exact Nat.lt_succ_of_le before_connectLeftChild
  | leftChild => exact Nat.lt_succ_of_le before_connectRightChild
  | rightChild => exact Nat.lt_succ_of_le before_startProtocol.le

/-- A step of a rank that is not in the protocol brings it closer, if `gaspi_connect` succeeds. -/
theorem Stepped.before {a : Action n} (hs : Stepped s r a s') (hpc : ¬ (s.status r).pc.InProtocol) :
    (s'.status r).pc.before < (s.status r).pc.before ∨ a = .connect r false ∧ s' = s := by
  cases hs with
  | call hidle =>
    rw [status_setStatus_self, hidle]
    exact .inl (Nat.lt_succ_of_le before_initBarrier)
  | connect σ hconn =>
    rw [status_setStatus_self, hconn]
    exact .inl before_afterConnect
  | retry => exact .inr ⟨rfl, rfl⟩
  | send σ q posts success hsend => exact absurd (by rw [hsend]; trivial) hpc
  | poll hrecv => exact absurd (by rw [hrecv]; trivial) hpc
  | receive q hrecv => exact absurd (by rw [hrecv]; trivial) hpc

/-! ### Around the loop -/

/-- The order of the points of the loop. -/
def Point.place : Point → ℕ
  | .sending .leftChild => 0
  | .sending .rightChild => 1
  | .sending .parent => 2
  | _ => 3

/-- How many points ahead of `q` the point `p` is. -/
def ahead (p q : Point) : ℕ := (p.place + 4 - q.place) % 4

/-- The point that the loop comes to next, unless the message to the neighbor is sent. -/
def nextPoint : Side → Point
  | .leftChild => .sending .rightChild
  | .rightChild => .sending .parent
  | .parent => .receiving

/-- The loop does not pass by `p`. -/
def Expects (t : Status) (p : Point) : Prop :=
  p = .receiving ∨ ∃ σ, p = .sending σ ∧ t.msgSent σ = false

theorem Expects.ahead_nextPoint (h : Expects t p) (hne : p ≠ .sending σ) :
    ahead p (nextPoint σ) < ahead p (.sending σ) := by
  obtain rfl | ⟨τ, rfl, -⟩ := h
  · cases σ <;> decide
  · cases τ <;> cases σ <;> first | exact absurd rfl hne | decide

theorem Expects.ne_of_sent (h : Expects t p) (hσ : t.msgSent σ = true) : p ≠ .sending σ := by
  rintro rfl
  obtain ⟨⟨⟩⟩ | ⟨τ, heq, hτ⟩ := h
  cases heq
  rw [hσ] at hτ
  cases hτ

theorem Expects.sendParent (h : Expects t p) :
    ahead p (sendParent t).pc ≤ ahead p (.sending .parent) := by
  unfold FirstHandshake.sendParent
  split
  · exact (h.ahead_nextPoint (h.ne_of_sent ‹_›)).le
  · exact le_rfl

theorem Expects.sendRightChild (h : Expects t p) :
    ahead p (sendRightChild t).pc ≤ ahead p (.sending .rightChild) := by
  unfold FirstHandshake.sendRightChild
  split
  · have hnext : ahead p (nextPoint .rightChild) < ahead p (.sending .rightChild) :=
      h.ahead_nextPoint (h.ne_of_sent ‹_›)
    exact h.sendParent.trans hnext.le
  · exact le_rfl

theorem Expects.sendLeftChild (h : Expects t p) :
    ahead p (sendLeftChild t).pc ≤ ahead p (.sending .leftChild) := by
  unfold FirstHandshake.sendLeftChild
  split
  · have hnext : ahead p (nextPoint .leftChild) < ahead p (.sending .leftChild) :=
      h.ahead_nextPoint (h.ne_of_sent ‹_›)
    exact h.sendRightChild.trans hnext.le
  · exact le_rfl

theorem Expects.afterSend (h : Expects t p) (hne : p ≠ .sending σ) :
    ahead p (afterSend t σ).pc < ahead p (.sending σ) := by
  cases σ with
  | parent => exact h.ahead_nextPoint hne
  | leftChild => exact h.sendRightChild.trans_lt (h.ahead_nextPoint hne)
  | rightChild => exact h.sendParent.trans_lt (h.ahead_nextPoint hne)

theorem Expects.loopTest (h : Expects t p) (hne : p ≠ .receiving)
    (hpc : (loopTest t).pc ≠ .returned) : ahead p (loopTest t).pc < ahead p .receiving := by
  unfold FirstHandshake.loopTest at hpc ⊢
  split at hpc
  · exact absurd rfl hpc
  · rename_i hno
    rw [if_neg hno]
    apply h.sendLeftChild.trans_lt
    obtain rfl | ⟨τ, rfl, -⟩ := h
    · exact absurd rfl hne
    · cases τ <;> decide

/-- Each step of a rank in the loop brings it closer to the point that it does not pass by. -/
theorem Stepped.ahead {a : Action n} (hs : Stepped s r a s') (hin : (s.status r).pc.InProtocol)
    (hret : (s'.status r).pc ≠ .returned) (hp : Expects (s'.status r) p)
    (hne : (s.status r).pc ≠ p) : ahead p (s'.status r).pc < ahead p (s.status r).pc := by
  cases hs with
  | call hpc =>
    rw [hpc] at hin
    cases hin
  | connect σ hpc =>
    rw [hpc] at hin
    cases hin
  | retry σ hpc =>
    rw [hpc] at hin
    cases hin
  | send σ q posts success hpc =>
    rw [status_setStatus_self] at hp ⊢
    rw [hpc] at hne ⊢
    apply Expects.afterSend _ hne.symm
    unfold Expects at hp ⊢
    rwa [(goes_afterSend _ _).msgSent] at hp
  | poll hpc =>
    rw [status_setStatus_self] at hp hret ⊢
    rw [hpc] at hne ⊢
    apply Expects.loopTest _ hne.symm hret
    unfold Expects at hp ⊢
    rwa [(goes_loopTest _).msgSent] at hp
  | receive q hpc =>
    rw [status_setStatus_self] at hp hret ⊢
    rw [hpc] at hne ⊢
    apply Expects.loopTest _ hne.symm hret
    unfold Expects at hp ⊢
    rwa [(goes_loopTest _).msgSent] at hp

theorem Stepped.of_sending {a : Action n} (hs : Stepped s r a s')
    (hpc : (s.status r).pc = .sending σ) : ∃ posts success, a = .send r posts success := by
  cases hs with
  | send => exact ⟨_, _, rfl⟩
  | call h | connect _ h | retry _ h | poll h | receive _ h => cases hpc.symm.trans h

theorem Stepped.of_receiving {a : Action n} (hs : Stepped s r a s')
    (hpc : (s.status r).pc = .receiving) : (∃ v, a = .receive r v) ∧
      ∃ t, Later (s.status r) t ∧ s'.status r = loopTest t := by
  have hin : (s.status r).pc.InProtocol := by
    rw [hpc]
    trivial
  cases hs with
  | poll => exact ⟨⟨_, rfl⟩, _, ⟨hin, fun _ h => h, fun _ h => h⟩, status_setStatus_self ..⟩
  | receive q =>
    exact ⟨⟨_, rfl⟩, _, later_handshaked hin r q, status_setStatus_self ..⟩
  | call h | connect _ h | retry _ h | send _ _ _ _ h => cases hpc.symm.trans h

theorem loopTest_eq_returned (hsent : ∀ σ, t.msgSent σ = true)
    (hreceived : ∀ σ, t.msgReceived σ = true) : (loopTest t).pc = .returned := by
  unfold loopTest
  rw [if_pos]
  exact ⟨⟨hsent _, hsent _, hsent _⟩, hreceived _, hreceived _, hreceived _⟩

/-! ### Fair executions -/

/-- No call of GASPI fails for ever. -/
structure Fair (x : (system n).Execution) : Prop where
  /-- A rank that has not returned goes on. -/
  moves : ∀ r, (∀ i, ((x.state i).status r).pc ≠ .returned) →
    ∃ᶠ i in atTop, ∃ a, x.action i = some a ∧ a.rank = r
  connects : ∀ r, (∃ᶠ i in atTop, x.action i = some (.connect r false)) →
    ∃ᶠ i in atTop, x.action i = some (.connect r true)
  /-- A message that is sent again and again is sent. -/
  sends : ∀ r σ, (∃ᶠ i in atTop, ((x.state i).status r).pc = .sending σ ∧
      ∃ posts success, x.action i = some (.send r posts success)) →
    ∃ᶠ i in atTop, ((x.state i).status r).pc = .sending σ ∧
      ∃ posts, x.action i = some (.send r posts true)
  /-- A message that is there whenever its target receives is received. -/
  receives : ∀ q r, (∃ᶠ i in atTop, (x.state i).inFlight q r ≠ 0 ∧
      ∃ v, x.action i = some (.receive r v)) →
    ∃ᶠ i in atTop, x.action i = some (.receive r (some q))

section Fair

variable {x : (system n).Execution} {i : ℕ}

theorem ok_state (x : (system n).Execution) (i : ℕ) : Ok (x.state i) :=
  ok_of_reachable (x.reachable i)

theorem stepped_state {a : Action n} (ha : x.action i = some a) :
    Stepped (x.state i) a.rank a (x.state (i + 1)) := stepped_of_next (x.step i a ha)

/-- A step of another rank, or none. -/
theorem status_succ (hno : ¬ ∃ a, x.action i = some a ∧ a.rank = r) :
    (x.state (i + 1)).status r = (x.state i).status r := by
  cases ha : x.action i with
  | none => rw [x.idle i ha]
  | some a =>
    apply (stepped_state ha).status_of_ne
    rintro rfl
    exact hno ⟨a, ha, rfl⟩

theorem eventually_returned_or (x : (system n).Execution) (r : Fin n) :
    (∀ᶠ i in atTop, ((x.state i).status r).pc = .returned) ∨
      ∀ i, ((x.state i).status r).pc ≠ .returned := by
  apply x.eventually_or (p := fun s => (s.status r).pc = .returned)
  intro s a s' _ hpc hs
  have hst := stepped_of_next hs
  rw [hst.status_of_ne (hst.ne_of_returned hpc)]
  exact hpc

theorem eventually_inProtocol_or (x : (system n).Execution) (r : Fin n) :
    (∀ᶠ i in atTop, ((x.state i).status r).pc.InProtocol) ∨
      ∀ i, ¬ ((x.state i).status r).pc.InProtocol := by
  apply x.eventually_or (p := fun s => (s.status r).pc.InProtocol)
  intro s a s' hr hin hs
  exact ((stepped_of_next hs).later (ok_of_reachable hr) hin).inProtocol

/-- What a rank in the protocol has, it keeps. -/
theorem eventually_or_of_later (x : (system n).Execution) (r : Fin n) {flag : Status → Prop}
    (hflag : ∀ t t', Later t t' → flag t → flag t') :
    (∀ᶠ i in atTop, ((x.state i).status r).pc.InProtocol ∧ flag ((x.state i).status r)) ∨
      ∀ i, ¬ (((x.state i).status r).pc.InProtocol ∧ flag ((x.state i).status r)) := by
  apply x.eventually_or (p := fun s => (s.status r).pc.InProtocol ∧ flag (s.status r))
  rintro s a s' hr ⟨hin, hf⟩ hs
  have hlater := (stepped_of_next hs).later (ok_of_reachable hr) hin
  exact ⟨hlater.inProtocol, hflag _ _ hlater hf⟩

theorem eventually_sides {p : ℕ → Side → Prop} (h : ∀ σ, ∀ᶠ i in atTop, p i σ) :
    ∀ᶠ i in atTop, ∀ σ, p i σ := by
  filter_upwards [h .parent, h .leftChild, h .rightChild] with i hp hl hr σ
  cases σ <;> assumption

variable (hfair : Fair x)

include hfair

theorem Fair.eventually_inProtocol (r : Fin n) :
    ∀ᶠ i in atTop, ((x.state i).status r).pc.InProtocol := by
  rcases eventually_inProtocol_or x r with hin | hno
  · exact hin
  · exfalso
    have hmoves := hfair.moves r fun i hpc => hno i (by rw [hpc]; trivial)
    let w : ℕ → ℕ := fun i => ((x.state i).status r).pc.before
    have hle : ∀ i, w (i + 1) ≤ w i := by
      intro i
      by_cases hm : ∃ a, x.action i = some a ∧ a.rank = r
      · obtain ⟨a, ha, rfl⟩ := hm
        rcases (stepped_state ha).before (hno i) with hlt | ⟨-, heq⟩
        · exact hlt.le
        · simp only [w, heq]
          exact le_rfl
      · simp only [w, status_succ hm]
        exact le_rfl
    have hretry : ∃ᶠ i in atTop, (∃ a, x.action i = some a ∧ a.rank = r) ∧
        x.action i = some (.connect r false) := by
      apply frequently_at (w := w) hmoves (.of_forall fun i _ => hle i)
      apply Filter.Eventually.of_forall
      rintro i ⟨a, ha, rfl⟩ hne
      rcases (stepped_state ha).before (hno i) with hlt | ⟨heq, -⟩
      · exact hlt
      · exact absurd (ha.trans (congrArg some heq)) hne
    apply not_frequently_lt (.of_forall hle)
    apply (hfair.connects r (hretry.mono fun i h => h.2)).mono
    intro i ha
    rcases (stepped_state ha).before (hno i) with hlt | ⟨⟨⟩, -⟩
    exact hlt

/-- A rank that never returns comes again and again to a point that it does not pass by. -/
theorem Fair.frequently_at (hnever : ∀ i, ((x.state i).status r).pc ≠ .returned)
    (hp : ∀ᶠ i in atTop, Expects ((x.state i).status r) p) :
    ∃ᶠ i in atTop, (∃ a, x.action i = some a ∧ a.rank = r) ∧
      ((x.state i).status r).pc = p := by
  apply Transition.System.frequently_at (w := fun i => ahead p ((x.state i).status r).pc)
    (hfair.moves r hnever)
  · apply Filter.Eventually.of_forall
    intro i hm
    simp only [status_succ hm]
    exact le_rfl
  · have hp' := (Filter.tendsto_add_atTop_nat 1).eventually hp
    filter_upwards [hp', hfair.eventually_inProtocol r] with i hp hin
    rintro ⟨a, ha, rfl⟩ hne
    exact (stepped_state ha).ahead hin (hnever (i + 1)) hp hne

/-- The messages of a rank that never returns are sent. -/
theorem Fair.eventually_sent_of_never (hnever : ∀ i, ((x.state i).status r).pc ≠ .returned)
    (σ : Side) : ∀ᶠ i in atTop, ((x.state i).status r).pc.InProtocol ∧
      ((x.state i).status r).msgSent σ = true := by
  rcases eventually_or_of_later x r fun t t' h => h.msgSent σ with hsent | hno
  · exact hsent
  · exfalso
    have hin := hfair.eventually_inProtocol r
    have hexpects : ∀ᶠ i in atTop, Expects ((x.state i).status r) (.sending σ) := by
      filter_upwards [hin] with i hin
      exact .inr ⟨σ, rfl, Bool.eq_false_iff.mpr fun h => hno i ⟨hin, h⟩⟩
    have hsends : ∃ᶠ i in atTop, ((x.state i).status r).pc = .sending σ ∧
        ∃ posts success, x.action i = some (.send r posts success) := by
      apply (hfair.frequently_at hnever hexpects).mono
      rintro i ⟨⟨a, ha, hrank⟩, hpc⟩
      have hst := stepped_state ha
      rw [hrank] at hst
      obtain ⟨posts, success, rfl⟩ := hst.of_sending hpc
      exact ⟨hpc, posts, success, ha⟩
    obtain ⟨i, hpc, posts, ha⟩ := (hfair.sends r σ hsends).exists
    apply hno (i + 1)
    have hst := stepped_state ha
    generalize x.state (i + 1) = s' at hst
    cases hst with
    | send τ q _ _ hpc' =>
      cases hpc.symm.trans hpc'
      simp only [Action.rank, status_setStatus_self]
      have hgoes := goes_afterSend (attempted ((x.state i).status r) σ posts true) σ
      refine ⟨hgoes.inProtocol, ?_⟩
      rw [hgoes.msgSent]
      exact Function.update_self ..

theorem Fair.eventually_sent (r : Fin n) (σ : Side) :
    ∀ᶠ i in atTop, ((x.state i).status r).pc.InProtocol ∧
      ((x.state i).status r).msgSent σ = true := by
  rcases eventually_returned_or x r with hret | hnever
  · filter_upwards [hret] with i hpc
    have hrank := (ok_state x i).rank r
    simp only [RankOk, hpc] at hrank
    rw [hpc]
    exact ⟨trivial, hrank.2.1 σ⟩
  · exact hfair.eventually_sent_of_never hnever σ

/-- A rank that never returns receives the messages of its neighbors. -/
theorem Fair.eventually_received_of_never
    (hnever : ∀ i, ((x.state i).status r).pc ≠ .returned) (σ : Side) :
    ∀ᶠ i in atTop, ((x.state i).status r).pc.InProtocol ∧
      ((x.state i).status r).msgReceived σ = true := by
  rcases eventually_or_of_later x r fun t t' h => h.msgReceived σ with hreceived | hno
  · exact hreceived
  · exfalso
    have hin := hfair.eventually_inProtocol r
    have hunreceived : ∀ᶠ i in atTop, (infixedNeighbor r σ).isSome ∧
        ((x.state i).status r).consumed σ = 0 := by
      filter_upwards [hin] with i hin
      apply (((ok_state x i).rank r).flags hin).unreceived
      exact Bool.eq_false_iff.mpr fun h => hno i ⟨hin, h⟩
    obtain ⟨i, hsome, -⟩ := hunreceived.exists
    obtain ⟨q, hq⟩ := Option.isSome_iff_exists.mp hsome
    obtain ⟨hback, hside⟩ := neighbor_facing hq
    have hflight : ∀ᶠ i in atTop, (x.state i).inFlight q r ≠ 0 := by
      filter_upwards [hunreceived, hfair.eventually_sent q (facing r q σ)] with i hun hsent
      have hok := ok_state x i
      have hchannel := hok.channel q (facing r q σ) r hback
      have hposted := ((hok.rank q).flags hsent.1).sent _ hsent.2 (by rw [hback]; rfl)
      rw [hside, hun.2, hposted, Bool.toNat_true] at hchannel
      omega
    have hreceives : ∃ᶠ i in atTop, (x.state i).inFlight q r ≠ 0 ∧
        ∃ v, x.action i = some (.receive r v) := by
      apply ((hfair.frequently_at hnever (.of_forall fun _ => .inl rfl)).and_eventually
        hflight).mono
      rintro i ⟨⟨⟨a, ha, hrank⟩, hpc⟩, hpos⟩
      have hst := stepped_state ha
      rw [hrank] at hst
      obtain ⟨⟨v, rfl⟩, -⟩ := hst.of_receiving hpc
      exact ⟨hpos, v, ha⟩
    obtain ⟨i, ha⟩ := (hfair.receives q r hreceives).exists
    apply hno (i + 1)
    have hst := stepped_state ha
    generalize x.state (i + 1) = s' at hst
    cases hst with
    | receive =>
      simp only [Action.rank, status_setStatus_self]
      rw [handshaked_of_neighbor hq]
      have hgoes := goes_loopTest (mark ((x.state i).status r) σ)
      refine ⟨hgoes.inProtocol, ?_⟩
      rw [hgoes.msgReceived]
      exact Function.update_self ..

theorem Fair.eventually_returned (r : Fin n) :
    ∀ᶠ i in atTop, ((x.state i).status r).pc = .returned := by
  rcases eventually_returned_or x r with hret | hnever
  · exact hret
  · exfalso
    have hpolls := hfair.frequently_at hnever (p := .receiving) (.of_forall fun _ => .inl rfl)
    have hsent := eventually_sides fun σ => hfair.eventually_sent r σ
    have hreceived := eventually_sides fun σ => hfair.eventually_received_of_never hnever σ
    obtain ⟨i, ⟨⟨a, ha, hrank⟩, hpc⟩, hsent, hreceived⟩ :=
      (hpolls.and_eventually (hsent.and hreceived)).exists
    have hst := stepped_state ha
    rw [hrank] at hst
    obtain ⟨-, t, hlater, heq⟩ := hst.of_receiving hpc
    apply hnever (i + 1)
    rw [heq]
    apply loopTest_eq_returned
    · exact fun σ => hlater.msgSent σ (hsent σ).2
    · exact fun σ => hlater.msgReceived σ (hreceived σ).2

end Fair

/-- In every execution in which no call of GASPI fails for ever, the handshakes of all ranks come to
an end, and no message is left. -/
theorem first_handshake_completes {x : (system n).Execution} (hfair : Fair x) :
    ∀ᶠ i in atTop, (∀ r, ((x.state i).status r).pc = .returned ∧
      ((x.state i).status r).handshakeOk = true) ∧ ∀ q r, (x.state i).inFlight q r = 0 := by
  filter_upwards [Filter.eventually_all.mpr hfair.eventually_returned] with i hret
  have hok := ok_state x i
  constructor
  · intro r
    have hrank := hok.rank r
    simp only [RankOk, hret r] at hrank
    exact ⟨hret r, hrank.2.2.2⟩
  · intro q r
    by_contra hflight
    obtain ⟨σ, hσ⟩ := hok.stray q r hflight
    have hchannel := hok.channel q σ r hσ
    obtain ⟨hback, -⟩ := neighbor_facing hσ
    have hrank := hok.rank r
    simp only [RankOk, hret r] at hrank
    obtain ⟨hflags, -, hreceived, -⟩ := hrank
    have hconsumed := hflags.received _ (hreceived (facing q r σ)) (by rw [hback]; rfl)
    have hle := Bool.toNat_le (((x.state i).status q).posted σ)
    omega

/-- Rank 2 calls `barrier` when the others have met. -/
def complete : List (Action 3) :=
  meeting ++ [.call 2, .connect 2 true, .send 2 true true, .send 1 true true, .receive 1 (some 2),
    .send 1 false true, .receive 1 (some 0), .receive 2 (some 1)]

theorem first_handshake_completes_three :
    ∃ x : (system 3).Execution, Fair x ∧ ∀ᶠ i in atTop,
      (∀ r, ((x.state i).status r).pc = .returned ∧ ((x.state i).status r).handshakeOk = true) ∧
        ∀ q r, (x.state i).inFlight q r = 0 := by
  have hany : ((system 3).run (initial 3) complete).any (fun s =>
      ∀ r, (s.status r).pc = .returned) = true := by
    decide +kernel
  obtain ⟨t, hrun, hret⟩ := (Option.any_eq_true _ _).mp hany
  have hend := Execution.eventually_ofRun (S := system 3) rfl hrun
  have hno : ∀ a : Action 3, ¬ ∃ᶠ i in atTop,
      (Execution.ofRun (S := system 3) rfl hrun).action i = some a := by
    intro a hfreq
    obtain ⟨i, ha, -, hnone⟩ := (hfreq.and_eventually hend).exists
    cases hnone.symm.trans ha
  have hfair : Fair (Execution.ofRun (S := system 3) rfl hrun) := by
    constructor
    · intro r hnever
      obtain ⟨i, heq, -⟩ := hend.exists
      apply absurd (of_decide_eq_true hret r)
      rw [← heq]
      exact hnever i
    · intro r hfreq
      exact absurd hfreq (hno _)
    · rintro r σ hfreq
      obtain ⟨i, ⟨-, posts, success, ha⟩, -, hnone⟩ := (hfreq.and_eventually hend).exists
      cases hnone.symm.trans ha
    · rintro q r hfreq
      obtain ⟨i, ⟨-, v, ha⟩, -, hnone⟩ := (hfreq.and_eventually hend).exists
      cases hnone.symm.trans ha
  exact ⟨_, hfair, first_handshake_completes hfair⟩

end Titus.FirstHandshake
