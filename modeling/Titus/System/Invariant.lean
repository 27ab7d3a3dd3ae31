import Titus.System.Coverage
import Titus.System.TerminationSteps

/-! What holds of tasks, results and control together.  When a rank is between two sessions, or has
detected the end of one, every element has been submitted; so it may reset its segment, and no
assertion fails. -/

namespace Titus.System

open Results (BufferElt AllSubmitted)

variable {n : ℕ} {cfg : Config n} {net : Results.Network n} {s s' : State n} {r : Fin n}

/-! ### The invariant -/

/-- What rank `r` has of the results of its problems. -/
structure AccountOk (cfg : Config n) (r : Fin n) (t : Tasks.RankTasks n)
    (u : Results.RankResults n) : Prop where
  failed : u.failed = none
  nbUsrResults : 0 < t.session → u.nbUsrResults = cfg.nbTask t.current r
  resultSize : 0 < t.session → u.resultSize = cfg.resultSize t.current
  nbResult : t.finished < t.session → u.nbResult = submittedIn t.current u.submitted
  finished : ∀ k < t.finished, submittedIn k u.submitted = cfg.nbTask k r
  usrResults : ∀ e ∈ u.submitted, e.batch.session + 1 = t.session →
    ∀ i, e.firstTaskId ≤ i → i < e.firstTaskId + e.nbResult →
      ∀ b < cfg.resultSize e.batch.session,
        u.usrResults (i * cfg.resultSize e.batch.session + b) =
          cfg.resultByte e.batch.session r i b

/-- At this point of `parallel_work` a rank sends nothing, or what it sends. -/
def SendingAt (u : Results.RankResults n) : Point → Prop
  | .firstFlush | .secondFlush | .bufferFlush => u.tmp = none
  | .pushing | .aborted _ => True
  | _ => u.pc = .idle ∧ u.tmp = none

/-- At this point the rank has found that it has all its results. -/
def Point.complete : Point → Bool
  | .readingLeft | .readingRight | .forwardingLeft | .forwardingRight | .finishing => true
  | _ => false

/-- What the control of a rank says about its results. -/
structure SendOk (u : Results.RankResults n) (c : Control) : Prop where
  sending : SendingAt u c.point
  complete : c.point.complete ∨ c.subtreeTermintionReached → u.nbUsrResults ≤ u.nbResult

/-- What holds of tasks, results and control together. -/
structure SystemOk (cfg : Config n) (net : Results.Network n) (s : State n) : Prop where
  results : Results.ResultsOk net s.results
  conserved : Results.Conserved s.results
  ledger : LedgerOk cfg s
  account : ∀ r, AccountOk cfg r (s.tasks r) (s.results.rank r)
  send : ∀ r, SendOk (s.results.rank r) (s.control r)
  running : ∀ r a, (s.control r).point ≠ .aborted a

/-! ### Sessions and results -/

section Sessions

variable (ht : TasksOk cfg s.tasks) (hd : TerminationOk s) (h : SystemOk cfg net s)
  {k : ℕ} {d q : Fin n} {e : BufferElt n} {p : Results.Place n}

include h

/-- A rank that is not behind in a session, and has all its results where it still is in it, is
done with the session. -/
theorem complete_of_nbResult (ht : TasksOk cfg s.tasks) (hpc : (s.tasks d).pc ≠ .idle)
    (hle : (s.results.rank d).nbUsrResults ≤ (s.results.rank d).nbResult) :
    Complete cfg s (s.tasks d).current d := by
  have hsess := (ht.protocol.rank d).session_eq hpc
  have hacc := h.account d
  have hmax := submittedIn_le h.conserved h.ledger ht (s.tasks d).current d
  rw [hacc.nbUsrResults (by omega), hacc.nbResult (by omega)] at hle
  exact le_antisymm hmax hle

include ht hd

theorem complete_of_lt_done (hk : k < done s d) : Complete cfg s k d := by
  rcases Nat.lt_or_ge k (s.tasks d).finished with hlt | hge
  · exact (h.account d).finished k hlt
  · have hctrl := hd.control d
    -- the rank is in session `k`, and has told so or detected the end
    have hor : ((s.control d).point.detected ∨ (s.control d).subtreeTermintionReached) ∧
        k = (s.tasks d).finished := by
      unfold done ended reports at hk
      split at hk
      · cases hdet : (s.control d).point.detected with
        | false =>
          rw [hdet] at hk
          exact absurd hk (by simpa using hge)
        | true =>
          rw [hdet] at hk
          simp only [Bool.toNat_true] at hk
          exact ⟨.inl rfl, by omega⟩
      · cases hrep : (s.control d).reported with
        | false =>
          rw [hrep] at hk
          exact absurd hk (by simpa using hge)
        | true =>
          rw [hrep] at hk
          simp only [Bool.toNat_true] at hk
          rcases (Bool.or_eq_true _ _).mp hrep with hdet | hreached
          · exact ⟨.inl hdet, by omega⟩
          · exact ⟨.inr ((Bool.and_eq_true _ _).mp hreached).1, by omega⟩
    obtain ⟨hor, rfl⟩ := hor
    have hsess : Tasks.InSession (s.tasks d).pc := by
      rcases hor with hdet | hreached
      · exact inSession_of_detected hctrl.point hdet
      · exact (hctrl.reached hreached).2.1
    have hle : (s.results.rank d).nbUsrResults ≤ (s.results.rank d).nbResult := by
      apply (h.send d).complete
      rcases hor with hdet | hreached
      · left
        revert hdet
        cases (s.control d).point <;> simp [Point.detected, Point.complete]
      · exact .inr hreached
    have hcomplete := complete_of_nbResult h ht hsess.1 hle
    rwa [Tasks.RankTasks.current_eq ((ht.protocol.rank d).session_eq hsess.1)] at hcomplete

/-- When a rank has detected the end of a session, all ranks have all their results of it. -/
theorem complete_of_lt_ended (hk : k < ended s r) (d : Fin n) : Complete cfg s k d :=
  complete_of_lt_done ht hd h (hk.trans_le (ended_le_done hd r d))

/-- While a rank is between two sessions, or has detected the end of one, nothing is on its way. -/
theorem allSubmitted_of_ended (hr : (s.tasks r).session ≤ ended s r) :
    AllSubmitted s.results := by
  intro e p he
  obtain ⟨q, hq⟩ := h.conserved.pushed_of_at he
  have hlt := h.ledger.session q e hq r
  exact (complete_of_lt_ended ht hd h (hlt.trans_le hr) e.owner).submitted h.conserved h.ledger ht he

theorem allSubmitted_of_idle (hpc : (s.tasks r).pc = .idle) : AllSubmitted s.results := by
  apply allSubmitted_of_ended ht hd h
  rw [(ht.protocol.rank r).session_eq_of_idle hpc]
  exact Nat.le_add_right _ _

theorem allSubmitted_of_detected (hdet : (s.control r).point.detected) :
    AllSubmitted s.results := by
  apply allSubmitted_of_ended ht hd h
  have hsess := inSession_of_detected (hd.control r).point hdet
  rw [(ht.protocol.rank r).session_eq hsess.1, ended, hdet]
  exact le_rfl

/-- While an element is not submitted all ranks are in its session. -/
theorem session_of_at (he : Results.At s.results e p) (hp : p.1 ≠ .submitted) (q : Fin n) :
    (s.tasks q).finished = e.batch.session ∧ (s.tasks q).session = e.batch.session + 1 := by
  obtain ⟨q', hq'⟩ := h.conserved.pushed_of_at he
  have hlt := h.ledger.session q' e hq' q
  have hbound := (ht.session_bounds q).2
  have hle : (s.tasks q).finished ≤ e.batch.session := by
    by_contra hno
    apply hp
    have hended : e.batch.session < ended s q :=
      (Nat.lt_of_not_le hno).trans_le (Nat.le_add_right _ _)
    exact (complete_of_lt_ended ht hd h hended e.owner).submitted h.conserved h.ledger ht he
  omega

end Sessions

end Titus.System
