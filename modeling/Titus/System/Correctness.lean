import Titus.System.Detection

/-! `parallel_work` is correct: when it returns on a rank, the result array of the rank holds the
results of the tasks of its own problem, each at the position of its task, as a loop over the problem
on that rank alone would leave them. -/

namespace Titus.System

variable {n : ℕ} {cfg : Config n} {net : Results.Network n} {s : State n} {r : Fin n}

/-- Rank `r` has returned from `parallel_work`, and has not called `set_problem` again. -/
structure Returned (s : State n) (r : Fin n) : Prop where
  point : (s.control r).point = .entry
  pc : (s.tasks r).pc = .idle
  finished : 0 < (s.tasks r).finished

/-- The result array of rank `r` holds the result of every task of its problem of session `k`. -/
def HoldsResults (cfg : Config n) (s : State n) (k : ℕ) (r : Fin n) : Prop :=
  ∀ i < cfg.nbTask k r, ∀ b < cfg.resultSize k,
    (s.results.rank r).usrResults (i * cfg.resultSize k + b) =
      cfg.call (cfg.ptrTaskFunction k r) (cfg.taskBytes k r i) b

/-- Results that a rank has submitted in the session that it has been in last are in its array. -/
theorem SystemOk.usrResults (h : SystemOk cfg net s) {k i : ℕ} (hk : k + 1 = (s.tasks r).session)
    (hcover : 0 < cover ⟨k, r, i⟩ (s.results.rank r).submitted) :
    ∀ b < cfg.resultSize k, (s.results.rank r).usrResults (i * cfg.resultSize k + b) =
      cfg.resultByte k r i b := by
  intro b hb
  obtain ⟨e, he, rfl, -, hfirst, hlast⟩ := cover_pos.mp hcover
  exact (h.account r).usrResults e he hk i hfirst hlast b hb

/-- Whenever `parallel_work` returns on a rank, of any number of ranks in any session, its result
array holds exactly the results of its own tasks. -/
theorem parallel_work_correct (hr : (system cfg net).Reachable s) (hret : Returned s r) :
    HoldsResults cfg s ((s.tasks r).finished - 1) r := by
  have ht := tasksOk_of_reachable hr
  have h := (system_invariant cfg net).holds hr
  have hsess := (ht.protocol.rank r).session_eq_of_idle hret.pc
  have hpos := hret.finished
  have hcomplete : Complete cfg s ((s.tasks r).finished - 1) r :=
    (h.account r).finished _ (by omega)
  intro i hi b hb
  have hcover := hcomplete.cover_eq h.conserved h.ledger ht hi
  exact h.usrResults (by omega) (by omega) b hb

/-- A task that rank 1 has stolen has its result in the array of rank 0. -/
theorem parallel_work_correct_after_theft :
    ∃ s, (system Tasks.twoRanks (Results.direct 2)).Reachable s ∧ Returned s 0 ∧
      (s.tasks 1).executed = [⟨0, 0, 0⟩] ∧ HoldsResults Tasks.twoRanks s 0 0 := by
  obtain ⟨s, hr, hpoint, hpc, hfin, hexec⟩ := Transition.System.exists_reachable started_init
    (stealAndDetect ++ advances 2 0) (fun s => (s.control 0).point = .entry ∧
      (s.tasks 0).pc = .idle ∧ (s.tasks 0).finished = 1 ∧ (s.tasks 1).executed = [⟨0, 0, 0⟩])
    (by decide +kernel)
  have hret : Returned s 0 := ⟨hpoint, hpc, by omega⟩
  have hholds := parallel_work_correct hr hret
  rw [hfin] at hholds
  exact ⟨s, hr, hret, hexec, hholds⟩

end Titus.System
