import Mathlib.Order.Interval.Finset.Nat
import Titus.Results.Session
import Titus.System.Header
import Titus.System.Termination

/-! Which tasks the elements have the results of.  A task that was executed has its result in one
element or in a tmp segment, so that tasks and results have one copy in all; when a rank has as many
results of a session as it has tasks, these are in no other place. -/

namespace Titus.System

open Results (BufferElt Place elements copiesAt)

variable {n : ℕ} {cfg : Config n} {net : Results.Network n} {s s' : State n} {r : Fin n}

/-! ### Elements and tasks -/

/-- The element has the result of task `x`. -/
def Covers (e : BufferElt n) (x : TaskId n) : Prop :=
  x.session = e.batch.session ∧ x.owner = e.owner ∧ e.firstTaskId ≤ x.id ∧
    x.id < e.firstTaskId + e.nbResult

instance (e : BufferElt n) (x : TaskId n) : Decidable (Covers e x) :=
  inferInstanceAs (Decidable (_ ∧ _ ∧ _ ∧ _))

/-- The copies of the result of task `x` in the elements `l`. -/
def cover (x : TaskId n) (l : List (BufferElt n)) : ℕ :=
  (l.map fun e => if Covers e x then 1 else 0).sum

/-- The results of session `k` in the elements `l`. -/
def submittedIn (k : ℕ) (l : List (BufferElt n)) : ℕ :=
  (l.map fun e => if e.batch.session = k then e.nbResult else 0).sum

section Elements

variable {k d : ℕ} {e : BufferElt n} {l : List (BufferElt n)} {x : TaskId n}

theorem cover_cons (x : TaskId n) (e : BufferElt n) (l : List (BufferElt n)) :
    cover x (e :: l) = (if Covers e x then 1 else 0) + cover x l := by
  simp [cover]

theorem submittedIn_cons (k : ℕ) (e : BufferElt n) (l : List (BufferElt n)) :
    submittedIn k (e :: l) = (if e.batch.session = k then e.nbResult else 0) + submittedIn k l := by
  simp [submittedIn]

theorem cover_pos : 0 < cover x l ↔ ∃ e ∈ l, Covers e x := by
  induction l with
  | nil => simp [cover]
  | cons e l ih =>
    rw [cover_cons]
    by_cases he : Covers e x
    · simp [he]
    · simp [he, ih]

/-- No element of the session, no results of the session. -/
theorem submittedIn_eq_zero (h : ∀ e ∈ l, e.batch.session ≠ k) : submittedIn k l = 0 := by
  induction l with
  | nil => rfl
  | cons e l ih =>
    rw [submittedIn_cons, if_neg (h e (List.mem_cons_self ..)),
      ih fun e he => h e (List.mem_cons_of_mem _ he)]

/-- An element has as many results as it says. -/
theorem sum_covers {owner : Fin n} {count : ℕ} (howner : e.owner = owner)
    (hlast : e.batch.session = k → e.firstTaskId + e.nbResult ≤ count) :
    ∑ i ∈ Finset.range count, (if Covers e ⟨k, owner, i⟩ then 1 else 0) =
      if e.batch.session = k then e.nbResult else 0 := by
  rw [← Finset.card_filter]
  by_cases hk : e.batch.session = k
  · have hle := hlast hk
    have hfilter : (Finset.range count).filter (fun i => Covers e ⟨k, owner, i⟩) =
        Finset.Ico e.firstTaskId (e.firstTaskId + e.nbResult) := by
      ext i
      simp only [Finset.mem_filter, Finset.mem_range, Finset.mem_Ico, Covers, hk, howner, true_and]
      omega
    rw [hfilter, Nat.card_Ico, if_pos hk, Nat.add_sub_cancel_left]
  · rw [if_neg hk, Finset.card_eq_zero, Finset.filter_eq_empty_iff]
    intro i _ hi
    exact hk hi.1.symm

theorem sum_cover {owner : Fin n} {count : ℕ} (howner : ∀ e ∈ l, e.owner = owner)
    (hlast : ∀ e ∈ l, e.batch.session = k → e.firstTaskId + e.nbResult ≤ count) :
    ∑ i ∈ Finset.range count, cover ⟨k, owner, i⟩ l = submittedIn k l := by
  induction l with
  | nil => simp [cover, submittedIn]
  | cons e l ih =>
    simp only [cover_cons, submittedIn_cons, Finset.sum_add_distrib]
    rw [sum_covers (howner e (List.mem_cons_self ..)) (hlast e (List.mem_cons_self ..)),
      ih (fun e he => howner e (List.mem_cons_of_mem _ he))
        fun e he => hlast e (List.mem_cons_of_mem _ he)]

end Elements

/-! ### The ledger of tasks and results -/

/-- The elements in a place. -/
def placed (s : State n) (p : Place n) : List (BufferElt n) :=
  elements (s.results.segment p.2) (s.results.rank p.2) p.1

/-- What ties the results of a run to its tasks. -/
structure LedgerOk (cfg : Config n) (s : State n) : Prop where
  /-- A rank has pushed the results of the tasks that it has executed, but for those in the tmp
  segment, -/
  executed : ∀ r x, (s.tasks r).executed.count x =
    cover x (s.results.rank r).pushed + (s.tasks r).tmp.copies (s.tasks r).current x
  /-- in elements that describe them, -/
  describes : ∀ r, ∀ e ∈ (s.results.rank r).pushed, Describes cfg e ∧ 0 < e.nbResult
  /-- of sessions that all ranks have called `set_problem` for. -/
  session : ∀ r, ∀ e ∈ (s.results.rank r).pushed, ∀ q, e.batch.session < (s.tasks q).session

/-- Rank `d` has submitted all results of session `k`. -/
def Complete (cfg : Config n) (s : State n) (k : ℕ) (d : Fin n) : Prop :=
  submittedIn k (s.results.rank d).submitted = cfg.nbTask k d

/-- Task `x` and its result are nowhere but in the results that rank `d` has submitted. -/
structure Settled (s : State n) (x : TaskId n) (d : Fin n) : Prop where
  place : ∀ p, p ≠ (.submitted, d) → cover x (placed s p) = 0
  tmp : ∀ r, (s.tasks r).tmp.copies (s.tasks r).current x = 0
  dequeue : ∀ r, (s.tasks r).dq.copies (s.tasks r).current x = 0
  segment : ∀ r, Tasks.segmentLive (s.tasks r) →
    (s.tasks r).seg.copies (s.tasks r).current x = 0

section Ledger

variable {k i : ℕ} {d : Fin n} {x : TaskId n} {e : BufferElt n} {p : Place n}

theorem copies_le_one (ht : TasksOk cfg s.tasks) (x : TaskId n) :
    Tasks.copies s.tasks x ≤ 1 := by
  by_cases hx : Tasks.Issued cfg s.tasks x
  · exact (ht.conserved.issued x hx).le
  · rw [ht.conserved.rest x hx]
    exact Nat.zero_le _

variable (hc : Results.Conserved s.results) (h : LedgerOk cfg s)

include hc h

/-- The copies of a task are in the elements, in the tmp segments, in the dequeues and live on the
task segments. -/
theorem total_copies (x : TaskId n) :
    ∑ p, cover x (placed s p) + ∑ r, (s.tasks r).tmp.copies (s.tasks r).current x +
      ∑ r, (s.tasks r).dq.copies (s.tasks r).current x +
      ∑ r, (if Tasks.segmentLive (s.tasks r) then
        (s.tasks r).seg.copies (s.tasks r).current x else 0) = Tasks.copies s.tasks x := by
  have hcover : ∑ p, cover x (placed s p) = ∑ r, cover x (s.results.rank r).pushed :=
    Ledger.sum_map_eq_of_count_eq hc.total _
  have hheld : Tasks.copies s.tasks x = ∑ r, (cover x (s.results.rank r).pushed +
      (s.tasks r).tmp.copies (s.tasks r).current x +
      (s.tasks r).dq.copies (s.tasks r).current x +
      if Tasks.segmentLive (s.tasks r) then
        (s.tasks r).seg.copies (s.tasks r).current x else 0) := by
    unfold Tasks.copies Ledger.total
    apply Finset.sum_congr rfl
    intro r _
    change Tasks.held x (s.tasks r) = _
    rw [Tasks.held, h.executed]
  rw [hheld, hcover, Finset.sum_add_distrib, Finset.sum_add_distrib, Finset.sum_add_distrib]

theorem cover_le_one (ht : TasksOk cfg s.tasks) (x : TaskId n) (p : Place n) :
    cover x (placed s p) ≤ 1 := by
  have htotal := total_copies hc h x
  have hone := copies_le_one ht x
  have hle := Finset.single_le_sum (f := fun p => cover x (placed s p)) (fun _ _ => Nat.zero_le _)
    (Finset.mem_univ p)
  omega

/-- The elements that rank `d` has submitted are its own, and inside its problems. -/
theorem submitted_inside (d : Fin n) : ∀ e ∈ (s.results.rank d).submitted,
    e.owner = d ∧ e.firstTaskId + e.nbResult ≤ cfg.nbTask e.batch.session d := by
  intro e he
  have hat : Results.At s.results e (.submitted, d) := he
  have howner : e.owner = d := hc.legal e _ (Results.at_iff.mp hat)
  obtain ⟨q, hq⟩ := hc.pushed_of_at hat
  have hlast := (h.describes q e hq).1.last_le
  rw [howner] at hlast
  exact ⟨howner, hlast⟩

theorem sum_submitted (k : ℕ) (d : Fin n) :
    ∑ i ∈ Finset.range (cfg.nbTask k d), cover ⟨k, d, i⟩ (s.results.rank d).submitted =
      submittedIn k (s.results.rank d).submitted := by
  apply sum_cover
  · exact fun e he => (submitted_inside hc h d e he).1
  · rintro e he rfl
    exact (submitted_inside hc h d e he).2

/-- A rank submits no more results in a session than it has tasks. -/
theorem submittedIn_le (ht : TasksOk cfg s.tasks) (k : ℕ) (d : Fin n) :
    submittedIn k (s.results.rank d).submitted ≤ cfg.nbTask k d := by
  rw [← sum_submitted hc h k d]
  calc ∑ i ∈ Finset.range (cfg.nbTask k d), cover ⟨k, d, i⟩ (s.results.rank d).submitted
      ≤ ∑ i ∈ Finset.range (cfg.nbTask k d), 1 := by
        apply Finset.sum_le_sum
        intro i _
        exact cover_le_one hc h ht ⟨k, d, i⟩ (.submitted, d)
    _ = cfg.nbTask k d := by simp

/-- A rank that has all its results has that of every task. -/
theorem Complete.cover_eq (hd : Complete cfg s k d) (ht : TasksOk cfg s.tasks)
    (hi : i < cfg.nbTask k d) : cover ⟨k, d, i⟩ (s.results.rank d).submitted = 1 := by
  have hle : ∀ j ∈ Finset.range (cfg.nbTask k d),
      cover ⟨k, d, j⟩ (s.results.rank d).submitted ≤ 1 :=
    fun j _ => cover_le_one hc h ht ⟨k, d, j⟩ (.submitted, d)
  have hsum := sum_submitted hc h k d
  rw [show submittedIn k (s.results.rank d).submitted = cfg.nbTask k d from hd] at hsum
  exact (Finset.sum_eq_sum_iff_of_le hle).mp (by rw [hsum]; simp) i (Finset.mem_range.mpr hi)

theorem Complete.settled (hd : Complete cfg s k d) (ht : TasksOk cfg s.tasks)
    (hi : i < cfg.nbTask k d) : Settled s ⟨k, d, i⟩ d := by
  have hsub : cover ⟨k, d, i⟩ (placed s (.submitted, d)) = 1 := hd.cover_eq hc h ht hi
  have htotal := total_copies hc h ⟨k, d, i⟩
  have hone := copies_le_one ht ⟨k, d, i⟩
  have hle := Finset.single_le_sum (f := fun p => cover ⟨k, d, i⟩ (placed s p))
    (fun _ _ => Nat.zero_le _) (Finset.mem_univ (.submitted, d))
  rw [hsub] at hle
  have htmp : ∑ r, (s.tasks r).tmp.copies (s.tasks r).current ⟨k, d, i⟩ = 0 := by omega
  have hdequeue : ∑ r, (s.tasks r).dq.copies (s.tasks r).current ⟨k, d, i⟩ = 0 := by omega
  have hsegment : ∑ r, (if Tasks.segmentLive (s.tasks r) then
      (s.tasks r).seg.copies (s.tasks r).current ⟨k, d, i⟩ else 0) = 0 := by omega
  constructor
  · obtain ⟨p, hp, hrest⟩ := Ledger.sum_eq_one_iff.mp
      (show ∑ p, cover ⟨k, d, i⟩ (placed s p) = 1 by omega)
    have hpd : (.submitted, d) = p := by
      by_contra hne
      have := hrest _ hne
      omega
    intro p' hne
    exact hrest p' (hpd ▸ hne)
  · exact fun r => Finset.sum_eq_zero_iff.mp htmp r (Finset.mem_univ r)
  · exact fun r => Finset.sum_eq_zero_iff.mp hdequeue r (Finset.mem_univ r)
  · intro r hlive
    have hzero := Finset.sum_eq_zero_iff.mp hsegment r (Finset.mem_univ r)
    rwa [if_pos hlive] at hzero

/-- An element of a rank that has all its results of that session has been submitted. -/
theorem Complete.submitted (ht : TasksOk cfg s.tasks) (he : Results.At s.results e p)
    (hd : Complete cfg s e.batch.session e.owner) : p.1 = .submitted := by
  obtain ⟨q, hq⟩ := hc.pushed_of_at he
  obtain ⟨hdesc, hpos⟩ := h.describes q e hq
  have hlast := hdesc.last_le
  by_contra hp
  have hsettled := hd.settled hc h ht (i := e.firstTaskId) (by omega)
  have hzero := hsettled.place p fun heq => hp (by rw [heq])
  have hcov : 0 < cover ⟨e.batch.session, e.owner, e.firstTaskId⟩ (placed s p) :=
    cover_pos.mpr ⟨e, he, rfl, rfl, le_rfl, Nat.lt_add_of_pos_right hpos⟩
  omega

end Ledger

end Titus.System
