import Titus.Tasks.Conservation

/-! How far the ranks are in the sessions of a run, and the results that a rank has in its tmp
segment and has not given to `push_tmp_results` yet. -/

namespace Titus.Tasks

variable {n : ℕ} {cfg : Config n}

/-! ### Sessions -/

section Sessions

variable {s s' : State n} {r v : Fin n} {a : Action n} {t : RankTasks n}

theorem RankOk.session_eq (h : RankOk cfg r t) (hpc : t.pc ≠ .idle) :
    t.session = t.finished + 1 := by
  have hsess := h.session
  unfold SessionOk at hsess
  split at hsess
  · exact absurd ‹_› hpc
  · exact hsess

theorem RankOk.session_eq_of_idle (h : RankOk cfg r t) (hpc : t.pc = .idle) :
    t.session = t.finished := by
  have hsess := h.session
  simp only [SessionOk, hpc] at hsess
  exact hsess

theorem RankOk.finished_le (h : RankOk cfg r t) :
    t.finished ≤ t.session ∧ t.session ≤ t.finished + 1 := by
  by_cases hpc : t.pc = .idle
  · have := h.session_eq_of_idle hpc
    omega
  · have := h.session_eq hpc
    omega

theorem Stepped.pc_of_ne (hs : Stepped cfg s r a s') (hv : v ≠ r) : (s' v).pc = (s v).pc := by
  obtain ⟨state, hstate⟩ := hs.other hv
  rw [hstate]
  rfl

/-- A step other than the call of `set_problem` or the return from `parallel_work` is followed by
others of the session. -/
theorem Stepped.inSession (hs : Stepped cfg s r a s') (ha : a ≠ .setProblem) (ha' : a ≠ .finish) :
    InSession (s' r).pc := by
  cases hs with
  | setProblem => exact absurd rfl ha
  | finish => exact absurd rfl ha'
  | readFirst b v len pc hpc hrest =>
    rw [Function.update_self]
    rcases hrest with ⟨rfl, -⟩ | ⟨rfl, -⟩ <;> constructor <;> rintro ⟨⟩
  | pushed site hpc =>
    rw [Function.update_self]
    simp only [InSession, hpc]
    constructor <;> rintro ⟨⟩
  | own b t ht =>
    rw [Function.update_self]
    obtain ⟨-, -, -, -, h1, h2, -⟩ := localNext_frame ht
    exact ⟨h1, h2⟩
  | _ =>
    rw [Function.update_self]
    constructor <;> rintro ⟨⟩

/-- Only the return of a rank from `parallel_work` ends its session. -/
theorem Stepped.finished (hs : Stepped cfg s r a s') (q : Fin n) :
    (s' q).finished = (s q).finished + if a = .finish ∧ q = r then 1 else 0 := by
  by_cases hq : q = r
  · subst hq
    cases hs with
    | finish hpc =>
      rw [Function.update_self, if_pos ⟨rfl, rfl⟩]
    | unlock b v state hpc =>
      rw [Function.update_self]
      by_cases hv : q = v
      · subst hv
        rw [Function.update_self]
        rfl
      · rw [Function.update_of_ne hv]
        rfl
    | own b t ht =>
      rw [Function.update_self, (localNext_frame ht).2.1]
      rfl
    | _ =>
      rw [Function.update_self]
      rfl
  · obtain ⟨state, hstate⟩ := hs.other hq
    rw [hstate, if_neg fun hc => hq hc.2]
    rfl

/-- A rank enters a session after all ranks have called `set_problem` for it, so that no rank is
ahead of another by more than that. -/
theorem finished_le_session (cfg : Config n) :
    (system cfg).Invariant fun s => ∀ r q, (s r).finished ≤ (s q).session := by
  apply (protocol_invariant cfg).of_step
  · intro s h r q
    rw [(h r).finished]
    exact Nat.zero_le _
  · rintro s ⟨p, a⟩ s' h hle hs r q
    have hstep := stepped_of_next hs
    have hsess := hstep.session q
    have hfin := hstep.finished r
    have hold := hle r q
    by_cases ha : a = .finish ∧ r = p
    · obtain ⟨rfl, rfl⟩ := ha
      have hpc : (s r).pc = .balancing := by
        cases hstep
        assumption
      have h1 := h.session r (by rw [hpc]; constructor <;> rintro ⟨⟩) q
      have h2 := (h.rank r).session_eq (by rw [hpc]; rintro ⟨⟩)
      rw [if_pos ⟨rfl, rfl⟩] at hfin
      omega
    · rw [if_neg ha] at hfin
      omega

end Sessions

/-! ### Results in the tmp segment -/

/-- The result of task `(session, owner, id)` is in the tmp segment. -/
def MetadataTmp.Contains (t : MetadataTmp n) (session : ℕ) (x : TaskId n) : Prop :=
  x.session = session ∧ t.ownerResultRank = some x.owner ∧ t.lastResultId - t.nbResult ≤ x.id ∧
    x.id < t.lastResultId

instance (t : MetadataTmp n) (session : ℕ) (x : TaskId n) : Decidable (t.Contains session x) :=
  inferInstanceAs (Decidable (_ ∧ _ ∧ _ ∧ _))

/-- The results of task `x` in the tmp segment: none or one. -/
def MetadataTmp.copies (t : MetadataTmp n) (k : ℕ) (x : TaskId n) : ℕ :=
  if t.Contains k x then 1 else 0

section Unreturned

variable {k : ℕ} {dq : Dequeue n} {tmp : MetadataTmp n} {x : TaskId n}

theorem MetadataTmp.copies_eq_zero (h : tmp.nbResult = 0) (k : ℕ) : tmp.copies k x = 0 := by
  apply if_neg
  simp only [MetadataTmp.Contains, h]
  omega

/-- `do_next_task` puts the result of the task that it executes into the tmp segment. -/
theorem copies_storeResult (h : TmpOk cfg k dq tmp) (hdq : DequeueOk cfg k dq)
    (hpos : 0 < dq.nbTask) (l : List (TaskId n)) :
    ((⟨k, dq.ownerTaskRank, dq.endTaskId - 1⟩ : TaskId n) :: l).count x + tmp.copies k x =
      l.count x + (storeResult cfg dq tmp).copies k x := by
  have hle := hdq.nbTask_le
  have hlast := h.last
  have howner : ∀ d, tmp.ownerResultRank = some d ↔ d = dq.ownerTaskRank := by
    intro d
    rw [h.owner, Option.some.injEq]
    exact eq_comm
  have hcount := ite_add_ite (p := (⟨k, dq.ownerTaskRank, dq.endTaskId - 1⟩ : TaskId n) = x)
    (q := tmp.Contains k x) (c := (storeResult cfg dq tmp).Contains k x) ?_ ?_
  · rw [List.count_cons]
    simp only [beq_iff_eq, MetadataTmp.copies]
    omega
  · simp only [MetadataTmp.Contains, storeResult, howner, TaskId.ext_iff]
    omega
  · rintro ⟨rfl, hx⟩
    have hge := hx.2.2.1
    simp only at hge
    omega

variable {r : Fin n} {t t' : RankTasks n}

/-- A rank has a result for every task that it executes, in its tmp segment. -/
theorem unreturned_localNext (h : RankOk cfg r t) {b : Bool}
    (hs : localNext cfg r t b = some t') :
    t'.executed.count x + t.tmp.copies t.current x =
      t.executed.count x + t'.tmp.copies t'.current x := by
  have hsess := (localNext_frame hs).1
  have hcur := RankTasks.current_congr hsess
  have hok := h.pc
  have hnew : t'.executed = t.executed → t.tmp.nbResult = 0 → t'.tmp.nbResult = 0 →
      t'.executed.count x + t.tmp.copies t.current x =
        t.executed.count x + t'.tmp.copies t'.current x := by
    intro hexec h0 h0'
    rw [hexec, MetadataTmp.copies_eq_zero h0, MetadataTmp.copies_eq_zero h0']
  have hsame : t'.executed = t.executed → t'.tmp = t.tmp →
      t'.executed.count x + t.tmp.copies t.current x =
        t.executed.count x + t'.tmp.copies t'.current x := by
    intro hexec htmp
    rw [hexec, htmp, hcur]
  cases localStepped_of_localNext hs with
  | solving hpc =>
    simp only [PcOk, hpc] at hok
    exact copies_storeResult hok.2.2 hok.1.dequeue hok.2.1 _
  | preparing hpc =>
    simp only [PcOk, hpc] at hok
    exact hnew rfl hok.2.2 rfl
  | returningFull hpc hnb => exact hnew rfl hnb rfl
  | _ => exact hsame rfl rfl

variable {s s' : State n} {a : Action n}

/-- On every rank the tasks executed since some moment are those whose results have been added to
the tmp segment since then, while these are not given to `push_tmp_results`. -/
theorem Stepped.unreturned (h : ProtocolOk cfg s) (hs : Stepped cfg s r a s') (ha : a ≠ .pushed)
    (x : TaskId n) (q : Fin n) :
    (s' q).executed.count x + (s q).tmp.copies (s q).current x =
      (s q).executed.count x + (s' q).tmp.copies (s' q).current x := by
  by_cases hq : q = r
  · subst hq
    have hr := h.rank q
    cases hs with
    | setProblem hpc hacc =>
      have hok := hr.pc
      simp only [PcOk, hpc] at hok
      rw [Function.update_self, MetadataTmp.copies_eq_zero hok.1.results]
      rw [MetadataTmp.copies_eq_zero (by rfl)]
      rfl
    | pushed => exact absurd rfl ha
    | unlock b v state hpc =>
      rw [Function.update_self]
      by_cases hv : q = v
      · subst hv
        rw [Function.update_self]
        rfl
      · rw [Function.update_of_ne hv]
        rfl
    | own b t ht =>
      rw [Function.update_self]
      exact unreturned_localNext hr ht
    | _ =>
      rw [Function.update_self]
      rfl
  · obtain ⟨state, hstate⟩ := hs.other hq
    rw [hstate]
    rfl

end Unreturned

end Titus.Tasks
